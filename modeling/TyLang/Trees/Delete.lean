import TyLang.Trees.Put

/-!
`dfixup`: a place where one black node is missing is moved up until it can be filled. It may be
the sentinel, whose parent field then says where the place is.
-/
namespace TyLang.Trees
open List RedBlack
open RedBlack.Tree (fork toList rootColor fork_flip rootColor_fork exists_fork_of_red
  toList_fork_congr toList_rotate toList_blacken blacken_fork mem_fork rootColor_blacken)

variable {K V : Type} {t : Tree K V} {ctx : Path K V} {x W B C : Shape K V} {d : Side} {c : Color}
  {P w : Entry K V} {h : Nat}

section Places

variable (t ctx x h) in
/-- A black node is missing on the paths through `x`. -/
structure Removed : Prop where
  rep : Rep t ctx x
  place : t.p (addrOf x) = parent ctx
  path : RBPath (h + 1) ctx
  short : Short h x

lemma p_of_keeps {t' : Tree K V} {ctx' : Path K V} (hrep : Rep t' ctx' x)
    (hp : t.p (addrOf x) = parent ctx) (hctx : parent ctx' = parent ctx) (hkeeps : Keeps t t') :
    t'.p (addrOf x) = parent ctx' := by
  rcases addrOf_mem x with hnull | ⟨e, he, heq⟩
  · rw [hnull] at hp ⊢
    rw [hkeeps.null, hp, hctx]
  · refine p_addrOf hrep.tree ?_
    rw [heq]
    exact (hrep.bounds e (mem_append_left _ he)).1

lemma addrOf_ne_null_of_mem {e : Entry K V} (hrep : Rep t ctx x) (he : e ∈ x.toList) :
    addrOf x ≠ null := by
  cases x with
  | leaf => cases he
  | node c e l r => exact (hrep.bounds e (mem_append_left _ (by simp [toList]))).1

lemma child_parent (hrep : Rep t (⟨d, c, P, W⟩ :: ctx) x) : t.child P.addr d.flip = addrOf W := by
  rw [Tree.child, hrep.path.1, cell_child_flip]

lemma rep_sibling : Rep t (⟨d, c, P, W⟩ :: ctx) x ↔ Rep t (⟨d.flip, c, P, x⟩ :: ctx) W := by
  rw [rep_cons, rep_cons]
  dsimp only
  rw [fork_flip]

end Places

section Sibling

/-- A red sibling is rotated above the parent. -/
lemma rep_redSibling (hrep : Rep t (⟨d, .black, P, fork d .red w B C⟩ :: ctx) x) :
    Rep (((t.setC w.addr 0).setC P.addr 1).rotate d P.addr)
      (⟨d, .red, P, B⟩ :: ⟨d, .black, w, C⟩ :: ctx) x ∧
    Keeps t (((t.setC w.addr 0).setC P.addr 1).rotate d P.addr) := by
  obtain ⟨hw, hkw⟩ := rep_setC .black (rep_sibling.mp hrep)
  obtain ⟨hP, hkP⟩ := rep_setC .red (rep_cons.mp (rep_sibling.mpr hw))
  obtain ⟨hrot, hkrot⟩ := rep_rotate hP
  exact ⟨rep_cons.mpr (rep_cons.mpr hrot), hkw.trans (hkP.trans hkrot)⟩

variable (t d ctx c P W x h) in
/-- What `blackSibling` makes of the place. -/
structure BlackSibling (t' : Tree K V) (w' : Addr) (c' : Color) (W' : Shape K V) (ctx' : Path K V) :
    Prop where
  removed : Removed t' (⟨d, c', P, W'⟩ :: ctx') x h
  addr : w' = addrOf W'
  black : W'.rootColor = .black
  list : (plug (⟨d, c', P, W'⟩ :: ctx') x).toList = (plug (⟨d, c, P, W⟩ :: ctx) x).toList
  keeps : Keeps t t'
  shorter : ctx' = ctx ∨ c' = .red ∧ ctx'.length = ctx.length + 1

lemma blackSibling_spec (hr : Removed t (⟨d, c, P, W⟩ :: ctx) x h) :
    ∃ c' W' ctx', BlackSibling t ctx x W d c P h (t.blackSibling d (addrOf x)).1
      (t.blackSibling d (addrOf x)).2 c' W' ctx' := by
  have hp : t.p (addrOf x) = P.addr := hr.place
  have hw := child_parent hr.rep
  have hwc : t.c (addrOf W) = colorInt W.rootColor := c_addrOf hr.rep.path.2.1 hr.rep.null_black
  unfold Tree.blackSibling
  simp only [hp, hw, hwc, p_setC]
  cases hW : W.rootColor with
  | black =>
    rw [if_neg (by decide)]
    exact ⟨c, W, ctx, hr, rfl, hW, rfl, ⟨rfl, rfl⟩, .inl rfl⟩
  | red =>
    rw [if_pos (by decide)]
    obtain ⟨w, B, C, rfl⟩ := exists_fork_of_red d hW
    cases hr.path with
    | red hs cs _ _ =>
      rw [hW] at cs
      cases cs
    | black hs hctx =>
      obtain ⟨hB, hC, cB, cC⟩ := hs.of_fork_red
      obtain ⟨hrep, hkeeps⟩ := rep_redSibling hr.rep
      rw [addrOf_fork]
      have hp' := p_of_keeps hrep hr.place rfl hkeeps
      refine ⟨.red, B, ⟨d, .black, w, C⟩ :: ctx, ⟨hrep, hp', ?_, hr.short⟩, ?_, cB, ?_, hkeeps,
        .inr ⟨rfl, rfl⟩⟩
      · exact .red hB cB rfl (.black hC hctx)
      · rw [hp']
        exact child_parent hrep
      · refine toList_plug_congr ctx ?_
        dsimp only
        rw [← toList_rotate]
        exact toList_fork_congr _ _ _ _ rfl (toList_fork_congr _ _ _ _ rfl rfl)

end Sibling

section Nephews

variable {b : Entry K V} {B₁ B₂ : Shape K V}

/-- A sibling with black children becomes red, and the place moves to the parent. -/
lemma Removed.up (hr : Removed t (⟨d, c, P, fork d .black w B C⟩ :: ctx) x h)
    (hx : x.rootColor = .black) (hB : B.rootColor = .black) (hC : C.rootColor = .black) :
    ∃ h', Removed (t.setC w.addr 1) ctx (fork d c P x (fork d .red w B C)) h' := by
  obtain ⟨hw, hkeeps⟩ := rep_setC .red (rep_sibling.mp hr.rep)
  have hrep := rep_cons.mp (rep_sibling.mpr hw)
  have hp : (t.setC w.addr 1).p (addrOf (fork d c P x (fork d .red w B C))) = parent ctx :=
    p_addrOf hrep.tree (addrOf_ne_null_of_mem hrep (mem_fork.mpr (.inl rfl)))
  have hx' := hr.short.black hx
  cases hr.path with
  | red hs cs cf hctx =>
    obtain ⟨_, ⟨⟩, hB', hC'⟩ := hs.of_fork_black
    refine ⟨h, hrep, hp, hctx, ⟨fun hblack => ?_, fun _ => ?_⟩⟩
    · rw [rootColor_fork] at hblack
      cases hblack
    · rw [blacken_fork]
      exact hx'.fork_black (hB'.fork_red hC' hB hC)
  | black hs hctx =>
    obtain ⟨_, ⟨⟩, hB', hC'⟩ := hs.of_fork_black
    exact ⟨h + 1, hrep, hp, hctx, (hx'.fork_black (hB'.fork_red hC' hB hC)).short⟩

/-- A red child of the sibling on the side of the place is rotated above it. -/
lemma rep_nearNephew (hrep : Rep t (⟨d, c, P, fork d .black w (fork d .red b B₁ B₂) C⟩ :: ctx) x) :
    Rep (((t.setC b.addr 0).setC w.addr 1).rotate d.flip w.addr)
      (⟨d, c, P, fork d .black b B₁ (fork d .red w B₂ C)⟩ :: ctx) x ∧
    Keeps t (((t.setC b.addr 0).setC w.addr 1).rotate d.flip w.addr) := by
  obtain ⟨hb, hkb⟩ := rep_setC (d := d) .black (rep_cons.mpr (rep_sibling.mp hrep) :
    Rep t (⟨d, .black, w, C⟩ :: ⟨d.flip, c, P, x⟩ :: ctx) (fork d .red b B₁ B₂))
  obtain ⟨hw, hkw⟩ := rep_setC .red (rep_cons.mp hb)
  dsimp only at hw
  rw [← fork_flip, ← fork_flip d .black] at hw
  obtain ⟨hrot, hkrot⟩ := rep_rotate hw
  rw [fork_flip, fork_flip] at hrot
  exact ⟨rep_sibling.mpr hrot, hkb.trans (hkw.trans hkrot)⟩

/-- A red child of the sibling on the other side is turned black above the place. -/
lemma rep_farNephew (hrep : Rep t (⟨d, c, P, fork d .black w B (fork d .red b B₁ B₂)⟩ :: ctx) x) :
    Rep ((((t.setC w.addr (colorInt c)).setC P.addr 0).setC b.addr 0).rotate d P.addr) ctx
      (fork d c w (fork d .black P x B) (fork d .black b B₁ B₂)) ∧
    Keeps t ((((t.setC w.addr (colorInt c)).setC P.addr 0).setC b.addr 0).rotate d P.addr) := by
  obtain ⟨hw, hkw⟩ := rep_setC c (rep_sibling.mp hrep)
  obtain ⟨hP, hkP⟩ := rep_setC .black (rep_cons.mp (rep_sibling.mpr hw))
  have hfar : Rep ((t.setC w.addr (colorInt c)).setC P.addr 0)
      (⟨d.flip, c, w, B⟩ :: ⟨d.flip, .black, P, x⟩ :: ctx) (fork d .red b B₁ B₂) := by
    rw [rep_cons, fork_flip, ← rep_sibling]
    exact rep_cons.mpr hP
  obtain ⟨hb, hkb⟩ := rep_setC .black hfar
  rw [rep_cons, fork_flip, ← rep_sibling] at hb
  obtain ⟨hrot, hkrot⟩ := rep_rotate (rep_cons.mp hb)
  exact ⟨hrot, hkw.trans (hkP.trans (hkb.trans hkrot))⟩

/-- The last rotation fills the place. -/
lemma Removed.fill (hr : Removed t (⟨d, c, P, fork d .black w B C⟩ :: ctx) x h)
    (hx : x.rootColor = .black) (hC : C.rootColor = .red) :
    Fits ctx (fork d c w (fork d .black P x B) C.blacken) := by
  have hx' := hr.short.black hx
  cases hr.path with
  | red hs cs cf hctx =>
    obtain ⟨_, ⟨⟩, hB', hC'⟩ := hs.of_fork_black
    have hnear : RB (h + 1) (fork d .black P x B) := hx'.fork_black hB'
    refine ⟨h + 1, hctx, hnear.fork_red (hC'.blacken_of_red hC) ?_ ?_, fun _ => ⟨_, rfl, cf⟩⟩
    · exact rootColor_fork ..
    · exact rootColor_blacken C
  | black hs hctx =>
    obtain ⟨_, ⟨⟩, hB', hC'⟩ := hs.of_fork_black
    refine ⟨h + 2, hctx, (hx'.fork_black hB').fork_black (hC'.blacken_of_red hC), fun hred => ?_⟩
    rw [rootColor_fork] at hred
    cases hred

/-- What `redNephew` leaves: the child on the far side is red. -/
structure FarRed (t t' : Tree K V) (ctx : Path K V) (x : Shape K V) (d : Side) (c : Color)
    (P : Entry K V) (h : Nat) (W : Shape K V) (w' : Entry K V) (B' C' : Shape K V) : Prop where
  removed : Removed t' (⟨d, c, P, fork d .black w' B' C'⟩ :: ctx) x h
  red : C'.rootColor = .red
  list : (fork d .black w' B' C').toList = W.toList
  keeps : Keeps t t'

lemma redNephew_spec (hr : Removed t (⟨d, c, P, fork d .black w B C⟩ :: ctx) x h)
    (hred : ¬ (B.rootColor = .black ∧ C.rootColor = .black)) :
    ∃ w' B' C', FarRed t (t.redNephew d (addrOf x) w.addr).1 ctx x d c P h (fork d .black w B C)
        w' B' C' ∧ (t.redNephew d (addrOf x) w.addr).2 = w'.addr := by
  have hw := holds_fork.mp hr.rep.path.2.1
  have hfar : t.child w.addr d.flip = addrOf C := by rw [Tree.child, hw.1, cell_child_flip]
  have hnear : t.child w.addr d = addrOf B := by rw [Tree.child, hw.1, cell_child]
  have hc : t.c (addrOf C) = colorInt C.rootColor := c_addrOf hw.2.2 hr.rep.null_black
  unfold Tree.redNephew
  simp only [hfar, hnear, hc, colorInt_eq_zero]
  cases hC : C.rootColor with
  | red =>
    rw [if_neg nofun]
    exact ⟨w, B, C, ⟨hr, hC, rfl, ⟨rfl, rfl⟩⟩, rfl⟩
  | black =>
    rw [if_pos rfl]
    have hB : B.rootColor = .red := by
      cases hB : B.rootColor with
      | red => rfl
      | black => exact absurd ⟨hB, hC⟩ hred
    obtain ⟨b, B₁, B₂, rfl⟩ := exists_fork_of_red d hB
    obtain ⟨hrep, hkeeps⟩ := rep_nearNephew hr.rep
    have hp := p_of_keeps hrep hr.place rfl hkeeps
    have hsib {n : Nat} (hs : RB n (fork d .black w (fork d .red b B₁ B₂) C)) :
        RB n (fork d .black b B₁ (fork d .red w B₂ C)) := by
      obtain ⟨n, rfl, hB', hC'⟩ := hs.of_fork_black
      obtain ⟨hB1, hB2, -, cB2⟩ := hB'.of_fork_red
      exact hB1.fork_black (hB2.fork_red hC' cB2 hC)
    rw [addrOf_fork]
    refine ⟨b, B₁, fork d .red w B₂ C, ⟨⟨hrep, hp, ?_, hr.short⟩, rootColor_fork .., ?_,
      hkeeps⟩, ?_⟩
    · cases hr.path with
      | red hs cs cf hctx => exact .red (hsib hs) (rootColor_fork ..) cf hctx
      | black hs hctx => exact .black (hsib hs) hctx
    · rw [toList_rotate]
      exact toList_fork_congr _ _ _ _ (toList_fork_congr _ _ _ _ rfl rfl) rfl
    · rw [hp]
      exact (child_parent hrep).trans (addrOf_fork ..)

end Nephews

section Rounds

def steps (ctx : Path K V) (x : Shape K V) : Nat :=
  2 * ctx.length + if x.rootColor = .black then 1 else 0

variable (t ctx x) in
/-- What a round of `dfixup` makes of a black place below the root. -/
structure DRound (t' : Tree K V) (x' : Addr) (ctx' : Path K V) (s' : Shape K V) (h' : Nat) :
    Prop where
  removed : Removed t' ctx' s' h'
  addr : x' = addrOf s'
  fewer : steps ctx' s' < steps ctx x
  list : (plug ctx' s').toList = (plug ctx x).toList
  keeps : Keeps t t'

lemma dfixupRound_removed (hr : Removed t (⟨d, c, P, W⟩ :: ctx) x h) (hx : x.rootColor = .black) :
    ∃ ctx' s' h', DRound t (⟨d, c, P, W⟩ :: ctx) x (t.dfixupRound d (addrOf x)).1
      (t.dfixupRound d (addrOf x)).2 ctx' s' h' := by
  obtain ⟨c1, W1, ctx1, hsib⟩ := blackSibling_spec hr
  unfold Tree.dfixupRound
  generalize t.blackSibling d (addrOf x) = first at hsib ⊢
  obtain ⟨t1, a⟩ := first
  dsimp only at hsib ⊢
  obtain ⟨hr1, rfl, hblack, hlist, hkeeps, hshorter⟩ := hsib
  obtain ⟨cw, w, B, C, rfl⟩ : ∃ cw w B C, W1 = fork d cw w B C := by
    cases hr1.path with
    | red hs _ _ _ | black hs _ => exact hs.exists_fork d
  obtain rfl : cw = .black := by rwa [rootColor_fork] at hblack
  have hp1 : t1.p (addrOf x) = P.addr := hr1.place
  have hw := holds_fork.mp hr1.rep.path.2.1
  have hnear : t1.child w.addr d = addrOf B := by rw [Tree.child, hw.1, cell_child]
  have hfar : t1.child w.addr d.flip = addrOf C := by rw [Tree.child, hw.1, cell_child_flip]
  have hcB : t1.c (addrOf B) = colorInt B.rootColor := c_addrOf hw.2.1 hr1.rep.null_black
  have hcC : t1.c (addrOf C) = colorInt C.rootColor := c_addrOf hw.2.2 hr1.rep.null_black
  have hiff : (t1.c (t1.child w.addr d) = 0 ∧ t1.c (t1.child w.addr d.flip) = 0) ↔
      B.rootColor = .black ∧ C.rootColor = .black := by
    rw [hnear, hfar, hcB, hcC, colorInt_eq_zero, colorInt_eq_zero]
  rw [addrOf_fork]
  by_cases hnephews : B.rootColor = .black ∧ C.rootColor = .black
  · rw [if_pos (hiff.mpr hnephews)]
    obtain ⟨h', hup⟩ := hr1.up hx hnephews.1 hnephews.2
    refine ⟨ctx1, _, h', hup, ?_, ?_, ?_, hkeeps.trans ⟨rfl, p_setC ..⟩⟩
    · rw [hp1, addrOf_fork]
    · rw [steps, steps, rootColor_fork, if_pos hx, length_cons]
      rcases hshorter with rfl | ⟨rfl, hlength⟩
      · split <;> omega
      · rw [if_neg (by decide)]
        omega
    · rw [← hlist]
      exact toList_plug_congr ctx1 (toList_fork_congr _ _ _ _ rfl
        (toList_fork_congr _ _ _ _ rfl rfl))
  · rw [if_neg (mt hiff.mp hnephews)]
    obtain ⟨w2, B₂, C2, hfarRed, haddr⟩ := redNephew_spec hr1 hnephews
    generalize t1.redNephew d (addrOf x) w.addr = second at hfarRed haddr ⊢
    obtain ⟨t2, a⟩ := second
    dsimp only at hfarRed haddr ⊢
    obtain rfl := haddr
    obtain ⟨hr2, hC2, hlist2, hkeeps2⟩ := hfarRed
    have hp2 : t2.p (addrOf x) = P.addr := hr2.place
    have hcP : t2.c P.addr = colorInt c1 := by rw [Tree.c, hr2.rep.path.1, cell_c]
    have hfar2 : t2.child w2.addr d.flip = addrOf C2 := by
      rw [Tree.child, (holds_fork.mp hr2.rep.path.2.1).1, cell_child_flip]
    have hfits := hr2.fill hx hC2
    obtain ⟨b, C3, C4, rfl⟩ := exists_fork_of_red d hC2
    obtain ⟨hrep, hkeeps3⟩ := rep_farNephew hr2.rep
    rw [blacken_fork] at hfits
    simp only [p_setC, child_setC, hp2, hcP, hfar2, addrOf_fork]
    obtain ⟨n, hn, hroot⟩ := fits_nil.mp hfits.plug
    refine ⟨[], _, n, ⟨rep_plug hrep, ?_, .nil, hn.short⟩, (rep_plug hrep).path, ?_, ?_,
      hkeeps.trans (hkeeps2.trans hkeeps3)⟩
    · have hmem : w2 ∈ (plug ctx1 (fork d c1 w2 (fork d .black P x B₂)
        (fork d .black b C3 C4))).toList :=
        mem_plug.mpr (.inl (mem_fork.mpr (.inl rfl)))
      exact p_addrOf (rep_plug hrep).tree (addrOf_ne_null_of_mem (rep_plug hrep) hmem)
    · rw [steps, steps, hroot, if_pos rfl, if_pos hx, length_cons, length_nil]
      omega
    · rw [← hlist]
      refine toList_plug_congr ctx1 ?_
      dsimp only
      rw [← toList_rotate]
      refine (toList_fork_congr _ _ _ _ rfl ?_)
      rw [← hlist2]
      exact toList_fork_congr _ _ _ _ rfl (toList_fork_congr _ _ _ _ rfl rfl)

end Rounds

section Loop

lemma HoldsPath.root_mem {a : Addr} (hpath : HoldsPath t a ctx) :
    t.root = a ∨ ∃ e ∈ around ctx, t.root = e.addr := by
  induction ctx generalizing a with
  | nil => exact .inl hpath
  | cons f ctx ih =>
    rcases ih hpath.2.2 with hroot | ⟨e, he, hroot⟩
    · exact .inr ⟨f.label, (.head _), hroot⟩
    · exact .inr ⟨e, .tail _ (mem_append_right _ he), hroot⟩

lemma addrOf_ne_around {e : Entry K V} (hrep : Rep t ctx x) (he : e ∈ around ctx) :
    addrOf x ≠ e.addr := by
  have hnull := (hrep.bounds e (mem_append_right _ he)).1
  have hapart := hrep.apart
  rw [map_append, nodup_append] at hapart
  exact addrOf_ne hnull fun o ho =>
    hapart.2.2 o.addr (mem_map_of_mem ho) e.addr (mem_map_of_mem he)

lemma addrOf_ne_root {f : Frame (Entry K V)} (hrep : Rep t (f :: ctx) x) : addrOf x ≠ t.root := by
  rcases HoldsPath.root_mem hrep.path.2.2 with hroot | ⟨e, he, hroot⟩
  · rw [hroot]
    exact addrOf_ne_around hrep (.head _)
  · rw [hroot]
    exact addrOf_ne_around hrep (.tail _ (mem_append_right _ he))

lemma side_of_place (hrep : Rep t (⟨d, c, P, W⟩ :: ctx) x) (hW : RB (h + 1) W) :
    (if addrOf x = t.l P.addr then Side.left else Side.right) = d := by
  obtain ⟨cw, w, B, C, rfl⟩ := hW.exists_fork d
  have hw : addrOf x ≠ w.addr := addrOf_ne_around hrep
    (.tail _ (mem_append_left _ (mem_fork.mpr (.inl rfl))))
  have hl : t.l P.addr = (cell d c P (addrOf x) w.addr (parent ctx)).l := by
    rw [Tree.l, hrep.path.1, addrOf_fork]
  rw [hl]
  cases d with
  | left => exact if_pos rfl
  | right => exact if_neg hw

lemma dfixup_spec {fuel : Nat} (hfuel : steps ctx x < fuel) (hr : Removed t ctx x h) :
    ∃ t' s', Tree.dfixup fuel t (addrOf x) = some t' ∧ Rep t' [] s' ∧ Fits [] s' ∧
      s'.toList = (plug ctx x).toList ∧ Keeps t t' := by
  induction fuel generalizing t ctx x h with
  | zero => omega
  | succ fuel ih =>
    have hrep := hr.rep
    have hc : t.c (addrOf x) = colorInt x.rootColor := c_addrOf hrep.tree hrep.null_black
    have hstop : ¬ (addrOf x ≠ t.root ∧ t.c (addrOf x) = 0) → Fits ctx x.blacken →
        ∃ t' s', Tree.dfixup (fuel + 1) t (addrOf x) = some t' ∧ Rep t' [] s' ∧ Fits [] s' ∧
          s'.toList = (plug ctx x).toList ∧ Keeps t t' := by
      intro hcond hfits
      obtain ⟨hrep', hkeeps⟩ := rep_blacken hrep
      exact ⟨_, _, if_neg hcond, rep_plug hrep', hfits.plug,
        toList_plug_congr ctx (toList_blacken x), hkeeps⟩
    cases ctx with
    | nil =>
      obtain ⟨n, hn⟩ := hr.short.rb_blacken
      have hroot : t.root = addrOf x := hrep.path
      exact hstop (fun hcond => hcond.1 hroot.symm)
        (fits_nil.mpr ⟨n, hn, rootColor_blacken x⟩)
    | cons f ctx =>
      cases hx : x.rootColor with
      | red =>
        refine hstop (fun hcond => ?_) ⟨h + 1, hr.path, hr.short.red hx, fun hred => ?_⟩
        · rw [hc, hx] at hcond
          exact absurd hcond.2 (by decide)
        · rw [rootColor_blacken] at hred
          cases hred
      | black =>
        obtain ⟨d, c, P, W⟩ := f
        have hW : RB (h + 1) W := by
          cases hr.path with
          | red hs _ _ _ | black hs _ => exact hs
        have hcond : addrOf x ≠ t.root ∧ t.c (addrOf x) = 0 :=
          ⟨addrOf_ne_root hrep, by rw [hc, hx, colorInt]⟩
        have hp : t.p (addrOf x) = P.addr := hr.place
        obtain ⟨ctx', s', h', hround⟩ := dfixupRound_removed hr hx
        have hfewer := hround.fewer
        obtain ⟨t', u, hrun, hu, hfits, hlist, hkeeps⟩ := ih (by omega) hround.removed
        refine ⟨t', u, ?_, hu, hfits, hlist.trans hround.list, hround.keeps.trans hkeeps⟩
        rw [← hround.addr] at hrun
        rw [Tree.dfixup, if_pos hcond, hp]
        dsimp only
        rwa [side_of_place hrep hW]

end Loop

end TyLang.Trees

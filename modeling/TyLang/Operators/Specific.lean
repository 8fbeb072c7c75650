import TyLang.Compare.Objects

/-!
The most specific definition of an operator. `check_slow`, at run time, and `find_op_fun`,
for the type checker, keep one match while they scan the definitions, and replace it by a
definition for subclasses. They settle on the most specific definition in every order of
the list, unless the scan can leave it again: for a definition of the same classes,
or since `Object` and a trait that it implements are subclasses of each other.
-/
namespace TyLang.Operators
open List

open Classes (Table)
open Compare (isSubclass Applies)

/-- A definition with its expression, as the type checker has it. -/
structure Definition (E : Type) extends OperatorSpec where
  expr : E
  deriving DecidableEq, Repr

section Scan

variable {E : Type} (sub : BitVec 32 → BitVec 32 → Bool) (t1 t2 : BitVec 32)

def findOpFunLoop : List (Definition E) → Option (Definition E) → Option E
  | [], best => best.map (·.expr)
  | op :: list, best =>
    if t1 = op.t1 ∧ t2 = op.t2 then some op.expr
    else if sub t1 op.t1 && sub t2 op.t2 &&
        best.all (fun m => areOrdered sub op.toOperatorSpec m.toOperatorSpec) then
      findOpFunLoop list (some op)
    else findOpFunLoop list best

def findOpFun (list : List (Definition E)) : Option E := findOpFunLoop sub t1 t2 list none

def specs (list : List (Definition E)) : List OperatorSpec := list.map (·.toOperatorSpec)

abbrev Exact (op : Definition E) : Prop := t1 = op.t1 ∧ t2 = op.t2

def applicable (op : Definition E) : Bool := sub t1 op.t1 && sub t2 op.t2

/-- The parameter classes of `a` are subclasses of those of `b`. -/
def below (a b : Definition E) : Bool := sub a.t1 b.t1 && sub a.t2 b.t2

structure MostSpecific (defs : List (Definition E)) (m : Definition E) : Prop where
  mem : m ∈ defs
  fits : applicable sub t1 t2 m
  least : ∀ op ∈ defs, applicable sub t1 t2 op → below sub m op

/-- One step from a definition to an applicable one for subclasses, or for the same classes. -/
def Leads (defs : List (Definition E)) (a b : Definition E) : Prop :=
  b ∈ defs ∧ applicable sub t1 t2 b ∧ below sub b a

def Agree (a b : Definition E) : Prop := a.ref = b.ref ∧ a.expr = b.expr

/-- Nothing that a scan can end with differs from `m`. -/
def Settles (defs : List (Definition E)) (m : Definition E) : Prop :=
  (∀ op ∈ defs, Exact t1 t2 op → Agree op m) ∧
  ((∀ op ∈ defs, ¬ Exact t1 t2 op) →
    ∀ op, Relation.ReflTransGen (Leads sub t1 t2 defs) m op → Agree op m)

/-- The definition that both scans end with. -/
def pick : List (Definition E) → Option (Definition E) → Option (Definition E)
  | [], best => best
  | op :: list, best =>
    if Exact t1 t2 op then some op
    else if applicable sub t1 t2 op &&
        best.all (fun m => areOrdered sub op.toOperatorSpec m.toOperatorSpec) then
      pick list (some op)
    else pick list best

end Scan

variable {E : Type} {sub : BitVec 32 → BitVec 32 → Bool} {t1 t2 : BitVec 32}
  {defs l : List (Definition E)} {best : Option (Definition E)} {a b m x y : Definition E}

lemma findOpFunLoop_eq : findOpFunLoop sub t1 t2 l best = (pick sub t1 t2 l best).map (·.expr) := by
  induction l generalizing best with
  | nil => rfl
  | cons op l ih =>
    rw [findOpFunLoop, pick]
    by_cases hop : t1 = op.t1 ∧ t2 = op.t2
    · rw [if_pos hop, if_pos hop]
      rfl
    · rw [if_neg hop, if_neg hop, applicable]
      split
      · exact ih
      · exact ih

lemma checkSlowLoop_eq (hrefs : ∀ op ∈ l, 0 ≤ op.ref) :
    checkSlowLoop sub t1 t2 (specs l) (best.map (·.toOperatorSpec)) =
      ((pick sub t1 t2 l best).map (·.ref)).getD opNoImpl := by
  induction l generalizing best with
  | nil => cases best <;> rfl
  | cons op l ih =>
    have hop := hrefs op (.head _)
    have hl : ∀ op ∈ l, 0 ≤ op.ref := fun op hmem => hrefs op (.tail _ hmem)
    have hall : (best.map (·.toOperatorSpec)).all (areOrdered sub op.toOperatorSpec) =
        best.all fun m => areOrdered sub op.toOperatorSpec m.toOperatorSpec := by
      cases best <;> rfl
    rw [specs, map_cons, checkSlowLoop, if_neg (by omega), pick, hall]
    by_cases hop : t1 = op.t1 ∧ t2 = op.t2
    · rw [if_pos hop, if_pos hop]
      rfl
    · rw [if_neg hop, if_neg hop, applicable]
      split
      · exact @ih (some op) hl
      · exact ih hl

lemma pick_append {l' : List (Definition E)} (hl : ∀ op ∈ l, ¬ Exact t1 t2 op) :
    pick sub t1 t2 (l ++ l') best = pick sub t1 t2 l' (pick sub t1 t2 l best) := by
  induction l generalizing best with
  | nil => rfl
  | cons op l ih =>
    obtain ⟨hop, hl⟩ := forall_mem_cons.mp hl
    rw [cons_append, pick, pick, if_neg hop, if_neg hop]
    split
    · exact ih hl
    · exact ih hl

lemma pick_exact (h : ∃ op ∈ l, Exact t1 t2 op) :
    ∃ op ∈ l, Exact t1 t2 op ∧ pick sub t1 t2 l best = some op := by
  induction l generalizing best with
  | nil => simp at h
  | cons op l ih =>
    rw [pick]
    by_cases hop : Exact t1 t2 op
    · exact ⟨op, (.head _), hop, if_pos hop⟩
    obtain ⟨e, he, hexact⟩ := h
    have hmem : e ∈ l := (mem_cons.mp he).resolve_left (fun heq => hop (heq ▸ hexact))
    rw [if_neg hop]
    split
    · obtain ⟨e, he, hpick⟩ := @ih (some op) ⟨e, hmem, hexact⟩
      exact ⟨e, .tail _ he, hpick⟩
    · obtain ⟨e, he, hpick⟩ := @ih best ⟨e, hmem, hexact⟩
      exact ⟨e, .tail _ he, hpick⟩

/-! ### What a scan can end with -/

/-- The two definitions are for the same classes. -/
def Same (a b : Definition E) : Prop := a.t1 = b.t1 ∧ a.t2 = b.t2

lemma areOrdered_iff : areOrdered sub a.toOperatorSpec b.toOperatorSpec ↔
    below sub a b ∧ ¬ Same a b := by
  simp only [areOrdered, below, Same, Bool.and_eq_true, Bool.or_eq_true, bne_iff_ne]
  tauto

lemma Same.below_left (h : Same a b) : below sub a x = below sub b x := by
  rw [below, below, h.1, h.2]

lemma Same.areOrdered_right (h : Same a b) :
    areOrdered sub x.toOperatorSpec a.toOperatorSpec =
      areOrdered sub x.toOperatorSpec b.toOperatorSpec := by
  rw [areOrdered, areOrdered, h.1, h.2]

lemma Same.areOrdered_left (h : Same a b) :
    areOrdered sub a.toOperatorSpec x.toOperatorSpec =
      areOrdered sub b.toOperatorSpec x.toOperatorSpec := by
  rw [areOrdered, areOrdered, h.1, h.2]

lemma below_refl (hrefl : ∀ c, sub c c) (h : Same a b) : below sub a b := by
  rw [below, h.1, h.2, hrefl, hrefl]
  rfl

/-- Once the scan is past `m`, its match is one that `m` leads to. -/
lemma pick_leads (hrefl : ∀ c, sub c c) (hm : MostSpecific sub t1 t2 defs m)
    (hsub : l ⊆ defs) (hexact : ∀ op ∈ l, ¬ Exact t1 t2 op)
    (hbest : ∀ b ∈ best, b ∈ defs ∧ applicable sub t1 t2 b)
    (hseen : m ∈ l ∨ ∃ b ∈ best, Relation.ReflTransGen (Leads sub t1 t2 defs) m b) :
    ∃ op, pick sub t1 t2 l best = some op ∧
      Relation.ReflTransGen (Leads sub t1 t2 defs) m op := by
  induction l generalizing best with
  | nil =>
    obtain ⟨b, hb, hleads⟩ := hseen.resolve_left not_mem_nil
    exact ⟨b, hb, hleads⟩
  | cons op l ih =>
    obtain ⟨hop, hl⟩ := forall_mem_cons.mp hexact
    obtain ⟨hmem, hsub⟩ := cons_subset.mp hsub
    rw [pick, if_neg hop]
    split
    · rename_i htake
      rw [Bool.and_eq_true] at htake
      refine ih hsub hl (fun b hb => ?_) ?_
      · cases hb
        exact ⟨hmem, htake.1⟩
      rcases hseen with hseen | ⟨b, hb, hleads⟩
      · rcases mem_cons.mp hseen with rfl | hseen
        · exact .inr ⟨m, rfl, .refl⟩
        · exact .inl hseen
      · cases hb
        exact .inr ⟨op, rfl, hleads.tail ⟨hmem, htake.1, (areOrdered_iff.mp htake.2).1⟩⟩
    · rename_i hskip
      refine ih hsub hl hbest ?_
      rcases hseen with hseen | hseen
      · rcases mem_cons.mp hseen with rfl | hseen
        · -- the scan keeps its match, so that is for the same classes
          cases best with
          | none => simp [hm.fits] at hskip
          | some b =>
            obtain ⟨hb, hfits⟩ := hbest b rfl
            have hsame : Same m b := by
              by_contra hne
              exact hskip (by simp [hm.fits, areOrdered_iff.mpr ⟨hm.least b hb hfits, hne⟩])
            exact .inr ⟨b, rfl, .single ⟨hb, hfits, below_refl hrefl ⟨hsame.1.symm, hsame.2.symm⟩⟩⟩
        · exact .inl hseen
      · exact .inr hseen

/-- A chain of definitions from a most specific one to `y`, the last one first, in which each
replaces the one before it. -/
structure Route (sub : BitVec 32 → BitVec 32 → Bool) (t1 t2 : BitVec 32)
    (defs : List (Definition E)) (y : Definition E) (r : List (Definition E)) : Prop where
  chain : (y :: r).IsChain fun a b => areOrdered sub a.toOperatorSpec b.toOperatorSpec
  nodup : (y :: r).Nodup
  mem : ∀ op ∈ y :: r, op ∈ defs ∧ applicable sub t1 t2 op
  last : MostSpecific sub t1 t2 defs ((y :: r).getLast (cons_ne_nil y r))

lemma MostSpecific.route (h : MostSpecific sub t1 t2 defs m) : Route sub t1 t2 defs m [] :=
  ⟨.singleton m, nodup_singleton m, by simp [h.mem, h.fits], h⟩

variable {r : List (Definition E)}

lemma Route.tail (h : Route sub t1 t2 defs y (x :: r)) :
    Route sub t1 t2 defs x r ∧ areOrdered sub y.toOperatorSpec x.toOperatorSpec := by
  obtain ⟨hyx, hchain⟩ := isChain_cons_cons.mp h.chain
  refine ⟨⟨hchain, h.nodup.of_cons, fun op hop => h.mem op (mem_cons_of_mem y hop), ?_⟩, hyx⟩
  have hlast := h.last
  rwa [getLast_cons (cons_ne_nil x r)] at hlast

lemma Route.extend (h : Route sub t1 t2 defs x r) (hy : y ∈ defs ∧ applicable sub t1 t2 y)
    (hyx : areOrdered sub y.toOperatorSpec x.toOperatorSpec) :
    ∃ r', Route sub t1 t2 defs y r' := by
  by_cases hmem : y ∈ x :: r
  · obtain ⟨as, bs, heq⟩ := append_of_mem hmem
    refine ⟨bs, (heq ▸ h.chain).right_of_append, (heq ▸ h.nodup).of_append_right,
      fun op hop => h.mem op (heq ▸ mem_append_right as hop), ?_⟩
    have hlast := h.last
    simp only [heq, getLast_append_of_ne_nil _ (cons_ne_nil y bs)] at hlast
    exact hlast
  · refine ⟨x :: r, h.chain.cons_cons hyx, h.nodup.cons hmem, ?_, ?_⟩
    · exact forall_mem_cons.mpr ⟨hy, h.mem⟩
    · rw [getLast_cons (cons_ne_nil x r)]
      exact h.last

lemma MostSpecific.of_same (h : MostSpecific sub t1 t2 defs x) (hy : y ∈ defs)
    (hfits : applicable sub t1 t2 y) (hsame : Same y x) : MostSpecific sub t1 t2 defs y :=
  ⟨hy, hfits, fun op hop happ => hsame.below_left.trans (h.least op hop happ)⟩

lemma exists_route (hm : MostSpecific sub t1 t2 defs m)
    (hy : Relation.ReflTransGen (Leads sub t1 t2 defs) m y) :
    ∃ r, Route sub t1 t2 defs y r := by
  induction hy with
  | refl => exact ⟨[], hm.route⟩
  | @tail x y _ hstep ih =>
    obtain ⟨r, hr⟩ := ih
    obtain ⟨hy, hfits, hbelow⟩ := hstep
    by_cases hsame : Same y x
    · cases r with
      | nil => exact ⟨[], (MostSpecific.of_same hr.last hy hfits hsame).route⟩
      | cons w r =>
        obtain ⟨hw, hxw⟩ := hr.tail
        exact hw.extend ⟨hy, hfits⟩ (hsame.areOrdered_left.trans hxw)
    · exact hr.extend ⟨hy, hfits⟩ (areOrdered_iff.mpr ⟨hbelow, hsame⟩)

lemma pick_mem (hbest : ∀ b ∈ best, b ∈ defs ∧ applicable sub t1 t2 b) (hsub : l ⊆ defs)
    (hexact : ∀ op ∈ l, ¬ Exact t1 t2 op) :
    ∀ b ∈ pick sub t1 t2 l best, b ∈ defs ∧ applicable sub t1 t2 b := by
  induction l generalizing best with
  | nil => exact hbest
  | cons op l ih =>
    obtain ⟨hop, hl⟩ := forall_mem_cons.mp hexact
    obtain ⟨hmem, hsub⟩ := cons_subset.mp hsub
    rw [pick, if_neg hop]
    split
    · rename_i htake
      rw [Bool.and_eq_true] at htake
      refine ih (fun b hb => ?_) hsub hl
      cases hb
      exact ⟨hmem, htake.1⟩
    · exact ih hbest hsub hl

/-- After the other definitions, a scan follows the route to its end. -/
lemma Route.pick_eq {rest : List (Definition E)} (hrest : rest ⊆ defs)
    (hexact : ∀ op ∈ defs, ¬ Exact t1 t2 op) : ∀ {r y}, Route sub t1 t2 defs y r →
    ∃ x, pick sub t1 t2 (rest ++ (y :: r).reverse) none = some x ∧ Same y x ∧ (r ≠ [] → x = y) := by
  intro r
  have hrest' : ∀ op ∈ rest, ¬ Exact t1 t2 op := fun op hop => hexact op (hrest hop)
  induction r with
  | nil =>
    intro y h
    rw [reverse_singleton, pick_append hrest', pick, if_neg (hexact y h.last.mem)]
    have hmem : ∀ b ∈ pick sub t1 t2 rest none, b ∈ defs ∧ applicable sub t1 t2 b :=
      pick_mem (fun b hb => nomatch hb) hrest hrest'
    cases hbest : pick sub t1 t2 rest none with
    | none =>
      have hfits : applicable sub t1 t2 y := h.last.fits
      exact ⟨y, by simp [hfits, pick], ⟨rfl, rfl⟩, fun hne => absurd rfl hne⟩
    | some b =>
      obtain ⟨hb, hfits⟩ := hmem b hbest
      by_cases hsame : Same y b
      · refine ⟨b, ?_, hsame, fun hne => absurd rfl hne⟩
        rw [if_neg (by simp [areOrdered_iff, hsame]), pick]
      · refine ⟨y, ?_, ⟨rfl, rfl⟩, fun hne => absurd rfl hne⟩
        rw [if_pos, pick]
        simp only [Option.all_some, Bool.and_eq_true]
        exact ⟨h.last.fits, areOrdered_iff.mpr ⟨h.last.least b hb hfits, hsame⟩⟩
  | cons w r ih =>
    intro y h
    obtain ⟨hw, hyw⟩ := h.tail
    obtain ⟨x, hx, hsame, -⟩ := ih hw
    obtain ⟨hy, hfits⟩ := h.mem y (.head _)
    refine ⟨y, ?_, ⟨rfl, rfl⟩, fun _ => rfl⟩
    rw [reverse_cons, ← append_assoc, pick_append, hx, pick, if_neg (hexact y hy), if_pos, pick]
    · simp only [Option.all_some, Bool.and_eq_true]
      exact ⟨hfits, hsame.areOrdered_right.symm.trans hyw⟩
    · intro op hop
      rcases mem_append.mp hop with hop | hop
      · exact hrest' op hop
      · exact hexact op (hw.mem op (mem_reverse.mp hop)).1

/-! ### Both scans -/

lemma pick_eq_some_iff (hrefs : ∀ op ∈ l, 0 ≤ op.ref) :
    (checkSlow sub (specs l) t1 t2 = m.ref ∧ findOpFun sub t1 t2 l = some m.expr) ↔
      ∃ op, pick sub t1 t2 l none = some op ∧ Agree op m := by
  have hslow := @checkSlowLoop_eq E sub t1 t2 l none hrefs
  rw [Option.map_none] at hslow
  rw [checkSlow, hslow, findOpFun, findOpFunLoop_eq]
  cases pick sub t1 t2 l none with
  | none =>
    refine ⟨fun h => ?_, fun ⟨_, h, _⟩ => nomatch h⟩
    cases h.2
  | some op => simp [Agree]

lemma agree_of_exact (hpick : ∀ l, l.Perm defs → ∃ op, pick sub t1 t2 l none = some op ∧ Agree op m)
    (hx : x ∈ defs) (hexact : Exact t1 t2 x) : Agree x m := by
  obtain ⟨as, bs, rfl⟩ := append_of_mem hx
  obtain ⟨op, hop, hagree⟩ := hpick (x :: (as ++ bs)) perm_middle.symm
  rw [pick, if_pos hexact] at hop
  cases hop
  exact hagree

lemma Route.agree (h : Route sub t1 t2 defs y r) (hr : r ≠ [])
    (hexact : ∀ op ∈ defs, ¬ Exact t1 t2 op)
    (hpick : ∀ l, l.Perm defs → ∃ op, pick sub t1 t2 l none = some op ∧ Agree op m) :
    Agree y m := by
  obtain ⟨l, hl, hsub⟩ := subperm_of_subset h.nodup fun op hop => (h.mem op hop).1
  obtain ⟨rest, hrest⟩ := hsub.exists_perm_append
  have hperm : (rest ++ (y :: r).reverse).Perm defs :=
    ((perm_append_comm.trans ((reverse_perm _).trans hl.symm |>.append_right rest))).trans
      hrest.symm
  obtain ⟨x, hx, -, heq⟩ := h.pick_eq (fun op hop => hperm.subset (mem_append_left _ hop)) hexact
  obtain ⟨op, hop, hagree⟩ := hpick _ hperm
  rw [hx] at hop
  cases hop
  exact heq hr ▸ hagree

/-- Both scans give the most specific definition, in every order of the list, exactly if all
that a scan can end with agrees with it. -/
theorem checkSlow_mostSpecific_iff (t : Table) (defs : List (Definition E)) (t1 t2 : BitVec 32)
    (hrefs : ∀ op ∈ defs, 0 ≤ op.ref) :
    ((∀ m, MostSpecific (isSubclass t) t1 t2 defs m → ∀ l : List (Definition E), l.Perm defs →
        checkSlow (isSubclass t) (specs l) t1 t2 = m.ref ∧
        findOpFun (isSubclass t) t1 t2 l = some m.expr) ↔
      ∀ m, MostSpecific (isSubclass t) t1 t2 defs m → Settles (isSubclass t) t1 t2 defs m) ∧
    (checkSlow (isSubclass t) (specs defs) t1 t2 = opNoImpl ↔
      ∀ op ∈ defs, applicable (isSubclass t) t1 t2 op = false) := by
  have hiff : ∀ {m l}, l.Perm defs →
      ((checkSlow (isSubclass t) (specs l) t1 t2 = m.ref ∧
        findOpFun (isSubclass t) t1 t2 l = some m.expr) ↔
        ∃ op, pick (isSubclass t) t1 t2 l none = some op ∧ Agree op m) := fun hl =>
    pick_eq_some_iff fun op hop => hrefs op (hl.subset hop)
  refine ⟨⟨fun h m hm => ?_, fun h m hm l hl => (hiff hl).mpr ?_⟩, ?_⟩
  · have hpick := fun m (hm : MostSpecific (isSubclass t) t1 t2 defs m) l hl =>
      (hiff hl).mp (h m hm l hl)
    refine ⟨fun op hop => agree_of_exact (hpick m hm) hop, fun hexact y hy => ?_⟩
    obtain ⟨r, hr⟩ := exists_route hm hy
    cases r with
    | nil =>
      have hy := h y hr.last defs (.refl _)
      have hm := h m hm defs (.refl _)
      exact ⟨hy.1.symm.trans hm.1, Option.some_inj.mp (hy.2.symm.trans hm.2)⟩
    | cons w r => exact hr.agree (cons_ne_nil w r) hexact (hpick m hm)
  · by_cases hexact : ∃ op ∈ l, Exact t1 t2 op
    · obtain ⟨op, hop, hop', hpick⟩ := pick_exact hexact
      exact ⟨op, hpick, (h m hm).1 op (hl.subset hop) hop'⟩
    · push Not at hexact
      obtain ⟨op, hop, hleads⟩ := @pick_leads _ _ _ _ _ l none m (Compare.isSubclass_refl t) hm
        hl.subset hexact (by simp) (.inl (hl.symm.subset hm.mem))
      exact ⟨op, hop, (h m hm).2 (fun op hop => hexact op (hl.symm.subset hop)) op hleads⟩
  · rw [Compare.checkSlow_eq_noImpl_iff, specs, forall_mem_map]
    refine forall₂_congr fun op hop => ?_
    have := hrefs op hop
    rw [Applies, applicable, ← Bool.not_eq_true, Bool.and_eq_true]
    exact not_congr (and_iff_right (by omega))

/-- A definition for `Object`, and one for a class. -/
def twoDefs : List (Definition Bool) := [⟨⟨0, 0, 3⟩, false⟩, ⟨⟨1, 1, 4⟩, true⟩]

theorem checkSlow_mostSpecific_two :
    checkSlow (isSubclass (Classes.classNew Classes.start)) (specs twoDefs) 1 1 = 4 := by
  have hmain := checkSlow_mostSpecific_iff (Classes.classNew Classes.start) twoDefs 1 1 (by decide)
  refine (hmain.1.mpr (fun m hm => ⟨?_, fun h => ?_⟩) ⟨⟨1, 1, 4⟩, true⟩
    ⟨by decide, by decide, by decide⟩ twoDefs (.refl _)).1
  · have hleast : ∀ m ∈ twoDefs, (∀ op ∈ twoDefs, applicable (isSubclass
        (Classes.classNew Classes.start)) 1 1 op → below (isSubclass
        (Classes.classNew Classes.start)) m op) → ∀ op ∈ twoDefs, Exact 1 1 op →
        op.ref = m.ref ∧ op.expr = m.expr := by decide
    exact hleast m hm.mem hm.least
  · exact absurd ⟨rfl, rfl⟩ (h ⟨⟨1, 1, 4⟩, true⟩ (by decide))

/-- `Object` implements a trait with a super-trait. A scan leaves the trait for `Object`, and
`Object` for the super-trait. -/
theorem checkSlow_superTrait : ∃ t defs, MostSpecific (isSubclass t) 3 3 defs
      (⟨⟨2, 2, 7⟩, ()⟩ : Definition Unit) ∧
    checkSlow (isSubclass t) (specs defs) 3 3 = 9 ∧ below (isSubclass t) (⟨⟨1, 1, 9⟩, ()⟩ :
      Definition Unit) ⟨⟨2, 2, 7⟩, ()⟩ = false :=
  ⟨Classes.classNew (Classes.classImplementTrait (Classes.classSetSuper (Classes.traitNew
      (Classes.traitNew Classes.start)) 2 1) 0 2),
    [⟨⟨2, 2, 7⟩, ()⟩, ⟨⟨0, 0, 8⟩, ()⟩, ⟨⟨1, 1, 9⟩, ()⟩],
    ⟨by decide, by decide, by decide⟩, by decide, by decide⟩

end TyLang.Operators

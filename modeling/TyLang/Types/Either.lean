import TyLang.Types.Preorder

/-!
`Either` and `Uniq` of `src/types.c`: the union of two types, without the members that
another member accepts. It is above the two in the order, so that the check accepts them for
it where nothing is hidden.
-/
namespace TyLang.Types
open List Typ

section Either

variable (W : World)

def members : Typ → List Typ
  | .union types => types
  | t => [t]

/-- One round of the loop of `Uniq` on a union, with the members it has kept. -/
def uniqStep (kept : List Typ) (t : Typ) : List Typ :=
  if typeCheck W t (.union kept) then [t]
  else if unionHasSuper (typeCheckX W 65) t kept then kept
  else kept ++ [t]

def uniq (types : List Typ) : Typ :=
  match types with
  | [t] => t
  | _ => .union (types.foldl (uniqStep W) [])

def either (t0 t1 : Typ) : Typ :=
  if typeCheck W t0 t1 then t0
  else if typeCheck W t1 t0 then t1
  else uniq W (members t0 ++ members t1)

end Either

section Kept

variable {W : World} {kept done rest : List Typ} {t x : Typ} {types : List Typ}

lemma depths_le {n : Nat} {ts : List Typ} (h : ∀ t ∈ ts, depth t < n) : depths ts ≤ n := by
  induction ts with
  | nil => exact Nat.zero_le n
  | cons t ts ih =>
    have ht := h t (.head _)
    have hts := ih fun s hs => h s (mem_cons_of_mem t hs)
    rw [depths]
    omega

/-- Types of the order that are not too deep to be compared. -/
structure Small (t : Typ) : Prop where
  basic : isBasic t
  depth : depth t ≤ 20

lemma Small.union (h : ∀ t ∈ types, Small t) :
    isBasic (.union types) ∧ Typ.depth (.union types) ≤ 21 := by
  constructor
  · rw [isBasic, every, everyOf_eq_all, Bool.and_eq_true, all_eq_true]
    exact ⟨rfl, fun t ht => (h t ht).basic⟩
  · exact depths_le fun t ht => Nat.lt_succ_of_le (h t ht).depth

lemma Small.members {a : Typ} (h : Small a) (ht : t ∈ members a) : Small t := by
  cases a with
  | union types =>
    have := depth_part (t := .union types) ht
    have := h.depth
    exact ⟨every_part h.basic ht, by omega⟩
  | _ => rwa [mem_singleton.mp ht]

/-- What the loop has kept is some of what it has seen, and its union is above all of it. -/
structure Covers (kept done : List Typ) : Prop where
  subset : ∀ t ∈ kept, t ∈ done
  above : ∀ x ∈ done, Above (.union kept) x

lemma Covers.nil : Covers [] [] := ⟨by simp, by simp⟩

/-- It is enough to be above the union of what was kept before and the new member. -/
lemma Covers.of_above {kept' : List Typ} (h : Covers kept done)
    (hsubset : ∀ s ∈ kept', s ∈ kept ∨ s = t) (hold : Above (.union kept') (.union kept))
    (hnew : Above (.union kept') t) : Covers kept' (done ++ [t]) := by
  refine ⟨fun s hs => mem_append.mpr ?_, fun x hx => ?_⟩
  · rw [mem_singleton]
    exact (hsubset s hs).imp_left (h.subset s)
  · rcases mem_append.mp hx with hx | hx
    · exact hold.trans (h.above x hx)
    · rwa [mem_singleton.mp hx]

lemma Covers.step (hsmall : ∀ s ∈ done ++ [t], Small s) (h : Covers kept done) :
    Covers (uniqStep W kept t) (done ++ [t]) := by
  have hkept : ∀ s ∈ kept, Small s := fun s hs => hsmall s (mem_append_left _ (h.subset s hs))
  have ht : Small t := hsmall t mem_concat_self
  have hunion := Small.union hkept
  have hdepth := ht.depth
  unfold uniqStep
  split
  · next hcheck =>
      have habove := ((typeCheck_iff_sub ht.basic hunion.1 (by omega)).mp hcheck).above
      exact h.of_above (by simp) (.unionLeft (.head _) habove) (.member (.head _))
  · split
    · next hsuper =>
        obtain ⟨before, s, after, rfl, -, hst⟩ := unionHasSuper_split hsuper
        have hs := hkept s mem_append_cons_self
        have := hs.depth
        have hsub := sub_of_typeCheckX (by omega) hs.basic ht.basic hst
        exact h.of_above (fun _ => .inl) (.refl _) (.unionLeft mem_append_cons_self hsub.above)
    · refine h.of_above (by simp) (.unionRight fun s hs => ?_) (.member mem_concat_self)
      exact .member (mem_append_left _ hs)

lemma Covers.foldl (hsmall : ∀ s ∈ done ++ rest, Small s) (h : Covers kept done) :
    Covers (rest.foldl (uniqStep W) kept) (done ++ rest) := by
  induction rest generalizing kept done with
  | nil => simpa using h
  | cons t rest ih =>
    rw [append_cons] at hsmall ⊢
    exact ih hsmall (h.step fun s hs => hsmall s (mem_append_left _ hs))

lemma uniq_above (hsmall : ∀ t ∈ types, Small t) :
    isBasic (uniq W types) ∧ depth (uniq W types) ≤ 21 ∧ ∀ t ∈ types, Above (uniq W types) t := by
  unfold uniq
  split
  · next t =>
      have ht := hsmall t (.head _)
      refine ⟨ht.basic, Nat.le_succ_of_le ht.depth, fun s hs => ?_⟩
      rw [mem_singleton.mp hs]
      exact .refl t
  · have hcovers := Covers.foldl (W := W) hsmall .nil
    have hunion := Small.union fun s hs => hsmall s (hcovers.subset s hs)
    exact ⟨hunion.1, hunion.2, hcovers.above⟩

lemma above_of_members {u a : Typ} (h : ∀ m ∈ members a, Above u m) : Above u a := by
  cases a with
  | union types => exact .unionRight h
  | _ => exact h _ (.head _)

end Kept

section Bounds

variable {W : World} {a b : Typ}

lemma typeCheck_refl (W : World) (a : Typ) : typeCheck W a a := by
  simp [typeCheck, typeCheckX, typeCheckStep, sameType_refl]

/-- The union is above both types, for any two. -/
lemma either_above (W : World) (ha : Small a) (hb : Small b) :
    isBasic (either W a b) ∧ depth (either W a b) ≤ 21 ∧
      Above (either W a b) a ∧ Above (either W a b) b := by
  have hda := ha.depth
  have hdb := hb.depth
  have hsmall : ∀ t ∈ members a ++ members b, Small t := fun t ht =>
    (mem_append.mp ht).elim ha.members hb.members
  unfold either
  split
  · next hab =>
      rw [typeCheck_iff_sub ha.basic hb.basic (by omega)] at hab
      exact ⟨ha.basic, by omega, .refl a, hab.above⟩
  · split
    · next hba =>
        rw [typeCheck_iff_sub hb.basic ha.basic (by omega)] at hba
        exact ⟨hb.basic, by omega, hba.above, .refl b⟩
    · obtain ⟨hbasic, hdepth, habove⟩ := uniq_above (W := W) hsmall
      exact ⟨hbasic, hdepth, above_of_members fun m hm => habove m (mem_append_left _ hm),
        above_of_members fun m hm => habove m (mem_append_right _ hm)⟩

end Bounds

end TyLang.Types

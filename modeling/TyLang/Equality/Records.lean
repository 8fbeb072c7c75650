import TyLang.Equality.Model

/-!
What `records_equal` and the other comparisons of items say about the items: two lists
are equal item by item once they are laid out, with the named items sorted in front.
-/
namespace TyLang.Equality
open List

section Lists

variable {α β : Type}

lemma allEqual_iff (tests : List (β → Bool)) (ys : List β) (h : tests.length = ys.length) :
    allEqual tests ys ↔ List.Forall₂ (fun test y => test y) tests ys := by
  induction tests generalizing ys with
  | nil =>
    cases ys with
    | nil => simp [allEqual]
    | cons y ys => cases h
  | cons test tests ih =>
    cases ys with
    | nil => cases h
    | cons y ys => rw [allEqual, Bool.and_eq_true, forall₂_cons, ih ys (Nat.succ.inj h)]

lemma forall₂_append_iff {R : α → β → Prop} {l1 l2 : List α} {l1' l2' : List β}
    (h : l1.length = l1'.length) :
    List.Forall₂ R (l1 ++ l2) (l1' ++ l2') ↔ List.Forall₂ R l1 l1' ∧ List.Forall₂ R l2 l2' := by
  constructor
  · intro hall
    have htake := forall₂_take l1.length hall
    have hdrop := forall₂_drop l1.length hall
    rw [take_left, h, take_left] at htake
    rw [drop_left, h, drop_left] at hdrop
    exact ⟨htake, hdrop⟩
  · rintro ⟨hfront, hback⟩
    exact rel_append hfront hback

lemma forall₂_trans {R : α → α → Prop} {xs ys zs : List α}
    (htrans : ∀ x ∈ xs, ∀ y ∈ ys, ∀ z ∈ zs, R x y → R y z → R x z) (hxy : List.Forall₂ R xs ys)
    (hyz : List.Forall₂ R ys zs) : List.Forall₂ R xs zs := by
  induction hxy generalizing zs with
  | nil => exact hyz
  | cons hhead _ ih =>
    obtain ⟨z, zs, hhead', htail', rfl⟩ := forall₂_cons_left_iff.mp hyz
    refine .cons (htrans _ (.head _) _ (.head _) _ (.head _) hhead hhead') ?_
    refine ih (fun x hx y hy z hz => ?_) htail'
    exact htrans x (.tail _ hx) y (.tail _ hy) z (.tail _ hz)

lemma forall₂_imp_mem {R S : α → β → Prop} {xs : List α} {ys : List β}
    (h : ∀ x ∈ xs, ∀ y ∈ ys, R x y → S x y) (hall : List.Forall₂ R xs ys) :
    List.Forall₂ S xs ys := by
  rw [forall₂_iff_zip] at hall ⊢
  refine ⟨hall.1, fun hab => ?_⟩
  have hmem := of_mem_zip hab
  exact h _ hmem.1 _ hmem.2 (hall.2 hab)

end Lists

section Layout

variable {rt : Runtime} {α β : Type}

lemma range_filterMap (l : List α) : (List.range l.length).filterMap (l[·]?) = l := by
  induction l with
  | nil => rfl
  | cons a l ih =>
    rw [length_cons, range_succ_eq_map, filterMap_cons, filterMap_map]
    exact congrArg (a :: ·) ih

lemma qsort_perm (rt : Runtime) (items : List (Int × α)) : (qsort rt items).Perm items := by
  have hrange := (rt.order_perm (items.map Prod.fst)).filterMap (items[·]?)
  refine hrange.trans (Perm.of_eq ?_)
  rw [length_map, range_filterMap]

lemma qsort_map (rt : Runtime) (f : α → β) (items : List (Int × α)) :
    qsort rt (items.map (Prod.map id f)) = (qsort rt items).map (Prod.map id f) := by
  have hids : (items.map (Prod.map id f)).map Prod.fst = items.map Prod.fst := by
    rw [map_map]
    rfl
  rw [qsort, hids, qsort, map_filterMap]
  congr 1
  funext i
  rw [getElem?_map]

variable (rt) in
/-- The items in the order in which `records_equal` compares them. -/
def layout (items : List (Int × α)) : List (Int × α) :=
  qsort rt (namedItems items) ++ unnamedItems items

lemma layout_perm (rt : Runtime) (items : List (Int × α)) : (layout rt items).Perm items := by
  refine ((qsort_perm rt (namedItems items)).append_right _).trans ?_
  have hnot : unnamedItems items = items.filter fun item => !decide (item.1 ≠ -1) := by
    rw [unnamedItems]
    congr 1
    funext item
    simp
  rw [hnot]
  exact filter_append_perm _ items

lemma layout_map (rt : Runtime) (f : α → β) (items : List (Int × α)) :
    layout rt (items.map (Prod.map id f)) = (layout rt items).map (Prod.map id f) := by
  have hnamed : namedItems (items.map (Prod.map id f)) = (namedItems items).map (Prod.map id f) :=
    filter_map ..
  have hunnamed : unnamedItems (items.map (Prod.map id f)) =
    (unnamedItems items).map (Prod.map id f) :=
    filter_map ..
  rw [layout, hnamed, hunnamed, qsort_map, ← map_append]
  rfl

lemma length_namedItems_layout (rt : Runtime) (items : List (Int × α)) :
    (namedItems items).length = ((layout rt items).map Prod.fst).countP fun id => id ≠ -1 := by
  rw [namedItems, ← countP_eq_length_filter, ← (layout_perm rt items).countP_eq, countP_map]
  rfl

lemma recordsEqual_iff (xs : List (Int × (β → Bool))) (ys : List (Int × β)) :
    recordsEqual rt xs ys ↔
      List.Forall₂ (fun x y => x.1 = y.1 ∧ x.2 y.2) (layout rt xs) (layout rt ys) := by
  have hperm := fun (γ : Type) (items : List (Int × γ)) =>
    (qsort_perm rt (namedItems items)).length_eq
  rw [recordsEqual]
  split
  next hlength =>
    refine iff_of_false Bool.false_ne_true fun hall => ?_
    -- the ids agree, so both sides have as many names
    have hids : (layout rt xs).map Prod.fst = (layout rt ys).map Prod.fst := by
      rw [← forall₂_eq_eq_eq, forall₂_map_left_iff, forall₂_map_right_iff]
      exact hall.imp fun _ _ h => h.1
    have hnamed : (namedItems xs).length = (namedItems ys).length := by
      rw [length_namedItems_layout rt, hids, ← length_namedItems_layout]
    have hsum := hall.length_eq
    rw [layout, layout, length_append, length_append, hperm, hperm] at hsum
    omega
  next hlength =>
    rw [not_or, not_not, not_not] at hlength
    have hsorted : (qsort rt (namedItems xs)).length = (qsort rt (namedItems ys)).length := by
      rw [hperm, hperm, hlength.1]
    rw [layout, layout, forall₂_append_iff hsorted, Bool.and_eq_true,
      allEqual_iff _ _ (by rw [length_map, hsorted]),
      allEqual_iff _ _ (by rw [length_map, length_map, hlength.2]),
      forall₂_map_left_iff, forall₂_map_left_iff, forall₂_map_right_iff]
    refine and_congr (by simp) ⟨forall₂_imp_mem fun x hx y hy h => ?_,
      fun h => h.imp fun _ _ h => h.2⟩
    have hx := of_decide_eq_true (mem_filter.mp hx).2
    have hy := of_decide_eq_true (mem_filter.mp hy).2
    exact ⟨hx.trans hy.symm, h⟩

variable {ids : List Int} {xs : List α} {ys : List β} {R : α → β → Prop}

lemma mem_of_mem_layout {x : Int × α} (h : x ∈ layout rt (ids.zip xs)) : x.2 ∈ xs :=
  (of_mem_zip ((layout_perm rt _).mem_iff.mp h)).2

lemma forall₂_layout_iff (hxs : ids.length = xs.length) (hys : ids.length = ys.length) :
    List.Forall₂ (fun x y => x.1 = y.1 ∧ R x.2 y.2) (layout rt (ids.zip xs))
      (layout rt (ids.zip ys)) ↔
      List.Forall₂ R xs ys := by
  have hlength : xs.length = ys.length := hxs.symm.trans hys
  have hleft : ids.zip xs = (ids.zip (xs.zip ys)).map (Prod.map id Prod.fst) := by
    rw [← zip_map_right, map_fst_zip (Nat.le_of_eq hlength)]
  have hright : ids.zip ys = (ids.zip (xs.zip ys)).map (Prod.map id Prod.snd) := by
    rw [← zip_map_right, map_snd_zip (Nat.le_of_eq hlength.symm)]
  rw [hleft, hright, layout_map, layout_map, forall₂_map_left_iff, forall₂_map_right_iff,
    forall₂_same, forall₂_iff_zip, and_iff_right hlength]
  constructor
  · intro h x y hxy
    have hzip : (ids.zip (xs.zip ys)).map Prod.snd = xs.zip ys :=
      map_snd_zip (by rw [length_zip]; omega)
    rw [← hzip] at hxy
    obtain ⟨item, hitem, heq⟩ := mem_map.mp hxy
    have hall := (h item ((layout_perm rt _).mem_iff.mpr hitem)).2
    rwa [Prod.map_snd, Prod.map_snd, heq] at hall
  · intro h x hx
    exact ⟨rfl, h (of_mem_zip ((layout_perm rt _).mem_iff.mp hx)).2⟩

end Layout

end TyLang.Equality

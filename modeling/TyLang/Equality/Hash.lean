import TyLang.Equality.Equivalence

/-!
When equal values have equal hashes, as `find_spot` needs it. The hash of a tuple depends on
the names of its items and on their order, which the comparison does not always look at.
-/
namespace TyLang.Equality
open List
variable {xs ys : List Val}

section Names

variable {rt : Runtime} {σ : Store}

/-- The id of each item, where no names are as good as none for every item. -/
def effectiveIds (ids : Option (List Int)) (n : Nat) : List Int := ids.getD (replicate n (-1))

/-- Wherever two tuples stand at the same place in two values, their items have the same
names in the same order. -/
inductive SameNames : Val → Val → Prop
  | intro {v w : Val} :
      (∀ tags p ids xs tags' q ids' ys, v = .tuple tags p ids xs → w = .tuple tags' q ids' ys →
        effectiveIds ids xs.length = effectiveIds ids' ys.length) →
      (∀ xy ∈ v.items.zip w.items, SameNames xy.1 xy.2) → SameNames v w

lemma hashes_eq (vs : List Val) : hashes rt vs = vs.map fun v => valueHash rt v := by
  induction vs with
  | nil => rfl
  | cons v vs ih => rw [hashes, ih, map_cons]

lemma nameHash_effective (ids : Option (List Int)) (n : Nat) (hash : BitVec 64) :
    nameHash (some (effectiveIds ids (n + 1))) hash = nameHash ids hash := by
  cases ids <;> rfl

lemma tplHash_effective (ids : Option (List Int)) (xs : List (BitVec 64)) (hash : BitVec 64) :
    tplHash (some (effectiveIds ids xs.length)) xs hash = tplHash ids xs hash := by
  induction xs generalizing ids hash with
  | nil => rfl
  | cons x xs ih =>
    have htail : (some (effectiveIds ids (xs.length + 1))).map tail =
        some (effectiveIds (ids.map tail) xs.length) := by
      cases ids <;> rfl
    rw [length_cons, tplHash, tplHash, nameHash_effective, htail, ih]

lemma forall₂_of_matches {R : Val → Val → Prop} {ids ids' : Option (List Int)}
    (hxs : Sized ids xs) (hys : Sized ids' ys)
    (hnames : effectiveIds ids xs.length = effectiveIds ids' ys.length)
    (h : Matches rt R ids xs ids' ys) : List.Forall₂ R xs ys := by
  obtain _ | ids := ids
  · exact h
  obtain _ | ids' := ids'
  · exact h
  obtain rfl : ids = ids' := hnames
  exact (matches_same (hxs ids rfl) (hys ids rfl)).mp h

lemma hashes_eq_of_forall₂
    (h : List.Forall₂ (fun x y => valueHash rt x = valueHash rt y) xs ys) :
    hashes rt xs = hashes rt ys := by
  rwa [hashes_eq, hashes_eq, ← forall₂_eq_eq_eq, forall₂_map_left_iff, forall₂_map_right_iff]

end Names

section Hashes

variable {rt : Runtime} {σ : Store}

lemma hashes_of_equal (ih : ∀ x ∈ xs, ∀ y, SameNames x y → Stored σ x → Stored σ y →
      Equal rt x y → valueHash rt x = valueHash rt y)
    (hnames : ∀ xy ∈ xs.zip ys, SameNames xy.1 xy.2) (hxs : ∀ x ∈ xs, Stored σ x)
    (hys : ∀ y ∈ ys, Stored σ y)
    (h : List.Forall₂ (Equal rt) xs ys) : hashes rt xs = hashes rt ys := by
  rw [forall₂_iff_zip] at h
  refine hashes_eq_of_forall₂ (forall₂_iff_zip.mpr ⟨h.1, fun {x y} hxy => ?_⟩)
  have hmem := of_mem_zip hxy
  exact ih x hmem.1 y (hnames (x, y) hxy) (hxs x hmem.1) (hys y hmem.2) (h.2 hxy)

theorem valueHash_eq_of_equal (rt : Runtime) (v w : { v // Stored σ v }) (hnames : SameNames v w)
    (h : valueTestEquality rt v w) : valueHash rt v = valueHash rt w := by
  obtain ⟨v, hv⟩ := v
  obtain ⟨w, hw⟩ := w
  dsimp only at hnames h ⊢
  induction v using Val.induct_items generalizing w with
  | h v ih =>
    obtain ⟨htags, halike⟩ := (equal_iff hv hw).mp h
    obtain ⟨hids, hitems⟩ := hnames
    have hhashes := fun hall => hashes_of_equal
      (fun x hx y hxy hsx hsy => ih x hx hsx y hsy hxy) hitems
      hv.items hw.items hall
    rw [Alike.eq_def] at halike
    split at halike
    any_goals rw [Val.tags, Val.tags] at htags
    next => rw [valueHash, valueHash, htags]
    next => rw [valueHash, valueHash, htags, halike]
    next => rw [valueHash, valueHash, htags, halike]
    next => rw [valueHash, valueHash, htags, halike]
    next _ xs _ _ ys =>
      rw [valueHash, valueHash, htags, show hashes rt xs = hashes rt ys from hhashes halike]
    next _ xs _ _ ys =>
      rw [valueHash, valueHash, htags, show hashes rt xs = hashes rt ys from hhashes halike]
    next p ids xs tags' q ids' ys =>
      have hids := hids _ _ _ _ _ _ _ _ rfl rfl
      cases hv with
      | tuple _ _ hxs => cases hw with
        | tuple _ _ hys =>
          have hplaces := forall₂_of_matches hxs hys hids halike
          have hsame : hashes rt xs = hashes rt ys := hhashes hplaces
          have hlength : (hashes rt ys).length = xs.length := by
            rw [hashes_eq, length_map, hplaces.length_eq]
          rw [valueHash, valueHash, htags, hsame, ← tplHash_effective ids,
            ← tplHash_effective ids', hlength, hids, hplaces.length_eq]
    next => exact halike.elim

def pointAt (p : Nat) : Val := .tuple 0 p (some [4, 5]) [.integer 0 1, .nil 0]

def pointStore : Store where
  array _ := []
  queue _ := []
  tuple _ := [.integer 0 1, .nil 0]
  ids _ := some [4, 5]

lemma stored_pointAt (p : Nat) : Stored pointStore (pointAt p) := by
  refine .tuple rfl (fun _ => rfl) (fun _ hl => by cases hl; rfl) ?_
  rintro v (_ | ⟨_, _ | ⟨_, ⟨⟩⟩⟩)
  · exact .integer ..
  · exact .nil ..

lemma sameNames_pointAt (p q : Nat) : SameNames (pointAt p) (pointAt q) := by
  refine .intro ?_ ?_
  · rintro _ _ _ _ _ _ _ _ ⟨⟩ ⟨⟩
    rfl
  · rintro xy (_ | ⟨_, _ | ⟨_, ⟨⟩⟩⟩)
    · exact .intro nofun nofun
    · exact .intro nofun nofun

theorem valueHash_pointAt :
    valueHash plainRuntime (pointAt 1) = valueHash plainRuntime (pointAt 2) :=
  valueHash_eq_of_equal plainRuntime ⟨pointAt 1, stored_pointAt 1⟩ ⟨pointAt 2, stored_pointAt 2⟩
    (sameNames_pointAt 1 2) (by decide)

/-- A record and the tuple without its names are equal, and so are two records with the
same fields in another order; but their hashes differ. -/
theorem valueHash_ne_of_equal :
    (valueTestEquality plainRuntime (.tuple 0 1 (some [4]) [.nil 0]) (.tuple 0 2 none [.nil 0]) ∧
      valueHash plainRuntime (.tuple 0 1 (some [4]) [.nil 0]) ≠
        valueHash plainRuntime (.tuple 0 2 none [.nil 0])) ∧
    (valueTestEquality plainRuntime (.tuple 0 1 (some [4, 5]) [.nil 0, .integer 0 1])
        (.tuple 0 2 (some [5, 4]) [.integer 0 1, .nil 0]) ∧
      valueHash plainRuntime (.tuple 0 1 (some [4, 5]) [.nil 0, .integer 0 1]) ≠
        valueHash plainRuntime (.tuple 0 2 (some [5, 4]) [.integer 0 1, .nil 0])) := by
  decide

end Hashes

end TyLang.Equality

import TyLang.Lib.CInt
import TyLang.Lib.Orbits

/-!
`Array.rotate!` (`src/array.c`): for each of the cycles that the greatest common divisor counts,
the items are moved along the cycle, in place. The indices are of type `int`.
-/
namespace TyLang.Arrays
open List CInt Orbits

inductive Arg where
  | integer (z : Int)
  | other

inductive Failure where
  | panic (message : String)
  | outOfBounds
  /-- The rounds have run out. -/
  | rounds
  deriving DecidableEq

/-- The items of an array, and the places that have been assigned to. -/
structure Cells (α : Type) where
  items : List α
  written : List Nat

section Model

variable {α : Type}

def Cells.read (c : Cells α) (k : Int) : Except Failure α :=
  if k < 0 then .error .outOfBounds
  else match c.items[k.toNat]? with
    | some v => .ok v
    | none => .error .outOfBounds

def Cells.write (c : Cells α) (j : Int) (v : α) : Except Failure (Cells α) :=
  if j < 0 ∨ c.items.length ≤ j then .error .outOfBounds
  else .ok ⟨c.items.set j.toNat v, c.written ++ [j.toNat]⟩

/-- `gcd` of `include/xd.h`. -/
def gcd (a b : Int) : Int := if b = 0 then a else gcd b (a.tmod b)
termination_by b.natAbs
decreasing_by
  rw [Int.natAbs_tmod]
  exact Nat.mod_lt _ (Int.natAbs_pos.mpr ‹_›)

def nextIndex (n d j : Int) : Int :=
  let k := toInt (j + d)
  if n ≤ k then k - n else k

/-- The inner loop from `j` on. -/
def cycleLoop (n d i : Int) (t : α) : Nat → Int → Cells α → Except Failure (Cells α)
  | 0, _, _ => .error .rounds
  | fuel + 1, j, c =>
    let k := nextIndex n d j
    if k = i then c.write j t
    else do
      let c ← c.write j (← c.read k)
      cycleLoop n d i t fuel k c

/-- The outer loop for the given number of rounds, from `i` on. -/
def rotateLoop (n d : Int) : Nat → Int → Cells α → Except Failure (Cells α)
  | 0, _, c => .ok c
  | rounds + 1, i, c => do
    let c ← cycleLoop n d i (← c.read i) c.items.length i c
    rotateLoop n d rounds (i + 1) c

def rotateAmount : List Arg → Except Failure Int
  | [] => .ok 1
  | [.integer z] => .ok (toInt z)
  | [.other] => .error (.panic "the argument to array.rotate() must be an integer")
  | args =>
    let argc := args.length
    .error (.panic s!"the rotate method on arrays expects 0 or 1 arguments but got {argc}")

def arrayRotate (args : List Arg) (xs : List α) : Except Failure (Cells α) :=
  let n := toInt xs.length
  match rotateAmount args with
  | .error e => .error e
  | .ok d =>
    if n = 0 then .ok ⟨xs, []⟩
    else
      let d := d.tmod n
      let d := if d < 0 then d + n else d
      rotateLoop n d (gcd n d).toNat 0 ⟨xs, []⟩

end Model

section Cycles

variable {α : Type} {xs : List α} {c : Cells α} {d : Nat} {result : Except Failure (Cells α)}

/-- Every place that has been assigned to holds the item from `d` places further on. -/
structure Rotating (xs : List α) (d : Nat) (c : Cells α) : Prop where
  length : c.items.length = xs.length
  item : ∀ p < xs.length, c.items[p]? = xs[if p ∈ c.written then (p + d) % xs.length else p]?

lemma Rotating.read (h : Rotating xs d c) {k : Nat} (hk : k < xs.length) (hnot : k ∉ c.written) :
    ∃ v, c.read k = .ok v ∧ xs[k]? = some v := by
  have hitem := h.item k hk
  rw [if_neg hnot, getElem?_eq_getElem hk] at hitem
  refine ⟨xs[k], ?_, getElem?_eq_getElem hk⟩
  rw [Cells.read, if_neg (Int.not_lt.mpr (Int.natCast_nonneg k)), Int.toNat_natCast, hitem]

lemma Rotating.write (h : Rotating xs d c) {j : Nat} {v : α} (hj : j < xs.length)
    (hv : xs[(j + d) % xs.length]? = some v) :
    ∃ c', c.write j v = .ok c' ∧ Rotating xs d c' ∧ c'.written = c.written ++ [j] := by
  refine ⟨⟨c.items.set j v, c.written ++ [j]⟩, ?_, ⟨?_, fun p hp => ?_⟩, rfl⟩
  · have hlen := h.length
    rw [Cells.write, if_neg (by omega), Int.toNat_natCast]
  · rw [length_set, h.length]
  · by_cases hpj : j = p
    · subst hpj
      rw [if_pos (by simp), hv, getElem?_set_self (h.length ▸ hj)]
    · have hmem : p ∈ c.written ++ [j] ↔ p ∈ c.written := by simp [Ne.symm hpj]
      rw [getElem?_set_ne hpj, h.item p hp]
      simp only [hmem]

/-- The places are assigned to, unless the sum of one of them and the width is too large for
an `int`. -/
def Assigns (xs : List α) (d : Nat) (c : Cells α) (js : List Nat)
    (result : Except Failure (Cells α)) : Prop :=
  if ∀ j ∈ js, j + d < 2 ^ 31 then
    ∃ c', result = .ok c' ∧ Rotating xs d c' ∧ c'.written = c.written ++ js
  else ∀ c', result ≠ .ok c'

lemma nextIndex_of_lt {n j : Nat} (hj : j < n) (hd : d < n) (h : j + d < 2 ^ 31) :
    nextIndex n d j = ((j + d) % n : Nat) := by
  have hint : toInt ((j : Int) + d) = (j : Int) + d := toInt_of_isInt (by constructor <;> omega)
  rw [nextIndex, hint]
  split
  · rw [Nat.mod_eq_sub_mod (by omega), Nat.mod_eq_of_lt (by omega)]
    omega
  · rw [Nat.mod_eq_of_lt (by omega)]
    omega

lemma nextIndex_neg {n j : Nat} (hj : j < n) (hd : d < n) (hn : n < 2 ^ 31)
    (h : ¬ j + d < 2 ^ 31) : nextIndex n d j < 0 := by
  rw [nextIndex, toInt_of_ge (by omega) (by omega)]
  split <;> omega

lemma Assigns.nil (h : Rotating xs d c) : Assigns xs d c [] (.ok c) := by
  exact ⟨c, rfl, h, by simp⟩

lemma Assigns.append {c1 : Cells α} {js ks : List Nat}
    (hjs : ∀ j ∈ js, j + d < 2 ^ 31) (hc1 : c1.written = c.written ++ js)
    (h : Assigns xs d c1 ks result) : Assigns xs d c (js ++ ks) result := by
  have hall : (∀ j ∈ js ++ ks, j + d < 2 ^ 31) ↔ ∀ j ∈ ks, j + d < 2 ^ 31 := by
    rw [forall_mem_append]
    exact and_iff_right hjs
  unfold Assigns at h ⊢
  rw [hc1, append_assoc] at h
  simp only [hall]
  exact h

lemma Assigns.fail {js : List Nat} {j : Nat} (hj : j ∈ js)
    (hsum : ¬ j + d < 2 ^ 31) (h : ∀ c', result ≠ .ok c') : Assigns xs d c js result := by
  rwa [Assigns, if_neg fun hall => hsum (hall j hj)]

lemma Assigns.bind {js ks : List Nat}
    {f : Cells α → Except Failure (Cells α)} (hjs : Assigns xs d c js result)
    (h : ∀ c', Rotating xs d c' → c'.written = c.written ++ js → Assigns xs d c' ks (f c')) :
    Assigns xs d c (js ++ ks) (result >>= f) := by
  unfold Assigns at hjs
  split at hjs
  · next hall =>
    obtain ⟨c', rfl, hc', hwritten⟩ := hjs
    exact .append hall hwritten (h c' hc' hwritten)
  next hall =>
  obtain ⟨j, hj, hsum⟩ : ∃ j ∈ js, ¬ j + d < 2 ^ 31 := by simpa using hall
  refine .fail (mem_append_left ks hj) hsum fun c' => ?_
  cases result with
  | error e => nofun
  | ok c1 => exact absurd rfl (hjs c1)

/-- The inner loop after `m` of its rounds. -/
lemma cycleLoop_assigns {i m rest fuel : Nat} {t : α} (hlt : xs.length < 2 ^ 31)
    (hd : d < xs.length) (hi : i < xs.length.gcd d) (ht : xs[i]? = some t)
    (h : Rotating xs d c) (hm : m + rest + 1 = xs.length / xs.length.gcd d) (hfuel : rest < fuel)
    (hnew : (c.written ++ (List.range' m (rest + 1)).map (place xs.length d i)).Nodup) :
    Assigns xs d c ((List.range' m (rest + 1)).map (place xs.length d i))
      (cycleLoop xs.length d i t fuel (place xs.length d i m) c) := by
  have hpos : 0 < xs.length := by omega
  have hin : i < xs.length := Nat.lt_of_lt_of_le hi (Nat.gcd_le_left d hpos)
  induction fuel generalizing m rest c with
  | zero => exact absurd hfuel (Nat.not_lt_zero _)
  | succ fuel ih =>
    have hj : place xs.length d i m < xs.length := place_lt hpos i m
    by_cases hsum : place xs.length d i m + d < 2 ^ 31
    · have hone : ∀ j ∈ [place xs.length d i m], j + d < 2 ^ 31 := by simpa using hsum
      have hnext := nextIndex_of_lt hj hd hsum
      rw [← place_succ] at hnext
      rw [cycleLoop, hnext]
      cases rest with
      | zero =>
        have hback : place xs.length d i (m + 1) = i := hm ▸ place_round hin
        obtain ⟨c', hwrite, hc', hwritten⟩ := h.write hj (by rw [← place_succ, hback, ht])
        rw [hback, if_pos rfl, hwrite]
        exact Assigns.append hone hwritten (.nil hc')
      | succ rest =>
        have hne : ((place xs.length d i (m + 1) : Nat) : Int) ≠ i := fun he => by
          have hzero := (Int.ofNat.inj he).trans (place_zero (d := d) hin).symm
          exact Nat.succ_ne_zero m (eq_of_place_eq hpos hi hi (by omega) (by omega) hzero).2
        have hfresh : place xs.length d i (m + 1) ∉ c.written := fun hmem =>
          disjoint_of_nodup_append hnew hmem (by simp [range'_succ])
        obtain ⟨v, hread, hv⟩ := h.read (place_lt hpos i (m + 1)) hfresh
        obtain ⟨c', hwrite, hc', hwritten⟩ := h.write hj (by rw [← place_succ, hv])
        have hloop := ih hc' (show m + 1 + rest + 1 = _ by omega) (by omega)
          (by rwa [hwritten, append_assoc])
        rw [if_neg hne, hread]
        change Assigns xs d c _ ((c.write _ v).bind _)
        rw [hwrite]
        exact Assigns.append hone hwritten hloop
    · exact .fail (.head _) hsum fun c' => by
        rw [cycleLoop, if_neg, Cells.read, if_pos (nextIndex_neg hj hd hlt hsum)]
        · nofun
        · have := nextIndex_neg hj hd hlt hsum
          omega

/-- The outer loop from the cycle of `i` on. -/
lemma rotateLoop_assigns {i rounds : Nat} (hlt : xs.length < 2 ^ 31) (hd : d < xs.length)
    (h : Rotating xs d c) (hi : i + rounds = xs.length.gcd d)
    (hnew : (c.written ++ (List.range' i rounds).flatMap (orbit xs.length d)).Nodup) :
    Assigns xs d c ((List.range' i rounds).flatMap (orbit xs.length d))
      (rotateLoop xs.length d rounds i c) := by
  have hpos : 0 < xs.length := by omega
  induction rounds generalizing i c with
  | zero => exact .nil h
  | succ rounds ih =>
    have hin : i < xs.length := Nat.lt_of_lt_of_le (by omega) (Nat.gcd_le_left d hpos)
    rw [range'_succ, flatMap_cons] at hnew ⊢
    rw [← append_assoc] at hnew
    obtain ⟨L, hL⟩ : ∃ L, xs.length / xs.length.gcd d = L + 1 :=
      Nat.exists_eq_succ_of_ne_zero
        (Nat.ne_of_gt (Nat.div_pos (Nat.gcd_le_left d hpos) (Nat.gcd_pos_of_pos_left d hpos)))
    have hfresh : i ∉ c.written := fun hmem =>
      disjoint_of_nodup_append (Nodup.of_append_left hnew) hmem
        (mem_map.mpr ⟨0, by simp [hL], place_zero hin⟩)
    obtain ⟨t, hread, ht⟩ := h.read hin hfresh
    have hfuel : L < c.items.length := by
      have := Nat.div_le_self xs.length (xs.length.gcd d)
      have := h.length
      omega
    have hcycle := cycleLoop_assigns (m := 0) hlt hd (by omega) ht h (by omega) hfuel (by
      rw [← hL, ← range_eq_range']
      exact Nodup.of_append_left hnew)
    rw [← hL, ← range_eq_range', place_zero hin] at hcycle
    rw [rotateLoop, hread]
    refine hcycle.bind fun c' hc' hwritten => ?_
    exact ih hc' (by omega) (by rwa [hwritten])

end Cycles

section Rotation

variable {α : Type} {xs : List α}

lemma gcd_natCast (a b : Nat) : gcd a b = (a.gcd b : Nat) := by
  induction b using Nat.strong_induction_on generalizing a with
  | _ b ih =>
    rw [gcd]
    split
    · next hb => simp [Int.ofNat_eq_zero.mp hb]
    · next hb =>
      have hpos : 0 < b := Nat.pos_of_ne_zero fun h => hb (by rw [h]; rfl)
      rw [← Int.ofNat_tmod, ih _ (Nat.mod_lt a hpos), Nat.gcd_comm, ← Nat.gcd_rec, Nat.gcd_comm]

/-- The remainder that `rotate!` makes positive. -/
lemma tmod_add_eq_emod (z : Int) {n : Int} (hn : 0 < n) :
    (if z.tmod n < 0 then z.tmod n + n else z.tmod n) = z % n := by
  have hnonneg := Int.emod_nonneg z hn.ne'
  have hless := Int.emod_lt_of_pos z hn
  rw [Int.tmod_eq_emod]
  by_cases hz : 0 ≤ z ∨ n ∣ z
  · rw [if_pos hz, if_neg (by omega)]
    omega
  · rw [if_neg hz, if_pos (by omega)]
    omega

/-- The loops on the arguments of a call. -/
lemma arrayRotate_assigns {z : Int} (hz : IsInt z) (hne : xs ≠ []) (hlt : xs.length < 2 ^ 31) :
    Assigns xs (z % xs.length).toNat ⟨xs, []⟩ (orbits xs.length (z % xs.length).toNat)
      (arrayRotate [.integer z] xs) := by
  have hpos : 0 < xs.length := length_pos_iff.mpr hne
  have hint : toInt xs.length = xs.length := toInt_of_isInt (by constructor <;> omega)
  have hnonneg := Int.emod_nonneg z (show (xs.length : Int) ≠ 0 by omega)
  have hless := Int.emod_lt_of_pos z (show 0 < (xs.length : Int) by omega)
  obtain ⟨d, hd⟩ := Int.eq_ofNat_of_zero_le hnonneg
  have hcall : arrayRotate [.integer z] xs =
      rotateLoop xs.length d (xs.length.gcd d) 0 ⟨xs, []⟩ := by
    rw [arrayRotate, rotateAmount, hint, toInt_of_isInt hz]
    dsimp only
    rw [if_neg (by omega)]
    rw [tmod_add_eq_emod z (by omega), hd, gcd_natCast, Int.toNat_natCast]
  rw [hcall, hd, Int.toNat_natCast, orbits, range_eq_range']
  refine rotateLoop_assigns hlt (by omega) ⟨rfl, fun p _ => by simp⟩ (by simp) ?_
  rw [← range_eq_range']
  exact orbits_nodup hpos

/-- The call assigns once to every place, and each of them gets the item from `z` places
further on. -/
def Rotates (z : Int) (xs : List α) : Prop :=
  ∃ c, arrayRotate [.integer z] xs = .ok c ∧ c.written.Perm (List.range xs.length) ∧
    c.items.length = xs.length ∧ ∀ i < xs.length, c.items[i]? = xs[((i + z) % xs.length).toNat]?

/-- No sum of an index and the amount is too large for an `int`. -/
def Fits (z : Int) (xs : List α) : Prop := xs.length + z % xs.length ≤ 2 ^ 31

lemma toNat_emod_add {i n : Nat} (z : Int) (hn : 0 < n) :
    ((i + z) % n).toNat = (i + (z % n).toNat) % n := by
  have hnonneg := Int.emod_nonneg z (show (n : Int) ≠ 0 by omega)
  apply Int.ofNat.inj
  change (((i + z) % n).toNat : Int) = ((i + (z % n).toNat) % n : Nat)
  rw [Int.toNat_of_nonneg (Int.emod_nonneg _ (by omega)), Int.natCast_mod, Int.natCast_add,
    Int.toNat_of_nonneg hnonneg, Int.add_emod_emod]

lemma rotates_iff {z : Int} (hz : IsInt z) (hne : xs ≠ []) (hlt : xs.length < 2 ^ 31) :
    Rotates z xs ↔ Fits z xs := by
  have hpos : 0 < xs.length := length_pos_iff.mpr hne
  have hperm := orbits_perm (d := (z % xs.length).toNat) hpos
  have hmem : ∀ {j}, j ∈ orbits xs.length (z % xs.length).toNat ↔ j < xs.length := by
    intro j
    rw [hperm.mem_iff, mem_range]
  have hassigns := arrayRotate_assigns hz hne hlt
  unfold Assigns at hassigns
  split at hassigns
  · next hall =>
    obtain ⟨c, hok, hc, hwritten⟩ := hassigns
    have hlast := hall (xs.length - 1) (hmem.mpr (by omega))
    refine iff_of_true ⟨c, hok, hwritten ▸ hperm, hc.length, fun i hi => ?_⟩ (by unfold Fits; omega)
    rw [hc.item i hi, if_pos (hwritten ▸ hmem.mpr hi), toNat_emod_add z hpos]
  · next hall =>
    refine iff_of_false (fun ⟨c, hok, _⟩ => hassigns c hok) fun hfits => hall fun j hj => ?_
    have hj := hmem.mp hj
    unfold Fits at hfits
    omega

lemma Rotates.items {z : Int} {c : Cells α} (h : Rotates z xs) (hne : xs ≠ [])
    (hc : arrayRotate [.integer z] xs = .ok c) : c.items = xs.rotate (z % xs.length).toNat := by
  obtain ⟨c', hok, -, hlen, hitem⟩ := h
  obtain rfl := Except.ok.inj (hc.symm.trans hok)
  have hpos : 0 < xs.length := length_pos_iff.mpr hne
  refine ext_getElem? fun i => ?_
  by_cases hi : i < xs.length
  · rw [hitem i hi, getElem?_rotate hi, toNat_emod_add z hpos]
  · rw [getElem?_eq_none (by omega), getElem?_eq_none (by simpa using hi)]

/-- `rotate!` is a rotation exactly if no sum of an index and the amount is too large, and then
two rotations one after the other are one by the sum. -/
theorem arrayRotate_rotates_iff (xs : List α) (hne : xs ≠ []) (hlt : xs.length < 2 ^ 31) :
    (∀ z, IsInt z → (Rotates z xs ↔ Fits z xs)) ∧
      ∀ a b, IsInt a → IsInt b → IsInt (a + b) → Fits a xs → Fits b xs → Fits (a + b) xs →
        ∃ c c' c'', arrayRotate [.integer a] xs = .ok c ∧
          arrayRotate [.integer b] c.items = .ok c' ∧
          arrayRotate [.integer (a + b)] xs = .ok c'' ∧ c'.items = c''.items := by
  refine ⟨fun z hz => rotates_iff hz hne hlt, fun a b ha hb hab hfa hfb hfab => ?_⟩
  have hpos : 0 < xs.length := length_pos_iff.mpr hne
  have hra := (rotates_iff ha hne hlt).mpr hfa
  obtain ⟨c, hc, -, hlen, -⟩ := id hra
  have hne' : c.items ≠ [] := ne_nil_of_length_pos (by omega)
  have hrb := (rotates_iff hb hne' (hlen ▸ hlt)).mpr (by rwa [Fits, hlen])
  have hrab := (rotates_iff hab hne hlt).mpr hfab
  obtain ⟨c', hc', -⟩ := id hrb
  obtain ⟨c'', hc'', -⟩ := id hrab
  refine ⟨c, c', c'', hc, hc', hc'', ?_⟩
  rw [hrb.items hne' hc', hrab.items hne hc'', hra.items hne hc, rotate_rotate,
    length_rotate, ← rotate_mod, ← toNat_emod_add b hpos,
    Int.toNat_of_nonneg (Int.emod_nonneg a (by omega)), Int.emod_add_emod]

theorem arrayRotate_rotates_three :
    Rotates (-1) [1, 2, 3] ∧ ∃ c c' c'', arrayRotate [.integer (-1)] [1, 2, 3] = .ok c ∧
      arrayRotate [.integer 5] c.items = .ok c' ∧
      arrayRotate [.integer (-1 + 5)] [1, 2, 3] = .ok c'' ∧ c'.items = c''.items := by
  obtain ⟨hiff, hsum⟩ := arrayRotate_rotates_iff [1, 2, 3] (by simp) (by decide)
  exact ⟨(hiff (-1) ⟨by decide, by decide⟩).mpr (by unfold Fits; decide),
    hsum (-1) 5 ⟨by decide, by decide⟩ ⟨by decide, by decide⟩ ⟨by decide, by decide⟩
      (by unfold Fits; decide) (by unfold Fits; decide) (by unfold Fits; decide)⟩

/-- The sum of the last index and the amount is `2 ^ 31`. -/
theorem arrayRotate_overflows : ¬ Rotates (2 ^ 30) (replicate (2 ^ 30 + 1) ()) := by
  have hlen : (replicate (2 ^ 30 + 1) ()).length = 2 ^ 30 + 1 := length_replicate
  rw [rotates_iff ⟨by decide, by decide⟩ (ne_nil_of_length_pos (by omega)) (by omega), Fits, hlen]
  decide

end Rotation
end TyLang.Arrays

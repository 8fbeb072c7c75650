import TyLang.Lib.CInt

/-!
`Array.partition!` (`src/array.c`). An item that fails is exchanged with the last one that has not
been looked at. The calls of the predicate are recorded.
-/
namespace TyLang.Arrays
open List CInt

variable {α : Type} (p : α → Bool)

/-- The loop, or nothing if it leaves the array. -/
def partitionLoop (y n : Nat) (xs calls : List α) : Option (List α × List α) :=
  if y < n then do
    let v ← xs[y]?
    if p v then partitionLoop (y + 1) n xs (calls ++ [v])
    else
      let w ← xs[n - 1]?
      partitionLoop y (n - 1) ((xs.set y w).set (n - 1) v) (calls ++ [v])
  else some (xs, calls)
termination_by n - y

def arrayPartition (xs : List α) : Option (List α × List α) :=
  if xs.length = 0 then some (xs, [])
  -- a length that does not fit an `int` is negative, and then nothing is done
  else partitionLoop p 0 (toInt xs.length).toNat xs []

variable {p}

/-- The loop is between the items that satisfy and those that fail. -/
lemma partitionLoop_eq (mid yes no calls : List α) (hyes : ∀ v ∈ yes, p v)
    (hno : ∀ v ∈ no, ¬ p v) : ∃ yes' no' calls',
      partitionLoop p yes.length (yes ++ mid).length (yes ++ mid ++ no) calls =
        some (yes' ++ no', calls ++ calls') ∧
      (yes' ++ no').Perm (yes ++ mid ++ no) ∧ (∀ v ∈ yes', p v) ∧ (∀ v ∈ no', ¬ p v) ∧
      calls'.Perm mid := by
  induction hn : mid.length generalizing mid yes no calls with
  | zero =>
    obtain rfl := length_eq_zero_iff.mp hn
    rw [partitionLoop, if_neg (by simp), append_nil]
    exact ⟨yes, no, [], by simp, .refl _, hyes, hno, .nil⟩
  | succ n ih =>
    obtain ⟨v, mid, rfl⟩ := exists_cons_of_length_eq_add_one hn
    rw [partitionLoop, if_pos (by simp)]
    have hv : (yes ++ v :: mid ++ no)[yes.length]? = some v := by simp
    simp only [hv, Option.bind_eq_bind, Option.bind_some]
    split
    · have hyes' : ∀ a ∈ yes ++ [v], p a := by
        simp only [mem_append, mem_singleton]
        rintro a (ha | rfl)
        · exact hyes a ha
        · assumption
      obtain ⟨yes', no', calls', hloop, hperm, h⟩ :=
        ih mid (yes ++ [v]) no (calls ++ [v]) hyes' hno (by simpa using hn)
      refine ⟨yes', no', v :: calls', ?_, by simpa using hperm, h.1, h.2.1, h.2.2.cons v⟩
      simpa using hloop
    · have hno' : ∀ a ∈ v :: no, ¬ p a := forall_mem_cons.mpr ⟨‹_›, hno⟩
      -- the items that are left, with the last one in the place of the first
      obtain ⟨w, mid', hw, hset, hmid⟩ : ∃ w mid',
          (yes ++ v :: mid ++ no)[(yes ++ v :: mid).length - 1]? = some w ∧
          ((yes ++ v :: mid ++ no).set yes.length w).set ((yes ++ v :: mid).length - 1) v =
            yes ++ mid' ++ v :: no ∧ mid'.Perm mid := by
        rcases eq_nil_or_concat mid with rfl | ⟨mid, w, rfl⟩
        · exact ⟨v, [], by simp, by simp, .nil⟩
        · refine ⟨w, w :: mid, by simp, ?_, ?_⟩
          · simp
          · simpa using (perm_append_singleton w mid).symm
      simp only [hw, Option.bind_some, hset]
      obtain ⟨yes', no', calls', hloop, hperm, h⟩ :=
        ih mid' yes (v :: no) (calls ++ [v]) hyes hno' (by simpa [hmid.length_eq] using hn)
      refine ⟨yes', no', v :: calls', ?_, hperm.trans ?_, h.1, h.2.1, (h.2.2.trans hmid).cons v⟩
      · simpa [hmid.length_eq] using hloop
      · rw [append_assoc, append_assoc]
        exact .append_left yes (perm_middle.trans ((hmid.append_right no).cons v))

end TyLang.Arrays

import TyLang.Strings.Model

/-!
`lines` (`src/str.c`). To see whether a CR is part of a terminator, the loop reads the byte
behind it, which may be behind the string.
-/
namespace TyLang.Strings
open List

section Model

variable (s : Str)

def Str.byteAt (i : Nat) : Option UInt8 := s.str0[s.offset + i]?

/-- The test of the inner loop, and the places that it reads. -/
def inLine (i : Nat) : Bool :=
  s.byteAt i ≠ some 10 && (s.byteAt i ≠ some 13 || s.byteAt (i + 1) ≠ some 10)

def inLineReads (i : Nat) : List Nat := if s.byteAt i = some 13 then [i, i + 1] else [i]

/-- The inner loop: where it ends, and what it reads. -/
def lineEnd : Nat → Nat → Nat × List Nat
  | 0, i => (i, [])
  | fuel + 1, i =>
    if i < s.bytes.toNat then
      if inLine s i then ((lineEnd fuel (i + 1)).1, inLineReads s i ++ (lineEnd fuel (i + 1)).2)
      else (i, inLineReads s i)
    else (i, [])

/-- The start of the next line. -/
def lineNext (i : Nat) : Nat :=
  if i < s.bytes.toNat then i + 1 + (if s.byteAt i = some 13 then 1 else 0) else i

/-- The offsets and the sizes of the views, and what is read. -/
def linesLoop : Nat → Nat → List (Nat × Nat) × List Nat
  | 0, _ => ([], [])
  | fuel + 1, i =>
    if i < s.bytes.toNat then
      let j := (lineEnd s s.bytes.toNat i).1
      let rest := linesLoop fuel (lineNext s j)
      ((i, j - i) :: rest.1,
        (lineEnd s s.bytes.toNat i).2 ++ ((if j < s.bytes.toNat then [j] else []) ++ rest.2))
    else ([], [])

/-- Both loops pass over a byte in every turn. -/
def stringLines : List (Nat × Nat) × List Nat :=
  if s.bytes = 0 then ([(0, 0)], []) else linesLoop s s.bytes.toNat 0

end Model

/-- The lines of a text, with the part of the first one that has been read. -/
def segmentsFrom : Text → Text → List Text
  | line, [] => if line = [] then [] else [line]
  | line, [c] => if c = 10 then [line] else [line ++ [c]]
  | line, c :: d :: t =>
    if c = 10 then line :: segmentsFrom [] (d :: t)
    else if c = 13 ∧ d = 10 then line :: segmentsFrom [] t
    else segmentsFrom (line ++ [c]) (d :: t)

def segments (t : Text) : List Text := segmentsFrom [] t

/-! ### The inner loop -/

variable {s : Str} {fuel i j k r : Nat}

lemma Str.byteAt_eq (hi : i < s.bytes.toNat) : s.byteAt i = s.text[i]? := by
  rw [Str.byteAt, Str.text, getElem?_take_of_lt hi, getElem?_drop]

variable (fuel) in
lemma lineEnd_le (hi : i ≤ s.bytes.toNat) :
    i ≤ (lineEnd s fuel i).1 ∧ (lineEnd s fuel i).1 ≤ s.bytes.toNat := by
  induction fuel generalizing i with
  | zero => exact ⟨.refl, hi⟩
  | succ fuel ih =>
    rw [lineEnd]
    split
    · next hlt =>
      split
      · have := ih (i := i + 1) hlt
        dsimp only
        omega
      · exact ⟨.refl, hi⟩
    · exact ⟨.refl, hi⟩

variable (fuel) in
/-- The loop goes on up to its end, and there are enough rounds to find one. -/
lemma inLine_lineEnd (hfuel : s.bytes.toNat ≤ fuel + i) :
    (∀ k, i ≤ k → k < (lineEnd s fuel i).1 → inLine s k) ∧
    ((lineEnd s fuel i).1 < s.bytes.toNat → inLine s (lineEnd s fuel i).1 = false) := by
  induction fuel generalizing i with
  | zero =>
    rw [lineEnd]
    exact ⟨by omega, by omega⟩
  | succ fuel ih =>
    rw [lineEnd]
    split
    · split
      · next hin =>
        obtain ⟨hall, hend⟩ := ih (i := i + 1) (by omega)
        refine ⟨fun k hk hlt => ?_, hend⟩
        rcases Nat.eq_or_lt_of_le hk with rfl | hgt
        · exact hin
        · exact hall k hgt hlt
      · next hin => exact ⟨by omega, fun _ => Bool.eq_false_iff.mpr hin⟩
    · exact ⟨by omega, by omega⟩

lemma mem_lineEnd_iff (hfuel : s.bytes.toNat ≤ fuel + i) : r ∈ (lineEnd s fuel i).2 ↔
    ∃ k, i ≤ k ∧ k ≤ (lineEnd s fuel i).1 ∧ k < s.bytes.toNat ∧ r ∈ inLineReads s k := by
  induction fuel generalizing i with
  | zero =>
    refine iff_of_false not_mem_nil ?_
    rintro ⟨k, hk, hle, hlt, -⟩
    omega
  | succ fuel ih =>
    rw [lineEnd]
    split
    · next hi =>
      split
      · have hle := lineEnd_le fuel (s := s) (i := i + 1) hi
        rw [mem_append, ih (by omega)]
        constructor
        · rintro (hr | ⟨k, hk, hrest⟩)
          · exact ⟨i, .refl, by omega, hi, hr⟩
          · exact ⟨k, by omega, hrest⟩
        · rintro ⟨k, hk, hrest⟩
          rcases Nat.eq_or_lt_of_le hk with rfl | hgt
          · exact .inl hrest.2.2
          · exact .inr ⟨k, hgt, hrest⟩
      · constructor
        · exact fun hr => ⟨i, .refl, .refl, hi, hr⟩
        · rintro ⟨k, hk, hle, -, hr⟩
          rwa [Nat.le_antisymm hle hk] at hr
    · refine iff_of_false not_mem_nil ?_
      rintro ⟨k, hk, -, hlt, -⟩
      omega

/-! ### Strings that end in CR -/

/-- If the last byte is a CR, it is tested, and the byte behind it is read. -/
lemma length_mem_linesLoop (hlast : s.byteAt (s.bytes.toNat - 1) = some 13)
    (hi : i < s.bytes.toNat) (hfuel : s.bytes.toNat ≤ fuel + i) :
    s.bytes.toNat ∈ (linesLoop s fuel i).2 := by
  induction fuel generalizing i with
  | zero => omega
  | succ fuel ih =>
    have hle := lineEnd_le s.bytes.toNat (s := s) (i := i) (by omega)
    have hread : s.bytes.toNat ∈ inLineReads s (s.bytes.toNat - 1) := by
      rw [inLineReads, if_pos hlast, Nat.sub_add_cancel (by omega)]
      simp
    rw [linesLoop, if_pos hi]
    refine mem_append.mpr ?_
    by_cases hj : s.bytes.toNat - 1 ≤ (lineEnd s s.bytes.toNat i).1
    · refine .inl ((mem_lineEnd_iff (by omega)).mpr ⟨_, ?_, hj, ?_, hread⟩) <;> omega
    refine .inr (mem_append_right _ ?_)
    have hstop := (inLine_lineEnd s.bytes.toNat (s := s) (i := i) (by omega)).2 (by omega)
    have hnext : lineNext s (lineEnd s s.bytes.toNat i).1 < s.bytes.toNat := by
      rw [lineNext, if_pos (by omega)]
      split
      · next hcr =>
        -- the byte behind it is LF, and so not the last one
        have hlf : s.byteAt ((lineEnd s s.bytes.toNat i).1 + 1) = some 10 := by
          simpa [inLine, hcr] using hstop
        have hne : (lineEnd s s.bytes.toNat i).1 + 1 ≠ s.bytes.toNat - 1 := by
          rintro heq
          rw [heq, hlast] at hlf
          cases hlf
        omega
      · omega
    refine ih hnext ?_
    rw [lineNext, if_pos (by omega)]
    split <;> omega

/-! ### Other strings -/

lemma segmentsFrom_in {line t : Text} {c : UInt8} (hlf : c ≠ 10)
    (hcr : c = 13 → t.head? ≠ some 10) :
    segmentsFrom line (c :: t) = segmentsFrom (line ++ [c]) t := by
  cases t with
  | nil => simp [segmentsFrom, hlf]
  | cons d t => rw [segmentsFrom, if_neg hlf, if_neg fun h => hcr h.1 (congrArg some h.2)]

lemma segmentsFrom_lf (line t : Text) :
    segmentsFrom line (10 :: t) = line :: segmentsFrom [] t := by
  cases t <;> rfl

lemma Str.drop_text {c : UInt8} (hi : i < s.bytes.toNat) (hc : s.byteAt i = some c) :
    s.text.drop i = c :: s.text.drop (i + 1) := by
  rw [Str.byteAt_eq hi] at hc
  obtain ⟨hlt, rfl⟩ := List.getElem?_eq_some_iff.mp hc
  exact drop_eq_getElem_cons hlt

section NoCr

variable (hlast : s.byteAt (s.bytes.toNat - 1) ≠ some 13)
include hlast

lemma lt_of_cr (hi : i < s.bytes.toNat) (hcr : s.byteAt i = some 13) : i + 1 < s.bytes.toNat := by
  refine Nat.lt_of_le_of_ne hi fun heq => hlast ?_
  rwa [← heq, Nat.add_sub_cancel]

lemma segmentsFrom_inLine {line : Text} (hj : j ≤ s.bytes.toNat) (hij : i ≤ j)
    (h : ∀ k, i ≤ k → k < j → inLine s k) : segmentsFrom line (s.text.drop i) =
      segmentsFrom (line ++ (s.text.drop i).take (j - i)) (s.text.drop j) := by
  obtain ⟨n, rfl⟩ := Nat.exists_eq_add_of_le hij
  induction n generalizing i line with
  | zero => simp
  | succ n ih =>
    have hi : i < s.bytes.toNat := by omega
    have hin := h i .refl (by omega)
    obtain ⟨c, hc⟩ : ∃ c, s.byteAt i = some c :=
      ⟨_, (Str.byteAt_eq hi).trans (getElem?_eq_getElem (by rwa [Str.text_length]))⟩
    have hnext : c = 13 → (s.text.drop (i + 1)).head? ≠ some 10 := by
      rintro rfl hhead
      rw [head?_drop, ← Str.byteAt_eq (lt_of_cr hlast hi hc)] at hhead
      simp [inLine, hc, hhead] at hin
    rw [Str.drop_text hi hc, segmentsFrom_in (fun hlf => by simp [inLine, hc, hlf] at hin) hnext,
      ih (i := i + 1) (by omega) (by omega) fun k hk hlt => h k (by omega) (by omega),
      show i + 1 + n - (i + 1) = n by omega, show i + (n + 1) - i = n + 1 by omega,
      take_succ_cons, append_assoc, singleton_append,
      show i + 1 + n = i + (n + 1) by omega]

lemma linesLoop_segments (hi : i ≤ s.bytes.toNat) (hfuel : s.bytes.toNat ≤ fuel + i) :
    (linesLoop s fuel i).1.map s.viewText = segments (s.text.drop i) ∧
      ∀ r ∈ (linesLoop s fuel i).2, r < s.bytes.toNat := by
  have hend : s.text.drop s.bytes.toNat = [] := by rw [← Str.text_length, drop_length]
  induction fuel generalizing i with
  | zero =>
    rw [show i = s.bytes.toNat by omega, hend]
    exact ⟨rfl, nofun⟩
  | succ fuel ih =>
    rw [linesLoop]
    split
    · next hlt =>
      have hle := lineEnd_le s.bytes.toNat hi
      obtain ⟨hall, hstop⟩ := inLine_lineEnd s.bytes.toNat (s := s) (i := i) (by omega)
      have hreads : ∀ r ∈ (lineEnd s s.bytes.toNat i).2, r < s.bytes.toNat := by
        intro r hr
        obtain ⟨k, -, -, hk, hmem⟩ := (mem_lineEnd_iff (by omega)).mp hr
        unfold inLineReads at hmem
        split at hmem
        · next hcr =>
          have := lt_of_cr hlast hk hcr
          simp only [mem_cons, not_mem_nil, or_false] at hmem
          omega
        · simp only [mem_cons, not_mem_nil, or_false] at hmem
          omega
      generalize hj : (lineEnd s s.bytes.toNat i).1 = j at hle hall hstop
      -- the terminator at `j`, or the end
      have hnext : lineNext s j ≤ s.bytes.toNat ∧ s.bytes.toNat ≤ fuel + lineNext s j ∧
          segmentsFrom ((s.text.drop i).take (j - i)) (s.text.drop j) =
            (s.text.drop i).take (j - i) :: segments (s.text.drop (lineNext s j)) := by
        by_cases hjlt : j < s.bytes.toNat
        · have hterm := hstop hjlt
          rw [lineNext, if_pos hjlt]
          split
          · next hcr =>
            have hlt' := lt_of_cr hlast hjlt hcr
            have hlf : s.byteAt (j + 1) = some 10 := by simpa [inLine, hcr] using hterm
            refine ⟨hlt', by omega, ?_⟩
            rw [Str.drop_text hjlt hcr, Str.drop_text hlt' hlf]
            rfl
          · next hcr =>
            have hlf : s.byteAt j = some 10 := by simpa [inLine, hcr] using hterm
            refine ⟨hjlt, by omega, ?_⟩
            rw [Str.drop_text hjlt hlf, segmentsFrom_lf]
            rfl
        · obtain rfl : j = s.bytes.toNat := by omega
          have hne : (s.text.drop i).take (s.bytes.toNat - i) ≠ [] := by
            rw [Ne, ← length_eq_zero_iff, length_take, length_drop, Str.text_length]
            omega
          rw [lineNext, if_neg hjlt, hend]
          exact ⟨.refl, by omega, if_neg hne⟩
      obtain ⟨hpieces, hrest⟩ := ih hnext.1 hnext.2.1
      constructor
      · rw [map_cons, hpieces, Str.viewText_eq (by omega), ← hnext.2.2, segments,
          segmentsFrom_inLine hlast hle.2 hle.1 hall, nil_append]
      simp only [mem_append]
      rintro r (hr | hr | hr)
      · exact hreads r hr
      · split at hr
        · rwa [mem_singleton.mp hr]
        · cases hr
      · exact hrest r hr
    · rw [show i = s.bytes.toNat by omega, hend]
      exact ⟨rfl, nofun⟩

end NoCr

/-- The result is that of the bytes of the string alone, with no byte read behind them, and the
lines are those of the text, exactly if the string does not end in CR. -/
theorem lines_own_bytes_iff (s : Str) :
    ((∀ s' : Str, s'.text = s.text →
        (stringLines s').1.map s'.viewText = (stringLines s).1.map s.viewText) ∧
      (∀ r ∈ (stringLines s).2, r < s.text.length) ∧
      (s.text ≠ [] → (stringLines s).1.map s.viewText = segments s.text)) ↔
    s.text.getLast? ≠ some 13 := by
  have hempty (s : Str) (hs : s.text = []) : stringLines s = ([(0, 0)], []) := by
    rw [← length_eq_zero_iff, Str.text_length] at hs
    exact if_pos (BitVec.eq_of_toNat_eq hs)
  have hlines (s : Str) (hs : s.text ≠ []) : stringLines s = linesLoop s s.bytes.toNat 0 := by
    refine if_neg fun hzero => hs ?_
    exact Str.text_eq_nil hzero
  have hlast (s : Str) (hs : s.text ≠ []) : s.text.getLast? = s.byteAt (s.bytes.toNat - 1) := by
    have hpos := length_pos_iff.mpr hs
    rw [Str.text_length] at hpos
    rw [Str.byteAt_eq (by omega), getLast?_eq_getElem?, Str.text_length]
  have hgood (s : Str) (hs : s.text ≠ []) (hcr : s.text.getLast? ≠ some 13) :
      (stringLines s).1.map s.viewText = segments s.text ∧
        ∀ r ∈ (stringLines s).2, r < s.bytes.toNat := by
    rw [hlast s hs] at hcr
    rw [hlines s hs]
    exact linesLoop_segments hcr (Nat.zero_le _) .refl
  by_cases hs : s.text = []
  · refine iff_of_true ⟨fun s' hs' => ?_, ?_, fun hne => absurd hs hne⟩ (by simp [hs])
    · rw [hempty s hs, hempty s' (hs'.trans hs)]
      simp [Str.viewText]
    · rw [hempty s hs]
      exact forall_mem_nil _
  · constructor
    · rintro ⟨-, hreads, -⟩ hcr
      rw [hlast s hs] at hcr
      have hpos := length_pos_iff.mpr hs
      rw [hlines s hs] at hreads
      rw [Str.text_length] at hpos hreads
      exact Nat.lt_irrefl _ (hreads _ (length_mem_linesLoop hcr hpos .refl))
    · intro hcr
      obtain ⟨hpieces, hreads⟩ := hgood s hs hcr
      refine ⟨fun s' hs' => ?_, ?_, fun _ => hpieces⟩
      · rw [hpieces, (hgood s' (by rwa [hs']) (by rwa [hs'])).1, hs']
      · rwa [Str.text_length]

/-- Two views of one byte, CR. An LF behind the second one is read. -/
theorem lines_read_behind : ∃ s s' : Str, s.text = [13] ∧ s'.text = [13] ∧
    (stringLines s).1.map s.viewText = [[13]] ∧ (stringLines s').1.map s'.viewText = [[]] :=
  ⟨.of [13] (by decide), ⟨[13, 10], 0, 1, false, by decide, by decide⟩, rfl,
    rfl, by decide, by decide⟩

end TyLang.Strings

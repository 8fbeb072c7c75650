import Mathlib

/-!
Programs that read a text from memory by a pointer and a counter of the bytes that are left, where
nothing is known about the bytes behind the text. A run says how far into the memory it has looked.
A program follows a function on texts if it does what this function does and looks at nothing but
the text; it strays if it looks further. Which of them it does is a matter of the text alone.
-/
namespace TyLang.Reading
open List

variable {B E α β : Type}

/-- The pointer, from the start of the text, and the counter. -/
structure Scan where
  pos : Nat
  len : Nat

/-- What came out of a run, and one more than the highest offset that it has read. -/
structure Run (E α : Type) where
  result : Except E α
  scan : Scan
  high : Nat

def Reader (E α : Type) : Type := Scan → Run E α

instance : Monad (Reader E) where
  pure a := fun st => ⟨.ok a, st, 0⟩
  bind m f := fun st => match (m st).result with
    | .error e => ⟨.error e, (m st).scan, (m st).high⟩
    | .ok a => { f a (m st).scan with high := max (m st).high (f a (m st).scan).high }

def fail (e : E) : Reader E α := fun st => ⟨.error e, st, 0⟩

/-- The place of the pointer and the counter. -/
def here : Reader E Scan := fun st => ⟨.ok st, st, 0⟩

/-- The byte that many places behind the pointer; there is a zero at the end of the memory. -/
def load [OfNat B 0] (mem : List B) (k : Nat) : Reader E B :=
  fun st => ⟨.ok (mem.getD (st.pos + k) 0), st, st.pos + k + 1⟩

/-- A look at the bytes before an offset. -/
def upTo (offset : Nat) : Reader E Unit := fun st => ⟨.ok (), st, offset⟩

/-- The counter has no sign: below zero it starts again from `2 ^ 64`. -/
def advance (k : Nat) : Reader E Unit :=
  fun st => ⟨.ok (), ⟨st.pos + k, if k ≤ st.len then st.len - k else st.len + 2 ^ 64 - k⟩, 0⟩

section Rules

variable (text : List B)

/-- The pointer stands before the last part `s` of the text. -/
structure At (st : Scan) (s : List B) : Prop where
  rest : text.drop st.pos = s
  pos : st.pos ≤ text.length
  len : st.len = s.length

def Follows (m : Reader E α) (s : List B) (r : Except E (α × List B)) : Prop :=
  ∀ st, At text st s → (m st).high ≤ text.length ∧ match r with
    | .ok (a, s') => (m st).result = .ok a ∧ At text (m st).scan s'
    | .error e => (m st).result = .error e

def Strays (m : Reader E α) (s : List B) : Prop := ∀ st, At text st s → text.length < (m st).high

/-- The program strays under a condition, and else it follows. -/
def Does (m : Reader E α) (P : Prop) (s : List B) (r : Except E (α × List B)) : Prop :=
  (¬ P ∧ Follows text m s r) ∨ (P ∧ Strays text m s)

variable {text} {m : Reader E α} {f : α → Reader E β} {s s' : List B} {a : α} {e : E}
variable {r : Except E (β × List B)} {st : Scan} {P P' : Prop} {x : Except E (α × List B)}

lemma At.split (h : At text st s) : ∃ before, text = before ++ s ∧ before.length = st.pos :=
  ⟨text.take st.pos, by rw [← h.rest, take_append_drop], length_take_of_le h.pos⟩

lemma At.add_length (h : At text st s) : st.pos + s.length = text.length := by
  obtain ⟨before, rfl, hpos⟩ := h.split
  rw [length_append, hpos]

lemma At.drop_memory (h : At text st s) (behind : List B) :
    (text ++ behind).drop st.pos = s ++ behind := by
  rw [drop_append_of_le_length h.pos, h.rest]

lemma follows_pure (a : α) (s : List B) : Follows text (pure a : Reader E α) s (.ok (a, s)) :=
  fun _ h => ⟨Nat.zero_le _, rfl, h⟩

lemma follows_fail (e : E) (s : List B) : Follows text (fail e : Reader E α) s (.error e) :=
  fun _ _ => ⟨Nat.zero_le _, rfl⟩

lemma Follows.result_eq (hm : Follows text m s x) (hst : At text st s) :
    (m st).result = x.map Prod.fst := by
  have hresult := (hm st hst).2
  cases x with
  | error e => exact hresult
  | ok q => exact hresult.1

lemma Follows.bind (hm : Follows text m s (.ok (a, s'))) (hf : Follows text (f a) s' r) :
    Follows text (m >>= f) s r := by
  intro st hst
  obtain ⟨hhigh, hresult, hscan⟩ := hm st hst
  obtain ⟨hhigh', hresult'⟩ := hf _ hscan
  simp only [Bind.bind, hresult]
  exact ⟨Nat.max_le.mpr ⟨hhigh, hhigh'⟩, hresult'⟩

lemma Follows.bind_error (hm : Follows text m s (.error e)) :
    Follows text (m >>= f) s (.error e) := by
  intro st hst
  obtain ⟨hhigh, hresult⟩ := hm st hst
  simp only [Bind.bind, hresult]
  exact ⟨hhigh, trivial⟩

lemma Follows.map (hm : Follows text m s x) (g : α → β) :
    Follows text (do return g (← m)) s (x.map fun q => (g q.1, q.2)) := by
  cases x with
  | error e => exact hm.bind_error
  | ok q => exact hm.bind (follows_pure _ _)

lemma Strays.bind (hm : Strays text m s) : Strays text (m >>= f) s := by
  intro st hst
  have hhigh := hm st hst
  simp only [Bind.bind]
  split
  · exact hhigh
  · exact Nat.lt_of_lt_of_le hhigh (Nat.le_max_left ..)

lemma Follows.bind_strays (hm : Follows text m s (.ok (a, s'))) (hf : Strays text (f a) s') :
    Strays text (m >>= f) s := by
  intro st hst
  obtain ⟨-, hresult, hscan⟩ := hm st hst
  simp only [Bind.bind, hresult]
  exact Nat.lt_of_lt_of_le (hf _ hscan) (Nat.le_max_right ..)

lemma Follows.does {r : Except E (α × List B)} (h : Follows text m s r) (hP : ¬ P) :
    Does text m P s r := .inl ⟨hP, h⟩

lemma Strays.does {r : Except E (α × List B)} (h : Strays text m s) (hP : P) :
    Does text m P s r := .inr ⟨hP, h⟩

lemma Does.congr {r : Except E (α × List B)} (h : Does text m P s r) (hP : P' ↔ P) :
    Does text m P' s r := by
  rwa [Does, hP]

lemma Follows.bind_does (hm : Follows text m s (.ok (a, s'))) (hf : Does text (f a) P s' r) :
    Does text (m >>= f) P s r := by
  rcases hf with ⟨hP, hf⟩ | ⟨hP, hf⟩
  · exact (hm.bind hf).does hP
  · exact (hm.bind_strays hf).does hP

/-- A program strays in its first part, or where that part has come to. -/
lemma Does.bind {Q : α → List B → Prop} (hm : Does text m P s x)
    (herror : ∀ e, x = .error e → r = .error e)
    (hf : ∀ a s', x = .ok (a, s') → Does text (f a) (Q a s') s' r) :
    Does text (m >>= f) (P ∨ ∃ a s', x = .ok (a, s') ∧ Q a s') s r := by
  rcases hm with ⟨hP, hm⟩ | ⟨hP, hm⟩
  · cases x with
    | error e =>
      rw [herror e rfl]
      exact hm.bind_error.does (by simp [hP])
    | ok q =>
      obtain ⟨a, s'⟩ := q
      exact (hm.bind_does (hf a s' rfl)).congr (by simp [hP])
  · exact hm.bind.does (.inl hP)

lemma Does.map (h : Does text m P s x) (g : α → β) :
    Does text (do return g (← m)) P s (x.map fun q => (g q.1, q.2)) := by
  rcases h with ⟨hP, h⟩ | ⟨hP, h⟩
  · exact (h.map g).does hP
  · exact h.bind.does hP

variable {f : Scan → Reader E β}

lemma follows_here
    (hf : ∀ st, At text st s → Follows text (f st) s r) : Follows text (here >>= f) s r := by
  intro st hst
  simpa [Bind.bind, here] using hf st hst st hst

lemma strays_here
    (hf : ∀ st, At text st s → Strays text (f st) s) : Strays text (here >>= f) s := by
  intro st hst
  simpa [Bind.bind, here] using hf st hst st hst

lemma follows_load [OfNat B 0] (behind : List B) {k : Nat} (hk : k < s.length) :
    Follows text (load (text ++ behind) k : Reader E B) s (.ok (s.getD k 0, s)) := by
  intro st hst
  have hlen := hst.add_length
  refine ⟨by simp only [load]; omega, ?_, hst⟩
  obtain ⟨before, rfl, hpos⟩ := hst.split
  simp only [load]
  rw [getD_eq_getElem?_getD, getD_eq_getElem?_getD, ← hpos, append_assoc,
    getElem?_append_right (by omega), Nat.add_sub_cancel_left, getElem?_append_left hk]

lemma strays_load [OfNat B 0] {mem : List B} {k : Nat} (hk : s.length ≤ k) :
    Strays text (load mem k : Reader E B) s := by
  intro st hst
  have hlen := hst.add_length
  simp only [load]
  omega

lemma follows_upTo {offset : Nat} (h : offset ≤ text.length) :
    Follows text (upTo offset : Reader E Unit) s (.ok ((), s)) :=
  fun _ hst => ⟨h, rfl, hst⟩

lemma strays_upTo {offset : Nat} (h : text.length < offset) :
    Strays text (upTo offset : Reader E Unit) s := fun _ _ => h

lemma follows_advance {k : Nat} (hk : k ≤ s.length) :
    Follows text (advance k : Reader E Unit) s (.ok ((), s.drop k)) := by
  intro st hst
  have hlen := hst.add_length
  refine ⟨Nat.zero_le _, rfl, ?_, by simp only [advance]; omega, ?_⟩
  · simp only [advance]
    rw [← drop_drop, hst.rest]
  · simp only [advance, hst.len]
    rw [if_pos hk, length_drop]

end Rules

end TyLang.Reading

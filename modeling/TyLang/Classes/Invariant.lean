import TyLang.Classes.Table

/-!
What holds in every class table that a program can build: all super classes lead to
`Object`, those of a trait through traits, and a class that implements a trait
implements its super-traits itself.
-/
namespace TyLang.Classes
open List Forest

variable {t : Table} {a b c d u : Nat}

/-! ### The invariant -/

/-- What does not depend on the traits that are implemented. -/
structure Shape (t : Table) : Prop where
  isTrait_object : t.isTrait 0 = false
  super_object : t.super 0 = none
  size_pos : 0 < t.size
  super_lt : ∀ c d, t.super c = some d → d < t.size
  ends : ∀ c, c < t.size → Above t.super c 0
  trait_super : ∀ c d, t.isTrait c → t.super c = some d → t.isTrait d ∨ d = 0
  ti_inj : ∀ a b, t.isTrait a → t.isTrait b → t.ti a = t.ti b → a = b
  ti_lt : ∀ a, t.isTrait a → t.ti a < t.traits.length

/-- A class that implements a trait implements its super-traits itself, up to `u`. -/
def ClosedUpTo (t : Table) (k : Class) (u : Nat) : Prop :=
  ∀ b d, t.isTrait b → t.super b = some d → t.isTrait d →
    k.has (t.ti b) → k.has (t.ti d) ∨ d = u

def Closed (t : Table) (k : Class) : Prop :=
  ∀ b d, t.isTrait b → t.super b = some d → t.isTrait d →
    k.has (t.ti b) → k.has (t.ti d)

structure Inv (t : Table) : Prop extends Shape t where
  known : ∀ a i, (t.get a).has i → i < t.traits.length
  closed : ∀ a, Closed t (t.get a)

lemma Closed.upTo {k : Class} (h : Closed t k) (u : Nat) : ClosedUpTo t k u :=
  fun b d hb hbd hd hk => .inl (h b d hb hbd hd hk)

lemma isTrait_lt (h : t.isTrait c) : c < t.size := by
  by_contra hc
  rw [Table.isTrait, Table.get_of_le (Nat.le_of_not_lt hc)] at h
  cases h

lemma Shape.lt_of_above (h : Shape t) (hc : c < t.size) (hup : Above t.super c a) :
    a < t.size := by
  induction hup with
  | refl => exact hc
  | step hparent _ ih => exact ih (h.super_lt _ _ hparent)

lemma Shape.enough (h : Shape t) (hc : c < t.size) : Enough t.super t.size c :=
  enough_of_lt fun _ ha => h.lt_of_above hc ha

lemma Shape.implements_iff (h : Shape t) (hc : c < t.size) (i : Nat) :
    classImplementsTrait t c i ↔ ∃ a, Above t.super c a ∧ (t.get a).has i :=
  walk_iff (h.enough hc) (h.ends c hc) h.super_object

/-! ### Implementing a trait -/

/-- What `class_implement_trait` makes of a class. -/
structure Extended (t : Table) (k k' : Class) : Prop where
  isTrait : k'.isTrait = k.isTrait
  ti : k'.ti = k.ti
  super : k'.super = k.super
  keeps : ∀ i, k.has i → k'.has i
  known : ∀ i, k'.has i → k.has i ∨ i < t.traits.length

lemma Extended.trans {k1 k2 k3 : Class} (h1 : Extended t k1 k2) (h2 : Extended t k2 k3) :
    Extended t k1 k3 := by
  refine ⟨h2.isTrait.trans h1.isTrait, h2.ti.trans h1.ti, h2.super.trans h1.super,
    fun i hi => h2.keeps i (h1.keeps i hi), fun i hi => ?_⟩
  rcases h2.known i hi with hi | hi
  · exact h1.known i hi
  · exact .inr hi

def Class.add (k : Class) (ti u : Nat) : Class :=
  { k with
    impls := (k.impls ++ replicate (ti + 1 - k.impls.length) false).set ti true
    traits := k.traits ++ [u] }

lemma Class.has_add (k : Class) (ti u i : Nat) : (k.add ti u).has i = (ti == i || k.has i) := by
  have hlen : ti < (k.impls ++ replicate (ti + 1 - k.impls.length) false).length := by
    rw [length_append, length_replicate]
    omega
  have hset := Class.has_set
    { k with impls := k.impls ++ replicate (ti + 1 - k.impls.length) false } hlen (j := i)
  rwa [Class.has_pad] at hset

lemma Shape.extended_add (h : Shape t) (hu : t.isTrait u) (k : Class) :
    Extended t k (k.add (t.ti u) u) := by
  refine ⟨rfl, rfl, rfl, fun i hi => ?_, fun i hi => ?_⟩
  · rw [Class.has_add, hi, Bool.or_true]
  · rw [Class.has_add, Bool.or_eq_true, beq_iff_eq] at hi
    rcases hi with rfl | hi
    · exact .inr (h.ti_lt u hu)
    · exact .inl hi

lemma Shape.closedUpTo_add (h : Shape t) (hu : t.isTrait u) {k : Class}
    (hclosed : ClosedUpTo t k u) {b d : Nat} (hb : t.isTrait b)
    (hbd : t.super b = some d) (hd : t.isTrait d)
    (hhas : (k.add (t.ti u) u).has (t.ti b)) :
    (k.add (t.ti u) u).has (t.ti d) ∨ b = u := by
  rw [Class.has_add, Bool.or_eq_true, beq_iff_eq] at hhas
  rw [Class.has_add, Bool.or_eq_true, beq_iff_eq]
  rcases hhas with hti | hhas
  · exact .inr (h.ti_inj b u hb hu hti.symm)
  · rcases hclosed b d hb hbd hd hhas with hhas | rfl
    · exact .inl (.inr hhas)
    · exact .inl (.inl rfl)

lemma Shape.implementTrait_spec (h : Shape t) :
    ∀ fuel k u, t.isTrait u → Enough t.super fuel u → ClosedUpTo t k u →
      Extended t k (implementTrait t fuel k u) ∧ Closed t (implementTrait t fuel k u) ∧
        (implementTrait t fuel k u).has (t.ti u) := by
  intro fuel
  induction fuel with
  | zero =>
    intro k u _ henough _
    obtain ⟨n, hn⟩ := henough.pos
    cases hn
  | succ fuel ih =>
    intro k u hu henough hclosed
    rw [implementTrait]
    by_cases hhas : k.has (t.ti u)
    · rw [if_pos hhas]
      have hpad := Class.has_pad k (t.ti u + 1 - k.impls.length)
      refine ⟨⟨rfl, rfl, rfl, fun i hi => (hpad i).trans hi,
        fun i hi => .inl ((hpad i).symm.trans hi)⟩, ?_, (hpad _).trans hhas⟩
      intro b d hb hbd hd hk
      rw [hpad] at hk ⊢
      rcases hclosed b d hb hbd hd hk with hk | rfl
      · exact hk
      · exact hhas
    · rw [if_neg hhas]
      change let k' := k.add (t.ti u) u; _
      have hself : (k.add (t.ti u) u).has (t.ti u) := by
        rw [Class.has_add, beq_self_eq_true, Bool.true_or]
      have hadd := h.extended_add hu k
      -- the recursion goes on while there is a super-trait
      have hdone (hnone : ∀ v, t.super u = some v → t.isTrait v = false) :
          Closed t (k.add (t.ti u) u) := by
        intro b d hb hbd hd hk
        rcases h.closedUpTo_add hu hclosed hb hbd hd hk with hk | rfl
        · exact hk
        · rw [hnone d hbd] at hd
          cases hd
      cases hsuper : t.super u with
      | none => exact ⟨hadd, hdone (fun v hv => by rw [hsuper] at hv; cases hv), hself⟩
      | some v =>
        by_cases hv : t.isTrait v
        · simp only [if_pos hv]
          have hup := h.ends u (isTrait_lt hu)
          obtain ⟨hext, hcl, -⟩ := ih (k.add (t.ti u) u) v hv
            (henough.up hup h.super_object hsuper) (by
              intro b d hb hbd hd hk
              rcases h.closedUpTo_add hu hclosed hb hbd hd hk with hk | rfl
              · exact .inl hk
              · rw [hsuper] at hbd
                exact .inr (Option.some.inj hbd).symm)
          exact ⟨hadd.trans hext, hcl, hext.keeps _ hself⟩
        · simp only [if_neg hv]
          refine ⟨hadd, hdone (fun w hw => ?_), hself⟩
          rw [hsuper] at hw
          cases hw
          simpa using hv

/-! ### Tables that implement more -/

/-- The same classes, with more traits implemented. -/
structure Widened (t s : Table) : Prop where
  size : s.size = t.size
  traits : s.traits = t.traits
  each : ∀ a, Extended t (t.get a) (s.get a)

variable {s : Table}

lemma Extended.refl (k : Class) : Extended t k k :=
  ⟨rfl, rfl, rfl, fun _ hi => hi, fun _ hi => .inl hi⟩

lemma Widened.refl (t : Table) : Widened t t := ⟨rfl, rfl, fun a => .refl (t.get a)⟩

lemma Widened.super (w : Widened t s) : s.super = t.super := funext fun a => (w.each a).super
lemma Widened.isTrait (w : Widened t s) : s.isTrait = t.isTrait :=
  funext fun a => (w.each a).isTrait
lemma Widened.ti (w : Widened t s) : s.ti = t.ti := funext fun a => (w.each a).ti

lemma Widened.closed_iff (w : Widened t s) (k : Class) : Closed s k ↔ Closed t k := by
  unfold Closed
  rw [w.super, w.isTrait, w.ti]

lemma Widened.closedUpTo_iff (w : Widened t s) (k : Class) (u : Nat) :
    ClosedUpTo s k u ↔ ClosedUpTo t k u := by
  unfold ClosedUpTo
  rw [w.super, w.isTrait, w.ti]

lemma Widened.trans {r : Table} (w1 : Widened t s) (w2 : Widened s r) : Widened t r := by
  refine ⟨w2.size.trans w1.size, w2.traits.trans w1.traits, fun a => (w1.each a).trans ?_⟩
  have h := w2.each a
  exact ⟨h.isTrait, h.ti, h.super, h.keeps, w1.traits ▸ h.known⟩

lemma Shape.widened (h : Shape t) (w : Widened t s) : Shape s := by
  refine ⟨?_, ?_, w.size ▸ h.size_pos, ?_, ?_, ?_, ?_, ?_⟩
  · rw [w.isTrait]
    exact h.isTrait_object
  · rw [w.super]
    exact h.super_object
  · rw [w.super, w.size]
    exact h.super_lt
  · rw [w.super, w.size]
    exact h.ends
  · rw [w.super, w.isTrait]
    exact h.trait_super
  · rw [w.ti, w.isTrait]
    exact h.ti_inj
  · rw [w.ti, w.isTrait, w.traits]
    exact h.ti_lt

lemma Shape.inv_of_widened (h : Shape t) (hknown : ∀ a i, (t.get a).has i →
    i < t.traits.length) (w : Widened t s) (hclosed : ∀ a, a < t.size → Closed t (s.get a)) :
    Inv s := by
  refine { h.widened w with known := fun a i hi => ?_, closed := fun a => ?_ }
  · rw [w.traits]
    rcases (w.each a).known i hi with hi | hi
    · exact hknown a i hi
    · exact hi
  · rw [w.closed_iff]
    by_cases ha : a < t.size
    · exact hclosed a ha
    · rw [Table.get_of_le (w.size ▸ Nat.le_of_not_lt ha)]
      exact fun b d _ _ _ hk => by cases hk

lemma Shape.classImplementTrait_spec (h : Shape t) (hc : c < t.size) (hu : t.isTrait u)
    (hclosed : ClosedUpTo t (t.get c) u) :
    Widened t (classImplementTrait t c u) ∧ Closed t ((classImplementTrait t c u).get c) ∧
      ∀ a, a ≠ c → (classImplementTrait t c u).get a = t.get a := by
  obtain ⟨hext, hcl, -⟩ :=
    h.implementTrait_spec t.size (t.get c) u hu (h.enough (isTrait_lt hu)) hclosed
  have hself : (classImplementTrait t c u).get c = implementTrait t t.size (t.get c) u :=
    Table.get_modify_self hc
  have hother (a : Nat) (ha : a ≠ c) : (classImplementTrait t c u).get a = t.get a :=
    Table.get_modify_of_ne (Ne.symm ha)
  refine ⟨⟨Table.size_modify, rfl, fun a => ?_⟩, hself ▸ hcl, hother⟩
  by_cases ha : a = c
  · subst ha
    rwa [hself]
  · rw [hother a ha]
    exact .refl _

/-! ### The operations keep the invariant -/

lemma inv_start : Inv start := by
  have hget (a : Nat) : (start.get a).isTrait = false ∧ (start.get a).super = none ∧
      ∀ i, (start.get a).has i = false := by
    cases a <;> exact ⟨rfl, rfl, fun _ => rfl⟩
  refine ⟨⟨rfl, rfl, Nat.one_pos, ?_, ?_, ?_, ?_, ?_⟩, ?_, ?_⟩
  · intro c d hcd
    cases (hget c).2.1.symm.trans hcd
  · intro c hc
    obtain rfl : c = 0 := Nat.lt_one_iff.mp hc
    exact .refl 0
  · intro c d hc
    cases (hget c).1.symm.trans hc
  · intro a b ha
    cases (hget a).1.symm.trans ha
  · intro a ha
    cases (hget a).1.symm.trans ha
  · intro a i hi
    cases ((hget a).2.2 i).symm.trans hi
  · intro a b d hb
    cases (hget b).1.symm.trans hb

lemma Inv.append (h : Inv t) (isTrait : Bool) (ti : Nat) (trs : List Nat)
    (hti : isTrait → ti = t.traits.length ∧ t.traits.length < trs.length)
    (htrs : t.traits.length ≤ trs.length) :
    Inv ⟨t.classes ++ [⟨isTrait, ti, some 0, [], []⟩], trs⟩ := by
  generalize hs : (⟨t.classes ++ [⟨isTrait, ti, some 0, [], []⟩], trs⟩ : Table) = s
  have hsize : s.size = t.size + 1 := by
    subst hs
    exact length_append
  have htraits : s.traits = trs := by
    subst hs
    rfl
  have hold (a : Nat) (ha : a < t.size) : s.get a = t.get a := hs ▸ Table.get_append_lt ha
  have hnew : s.get t.size = ⟨isTrait, ti, some 0, [], []⟩ := hs ▸ Table.get_append_self
  have hout (a : Nat) (ha : t.size < a) : s.get a = default := Table.get_of_le (by omega)
  have htrait {a : Nat} (ha : s.isTrait a) :
      a < t.size ∧ t.isTrait a ∧ s.ti a = t.ti a ∨ s.ti a = t.traits.length ∧
        t.traits.length < trs.length ∧ a = t.size := by
    rcases Nat.lt_trichotomy a t.size with hlt | rfl | hgt
    · rw [Table.isTrait, hold a hlt] at ha
      exact .inl ⟨hlt, ha, congrArg Class.ti (hold a hlt)⟩
    · rw [Table.isTrait, hnew] at ha
      obtain ⟨hti, hlen⟩ := hti ha
      refine .inr ⟨?_, hlen, rfl⟩
      rw [Table.ti, hnew, hti]
    · rw [Table.isTrait, hout a hgt] at ha
      cases ha
  have hsuper {a e : Nat} (hae : s.super a = some e) :
      a < t.size ∧ t.super a = some e ∨ a = t.size ∧ e = 0 := by
    rcases Nat.lt_trichotomy a t.size with hlt | rfl | hgt
    · rw [Table.super, hold a hlt] at hae
      exact .inl ⟨hlt, hae⟩
    · rw [Table.super, hnew] at hae
      exact .inr ⟨rfl, (Option.some.inj hae).symm⟩
    · rw [Table.super, hout a hgt] at hae
      cases hae
  have hhas {a i : Nat} (hi : (s.get a).has i) : s.get a = t.get a := by
    rcases Nat.lt_trichotomy a t.size with hlt | rfl | hgt
    · exact hold a hlt
    · rw [hnew] at hi
      cases hi
    · rw [hout a hgt] at hi
      cases hi
  have hzero := hold 0 h.size_pos
  have hends (c : Nat) (hc : c < t.size) : Above s.super c 0 :=
    (h.ends c hc).congr fun b hb => congrArg Class.super (hold b (h.lt_of_above hc hb))
  refine ⟨⟨?_, ?_, by omega, ?_, ?_, ?_, ?_, ?_⟩, ?_, ?_⟩
  · rw [Table.isTrait, hzero]
    exact h.isTrait_object
  · rw [Table.super, hzero]
    exact h.super_object
  · intro c d hcd
    rcases hsuper hcd with ⟨-, hcd⟩ | ⟨-, rfl⟩
    · have := h.super_lt c d hcd
      omega
    · omega
  · intro c hc
    rcases Nat.lt_or_ge c t.size with hlt | hge
    · exact hends c hlt
    · obtain rfl : c = t.size := by omega
      exact .step (congrArg Class.super hnew) (.refl 0)
  · intro c d hc hcd
    rcases hsuper hcd with ⟨hlt, hcd⟩ | ⟨-, rfl⟩
    · rw [Table.isTrait, hold c hlt] at hc
      rw [Table.isTrait, hold d (h.super_lt c d hcd)]
      exact h.trait_super c d hc hcd
    · exact .inr rfl
  · intro a b ha hb hab
    rcases htrait ha with ⟨-, ha, hta⟩ | ⟨hta, -, rfl⟩ <;>
      rcases htrait hb with ⟨-, hb, htb⟩ | ⟨htb, -, rfl⟩
    · exact h.ti_inj a b ha hb (by rw [← hta, ← htb, hab])
    · have := h.ti_lt a ha
      omega
    · have := h.ti_lt b hb
      omega
    · rfl
  · intro a ha
    rw [htraits]
    rcases htrait ha with ⟨-, ha, hta⟩ | ⟨hta, hlen, -⟩
    · have := h.ti_lt a ha
      omega
    · omega
  · intro a i hi
    rw [hhas hi] at hi
    rw [htraits]
    exact Nat.lt_of_lt_of_le (h.known a i hi) htrs
  · intro a b d hb hbd hd hi
    have hsame := hhas hi
    rw [hsame] at hi ⊢
    rcases htrait hb with ⟨hlt, hb, htb⟩ | ⟨htb, -, -⟩
    · rcases hsuper hbd with ⟨-, hbd⟩ | ⟨rfl, -⟩
      · have hdold := hold d (h.super_lt b d hbd)
        rw [htb] at hi
        rw [Table.isTrait, hdold] at hd
        rw [Table.ti, hdold]
        exact h.closed a b d hb hbd hd hi
      · exact absurd hlt (Nat.lt_irrefl _)
    · -- nothing implements the trait that has just been made
      rw [htb] at hi
      exact absurd (h.known a _ hi) (Nat.lt_irrefl _)

lemma Inv.classNew (h : Inv t) : Inv (classNew t) :=
  h.append false 0 t.traits (nofun) .refl

lemma Inv.traitNew (h : Inv t) : Inv (traitNew t) := by
  have hlen : (t.traits ++ [t.size]).length = t.traits.length + 1 := length_append
  exact h.append true t.traits.length (t.traits ++ [t.size]) (fun _ => ⟨rfl, by omega⟩) (by omega)

lemma Inv.classImplementTrait (h : Inv t) (hc : c < t.size) (hu : t.isTrait u) :
    Inv (classImplementTrait t c u) := by
  obtain ⟨hw, hclosed, hother⟩ := h.classImplementTrait_spec hc hu ((h.closed c).upTo u)
  refine h.inv_of_widened h.known hw fun a _ => ?_
  by_cases ha : a = c
  · subst ha
    exact hclosed
  · rw [hother a ha]
    exact h.closed a

/-- The table after the assignment in `class_set_super`. -/
def Table.setSuper (t : Table) (c d : Nat) : Table :=
  t.modify c fun k => { k with super := some d }

section SetSuper

variable (h : Inv t) (hc : c < t.size) (hd : d < t.size) (hdc : ¬ Above t.super d c)
  (htrait : t.isTrait c → t.isTrait d ∨ d = 0)

section
variable (hc : c < t.size)
include hc

lemma get_setSuper (a : Nat) :
    (t.setSuper c d).get a = { t.get a with super := if a = c then some d else t.super a } := by
  by_cases ha : a = c
  · subst ha
    rw [if_pos rfl]
    exact Table.get_modify_self hc
  · rw [if_neg ha]
    exact Table.get_modify_of_ne (Ne.symm ha)

lemma super_setSuper (a : Nat) : (t.setSuper c d).super a = if a = c then some d else t.super a :=
  congrArg Class.super (get_setSuper hc a)

lemma isTrait_setSuper : (t.setSuper c d).isTrait = t.isTrait :=
  funext fun a => by rw [Table.isTrait, get_setSuper hc]; rfl

lemma ti_setSuper : (t.setSuper c d).ti = t.ti :=
  funext fun a => by rw [Table.ti, get_setSuper hc]; rfl

lemma has_setSuper (a i : Nat) : ((t.setSuper c d).get a).has i = (t.get a).has i := by
  rw [get_setSuper hc]
  rfl

lemma above_setSuper (ha : ¬ Above t.super a c) (hab : Above t.super a b) :
    Above (t.setSuper c d).super a b := by
  apply hab.congr
  intro e he
  rw [super_setSuper hc, if_neg]
  rintro rfl
  exact ha he

end

include h hc hd hdc htrait in
lemma Inv.shape_setSuper : Shape (t.setSuper c d) := by
  have hzero : (0 : Nat) ≠ c := by
    rintro rfl
    exact hdc (h.ends d hd)
  have hd0 : Above (t.setSuper c d).super d 0 := above_setSuper hc hdc (h.ends d hd)
  have hsize : (t.setSuper c d).size = t.size := Table.size_modify
  -- a way up either misses `c` or goes on from its new super class
  have hroot {a r : Nat} (hup : Above t.super a r) :
      Above (t.setSuper c d).super a r ∨ Above (t.setSuper c d).super a 0 := by
    induction hup with
    | refl => exact .inl (.refl _)
    | @step a e r hae _ ih =>
      by_cases hac : a = c
      · exact .inr (.step (by rw [super_setSuper hc, if_pos hac]) hd0)
      · have hae' : (t.setSuper c d).super a = some e := by
          rw [super_setSuper hc, if_neg hac, hae]
        exact ih.imp (.step hae') (.step hae')
  refine ⟨?_, ?_, hsize ▸ h.size_pos, ?_, ?_, ?_, ?_, ?_⟩
  · rw [isTrait_setSuper hc]
    exact h.isTrait_object
  · rw [super_setSuper hc, if_neg hzero]
    exact h.super_object
  · intro a e hae
    rw [super_setSuper hc] at hae
    rw [hsize]
    split at hae
    · cases hae
      exact hd
    · exact h.super_lt a e hae
  · intro a ha
    exact (hroot (h.ends a (hsize ▸ ha))).elim id id
  · intro a e ha hae
    rw [isTrait_setSuper hc] at ha ⊢
    rw [super_setSuper hc] at hae
    split at hae
    · rename_i hac
      cases hae
      exact htrait (hac ▸ ha)
    · exact h.trait_super a e ha hae
  · rw [isTrait_setSuper hc, ti_setSuper hc]
    exact h.ti_inj
  · rw [isTrait_setSuper hc, ti_setSuper hc]
    exact h.ti_lt

include h hc in
lemma Inv.closedUpTo_setSuper {a e f : Nat} (he : (t.setSuper c d).isTrait e)
    (hef : (t.setSuper c d).super e = some f) (hf : (t.setSuper c d).isTrait f)
    (hhas : ((t.setSuper c d).get a).has ((t.setSuper c d).ti e)) :
    ((t.setSuper c d).get a).has ((t.setSuper c d).ti f) ∨ e = c ∧ f = d := by
  rw [isTrait_setSuper hc] at he hf
  rw [ti_setSuper hc, has_setSuper hc] at hhas ⊢
  rw [super_setSuper hc] at hef
  split at hef
  · cases hef
    exact .inr ⟨‹_›, rfl⟩
  · exact .inl (h.closed a e f he hef hf hhas)

/-- The first `n` rounds of the loop in `class_set_super`. -/
def superLoop (t : Table) (c d n : Nat) : Table :=
  (List.range n).foldl (fun s i =>
    if classImplementsTrait s i (t.ti c) then Classes.classImplementTrait s i d else s)
    (t.setSuper c d)

include h hc hd hdc htrait in
lemma Inv.superLoop_spec (hct : t.isTrait c) (hdt : t.isTrait d) :
    ∀ n, n ≤ t.size →
      Widened (t.setSuper c d) (superLoop t c d n) ∧
      (∀ a, a < n → Closed (t.setSuper c d) ((superLoop t c d n).get a)) ∧
      ∀ a, n ≤ a → (superLoop t c d n).get a = (t.setSuper c d).get a := by
  have hshape := h.shape_setSuper hc hd hdc htrait
  intro n
  induction n with
  | zero => exact fun _ => ⟨.refl _, fun a ha => absurd ha (Nat.not_lt_zero a), fun _ _ => rfl⟩
  | succ n ih =>
    intro hn
    obtain ⟨hw, hdone, hrest⟩ := ih (by omega)
    have hnext : superLoop t c d (n + 1) =
        if classImplementsTrait (superLoop t c d n) n (t.ti c) then
          Classes.classImplementTrait (superLoop t c d n) n d
        else superLoop t c d n := by
      unfold superLoop
      rw [range_succ, foldl_append]
      rfl
    have hsame := hrest n (Nat.le_refl n)
    have hsize : (superLoop t c d n).size = t.size := hw.size.trans Table.size_modify
    rw [hnext]
    by_cases himpl : classImplementsTrait (superLoop t c d n) n (t.ti c)
    · rw [if_pos himpl]
      have hupTo : ClosedUpTo (superLoop t c d n) ((superLoop t c d n).get n) d := by
        rw [hw.closedUpTo_iff, hsame]
        intro e f he hef hf hhas
        exact (h.closedUpTo_setSuper hc he hef hf hhas).imp_right And.right
      obtain ⟨hw', hcl, hother⟩ := (hshape.widened hw).classImplementTrait_spec
        (by omega) (by rw [hw.isTrait, isTrait_setSuper hc]; exact hdt) hupTo
      refine ⟨hw.trans hw', fun a ha => ?_, fun a ha => ?_⟩
      · by_cases han : a = n
        · subst han
          exact (hw.closed_iff _).mp hcl
        · rw [hother a han]
          exact hdone a (by omega)
      · rw [hother a (by omega)]
        exact hrest a (by omega)
    · rw [if_neg himpl]
      refine ⟨hw, fun a ha => ?_, fun a ha => hrest a (by omega)⟩
      by_cases han : a = n
      · subst han
        rw [hsame]
        intro e f he hef hf hhas
        rcases h.closedUpTo_setSuper hc he hef hf hhas with hhas' | ⟨rfl, -⟩
        · exact hhas'
        · -- a class that implements the trait itself would have been found
          refine absurd ?_ himpl
          rw [(hshape.widened hw).implements_iff (by omega)]
          rw [ti_setSuper hc] at hhas
          exact ⟨a, .refl a, by rw [hsame]; exact hhas⟩
      · exact hdone a (by omega)

lemma classSetSuper_eq (t : Table) (c d : Nat) : classSetSuper t c d =
    if (t.isTrait c && t.isTrait d) then superLoop t c d t.size else t.setSuper c d := rfl

include h hc hd hdc htrait in
lemma Inv.classSetSuper_spec :
    Inv (classSetSuper t c d) ∧ Widened (t.setSuper c d) (classSetSuper t c d) := by
  have hshape := h.shape_setSuper hc hd hdc htrait
  have hsize : (t.setSuper c d).size = t.size := Table.size_modify
  have hknown (a i : Nat) (hi : ((t.setSuper c d).get a).has i) :
      i < (t.setSuper c d).traits.length := by
    rw [has_setSuper hc] at hi
    exact h.known a i hi
  rw [classSetSuper_eq]
  by_cases hboth : (t.isTrait c && t.isTrait d)
  · rw [if_pos hboth]
    rw [Bool.and_eq_true] at hboth
    obtain ⟨hw, hdone, -⟩ := h.superLoop_spec hc hd hdc htrait hboth.1 hboth.2 t.size .refl
    exact ⟨hshape.inv_of_widened hknown hw (fun a ha => hdone a (hsize ▸ ha)), hw⟩
  · rw [if_neg hboth]
    refine ⟨{ hshape with known := hknown, closed := fun a e f he hef hf hhas => ?_ }, .refl _⟩
    rcases h.closedUpTo_setSuper hc he hef hf hhas with hhas' | ⟨rfl, rfl⟩
    · exact hhas'
    · rw [isTrait_setSuper hc] at he hf
      exact absurd (by rw [he, hf]; rfl) hboth

end SetSuper

end TyLang.Classes

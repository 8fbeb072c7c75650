import TyLang.Classes.Invariant

/-!
Subclassing in every class table that a program can build. A trait is compared with
another along its super-traits only, a class by the traits it implements. The two
agree as long as `Object`, which is above every trait, implements none that is not
above every trait as well.
-/
namespace TyLang.Classes
open Forest

inductive Op where
  | classNew
  | traitNew
  | setSuper (c d : Nat)
  | implement (c u : Nat)
  deriving DecidableEq, Repr

/-- The super classes stay acyclic, those of a trait are traits or `Object`, and only
traits are implemented. -/
def Valid (t : Table) : Op → Prop
  | .classNew | .traitNew => True
  | .setSuper c d => c < t.size ∧ d < t.size ∧ ¬ Above t.super d c ∧
      (t.isTrait c → t.isTrait d ∨ d = 0)
  | .implement c u => c < t.size ∧ t.isTrait u

def exec (t : Table) : Op → Table
  | .classNew => classNew t
  | .traitNew => traitNew t
  | .setSuper c d => classSetSuper t c d
  | .implement c u => classImplementTrait t c u

inductive Reachable : Table → Prop where
  | start : Reachable start
  | step {t : Table} {op : Op} : Reachable t → Valid t op → Reachable (exec t op)

variable {t : Table} {a b c d u : Nat}

lemma Reachable.inv (h : Reachable t) : Inv t := by
  induction h with
  | start => exact inv_start
  | @step t op _ hvalid ih =>
    cases op with
    | classNew => exact ih.classNew
    | traitNew => exact ih.traitNew
    | setSuper c d => exact (ih.classSetSuper_spec hvalid.1 hvalid.2.1 hvalid.2.2.1 hvalid.2.2.2).1
    | implement c u => exact ih.classImplementTrait hvalid.1 hvalid.2

/-! ### The order of classes and traits -/

lemma Shape.subclass_trait (h : Shape t) (hc : c < t.size) (hct : t.isTrait c = false)
    (hdt : t.isTrait d) :
    classIsSubclass t (.cls c) (.cls d) ↔
      ∃ a, Above t.super c a ∧ (t.get a).has (t.ti d) := by
  have hne : c ≠ d := by
    rintro rfl
    rw [hct] at hdt
    cases hdt
  unfold classIsSubclass
  rw [if_neg (by simp [hne])]
  simp only [hct, hdt, Bool.not_false, Bool.and_self, if_true]
  exact h.implements_iff hc _

lemma Shape.subclass_super (h : Shape t) (hc : c < t.size)
    (hcd : t.isTrait c ∨ t.isTrait d = false) :
    classIsSubclass t (.cls c) (.cls d) ↔ Above t.super c d := by
  by_cases hne : c = d
  · subst hne
    unfold classIsSubclass
    rw [if_pos (.inl rfl)]
    exact ⟨fun _ => .refl c, fun _ => rfl⟩
  · unfold classIsSubclass
    rw [if_neg (by simp [hne])]
    have hwalk : (!t.isTrait c && t.isTrait d) = false := by
      rcases hcd with hcd | hcd <;> rw [hcd] <;> simp
    simp only [hwalk]
    rw [if_neg Bool.false_ne_true, walk_iff (h.enough hc) (h.ends c hc) h.super_object]
    constructor
    · rintro ⟨a, ha, had⟩
      exact ha.trans (.step (beq_iff_eq.mp had) (.refl d))
    intro hup
    clear hwalk hcd hc
    induction hup with
    | refl => exact absurd rfl hne
    | @step c e d hce hup ih =>
      by_cases hed : e = d
      · subst hed
        exact ⟨c, .refl c, beq_iff_eq.mpr hce⟩
      · obtain ⟨a, ha, had⟩ := ih hed
        exact ⟨a, .step hce ha, had⟩

lemma Shape.above_trait (h : Shape t) (hc : t.isTrait c) (hup : Above t.super c a) :
    t.isTrait a ∨ a = 0 := by
  induction hup with
  | refl => exact .inl hc
  | @step c e a hce hup ih =>
    rcases h.trait_super c e hc hce with he | rfl
    · exact ih he
    · exact .inr (hup.eq_of_parent_none h.super_object)

lemma Inv.has_of_above (h : Inv t) (hb : t.isTrait b) (hup : Above t.super b d)
    (hd : t.isTrait d) (hhas : (t.get a).has (t.ti b)) :
    (t.get a).has (t.ti d) := by
  induction hup with
  | refl => exact hhas
  | @step b e d hbe hup ih =>
    have he : t.isTrait e := by
      rcases h.trait_super b e hb hbe with he | rfl
      · exact he
      · rwa [hup.eq_of_parent_none h.super_object] at hd
    exact ih he hd (h.closed a b e hb hbe he hhas)

/-- Every trait that `Object` implements is a super-trait of every trait. -/
def ObjectFits (t : Table) : Prop :=
  ∀ x u, t.isTrait x → t.isTrait u → (t.get 0).has (t.ti u) →
    Above t.super x u

lemma Inv.subclass_trans (h : Inv t) (hobj : ObjectFits t) {x y z : Nat} (hx : x < t.size)
    (hy : y < t.size) (hxy : classIsSubclass t (.cls x) (.cls y))
    (hyz : classIsSubclass t (.cls y) (.cls z)) :
    classIsSubclass t (.cls x) (.cls z) := by
  cases hzt : t.isTrait z with
  | false =>
    rw [h.subclass_super hy (.inr hzt)] at hyz
    rw [h.subclass_super hx (.inr hzt)]
    cases hyt : t.isTrait y with
    | false =>
      rw [h.subclass_super hx (.inr hyt)] at hxy
      exact hxy.trans hyz
    | true =>
      -- above a trait, only `Object` is no trait
      obtain rfl : z = 0 := by
        rcases h.above_trait hyt hyz with hz | hz
        · rw [hzt] at hz
          cases hz
        · exact hz
      exact h.ends x hx
  | true =>
    cases hyt : t.isTrait y with
    | false =>
      rw [h.subclass_trait hy hyt hzt] at hyz
      rw [h.subclass_super hx (.inr hyt)] at hxy
      obtain ⟨a, hya, hhas⟩ := hyz
      cases hxt : t.isTrait x with
      | false =>
        rw [h.subclass_trait hx hxt hzt]
        exact ⟨a, hxy.trans hya, hhas⟩
      | true =>
        obtain rfl : y = 0 := by
          rcases h.above_trait hxt hxy with hy | hy
          · rw [hyt] at hy
            cases hy
          · exact hy
        rw [hya.eq_of_parent_none h.super_object] at hhas
        rw [h.subclass_super hx (.inl hxt)]
        exact hobj x z hxt hzt hhas
    | true =>
      rw [h.subclass_super hy (.inl hyt)] at hyz
      cases hxt : t.isTrait x with
      | false =>
        rw [h.subclass_trait hx hxt hyt] at hxy
        rw [h.subclass_trait hx hxt hzt]
        obtain ⟨a, hxa, hhas⟩ := hxy
        exact ⟨a, hxa, h.has_of_above hyt hyz hzt hhas⟩
      | true =>
        rw [h.subclass_super hx (.inl hxt)] at hxy ⊢
        exact hxy.trans hyz

lemma Inv.objectFits_of_trans (h : Inv t)
    (htrans : ∀ x y z, x < t.size → y < t.size → z < t.size →
      classIsSubclass t (.cls x) (.cls y) → classIsSubclass t (.cls y) (.cls z) →
      classIsSubclass t (.cls x) (.cls z)) : ObjectFits t := by
  intro x u hx hu hhas
  have hx0 : classIsSubclass t (.cls x) (.cls 0) :=
    (h.subclass_super (isTrait_lt hx) (.inl hx)).mpr (h.ends x (isTrait_lt hx))
  have h0u : classIsSubclass t (.cls 0) (.cls u) :=
    (h.subclass_trait h.size_pos h.isTrait_object hu).mpr ⟨0, .refl 0, hhas⟩
  exact (h.subclass_super (isTrait_lt hx) (.inl hx)).mp
    (htrans x 0 u (isTrait_lt hx) h.size_pos (isTrait_lt hu) hx0 h0u)

/-! ### All ids -/

def Table.Known (t : Table) : Id → Prop
  | .cls c => c < t.size
  | _ => True

lemma subclass_refl (t : Table) (x : Id) : classIsSubclass t x x := by
  unfold classIsSubclass
  rw [if_pos (.inl rfl)]

lemma subclass_top (t : Table) (x : Id) : classIsSubclass t x .top := by
  unfold classIsSubclass
  rw [if_pos (.inr (.inl rfl))]

lemma bottom_subclass (t : Table) (x : Id) : classIsSubclass t .bottom x := by
  unfold classIsSubclass
  rw [if_pos (.inr (.inr rfl))]

lemma subclass_cases {x y : Id} (h : classIsSubclass t x y) :
    x = y ∨ y = .top ∨ x = .bottom ∨ ∃ c d, x = .cls c ∧ y = .cls d := by
  unfold classIsSubclass at h
  split at h
  · rename_i hends
    rcases hends with hxy | hy | hx
    · exact .inl hxy
    · exact .inr (.inl hy)
    · exact .inr (.inr (.inl hx))
  · split at h
    · exact .inr (.inr (.inr ⟨_, _, rfl, rfl⟩))
    · cases h

lemma Inv.id_trans (h : Inv t) (hobj : ObjectFits t) {x y z : Id} (hx : t.Known x)
    (hy : t.Known y) (hxy : classIsSubclass t x y) (hyz : classIsSubclass t y z) :
    classIsSubclass t x z := by
  rcases subclass_cases hxy with rfl | rfl | rfl | ⟨c, d, rfl, rfl⟩
  · exact hyz
  · rcases subclass_cases hyz with rfl | rfl | htop | ⟨_, _, htop, -⟩
    · exact hxy
    · exact hxy
    · cases htop
    · cases htop
  · exact bottom_subclass t z
  · rcases subclass_cases hyz with rfl | rfl | hbot | ⟨_, e, hd, rfl⟩
    · exact hxy
    · exact subclass_top t _
    · cases hbot
    · exact h.subclass_trans hobj hx hy hxy hyz

/-- In every table that can be built, subclassing is a preorder exactly if the traits that
`Object` implements are above every trait. A super-trait reaches every class that
implements the trait, except through a super class that is the trait itself. -/
theorem class_is_subclass_preorder_iff (h : Reachable t) :
    (((∀ x, t.Known x → classIsSubclass t x x) ∧
      ∀ x y z, t.Known x → t.Known y → t.Known z → classIsSubclass t x y →
        classIsSubclass t y z → classIsSubclass t x z) ↔ ObjectFits t) ∧
    ∀ b d, Valid t (.setSuper b d) → t.isTrait b → t.isTrait d →
      ∀ k, k < t.size → t.isTrait k = false → ¬ Above t.super k b →
        classIsSubclass t (.cls k) (.cls b) →
        classIsSubclass (classSetSuper t b d) (.cls k) (.cls d) := by
  have hinv := h.inv
  refine ⟨⟨?_, ?_⟩, ?_⟩
  · rintro ⟨-, htrans⟩
    exact hinv.objectFits_of_trans fun x y z hx hy hz =>
      htrans (.cls x) (.cls y) (.cls z) hx hy hz
  · exact fun hobj => ⟨fun x _ => subclass_refl t x,
      fun x y z hx hy _ hxy hyz => hinv.id_trans hobj hx hy hxy hyz⟩
  · rintro b d ⟨hb, hd, hdb, htr⟩ hbt hdt k hk hkt hkb hsub
    obtain ⟨hinv', hw⟩ := hinv.classSetSuper_spec hb hd hdb htr
    obtain ⟨a, hka, hhas⟩ := (hinv.subclass_trait hk hkt hbt).mp hsub
    have htrait : (classSetSuper t b d).isTrait = t.isTrait :=
      hw.isTrait.trans (isTrait_setSuper hb)
    have hsize : (classSetSuper t b d).size = t.size := hw.size.trans Table.size_modify
    rw [hinv'.subclass_trait (hsize ▸ hk) (htrait ▸ hkt) (htrait ▸ hdt)]
    refine ⟨a, ?_, ?_⟩
    · rw [hw.super]
      exact above_setSuper hb hkb hka
    · apply hinv'.has_of_above (htrait ▸ hbt) _ (htrait ▸ hdt)
      · rw [hw.ti, ti_setSuper hb]
        exact (hw.each a).keeps _ ((has_setSuper hb a _).trans hhas)
      · rw [hw.super]
        exact .step (by rw [super_setSuper hb, if_pos rfl]) (.refl d)

/-- Traits 1 and 3, and a class 2 that implements the first. -/
def twoTraits : Table :=
  exec (exec (exec (exec start .traitNew) .classNew) .traitNew) (.implement 2 1)

lemma reachable_twoTraits : Reachable twoTraits :=
  .step (.step (.step (.step .start trivial) trivial) trivial) ⟨by decide, by decide⟩

theorem class_is_subclass_preorder_twoTraits :
    ObjectFits twoTraits ∧
      classIsSubclass (classSetSuper twoTraits 1 3) (.cls 2) (.cls 3) := by
  have hnot {c d : Nat} (hc : twoTraits.super c = some 0) (hcd : c ≠ d) (hd : d ≠ 0) :
      ¬ Above twoTraits.super c d := by
    intro hup
    rcases hup.cases_of_parent hc with rfl | hup
    · exact hcd rfl
    · exact hd (hup.eq_of_parent_none rfl)
  have hmain := class_is_subclass_preorder_iff reachable_twoTraits
  have hobject : ObjectFits twoTraits := by
    intro x u _ _ hhas
    cases hhas
  refine ⟨hobject, ?_⟩
  exact hmain.2 1 3 ⟨by decide, by decide, hnot rfl (by decide) (by decide), fun _ => .inl rfl⟩
    rfl rfl 2 (by decide) rfl (hnot rfl (by decide) (by decide)) (by decide)

/-- With a trait that `Object` implements, the other traits are below `Object` and `Object`
is below that trait, but they are not. -/
theorem class_is_subclass_not_transitive :
    ∃ t, Reachable t ∧ classIsSubclass t (.cls 1) (.cls 0) ∧
      classIsSubclass t (.cls 0) (.cls 2) ∧ classIsSubclass t (.cls 1) (.cls 2) = false :=
  ⟨exec (exec (exec start .traitNew) .traitNew) (.implement 0 2),
    .step (.step (.step .start trivial) trivial) ⟨by decide, by decide⟩,
    by decide, by decide, by decide⟩

end TyLang.Classes

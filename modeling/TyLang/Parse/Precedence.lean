import TyLang.Parse.Operators

/-!
What `parse_expr` makes of a line of identifiers and binary operators. The loop and the recursion
are correct for any strengths of the operators that `get_infix_prec` and the functions for the
operators read in the same way, so it remains to compare what the directives declare with what
is stored of it.
-/
namespace TyLang.Parse
open List CInt Precedence

section Lines

def Op.tokens : Op → List Token
  | .builtin o => [.op o]
  | .isIn => [.kwIn]
  | .notIn => [.kwNot, .kwIn]
  | .user name => [.userOp name]

def laterTokens : List (Op × String) → List Token
  | [] => []
  | (op, x) :: later => op.tokens ++ .identifier x :: laterTokens later

lemma laterTokens_append (later later' : List (Op × String)) :
    laterTokens (later ++ later') = laterTokens later ++ laterTokens later' := by
  induction later with
  | nil => rfl
  | cons p later ih => rw [cons_append, laterTokens, ih, laterTokens, append_assoc]; rfl

lemma beforeBracket_tokens (op : Op) (x : String) (ts : List Token) :
    beforeBracket (op.tokens ++ .identifier x :: ts) = false := by
  cases op <;> rfl

/-- The parser takes the strengths of the operators to be these. -/
structure Reads (s : State) (S : Strength Op) : Prop where
  one_le : ∀ op, 1 ≤ S.prec op
  prec : ∀ op ts, getInfixPrec s (op.tokens ++ ts) = S.prec op
  infixParser : ∀ op x ts, infixParser s (op.tokens ++ .identifier x :: ts) =
    .ok (op, S.power op, .identifier x :: ts)

lemma Reads.power_nonneg {s : State} {S : Strength Op} (h : Reads s S) (op : Op) :
    0 ≤ S.power op := by
  have := h.one_le op
  unfold Strength.power
  split <;> omega

end Lines

section Loop

variable {S : Strength Op} {s : State} {tail : List Token} {later : List (Op × String)} {x : String}

variable (S) in
/-- All operators of the expression are applied before the next one. -/
def AppliedBefore (e : Expr) (later : List (Op × String)) : Prop :=
  ∀ p ∈ e.later, ∀ q ∈ later.head?, S.Before p.1 q.1

variable (S) in
/-- What the loop makes of an expression and the operators after it. -/
structure Extends (prec : Int) (e t : Expr) (later rest : List (Op × String)) : Prop where
  first : t.first = e.first
  taken : ∃ taken, later = taken ++ rest ∧ t.later = e.later ++ taken ∧
    ∀ p ∈ taken, prec < S.prec p.1
  grouped : t.Grouped S.Before
  next : AppliedBefore S t rest
  stops : ∀ q ∈ rest.head?, S.prec q.1 ≤ prec
  nesting : e.nesting ≤ t.nesting

lemma Extends.stop {prec : Int} {e : Expr}
    (he : e.Grouped S.Before) (hnext : AppliedBefore S e later)
    (hstop : ∀ q ∈ later.head?, S.prec q.1 ≤ prec) : Extends S prec e e later later :=
  ⟨rfl, ⟨[], rfl, (append_nil _).symm, nofun⟩, he, hnext, hstop, .refl⟩

/-- With a right operand that is parsed with the power of the operator, the loop is where it was
before. -/
lemma Extends.node {op : Op} {e r : Expr} {later rest : List (Op × String)}
    (hr : Extends S (S.power op) (.leaf x) r later rest) (he : e.Grouped S.Before)
    (hnext : AppliedBefore S e ((op, x) :: later)) :
    Tree.Grouped S.Before (.node op e r) ∧ AppliedBefore S (.node op e r) rest := by
  obtain ⟨taken, rfl, hlater, htaken⟩ := hr.taken
  have hbefore : ∀ p ∈ e.later, S.Before p.1 op := fun p hp => hnext p hp (op, x) rfl
  constructor
  · refine ⟨hbefore, fun p hp => ?_, he, hr.grouped⟩
    rw [hlater] at hp
    have hlt := htaken p hp
    rw [Strength.before_iff]
    omega
  · intro p hp q hq
    have hop : S.Before op q.1 := Strength.before_iff.mpr (hr.stops q hq)
    rcases mem_append.mp hp with hp | hp
    · exact (hbefore p hp).trans hop
    · rcases mem_cons.mp hp with rfl | hp
      · exact hop
      · exact hr.next p hp q hq

lemma Extends.trans {prec : Int} {op : Op} {e r t : Expr}
    {later rest rest' : List (Op × String)} (hop : prec < S.prec op)
    (hr : Extends S (S.power op) (.leaf x) r later rest)
    (ht : Extends S prec (.node op e r) t rest rest') :
    Extends S prec e t ((op, x) :: later) rest' := by
  obtain ⟨taken, rfl, hrlater, htaken⟩ := hr.taken
  obtain ⟨taken', rfl, htlater, htaken'⟩ := ht.taken
  refine ⟨ht.first, ⟨(op, x) :: (taken ++ taken'), ?_, ?_, ?_⟩, ht.grouped, ht.next, ht.stops, ?_⟩
  · rw [cons_append, append_assoc]
  · rw [htlater, Tree.later, hrlater, hr.first, append_assoc]
    rfl
  · have hpower : prec ≤ S.power op := by
      unfold Strength.power
      split <;> omega
    intro p hp
    rcases mem_cons.mp hp with rfl | hp
    · exact hop
    · rcases mem_append.mp hp with hp | hp
      · exact Int.lt_of_le_of_lt hpower (htaken p hp)
      · exact htaken' p hp
  · exact Nat.le_trans (Nat.le_max_left _ _) ht.nesting

/-- `parse_expr` and its loop, by induction on the fuel for both at once. -/
lemma parse_extends (h : Reads s S) (htail : getInfixPrec s tail ≤ 0) (fuel : Nat) :
    (∀ depth prec x later, 0 ≤ prec → (laterTokens later ++ tail).length + 1 < fuel →
      ∃ t rest, Extends S prec (.leaf x) t later rest ∧
        (depth + 1 + t.nesting ≤ 256 →
          parseExpr s fuel depth prec (.identifier x :: laterTokens later ++ tail) =
            .ok (t, laterTokens rest ++ tail))) ∧
    (∀ depth prec e later, 0 ≤ prec → e.Grouped S.Before → AppliedBefore S e later →
      (laterTokens later ++ tail).length < fuel →
      ∃ t rest, Extends S prec e t later rest ∧
        (depth + t.nesting ≤ 256 → parseInfix s fuel depth prec e (laterTokens later ++ tail) =
            .ok (t, laterTokens rest ++ tail))) := by
  induction fuel with
  | zero => exact ⟨fun _ _ _ _ _ hfuel => absurd hfuel (Nat.not_lt_zero _),
      fun _ _ _ _ _ _ _ hfuel => nomatch hfuel⟩
  | succ fuel ih =>
    obtain ⟨ihExpr, ihInfix⟩ := ih
    constructor
    · intro depth prec x later hprec hfuel
      obtain ⟨t, rest, ht, hrun⟩ := ihInfix (depth + 1) prec (.leaf x) later hprec trivial nofun
        (by omega)
      refine ⟨t, rest, ht, fun hdepth => ?_⟩
      rw [cons_append, parseExpr, if_neg (by omega)]
      exact hrun hdepth
    · intro depth prec e later hprec he hnext hfuel
      cases later with
      | nil =>
        refine ⟨e, [], .stop he hnext nofun, fun _ => ?_⟩
        rw [parseInfix, if_pos (by rw [laterTokens, nil_append]; omega)]
      | cons p later =>
        obtain ⟨op, x⟩ := p
        have hhead : getInfixPrec s (laterTokens ((op, x) :: later) ++ tail) = S.prec op := by
          rw [laterTokens, append_assoc]
          exact h.prec op _
        by_cases hop : prec < S.prec op
        · have hlength : (laterTokens later ++ tail).length + 1 < fuel := by
            have hpos : 1 ≤ op.tokens.length := by cases op <;> simp [Op.tokens]
            simp only [laterTokens, length_append, length_cons] at hfuel ⊢
            omega
          obtain ⟨r, rest, hr, hrunExpr⟩ := ihExpr depth (S.power op) x later (h.power_nonneg op)
            hlength
          obtain ⟨hgrouped, hnext'⟩ := hr.node he hnext
          have hrest : (laterTokens rest ++ tail).length < fuel := by
            obtain ⟨taken, rfl, -⟩ := hr.taken
            simp only [laterTokens_append, length_append] at hlength ⊢
            omega
          obtain ⟨t, rest', ht, hrunInfix⟩ := ihInfix depth prec (.node op e r) rest hprec
            hgrouped hnext' hrest
          refine ⟨t, rest', hr.trans hop ht, fun hdepth => ?_⟩
          have hnesting : r.nesting + 1 ≤ t.nesting :=
            Nat.le_trans (Nat.le_max_right _ _) ht.nesting
          rw [parseInfix, hhead, if_neg (not_not.mpr hop)]
          rw [laterTokens, append_assoc, cons_append, beforeBracket_tokens,
            if_neg Bool.false_ne_true, h.infixParser]
          dsimp only
          rw [← cons_append, hrunExpr (by omega)]
          exact hrunInfix hdepth
        · refine ⟨e, _, .stop he hnext fun q hq => ?_, fun _ => ?_⟩
          · cases hq
            exact Int.not_lt.mp hop
          · rw [parseInfix, hhead, if_pos hop]

/-- The expression is the tree of the line, and no other one is. -/
def IsTreeOf (S : Strength Op) (x : String) (later : List (Op × String)) (t : Expr) : Prop :=
  t.first = x ∧ t.later = later ∧ t.Grouped S.Before

/-- Every line of identifiers and operators, up to a token that no expression goes on with, has one
tree, and it is what the parser returns, unless it is nested too deep. -/
def ParsesBy (s : State) (S : Strength Op) : Prop :=
  ∀ x later tail depth, getInfixPrec s tail ≤ 0 →
    ∃ t, IsTreeOf S x later t ∧ (∀ t', IsTreeOf S x later t' → t' = t) ∧
      (depth + 1 + t.nesting ≤ 256 →
        parse s depth 0 (.identifier x :: laterTokens later ++ tail) = .ok (t, tail))

lemma IsTreeOf.unique {t t' : Expr}
    (h : IsTreeOf S x later t) (h' : IsTreeOf S x later t') : t' = t :=
  h'.2.2.unique h.2.2 (h'.1.trans h.1.symm) (h'.2.1.trans h.2.1.symm)

lemma Reads.parsesBy (h : Reads s S) : ParsesBy s S := by
  intro x later tail depth htail
  obtain ⟨t, rest, ht, hrun⟩ := (parse_extends h htail _).1 depth 0 x later (Int.le_refl 0)
    (Nat.lt_succ_self _)
  obtain ⟨taken, rfl, hlater, -⟩ := ht.taken
  -- every operator is strong enough for the outermost call
  obtain rfl : rest = [] := by
    cases rest with
    | nil => rfl
    | cons q rest =>
      have hstop := ht.stops q rfl
      have hone := h.one_le q.1
      omega
  have htree : IsTreeOf S x (taken ++ []) t := by
    rw [append_nil]
    exact ⟨ht.first, hlater, ht.grouped⟩
  exact ⟨t, htree, fun t' ht' => htree.unique ht', hrun⟩

end Loop

section Declarations

structure Directive where
  uop : String
  integer : Nat
  right : Bool
  one_le : 1 ≤ integer

namespace Directive

def assoc (d : Directive) : String := if d.right then "right" else "left"

def stored (d : Directive) : Int :=
  if d.right then toInt (-toInt d.integer) else toInt d.integer

lemma parse_eq (s : State) (d : Directive) :
    parseOperatorDirective s d.uop d.integer d.assoc = .ok (s.putUop d.uop d.stored) := by
  unfold parseOperatorDirective assoc stored
  cases d.right <;> simp

end Directive

def parseOperatorDirectives : State → List Directive → Except ParseError State
  | s, [] => .ok s
  | s, d :: ds =>
    match parseOperatorDirective s d.uop d.integer d.assoc with
    | .error err => .error err
    | .ok s => parseOperatorDirectives s ds

def newer (name : String) (found : Option Directive) (d : Directive) : Option Directive :=
  if name = d.uop then some d else found

def directiveOf (ds : List Directive) (name : String) : Option Directive :=
  ds.foldl (newer name) none

/-- The strengths that the program declares. An operator without a directive is as strong as
addition. -/
def declared (ds : List Directive) : Strength Op where
  prec
    | .builtin o => tokenPrec {} o
    | .isIn | .notIn => 6
    | .user name =>
      match directiveOf ds name with
      | some d => d.integer
      | none => 8
  right
    | .user name =>
      match directiveOf ds name with
      | some d => d.right
      | none => false
    | _ => false

def kept (ds : List Directive) : Strength Op where
  prec
    | .user name =>
      match directiveOf ds name with
      | some d => toInt d.stored.natAbs
      | none => 8
    | op => (declared ds).prec op
  right
    | .user name =>
      match directiveOf ds name with
      | some d => decide (d.stored ≤ 0)
      | none => false
    | _ => false

/-- What is left of the declared precedences in an `int` decides between any two operators as they
do. -/
structure DirectivesKept (ds : List Directive) : Prop where
  one_le : ∀ op, 1 ≤ (kept ds).prec op
  before : ∀ a b, (declared ds).Before a b ↔ (kept ds).Before a b

lemma parseOperatorDirectives_ok (s : State) (ds : List Directive)
    (found : String → Option Directive)
    (hs : ∀ name, s.uops name = (found name).map Directive.stored) :
    ∃ s', parseOperatorDirectives s ds = .ok s' ∧ s'.noPipe = s.noPipe ∧ s'.noIn = s.noIn ∧
      ∀ name, s'.uops name = (ds.foldl (newer name) (found name)).map Directive.stored := by
  induction ds generalizing s found with
  | nil => exact ⟨s, rfl, rfl, rfl, hs⟩
  | cons d ds ih =>
    rw [parseOperatorDirectives, d.parse_eq]
    refine ih (s.putUop d.uop d.stored) (fun name => newer name (found name) d) fun name => ?_
    dsimp only [State.putUop, newer]
    split
    · rfl
    · exact hs name

variable {s : State} {ds : List Directive} {d : Directive}

variable (s ds) in
structure Declares : Prop where
  noPipe : s.noPipe = false
  noIn : s.noIn = false
  uops : ∀ name, s.uops name = (directiveOf ds name).map Directive.stored

lemma exists_declares (ds : List Directive) :
    ∃ s, parseOperatorDirectives {} ds = .ok s ∧ Declares s ds := by
  obtain ⟨s, hs, hpipe, hin, huops⟩ := parseOperatorDirectives_ok {} ds (fun _ => none) fun _ => rfl
  exact ⟨s, hs, hpipe, hin, huops⟩

lemma Declares.prec (h : Declares s ds) (op : Op) (ts : List Token) :
    getInfixPrec s (op.tokens ++ ts) = (kept ds).prec op := by
  cases op with
  | builtin o => cases o <;> simp [Op.tokens, getInfixPrec, tokenPrec, kept, declared, h.noPipe]
  | isIn | notIn => simp [Op.tokens, getInfixPrec, kept, declared, h.noIn]
  | user name =>
    simp only [Op.tokens, cons_append, getInfixPrec, h.uops, kept]
    cases directiveOf ds name <;> rfl

lemma Directive.isInt_stored (d : Directive) : IsInt d.stored := by
  unfold Directive.stored
  split <;> exact isInt_toInt _

/-- `infix_user_op` takes one off for a right-associative operator. -/
lemma userPower_stored {z : Int} (hz : IsInt z) (hone : 1 ≤ toInt z.natAbs) :
    (if z > 0 then z else toInt (z.natAbs - 1)) =
      if decide (z ≤ 0) then toInt z.natAbs - 1 else toInt z.natAbs := by
  obtain ⟨hlow, hhigh⟩ := hz
  have hne : z ≠ -2 ^ 31 := by
    rintro rfl
    exact absurd hone (by decide)
  have habs : toInt z.natAbs = z.natAbs := toInt_of_isInt ⟨by omega, by omega⟩
  have habs' : toInt (z.natAbs - 1) = z.natAbs - 1 := toInt_of_isInt ⟨by omega, by omega⟩
  simp only [habs, habs', decide_eq_true_eq]
  split <;> split <;> omega

lemma kept_power {name : String} (hd : directiveOf ds name = some d)
    (hone : 1 ≤ (kept ds).prec (.user name)) :
    (kept ds).power (.user name) =
      if d.stored > 0 then d.stored else toInt (d.stored.natAbs - 1) := by
  simp only [kept, hd] at hone
  rw [userPower_stored d.isInt_stored hone]
  simp only [Strength.power, kept, hd]

lemma Declares.reads (h : Declares s ds) (hone : ∀ op, 1 ≤ (kept ds).prec op) :
    Reads s (kept ds) := by
  refine ⟨hone, h.prec, fun op x ts => ?_⟩
  cases op with
  | builtin o => cases o <;> rfl
  | isIn | notIn => rfl
  | user name =>
    have hpower : userPower s name = (kept ds).power (.user name) := by
      unfold userPower
      cases hd : directiveOf ds name with
      | none => simp [h.uops, hd, Strength.power, kept]
      | some d =>
        rw [kept_power hd (hone (.user name)), h.uops, hd]
        rfl
    simp only [Op.tokens, cons_append, nil_append, infixParser, hpower]

lemma getInfixPrec_nil_le : getInfixPrec s [] ≤ 0 := Int.neg_ofNat_le_ofNat 3 0

lemma Declares.one_le (h : Declares s ds) (hparses : ParsesBy s (declared ds)) (op : Op) :
    1 ≤ (kept ds).prec op := by
  obtain ⟨t, ⟨-, hlater, -⟩, -, hrun⟩ := hparses "x" [(op, "y")] [] 0 getInfixPrec_nil_le
  by_contra hlt
  have hstop : ¬ 0 < getInfixPrec s (laterTokens [(op, "y")] ++ []) := by
    rw [laterTokens, append_assoc, h.prec]
    omega
  have hnesting := t.nesting_le_length
  rw [hlater, length_singleton] at hnesting
  have hparse := hrun (by omega)
  rw [parse, cons_append, length_cons, parseExpr, if_neg (by decide)] at hparse
  rw [parseInfix, if_pos hstop] at hparse
  obtain rfl : .leaf "x" = t := (Prod.mk.inj (Except.ok.inj hparse)).1
  cases hlater

lemma later_two {t : Expr} {p q : Op × String} (h : t.later = [p, q]) :
    (∃ l r, t = .node q.1 l r ∧ l.later = [p]) ∨ ∃ l r, t = .node p.1 l r ∧ r.later = [q] := by
  cases t with
  | leaf x => cases h
  | node op l r =>
    rcases append_eq_cons_iff.mp h with ⟨-, hr⟩ | ⟨ps, hl, hr⟩
    · obtain ⟨rfl, hlater⟩ := cons.inj hr
      exact .inr ⟨l, r, rfl, hlater⟩
    · cases ps with
      | nil =>
        obtain ⟨rfl, -⟩ := cons.inj hr
        exact .inl ⟨l, r, rfl, hl⟩
      | cons p' ps => simp at hr

/-- A tree of two operators that both strengths group says how both decide. -/
lemma before_iff_of_later {S S' : Strength Op} {t : Expr} {a b : Op} {y z : String}
    (hlater : t.later = [(a, y), (b, z)]) (h : t.Grouped S.Before) (h' : t.Grouped S'.Before) :
    S.Before a b ↔ S'.Before a b := by
  rcases later_two hlater with ⟨l, r, rfl, hl⟩ | ⟨l, r, rfl, hr⟩
  · have hmem : (a, y) ∈ l.later := by rw [hl]; exact mem_singleton_self _
    exact iff_of_true (h.1 _ hmem) (h'.1 _ hmem)
  · have hmem : (b, z) ∈ r.later := by rw [hr]; exact mem_singleton_self _
    exact iff_of_false (h.2.1 _ hmem) (h'.2.1 _ hmem)

lemma ParsesBy.congr {S S' : Strength Op} (hbefore : ∀ a b, S.Before a b ↔ S'.Before a b)
    (h : ParsesBy s S) : ParsesBy s S' := by
  intro x later tail depth htail
  obtain ⟨t, ⟨hfirst, hlater, hgrouped⟩, -, hrun⟩ := h x later tail depth htail
  have htree : IsTreeOf S' x later t := ⟨hfirst, hlater, hgrouped.congr hbefore⟩
  exact ⟨t, htree, fun t' ht' => htree.unique ht', hrun⟩

lemma mem_of_directiveOf {name : String} (h : directiveOf ds name = some d) : d ∈ ds := by
  have hfold : ∀ found, ds.foldl (newer name) found = some d → d ∈ ds ∨ found = some d := by
    clear h
    induction ds with
    | nil => exact fun found h => .inr h
    | cons e ds ih =>
      intro found h
      rcases ih _ h with hmem | hfound
      · exact .inl (mem_cons_of_mem e hmem)
      · unfold newer at hfound
        split at hfound
        · cases hfound
          exact .inl (.head _)
        · exact .inr hfound
  exact (hfold none h).resolve_right nofun

lemma Directive.stored_eq (h : d.integer < 2 ^ 31) :
    toInt d.stored.natAbs = d.integer ∧ decide (d.stored ≤ 0) = d.right := by
  have hone := d.one_le
  have hint : toInt d.integer = d.integer := toInt_of_isInt ⟨by omega, by omega⟩
  have hneg : toInt (-d.integer) = -d.integer := toInt_of_isInt ⟨by omega, by omega⟩
  unfold stored
  rw [hint, hneg]
  cases d.right with
  | false => exact ⟨hint, decide_eq_false (by simp only [Bool.false_eq_true, if_false]; omega)⟩
  | true =>
    simp only [if_true, Int.natAbs_neg, Int.natAbs_natCast]
    exact ⟨hint, decide_eq_true (by omega)⟩

lemma one_le_declared (ds : List Directive) (op : Op) : 1 ≤ (declared ds).prec op := by
  cases op with
  | builtin o => cases o <;> simp [declared, tokenPrec]
  | isIn | notIn => simp [declared]
  | user name =>
    simp only [declared]
    split
    · next d hd =>
        have := d.one_le
        omega
    · decide

/-- Directives whose precedences are an `int` are kept. -/
lemma directivesKept_of_lt (h : ∀ d ∈ ds, d.integer < 2 ^ 31) : DirectivesKept ds := by
  have hprec : ∀ op, (kept ds).prec op = (declared ds).prec op := by
    intro op
    cases op with
    | user name =>
      simp only [kept, declared]
      split
      · next d hd => exact (d.stored_eq (h d (mem_of_directiveOf hd))).1
      · rfl
    | _ => rfl
  have hright : ∀ op, (kept ds).right op = (declared ds).right op := by
    intro op
    cases op with
    | user name =>
      simp only [kept, declared]
      split
      · next d hd => exact (d.stored_eq (h d (mem_of_directiveOf hd))).2
      · rfl
    | _ => rfl
  refine ⟨fun op => ?_, fun a b => ?_⟩
  · rw [hprec]
    exact one_le_declared ds op
  · rw [Strength.Before, Strength.Before, hprec, hprec, hright]

/-- After the directives every line is parsed by the declared precedences, just if those that are
kept of them decide alike. -/
theorem parse_declared_iff (ds : List Directive) :
    (∃ s, parseOperatorDirectives {} ds = .ok s ∧ ParsesBy s (declared ds)) ↔
    DirectivesKept ds := by
  obtain ⟨s, hs, hdeclares⟩ := exists_declares ds
  constructor
  · rintro ⟨s', hs', hparses⟩
    obtain rfl : s = s' := Except.ok.inj (hs.symm.trans hs')
    have hone := hdeclares.one_le hparses
    refine ⟨hone, fun a b => ?_⟩
    obtain ⟨t, htree, -, hrun⟩ := hparses "x" [(a, "y"), (b, "z")] [] 0 getInfixPrec_nil_le
    obtain ⟨t', htree', -, hrun'⟩ :=
      (hdeclares.reads hone).parsesBy "x" [(a, "y"), (b, "z")] [] 0 getInfixPrec_nil_le
    have hnesting := t.nesting_le_length
    have hnesting' := t'.nesting_le_length
    rw [htree.2.1] at hnesting
    rw [htree'.2.1] at hnesting'
    simp only [length_cons, length_nil] at hnesting hnesting'
    have hparse := (hrun (by omega)).symm.trans (hrun' (by omega))
    obtain rfl : t = t' := (Prod.mk.inj (Except.ok.inj hparse)).1
    exact before_iff_of_later htree.2.1 htree.2.2 htree'.2.2
  · intro hkept
    exact ⟨s, hs, (hdeclares.reads hkept.one_le).parsesBy.congr fun a b => (hkept.before a b).symm⟩

/-- The directive `operator +++ 4294967297 left` declares an operator that binds tighter than
`*`. -/
def bigDirective : Directive := ⟨"+++", 4294967297, false, by decide⟩

theorem parse_bigDirective :
    ∃ s t, parseOperatorDirectives {} [bigDirective] = .ok s ∧
      parse s 0 0 [.identifier "a", .userOp "+++", .identifier "b", .op .star, .identifier "c",
        .newline] = .ok (t, [.newline]) ∧
      t = .node (.user "+++") (.leaf "a") (.node (.builtin .star) (.leaf "b") (.leaf "c")) ∧
      ¬ t.Grouped (declared [bigDirective]).Before := by
  refine ⟨_, _, rfl, by rfl, rfl, fun hgrouped => ?_⟩
  exact hgrouped.2.1 (.builtin .star, "c") (.head _) (.inl (by decide))

/-- Directives whose precedences are an `int` always decide how a line is parsed. -/
theorem parse_declared_of_int (ds : List Directive) (hint : ∀ d ∈ ds, d.integer < 2 ^ 31) :
    ∃ s, parseOperatorDirectives {} ds = .ok s ∧ ParsesBy s (declared ds) := by
  have hkept := directivesKept_of_lt hint
  obtain ⟨s, hs, hdeclares⟩ := exists_declares ds
  exact ⟨s, hs, (hdeclares.reads hkept.one_le).parsesBy.congr fun a b => (hkept.before a b).symm⟩

theorem parse_declared_of_int_nine :
    ∃ s, parseOperatorDirectives {} [⟨"+++", 9, true, by decide⟩] = .ok s ∧
      ParsesBy s (declared [⟨"+++", 9, true, by decide⟩]) :=
  parse_declared_of_int _ (by simp)

end Declarations

end TyLang.Parse

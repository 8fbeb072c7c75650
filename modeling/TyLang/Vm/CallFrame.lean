import TyLang.Vm.Call

/-!
Which value each slot of a new frame holds, and when that is the value the call
has for it. Every slot is either one that `xcall` writes on its own, or holds an
argument, or is one of the at most 512 slots copied from `NILS`; a slot that is
none of these holds what was there before, or what lies behind `NILS`.
-/
namespace TyLang.Vm
open Dict Block OrderedMap Option

variable {V : Type} [Inhabited V] {i : Nat}

/-- The keyword arguments of a call as a map: those of a dict without a default
function, or none at all. -/
def KwargsHold : Option (Dict String V) → List (String × V) → Prop
  | none, m => m = []
  | some d, m => Refines d m ∧ d.dflt = none

structure Stack.Holds (st : Stack V) (args : List V) : Prop where
  le : args.length ≤ st.count
  arg : ∀ i v, args[i]? = some v → st.cells (st.count - args.length + i) = v

/-- The first slots of the frame at `fp` are bound as the call says. -/
structure Binds (w : Values V) (f : Fun V) (recv : V) (args : List V)
    (kwargs : Option (Dict String V)) (m : List (String × V)) (fp : Nat) (st : Stack V) : Prop where
  frame : st.frames.head? = some fp
  count : st.count = fp + f.bound
  ordinary : ∀ i name, f.paramNames[i]? = some name → f.restIdx ≠ some i → f.kwargsIdx ≠ some i →
    st.cells (fp + i) = (lookup m name).getD
      (if ∀ r, f.restIdx = some r → i < r then args.getD i default else default)
  rest : ∀ i, f.restIdx = some i → st.cells (fp + i) = w.ARRAY (args.drop i)
  kwargs : ∀ i, f.kwargsIdx = some i → st.cells (fp + i) = w.DICT (kwargs.getD dictNew)
  receiver : f.cls ≠ none → st.cells (fp + f.paramCount) = recv
  locals : ∀ i, f.paramCount ≤ i → i < f.bound → (f.cls ≠ none → i ≠ f.paramCount) →
    (f.restIdx = none → args.length ≤ i) → st.cells (fp + i) = default

/-- The number of slots that still hold an argument after the surplus ones have
been moved into the array. -/
def usedArgs (f : Fun V) (argc : Nat) : Nat :=
  match f.restIdx with
  | none => argc
  | some irest => min argc (irest + 1)

/-- How many slots `xcall` can set to nil. -/
def nilsCopied (f : Fun V) : Nat :=
  if f.restIdx = none ∧ f.kwargsIdx ≠ none then 0 else NILS_SIZE

/-- The slots that `xcall` writes one by one. -/
def Written (f : Fun V) (m : List (String × V)) (i : Nat) : Prop :=
  f.restIdx = some i ∨ f.kwargsIdx = some i ∨ (f.cls ≠ none ∧ i = f.paramCount) ∨
    ∃ name, f.paramNames[i]? = some name ∧ Has m name

/-- No slot above the arguments depends on what was in memory before the call. -/
def Covered (f : Fun V) (argc : Nat) (m : List (String × V)) : Prop :=
  ∀ i, usedArgs f argc + nilsCopied f ≤ i → i < f.bound → Written f m i

section Kwargs
variable {w : Values V} {items : List (List (String × V))} {named : List (String × V)}

variable {m : List (String × V)}

lemma putAll_refines {d : Dict String V} (hd : Refines d m)
    (hdflt : d.dflt = none) (items : List (String × V)) :
    ∃ d', putAll d items = some d' ∧ d'.dflt = none ∧
      Refines d' (items.foldl (fun m e => OrderedMap.put m e.1 e.2) m) := by
  induction items generalizing d m with
  | nil => exact ⟨d, rfl, hdflt, hd⟩
  | cons e items ih =>
    obtain ⟨order, hinv, rfl⟩ := hd
    obtain ⟨d', hput, hstored, hdflt'⟩ := hinv.dictPutValue_spec e.1 e.2
    obtain ⟨d'', hrun, hresult⟩ := ih (hstored.refines hinv) (hdflt'.trans hdflt)
    exact ⟨d'', by rwa [putAll, hput], hresult⟩

lemma buildKwargsLoop_holds {top : V} {d : Dict String V}
    (hd : Refines d m) (hdflt : d.dflt = none)
    (hitems : named.mapM (fun e => kwargItems w top e.1 e.2) = .ok items) :
    ∃ kwargs, buildKwargsLoop w top named d = .ok kwargs ∧
      KwargsHold (some kwargs) (items.flatten.foldl (fun m e => OrderedMap.put m e.1 e.2) m) := by
  induction named generalizing d m items with
  | nil =>
    cases hitems
    exact ⟨d, rfl, hd, hdflt⟩
  | cons e named ih =>
    rw [List.mapM_cons] at hitems
    rcases hown : kwargItems w top e.1 e.2 with _ | own <;> rw [hown] at hitems
    · cases hitems
    rcases hothers : named.mapM (fun e => kwargItems w top e.1 e.2) with _ | others <;>
      rw [hothers] at hitems <;> cases hitems
    obtain ⟨d', hput, hdflt', hd'⟩ := putAll_refines hd hdflt own
    obtain ⟨kwargs, hrun, hhold⟩ := ih hd' hdflt' hothers
    refine ⟨kwargs, ?_, ?_⟩
    · simp only [buildKwargsLoop, hown, hput, hrun]
    · rwa [List.flatten_cons, List.foldl_append]

/-- The dict that `BuildKwargsDict` makes holds the named values, a later one in
place of an earlier one of the same name, and has no default function. -/
lemma buildKwargsDict_holds
    (hitems : named.mapM (fun e => kwargItems w (named.getLast?.elim default Prod.snd) e.1 e.2) =
      .ok items) :
    ∃ kwargs, buildKwargsDict w named = .ok kwargs ∧
      KwargsHold kwargs (items.flatten.foldl (fun m e => OrderedMap.put m e.1 e.2) []) := by
  unfold buildKwargsDict
  cases hlast : named.getLast? with
  | none =>
    cases List.getLast?_eq_none_iff.mp hlast
    cases hitems
    exact ⟨none, rfl, rfl⟩
  | some e =>
    rw [hlast] at hitems
    obtain ⟨kwargs, hrun, hhold⟩ := buildKwargsLoop_holds ⟨[], inv_dictNew, rfl⟩ rfl hitems
    exact ⟨some kwargs, congrArg (Except.map some) hrun, hhold⟩

end Kwargs

section Positional
variable {w : Values V} {behind cells : Nat → V} {f : Fun V} {fp argc : Nat}
  {kwargs : Option (Dict String V)}

lemma fillNils_slot {a fz : Nat} (h : fp + i < fz) :
    fillNils behind cells (fp + a) fz (fp + i) =
      if i < a then cells (fp + i) else if i < a + NILS_SIZE then default else behind (i - a) := by
  have hsub : fp + i - (fp + a) = i - a := by omega
  simp only [fillNils, ite_apply, blit, NILS, hsub]
  split_ifs <;> first | omega | rfl

/-- What a slot holds that neither an argument nor a nil was written to. -/
def leftover (behind cells : Nat → V) (f : Fun V) (fp argc i : Nat) : V :=
  if nilsCopied f = 0 then cells (fp + i) else behind (i - usedArgs f argc)

omit [Inhabited V] in
lemma Fun.rest_ne (f : Fun V) (hi : f.restIdx = some i) : f.restIdx ≠ f.kwargsIdx := by
  exact fun h => nomatch (f.rest_ne_kwargs h).symm.trans hi

omit [Inhabited V] in
lemma Fun.kwargs_ne (f : Fun V) (hi : f.kwargsIdx = some i) : f.restIdx ≠ f.kwargsIdx := by
  exact fun h => nomatch (f.rest_ne_kwargs h).symm.trans (h.trans hi)

lemma bindPositional_rest (hi : f.restIdx = some i) :
    bindPositional w behind f fp argc kwargs cells (fp + i) =
      w.ARRAY ((List.range (argc - i)).map fun j => cells (fp + i + j)) := by
  have hne := f.rest_ne hi
  have hgather : gatherRest w behind f fp argc i cells (fp + i) =
      w.ARRAY ((List.range (argc - i)).map fun j => cells (fp + i + j)) := store_self ..
  unfold bindPositional putKwargs
  rw [if_pos hne, hi]
  cases hj : f.kwargsIdx with
  | none => exact hgather
  | some j =>
    have hij : fp + i ≠ fp + j := fun h => hne (by rw [hi, hj, Nat.add_left_cancel h])
    exact (store_of_ne hij).trans hgather

lemma bindPositional_kwargs (hi : f.kwargsIdx = some i) :
    bindPositional w behind f fp argc kwargs cells (fp + i) =
      w.DICT (kwargs.getD dictNew) := by
  unfold bindPositional putKwargs
  rw [if_pos (f.kwargs_ne hi), hi]
  exact store_self ..

lemma gatherRest_slot {irest i : Nat} (hi : i < f.bound) (hne : i ≠ irest) :
    gatherRest w behind f fp argc irest cells (fp + i) =
      if i < min argc (irest + 1) then cells (fp + i)
      else if i < min argc (irest + 1) + NILS_SIZE then default
      else behind (i - min argc (irest + 1)) := by
  unfold gatherRest
  rw [store_of_ne (by omega), fillNils_slot (by omega)]
  split
  · exact blit_of_lt (by omega)
  · rfl

lemma bindPositional_slot (hi : i < f.bound) (hrest : f.restIdx ≠ some i)
    (hkwargs : f.kwargsIdx ≠ some i) :
    bindPositional w behind f fp argc kwargs cells (fp + i) =
      if i < usedArgs f argc then cells (fp + i)
      else if i < usedArgs f argc + nilsCopied f then default
      else leftover behind cells f fp argc i := by
  have hput : ∀ c, putKwargs w f fp kwargs c (fp + i) = c (fp + i) := by
    intro c
    unfold putKwargs
    cases hj : f.kwargsIdx with
    | none => rfl
    | some j => exact store_of_ne fun h => hkwargs (by rw [hj, Nat.add_left_cancel h])
  unfold bindPositional leftover
  by_cases hne : f.restIdx ≠ f.kwargsIdx
  · rw [if_pos hne, hput]
    cases hr : f.restIdx with
    | none =>
      have hzero : nilsCopied f = 0 := by
        rw [hr] at hne
        simp [nilsCopied, hr, hne.symm]
      rw [hzero, Nat.add_zero, if_pos rfl]
      split
      · rfl
      · rfl
    | some r =>
      have hmany : nilsCopied f = NILS_SIZE := by simp [nilsCopied, hr]
      have hused : usedArgs f argc = min argc (r + 1) := by simp [usedArgs, hr]
      have hir : i ≠ r := fun h => hrest (by rw [hr, h])
      simp only [hmany, hused]
      rw [gatherRest_slot hi hir, if_neg (show ¬ NILS_SIZE = 0 by decide)]
  · rw [if_neg hne]
    rw [not_not] at hne
    have hnone := f.rest_ne_kwargs hne
    have hmany : nilsCopied f = NILS_SIZE := by simp [nilsCopied, hnone, ← hne]
    have hused : usedArgs f argc = argc := by simp [usedArgs, hnone]
    rw [hmany, hused, if_neg (show ¬ NILS_SIZE = 0 by decide), fillNils_slot (by omega)]

end Positional

section Overlay
variable {kwargs : Dict String V} {m : List (String × V)}

def overlaid (f : Fun V) (m : List (String × V)) (i : Nat) (v : V) : V :=
  if f.restIdx = some i ∨ f.kwargsIdx = some i then v
  else ((f.paramNames[i]?).bind (lookup m)).getD v

lemma overlay_spec (f : Fun V) (fp : Nat) (hkw : Refines kwargs m) (hdflt : kwargs.dflt = none)
    {names : List String} (hnames : names = f.paramNames.drop i) (cells : Nat → V) :
    ∃ cells', overlay f fp names i kwargs cells = some cells' ∧
      ∀ j, cells' (fp + j) = if j < i then cells (fp + j) else overlaid f m j (cells (fp + j)) := by
  induction names generalizing i cells with
  | nil =>
    refine ⟨cells, rfl, fun j => ?_⟩
    split
    next => rfl
    next hj =>
      have hlen : f.paramNames.length ≤ i := List.drop_eq_nil_iff.mp hnames.symm
      have hnone : f.paramNames[j]? = none := List.getElem?_eq_none (by omega)
      simp [overlaid, hnone]
  | cons name names ih =>
    have hname : f.paramNames[i]? = some name := by
      rw [← List.head?_drop, ← hnames, List.head?_cons]
    have htail : names = f.paramNames.drop (i + 1) := by
      rw [← List.tail_drop, ← hnames, List.tail_cons]
    obtain ⟨order, hinv, rfl⟩ := hkw
    -- the slot `i` is settled by this round and by no later one
    obtain ⟨c, hround, hother, hself⟩ : ∃ c, overlay f fp (name :: names) i kwargs cells =
        overlay f fp names (i + 1) kwargs c ∧ (∀ j, j ≠ i → c (fp + j) = cells (fp + j)) ∧
        c (fp + i) = overlaid f (entries kwargs order) i (cells (fp + i)) := by
      rw [overlay, overlaid]
      by_cases hskip : f.restIdx = some i ∨ f.kwargsIdx = some i
      · exact ⟨cells, if_pos hskip, fun _ _ => rfl, (if_pos hskip).symm⟩
      rw [if_neg hskip, if_neg hskip, hinv.get_eq_lookup hdflt name, hname, bind_some]
      cases lookup (entries kwargs order) name with
      | none => exact ⟨cells, rfl, fun _ _ => rfl, rfl⟩
      | some arg => exact ⟨_, rfl, fun j hj => store_of_ne (by omega), store_self ..⟩
    obtain ⟨cells', hrun, hcells⟩ := ih htail c
    refine ⟨cells', hround.trans hrun, fun j => ?_⟩
    rw [hcells]
    rcases Nat.lt_trichotomy j i with hlt | rfl | hgt
    · rw [if_pos (by omega), if_pos hlt, hother j (by omega)]
    · rw [if_pos (by omega), if_neg (by omega), hself]
    · rw [if_neg (by omega), if_neg (by omega), hother j (by omega)]

end Overlay

section Frame
variable {w : Values V} {behind : Nat → V} {f : Fun V} {pSelf : Option V} {args : List V}
  {kwargs : Option (Dict String V)} {m : List (String × V)} {st : Stack V}

/-- The frame that `xcall` builds, slot by slot. -/
lemma xcall_eq (w : Values V) (behind : Nat → V) (f : Fun V) (pSelf : Option V)
    (hkw : KwargsHold kwargs m) (hdepth : st.frames.length < TY_MAX_CALL_DEPTH) {fp : Nat}
    (hfp : st.count - args.length = fp) :
    ∃ st', xcall w behind f pSelf args.length kwargs st = .ok st' ∧
      st'.count = fp + f.bound ∧ st'.frames = fp :: st.frames ∧
      ∀ i, st'.cells (fp + i) =
        overlaid f m i (if f.cls ≠ none ∧ i = f.paramCount then selfFor w f pSelf
          else bindPositional w behind f fp args.length kwargs st.cells (fp + i)) := by
  have hself : ∀ (c : Nat → V) i, putSelf w f fp pSelf c (fp + i) =
      if f.cls ≠ none ∧ i = f.paramCount then selfFor w f pSelf else c (fp + i) := by
    intro c i
    by_cases hcls : f.cls = none <;> simp [putSelf, store, hcls]
  simp only [xcall, hfp]
  rw [if_neg (by omega)]
  cases kwargs with
  | none =>
    refine ⟨_, rfl, rfl, rfl, fun i => ?_⟩
    rw [show m = [] from hkw, overlaid]
    simp only [hself]
    cases f.paramNames[i]? <;> simp [lookup]
  | some kw =>
    obtain ⟨hrefines, hdflt⟩ : Refines kw m ∧ kw.dflt = none := hkw
    obtain ⟨cells', hrun, hcells⟩ := overlay_spec f fp hrefines hdflt
      (show f.paramNames = f.paramNames.drop 0 from rfl)
      (putSelf w f fp pSelf (bindPositional w behind f fp args.length (some kw) st.cells))
    simp only [hrun]
    refine ⟨_, rfl, rfl, rfl, fun i => ?_⟩
    simp only [hcells, hself, Nat.not_lt_zero, if_false]

lemma Stack.Holds.cell (hst : st.Holds args) (hi : i < args.length) :
    st.cells (st.count - args.length + i) = args.getD i default := by
  rw [List.getD_eq_getElem?_getD, List.getElem?_eq_getElem hi]
  exact hst.arg i _ (List.getElem?_eq_getElem hi)

omit [Inhabited V] in
lemma Stack.Holds.drop (hst : st.Holds args) (i : Nat) :
    ((List.range (args.length - i)).map fun j => st.cells (st.count - args.length + i + j)) =
      args.drop i := by
  apply List.ext_getElem
  · simp
  · intro j h₁ h₂
    simp only [List.length_map, List.length_range] at h₁
    rw [List.getElem_map, List.getElem_range, List.getElem_drop, Nat.add_assoc]
    exact hst.arg (i + j) _ (List.getElem?_eq_getElem (by omega))

lemma getD_of_usedArgs_le (args : List V) (h : usedArgs f args.length ≤ i) :
    (if ∀ r, f.restIdx = some r → i < r then args.getD i default else default) = (default : V) := by
  refine (if_ctx_congr .rfl (fun hbefore => ?_) fun _ => rfl).trans (ite_self _)
  have hlen : args.length ≤ i := by
    cases hr : f.restIdx with
    | none => simpa [usedArgs, hr] using h
    | some r =>
      have := hbefore r hr
      simp only [usedArgs, hr] at h
      omega
  rw [List.getD_eq_getElem?_getD, List.getElem?_eq_none hlen]
  rfl

/-- What the call has for a slot that no keyword argument is given for. -/
lemma slot_eq (hst : st.Holds args) (hi : i < f.bound) (hrest : f.restIdx ≠ some i)
    (hkwargs : f.kwargsIdx ≠ some i)
    (hleft : usedArgs f args.length + nilsCopied f ≤ i →
      leftover behind st.cells f (st.count - args.length) args.length i = default) :
    bindPositional w behind f (st.count - args.length) args.length kwargs st.cells
        (st.count - args.length + i) =
      if ∀ r, f.restIdx = some r → i < r then args.getD i default else default := by
  rw [bindPositional_slot hi hrest hkwargs]
  by_cases hused : i < usedArgs f args.length
  · rw [if_pos hused]
    have hboth : i < args.length ∧ ∀ r, f.restIdx = some r → i < r := by
      cases hr : f.restIdx with
      | none => simpa [usedArgs, hr] using hused
      | some r =>
        simp only [usedArgs, hr] at hused
        have hne : i ≠ r := fun h => hrest (by rw [hr, h])
        refine ⟨by omega, ?_⟩
        rintro _ ⟨⟩
        omega
    rw [if_pos hboth.2, hst.cell hboth.1]
  · rw [if_neg hused, getD_of_usedArgs_le args (by omega)]
    split
    next => rfl
    next h => exact hleft (by omega)

omit [Inhabited V] in
lemma Fun.name_none (f : Fun V) (hi : f.paramCount ≤ i) : f.paramNames[i]? = none :=
  List.getElem?_eq_none (by rwa [f.names_length])

omit [Inhabited V] in
lemma Fun.not_idx (f : Fun V) (hi : f.paramCount ≤ i) :
    f.restIdx ≠ some i ∧ f.kwargsIdx ≠ some i :=
  ⟨fun h => absurd (f.rest_lt i h) (by omega), fun h => absurd (f.kwargs_lt i h) (by omega)⟩

omit [Inhabited V] in
lemma Fun.lt_of_name (f : Fun V) {name : String} (h : f.paramNames[i]? = some name) :
    i < f.paramCount := by
  rw [← f.names_length]
  exact (List.getElem?_eq_some_iff.mp h).1

lemma xcall_binds (hkw : KwargsHold kwargs m) (hdepth : st.frames.length < TY_MAX_CALL_DEPTH)
    (hst : st.Holds args) (hcov : Covered f args.length m) :
    ∃ st', xcall w behind f pSelf args.length kwargs st = .ok st' ∧
      Binds w f (selfFor w f pSelf) args kwargs m (st.count - args.length) st' := by
  obtain ⟨st', hrun, hcount, hframes, hcells⟩ := xcall_eq w behind f pSelf hkw hdepth rfl
  have hparam : ∀ i, i < f.paramCount → ¬ (f.cls ≠ none ∧ i = f.paramCount) := by
    intro i hi h
    omega
  have hle := f.param_le
  refine ⟨st', hrun, by rw [hframes]; rfl, hcount, ?_, ?_, ?_, ?_, ?_⟩
  · intro i name hname hrest hkwargs
    have hi := f.lt_of_name hname
    rw [hcells, if_neg (hparam i hi), overlaid, if_neg (by simp [hrest, hkwargs]), hname]
    simp only [bind_some]
    cases hl : lookup m name with
    | some v => rfl
    | none =>
      refine slot_eq hst (by omega) hrest hkwargs fun hge => ?_
      rcases hcov i hge (by omega) with h | h | ⟨-, h⟩ | ⟨name', hname', hhas⟩
      · exact absurd h hrest
      · exact absurd h hkwargs
      · omega
      · cases hname.symm.trans hname'
        exact absurd hl (lookup_ne_none hhas)
  · intro i hi
    rw [hcells, if_neg (hparam i (f.rest_lt i hi)), overlaid, if_pos (.inl hi),
      bindPositional_rest hi, hst.drop]
  · intro i hi
    rw [hcells, if_neg (hparam i (f.kwargs_lt i hi)), overlaid, if_pos (.inr hi),
      bindPositional_kwargs hi]
  · intro hcls
    rw [hcells, if_pos ⟨hcls, rfl⟩, overlaid, if_neg (not_or.mpr (f.not_idx .refl)),
      f.name_none .refl]
    rfl
  · intro i hi hbound hself hsurplus
    obtain ⟨hrest, hkwargs⟩ := f.not_idx hi
    rw [hcells, if_neg (fun h => hself h.1 h.2), overlaid, if_neg (by simp [hrest, hkwargs]),
      f.name_none hi, bind_none, getD_none, slot_eq hst hbound hrest hkwargs]
    · refine getD_of_usedArgs_le args ?_
      cases hr : f.restIdx with
      | none => simpa [usedArgs, hr] using hsurplus hr
      | some r =>
        have hlt := f.rest_lt r hr
        simp only [usedArgs, hr]
        omega
    · intro hge
      rcases hcov i hge hbound with h | h | ⟨h, h'⟩ | ⟨name', hname', -⟩
      · exact absurd h hrest
      · exact absurd h hkwargs
      · exact absurd h' (hself h)
      · rw [f.name_none hi] at hname'
        cases hname'

/-- A slot that is not covered shows what was in memory before the call. -/
lemma not_binds_of_stale (hkw : KwargsHold kwargs m) {x : V} (hx : x ≠ default)
    (hdepth : st.frames.length < TY_MAX_CALL_DEPTH)
    (hge : usedArgs f args.length + nilsCopied f ≤ i) (hi : i < f.bound) (hun : ¬ Written f m i)
    (hleft : leftover behind st.cells f (st.count - args.length) args.length i = x) {st' : Stack V}
    (hrun : xcall w behind f pSelf args.length kwargs st = .ok st') :
    ¬ Binds w f (selfFor w f pSelf) args kwargs m (st.count - args.length) st' := by
  intro hbinds
  obtain ⟨st'', hrun', -, -, hcells⟩ := xcall_eq w behind f pSelf hkw hdepth rfl
  cases hrun'.symm.trans hrun
  simp only [Written, not_or, not_and, not_exists] at hun
  obtain ⟨hrest, hkwargs, hself, hname⟩ := hun
  have hcell : st'.cells (st.count - args.length + i) = x := by
    rw [hcells, if_neg (fun h => hself h.1 h.2), overlaid, if_neg (by simp [hrest, hkwargs]),
      bindPositional_slot hi hrest hkwargs, if_neg (by omega), if_neg (by omega), hleft]
    cases hn : f.paramNames[i]? with
    | none => rfl
    | some name => rw [bind_some, lookup_eq_none (hname name hn)]; rfl
  have hafter : f.restIdx = none → args.length ≤ i := fun hr => by
    simp only [usedArgs, hr] at hge
    omega
  refine hx (hcell.symm.trans ?_)
  by_cases hlt : i < f.paramCount
  · obtain ⟨name, hn⟩ : ∃ name, f.paramNames[i]? = some name :=
      ⟨_, List.getElem?_eq_getElem (by rwa [f.names_length])⟩
    rw [hbinds.ordinary i name hn hrest hkwargs, lookup_eq_none (hname name hn), getD_none,
      getD_of_usedArgs_le args (by omega)]
  · exact hbinds.locals i (by omega) hi (fun h => hself h) hafter

end Frame

/-- The frame of a call is bound as the call says, on whichever stack it is. -/
def CallResult.Binds (w : Values V) (f : Fun V) (recv : V) (args : List V)
    (kwargs : Option (Dict String V)) (m : List (String × V)) : CallResult V → Prop
  | .frame st => ∃ fp, Vm.Binds w f recv args kwargs m fp st
  | .generator gen _ => ∃ fp, Vm.Binds w f recv args kwargs m fp gen
  | .notApplicable _ => True

/-- The one case in which `call` builds no frame. -/
def NotApplicable (f : Fun V) (argc : Nat) : Prop :=
  f.starred = false ∧ f.overload ∧ f.paramCount < argc ∧ f.restIdx = none

/-- The stack that the frame is built on: a starred function gets its own. -/
def frameStack (f : Fun V) (argc : Nat) (gen st : Stack V) : Stack V :=
  if f.starred then
    { gen with
      cells := blit gen.cells (fun j => st.cells (st.count - argc + j)) gen.count argc
      count := gen.count + argc }
  else st

lemma call_eq (w : Values V) (behind : Nat → V) (f : Fun V) (pSelf : Option V) (args : List V)
    (kwargs : Option (Dict String V)) (m : List (String × V)) (gen st : Stack V) (v : V)
    (happ : ¬ NotApplicable f args.length) :
    (∃ res, call w behind f pSelf args.length kwargs gen v st = .ok res ∧
        res.Binds w f (selfFor w f pSelf) args kwargs m) ↔
      ∃ st', xcall w behind f pSelf args.length kwargs (frameStack f args.length gen st) = .ok st' ∧
        ∃ fp, Binds w f (selfFor w f pSelf) args kwargs m fp st' := by
  unfold call frameStack
  by_cases hstar : f.starred
  · simp only [hstar, if_true]
    cases xcall w behind f pSelf args.length kwargs _ with
    | error e => simp
    | ok gen' => simp [CallResult.Binds]
  · have happ' : ¬ (f.overload ∧ f.paramCount < args.length ∧ f.restIdx = none) :=
      fun h => happ ⟨by simpa using hstar, h⟩
    simp only [hstar, if_neg happ', Bool.false_eq_true, if_false]
    cases xcall w behind f pSelf args.length kwargs st with
    | error e => simp [Except.map]
    | ok st' => simp [CallResult.Binds, Except.map]

omit [Inhabited V] in
lemma holds_frameStack (f : Fun V) (args : List V) (gen st : Stack V) (hst : st.Holds args) :
    (frameStack f args.length gen st).Holds args := by
  unfold frameStack
  split
  · refine ⟨by simp, fun i v hv => ?_⟩
    have hi := (List.getElem?_eq_some_iff.mp hv).1
    simp only [Nat.add_sub_cancel]
    rw [blit_add hi]
    exact hst.arg i v hv
  · exact hst

omit [Inhabited V] in
lemma frameStack_depth (f : Fun V) (argc : Nat) {gen st : Stack V}
    (hst : st.frames.length < TY_MAX_CALL_DEPTH) (hgen : gen.frames.length < TY_MAX_CALL_DEPTH) :
    (frameStack f argc gen st).frames.length < TY_MAX_CALL_DEPTH := by
  unfold frameStack
  split
  · exact hgen
  · exact hst

/-- For every function, all positional and keyword arguments, and whatever lies
above the stack and behind `NILS`, the frame is bound as the call says if and
only if every slot above the copied nils is one that is written by itself. -/
theorem call_binds_iff (w : Values V) (f : Fun V) (pSelf : Option V) (args : List V)
    (kwargs : Option (Dict String V)) (m : List (String × V)) (v : V)
    (hkw : KwargsHold kwargs m) (hvalue : ∃ x : V, x ≠ default)
    (happ : ¬ NotApplicable f args.length) :
    (∀ behind gen st, st.Holds args → st.frames.length < TY_MAX_CALL_DEPTH →
      gen.frames.length < TY_MAX_CALL_DEPTH →
        ∃ res, call w behind f pSelf args.length kwargs gen v st = .ok res ∧
          res.Binds w f (selfFor w f pSelf) args kwargs m) ↔
      Covered f args.length m := by
  constructor
  · intro hall i hge hi
    by_contra hun
    obtain ⟨x, hx⟩ := hvalue
    -- memory that holds `x` wherever the call has put nothing
    let gen : Stack V := ⟨fun _ => x, 0, []⟩
    let st : Stack V := ⟨fun a => args.getD a x, args.length, []⟩
    have hst : st.Holds args := by
      refine ⟨.refl, fun j y hy => ?_⟩
      simp only [st, Nat.sub_self, Nat.zero_add, List.getD_eq_getElem?_getD, hy, getD_some]
    have hdepth : ([] : List Nat).length < TY_MAX_CALL_DEPTH := by decide
    have hleft : leftover (fun _ => x) (frameStack f args.length gen st).cells f
        ((frameStack f args.length gen st).count - args.length) args.length i = x := by
      unfold leftover
      split
      next hzero =>
        have hlen : args.length ≤ i := by
          cases hr : f.restIdx with
          | none => simpa [usedArgs, hr, hzero] using hge
          | some r => simp [nilsCopied, hr, NILS_SIZE] at hzero
        unfold frameStack
        split
        · simp only [gen, Nat.zero_add, Nat.sub_self]
          exact blit_of_le (by omega)
        · simp only [st, Nat.sub_self, Nat.zero_add, List.getD_eq_getElem?_getD,
            List.getElem?_eq_none hlen, getD_none]
      next => rfl
    obtain ⟨st', hrun, fp, hbinds⟩ := (call_eq w _ f pSelf args kwargs m gen st v happ).mp
      (hall (fun _ => x) gen st hst hdepth hdepth)
    have hframe : (frameStack f args.length gen st).frames.length < TY_MAX_CALL_DEPTH :=
      frameStack_depth f args.length hdepth hdepth
    have hfp : fp = (frameStack f args.length gen st).count - args.length := by
      obtain ⟨st'', hrun', -, hframes, -⟩ := xcall_eq w (fun _ => x) f pSelf hkw hframe rfl
      cases hrun'.symm.trans hrun
      have := hbinds.frame
      rw [hframes] at this
      simpa using this.symm
    subst hfp
    exact not_binds_of_stale hkw hx hframe hge hi hun hleft hrun hbinds
  · intro hcov behind gen st hst hdepth hgen
    obtain ⟨st', hrun, hbinds⟩ := xcall_binds (w := w) hkw
      (frameStack_depth f args.length hdepth hgen) (holds_frameStack f args gen st hst) hcov
    exact (call_eq w behind f pSelf args kwargs m gen st v happ).mpr ⟨st', hrun, _, hbinds⟩

section Concrete

inductive Datum where
  | nil
  | zero
  | none
  | int (n : Int)
  | array (items : List Datum)
  | dict (d : Dict String Datum)

instance : Inhabited Datum := ⟨.nil⟩

def datumValues : Values Datum where
  ZERO := .zero
  NONE := .none
  isNone
    | .none => true
    | _ => false
  ARRAY := .array
  DICT := .dict
  splat _ := .invalid
  shown _ := ""

/-- The head of `fn f(a, *rest, b, %kw)`, with one more local. -/
def gatheringFun : Fun Datum where
  paramCount := 4
  bound := 5
  restIdx := some 1
  kwargsIdx := some 3
  cls := .none
  selfOf := .nil
  paramNames := ["a", "rest", "b", "kw"]
  starred := false
  overload := false
  names_length := rfl
  param_le := by decide
  self_lt h := absurd rfl h
  rest_lt := by rintro _ ⟨⟩; decide
  kwargs_lt := by rintro _ ⟨⟩; decide
  rest_ne_kwargs := by decide

lemma covered_gatheringFun (argc : Nat) (m : List (String × Datum)) :
    Covered gatheringFun argc m := by
  intro i hge hi
  have hbound : i < 5 := hi
  have hcopied : nilsCopied gatheringFun = 512 := rfl
  omega

/-- The call `f(1, 2, 3, b: 7)`. -/
theorem call_gatheringFun_binds :
    ∃ kwargs, buildKwargsDict datumValues [("b", .int 7)] = .ok kwargs ∧
      ∀ behind gen st, st.Holds [.int 1, .int 2, .int 3] →
        st.frames.length < TY_MAX_CALL_DEPTH → gen.frames.length < TY_MAX_CALL_DEPTH →
          ∃ res, call datumValues behind gatheringFun none 3 kwargs gen .nil st = .ok res ∧
            res.Binds datumValues gatheringFun .nil [.int 1, .int 2, .int 3] kwargs
              [("b", .int 7)] := by
  have hitems : [("b", Datum.int 7)].mapM
      (fun e => kwargItems datumValues (.int 7) e.1 e.2) = .ok [[("b", .int 7)]] := rfl
  obtain ⟨kwargs, hkwargs, hhold⟩ := buildKwargsDict_holds hitems
  refine ⟨kwargs, hkwargs, ?_⟩
  exact (call_binds_iff datumValues gatheringFun none [.int 1, .int 2, .int 3] kwargs _ .nil hhold
    ⟨.zero, nofun⟩ (fun h => nomatch h.2.1)).mpr (covered_gatheringFun 3 _)

/-- The head of `fn f(a, %kw)`. -/
def keywordFun : Fun Datum where
  paramCount := 2
  bound := 2
  restIdx := .none
  kwargsIdx := some 1
  cls := .none
  selfOf := .nil
  paramNames := ["a", "kw"]
  starred := false
  overload := false
  names_length := rfl
  param_le := by decide
  self_lt h := absurd rfl h
  rest_lt := by rintro _ ⟨⟩
  kwargs_lt := by rintro _ ⟨⟩; decide
  rest_ne_kwargs := by decide

/-- The call `f()`, above a value that an earlier call has left. -/
theorem call_keywordFun_stale :
    ∃ st, call datumValues (fun _ => .nil) keywordFun none 0 none ⟨fun _ => .nil, 0, []⟩ .nil
        ⟨fun _ => .int 42, 3, []⟩ = .ok (.frame st) ∧
      st.frames = [3] ∧ st.cells 3 = .int 42 ∧
      ¬ (CallResult.frame st).Binds datumValues keywordFun .nil [] none [] := by
  refine ⟨_, rfl, rfl, rfl, ?_⟩
  rintro ⟨fp, hbinds⟩
  cases hbinds.frame
  cases hbinds.ordinary 0 "a" rfl nofun nofun

end Concrete

end TyLang.Vm

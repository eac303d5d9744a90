import Mathlib.Algebra.Order.BigOperators.Group.List
import StaticResolution.Proofs.Conversion
import StaticResolution.Proofs.Overload.Selection

/-!
Which candidates a call can use, and what they cost. The ordered checks of a binding come down to a
table of the ways in which a parameter takes an argument, and costs are sums without overflow.
-/

namespace StaticResolution

namespace Param

def Accepts (param : Param) (category : ValueCategory) (conversion : Conversion) : Prop :=
  param.passing = .byValue ∨
  (param.passing = .rvalueRef ∧ (category = .xvalue ∨ category = .prvalue)) ∨
  (param.passing = .lvalueRef ∧ category = .lvalue ∧ conversion ≠ .arithmetic) ∨
  (param.passing = .lvalueRef ∧ param.isConst = true)

/-- The ways in which the parameter takes an argument, and the rank of each. -/
inductive Takes (param : Param) (category : ValueCategory) (conversion : Conversion) :
    UInt32 → Prop
  | copy (passing : param.passing = .byValue) : Takes param category conversion 2
  | rvalue (passing : param.passing = .rvalueRef)
      (rvalue : category = .xvalue ∨ category = .prvalue) : Takes param category conversion 0
  | direct (passing : param.passing = .lvalueRef) (lvalue : category = .lvalue)
      (same : conversion ≠ .arithmetic) : Takes param category conversion 0
  | temporary (passing : param.passing = .lvalueRef) (constant : param.isConst = true)
      (made : ¬ (category = .lvalue ∧ conversion ≠ .arithmetic)) :
      Takes param category conversion 1

variable {param : Param} {category : ValueCategory} {conversion : Conversion}

theorem Takes.toNat_le {rank : UInt32} (takes : param.Takes category conversion rank) :
    rank.toNat ≤ 2 := by
  cases takes <;> decide

theorem accepts_iff : param.Accepts category conversion ↔
    ∃ rank, param.Takes category conversion rank := by
  constructor
  · rintro (passing | ⟨passing, rvalue⟩ | ⟨passing, lvalue, same⟩ | ⟨passing, constant⟩)
    · exact ⟨2, .copy passing⟩
    · exact ⟨0, .rvalue passing rvalue⟩
    · exact ⟨0, .direct passing lvalue same⟩
    · by_cases direct : category = .lvalue ∧ conversion ≠ .arithmetic
      · exact ⟨0, .direct passing direct.1 direct.2⟩
      · exact ⟨1, .temporary passing constant direct⟩
  · rintro ⟨rank, takes⟩
    cases takes with
    | copy passing => exact .inl passing
    | rvalue passing rvalue => exact .inr (.inl ⟨passing, rvalue⟩)
    | direct passing lvalue same => exact .inr (.inr (.inl ⟨passing, lvalue, same⟩))
    | temporary passing constant => exact .inr (.inr (.inr ⟨passing, constant⟩))

end Param

theorem ValueCategory.isRvalue_eq_true_iff {category : ValueCategory} :
    category.isRvalue = true ↔ category = .xvalue ∨ category = .prvalue := by
  cases category <;> simp [isRvalue]

theorem Conversion.bindsDirectly_eq_true_iff {conversion : Conversion} :
    conversion.bindsDirectly = true ↔ conversion ≠ .arithmetic := by
  cases conversion <;> simp [bindsDirectly]

namespace Binding

section Rank

variable {param : Param} {category : ValueCategory} {conversion : Conversion} {rank : UInt32}

theorem direct_iff : (!category.isRvalue && conversion.bindsDirectly) = true ↔
    category = .lvalue ∧ conversion ≠ .arithmetic := by
  rw [Bool.and_eq_true, Conversion.bindsDirectly_eq_true_iff]
  cases category <;> simp [ValueCategory.isRvalue]

theorem takes_of_rank? (ranked : rank? param category conversion = some rank) :
    param.Takes category conversion rank := by
  unfold rank? at ranked
  split at ranked
  next passing =>
    cases ranked
    exact .copy passing
  next passing =>
    split at ranked
    next rvalue =>
      cases ranked
      exact .rvalue passing (ValueCategory.isRvalue_eq_true_iff.mp rvalue)
    next => cases ranked
  next passing =>
    split at ranked
    next direct =>
      cases ranked
      exact .direct passing (direct_iff.mp direct).1 (direct_iff.mp direct).2
    next indirect =>
      split at ranked
      next constant =>
        cases ranked
        exact .temporary passing constant (mt direct_iff.mpr indirect)
      next => cases ranked

theorem rank?_of_takes (takes : param.Takes category conversion rank) :
    rank? param category conversion = some rank := by
  unfold rank?
  cases takes with
  | copy passing => rw [passing]
  | rvalue passing rvalue =>
      simp only [passing, ValueCategory.isRvalue_eq_true_iff.mpr rvalue, if_true]
  | direct passing lvalue same =>
      simp only [passing, direct_iff.mpr ⟨lvalue, same⟩, if_true]
  | temporary passing constant made =>
      simp only [passing, if_neg (mt direct_iff.mp made), constant, if_true]

end Rank

/-- The argument converts to the type of the parameter, which takes it with the rank. The cost is
that of both. -/
structure Binds (rules : ConversionRules) (param : Param) (argument : Argument)
    (binding : Binding) : Prop where
  converts : rules argument.typeName param.typeName = some binding.conversion
  takes : param.Takes argument.category binding.conversion binding.rank
  cost : binding.cost = binding.rank + binding.conversion.cost

variable {rules : ConversionRules} {param : Param} {argument : Argument} {binding : Binding}

theorem bind_of?_eq_some_iff :
    (rules argument.typeName param.typeName).bind (of? param argument.category) = some binding ↔
      binding.Binds rules param argument := by
  rw [Option.bind_eq_some_iff]
  constructor
  · rintro ⟨conversion, converts, made⟩
    obtain ⟨rank, ranked, rfl⟩ := Option.map_eq_some_iff.mp made
    exact ⟨converts, takes_of_rank? ranked, rfl⟩
  · rintro ⟨converts, takes, cost⟩
    refine ⟨binding.conversion, converts, ?_⟩
    rw [of?, rank?_of_takes takes, Option.map_some, ofRank, ← cost]

theorem Binds.toNat_cost (binds : binding.Binds rules param argument) :
    binding.cost.toNat =
      binding.rank.toNat + if binding.conversion = .identity then 0 else 3 := by
  obtain ⟨_, takes, cost⟩ := binds
  rw [cost]
  generalize binding.rank = rank at takes
  cases takes <;> cases binding.conversion <;> decide

theorem Binds.toNat_cost_le (binds : binding.Binds rules param argument) :
    binding.cost.toNat ≤ 5 := by
  have low := binds.takes.toNat_le
  rw [binds.toNat_cost]
  split <;> omega

end Binding

/-- The bindings take the arguments in their order, each by the parameter in its place. -/
def BindsAll (rules : ConversionRules) (params : List Param) (args : List Argument)
    (bindings : List Binding) : Prop :=
  List.Forall₂ (fun (pair : Param × Argument) binding => binding.Binds rules pair.1 pair.2)
    (params.zip args) bindings

section Bindings

variable {rules : ConversionRules} {params : List Param} {args : List Argument}
  {bindings : List Binding}

theorem bindAll_ask_cons (param : Param) (argument : Argument) :
    (bindAll rules.ask (param :: params) (argument :: args)).run =
      ((rules argument.typeName param.typeName).bind (Binding.of? param argument.category)).bind
        fun binding => (bindAll rules.ask params args).run.map fun rest => binding :: rest := by
  have asked : rules.ask argument.typeName param.typeName =
    pure (rules argument.typeName param.typeName) := rfl
  rw [bindAll, asked, pure_bind]
  cases (rules argument.typeName param.typeName).bind (Binding.of? param argument.category) <;> rfl

theorem bindAll_ask_eq_some_iff :
    (bindAll rules.ask params args).run = some bindings ↔ BindsAll rules params args bindings := by
  unfold BindsAll
  induction params generalizing args bindings with
  | nil => simp [bindAll, eq_comm]
  | cons param params ih =>
      cases args with
      | nil => simp [bindAll, eq_comm]
      | cons argument args =>
          rw [bindAll_ask_cons, List.zip_cons_cons, List.forall₂_cons_left_iff,
            Option.bind_eq_some_iff]
          constructor
          · rintro ⟨binding, bound, made⟩
            obtain ⟨rest, found, rfl⟩ := Option.map_eq_some_iff.mp made
            exact ⟨binding, rest, Binding.bind_of?_eq_some_iff.mp bound, ih.mp found, rfl⟩
          · rintro ⟨binding, rest, binds, later, rfl⟩
            refine ⟨binding, Binding.bind_of?_eq_some_iff.mpr binds, ?_⟩
            rw [ih.mpr later, Option.map_some]

theorem exists_bindsAll_iff :
    (∃ bindings, BindsAll rules params args bindings) ↔
      ∀ pair ∈ params.zip args, ∃ conversion,
        rules pair.2.typeName pair.1.typeName = some conversion ∧
          pair.1.Accepts pair.2.category conversion := by
  unfold BindsAll
  induction params.zip args with
  | nil => simp
  | cons pair rest ih =>
      simp only [List.forall₂_cons_left_iff, List.forall_mem_cons, ← ih]
      constructor
      · rintro ⟨_, binding, later, binds, all, rfl⟩
        have accepts := Param.accepts_iff.mpr ⟨_, binds.takes⟩
        exact ⟨⟨binding.conversion, binds.converts, accepts⟩, later, all⟩
      · rintro ⟨⟨conversion, converts, accepts⟩, later, all⟩
        obtain ⟨rank, takes⟩ := Param.accepts_iff.mp accepts
        exact ⟨_, .ofRank conversion rank, later, ⟨converts, takes, rfl⟩, all, rfl⟩

theorem BindsAll.exists_binds (binds : BindsAll rules params args bindings) :
    ∀ binding ∈ bindings, ∃ param argument, binding.Binds rules param argument := by
  unfold BindsAll at binds
  generalize params.zip args = pairs at binds
  induction binds with
  | nil => exact fun _ listed => absurd listed List.not_mem_nil
  | cons first _ ih => exact List.forall_mem_cons.mpr ⟨⟨_, _, first⟩, ih⟩

theorem sum_cost_le (cheap : ∀ binding ∈ bindings, binding.cost.toNat ≤ 5) :
    (bindings.map fun binding => binding.cost.toNat).sum ≤ 5 * bindings.length := by
  induction bindings with
  | nil => exact Nat.le_refl _
  | cons binding rest ih =>
      obtain ⟨first, later⟩ := List.forall_mem_cons.mp cheap
      have below := ih later
      simp only [List.map_cons, List.sum_cons, List.length_cons]
      omega

theorem toNat_foldl_cost {start : UInt32}
    (small : start.toNat + (bindings.map fun binding => binding.cost.toNat).sum < 2 ^ 32) :
    (bindings.foldl (fun total binding => total + binding.cost) start).toNat =
      start.toNat + (bindings.map fun binding => binding.cost.toNat).sum := by
  induction bindings generalizing start with
  | nil => rfl
  | cons binding rest ih =>
      simp only [List.map_cons, List.sum_cons] at small ⊢
      have step : (start + binding.cost).toNat = start.toNat + binding.cost.toNat := by
        rw [UInt32.toNat_add]
        omega
      rw [List.foldl_cons, ih (by omega), step]
      omega

/-- So many bindings of a cost of at most five never add up to more than a word holds. -/
theorem toNat_cost_ofBindings (member : Member)
    (cheap : ∀ binding ∈ bindings, binding.cost.toNat ≤ 5)
    (few : bindings.length ≤ 858993459) :
    (Viable.ofBindings member bindings).cost.toNat =
      (bindings.map fun binding => binding.cost.toNat).sum := by
  have bound := sum_cost_le cheap
  have start : (0 : UInt32).toNat = 0 := rfl
  rw [Viable.ofBindings, toNat_foldl_cost (by omega), start, Nat.zero_add]

end Bindings

/-- Whether the call can use the candidate: its form fits, and every parameter takes the argument
in its place. -/
structure Call.Fits (rules : ConversionRules) (call : Call) (member : Member) : Prop where
  callable : member.kind = .function ∨ member.kind = .constructor
  form : member.isExplicit = false ∨ call.direct = true
  arity : member.params.length = call.args.length
  accepts : ∀ pair ∈ member.params.zip call.args, ∃ conversion,
    rules pair.2.typeName pair.1.typeName = some conversion ∧
      pair.1.Accepts pair.2.category conversion

/-- The bindings of a candidate that a call can use, and their costs as sums of numbers. -/
structure Viable.Describes (rules : ConversionRules) (call : Call) (viable : Viable) : Prop where
  fingerprint : viable.fingerprint = viable.member.fingerprint
  binds : BindsAll rules viable.member.params call.args viable.bindings
  arity : viable.bindings.length = call.args.length
  costs : ∀ binding ∈ viable.bindings, binding.cost.toNat =
    binding.rank.toNat + if binding.conversion = .identity then 0 else 3
  total : viable.cost.toNat = (viable.bindings.map fun binding => binding.cost.toNat).sum
  subtotals : ∀ count,
    (Viable.ofBindings viable.member (viable.bindings.take count)).cost.toNat =
      ((viable.bindings.take count).map fun binding => binding.cost.toNat).sum
  bounded : viable.cost.toNat ≤ 5 * call.args.length

section Viability

variable {rules : ConversionRules} {call : Call} {member : Member} {viable : Viable}

theorem Call.admits_iff : call.admits member = true ↔
    (member.kind = .function ∨ member.kind = .constructor) ∧
      (member.isExplicit = false ∨ call.direct = true) ∧
        member.params.length = call.args.length := by
  have callable : member.isCallable = true ↔
      member.kind = .function ∨ member.kind = .constructor := by
    cases kind : member.kind <;> simp [Member.isCallable, kind]
  simp only [Call.admits, Bool.and_eq_true, callable, Bool.or_eq_true, Bool.not_eq_true',
    beq_iff_eq, and_assoc, Member.arity, Call.arity, or_comm]

theorem viable?_ask : (viable? rules.ask call member).run =
    if call.admits member then
      (bindAll rules.ask member.params call.args).run.map (Viable.ofBindings member)
    else none := by
  unfold viable?
  split <;> rfl

theorem viable?_ask_eq_some_iff : (viable? rules.ask call member).run = some viable ↔
    call.admits member = true ∧ ∃ bindings, BindsAll rules member.params call.args bindings ∧
      Viable.ofBindings member bindings = viable := by
  rw [viable?_ask]
  split
  next admitted => simp only [Option.map_eq_some_iff, bindAll_ask_eq_some_iff, admitted, true_and]
  next refused => simp [refused]

theorem Call.fits_iff :
    call.Fits rules member ↔ (viable? rules.ask call member).run.isSome = true := by
  simp only [Option.isSome_iff_exists, viable?_ask_eq_some_iff, Call.admits_iff]
  constructor
  · rintro ⟨callable, form, arity, accepts⟩
    obtain ⟨bindings, binds⟩ := exists_bindsAll_iff.mpr accepts
    exact ⟨_, ⟨callable, form, arity⟩, bindings, binds, rfl⟩
  · rintro ⟨_, ⟨callable, form, arity⟩, bindings, binds, _⟩
    exact ⟨callable, form, arity, exists_bindsAll_iff.mp ⟨bindings, binds⟩⟩

instance (rules : ConversionRules) (call : Call) : DecidablePred (call.Fits rules) :=
  fun _ => decidable_of_iff _ Call.fits_iff.symm

theorem map_member_viableAmong (candidates : List Member) :
    (viableAmong rules.ask call candidates).run.map Viable.member =
      candidates.filter fun member => call.Fits rules member := by
  rw [viableAmong_ask]
  induction candidates with
  | nil => rfl
  | cons member rest ih =>
      cases found : (viable? rules.ask call member).run with
      | none =>
          have refused : ¬ call.Fits rules member := by simp [Call.fits_iff, found]
          rw [List.filter_cons_of_neg (by simpa using refused), ← ih]
          simp only [List.filterMap_cons, found]
      | some viable =>
          have fits : call.Fits rules member := by simp [Call.fits_iff, found]
          obtain ⟨_, _, _, made⟩ := viable?_ask_eq_some_iff.mp found
          have same : viable.member = member := congrArg Viable.member made.symm
          rw [List.filter_cons_of_pos (by simpa using fits), ← ih]
          simp only [List.filterMap_cons, found, List.map_cons, same]

theorem describes_of_viable? (few : call.args.length ≤ 858993459)
    (found : (viable? rules.ask call member).run = some viable) : viable.Describes rules call := by
  obtain ⟨admitted, bindings, binds, rfl⟩ := viable?_ask_eq_some_iff.mp found
  have arity : bindings.length = call.args.length := by
    rw [← binds.length_eq, List.length_zip, (Call.admits_iff.mp admitted).2.2, Nat.min_self]
  have cheap : ∀ binding ∈ bindings, binding.cost.toNat ≤ 5 := by
    intro binding listed
    obtain ⟨_, _, bound⟩ := binds.exists_binds binding listed
    exact bound.toNat_cost_le
  have total := toNat_cost_ofBindings member cheap (arity ▸ few)
  refine ⟨rfl, binds, arity, ?_, total, ?_, ?_⟩
  · intro binding listed
    obtain ⟨_, _, bound⟩ := binds.exists_binds binding listed
    exact bound.toNat_cost
  · intro count
    have shorter := List.length_take_le count bindings
    apply toNat_cost_ofBindings
    · exact fun binding listed => cheap binding (List.mem_of_mem_take listed)
    · change (bindings.take count).length ≤ _
      rw [List.length_take]
      omega
  · rw [total, ← arity]
    exact sum_cost_le cheap

end Viability

section Stateful

variable {rules : ConversionRules} {table : ClassTable}
  {convert : String → String → StateM LayoutMemo (Option Conversion)}
  (answers : ∀ source target, Answers table (convert source target) (rules source target))

include answers

theorem answers_bindAll (params : List Param) (args : List Argument) :
    Answers table (bindAll convert params args) (bindAll rules.ask params args).run := by
  induction params generalizing args with
  | nil =>
      simp only [bindAll]
      exact .pure _
  | cons param params ih =>
      cases args with
      | nil =>
          simp only [bindAll]
          exact .pure _
      | cons argument args =>
          rw [bindAll_ask_cons, bindAll]
          refine (answers _ _).bind ?_
          cases (rules argument.typeName param.typeName).bind
            (Binding.of? param argument.category) with
          | none => exact .pure _
          | some binding => exact (ih args).bind (.pure _)

theorem answers_viable? (call : Call) (member : Member) :
    Answers table (viable? convert call member) (viable? rules.ask call member).run := by
  unfold viable?
  split
  · exact (answers_bindAll answers _ _).bind (.pure _)
  · exact .pure _

theorem answers_viableAmong (call : Call) (candidates : List Member) :
    Answers table (viableAmong convert call candidates)
      (viableAmong rules.ask call candidates).run := by
  induction candidates with
  | nil => exact .pure _
  | cons member rest ih => exact (answers_viable? answers call member).bind (ih.bind (.pure _))

end Stateful

/-- Among the candidates exactly those that fit the call are compared, in their order, by costs that
no addition wraps around. Conversions that read remembered layouts are as good as plain rules. -/
theorem viableAmong_exact (rules : ConversionRules) (candidates : List Member) (call : Call)
    (few : call.args.length ≤ 858993459) :
    let viable := (viableAmong rules.ask call candidates).run
    (resolveAmong rules.ask candidates call).run = selectCheapest viable ∧
      viable.map Viable.member = candidates.filter (fun member => call.Fits rules member) ∧
      (∀ candidate ∈ viable, candidate.Describes rules call) ∧
      ∀ (table : ClassTable) (convert : String → String → StateM LayoutMemo (Option Conversion)),
        (∀ source target, Answers table (convert source target) (rules source target)) →
          Answers table (resolveAmong convert candidates call) (selectCheapest viable) := by
  refine ⟨rfl, map_member_viableAmong candidates, ?_, ?_⟩
  · intro candidate listed
    rw [viableAmong_ask] at listed
    obtain ⟨member, _, found⟩ := List.mem_filterMap.mp listed
    exact describes_of_viable? few found
  · exact fun table convert answers => (answers_viableAmong answers call candidates).map _

def candidateOf (params : List Param) : Member :=
  .function "f" params

def implicitCall : Call :=
  { callee := "f", args := [⟨"D", .lvalue⟩, ⟨"int", .prvalue⟩], direct := false }

def mixedCandidates : List Member :=
  [candidateOf [⟨"E", true, .lvalueRef⟩, ⟨"double", false, .byValue⟩],
    candidateOf [⟨"D", false, .rvalueRef⟩, ⟨"int", false, .byValue⟩],
    candidateOf [⟨"D", false, .byValue⟩, ⟨"int", true, .lvalueRef⟩],
    { candidateOf [⟨"D", false, .lvalueRef⟩, ⟨"int", false, .rvalueRef⟩] with isExplicit := true },
    candidateOf [⟨"A", false, .lvalueRef⟩, ⟨"int", false, .byValue⟩],
    candidateOf [⟨"D", false, .byValue⟩], .data "f"]

theorem viableAmong_exact_mixed :
    implicitCall.args.length ≤ 858993459 ∧ ∃ viable,
      viable = (viableAmong (ConversionRules.ask ClassTable.mixed.conversion?) implicitCall
        mixedCandidates).run ∧
      viable.map Viable.member =
        [candidateOf [⟨"E", true, .lvalueRef⟩, ⟨"double", false, .byValue⟩],
          candidateOf [⟨"D", false, .byValue⟩, ⟨"int", true, .lvalueRef⟩]] ∧
      viable.map Viable.cost = [8, 3] ∧
      (∀ candidate ∈ viable, candidate.Describes ClassTable.mixed.conversion? implicitCall) ∧
      Answers ClassTable.mixed
        (resolveAmong ClassTable.mixed.convert mixedCandidates implicitCall)
        (selectCheapest viable) := by
  have few : implicitCall.args.length ≤ 858993459 := by decide
  have formed : ClassTable.mixed.WellFormed := ClassTable.reachable_mixed.wellFormed
  have copies (target : String) : (ClassTable.mixed.layoutOf "D").count target =
      ["D", "B", "A", "C", "E", "A"].count target := by
    rw [ClassTable.count_layoutOf formed]
    cbv
  have upcast : ClassTable.mixed.conversion? "D" "E" = some .derivedToBase :=
    if_pos (copies "E")
  have doubled : ClassTable.mixed.conversion? "D" "A" = none :=
    if_neg (by rw [copies "A"]; decide)
  have copied : ClassTable.mixed.conversion? "D" "D" = some .identity := by cbv
  have widened : ClassTable.mixed.conversion? "int" "double" = some .arithmetic := by cbv
  have kept : ClassTable.mixed.conversion? "int" "int" = some .identity := by cbv
  have used : (viableAmong (ConversionRules.ask ClassTable.mixed.conversion?) implicitCall
      mixedCandidates).run = [
        Viable.ofBindings (candidateOf [⟨"E", true, .lvalueRef⟩, ⟨"double", false, .byValue⟩])
          [.ofRank .derivedToBase 0, .ofRank .arithmetic 2],
        Viable.ofBindings (candidateOf [⟨"D", false, .byValue⟩, ⟨"int", true, .lvalueRef⟩])
          [.ofRank .identity 2, .ofRank .identity 1]] := by
    simp only [viableAmong_ask, mixedCandidates, List.filterMap_cons, List.filterMap_nil,
      viable?_ask]
    simp [candidateOf, implicitCall, Call.admits, Member.isCallable, Member.function, Member.data,
      Member.arity, Call.arity, bindAll_ask_cons, upcast, copied, doubled, widened, kept]
    rfl
  obtain ⟨_, _, described, stateful⟩ :=
    viableAmong_exact ClassTable.mixed.conversion? mixedCandidates implicitCall few
  refine ⟨few, _, rfl, ?_, ?_, described, stateful _ _ (ClassTable.answers_convert formed)⟩
  · rw [used]
    rfl
  · rw [used]
    rfl

end StaticResolution

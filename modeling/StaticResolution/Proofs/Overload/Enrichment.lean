import StaticResolution.Proofs.Overload.Ranking
import StaticResolution.Proofs.Overload.Viability

/-!
Overload resolution under richer conversion rules. What only they make viable takes a conversion,
so that it never competes with a winner that takes none.
-/

namespace StaticResolution

namespace ConversionRules

/-- The richer rules convert all that the poorer ones do and in the same way, and what they convert
besides is not converted by the identity. -/
structure Enriches (rich poor : ConversionRules) : Prop where
  keeps : ∀ source target conversion,
    poor source target = some conversion → rich source target = some conversion
  adds : ∀ source target, poor source target = none → rich source target ≠ some .identity

theorem Enriches.trans {rich middle poor : ConversionRules} (upper : rich.Enriches middle)
    (lower : middle.Enriches poor) : rich.Enriches poor := by
  constructor
  · intro source target conversion converts
    exact upper.keeps _ _ _ (lower.keeps _ _ _ converts)
  · intro source target missing same
    cases found : middle source target with
    | none => exact upper.adds _ _ found same
    | some conversion =>
        cases (upper.keeps _ _ _ found).symm.trans same
        exact lower.adds _ _ missing found

theorem standard_enriches_exact : standard.Enriches exact := by
  constructor
  · intro source target conversion converts
    by_cases same : source = target
    · simpa [standard, exact, same] using converts
    · simp [exact, same] at converts
  · intro source target missing
    have differ : source ≠ target := by
      rintro rfl
      simp [exact] at missing
    simp only [standard, if_neg differ]
    split <;> simp

end ConversionRules

theorem ClassTable.conversion?_enriches_standard (table : ClassTable) :
    ConversionRules.Enriches table.conversion? ConversionRules.standard := by
  constructor
  · intro source target conversion converts
    rw [conversion?, converts]
  · intro source target missing
    rw [conversion?, missing]
    simp only
    split <;> simp

theorem Viable.Describes.identity_of_cost_lt {rules : ConversionRules} {call : Call}
    {viable : Viable} (describes : viable.Describes rules call) (cheap : viable.cost < 3) :
    ∀ binding ∈ viable.bindings, binding.conversion = .identity := by
  intro binding listed
  have part := List.single_le_sum (fun _ _ => Nat.zero_le _) _
    (List.mem_map_of_mem (f := fun binding : Binding => binding.cost.toNat) listed)
  have total := describes.total
  have cost := describes.costs binding listed
  have low : viable.cost.toNat < 3 := cheap
  by_contra converted
  rw [if_neg converted] at cost
  omega

section Enriched

variable {poor rich : ConversionRules} (enriches : rich.Enriches poor) {call : Call}
  {candidates : List Member}

include enriches

theorem Binding.Binds.enriched {param : Param} {argument : Argument} {binding : Binding}
    (binds : binding.Binds poor param argument) : binding.Binds rich param argument :=
  ⟨enriches.keeps _ _ _ binds.converts, binds.takes, binds.cost⟩

theorem Binding.Binds.impoverished {param : Param} {argument : Argument} {binding : Binding}
    (binds : binding.Binds rich param argument) (same : binding.conversion = .identity) :
    binding.Binds poor param argument := by
  refine ⟨?_, binds.takes, binds.cost⟩
  have converts := binds.converts
  cases found : poor argument.typeName param.typeName with
  | none => exact absurd (same ▸ converts) (enriches.adds _ _ found)
  | some conversion => rw [← enriches.keeps _ _ _ found, converts]

theorem BindsAll.enriched {params : List Param} {args : List Argument} {bindings : List Binding}
    (binds : BindsAll poor params args bindings) : BindsAll rich params args bindings :=
  List.Forall₂.imp (fun _ _ bound => bound.enriched enriches) binds

theorem BindsAll.impoverished {params : List Param} {args : List Argument}
    {bindings : List Binding} (binds : BindsAll rich params args bindings)
    (same : ∀ binding ∈ bindings, binding.conversion = .identity) :
    BindsAll poor params args bindings := by
  unfold BindsAll at *
  generalize params.zip args = pairs at *
  induction binds with
  | nil => exact .nil
  | cons first _ ih =>
      rw [List.forall_mem_cons] at same
      exact .cons (first.impoverished enriches same.1) (ih same.2)

theorem viable?_enriched {member : Member} {viable : Viable}
    (found : (viable? poor.ask call member).run = some viable) :
    (viable? rich.ask call member).run = some viable := by
  rw [viable?_ask_eq_some_iff] at *
  obtain ⟨admitted, bindings, binds, made⟩ := found
  exact ⟨admitted, bindings, binds.enriched enriches, made⟩

theorem viable?_impoverished (few : call.args.length ≤ 858993459) {member : Member}
    {viable : Viable} (found : (viable? rich.ask call member).run = some viable)
    (cheap : viable.cost < 3) : (viable? poor.ask call member).run = some viable := by
  have same := (describes_of_viable? few found).identity_of_cost_lt cheap
  rw [viable?_ask_eq_some_iff] at *
  obtain ⟨admitted, bindings, binds, rfl⟩ := found
  exact ⟨admitted, bindings, binds.impoverished enriches same, rfl⟩

theorem mem_viableAmong_enriched {viable : Viable}
    (listed : viable ∈ (viableAmong poor.ask call candidates).run) :
    viable ∈ (viableAmong rich.ask call candidates).run := by
  simp only [viableAmong_ask, List.mem_filterMap] at *
  obtain ⟨member, inside, found⟩ := listed
  exact ⟨member, inside, viable?_enriched enriches found⟩

theorem filter_viableAmong_enriched (few : call.args.length ≤ 858993459) {bound : UInt32}
    (cheap : bound < 3) :
    ((viableAmong rich.ask call candidates).run.filter fun viable => viable.cost = bound) =
      (viableAmong poor.ask call candidates).run.filter fun viable => viable.cost = bound := by
  rw [viableAmong_ask, viableAmong_ask, List.filter_filterMap, List.filter_filterMap]
  apply List.filterMap_congr
  intro member _
  ext viable
  simp only [Option.filter_eq_some_iff, decide_eq_true_eq]
  constructor
  · rintro ⟨found, rfl⟩
    exact ⟨viable?_impoverished enriches few found cheap, rfl⟩
  · rintro ⟨found, rfl⟩
    exact ⟨viable?_enriched enriches found, rfl⟩

theorem IsLeastCost.enriched (few : call.args.length ≤ 858993459) {least : UInt32}
    (lowest : IsLeastCost (viableAmong poor.ask call candidates).run least) (cheap : least < 3) :
    IsLeastCost (viableAmong rich.ask call candidates).run least := by
  obtain ⟨⟨best, listed, cost⟩, least_le⟩ := lowest
  refine ⟨⟨best, mem_viableAmong_enriched enriches listed, cost⟩, ?_⟩
  intro other otherListed
  by_cases low : other.cost < 3
  · apply least_le
    have kept : other ∈ (viableAmong rich.ask call candidates).run.filter
        fun viable => viable.cost = other.cost := by simpa using otherListed
    rw [filter_viableAmong_enriched enriches few low] at kept
    exact List.mem_of_mem_filter kept
  · exact UInt32.le_trans (UInt32.le_of_lt cheap) (UInt32.not_lt.mp low)

end Enriched

/-- Under richer rules a call that has a match still has one. The verdict stays the same if the
lowest cost is less than that of a conversion, which all that the rules add takes. The rules of a
class table, from whatever layouts are remembered, are richer than the standard ones, and those
than the exact ones. -/
theorem resolveAmong_enriched {poor rich : ConversionRules} (enriches : rich.Enriches poor)
    (candidates : List Member) (call : Call) (few : call.args.length ≤ 858993459) :
    ((resolveAmong poor.ask candidates call).run ≠ .noMatch →
      (resolveAmong rich.ask candidates call).run ≠ .noMatch) ∧
    (∀ least, IsLeastCost (viableAmong poor.ask call candidates).run least → least < 3 →
      (resolveAmong rich.ask candidates call).run =
        (resolveAmong poor.ask candidates call).run) ∧
    ConversionRules.standard.Enriches .exact ∧
    ∀ table : ClassTable, table.Reachable →
      ConversionRules.Enriches table.conversion? .standard ∧
      ∀ memo : LayoutMemo, memo.Coherent table →
        (∀ source target, ((table.convert source target).run memo).run.1 =
          table.conversion? source target) ∧
        ((resolveAmong table.convert candidates call).run memo).run.1 =
          (resolveAmong (ConversionRules.ask table.conversion?) candidates call).run := by
  refine ⟨?_, ?_, ConversionRules.standard_enriches_exact, ?_⟩
  · simp only [resolveAmong_ask, ne_eq, selectCheapest_eq_noMatch_iff]
    intro matched none
    obtain ⟨viable, listed⟩ := List.exists_mem_of_ne_nil _ matched
    have kept := mem_viableAmong_enriched enriches listed
    simp [none] at kept
  · intro least lowest cheap
    rw [resolveAmong_ask, resolveAmong_ask]
    apply selectCheapest_congr
    rw [lowest.cheapest_eq, (lowest.enriched enriches few cheap).cheapest_eq]
    exact filter_viableAmong_enriched enriches few cheap
  · intro table reachable
    have answers := ClassTable.answers_convert reachable.wellFormed
    refine ⟨table.conversion?_enriches_standard, ?_⟩
    intro memo coherent
    refine ⟨fun source target => (answers source target memo coherent).1, ?_⟩
    exact ((answers_viableAmong answers call candidates).map selectCheapest memo coherent).1

def objectCall : Call :=
  { callee := "f", args := [⟨"D", .lvalue⟩] }

def objectCandidates : List Member :=
  [candidateOf [⟨"E", false, .lvalueRef⟩], candidateOf [⟨"D", false, .byValue⟩],
    candidateOf [⟨"D", true, .byValue⟩], candidateOf [⟨"E", false, .byValue⟩]]

theorem resolveAmong_enriched_objects :
    ConversionRules.Enriches ClassTable.mixed.conversion? .exact ∧
    objectCall.args.length ≤ 858993459 ∧
    ((viableAmong (ConversionRules.ask ClassTable.mixed.conversion?) objectCall
      objectCandidates).run.map Viable.cost) = [3, 2, 2, 5] ∧
    ∃ best other, (resolveAmong ConversionRules.exact.ask objectCandidates objectCall).run =
        .ambiguous [best, other] ∧
      ((resolveAmong ClassTable.mixed.convert objectCandidates objectCall).run .empty).run.1 =
        .ambiguous [best, other] := by
  have few : objectCall.args.length ≤ 858993459 := by decide
  have enriches : ConversionRules.Enriches ClassTable.mixed.conversion? .exact :=
    (ClassTable.mixed.conversion?_enriches_standard).trans ConversionRules.standard_enriches_exact
  have formed := ClassTable.reachable_mixed.wellFormed
  have upcast : ClassTable.mixed.conversion? "D" "E" = some .derivedToBase := if_pos (by cbv)
  have copied : ClassTable.mixed.conversion? "D" "D" = some .identity := by cbv
  have costs : (viableAmong (ConversionRules.ask ClassTable.mixed.conversion?) objectCall
      objectCandidates).run.map Viable.cost = [3, 2, 2, 5] := by
    simp only [viableAmong_ask, objectCandidates, List.filterMap_cons, List.filterMap_nil,
      viable?_ask]
    simp [candidateOf, objectCall, Call.admits, Member.isCallable, Member.function,
      Member.arity, Call.arity, bindAll_ask_cons, upcast, copied]
    rfl
  obtain ⟨_, kept, _, tables⟩ := resolveAmong_enriched enriches objectCandidates objectCall few
  obtain ⟨_, remembered⟩ := tables _ ClassTable.reachable_mixed
  obtain ⟨_, same⟩ := remembered _ (LayoutMemo.coherent_empty _)
  have exact : (resolveAmong ConversionRules.exact.ask objectCandidates objectCall).run =
      .ambiguous [Viable.ofBindings (candidateOf [⟨"D", false, .byValue⟩]) [.ofRank .identity 2],
        .ofBindings (candidateOf [⟨"D", true, .byValue⟩]) [.ofRank .identity 2]] := by
    cbv
  have lowest : IsLeastCost (viableAmong ConversionRules.exact.ask objectCall
      objectCandidates).run 2 := by
    rw [isLeastCost_iff]
    decide +kernel
  refine ⟨enriches, few, costs, _, _, exact, ?_⟩
  rw [same, kept 2 lowest (by decide), exact]

end StaticResolution

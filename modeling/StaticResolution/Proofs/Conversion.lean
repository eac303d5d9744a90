import StaticResolution.Proofs.Layout.Copies
import StaticResolution.Proofs.Layout.Memo

/-!
The conversions of a class table: a class converts to another one if an object of it has exactly one
sub-object of the other, which is then a base. A base that is unambiguous in the class is also
unambiguous in every class between.
-/

namespace StaticResolution

namespace ConversionRules

theorem standard_eq_none_iff {source target : String} :
    standard source target = none ↔
      source ≠ target ∧ ¬ (isArithmetic source = true ∧ isArithmetic target = true) := by
  unfold standard
  split
  next same => simp [same]
  next differ => simp [differ]

end ConversionRules

namespace ClassTable

variable {table : ClassTable}

def conversion? (table : ClassTable) (source target : String) : Option Conversion :=
  match ConversionRules.standard source target with
  | some conversion => some conversion
  | none => if (table.layoutOf source).count target = 1 then some .derivedToBase else none

theorem count_layoutOf (formed : table.WellFormed) (root name : String) :
    (table.layoutOf root).count name = ((table.chainsOf root).map Chain.leaf).count name :=
  (layoutOf_listsChains formed root).count name

theorem count_pos_iff_inherits (formed : table.WellFormed) {root name : String} :
    0 < (table.layoutOf root).count name ↔ table.Inherits root name := by
  rw [count_layoutOf formed, List.count_pos_iff, mem_map_leaf_iff]

theorem eq_of_inherits_of_not_contains {root name : String}
    (absent : table.contains root = false) (inherits : table.Inherits root name) : root = name := by
  rcases Relation.ReflTransGen.cases_head inherits with same | ⟨below, step, _⟩
  · exact same
  · obtain ⟨base, listed, _⟩ := List.mem_map.mp step
    rw [basesOf, find?_eq_none_iff.mpr absent] at listed
    exact absurd listed List.not_mem_nil

theorem contains_of_transGen {derived base : String}
    (way : Relation.TransGen table.HasBase derived base) : table.contains derived = true := by
  obtain ⟨inherits, differ⟩ := transGen_hasBase_iff.mp way
  by_contra absent
  exact differ (eq_of_inherits_of_not_contains (by simpa using absent) inherits)

theorem isBaseOf_eq_ok_true_iff {derived base : String} :
    table.isBaseOf base derived = .ok true ↔ Relation.TransGen table.HasBase derived base := by
  by_cases registered : table.contains derived = true
  · obtain ⟨ancestry, climbed, ancestors, _⟩ := exists_ancestry registered
    have answered : table.isBaseOf base derived = .ok (ancestry.contains base) := by
      rw [isBaseOf, climbed]
      rfl
    rw [answered, Except.ok.injEq, Ancestry.contains, List.contains_iff_mem, ancestors,
      transGen_hasBase_iff, and_comm, ne_comm]
  · constructor
    · intro answered
      rw [isBaseOf, ancestry, if_neg registered] at answered
      cases answered
    · exact fun way => absurd (contains_of_transGen way) registered

theorem answers_derivedToBase (formed : table.WellFormed) {source target : String}
    (differ : source ≠ target) :
    Answers table (table.derivedToBase source target)
      (if (table.layoutOf source).count target = 1 then some .derivedToBase else none) := by
  unfold derivedToBase
  by_cases proper : Relation.TransGen table.HasBase source target
  · have recalled := answers_recallLayout table source
    rw [layout_eq_ok_iff.mpr ⟨contains_of_transGen proper, rfl⟩] at recalled
    rw [isBaseOf_eq_ok_true_iff.mpr proper]
    exact recalled.bind (.pure _)
  · have missing : ¬ 0 < (table.layoutOf source).count target := fun some =>
      proper (transGen_hasBase_iff.mpr ⟨(count_pos_iff_inherits formed).mp some, differ⟩)
    rw [if_neg (by omega)]
    split
    next answered => exact absurd (isBaseOf_eq_ok_true_iff.mp answered) proper
    next => exact .pure _

theorem answers_convert (formed : table.WellFormed) (source target : String) :
    Answers table (table.convert source target) (table.conversion? source target) := by
  unfold convert conversion?
  cases standard : ConversionRules.standard source target with
  | some conversion => exact .pure _
  | none =>
      exact answers_derivedToBase formed (ConversionRules.standard_eq_none_iff.mp standard).1

theorem convert_eq_of_conversion?_eq {other : ClassTable} (formed : table.WellFormed)
    (otherFormed : other.WellFormed) {source target : String}
    (same : other.conversion? source target = table.conversion? source target)
    {memo otherMemo : LayoutMemo} (coherent : memo.Coherent table)
    (otherCoherent : otherMemo.Coherent other) :
    ((other.convert source target).run otherMemo).run.1 =
      ((table.convert source target).run memo).run.1 := by
  obtain ⟨answer, _⟩ := answers_convert formed source target memo coherent
  obtain ⟨otherAnswer, _⟩ := answers_convert otherFormed source target otherMemo otherCoherent
  rw [answer, otherAnswer, same]

end ClassTable

namespace LayoutMemo

variable {table : ClassTable} {memo : LayoutMemo} {name : String}

theorem get?_insert_self (missing : memo.get? name = none) (layout : Layout) :
    (memo.insert name layout).get? name = some layout := by
  rw [get?] at missing
  simp [get?, insert, List.lookup_append, missing]

def recalled (table : ClassTable) (memo : LayoutMemo) (name : String) : LayoutMemo :=
  match memo.get? name with
  | some _ => memo
  | none => memo.insert name (table.layoutOf name)

theorem isSome_get?_recalled (table : ClassTable) (memo : LayoutMemo) (name : String) :
    ((recalled table memo name).get? name).isSome = true := by
  unfold recalled
  split
  next found => rw [found, Option.isSome_some]
  next missing => rw [get?_insert_self missing, Option.isSome_some]

theorem recalled_eq_or (registered : table.contains name = true) :
    recalled table memo name = memo ∨ memo.get? name = none ∧
      ∃ layout, table.layout name = .ok layout ∧
        recalled table memo name = memo.insert name layout := by
  unfold recalled
  split
  next => exact .inl rfl
  next missing => exact .inr ⟨missing, _, ClassTable.layout_eq_ok_iff.mpr ⟨registered, rfl⟩, rfl⟩

end LayoutMemo

namespace ClassTable

variable {table : ClassTable} {memo : LayoutMemo} {source target : String}

/-- A proper base of which an object of the class has exactly one sub-object. -/
structure HasSoleBase (table : ClassTable) (derived base : String) : Prop where
  registered : table.contains derived = true
  proper : Relation.TransGen table.HasBase derived base
  once : ∃ layout, table.layout derived = .ok layout ∧ layout.count base = 1

/-- The pairs of names that each conversion is for. An arithmetic name counts as such also where a
class has it. -/
def Converts (table : ClassTable) (source target : String) : Conversion → Prop
  | .identity => source = target
  | .arithmetic => source ≠ target ∧ isArithmetic source = true ∧ isArithmetic target = true
  | .derivedToBase => source ≠ target ∧
      ¬ (isArithmetic source = true ∧ isArithmetic target = true) ∧
        table.HasSoleBase source target

/-- Whether the source converts to the target cannot be told without the layout of the source. -/
structure NeedsLayout (table : ClassTable) (source target : String) : Prop where
  differ : source ≠ target
  notArithmetic : ¬ (isArithmetic source = true ∧ isArithmetic target = true)
  proper : Relation.TransGen table.HasBase source target

theorem hasSoleBase_iff (formed : table.WellFormed) (differ : source ≠ target) :
    table.HasSoleBase source target ↔ (table.layoutOf source).count target = 1 := by
  constructor
  · rintro ⟨_, _, layout, computed, once⟩
    rwa [(layout_eq_ok_iff.mp computed).2]
  · intro once
    have some : 0 < (table.layoutOf source).count target := by omega
    have inherits := (count_pos_iff_inherits formed).mp some
    have proper := transGen_hasBase_iff.mpr ⟨inherits, differ⟩
    have registered := contains_of_transGen proper
    exact ⟨registered, proper, _, layout_eq_ok_iff.mpr ⟨registered, rfl⟩, once⟩

theorem conversion?_eq_some_iff (formed : table.WellFormed) {conversion : Conversion} :
    table.conversion? source target = some conversion ↔
      table.Converts source target conversion := by
  by_cases same : source = target
  · have standard : ConversionRules.standard source target = some .identity := if_pos same
    rw [conversion?, standard]
    cases conversion <;> simp [Converts, same]
  · by_cases arithmetic : isArithmetic source = true ∧ isArithmetic target = true
    · have standard : ConversionRules.standard source target = some .arithmetic := by
        simp [ConversionRules.standard, same, arithmetic]
      rw [conversion?, standard]
      cases conversion <;> simp [Converts, same, arithmetic]
    · rw [conversion?, ConversionRules.standard_eq_none_iff.mpr ⟨same, arithmetic⟩]
      have sole := hasSoleBase_iff formed same
      cases conversion <;> simp [Converts, same, arithmetic, sole]

theorem outcome_recallLayout_of_contains (coherent : memo.Coherent table)
    (registered : table.contains source = true) :
    outcome (table.recallLayout source) memo =
      (.ok (table.layoutOf source), memo.recalled table source) := by
  rw [outcome_recallLayout, LayoutMemo.recalled]
  cases found : memo.get? source with
  | some layout => rw [(layout_eq_ok_iff.mp (coherent.get?_eq found)).2]
  | none => rw [layout_eq_ok_iff.mpr ⟨registered, rfl⟩]

theorem memo_convert_of_needsLayout (coherent : memo.Coherent table)
    (needs : table.NeedsLayout source target) :
    ((table.convert source target).run memo).run.2 = memo.recalled table source := by
  have standard := ConversionRules.standard_eq_none_iff.mpr ⟨needs.differ, needs.notArithmetic⟩
  have answered := isBaseOf_eq_ok_true_iff.mpr needs.proper
  have asked := outcome_recallLayout_of_contains coherent (contains_of_transGen needs.proper)
  change ((table.recallLayout source).run.run memo).run = _ at asked
  simp only [convert, standard, derivedToBase, answered, StateT.run_bind, Id.run_bind, asked]
  rfl

theorem memo_convert_of_not_needsLayout (needless : ¬ table.NeedsLayout source target) :
    ((table.convert source target).run memo).run.2 = memo := by
  unfold convert
  split
  next => rfl
  next standard =>
    obtain ⟨differ, notArithmetic⟩ := ConversionRules.standard_eq_none_iff.mp standard
    unfold derivedToBase
    split
    next answered =>
      have proper := isBaseOf_eq_ok_true_iff.mp answered
      exact absurd ⟨differ, notArithmetic, proper⟩ needless
    next => rfl

/-- A class converts to a base of which its objects have exactly one sub-object, and otherwise there
are only the standard conversions. The memo gets at most the layout of the source, and gets it
also when several sub-objects rule the conversion out. -/
theorem convert_exact (reachable : Reachable table) (coherent : memo.Coherent table)
    (source target : String) :
    let result := ((table.convert source target).run memo).run.1
    let after := ((table.convert source target).run memo).run.2
    (∀ conversion, result = some conversion ↔ table.Converts source target conversion) ∧
      (result = none ↔ ∀ conversion, ¬ table.Converts source target conversion) ∧
      (after = memo ∨ memo.get? source = none ∧
        ∃ layout, table.layout source = .ok layout ∧ after = memo.insert source layout) ∧
      ((after.get? source).isSome = true ↔
        (memo.get? source).isSome = true ∨ table.NeedsLayout source target) ∧
      after.Coherent table := by
  intro result after
  have formed := reachable.wellFormed
  obtain ⟨answer, _, still⟩ := answers_convert formed source target memo coherent
  have exact : ∀ conversion, result = some conversion ↔
      table.Converts source target conversion := by
    intro conversion
    rw [← conversion?_eq_some_iff formed, ← answer]
  refine ⟨exact, ?_, ?_, ?_, still⟩
  · rw [Option.eq_none_iff_forall_ne_some]
    exact forall_congr' fun conversion => not_congr (exact conversion)
  · by_cases needs : table.NeedsLayout source target
    · have recalled : after = _ := memo_convert_of_needsLayout coherent needs
      rw [recalled]
      exact LayoutMemo.recalled_eq_or (contains_of_transGen needs.proper)
    · exact .inl (memo_convert_of_not_needsLayout needs)
  · by_cases needs : table.NeedsLayout source target
    · have recalled : after = _ := memo_convert_of_needsLayout coherent needs
      simp [recalled, needs, memo.isSome_get?_recalled table source]
    · have same : after = memo := memo_convert_of_not_needsLayout needs
      simp [same, needs]

theorem convert_exact_mixed :
    mixed.Reachable ∧ LayoutMemo.empty.Coherent mixed ∧
      ((mixed.convert "D" "E").run .empty).run.1 = some .derivedToBase ∧
      ∃ after, ((mixed.convert "D" "A").run .empty).run = (none, after) ∧
        (after.get? "D").isSome = true ∧ after.Coherent mixed := by
  have empty := LayoutMemo.coherent_empty mixed
  have formed := reachable_mixed.wellFormed
  obtain ⟨sole, _⟩ := convert_exact reachable_mixed empty "D" "E"
  obtain ⟨_, copies, _, kept, still⟩ := convert_exact reachable_mixed empty "D" "A"
  have notArithmetic : isArithmetic "D" = false := by decide
  have once : (mixed.layoutOf "D").count "E" = 1 := by cbv
  have twice : (mixed.layoutOf "D").count "A" = 2 := by cbv
  have converts : mixed.Converts "D" "E" .derivedToBase :=
    ⟨by decide, by simp [notArithmetic], (hasSoleBase_iff formed (by decide)).mpr once⟩
  have above := (count_pos_iff_inherits formed).mp (by omega : 0 < (mixed.layoutOf "D").count "A")
  have needs : mixed.NeedsLayout "D" "A" :=
    ⟨by decide, by simp [notArithmetic], transGen_hasBase_iff.mpr ⟨above, by decide⟩⟩
  have unrelated : ∀ conversion, ¬ mixed.Converts "D" "A" conversion := by
    intro conversion
    cases conversion <;>
      simp [Converts, notArithmetic, hasSoleBase_iff formed (by decide : "D" ≠ "A"), twice]
  exact ⟨reachable_mixed, empty, (sole _).mpr converts, _,
    Prod.ext (copies.mpr unrelated) rfl, kept.mpr (.inr needs), still⟩

end ClassTable

namespace ClassTable

variable {table : ClassTable} {derived middle base : String}

theorem map_graft_subperm {root : String} {outer : Chain}
    (reach : table.chains.Reaches (.single root) outer) :
    ((table.chainsOf outer.leaf).map outer.graft).Subperm (table.chainsOf root) := by
  rw [← preorder_graft reach]
  apply List.subperm_of_subset (table.chains.nodup_preorder outer)
  intro chain below
  exact mem_chainsOf_of_reaches (table.chains.mem_preorder_iff.mp below)
    (table.chains.mem_preorder_iff.mpr reach)

theorem count_layoutOf_le (formed : table.WellFormed) (inherits : table.Inherits derived middle)
    (name : String) : (table.layoutOf middle).count name ≤ (table.layoutOf derived).count name := by
  obtain ⟨outer, reach, rfl⟩ := exists_chain_of_inherits inherits
  have embedded := (map_graft_subperm reach).countP_le fun chain => chain.leaf == name
  simp only [List.countP_map, Function.comp_def, Chain.leaf_graft] at embedded
  simp only [count_layoutOf formed, List.count_eq_countP, List.countP_map]
  exact embedded

theorem HasSoleBase.inherited (formed : table.WellFormed) (sole : table.HasSoleBase derived base)
    (above : Relation.TransGen table.HasBase derived middle)
    (below : Relation.TransGen table.HasBase middle base) : table.HasSoleBase middle base := by
  have differ := (transGen_hasBase_iff.mp sole.proper).2
  obtain ⟨inherits, between⟩ := transGen_hasBase_iff.mp below
  have once := (hasSoleBase_iff formed differ).mp sole
  have least := (count_pos_iff_inherits formed).mpr inherits
  have most := count_layoutOf_le formed (transGen_hasBase_iff.mp above).1 base
  exact (hasSoleBase_iff formed between).mpr (by omega)

theorem converts_inherited (formed : table.WellFormed)
    (converts : table.Converts derived base .derivedToBase)
    (above : Relation.TransGen table.HasBase derived middle)
    (below : Relation.TransGen table.HasBase middle base) :
    table.Converts middle base
      (if isArithmetic middle && isArithmetic base then .arithmetic else .derivedToBase) := by
  have differ := (transGen_hasBase_iff.mp below).2
  split
  next arithmetic => exact ⟨differ, by simpa using arithmetic⟩
  next notArithmetic =>
    exact ⟨differ, by simpa using notArithmetic, converts.2.2.inherited formed above below⟩

/-- If a class converts to a base, then so does every class between, by an arithmetic conversion if
both of them have the names of arithmetic types. For no name has an object of a base more
sub-objects than an object of the class. -/
theorem convert_inherited (reachable : Reachable table)
    (above : Relation.TransGen table.HasBase derived middle) :
    (∀ (base : String) (memo other : LayoutMemo), memo.Coherent table → other.Coherent table →
      ((table.convert derived base).run memo).run.1 = some .derivedToBase →
      Relation.TransGen table.HasBase middle base →
      ((table.convert middle base).run other).run.1 = some
        (if isArithmetic middle && isArithmetic base then .arithmetic else .derivedToBase)) ∧
      ∃ layout inner, table.layout derived = .ok layout ∧ table.layout middle = .ok inner ∧
        ∀ name, inner.count name ≤ layout.count name := by
  have formed := reachable.wellFormed
  have inherits := (transGen_hasBase_iff.mp above).1
  have registered := contains_of_transGen above
  constructor
  · intro base memo other coherent otherCoherent found below
    obtain ⟨answer, _⟩ := answers_convert formed derived base memo coherent
    obtain ⟨otherAnswer, _⟩ := answers_convert formed middle base other otherCoherent
    rw [answer, conversion?_eq_some_iff formed] at found
    rw [otherAnswer, conversion?_eq_some_iff formed]
    exact converts_inherited formed found above below
  · exact ⟨_, _, layout_eq_ok_iff.mpr ⟨registered, rfl⟩,
      layout_eq_ok_iff.mpr ⟨inherits.contains registered, rfl⟩, count_layoutOf_le formed inherits⟩

def shadowingBatch : List ClassDef :=
  [{ name := "Wide", bases := [⟨"Word", false⟩, ⟨"long", true⟩] },
    { name := "Word", bases := [⟨"int", false⟩] },
    { name := "int", bases := [⟨"long", true⟩] },
    { name := "long" }]

def shadowing : ClassTable :=
  (outcome (registerAll shadowingBatch) .empty).2

theorem convert_inherited_shadowing :
    shadowing.Reachable ∧ LayoutMemo.empty.Coherent shadowing ∧
      Relation.TransGen shadowing.HasBase "Wide" "int" ∧
      Relation.TransGen shadowing.HasBase "int" "long" ∧
      ((shadowing.convert "Wide" "long").run .empty).run.1 = some .derivedToBase ∧
      ((shadowing.convert "int" "long").run .empty).run.1 = some .arithmetic ∧
      ∃ layout inner, shadowing.layout "Wide" = .ok layout ∧ shadowing.layout "int" = .ok inner ∧
        inner.count "long" ≤ layout.count "long" := by
  have reachable : shadowing.Reachable := .registerAll shadowingBatch .empty
  have formed := reachable.wellFormed
  have empty := LayoutMemo.coherent_empty shadowing
  have whole : shadowing.HasSoleBase "Wide" "long" :=
    (hasSoleBase_iff formed (by decide)).mpr (by cbv)
  have above : shadowing.HasSoleBase "Wide" "int" :=
    (hasSoleBase_iff formed (by decide)).mpr (by cbv)
  have below : shadowing.HasSoleBase "int" "long" :=
    (hasSoleBase_iff formed (by decide)).mpr (by cbv)
  obtain ⟨inherited, layout, inner, laid, innerLaid, counts⟩ :=
    convert_inherited reachable above.proper
  have found : ((shadowing.convert "Wide" "long").run .empty).run.1 = some .derivedToBase := by
    obtain ⟨answer, _⟩ := answers_convert formed "Wide" "long" _ empty
    rw [answer, conversion?_eq_some_iff formed]
    exact ⟨by decide, by decide, whole⟩
  exact ⟨reachable, empty, above.proper, below.proper, found,
    inherited "long" _ _ empty empty found below.proper, layout, inner, laid, innerLaid,
    counts "long"⟩

end ClassTable

end StaticResolution

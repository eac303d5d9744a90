import StaticResolution.Proofs.Conversion
import StaticResolution.Proofs.Lookup.Dominance

/-!
Members that a single class of a hierarchy declares. No sub-object contains another one of its own
class, so that nothing hides any of the declarations, and the sub-objects of the class decide alike
about lookups and about conversions to the class.
-/

namespace StaticResolution

namespace Layout

variable {table : ClassTable} {layout : Layout} {root : String}

theorem ListsChains.not_contains_of_className_eq
    (lists : layout.ListsChains table (table.chainsOf root)) {outer inner : Subobject}
    (outerListed : outer ∈ layout.subobjects) (innerListed : inner ∈ layout.subobjects)
    (same : outer.className = inner.className) : layout.contains outer.id inner.id = false := by
  by_contra inside
  obtain ⟨outerId, outerAt⟩ := List.mem_iff_getElem?.mp outerListed
  obtain ⟨innerId, innerAt⟩ := List.mem_iff_getElem?.mp innerListed
  obtain ⟨outerChain, outerFound, outerSame, outerNamed, _⟩ := lists.chain outerAt
  obtain ⟨innerChain, innerFound, innerSame, innerNamed, _⟩ := lists.chain innerAt
  rw [outerSame, innerSame, Bool.not_eq_false] at inside
  have lower := lists.rank_lt_of_contains outerFound innerFound inside
  rw [← outerNamed, ← innerNamed, same] at lower
  exact Nat.lt_irrefl _ lower

theorem splitHidden_of_apart {found : List Subobject}
    (apart : ∀ outer ∈ found, ∀ inner ∈ found, layout.contains outer.id inner.id = false) :
    layout.splitHidden found = (found, []) := by
  have survives : ∀ part ∈ found, layout.survives found part = true := by
    intro part listed
    simp only [survives, List.all_eq_true, Bool.not_eq_true']
    exact fun other otherListed => apart other otherListed part listed
  rw [splitHidden_eq, List.filter_eq_self.mpr survives, List.filter_eq_nil_iff.mpr]
  intro part listed
  simp [survives part listed]

end Layout

namespace ClassTable

variable {table : ClassTable}

theorem lookup_of_apart {layout : Layout} {member : String} {found : List Subobject}
    (declared : table.declarers layout.subobjects member = found) (some : found ≠ [])
    (apart : ∀ outer ∈ found, ∀ inner ∈ found, layout.contains outer.id inner.id = false) :
    (∃ winner, found = [winner] ∧
      table.lookup layout member = .ok (.unique (winner.site member))) ∨
    2 ≤ found.length ∧
      table.lookup layout member = .ok (.ambiguous (found.map fun part => part.site member)) := by
  simp only [lookup, Layout.verdictAmong, declared, Layout.splitHidden_of_apart apart]
  rcases found with _ | ⟨winner, _ | ⟨second, rest⟩⟩
  · exact absurd rfl some
  · exact .inl ⟨winner, rfl, rfl⟩
  · exact .inr ⟨by simp, rfl⟩

theorem declarers_eq_ofClass (formed : table.WellFormed) {root owner member : String}
    (sole : ∀ className, table.Inherits root className ∧ table.Declares className member ↔
      className = owner) :
    table.declarers (table.layoutOf root).subobjects member =
      (table.layoutOf root).ofClass owner := by
  apply List.filter_congr
  intro part listed
  rw [Bool.eq_iff_iff, declares_iff formed, beq_iff_eq, ← sole,
    and_iff_right (inherits_of_mem_layoutOf formed listed)]

theorem lookup_of_sole (formed : table.WellFormed) {root owner member : String}
    (sole : ∀ className, table.Inherits root className ∧ table.Declares className member ↔
      className = owner) :
    (∃ winner, (table.layoutOf root).ofClass owner = [winner] ∧
      table.lookup (table.layoutOf root) member = .ok (.unique (winner.site member))) ∨
    2 ≤ (table.layoutOf root).count owner ∧
      table.lookup (table.layoutOf root) member = .ok (.ambiguous
        (((table.layoutOf root).ofClass owner).map fun part => part.site member)) := by
  have inherits : table.Inherits root owner := ((sole owner).mpr rfl).1
  have positive := (count_pos_iff_inherits formed).mpr inherits
  apply lookup_of_apart (declarers_eq_ofClass formed sole) (List.ne_nil_of_length_pos positive)
  intro outer outerListed inner innerListed
  obtain ⟨outerInside, outerNamed⟩ := List.mem_filter.mp outerListed
  obtain ⟨innerInside, innerNamed⟩ := List.mem_filter.mp innerListed
  exact (layoutOf_listsChains formed root).not_contains_of_className_eq outerInside innerInside
    ((beq_iff_eq.mp outerNamed).trans (beq_iff_eq.mp innerNamed).symm)

theorem className_of_mem_ofClass {layout : Layout} {name : String} {part : Subobject}
    (listed : part ∈ layout.ofClass name) : part.className = name :=
  beq_iff_eq.mp (List.mem_filter.mp listed).2

/-- A member that one class of a hierarchy alone declares is ambiguous exactly where an object has
the class several times over, and nothing of it is hidden. That is also where no conversion leads to
the class. -/
theorem sole_declarer_decides (reachable : Reachable table) {name owner member : String}
    {ancestry : Ancestry} (climbed : table.ancestry name = .ok ancestry)
    (sole : ∀ className, className ∈ name :: ancestry.ancestors ∧ table.Declares className member ↔
      className = owner) :
    ∃ layout, table.layout name = .ok layout ∧
      ((∃ winner, table.lookup layout member = .ok (.unique winner)) ↔ layout.count owner = 1) ∧
      (∀ winner, table.lookup layout member = .ok (.unique winner) → winner.className = owner) ∧
      (layout.count owner ≠ 1 → ∃ candidates,
        table.lookup layout member = .ok (.ambiguous candidates) ∧
          candidates.length = layout.count owner ∧ ∀ site ∈ candidates, site.className = owner) ∧
      (owner ≠ name → ¬ (isArithmetic name = true ∧ isArithmetic owner = true) →
        ∀ memo : LayoutMemo, memo.Coherent table →
          ((∃ winner, table.lookup layout member = .ok (.unique winner)) ↔
            ∃ conversion, ((table.convert name owner).run memo).run.1 = some conversion) ∧
          ∀ conversion, ((table.convert name owner).run memo).run.1 = some conversion →
            conversion = .derivedToBase) := by
  have formed := reachable.wellFormed
  have registered := contains_of_ancestry climbed
  have decided := lookup_of_sole formed fun className => by
    rw [← sole className, mem_ancestry_iff climbed]
  have unique : (∃ winner, table.lookup (table.layoutOf name) member = .ok (.unique winner)) ↔
      (table.layoutOf name).count owner = 1 := by
    rcases decided with ⟨winner, only, found⟩ | ⟨several, found⟩
    · simp [found, Layout.count, only]
    · simp [found, Nat.ne_of_gt several]
  refine ⟨table.layoutOf name, layout_eq_ok_iff.mpr ⟨registered, rfl⟩, unique, ?_, ?_, ?_⟩
  · intro site answered
    rcases decided with ⟨winner, only, found⟩ | ⟨_, found⟩
    · cases found.symm.trans answered
      have listed : winner ∈ (table.layoutOf name).ofClass owner := by
        rw [only]
        exact List.mem_singleton_self _
      exact className_of_mem_ofClass listed
    · cases found.symm.trans answered
  · intro several
    rcases decided with ⟨winner, _, found⟩ | ⟨_, found⟩
    · exact absurd (unique.mp ⟨_, found⟩) several
    · refine ⟨_, found, List.length_map .., ?_⟩
      intro site listed
      obtain ⟨part, inside, rfl⟩ := List.mem_map.mp listed
      exact className_of_mem_ofClass inside
  · intro other apart memo coherent
    obtain ⟨answer, _⟩ := answers_convert formed name owner memo coherent
    have standard : ConversionRules.standard name owner = none := by
      rw [ConversionRules.standard, if_neg other.symm, if_neg (by simpa using apart)]
    rw [answer, unique, conversion?, standard]
    by_cases once : (table.layoutOf name).count owner = 1
    · simp [once]
    · simp [once]

theorem sole_declarer_decides_mixed : mixed.Reachable ∧
    ∃ ancestry layout, mixed.ancestry "D" = .ok ancestry ∧ mixed.layout "D" = .ok layout ∧
      (∀ className, className ∈ "D" :: ancestry.ancestors ∧ mixed.Declares className "a" ↔
        className = "A") ∧
      mixed.lookup layout "a" = .ok (.ambiguous [⟨2, "A", "a"⟩, ⟨5, "A", "a"⟩]) ∧
      ¬ (isArithmetic "D" = true ∧ isArithmetic "A" = true) ∧
      ((mixed.convert "D" "A").run .empty).run.1 = none := by
  have formed := reachable_mixed.wellFormed
  have registered : mixed.contains "D" = true := by cbv
  obtain ⟨ancestry, climbed, _⟩ := ancestry_eq registered
  have sole : ∀ className, className ∈ "D" :: ancestry.ancestors ∧ mixed.Declares className "a" ↔
      className = "A" := by
    intro className
    have inherits : mixed.Inherits "D" "A" :=
      (count_pos_iff_inherits formed).mp (by cbv)
    rw [mem_ancestry_iff climbed]
    constructor
    · rintro ⟨_, decl, listed, rfl, declared⟩
      have only : (mixed.classes.filter fun decl => decl.declares "a").map ClassDef.name = ["A"] :=
        by cbv
      have kept : decl ∈ mixed.classes.filter fun decl => decl.declares "a" :=
        List.mem_filter.mpr ⟨listed, (ClassDef.declares_iff decl "a").mpr declared⟩
      exact List.mem_singleton.mp (only ▸ List.mem_map_of_mem kept)
    · rintro rfl
      exact ⟨inherits, (declares_iff formed).mp (by cbv)⟩
  obtain ⟨layout, found, unique, _, _, converts⟩ :=
    sole_declarer_decides reachable_mixed climbed sole
  obtain ⟨_, computed⟩ := layout_eq_ok_iff.mp found
  have ambiguous : mixed.lookup layout "a" =
      .ok (.ambiguous [⟨2, "A", "a"⟩, ⟨5, "A", "a"⟩]) := by
    rw [← computed]
    cbv
  have apart : ¬ (isArithmetic "D" = true ∧ isArithmetic "A" = true) := by decide
  obtain ⟨agrees, _⟩ := converts (by decide) apart .empty (LayoutMemo.coherent_empty _)
  refine ⟨reachable_mixed, ancestry, layout, climbed, found, sole, ambiguous, apart, ?_⟩
  cases converted : ((mixed.convert "D" "A").run .empty).run.1 with
  | none => rfl
  | some conversion =>
      obtain ⟨winner, answered⟩ := agrees.mpr ⟨conversion, converted⟩
      cases ambiguous.symm.trans answered

end ClassTable

end StaticResolution

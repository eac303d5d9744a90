import StaticResolution.Proofs.Lookup.Qualified

/-!
Lookup from the innermost sub-objects outwards. A sub-object that declares the member hides all that
lies within it, and any other one merges what its direct bases have left. Comparing so few of the
declarations at a time gives what comparing all of them gives.
-/

namespace StaticResolution

namespace Layout

variable {table : ClassTable} {layout : Layout} {member : String}

def unhidden (layout : Layout) (ids : List Nat) : List Nat :=
  (ids.filter fun id => ids.all fun other => !layout.contains other id).eraseDups

theorem mem_unhidden_iff {ids : List Nat} {id : Nat} :
    id ∈ layout.unhidden ids ↔ id ∈ layout.outermost {other | other ∈ ids} := by
  simp [unhidden, outermost, List.mem_eraseDups]

def lowerParts (table : ClassTable) (layout : Layout) (part : Subobject) : List Subobject :=
  ((layout.partsOf part.id).filterMap layout.get?).filter fun inner =>
    table.rank inner.className < table.rank part.className

def survivors (table : ClassTable) (layout : Layout) (member : String) (part : Subobject) :
    List Nat :=
  if table.declares part.className member then [part.id]
  else layout.unhidden ((layout.lowerParts table part).attach.flatMap fun inner =>
    layout.survivors table member inner.1)
termination_by table.rank part.className
decreasing_by
  have lower := (List.mem_filter.mp inner.2).2
  simpa using lower

theorem survivors_of_declares {part : Subobject}
    (declares : table.declares part.className member = true) :
    layout.survivors table member part = [part.id] := by
  rw [survivors, if_pos declares]

theorem mem_survivors_iff {part : Subobject} {id : Nat}
    (silent : ¬ table.declares part.className member = true) :
    id ∈ layout.survivors table member part ↔ id ∈ layout.outermost
      {other | ∃ inner ∈ layout.lowerParts table part,
        other ∈ layout.survivors table member inner} := by
  rw [survivors, if_neg silent, mem_unhidden_iff]
  simp only [List.mem_flatMap, List.mem_attach, true_and, Subtype.exists, exists_prop]

/-- The rules of a search from the innermost sub-objects outwards, by what is left in each. -/
structure MergesUp (table : ClassTable) (layout : Layout) (member : String)
    (surviving : Nat → Set Nat) : Prop where
  declared : ∀ id part, layout.get? id = some part → table.Declares part.className member →
    surviving id = {id}
  merged : ∀ id part, layout.get? id = some part → ¬ table.Declares part.className member →
    surviving id = layout.outermost {inner | ∃ base ∈ layout.partsOf id, inner ∈ surviving base}

/-- What a lookup results in, by the declarations that are left for the whole object. -/
structure LookupBySurvivors (layout : Layout) (member : String) (ids : Set Nat)
    (result : Except QueryError (Verdict MemberSite)) : Prop where
  winner : ∀ id, ids = {id} ↔ ∃ verdict site, result = .ok verdict ∧
    verdict.winner? = some site ∧ layout.IsSite member site ∧ site.subobject = id
  ambiguous : ids.Nontrivial ↔ ∃ candidates, result = .ok (.ambiguous candidates)
  candidates : ∀ candidates, result = .ok (.ambiguous candidates) →
    layout.ListsSites member ids candidates
  unknown : ids = ∅ ↔ result = .error (.unknownMember layout.className member)

namespace ListsChains

variable {root : String} (lists : layout.ListsChains table (table.chainsOf root))

include lists

theorem declaredWithin_zero (member : String) :
    layout.declaredWithin table 0 member = layout.declarers table member := by
  ext id
  refine ⟨fun inside => inside.1, fun declared => ⟨declared, ?_⟩⟩
  obtain ⟨_, partAt, _⟩ := declared
  obtain ⟨_, found, _⟩ := lists.chain partAt
  exact lists.mem_within_zero found

theorem outermost_of_declares {id : Nat} {chain : Chain}
    (found : (table.chainsOf root)[id]? = some chain)
    (declares : table.Declares chain.leaf member) :
    layout.outermost (layout.declaredWithin table id member) = {id} := by
  apply Dominates.outermost_eq fun _ _ => lists.contains_asymm
  constructor
  · have inside := (lists.mem_within_iff found found).mpr .refl
    exact ⟨(lists.mem_declarers_iff found).mpr declares, inside⟩
  · rintro other ⟨_, inside⟩ differ
    obtain ⟨below, reach, otherAt⟩ := lists.exists_of_mem_within found inside
    exact (lists.contains_iff found otherAt).mpr ⟨differ.symm, reach⟩

theorem declaredWithin_of_not_declares {id : Nat} {chain : Chain}
    (found : (table.chainsOf root)[id]? = some chain)
    (silent : ¬ table.Declares chain.leaf member) :
    layout.declaredWithin table id member =
      {inner | ∃ base ∈ layout.partsOf id, inner ∈ layout.declaredWithin table base member} := by
  ext inner
  simp only [declaredWithin, Set.mem_ofPred_eq, lists.mem_within_iff_parts found]
  constructor
  · rintro ⟨declared, rfl | ⟨base, direct, inside⟩⟩
    · exact absurd ((lists.mem_declarers_iff found).mp declared) silent
    · exact ⟨base, direct, declared, inside⟩
  · rintro ⟨base, direct, declared, inside⟩
    exact ⟨declared, .inr ⟨base, direct, inside⟩⟩

/-- Hidden sub-objects can be left out of some sets before the sets are merged: whatever a hidden
one hides, one that is left hides as well. -/
theorem outermost_merge {parts : List Nat} {sets : Nat → Set Nat}
    (inLayout : ∀ base ∈ parts, ∀ id ∈ sets base, ∃ part, layout.get? id = some part) :
    layout.outermost {id | ∃ base ∈ parts, id ∈ layout.outermost (sets base)} =
      layout.outermost {id | ∃ base ∈ parts, id ∈ sets base} := by
  ext id
  constructor
  · rintro ⟨⟨base, direct, inside⟩, free⟩
    refine ⟨⟨base, direct, inside.1⟩, ?_⟩
    rintro other ⟨around, aroundDirect, member⟩
    by_contra hidden
    have hidden : layout.contains other id = true := by simpa using hidden
    obtain ⟨top, outermost, reached⟩ :=
      lists.exists_outermost (inLayout around aroundDirect) member
    have apart := free top ⟨around, aroundDirect, outermost⟩
    have above : layout.contains top id = true := by
      rcases reached with rfl | further
      · exact hidden
      · exact lists.contains_trans further hidden
    rw [apart] at above
    exact Bool.noConfusion above
  · rintro ⟨⟨base, direct, inside⟩, free⟩
    refine ⟨⟨base, direct, inside, fun other member => free other ⟨base, direct, member⟩⟩, ?_⟩
    rintro other ⟨around, aroundDirect, outermost⟩
    exact free other ⟨around, aroundDirect, outermost.1⟩

theorem eq_of_mergesUp {surviving : Nat → Set Nat}
    (merges : layout.MergesUp table member surviving) {id : Nat} {chain : Chain}
    (found : (table.chainsOf root)[id]? = some chain) :
    surviving id = layout.outermost (layout.declaredWithin table id member) := by
  induction chain using table.chains.induction generalizing id with
  | step chain ih =>
      obtain ⟨part, partAt, _, named, _⟩ := lists.part id chain found
      by_cases declares : table.Declares chain.leaf member
      · rw [merges.declared id part partAt (named ▸ declares),
          lists.outermost_of_declares found declares]
      · have below : {inner | ∃ base ∈ layout.partsOf id, inner ∈ surviving base} =
            {inner | ∃ base ∈ layout.partsOf id,
              inner ∈ layout.outermost (layout.declaredWithin table base member)} := by
          ext inner
          refine exists_congr fun base => and_congr_right fun direct => ?_
          obtain ⟨next, step, nextAt⟩ := lists.exists_of_mem_partsOf found direct
          rw [ih next step nextAt]
        rw [merges.merged id part partAt (named ▸ declares), below, lists.outermost_merge,
          lists.declaredWithin_of_not_declares found declares]
        exact fun base _ inner inside => layout.declarers_inLayout table member inner inside.1

theorem mem_lowerParts_iff {part inner : Subobject} {id : Nat}
    (partAt : layout.get? id = some part) :
    inner ∈ layout.lowerParts table part ↔
      ∃ base ∈ layout.partsOf id, layout.get? base = some inner := by
  obtain ⟨chain, found, same, named, _⟩ := lists.chain partAt
  rw [lowerParts, List.mem_filter, List.mem_filterMap, same, decide_eq_true_eq, and_iff_left_of_imp]
  rintro ⟨base, direct, innerAt⟩
  obtain ⟨below, step, belowAt⟩ := lists.exists_of_mem_partsOf found direct
  obtain ⟨_, again, _, innerNamed, _⟩ := lists.chain innerAt
  cases belowAt.symm.trans again
  rw [named, innerNamed]
  exact table.chains.rank_lt step

theorem mergesUp_survivors (formed : table.WellFormed) : layout.MergesUp table member fun id =>
    {inner | ∃ part, layout.get? id = some part ∧ inner ∈ layout.survivors table member part} := by
  constructor
  · intro id part partAt declares
    have listed := (ClassTable.declares_iff formed).mpr declares
    ext inner
    simp [partAt, survivors_of_declares listed, lists.numbered id part partAt]
  · intro id part partAt silent
    have unlisted := mt (ClassTable.declares_iff formed).mp silent
    have merged : {inner | ∃ lower ∈ layout.lowerParts table part,
          inner ∈ layout.survivors table member lower} =
        {inner | ∃ base ∈ layout.partsOf id, ∃ lower, layout.get? base = some lower ∧
          inner ∈ layout.survivors table member lower} := by
      ext inner
      simp only [Set.mem_ofPred_eq, lists.mem_lowerParts_iff partAt]
      constructor
      · rintro ⟨lower, ⟨base, direct, lowerAt⟩, listed⟩
        exact ⟨base, direct, lower, lowerAt, listed⟩
      · rintro ⟨base, direct, lower, lowerAt, listed⟩
        exact ⟨lower, ⟨base, direct, lowerAt⟩, listed⟩
    ext inner
    simp only [Set.mem_ofPred_eq, partAt, Option.some.injEq, exists_eq_left',
      mem_survivors_iff unlisted, merged]

end ListsChains

theorem LookupCase.bySurvivors {root : String}
    (lists : layout.ListsChains table (table.chainsOf root)) {ids : Set Nat}
    (inLayout : ∀ id ∈ ids, ∃ part, layout.get? id = some part)
    {result : Except QueryError (Verdict MemberSite)}
    (found : layout.LookupCase member ids result) :
    layout.LookupBySurvivors member (layout.outermost ids) result := by
  have wins : ∀ {site verdict}, layout.IsSite member site →
      layout.Dominates ids site.subobject → verdict.winner? = some site →
      (∀ candidates, verdict ≠ .ambiguous candidates) →
      layout.LookupBySurvivors member (layout.outermost ids) (.ok verdict) := by
    intro site verdict isSite dominates winner decided
    rw [dominates.outermost_eq fun _ _ => lists.contains_asymm]
    constructor
    · simp [winner, isSite]
    · simp [decided]
    · exact fun candidates same => absurd (Except.ok.inj same) (decided candidates)
    · simp
  cases found with
  | unknown none =>
      subst none
      have nothing : layout.outermost ∅ = ∅ := by simp [outermost]
      rw [nothing]
      constructor <;> simp
  | @unique winner isSite only =>
      have dominates : layout.Dominates ids winner.subobject := by
        simp [Dominates, only]
      exact wins isSite dominates rfl (by simp)
  | hidden isSite _ dominates => exact wins isSite dominates rfl (by simp)
  | @ambiguous candidates several undecided free =>
      have left : (layout.outermost ids).Nonempty := by
        obtain ⟨id, inside⟩ := several.nonempty
        obtain ⟨top, outermost, _⟩ := lists.exists_outermost inLayout inside
        exact ⟨top, outermost⟩
      have noWinner : ∀ id, layout.outermost ids ≠ {id} := fun id only =>
        undecided id (lists.dominates_of_outermost inLayout only)
      have two : (layout.outermost ids).Nontrivial := by
        rcases left.exists_eq_singleton_or_nontrivial with ⟨id, only⟩ | two
        · exact absurd only (noWinner id)
        · exact two
      constructor
      · simp [noWinner, Verdict.winner?]
      · simp [two]
      · rintro _ ⟨⟩
        exact free
      · simp [left.ne_empty]

end Layout

namespace ClassTable

variable {table : ClassTable} {name : String}

/-- Merging upwards from the bases is well-defined, and leaves for each sub-object the declarations
within it that no other one there hides. What it leaves for the whole object decides the lookup. -/
theorem lookup_bottom_up (reachable : Reachable table) (registered : table.contains name = true)
    (member : String) : ∃ layout, table.layout name = .ok layout ∧ layout.className = name ∧
      layout.MergesUp table member (fun id => {inner | ∃ part,
        layout.get? id = some part ∧ inner ∈ layout.survivors table member part}) ∧
      ∀ surviving, layout.MergesUp table member surviving →
        (∀ id part, layout.get? id = some part →
          surviving id = layout.outermost (layout.declaredWithin table id member)) ∧
        layout.LookupBySurvivors member (surviving 0) (table.lookup layout member) := by
  have lists := layoutOf_listsChains reachable.wellFormed name
  refine ⟨table.layoutOf name, layout_eq_ok_iff.mpr ⟨registered, rfl⟩, rfl,
    lists.mergesUp_survivors reachable.wellFormed, ?_⟩
  intro surviving merges
  constructor
  · intro id part partAt
    obtain ⟨chain, found, _⟩ := lists.chain partAt
    exact lists.eq_of_mergesUp merges found
  · rw [lists.eq_of_mergesUp merges (table.chains.preorder_head _), lists.declaredWithin_zero]
    exact (lists.lookup_case reachable.wellFormed member).bySurvivors lists
      (Layout.declarers_inLayout _ _ _)

theorem lookup_bottom_up_mixed : mixed.Reachable ∧ mixed.contains "D" = true ∧
    ∃ layout, mixed.layout "D" = .ok layout ∧
      (layout.get? 0).map (layout.survivors mixed "m") = some [1, 5] ∧
      (layout.get? 3).map (layout.survivors mixed "m") = some [2] ∧
      mixed.lookup layout "m" = .ok (.ambiguous [⟨1, "B", "m"⟩, ⟨5, "A", "m"⟩]) ∧
      ∀ surviving, layout.MergesUp mixed "m" surviving →
        layout.ListsSites "m" (surviving 0) [⟨1, "B", "m"⟩, ⟨5, "A", "m"⟩] := by
  have registered : mixed.contains "D" = true := by cbv
  obtain ⟨layout, found, _, _, decides⟩ := lookup_bottom_up reachable_mixed registered "m"
  obtain ⟨_, rfl⟩ := layout_eq_ok_iff.mp found
  have ambiguous : mixed.lookup (mixed.layoutOf "D") "m" =
      .ok (.ambiguous [⟨1, "B", "m"⟩, ⟨5, "A", "m"⟩]) := by cbv
  exact ⟨reachable_mixed, registered, _, found, by cbv, by cbv, ambiguous,
    fun surviving merges => (decides surviving merges).2.candidates _ ambiguous⟩

end ClassTable

end StaticResolution

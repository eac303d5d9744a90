import StaticResolution.Proofs.Lookup.Sites

/-!
Lookup in a whole object is lookup by dominance. Containment orders the sub-objects strictly, so
that each declaration lies under one that nothing hides, and a single such declaration hides all
others.
-/

namespace StaticResolution

namespace Layout.ListsChains

variable {table : ClassTable} {layout : Layout} {root : String}

theorem exists_outermost (lists : layout.ListsChains table (table.chainsOf root)) {ids : Set Nat}
    (inLayout : ∀ id ∈ ids, ∃ part, layout.get? id = some part) {id : Nat} (member : id ∈ ids) :
    ∃ winner ∈ layout.outermost ids, winner = id ∨ layout.contains winner id = true := by
  obtain ⟨part, partAt⟩ := inLayout id member
  obtain ⟨chain, found, -⟩ := lists.chain partAt
  generalize height : table.rank root - table.rank chain.leaf = distance
  induction distance using Nat.strong_induction_on generalizing id part chain with
  | _ distance ih =>
      by_cases free : ∀ other ∈ ids, layout.contains other id = false
      · exact ⟨id, ⟨member, free⟩, .inl rfl⟩
      · push Not at free
        obtain ⟨above, aboveMember, inside⟩ := free
        have inside : layout.contains above id = true := by simpa using inside
        obtain ⟨abovePart, aboveAt⟩ := inLayout above aboveMember
        obtain ⟨around, aroundAt, -⟩ := lists.chain aboveAt
        have lower := lists.rank_lt_of_contains aroundAt found inside
        have upper : table.rank around.leaf ≤ table.rank root :=
          (table.chains.mem_preorder_iff.mp (List.mem_of_getElem? aroundAt)).rank_le
        obtain ⟨winner, outermost, reached⟩ :=
          ih _ (by omega) aboveMember abovePart aboveAt around aroundAt rfl
        refine ⟨winner, outermost, .inr ?_⟩
        rcases reached with rfl | further
        · exact inside
        · exact lists.contains_trans further inside

end Layout.ListsChains

namespace Layout

variable {table : ClassTable} {layout : Layout}

def Dominates (layout : Layout) (ids : Set Nat) (winner : Nat) : Prop :=
  winner ∈ ids ∧ ∀ other ∈ ids, other ≠ winner → layout.contains winner other = true

/-- What a lookup of a member should result in, by the sub-objects that declare the member. -/
inductive LookupCase (layout : Layout) (member : String) (ids : Set Nat) :
    Except QueryError (Verdict MemberSite) → Prop
  | unknown (none : ids = ∅) : LookupCase layout member ids
      (.error (.unknownMember layout.className member))
  | unique {winner : MemberSite} (isSite : layout.IsSite member winner)
      (only : ids = {winner.subobject}) : LookupCase layout member ids (.ok (.unique winner))
  | hidden {winner : MemberSite} {shadowed : List MemberSite} (isSite : layout.IsSite member winner)
      (several : ids.Nontrivial) (dominates : layout.Dominates ids winner.subobject)
      (others : layout.ListsSites member (ids \ {winner.subobject}) shadowed) :
      LookupCase layout member ids (.ok (.hidden winner shadowed))
  | ambiguous {candidates : List MemberSite} (several : ids.Nontrivial)
      (undecided : ∀ winner, ¬ layout.Dominates ids winner)
      (free : layout.ListsSites member (layout.outermost ids) candidates) :
      LookupCase layout member ids (.ok (.ambiguous candidates))

theorem Dominates.unique (asymm : ∀ outer inner, layout.contains outer inner = true →
      layout.contains inner outer = false) {ids : Set Nat} {winner other : Nat}
    (wins : layout.Dominates ids winner) (otherWins : layout.Dominates ids other) :
    winner = other := by
  by_contra differ
  have forth := wins.2 other otherWins.1 (Ne.symm differ)
  have back := otherWins.2 winner wins.1 differ
  rw [asymm _ _ forth] at back
  exact Bool.noConfusion back

theorem LookupCase.deterministic (asymm : ∀ outer inner, layout.contains outer inner = true →
      layout.contains inner outer = false) {member : String} {ids : Set Nat}
    {result other : Except QueryError (Verdict MemberSite)}
    (first : layout.LookupCase member ids result) (second : layout.LookupCase member ids other) :
    result = other := by
  cases first with
  | unknown none =>
      subst none
      cases second with
      | unknown => rfl
      | unique _ only => exact absurd only.symm (Set.singleton_ne_empty _)
      | hidden _ several => exact absurd several Set.not_nontrivial_empty
      | ambiguous several => exact absurd several Set.not_nontrivial_empty
  | unique isSite only =>
      subst only
      cases second with
      | unknown none => exact absurd none (Set.singleton_ne_empty _)
      | unique otherSite same => rw [isSite.ext otherSite (Set.singleton_injective same)]
      | hidden _ several => exact absurd several Set.not_nontrivial_singleton
      | ambiguous several => exact absurd several Set.not_nontrivial_singleton
  | hidden isSite several dominates others =>
      cases second with
      | unknown none => exact absurd several (none ▸ Set.not_nontrivial_empty)
      | unique _ only => exact absurd several (only ▸ Set.not_nontrivial_singleton)
      | hidden otherSite _ otherDominates otherOthers =>
          have same := isSite.ext otherSite (dominates.unique asymm otherDominates)
          subst same
          rw [others.unique otherOthers]
      | ambiguous _ free => exact absurd dominates (free _)
  | ambiguous several free candidates =>
      cases second with
      | unknown none => exact absurd several (none ▸ Set.not_nontrivial_empty)
      | unique _ only => exact absurd several (only ▸ Set.not_nontrivial_singleton)
      | hidden _ _ dominates => exact absurd dominates (free _)
      | ambiguous _ _ others => rw [candidates.unique others]

theorem not_dominates_of_two
    {ids : Set Nat} {first second : Nat} (firstFree : first ∈ layout.outermost ids)
    (secondFree : second ∈ layout.outermost ids) (differ : first ≠ second) (winner : Nat) :
    ¬ layout.Dominates ids winner := by
  rintro ⟨member, above⟩
  by_cases same : first = winner
  · have inside := above second secondFree.1 (same ▸ differ.symm)
    rw [secondFree.2 winner member] at inside
    exact Bool.noConfusion inside
  · have inside := above first firstFree.1 same
    rw [firstFree.2 winner member] at inside
    exact Bool.noConfusion inside

theorem declarers_inLayout (layout : Layout) (table : ClassTable) (member : String) :
    ∀ id ∈ layout.declarers table member, ∃ part, layout.get? id = some part := by
  rintro id ⟨part, partAt, _⟩
  exact ⟨part, partAt⟩

theorem IsSite.declares {member : String} {site : MemberSite} (isSite : layout.IsSite member site)
    (inside : site.subobject ∈ layout.declarers table member) :
    table.Declares site.className member := by
  obtain ⟨part, partAt, className, _⟩ := isSite
  obtain ⟨_, again, declares⟩ := inside
  cases partAt.symm.trans again
  rwa [className]

theorem LookupCase.settles {member : String} {result : Except QueryError (Verdict MemberSite)}
    (found : layout.LookupCase member (layout.declarers table member) result) :
    (∃ fault, result = .error fault) ∨ (∃ sites, result = .ok (.ambiguous sites)) ∨
      ∃ verdict winner, result = .ok verdict ∧ verdict.winner? = some winner ∧
        winner.member = member ∧ table.Declares winner.className member := by
  cases found with
  | unknown => exact .inl ⟨_, rfl⟩
  | unique isSite only =>
      have declares := isSite.declares (only ▸ Set.mem_singleton _)
      exact .inr (.inr ⟨_, _, rfl, rfl, isSite.choose_spec.2.2, declares⟩)
  | hidden isSite _ dominates =>
      exact .inr (.inr ⟨_, _, rfl, rfl, isSite.choose_spec.2.2, isSite.declares dominates.1⟩)
  | ambiguous => exact .inr (.inl ⟨_, rfl⟩)

namespace ListsChains

variable {root : String}

theorem numbered (lists : layout.ListsChains table (table.chainsOf root)) : layout.Numbered := by
  intro id part partAt
  obtain ⟨_, _, same, _⟩ := lists.chain partAt
  exact same

theorem dominates_of_outermost (lists : layout.ListsChains table (table.chainsOf root))
    {ids : Set Nat} (inLayout : ∀ id ∈ ids, ∃ part, layout.get? id = some part) {winner : Nat}
    (only : layout.outermost ids = {winner}) : layout.Dominates ids winner := by
  constructor
  · have member : winner ∈ layout.outermost ids := only ▸ Set.mem_singleton winner
    exact member.1
  · intro other member differ
    obtain ⟨top, outermost, reached⟩ := lists.exists_outermost inLayout member
    rw [only, Set.mem_singleton_iff] at outermost
    subst outermost
    rcases reached with same | inside
    · exact absurd same.symm differ
    · exact inside

theorem lookup_case (lists : layout.ListsChains table (table.chainsOf root))
    (formed : table.WellFormed) (member : String) :
    layout.LookupCase member (layout.declarers table member) (table.lookup layout member) := by
  have numbered := lists.numbered
  have declared := listsSites_filter member numbered fun part =>
    table.declares part.className member
  rw [← declarers_eq_accepted formed] at declared
  unfold ClassTable.lookup verdictAmong
  simp only
  change layout.ListsSites member _ ((table.declarers layout.subobjects member).map _) at declared
  generalize found : table.declarers layout.subobjects member = parts at declared ⊢
  split
  next nothing =>
    rw [List.isEmpty_iff] at nothing
    subst nothing
    exact .unknown (declared.eq_nil_iff.mp rfl)
  next something =>
    have inLayout := layout.declarers_inLayout table member
    cases split : layout.splitHidden parts with
    | mk survivors shadowed =>
      rw [← found] at split
      obtain ⟨free, hidden⟩ := listsSites_splitHidden numbered member split
      rw [← declarers_eq_accepted formed] at free hidden
      cases survivors with
      | nil =>
          have some : layout.declarers table member ≠ ∅ := by
            rw [Ne, ← declared.eq_nil_iff, List.map_eq_nil_iff]
            exact fun none => something (List.isEmpty_iff.mpr none)
          obtain ⟨id, inside⟩ := Set.nonempty_iff_ne_empty.mpr some
          obtain ⟨winner, outermost, _⟩ := lists.exists_outermost inLayout inside
          rw [free.eq_nil_iff.mp rfl] at outermost
          exact absurd outermost (Set.notMem_empty winner)
      | cons winner rest =>
          cases rest with
          | nil =>
              have isSite := free.isSite (winner.site member) (by simp)
              have top := free.eq_singleton
              have dominates := lists.dominates_of_outermost inLayout top
              rw [top] at hidden
              cases shadowed with
              | nil =>
                  refine .unique isSite ?_
                  have rest := hidden.eq_nil_iff.mp rfl
                  exact Set.Subset.antisymm (Set.sdiff_eq_empty.mp rest)
                    (Set.singleton_subset_iff.mpr dominates.1)
              | cons other others =>
                  refine .hidden isSite ?_ dominates hidden
                  have below := hidden.sound (other.site member) (by simp)
                  exact ⟨_, below.1, _, dominates.1, below.2⟩
          | cons second rest =>
              have firstFree := free.sound (winner.site member) (by simp)
              have secondFree := free.sound (second.site member) (by simp)
              have differ : (winner.site member).subobject ≠ (second.site member).subobject := by
                have increasing := free.ordered
                rw [List.map_cons, List.map_cons, List.pairwise_cons] at increasing
                exact Nat.ne_of_lt (increasing.1 _ (by simp))
              exact .ambiguous ⟨_, firstFree.1, _, secondFree.1, differ⟩
                (not_dominates_of_two firstFree secondFree differ) free

end ListsChains

structure LookupByDominance (layout : Layout) (member : String) (ids : Set Nat)
    (result : Except QueryError (Verdict MemberSite)) : Prop where
  unknown : result = .error (.unknownMember layout.className member) ↔ ids = ∅
  onlyUnknown : ∀ fault, result = .error fault → fault = .unknownMember layout.className member
  unique : ∀ winner, result = .ok (.unique winner) ↔
    layout.IsSite member winner ∧ ids = {winner.subobject}
  hidden : ∀ winner shadowed, result = .ok (.hidden winner shadowed) ↔
    layout.IsSite member winner ∧ ids.Nontrivial ∧ layout.Dominates ids winner.subobject ∧
      layout.ListsSites member (ids \ {winner.subobject}) shadowed
  ambiguous : ∀ candidates, result = .ok (.ambiguous candidates) ↔
    ids.Nontrivial ∧ (∀ winner, ¬ layout.Dominates ids winner) ∧
      layout.ListsSites member (layout.outermost ids) candidates
  several : ∀ candidates, result = .ok (.ambiguous candidates) → 2 ≤ candidates.length ∧
    ∀ id ∈ ids, ∃ site ∈ candidates,
      site.subobject = id ∨ layout.contains site.subobject id = true
  matched : result ≠ .ok .noMatch

theorem LookupCase.byDominance {root member : String} {ids : Set Nat}
    (lists : layout.ListsChains table (table.chainsOf root))
    (inLayout : ∀ id ∈ ids, ∃ part, layout.get? id = some part)
    {result : Except QueryError (Verdict MemberSite)}
    (found : layout.LookupCase member ids result) : layout.LookupByDominance member ids result := by
  have same : ∀ {other}, layout.LookupCase member ids other → result = other :=
    found.deterministic fun _ _ => lists.contains_asymm
  constructor
  case unknown =>
    constructor
    · rintro rfl
      cases found with
      | unknown none => exact none
    · exact fun none => same (.unknown none)
  case onlyUnknown =>
    rintro fault rfl
    cases found with
    | unknown => rfl
  case unique =>
    intro winner
    constructor
    · rintro rfl
      cases found with
      | unique isSite only => exact ⟨isSite, only⟩
    · rintro ⟨isSite, only⟩
      exact same (.unique isSite only)
  case hidden =>
    intro winner shadowed
    constructor
    · rintro rfl
      cases found with
      | hidden isSite several dominates others => exact ⟨isSite, several, dominates, others⟩
    · rintro ⟨isSite, several, dominates, others⟩
      exact same (.hidden isSite several dominates others)
  case ambiguous =>
    intro candidates
    constructor
    · rintro rfl
      cases found with
      | ambiguous several undecided free => exact ⟨several, undecided, free⟩
    · rintro ⟨several, undecided, free⟩
      exact same (.ambiguous several undecided free)
  case several =>
    rintro candidates rfl
    cases found with
    | ambiguous several undecided free =>
        constructor
        · by_contra few
          match candidates with
          | [] =>
              obtain ⟨id, inside⟩ := several.nonempty
              obtain ⟨winner, outermost, _⟩ := lists.exists_outermost inLayout inside
              rw [free.eq_nil_iff.mp rfl] at outermost
              exact Set.notMem_empty winner outermost
          | [site] => exact undecided _ (lists.dominates_of_outermost inLayout free.eq_singleton)
          | _ :: _ :: _ => simp at few
        · intro id inside
          obtain ⟨winner, outermost, reached⟩ := lists.exists_outermost inLayout inside
          obtain ⟨site, listed, rfl⟩ := free.complete winner outermost
          exact ⟨site, listed, reached⟩
  case matched =>
    rintro rfl
    cases found

end Layout

namespace ClassTable

variable {table : ClassTable}

theorem declarers_eq_empty_iff {layout : Layout} {root member : String}
    (lists : layout.ListsChains table (table.chainsOf root)) :
    layout.declarers table member = ∅ ↔
      ∀ className, table.Inherits root className → ¬ table.Declares className member := by
  rw [Set.eq_empty_iff_forall_notMem]
  constructor
  · intro none className inherits declares
    obtain ⟨chain, listed, rfl⟩ := List.mem_map.mp (mem_map_leaf_iff.mpr inherits)
    obtain ⟨part, partAt, _, named, _⟩ := lists.part _ _ (List.getElem?_idxOf listed)
    exact none _ ⟨part, partAt, named ▸ declares⟩
  · rintro none id ⟨part, partAt, declares⟩
    obtain ⟨chain, found, _, named, _⟩ := lists.chain partAt
    have listed := List.mem_map_of_mem (f := Chain.leaf) (List.mem_of_getElem? found)
    exact none part.className (named ▸ mem_map_leaf_iff.mp listed) declares

/-- A lookup decides by dominance among the declaring sub-objects, and fails exactly where no class
of the hierarchy declares the member. -/
theorem lookup_dominance (reachable : Reachable table) {name : String}
    (registered : table.contains name = true) (member : String) :
    ∃ layout ancestry, table.layout name = .ok layout ∧ table.ancestry name = .ok ancestry ∧
      layout.className = name ∧
      layout.LookupByDominance member (layout.declarers table member)
        (table.lookup layout member) ∧
      (layout.declarers table member = ∅ ↔
        ∀ className ∈ name :: ancestry.ancestors, ¬ table.Declares className member) := by
  have lists := layoutOf_listsChains reachable.wellFormed name
  obtain ⟨ancestry, climbed, walked⟩ := ancestry_eq registered
  refine ⟨table.layoutOf name, ancestry, layout_eq_ok_iff.mpr ⟨registered, rfl⟩, climbed, rfl,
    ?_, ?_⟩
  · exact (lists.lookup_case reachable.wellFormed member).byDominance lists
      (Layout.declarers_inLayout _ _ _)
  · rw [declarers_eq_empty_iff lists, walked]
    simp only [Descent.mem_preorder_iff]
    rfl

theorem lookup_dominance_mixed : mixed.Reachable ∧ mixed.contains "D" = true ∧
    ∃ layout, mixed.layout "D" = .ok layout ∧
      mixed.lookup layout "m" = .ok (.ambiguous [⟨1, "B", "m"⟩, ⟨5, "A", "m"⟩]) ∧
      ∀ winner, ¬ layout.Dominates (layout.declarers mixed "m") winner := by
  have registered : mixed.contains "D" = true := by cbv
  obtain ⟨layout, _, found, _, _, decided, _⟩ := lookup_dominance reachable_mixed registered "m"
  obtain ⟨_, computed⟩ := layout_eq_ok_iff.mp found
  have ambiguous : mixed.lookup layout "m" = .ok (.ambiguous [⟨1, "B", "m"⟩, ⟨5, "A", "m"⟩]) := by
    rw [← computed]
    cbv
  exact ⟨reachable_mixed, registered, layout, found, ambiguous,
    ((decided.ambiguous _).mp ambiguous).2.1⟩

end ClassTable

end StaticResolution

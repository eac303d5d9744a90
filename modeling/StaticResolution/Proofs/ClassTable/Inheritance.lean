import StaticResolution.Proofs.ClassTable.Register
import StaticResolution.Proofs.Preorder

/-!
Inheritance as a relation between names, and the ancestry of a class as the walk along it. Each
class that the walk meets for the first time gets all of its base clauses listed as links, once and
in their order.
-/

namespace StaticResolution

namespace ClassTable

def inheritance (table : ClassTable) : Descent String where
  next name := (table.basesOf name).map Base.name
  rank := table.rank
  rank_lt := by
    intro name below listed
    obtain ⟨base, clause, rfl⟩ := List.mem_map.mp listed
    exact table.rank_lt clause

def Inherits (table : ClassTable) : String → String → Prop :=
  table.inheritance.Reaches

theorem mem_inheritance_next {table : ClassTable} {name : String} {base : Base}
    (listed : base ∈ table.basesOf name) : base.name ∈ table.inheritance.next name :=
  List.mem_map_of_mem listed

theorem Inherits.contains {table : ClassTable} {derived name : String}
    (inherits : table.Inherits derived name) (registered : table.contains derived = true) :
    table.contains name = true := by
  induction inherits with
  | refl => exact registered
  | tail _ step _ =>
      obtain ⟨base, listed, rfl⟩ := List.mem_map.mp step
      exact contains_of_mem_basesOf listed

def HasBase (table : ClassTable) (derived base : String) : Prop :=
  ∃ clause ∈ table.basesOf derived, clause.name = base

theorem transGen_hasBase_iff {table : ClassTable} {derived base : String} :
    Relation.TransGen table.HasBase derived base ↔
      table.Inherits derived base ∧ derived ≠ base := by
  have steps : table.HasBase = fun above below => below ∈ table.inheritance.next above := by
    funext above below
    exact propext List.mem_map.symm
  rw [steps]
  constructor
  · intro way
    refine ⟨way.to_reflTransGen, ?_⟩
    rintro rfl
    obtain ⟨middle, before, step⟩ := Relation.TransGen.tail'_iff.mp way
    have lower : table.rank derived < table.rank middle := table.inheritance.rank_lt step
    have upper : table.rank middle ≤ table.rank derived := Descent.Reaches.rank_le before
    omega
  · rintro ⟨inherits, differ⟩
    exact (Relation.reflTransGen_iff_eq_or_transGen.mp inherits).resolve_left differ.symm

def climbOver (table : ClassTable) (name : String) (met : Ancestry) (base : Base) : Ancestry :=
  let linked := met.addLink ⟨name, base.name, base.isVirtual⟩
  if met.contains base.name then linked
  else table.climb (linked.addAncestor base.name) base.name

theorem climb_eq_foldl (table : ClassTable) (met : Ancestry) (name : String) :
    table.climb met name = (table.basesOf name).foldl (table.climbOver name) met :=
  table.climb_eq met name

theorem climb_root (table : ClassTable) (name : String) (met : Ancestry) :
    (table.climb met name).root = met.root := by
  induction name using table.inheritance.induction generalizing met with
  | step name ih =>
      rw [climb_eq_foldl]
      apply List.foldlRecOn (motive := fun now : Ancestry => now.root = met.root) _ _ rfl
      intro now same base listed
      unfold climbOver
      split
      · exact same
      · rw [ih base.name (mem_inheritance_next listed)]
        exact same

theorem climb_ancestors (table : ClassTable) (name : String) (met : Ancestry)
    (apart : ∀ below, table.Inherits name below → below ≠ name → below ≠ met.root) :
    met.root :: (table.climb met name).ancestors =
      table.inheritance.visitAll (met.root :: met.ancestors) (table.inheritance.next name) := by
  induction name using table.inheritance.induction generalizing met with
  | step name ih =>
      rw [climb_eq_foldl]
      suffices folded : ∀ clauses ⊆ table.basesOf name, ∀ now : Ancestry, now.root = met.root →
          met.root :: (clauses.foldl (table.climbOver name) now).ancestors =
            table.inheritance.visitAll (met.root :: now.ancestors) (clauses.map Base.name) from
        folded _ (List.Subset.refl _) met rfl
      intro clauses
      induction clauses with
      | nil => exact fun _ _ _ => rfl
      | cons base rest walkRest =>
          intro inside now root
          obtain ⟨listed, inRest⟩ := List.cons_subset.mp inside
          have below := mem_inheritance_next listed
          have reach : table.Inherits name base.name := .single below
          have differs : base.name ≠ name := by
            intro same
            have lower := table.rank_lt listed
            rw [same] at lower
            exact Nat.lt_irrefl _ lower
          have notRoot := apart base.name reach differs
          rw [List.foldl_cons, List.map_cons, Descent.visitAll_cons]
          by_cases known : now.contains base.name = true
          · have listedNow : base.name ∈ now.ancestors := by
              simpa [Ancestry.contains] using known
            rw [Descent.visit_of_mem _ (List.mem_cons_of_mem _ listedNow), climbOver, if_pos known]
            exact walkRest inRest _ root
          · have fresh : base.name ∉ met.root :: now.ancestors := by
              simpa [Ancestry.contains, notRoot] using known
            let grown := (now.addLink ⟨name, base.name, base.isVirtual⟩).addAncestor base.name
            have climbed := ih base.name below grown (by
              intro lower further _
              refine (apart lower (.head below further) ?_).trans_eq root.symm
              rintro rfl
              exact differs (further.antisymm reach))
            have climbedRoot : (table.climb grown base.name).root = met.root :=
              (table.climb_root base.name grown).trans root
            have grownRoot : grown.root = met.root := root
            rw [grownRoot] at climbed
            rw [Descent.visit_of_not_mem _ fresh, climbOver, if_neg known,
              walkRest inRest _ climbedRoot, climbed]
            rfl

theorem ancestry_eq {table : ClassTable} {name : String}
    (registered : table.contains name = true) :
    ∃ ancestry, table.ancestry name = .ok ancestry ∧
      name :: ancestry.ancestors = table.inheritance.preorder name := by
  refine ⟨table.climb { root := name } name, ?_, ?_⟩
  · rw [ancestry, if_pos registered]
  · rw [Descent.preorder_eq_cons]
    exact table.climb_ancestors name { root := name } fun _ _ differs => differs

theorem contains_of_ancestry {table : ClassTable} {name : String} {ancestry : Ancestry}
    (climbed : table.ancestry name = .ok ancestry) : table.contains name = true := by
  by_contra absent
  rw [ClassTable.ancestry, if_neg absent] at climbed
  cases climbed

theorem mem_ancestry_iff {table : ClassTable} {name : String} {ancestry : Ancestry}
    (climbed : table.ancestry name = .ok ancestry) {other : String} :
    other ∈ name :: ancestry.ancestors ↔ table.Inherits name other := by
  obtain ⟨_, again, walked⟩ := ancestry_eq (contains_of_ancestry climbed)
  cases climbed.symm.trans again
  rw [walked, Descent.mem_preorder_iff]
  rfl

def AgreesAt (table other : ClassTable) (name : String) : Prop :=
  ∀ below, table.Inherits name below → other.find? below = table.find? below

namespace AgreesAt

variable {table other : ClassTable} {name : String}

theorem basesOf_eq (agrees : AgreesAt table other name) :
    other.basesOf name = table.basesOf name := by
  rw [basesOf, agrees name .refl]
  rfl

theorem contains_eq (agrees : AgreesAt table other name) :
    other.contains name = table.contains name := by
  have same := agrees name .refl
  rw [Bool.eq_iff_iff, ← Bool.not_eq_false, ← Bool.not_eq_false, ← find?_eq_none_iff,
    ← find?_eq_none_iff, same]

theorem below (agrees : AgreesAt table other name) {base : Base}
    (listed : base ∈ table.basesOf name) : AgreesAt table other base.name :=
  fun lower inherits => agrees lower (.head (mem_inheritance_next listed) inherits)

theorem climb_eq (agrees : AgreesAt table other name) (met : Ancestry) :
    other.climb met name = table.climb met name := by
  induction name using table.inheritance.induction generalizing met with
  | step name ih =>
      rw [climb_eq_foldl, climb_eq_foldl, agrees.basesOf_eq]
      apply List.foldl_ext
      intro now base listed
      simp only [climbOver, ih base.name (mem_inheritance_next listed) (agrees.below listed)]

theorem ancestry_eq (agrees : AgreesAt table other name) :
    other.ancestry name = table.ancestry name := by
  rw [ancestry, ancestry, agrees.contains_eq, agrees.climb_eq]

end AgreesAt

end ClassTable

def Base.linkFrom (derived : String) (base : Base) : Link :=
  { derived := derived, base := base.name, isVirtual := base.isVirtual }

namespace Ancestry

def linksFrom (ancestry : Ancestry) (derived : String) : List Link :=
  ancestry.links.filter fun link => link.derived == derived

def MeetsInOrder (ancestry : Ancestry) : Prop :=
  ancestry.ancestors = (ancestry.links.map Link.base).eraseDups

variable {ancestry : Ancestry}

theorem mem_linksFrom_iff {derived : String} {link : Link} :
    link ∈ ancestry.linksFrom derived ↔ link ∈ ancestry.links ∧ link.derived = derived := by
  simp [linksFrom]

theorem linksFrom_addLink_self (ancestry : Ancestry) (derived : String) (base : Base) :
    (ancestry.addLink (base.linkFrom derived)).linksFrom derived =
      ancestry.linksFrom derived ++ [base.linkFrom derived] := by
  simp [linksFrom, addLink, Base.linkFrom]

theorem linksFrom_addLink_of_ne {link : Link} {derived : String} (other : link.derived ≠ derived) :
    (ancestry.addLink link).linksFrom derived = ancestry.linksFrom derived := by
  simp [linksFrom, addLink, other]

theorem MeetsInOrder.addLink (meets : ancestry.MeetsInOrder) {link : Link}
    (known : link.base ∈ ancestry.ancestors) : (ancestry.addLink link).MeetsInOrder := by
  unfold MeetsInOrder at meets ⊢
  rw [meets, List.mem_eraseDups] at known
  change ancestry.ancestors = ((ancestry.links ++ [link]).map Link.base).eraseDups
  rw [List.map_append, eraseDups_append_of_subset (by simpa using known), meets]

theorem MeetsInOrder.addAncestor (meets : ancestry.MeetsInOrder) {link : Link}
    (fresh : link.base ∉ ancestry.ancestors) :
    ((ancestry.addLink link).addAncestor link.base).MeetsInOrder := by
  unfold MeetsInOrder at meets ⊢
  rw [meets, List.mem_eraseDups] at fresh
  change ancestry.ancestors ++ [link.base] = ((ancestry.links ++ [link]).map Link.base).eraseDups
  rw [List.map_append, List.map_singleton, eraseDups_concat fresh, meets]

end Ancestry

namespace ClassTable

def linksAt (table : ClassTable) (derived : String) : List Link :=
  (table.basesOf derived).map (Base.linkFrom derived)

/-- The link stands for a base clause of a class that can be reached from the name. -/
def HasLink (table : ClassTable) (name : String) (link : Link) : Prop :=
  table.Inherits name link.derived ∧ ∃ base ∈ table.basesOf link.derived,
    base.linkFrom link.derived = link

/-- What a walk over some clauses of a class adds to what was met before. All that it meets lies
lower than the class, so that the walk adds no links of the class but those of the clauses. -/
structure Climbs (table : ClassTable) (name : String) (clauses : List Base)
    (met result : Ancestry) : Prop where
  ancestors : met.ancestors ⊆ result.ancestors
  lower : ∀ derived ∈ result.ancestors, derived ∉ met.ancestors →
    table.rank derived < table.rank name
  own : result.linksFrom name = met.linksFrom name ++ clauses.map (Base.linkFrom name)
  below : ∀ derived ∈ result.ancestors, derived ∉ met.ancestors →
    result.linksFrom derived = met.linksFrom derived ++ table.linksAt derived
  rest : ∀ derived, derived ≠ name → (derived ∈ result.ancestors → derived ∈ met.ancestors) →
    result.linksFrom derived = met.linksFrom derived
  inOrder : met.MeetsInOrder → result.MeetsInOrder

namespace Climbs

variable {table : ClassTable} {name : String} {met middle result : Ancestry}

theorem refl : Climbs table name [] met met where
  ancestors := List.Subset.refl _
  lower := fun _ listed unmet => absurd listed unmet
  own := by simp
  below := fun _ listed unmet => absurd listed unmet
  rest := fun _ _ _ => rfl
  inOrder := id

theorem ne_of_lower {clauses : List Base} (climbs : Climbs table name clauses met result)
    {derived : String} (listed : derived ∈ result.ancestors) (unmet : derived ∉ met.ancestors) :
    derived ≠ name := by
  rintro rfl
  have deeper := climbs.lower _ listed unmet
  omega

theorem trans {front back : List Base} (early : Climbs table name front met middle)
    (late : Climbs table name back middle result) :
    Climbs table name (front ++ back) met result where
  ancestors := List.Subset.trans early.ancestors late.ancestors
  lower := by
    intro derived listed unmet
    by_cases inMiddle : derived ∈ middle.ancestors
    · exact early.lower derived inMiddle unmet
    · exact late.lower derived listed inMiddle
  own := by rw [late.own, early.own, List.map_append, List.append_assoc]
  below := by
    intro derived listed unmet
    by_cases inMiddle : derived ∈ middle.ancestors
    · rw [late.rest derived (early.ne_of_lower inMiddle unmet) fun _ => inMiddle,
        early.below derived inMiddle unmet]
    · rw [late.below derived listed inMiddle,
        early.rest derived (late.ne_of_lower listed inMiddle) fun inside => absurd inside inMiddle]
  rest := by
    intro derived other unchanged
    rw [late.rest derived other fun inside => early.ancestors (unchanged inside),
      early.rest derived other fun inside => unchanged (late.ancestors inside)]
  inOrder := fun meets => late.inOrder (early.inOrder meets)

theorem known {base : Base} (listed : base.name ∈ met.ancestors) :
    Climbs table name [base] met (met.addLink (base.linkFrom name)) where
  ancestors := List.Subset.refl _
  lower := fun _ inside unmet => absurd inside unmet
  own := met.linksFrom_addLink_self name base
  below := fun _ inside unmet => absurd inside unmet
  rest := fun _ other _ => Ancestry.linksFrom_addLink_of_ne other.symm
  inOrder := fun meets => meets.addLink listed

theorem fresh {base : Base} (listed : base ∈ table.basesOf name)
    (unmet : base.name ∉ met.ancestors)
    (climbed : Climbs table base.name (table.basesOf base.name)
      ((met.addLink (base.linkFrom name)).addAncestor base.name) result) :
    Climbs table name [base] met result := by
  have under := table.rank_lt listed
  have reached : base.name ∈ result.ancestors := climbed.ancestors (by simp [Ancestry.addAncestor])
  have grown : ∀ {derived}, derived ≠ base.name → derived ∉ met.ancestors →
      derived ∉ ((met.addLink (base.linkFrom name)).addAncestor base.name).ancestors := by
    intro derived other outside
    simpa [Ancestry.addAncestor, Ancestry.addLink, other] using outside
  have older : ∀ {derived}, derived ≠ name →
      ((met.addLink (base.linkFrom name)).addAncestor base.name).linksFrom derived =
        met.linksFrom derived := fun other => Ancestry.linksFrom_addLink_of_ne other.symm
  have lower : ∀ derived ∈ result.ancestors, derived ∉ met.ancestors →
      table.rank derived < table.rank name := by
    intro derived inside outside
    by_cases same : derived = base.name
    · rwa [same]
    · have deeper := climbed.lower derived inside (grown same outside)
      omega
  have apart : ∀ derived ∈ result.ancestors, derived ∉ met.ancestors → derived ≠ name := by
    rintro _ inside outside rfl
    have deeper := lower _ inside outside
    omega
  constructor
  case ancestors => exact List.Subset.trans (List.subset_append_left _ _) climbed.ancestors
  case lower => exact lower
  case own =>
    rw [climbed.rest name]
    · exact met.linksFrom_addLink_self name base
    · intro same
      rw [← same] at under
      omega
    · intro inside
      by_contra outside
      have above := climbed.lower name inside outside
      omega
  case below =>
    intro derived inside outside
    have differ := apart derived inside outside
    by_cases same : derived = base.name
    · rw [same] at differ ⊢
      rw [climbed.own, older differ, linksAt]
    · rw [climbed.below derived inside (grown same outside), older differ]
  case rest =>
    intro derived differ unchanged
    have other : derived ≠ base.name := by
      rintro rfl
      exact unmet (unchanged reached)
    rw [climbed.rest derived other, older differ]
    exact fun inside => List.mem_append_left _ (unchanged inside)
  case inOrder =>
    have base_eq : (base.linkFrom name).base = base.name := rfl
    exact fun meets => climbed.inOrder (meets.addAncestor (base_eq ▸ unmet))

end Climbs

theorem climbs_climb (table : ClassTable) (name : String) (met : Ancestry) :
    Climbs table name (table.basesOf name) met (table.climb met name) := by
  induction name using table.inheritance.induction generalizing met with
  | step name ih =>
      rw [climb_eq_foldl]
      suffices folded : ∀ clauses ⊆ table.basesOf name, ∀ now,
          Climbs table name clauses now (clauses.foldl (table.climbOver name) now) from
        folded _ (List.Subset.refl _) met
      intro clauses
      induction clauses with
      | nil => exact fun _ _ => .refl
      | cons base rest walkRest =>
          intro inside now
          obtain ⟨listed, inRest⟩ := List.cons_subset.mp inside
          have first : Climbs table name [base] now (table.climbOver name now base) := by
            unfold climbOver
            split
            next met => exact .known (by simpa [Ancestry.contains] using met)
            next unmet =>
              exact .fresh listed (by simpa [Ancestry.contains] using unmet)
                (ih base.name (mem_inheritance_next listed) _)
          exact first.trans (walkRest inRest _)

section Ancestry

variable {table : ClassTable} {name : String} {ancestry : Ancestry}

theorem climbs_ancestry (climbed : table.ancestry name = .ok ancestry) :
    Climbs table name (table.basesOf name) { root := name } ancestry := by
  rw [ClassTable.ancestry, if_pos (contains_of_ancestry climbed), Except.ok.injEq] at climbed
  rw [← climbed]
  exact table.climbs_climb name _

theorem root_ancestry (climbed : table.ancestry name = .ok ancestry) : ancestry.root = name := by
  rw [ClassTable.ancestry, if_pos (contains_of_ancestry climbed), Except.ok.injEq] at climbed
  rw [← climbed, climb_root]

theorem nodup_ancestry (climbed : table.ancestry name = .ok ancestry) :
    (name :: ancestry.ancestors).Nodup := by
  obtain ⟨_, again, walked⟩ := ancestry_eq (contains_of_ancestry climbed)
  cases climbed.symm.trans again
  rw [walked]
  exact table.inheritance.nodup_preorder name

theorem linksFrom_ancestry (climbed : table.ancestry name = .ok ancestry) {derived : String}
    (inherits : table.Inherits name derived) :
    ancestry.linksFrom derived = table.linksAt derived := by
  have climbs := climbs_ancestry climbed
  rcases List.mem_cons.mp ((mem_ancestry_iff climbed).mpr inherits) with rfl | listed
  · exact climbs.own
  · exact climbs.below derived listed List.not_mem_nil

theorem inherits_of_mem_links (climbed : table.ancestry name = .ok ancestry) {link : Link}
    (listed : link ∈ ancestry.links) : table.Inherits name link.derived := by
  rw [← mem_ancestry_iff climbed]
  by_contra unmet
  obtain ⟨differ, unlisted⟩ := not_or.mp (mt List.mem_cons.mpr unmet)
  have none := (climbs_ancestry climbed).rest link.derived differ fun inside =>
    absurd inside unlisted
  have inside := Ancestry.mem_linksFrom_iff.mpr ⟨listed, rfl⟩
  rw [none] at inside
  exact absurd inside List.not_mem_nil

theorem mem_links_iff (climbed : table.ancestry name = .ok ancestry) {link : Link} :
    link ∈ ancestry.links ↔ table.HasLink name link := by
  have here : table.Inherits name link.derived →
      (link ∈ ancestry.links ↔ link ∈ table.linksAt link.derived) := by
    intro inherits
    rw [← linksFrom_ancestry climbed inherits, Ancestry.mem_linksFrom_iff, and_iff_left rfl]
  constructor
  · intro listed
    have inherits := inherits_of_mem_links climbed listed
    exact ⟨inherits, List.mem_map.mp ((here inherits).mp listed)⟩
  · rintro ⟨inherits, clause⟩
    exact (here inherits).mpr (List.mem_map.mpr clause)

theorem exists_ancestry (registered : table.contains name = true) :
    ∃ ancestry, table.ancestry name = .ok ancestry ∧
      (∀ ancestor, ancestor ∈ ancestry.ancestors ↔
        ancestor ≠ name ∧ table.Inherits name ancestor) ∧
      ∀ link, link ∈ ancestry.links ↔ table.HasLink name link := by
  obtain ⟨ancestry, climbed, _⟩ := ancestry_eq registered
  refine ⟨ancestry, climbed, ?_, fun _ => mem_links_iff climbed⟩
  intro ancestor
  rw [← mem_ancestry_iff climbed, List.mem_cons]
  constructor
  · intro listed
    refine ⟨?_, .inr listed⟩
    rintro rfl
    exact (List.nodup_cons.mp (nodup_ancestry climbed)).1 listed
  · rintro ⟨differ, listed⟩
    exact listed.resolve_left differ

theorem nodup_links (formed : table.WellFormed) (climbed : table.ancestry name = .ok ancestry) :
    ancestry.links.Nodup := by
  rw [List.nodup_iff_count_le_one]
  intro link
  by_cases listed : link ∈ ancestry.links
  · have inherits := inherits_of_mem_links climbed listed
    have distinct : (table.linksAt link.derived).Nodup := by
      apply List.Nodup.of_map Link.base
      rw [linksAt, List.map_map]
      exact formed.distinct_basesOf link.derived
    rw [← linksFrom_ancestry climbed inherits] at distinct
    rw [← List.count_filter (p := fun other => other.derived == link.derived) (beq_self_eq_true _)]
    exact List.nodup_iff_count_le_one.mp distinct link
  · rw [List.count_eq_zero_of_not_mem listed]
    exact Nat.zero_le _

end Ancestry

end ClassTable

end StaticResolution

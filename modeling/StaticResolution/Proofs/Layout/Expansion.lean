import Mathlib
import StaticResolution.Layout
import StaticResolution.Proofs.ClassTable.Inheritance

/-!
Chains name the sub-objects of an object: they start at the complete object or at a shared virtual
base and go down non-virtual bases only. The walk that places sub-objects lists the same chains, in
the same order, as the pre-order walk along chains.
-/

namespace StaticResolution

/-- The class of a sub-object, and the classes of the sub-objects around it, the nearest first. -/
structure Chain where
  leaf : String
  enclosing : List String
deriving DecidableEq

namespace Chain

def single (name : String) : Chain :=
  { leaf := name, enclosing := [] }

/-- The sub-object for a base clause of the leaf. All clauses that name a virtual base share one. -/
def extend (chain : Chain) (base : Base) : Chain :=
  if base.isVirtual then single base.name
  else { leaf := base.name, enclosing := chain.leaf :: chain.enclosing }

@[simp] theorem leaf_extend (chain : Chain) (base : Base) :
    (chain.extend base).leaf = base.name := by
  unfold extend
  split <;> rfl

@[simp] theorem leaf_single (name : String) : (single name).leaf = name := rfl

@[simp] theorem enclosing_single (name : String) : (single name).enclosing = [] := rfl

theorem extend_virtual (chain : Chain) {base : Base} (shared : base.isVirtual = true) :
    chain.extend base = single base.name := by
  rw [extend, if_pos shared]

theorem extend_nonvirtual (chain : Chain) {base : Base} (own : base.isVirtual = false) :
    chain.extend base = ⟨base.name, chain.leaf :: chain.enclosing⟩ := by
  rw [extend, own]
  rfl

theorem isEmpty_enclosing_extend (chain : Chain) (base : Base) :
    (chain.extend base).enclosing.isEmpty = base.isVirtual := by
  cases shared : base.isVirtual with
  | true => rw [extend_virtual _ shared]; rfl
  | false => rw [extend_nonvirtual _ shared]; rfl

theorem eq_single_of_enclosing {chain : Chain} (alone : chain.enclosing = []) :
    chain = single chain.leaf := by
  cases chain
  cases alone
  rfl

theorem extend_inj {first second : Chain} {base other : Base} (own : base.isVirtual = false)
    (same : first.extend base = second.extend other) : first = second ∧ base = other := by
  have otherOwn : other.isVirtual = false := by
    rw [← isEmpty_enclosing_extend second, ← same, isEmpty_enclosing_extend, own]
  rw [extend_nonvirtual _ own, extend_nonvirtual _ otherOwn] at same
  cases first
  cases second
  cases base
  cases other
  simp_all

end Chain

namespace ClassTable

def chains (table : ClassTable) : Descent Chain where
  next chain := (table.basesOf chain.leaf).map chain.extend
  rank chain := table.rank chain.leaf
  rank_lt := by
    intro chain part listed
    obtain ⟨base, clause, rfl⟩ := List.mem_map.mp listed
    rw [Chain.leaf_extend]
    exact table.rank_lt clause

variable {table : ClassTable}

theorem mem_chains_next {chain part : Chain} :
    part ∈ table.chains.next chain ↔ ∃ base ∈ table.basesOf chain.leaf, chain.extend base = part :=
  List.mem_map

theorem extend_mem_next {chain : Chain} {base : Base} (listed : base ∈ table.basesOf chain.leaf) :
    chain.extend base ∈ table.chains.next chain :=
  mem_chains_next.mpr ⟨base, listed, rfl⟩

theorem inheritance_next_leaf (chain : Chain) :
    table.inheritance.next chain.leaf = (table.chains.next chain).map Chain.leaf := by
  change (table.basesOf chain.leaf).map Base.name =
    ((table.basesOf chain.leaf).map chain.extend).map Chain.leaf
  simp only [List.map_map, Function.comp_def, Chain.leaf_extend]

theorem inherits_of_reaches {outer inner : Chain} (reach : table.chains.Reaches outer inner) :
    table.Inherits outer.leaf inner.leaf :=
  Descent.Reaches.map inheritance_next_leaf reach

theorem leaf_ne_of_next {outer inner part : Chain} (reach : table.chains.Reaches outer inner)
    (step : part ∈ table.chains.next inner) : part.leaf ≠ outer.leaf := by
  intro same
  have lower : table.rank part.leaf < table.rank inner.leaf := table.chains.rank_lt step
  have upper : table.rank inner.leaf ≤ table.rank outer.leaf := reach.rank_le
  rw [same] at lower
  omega

theorem extend_eq_of_reaches {chain : Chain} {first second : Base}
    (listed : first ∈ table.basesOf chain.leaf) (own : second.isVirtual = false)
    (reach : table.chains.Reaches (chain.extend first) (chain.extend second)) :
    chain.extend first = chain.extend second := by
  generalize target : chain.extend second = part at reach
  cases reach with
  | refl => rfl
  | tail before step =>
      obtain ⟨base, clause, extended⟩ := mem_chains_next.mp step
      obtain ⟨rfl, _⟩ := Chain.extend_inj own (target.trans extended.symm)
      have around : table.chains.Reaches chain (chain.extend first) :=
        .single (extend_mem_next listed)
      have lower := table.chains.rank_lt (extend_mem_next listed)
      have upper : table.chains.rank chain ≤ table.chains.rank (chain.extend first) :=
        Descent.Reaches.rank_le before
      omega

end ClassTable

namespace Draft

def partsOf (draft : Draft) (id : Nat) : List Nat :=
  draft.parts.getD id []

@[simp] theorem partsOf_size (draft : Draft) : draft.partsOf draft.size = [] := by
  simp [partsOf, size]

@[simp] theorem size_link (draft : Draft) (outer inner : Nat) :
    (draft.link outer inner).size = draft.size := by
  simp [link, size]

theorem partsOf_link_self (draft : Draft) {outer : Nat} (inner : Nat)
    (placed : outer < draft.size) :
    (draft.link outer inner).partsOf outer = draft.partsOf outer ++ [inner] := by
  have inside : outer < draft.parts.length := placed
  simp [partsOf, link, List.getD, inside]

theorem partsOf_link_of_ne (draft : Draft) {outer id : Nat} (inner : Nat) (other : id ≠ outer) :
    (draft.link outer inner).partsOf id = draft.partsOf id := by
  simp [partsOf, link, List.getD, Ne.symm other]

@[simp] theorem size_place (draft : Draft) (outer : Nat) (base : Base) :
    (draft.place outer base).size = draft.size + 1 := by
  simp [place, link, size]

@[simp] theorem bases_place (draft : Draft) (outer : Nat) (base : Base) :
    (draft.place outer base).bases = draft.bases ++ [⟨base.name, base.isVirtual, outer⟩] := rfl

theorem shared_place (draft : Draft) (outer : Nat) (base : Base) :
    (draft.place outer base).shared =
      if base.isVirtual then draft.shared ++ [(base.name, draft.size)] else draft.shared := rfl

theorem partsOf_place_self (draft : Draft) {outer : Nat} (base : Base)
    (placed : outer < draft.size) :
    (draft.place outer base).partsOf outer = draft.partsOf outer ++ [draft.size] := by
  have inside : outer < draft.parts.length := placed
  unfold place
  rw [partsOf_link_self _ _ (by simp [size]; omega)]
  simp [partsOf, List.getD, List.getElem?_append_left inside]

theorem partsOf_place_of_ne (draft : Draft) {outer id : Nat} (base : Base) (other : id ≠ outer) :
    (draft.place outer base).partsOf id = draft.partsOf id := by
  unfold place
  rw [partsOf_link_of_ne _ _ other]
  by_cases inside : id < draft.parts.length
  · simp [partsOf, List.getD, List.getElem?_append_left inside]
  · by_cases last : id = draft.parts.length
    · simp [partsOf, List.getD, last]
    · have absent : draft.parts[id]? = none := List.getElem?_eq_none (by omega)
      have absentStill : (draft.parts ++ [[]])[id]? = none :=
        List.getElem?_eq_none (by rw [List.length_append, List.length_singleton]; omega)
      simp only [partsOf, List.getD, absent, absentStill]

end Draft

/-- A draft lists chains: the sub-object with an id is the chain in that place. -/
structure Draft.Lists (table : ClassTable) (root : String) (draft : Draft) (seen : List Chain) :
    Prop where
  size : draft.size = seen.length
  start : seen[0]? = some (.single root)
  bases : draft.bases.map (fun placed => (placed.className, placed.isVirtual)) =
    seen.tail.map fun chain => (chain.leaf, chain.enclosing.isEmpty)
  parents : ∀ position placed, draft.bases[position]? = some placed →
    placed.parent ≤ position ∧ ∃ around inside, seen[placed.parent]? = some around ∧
      seen[position + 1]? = some inside ∧ inside ∈ table.chains.next around
  shared : ∀ name, name ≠ root → draft.shared.lookup name =
    if .single name ∈ seen then some (seen.idxOf (.single name)) else none
  enclosed : ∀ chain base, base.isVirtual = false → chain.extend base ∈ seen → chain ∈ seen

namespace Draft.Lists

variable {table : ClassTable} {root : String} {draft : Draft} {seen : List Chain}

theorem initial : Lists table root {} [.single root] where
  size := rfl
  start := rfl
  bases := rfl
  parents := by simp
  shared := by
    intro name other
    simp [Chain.single, other]
  enclosed := by
    intro chain base own member
    have alone := List.mem_singleton.mp member
    have empty := Chain.isEmpty_enclosing_extend chain base
    rw [alone, own] at empty
    simp at empty

theorem link (lists : Lists table root draft seen) (outer inner : Nat) :
    Lists table root (draft.link outer inner) seen where
  size := by rw [size_link]; exact lists.size
  start := lists.start
  bases := lists.bases
  parents := lists.parents
  shared := lists.shared
  enclosed := lists.enclosed

theorem count (lists : Lists table root draft seen) : draft.bases.length + 1 = seen.length := by
  have positive := (List.getElem?_eq_some_iff.mp lists.start).1
  have lengths := congrArg List.length lists.bases
  simp only [List.length_map, List.length_tail] at lengths
  omega

theorem place (lists : Lists table root draft seen) {outer : Nat} {chain : Chain} {base : Base}
    (around : seen[outer]? = some chain) (listed : base ∈ table.basesOf chain.leaf)
    (fresh : chain.extend base ∉ seen) :
    Lists table root (draft.place outer base) (seen ++ [chain.extend base]) where
  size := by simp [lists.size]
  start := by
    have positive := (List.getElem?_eq_some_iff.mp lists.start).1
    rw [List.getElem?_append_left positive]
    exact lists.start
  bases := by
    have nonempty : seen ≠ [] := by
      rintro rfl
      simp at around
    simp [List.tail_append_of_ne_nil nonempty, lists.bases, Chain.isEmpty_enclosing_extend]
  parents := by
    intro position placed found
    have count := lists.count
    have inside := (List.getElem?_eq_some_iff.mp around).1
    rw [bases_place] at found
    by_cases old : position < draft.bases.length
    · rw [List.getElem?_append_left old] at found
      obtain ⟨early, outerChain, innerChain, outerAt, innerAt, step⟩ :=
        lists.parents position placed found
      refine ⟨early, outerChain, innerChain, ?_, ?_, step⟩
      · rw [List.getElem?_append_left (by omega), outerAt]
      · rw [List.getElem?_append_left (by omega), innerAt]
    · have last : position = draft.bases.length := by
        have bound := (List.getElem?_eq_some_iff.mp found).1
        rw [List.length_append, List.length_singleton] at bound
        omega
      subst last
      rw [List.getElem?_concat_length, Option.some.injEq] at found
      subst found
      refine ⟨by dsimp only; omega, chain, chain.extend base, ?_, ?_,
        ClassTable.extend_mem_next listed⟩
      · rw [List.getElem?_append_left inside, around]
      · rw [count, List.getElem?_concat_length]
  shared := by
    intro name other
    have known := lists.shared name other
    rw [shared_place]
    cases virtual : base.isVirtual with
    | false =>
        have differs : Chain.single name ≠ chain.extend base := by
          intro same
          have empty := Chain.isEmpty_enclosing_extend chain base
          rw [← same, virtual] at empty
          simp at empty
        rw [if_neg Bool.false_ne_true, known]
        by_cases member : Chain.single name ∈ seen
        · simp [member, List.idxOf_append_of_mem member]
        · simp [member, differs]
    | true =>
        rw [Chain.extend_virtual _ virtual] at fresh ⊢
        rw [if_pos rfl, List.lookup_append, known]
        by_cases same : name = base.name
        · subst same
          simp [fresh, List.idxOf_append, lists.size]
        · by_cases member : Chain.single name ∈ seen
          · simp [member, List.idxOf_append_of_mem member]
          · have unequal : (name == base.name) = false := by simpa using same
            have apart : Chain.single name ≠ Chain.single base.name := by
              simpa [Chain.single] using same
            simp [member, apart, List.lookup, unequal]
  enclosed := by
    intro other clause own member
    rcases List.mem_append.mp member with old | new
    · exact List.mem_append_left _ (lists.enclosed other clause own old)
    · obtain ⟨rfl, _⟩ := Chain.extend_inj own (List.mem_singleton.mp new)
      exact List.mem_append_left _ (List.mem_of_getElem? around)

theorem shared?_eq (lists : Lists table root draft seen) {chain : Chain} {base : Base}
    (notRoot : base.name ≠ root) (own : base.isVirtual = false → chain.extend base ∉ seen) :
    draft.shared? base =
      if chain.extend base ∈ seen then some (seen.idxOf (chain.extend base)) else none := by
  unfold shared?
  cases virtual : base.isVirtual with
  | false => rw [if_neg Bool.false_ne_true, if_neg (own virtual)]
  | true => rw [if_pos rfl, lists.shared _ notRoot, Chain.extend_virtual _ virtual]

end Draft.Lists

/-- The effect of walking some parts of a sub-object: the draft lists what a visit of these parts
meets, links the sub-object to them, leaves the parts of all others alone, and has all parts of what
is new. -/
structure Draft.Walked (table : ClassTable) (root : String) (outer : Nat) (parts : List Chain)
    (before : Draft) (seen : List Chain) (after : Draft) : Prop where
  lists : Lists table root after (table.chains.visitAll seen parts)
  kept : ∀ id < seen.length, id ≠ outer → after.partsOf id = before.partsOf id
  linked : after.partsOf outer =
    before.partsOf outer ++ parts.map (table.chains.visitAll seen parts).idxOf
  filled : ∀ id chain, seen.length ≤ id → (table.chains.visitAll seen parts)[id]? = some chain →
    after.partsOf id =
      (table.chains.next chain).map (table.chains.visitAll seen parts).idxOf

theorem idxOf_eq_of_front {front whole : List Chain} (early : front <+: whole) {chain : Chain}
    (member : chain ∈ front) : whole.idxOf chain = front.idxOf chain := by
  obtain ⟨rest, rfl⟩ := early
  exact List.idxOf_append_of_mem member

theorem not_mem_of_front {front whole : List Chain} (early : front <+: whole)
    (distinct : whole.Nodup) {id : Nat} {chain : Chain} (beyond : front.length ≤ id)
    (found : whole[id]? = some chain) : chain ∉ front := by
  obtain ⟨rest, rfl⟩ := early
  intro member
  rw [List.getElem?_append_right beyond] at found
  exact (List.nodup_append.mp distinct).2.2 chain member chain (List.mem_of_getElem? found) rfl

namespace Draft.Walked

variable {table : ClassTable} {root : String} {outer : Nat} {before middle after : Draft}
  {seen : List Chain}

theorem refl (lists : Lists table root before seen) :
    Walked table root outer [] before seen before where
  lists := lists
  kept _ _ _ := rfl
  linked := by simp
  filled id chain beyond found := by
    have inside := (List.getElem?_eq_some_iff.mp found).1
    rw [Descent.visitAll_nil] at inside
    omega

theorem trans {front back : List Chain} (distinct : seen.Nodup) (inside : outer < seen.length)
    (first : Walked table root outer front before seen middle)
    (second : Walked table root outer back middle (table.chains.visitAll seen front) after) :
    Walked table root outer (front ++ back) before seen after := by
  have split := table.chains.visitAll_append seen front back
  have early := table.chains.prefix_visitAll seen front
  have late := table.chains.prefix_visitAll (table.chains.visitAll seen front) back
  have sameIds : ∀ list ⊆ table.chains.visitAll seen front,
      list.map (table.chains.visitAll (table.chains.visitAll seen front) back).idxOf =
        list.map (table.chains.visitAll seen front).idxOf := by
    intro list subset
    apply List.map_congr_left
    exact fun chain listed => idxOf_eq_of_front late (subset listed)
  constructor
  · rw [split]
    exact second.lists
  · intro id bound other
    rw [second.kept id (Nat.lt_of_lt_of_le bound early.length_le) other, first.kept id bound other]
  · rw [second.linked, first.linked, split, List.map_append,
      sameIds front (table.chains.subset_visitAll seen front), List.append_assoc]
  · intro id chain beyond found
    rw [split] at found ⊢
    by_cases middleNew : id < (table.chains.visitAll seen front).length
    · rw [second.kept id middleNew (by omega)]
      have foundEarly : (table.chains.visitAll seen front)[id]? = some chain := by
        obtain ⟨rest, whole⟩ := late
        rwa [← whole, List.getElem?_append_left middleNew] at found
      have fresh := not_mem_of_front early (table.chains.nodup_visitAll distinct front) beyond
        foundEarly
      rw [first.filled id chain beyond foundEarly, sameIds]
      exact table.chains.next_subset_visitAll front seen chain (List.mem_of_getElem? foundEarly)
        fresh
    · exact second.filled id chain (by omega) found

theorem link {chain : Chain} (lists : Lists table root before seen) (inside : outer < seen.length)
    (met : chain ∈ seen) :
    Walked table root outer [chain] before seen (before.link outer (seen.idxOf chain)) := by
  have visited : table.chains.visitAll seen [chain] = seen := table.chains.visit_of_mem met
  constructor
  · rw [visited]
    exact lists.link outer _
  · exact fun id _ other => partsOf_link_of_ne _ _ other
  · rw [visited]
    exact partsOf_link_self _ _ (by rw [lists.size]; exact inside)
  · intro id other beyond found
    rw [visited] at found
    have bound := (List.getElem?_eq_some_iff.mp found).1
    omega

theorem place {chain : Chain} {base : Base} (lists : Lists table root before seen)
    (inside : outer < seen.length) (fresh : chain.extend base ∉ seen)
    (walked : Walked table root seen.length (table.chains.next (chain.extend base))
      (before.place outer base) (seen ++ [chain.extend base]) after) :
    Walked table root outer [chain.extend base] before seen after := by
  have visited : table.chains.visitAll seen [chain.extend base] =
      table.chains.visitAll (seen ++ [chain.extend base])
        (table.chains.next (chain.extend base)) :=
    table.chains.visit_of_not_mem fresh
  have early := table.chains.prefix_visitAll (seen ++ [chain.extend base])
    (table.chains.next (chain.extend base))
  have longer : seen.length < (seen ++ [chain.extend base]).length := by simp
  have size : before.size = seen.length := lists.size
  constructor
  · rw [visited]
    exact walked.lists
  · intro id bound other
    rw [walked.kept id (by omega) (by omega), partsOf_place_of_ne _ _ other]
  · rw [walked.kept outer (by omega) (by omega), partsOf_place_self _ _ (by omega), visited,
      List.map_singleton, idxOf_eq_of_front early (by simp), size, List.idxOf_append,
      if_neg fresh]
    simp
  · intro id other beyond found
    rw [visited] at found ⊢
    by_cases first : id = seen.length
    · subst first
      have same : other = chain.extend base := by
        obtain ⟨rest, whole⟩ := early
        rw [← whole, List.getElem?_append_left longer, List.getElem?_concat_length] at found
        exact (Option.some.inj found).symm
      rw [same, walked.linked, partsOf_place_of_ne _ _ (by omega), ← size, partsOf_size,
        List.nil_append]
    · apply walked.filled id other _ found
      rw [List.length_append, List.length_singleton]
      omega

end Draft.Walked

namespace ClassTable

variable {table : ClassTable}

def expandOver (table : ClassTable) (outer : Nat) (draft : Draft) (base : Base) : Draft :=
  match draft.shared? base with
  | some inner => draft.link outer inner
  | none => table.expand (draft.place outer base) draft.size base.name

theorem expand_eq_foldl (table : ClassTable) (draft : Draft) (outer : Nat) (name : String) :
    table.expand draft outer name = (table.basesOf name).foldl (table.expandOver outer) draft :=
  table.expand_eq draft outer name

def ExpandsTo (table : ClassTable) (root : String) (chain : Chain) : Prop :=
  ∀ draft seen outer, Draft.Lists table root draft seen → seen.Nodup → seen[outer]? = some chain →
    (∀ base ∈ table.basesOf chain.leaf, base.isVirtual = false → chain.extend base ∉ seen) →
    Draft.Walked table root outer (table.chains.next chain) draft seen
      (table.expand draft outer chain.leaf)

theorem expandOver_walked {root : String} {chain : Chain} {base : Base} {draft : Draft}
    {seen : List Chain} {outer : Nat} (reach : table.chains.Reaches (.single root) chain)
    (listed : base ∈ table.basesOf chain.leaf)
    (below : table.ExpandsTo root (chain.extend base))
    (lists : Draft.Lists table root draft seen) (distinct : seen.Nodup)
    (around : seen[outer]? = some chain)
    (own : base.isVirtual = false → chain.extend base ∉ seen) :
    Draft.Walked table root outer [chain.extend base] draft seen
      (table.expandOver outer draft base) := by
  have inside := (List.getElem?_eq_some_iff.mp around).1
  have notRoot : base.name ≠ root := by
    have differs := leaf_ne_of_next reach (extend_mem_next listed)
    rwa [Chain.leaf_extend] at differs
  unfold expandOver
  rw [lists.shared?_eq notRoot own]
  by_cases met : chain.extend base ∈ seen
  · rw [if_pos met]
    exact .link lists inside met
  · rw [if_neg met, lists.size]
    apply Draft.Walked.place lists inside met
    have walked := below (draft.place outer base) (seen ++ [chain.extend base]) seen.length
      (lists.place around listed met)
      (List.concat_eq_append ▸ distinct.concat met)
      List.getElem?_concat_length
    rw [Chain.leaf_extend] at walked
    apply walked
    intro inner clause virtual member
    rcases List.mem_append.mp member with early | same
    · exact met (lists.enclosed _ inner virtual early)
    · have innerListed : inner ∈ table.basesOf (chain.extend base).leaf := by
        rwa [Chain.leaf_extend]
      have lower := table.chains.rank_lt (extend_mem_next innerListed)
      rw [List.mem_singleton.mp same] at lower
      exact Nat.lt_irrefl _ lower

/-- The clauses are walked one by one. What one of them adds leaves the sub-objects of the later
ones still to be placed, unless they are shared. -/
theorem foldl_expandOver_walked {root : String} {chain : Chain} {outer : Nat}
    (reach : table.chains.Reaches (.single root) chain)
    (below : ∀ base ∈ table.basesOf chain.leaf, table.ExpandsTo root (chain.extend base))
    (clauses : List Base) (listed : clauses ⊆ table.basesOf chain.leaf)
    (names : (clauses.map Base.name).Nodup) (draft : Draft) (seen : List Chain)
    (lists : Draft.Lists table root draft seen) (distinct : seen.Nodup)
    (around : seen[outer]? = some chain)
    (own : ∀ base ∈ clauses, base.isVirtual = false → chain.extend base ∉ seen) :
    Draft.Walked table root outer (clauses.map chain.extend) draft seen
      (clauses.foldl (table.expandOver outer) draft) := by
  induction clauses generalizing draft seen with
  | nil => exact .refl lists
  | cons base rest ih =>
      obtain ⟨baseListed, restListed⟩ := List.cons_subset.mp listed
      obtain ⟨apart, restNames⟩ := List.nodup_cons.mp names
      have inside := (List.getElem?_eq_some_iff.mp around).1
      have first := expandOver_walked reach baseListed (below base baseListed) lists distinct around
        (own base (List.mem_cons_self ..))
      refine first.trans distinct inside (ih restListed restNames _ _ first.lists
        (table.chains.nodup_visitAll distinct _) ?_ ?_)
      · obtain ⟨more, whole⟩ := table.chains.prefix_visitAll seen [chain.extend base]
        rw [← whole, List.getElem?_append_left inside, around]
      · intro other later virtual member
        rcases table.chains.reaches_of_mem_visit seen _ _ member with early | reaches
        · exact own other (List.mem_cons_of_mem _ later) virtual early
        · have same := extend_eq_of_reaches baseListed virtual reaches
          obtain ⟨_, rfl⟩ := Chain.extend_inj virtual same.symm
          exact apart (List.mem_map_of_mem later)

theorem expandsTo (formed : WellFormed table) (root : String) {chain : Chain}
    (reach : table.chains.Reaches (.single root) chain) : table.ExpandsTo root chain := by
  induction chain using table.chains.induction with
  | step chain ih =>
      intro draft seen outer lists distinct around own
      rw [expand_eq_foldl]
      apply foldl_expandOver_walked reach _ _ (List.Subset.refl _) (formed.distinct_basesOf _) _ _
        lists distinct around own
      intro base listed
      have below := extend_mem_next listed
      exact ih _ below (.tail reach below)

end ClassTable

end StaticResolution

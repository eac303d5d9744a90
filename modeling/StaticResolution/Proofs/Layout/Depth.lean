import Mathlib.Order.Bounds.Basic
import StaticResolution.Proofs.Layout.Within

/-!
The depth of a sub-object is its distance from the complete object, where a link leads to a shared
sub-object from every sub-object that lists it. While the search runs, the queue holds ids of at
most two depths that follow each other, the smaller one first.
-/

namespace StaticResolution

/-- Ways along parts, by their length. -/
inductive Leads (parts : Nat → List Nat) (start : Nat) : Nat → Nat → Prop
  | here : Leads parts start 0 start
  | further {length id part : Nat} (way : Leads parts start length id) (direct : part ∈ parts id) :
      Leads parts start (length + 1) part

namespace DepthSearch

theorem depthOf_eq {depths : List (Option Nat)} {id depth : Nat}
    (known : depths[id]? = some (some depth)) : depthOf depths id = depth := by
  simp [depthOf, List.getD, known]

theorem set_eq_some_iff {depths : List (Option Nat)} {id : Nat}
    (fresh : depths[id]? = some none) (depth other found : Nat) :
    (depths.set id (some depth))[other]? = some (some found) ↔
      depths[other]? = some (some found) ∨ other = id ∧ found = depth := by
  by_cases same : id = other
  · subst same
    rw [List.getElem?_set_self (List.getElem?_eq_some_iff.mp fresh).1, fresh]
    simp [eq_comm]
  · rw [List.getElem?_set_ne same]
    simp [Ne.symm same]

/-- Whatever is known, ways lead to it, and it lies at most one step below the current depth. What
is known and queued no more has its parts known as well, except those that are `left` to reach. -/
structure Measures (parts : Nat → List Nat) (count depth : Nat) (left : List Nat)
    (search : DepthSearch) : Prop where
  size : search.depths.length = count
  start : search.depths[0]? = some (some 0)
  ways : ∀ id found : Nat, search.depths[id]? = some (some found) → Leads parts 0 found id
  bounded : ∀ id found : Nat, search.depths[id]? = some (some found) → found ≤ depth + 1
  queued : ∀ id ∈ search.queue, ∃ found, search.depths[id]? = some (some found) ∧ depth ≤ found
  ordered : search.queue.Pairwise fun early late =>
    depthOf search.depths early ≤ depthOf search.depths late
  settled : ∀ id found : Nat, search.depths[id]? = some (some found) → id ∉ search.queue →
    ∀ part ∈ parts id, part ∈ left ∧ depth ≤ found ∨
      ∃ below ≤ found + 1, search.depths[part]? = some (some below)

namespace Measures

variable {parts : Nat → List Nat} {count depth : Nat} {left : List Nat} {search : DepthSearch}

variable (parts) in
theorem initial (nonempty : 0 < count) : Measures parts count 0 [] (.start count) := by
  have only : ∀ id found : Nat, (DepthSearch.start count).depths[id]? = some (some found) →
      id = 0 ∧ found = 0 := by
    intro id found known
    cases id with
    | zero => simpa [DepthSearch.start, nonempty, eq_comm] using known
    | succ id => simp [DepthSearch.start, List.getElem?_replicate] at known
  constructor
  case size => simp [DepthSearch.start]
  case start => simp [DepthSearch.start, nonempty]
  case ways =>
    intro id found known
    obtain ⟨rfl, rfl⟩ := only id found known
    exact .here
  case bounded =>
    intro id found known
    obtain ⟨_, rfl⟩ := only id found known
    omega
  case queued =>
    intro id listed
    rw [List.mem_singleton.mp listed]
    exact ⟨0, by simp [DepthSearch.start, nonempty], Nat.le_refl _⟩
  case ordered => exact List.pairwise_singleton _ _
  case settled =>
    intro id found known absent
    obtain ⟨rfl, _⟩ := only id found known
    exact absurd (List.mem_singleton_self 0) absent

theorem discover {id : Nat} (measures : Measures parts count depth (id :: left) search)
    (way : Leads parts 0 (depth + 1) id) (fresh : search.depths[id]? = some none) :
    Measures parts count depth left
      ⟨search.depths.set id (some (depth + 1)), search.queue ++ [id]⟩ := by
  have known := DepthSearch.set_eq_some_iff fresh (depth + 1)
  have here := (known id (depth + 1)).mpr (.inr ⟨rfl, rfl⟩)
  constructor
  case size => rw [List.length_set, measures.size]
  case start => exact (known 0 0).mpr (.inl measures.start)
  case ways =>
    intro other found otherKnown
    rcases (known other found).mp otherKnown with old | ⟨rfl, rfl⟩
    · exact measures.ways other found old
    · exact way
  case bounded =>
    intro other found otherKnown
    rcases (known other found).mp otherKnown with old | ⟨_, rfl⟩
    · exact measures.bounded other found old
    · exact Nat.le_refl _
  case queued =>
    intro other listed
    rcases List.mem_append.mp listed with old | last
    · obtain ⟨found, before, above⟩ := measures.queued other old
      exact ⟨found, (known other found).mpr (.inl before), above⟩
    · rw [List.mem_singleton.mp last]
      exact ⟨depth + 1, here, Nat.le_succ _⟩
  case ordered =>
    have kept : ∀ other ∈ search.queue,
        depthOf (search.depths.set id (some (depth + 1))) other = depthOf search.depths other ∧
          depthOf search.depths other ≤ depth + 1 := by
      intro other listed
      obtain ⟨found, before, _⟩ := measures.queued other listed
      rw [depthOf_eq ((known other found).mpr (.inl before)), depthOf_eq before]
      exact ⟨rfl, measures.bounded other found before⟩
    refine List.pairwise_append.mpr ⟨?_, List.pairwise_singleton _ _, ?_⟩
    · apply measures.ordered.imp_of_mem
      intro early late earlyListed lateListed before
      rwa [(kept early earlyListed).1, (kept late lateListed).1]
    · intro early earlyListed late isLast
      rw [List.mem_singleton.mp isLast, depthOf_eq here, (kept early earlyListed).1]
      exact (kept early earlyListed).2
  case settled =>
    intro other found otherKnown absent part direct
    rw [List.mem_append, List.mem_singleton, not_or] at absent
    have old := ((known other found).mp otherKnown).resolve_right fun new => absent.2 new.1
    rcases measures.settled other found old absent.1 part direct with ⟨due, above⟩ | done
    · rcases List.mem_cons.mp due with rfl | later
      · exact .inr ⟨depth + 1, by omega, here⟩
      · exact .inl ⟨later, above⟩
    · obtain ⟨below, deeper, partKnown⟩ := done
      exact .inr ⟨below, deeper, (known part below).mpr (.inl partKnown)⟩

theorem skip {id found : Nat} (measures : Measures parts count depth (id :: left) search)
    (known : search.depths[id]? = some (some found)) :
    Measures parts count depth left search := by
  refine { measures with settled := ?_ }
  intro other above otherKnown absent part direct
  rcases measures.settled other above otherKnown absent part direct with ⟨due, deep⟩ | done
  · rcases List.mem_cons.mp due with rfl | later
    · have upper := measures.bounded part found known
      exact .inr ⟨found, by omega, known⟩
    · exact .inl ⟨later, deep⟩
  · exact .inr done

theorem reach {id : Nat} (measures : Measures parts count depth (id :: left) search)
    (way : Leads parts 0 (depth + 1) id) (inside : id < count) :
    Measures parts count depth left (search.reach (depth + 1) id) := by
  have bound : id < search.depths.length := measures.size ▸ inside
  have entry := List.getElem?_eq_getElem bound
  cases value : search.depths[id] with
  | none =>
      rw [value] at entry
      rw [DepthSearch.reach, if_pos entry]
      exact measures.discover way entry
  | some found =>
      rw [value] at entry
      rw [DepthSearch.reach, if_neg (by simp [entry])]
      exact measures.skip entry

theorem reachAll {ids : List Nat} (measures : Measures parts count depth ids search)
    (each : ∀ id ∈ ids, Leads parts 0 (depth + 1) id ∧ id < count) :
    Measures parts count depth [] (search.reachAll (depth + 1) ids) := by
  induction ids generalizing search with
  | nil => exact measures
  | cons id rest ih =>
      obtain ⟨⟨way, inside⟩, later⟩ := List.forall_mem_cons.mp each
      exact ih (measures.reach way inside) later

theorem next {depths : List (Option Nat)} {id : Nat} {rest : List Nat}
    (measures : Measures parts count depth [] ⟨depths, id :: rest⟩) :
    Measures parts count (depthOf depths id) (parts id) ⟨depths, rest⟩ := by
  obtain ⟨here, known, above⟩ := measures.queued id (List.mem_cons_self ..)
  obtain ⟨first, ordered⟩ := List.pairwise_cons.mp measures.ordered
  have depthHere : depthOf depths id = here := depthOf_eq known
  rw [depthHere] at first ⊢
  constructor
  case size => exact measures.size
  case start => exact measures.start
  case ways => exact measures.ways
  case bounded =>
    intro other found otherKnown
    have upper := measures.bounded other found otherKnown
    omega
  case queued =>
    intro other listed
    obtain ⟨found, otherKnown, _⟩ := measures.queued other (List.mem_cons_of_mem _ listed)
    have later := first other listed
    rw [depthOf_eq otherKnown] at later
    exact ⟨found, otherKnown, later⟩
  case ordered => exact ordered
  case settled =>
    intro other found otherKnown absent part direct
    by_cases same : other = id
    · subst same
      cases known.symm.trans otherKnown
      exact .inl ⟨direct, Nat.le_refl _⟩
    · have settled := measures.settled other found otherKnown (by simp [same, absent]) part direct
      exact .inr (settled.resolve_left fun due => List.not_mem_nil due.1)

theorem run (inRange : ∀ id < count, ∀ part ∈ parts id, part < count)
    (measures : Measures parts count depth [] search) :
    ∃ final, Measures parts count final [] ⟨DepthSearch.run parts search, []⟩ := by
  induction search using DepthSearch.run.induct parts generalizing depth with
  | case1 depths =>
      rw [DepthSearch.run]
      exact ⟨depth, measures⟩
  | case2 depths id rest ih =>
      rw [DepthSearch.run]
      obtain ⟨here, known, _⟩ := measures.queued id (List.mem_cons_self ..)
      refine ih (measures.next.reachAll ?_)
      intro part direct
      have inside : id < count := measures.size ▸ (List.getElem?_eq_some_iff.mp known).1
      rw [depthOf_eq known]
      exact ⟨.further (measures.ways id here known) direct, inRange id inside part direct⟩

theorem known_of_leads {depths : List (Option Nat)}
    (measures : Measures parts count depth [] ⟨depths, []⟩) {length id : Nat}
    (way : Leads parts 0 length id) : ∃ found ≤ length, depths[id]? = some (some found) := by
  induction way with
  | here => exact ⟨0, Nat.le_refl _, measures.start⟩
  | @further length id part _ direct ih =>
      obtain ⟨found, shorter, known⟩ := ih
      obtain ⟨below, deeper, partKnown⟩ :=
        (measures.settled id found known List.not_mem_nil part direct).resolve_left
          fun due => List.not_mem_nil due.1
      exact ⟨below, by omega, partKnown⟩

end Measures

end DepthSearch

theorem length_depthsFrom {parts : Nat → List Nat} {count : Nat} (nonempty : 0 < count)
    (inRange : ∀ id < count, ∀ part ∈ parts id, part < count) :
    (depthsFrom parts count).length = count := by
  obtain ⟨_, measures⟩ := (DepthSearch.Measures.initial parts nonempty).run inRange
  exact measures.size

theorem depthsFrom_shortest {parts : Nat → List Nat} {count : Nat} (nonempty : 0 < count)
    (inRange : ∀ id < count, ∀ part ∈ parts id, part < count) {length id : Nat}
    (way : Leads parts 0 length id) :
    ∃ depth, (depthsFrom parts count)[id]? = some (some depth) ∧
      IsLeast {length | Leads parts 0 length id} depth := by
  obtain ⟨_, measures⟩ := (DepthSearch.Measures.initial parts nonempty).run inRange
  obtain ⟨depth, _, known⟩ := measures.known_of_leads way
  refine ⟨depth, known, measures.ways id depth known, ?_⟩
  intro other otherWay
  obtain ⟨found, shorter, again⟩ := measures.known_of_leads otherWay
  cases known.symm.trans again
  exact shorter

namespace Layout.ListsChains

variable {table : ClassTable} {layout : Layout} {root : String}

theorem size_pos (lists : layout.ListsChains table (table.chainsOf root)) : 0 < layout.size := by
  rw [lists.size]
  exact (List.getElem?_eq_some_iff.mp (table.chains.preorder_head _)).1

theorem lt_size_of_leads (lists : layout.ListsChains table (table.chainsOf root)) {length id : Nat}
    (way : Leads layout.partsOf 0 length id) : id < layout.size := by
  induction way with
  | here => exact lists.size_pos
  | further _ direct ih => exact lists.lt_size_of_mem_partsOf _ ih _ direct

theorem mem_partsOf_parent (lists : layout.ListsChains table (table.chainsOf root)) {id : Nat}
    {part : Subobject} (partAt : layout.get? id = some part) (inner : id ≠ 0) :
    ∃ outer around, part.parent = some outer ∧ outer < id ∧ layout.get? outer = some around ∧
      id ∈ layout.partsOf outer := by
  obtain ⟨position, rfl⟩ := Nat.exists_eq_succ_of_ne_zero inner
  obtain ⟨outer, above, chain, parent, early, outerAt, found, step⟩ :=
    lists.parent position part partAt
  obtain ⟨around, aroundAt, _⟩ := lists.part outer above outerAt
  exact ⟨outer, around, parent, Nat.lt_succ_of_le early, aroundAt,
    (lists.mem_partsOf_iff outerAt found).mpr step⟩

theorem eq_of_mem_partsOf (lists : layout.ListsChains table (table.chainsOf root))
    {id outer other : Nat} {part : Subobject} (partAt : layout.get? id = some part)
    (inner : id ≠ 0) (own : part.isVirtual = false) (inside : outer < layout.size)
    (otherInside : other < layout.size) (direct : id ∈ layout.partsOf outer)
    (otherDirect : id ∈ layout.partsOf other) : outer = other := by
  obtain ⟨chain, found, _, _, shared⟩ := lists.chain partAt
  rw [lists.size] at inside otherInside
  have outerAt := List.getElem?_eq_getElem inside
  have otherAt := List.getElem?_eq_getElem otherInside
  obtain ⟨base, _, extended⟩ :=
    ClassTable.mem_chains_next.mp ((lists.mem_partsOf_iff outerAt found).mp direct)
  obtain ⟨_, _, again⟩ :=
    ClassTable.mem_chains_next.mp ((lists.mem_partsOf_iff otherAt found).mp otherDirect)
  have nonvirtual : base.isVirtual = false := by
    rw [own, ← extended, Chain.isEmpty_enclosing_extend] at shared
    simpa [inner] using shared.symm
  obtain ⟨same, _⟩ := Chain.extend_inj nonvirtual (extended.trans again.symm)
  exact ClassTable.nodup_chainsOf.getElem_inj_iff.mp same

theorem exists_leads (lists : layout.ListsChains table (table.chainsOf root)) {id : Nat}
    (inside : id < layout.size) : ∃ length, Leads layout.partsOf 0 length id := by
  induction id using Nat.strongRecOn with
  | ind id ih =>
      by_cases start : id = 0
      · subst start
        exact ⟨0, .here⟩
      · obtain ⟨outer, _, _, before, _, direct⟩ :=
          lists.mem_partsOf_parent (List.getElem?_eq_getElem inside) start
        obtain ⟨length, way⟩ := ih outer before (Nat.lt_trans before inside)
        exact ⟨length + 1, .further way direct⟩

end Layout.ListsChains

namespace ClassTable

variable {table : ClassTable} {root : String}

theorem depth_layoutOf (formed : table.WellFormed) {id : Nat} {part : Subobject}
    (partAt : (table.layoutOf root).get? id = some part) :
    part.depth = DepthSearch.depthOf
      (depthsFrom (table.layoutOf root).partsOf (table.layoutOf root).size) id := by
  have size : (table.expand {} 0 root).size = (table.layoutOf root).size := by
    rw [(expand_lists formed root).1.size, (layoutOf_listsChains formed root).size]
  rw [← size]
  cases id with
  | zero =>
      cases partAt
      rfl
  | succ position =>
      rw [layoutOf, get?_succ_finish, Option.map_eq_some_iff] at partAt
      obtain ⟨placed, _, rfl⟩ := partAt
      rfl

theorem depthsFrom_layoutOf (formed : table.WellFormed) {id : Nat} {part : Subobject}
    (partAt : (table.layoutOf root).get? id = some part) :
    (depthsFrom (table.layoutOf root).partsOf (table.layoutOf root).size)[id]? =
        some (some part.depth) ∧
      IsLeast {length | Leads (table.layoutOf root).partsOf 0 length id} part.depth := by
  have lists := layoutOf_listsChains formed root
  obtain ⟨_, way⟩ := lists.exists_leads (List.getElem?_eq_some_iff.mp partAt).1
  obtain ⟨depth, known, least⟩ :=
    depthsFrom_shortest lists.size_pos lists.lt_size_of_mem_partsOf way
  rw [depth_layoutOf formed partAt, DepthSearch.depthOf_eq known]
  exact ⟨known, least⟩

theorem depthsFrom_eq_map (formed : table.WellFormed) (root : String) :
    depthsFrom (table.layoutOf root).partsOf (table.layoutOf root).size =
      (table.layoutOf root).subobjects.map fun part => some part.depth := by
  have lists := layoutOf_listsChains formed root
  have length := length_depthsFrom lists.size_pos lists.lt_size_of_mem_partsOf
  apply List.ext_getElem?
  intro id
  rw [List.getElem?_map]
  cases partAt : (table.layoutOf root).subobjects[id]? with
  | none =>
      have beyond := List.getElem?_eq_none_iff.mp partAt
      rw [List.getElem?_eq_none_iff.mpr (length.trans_le beyond)]
      rfl
  | some part => exact (depthsFrom_layoutOf formed partAt).1

end ClassTable

def Layout.DepthsLeast (layout : Layout) : Prop :=
  ∀ id part, layout.get? id = some part →
    IsLeast {length | Leads layout.partsOf 0 length id} part.depth

namespace Layout.DepthsLeast

variable {table : ClassTable} {layout : Layout} {root : String} {id outer : Nat}
  {part around : Subobject}

theorem eq_zero_iff (least : layout.DepthsLeast) (partAt : layout.get? id = some part) :
    part.depth = 0 ↔ id = 0 := by
  obtain ⟨way, shortest⟩ := least id part partAt
  constructor
  · intro none
    rw [Set.mem_ofPred_eq, none] at way
    cases way
    rfl
  · rintro rfl
    exact Nat.le_zero.mp (shortest .here)

theorem le_succ (least : layout.DepthsLeast) (partAt : layout.get? id = some part)
    (aroundAt : layout.get? outer = some around) (direct : id ∈ layout.partsOf outer) :
    part.depth ≤ around.depth + 1 :=
  (least id part partAt).2 (.further (least outer around aroundAt).1 direct)

theorem exists_eq_succ (least : layout.DepthsLeast)
    (lists : layout.ListsChains table (table.chainsOf root)) (partAt : layout.get? id = some part)
    (inner : id ≠ 0) :
    ∃ outer around, layout.get? outer = some around ∧ id ∈ layout.partsOf outer ∧
      part.depth = around.depth + 1 := by
  have way : Leads layout.partsOf 0 part.depth id := (least id part partAt).1
  generalize reached : part.depth = length at way
  cases way with
  | here => exact absurd rfl inner
  | @further length outer _ before direct =>
      have aroundAt := List.getElem?_eq_getElem (lists.lt_size_of_leads before)
      have upper := least.le_succ partAt aroundAt direct
      have lower := (least outer _ aroundAt).2 before
      exact ⟨outer, _, aroundAt, direct, by omega⟩

theorem eq_succ_of_own (least : layout.DepthsLeast)
    (lists : layout.ListsChains table (table.chainsOf root)) (partAt : layout.get? id = some part)
    (inner : id ≠ 0) (own : part.isVirtual = false) (aroundAt : layout.get? outer = some around)
    (direct : id ∈ layout.partsOf outer) : part.depth = around.depth + 1 := by
  obtain ⟨other, above, aboveAt, otherDirect, equal⟩ := least.exists_eq_succ lists partAt inner
  have inside := (List.getElem?_eq_some_iff.mp aroundAt).1
  have otherInside := (List.getElem?_eq_some_iff.mp aboveAt).1
  obtain rfl := lists.eq_of_mem_partsOf partAt inner own inside otherInside direct otherDirect
  cases aroundAt.symm.trans aboveAt
  exact equal

theorem isLeast_around (least : layout.DepthsLeast)
    (lists : layout.ListsChains table (table.chainsOf root)) (partAt : layout.get? id = some part)
    (inner : id ≠ 0) :
    ∃ depth, part.depth = depth + 1 ∧ IsLeast {depth | ∃ outer around,
      layout.get? outer = some around ∧ id ∈ layout.partsOf outer ∧
        around.depth = depth} depth := by
  obtain ⟨outer, around, aroundAt, direct, equal⟩ := least.exists_eq_succ lists partAt inner
  refine ⟨around.depth, equal, ⟨outer, around, aroundAt, direct, rfl⟩, ?_⟩
  rintro _ ⟨other, above, aboveAt, otherDirect, rfl⟩
  have upper := least.le_succ partAt aboveAt otherDirect
  omega

theorem le_id (least : layout.DepthsLeast)
    (lists : layout.ListsChains table (table.chainsOf root)) (partAt : layout.get? id = some part) :
    part.depth ≤ id := by
  induction id using Nat.strongRecOn generalizing part with
  | ind id ih =>
      by_cases start : id = 0
      · rw [(least.eq_zero_iff partAt).mpr start]
        exact Nat.zero_le _
      · obtain ⟨outer, around, _, before, aroundAt, direct⟩ :=
          lists.mem_partsOf_parent partAt start
        have upper := least.le_succ partAt aroundAt direct
        have lower := ih outer before aroundAt
        omega

end Layout.DepthsLeast

/-- The depth of a sub-object is its distance from the complete object. It follows the depth of the
parent, or of the least deep sub-object that lists it if it is shared. -/
structure Layout.LiesAtDepth (layout : Layout) (id : Nat) (part : Subobject) : Prop where
  shortest : IsLeast {length | Leads layout.partsOf 0 length id} part.depth
  finite : part.depth ≤ id
  outermost : part.depth = 0 ↔ id = 0
  parent : id ≠ 0 → ∃ outer around, part.parent = some outer ∧ layout.get? outer = some around ∧
    part.depth ≤ around.depth + 1 ∧ (part.isVirtual = false → part.depth = around.depth + 1)
  shared : part.isVirtual = true → ∃ depth, part.depth = depth + 1 ∧
    IsLeast {depth | ∃ outer around, layout.get? outer = some around ∧
      id ∈ layout.partsOf outer ∧ around.depth = depth} depth

namespace ClassTable

variable {table : ClassTable} {root : String}

/-- The search gives every sub-object a depth, which is the length of a shortest way to it from the
complete object. -/
theorem depth_shortest (reachable : Reachable table) (registered : table.contains root = true) :
    ∃ layout, table.layout root = .ok layout ∧
      depthsFrom layout.partsOf layout.size =
        layout.subobjects.map (fun part => some part.depth) ∧
      ∀ id part, layout.get? id = some part → layout.LiesAtDepth id part := by
  have formed := reachable.wellFormed
  have lists := layoutOf_listsChains formed root
  have least : (table.layoutOf root).DepthsLeast :=
    fun id part partAt => (depthsFrom_layoutOf formed partAt).2
  refine ⟨table.layoutOf root, layout_eq_ok_iff.mpr ⟨registered, rfl⟩,
    depthsFrom_eq_map formed root, ?_⟩
  intro id part partAt
  constructor
  case shortest => exact least id part partAt
  case finite => exact least.le_id lists partAt
  case outermost => exact least.eq_zero_iff partAt
  case parent =>
    intro inner
    obtain ⟨outer, around, parent, _, aroundAt, direct⟩ := lists.mem_partsOf_parent partAt inner
    exact ⟨outer, around, parent, aroundAt, least.le_succ partAt aroundAt direct,
      fun own => least.eq_succ_of_own lists partAt inner own aroundAt direct⟩
  case shared =>
    intro shared
    apply least.isLeast_around lists partAt
    rintro rfl
    obtain ⟨chain, _, _, _, virtual⟩ := lists.chain partAt
    simp [shared] at virtual

def shortcutBatch : List ClassDef :=
  [{ name := "X" }, { name := "M", bases := [⟨"X", true⟩] },
    { name := "B", bases := [⟨"M", false⟩] }, { name := "D", bases := [⟨"B", false⟩, ⟨"X", true⟩] }]

theorem depth_shortest_shortcut :
    ∃ table, table = (outcome (registerAll shortcutBatch) .empty).2 ∧ table.Reachable ∧
      table.contains "D" = true ∧
      ∃ layout part, table.layout "D" = .ok layout ∧ layout.get? 3 = some part ∧
        part.className = "X" ∧ part.parent = some 2 ∧ part.depth = 1 ∧
          layout.LiesAtDepth 3 part := by
  have reachable : Reachable (outcome (registerAll shortcutBatch) .empty).2 := .registerAll _ .empty
  have registered : (outcome (registerAll shortcutBatch) .empty).2.contains "D" = true := by cbv
  obtain ⟨layout, found, _, lies⟩ := depth_shortest reachable registered
  obtain ⟨_, rfl⟩ := layout_eq_ok_iff.mp found
  obtain ⟨part, partAt, described⟩ : ∃ part,
      ((outcome (registerAll shortcutBatch) .empty).2.layoutOf "D").get? 3 = some part ∧
        part.className = "X" ∧ part.parent = some 2 ∧ part.depth = 1 := by
    exact ⟨_, by cbv, by cbv⟩
  exact ⟨_, rfl, reachable, registered, _, part, found, partAt, described.1, described.2.1,
    described.2.2, lies 3 part partAt⟩

end ClassTable

end StaticResolution

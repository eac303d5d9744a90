import StaticResolution.Proofs.ClassTable.Batch

/-!
Registration of a batch refines registration one by one. It succeeds if any order of the batch can
be registered class by class, and then leads to the table that such an order leads to.
-/

namespace StaticResolution

theorem foldlM_ok {α β ε : Type} (step : β → α → Except ε β) (list : List α)
    (each : ∀ item ∈ list, ∀ state, ∃ next, step state item = .ok next) (state : β) :
    ∃ result, list.foldlM step state = .ok result := by
  induction list generalizing state with
  | nil => exact ⟨state, rfl⟩
  | cons item rest ih =>
      obtain ⟨next, done⟩ := each item (List.mem_cons_self ..) state
      obtain ⟨result, later⟩ := ih (fun other listed => each other (List.mem_cons_of_mem _ listed))
        next
      exact ⟨result, by rw [List.foldlM_cons, done]; exact later⟩

variable {batch : List ClassDef}

theorem sortFrom_ok (rank : String → Nat)
    (lower : ∀ decl ∈ batch, ∀ base ∈ decl.bases, base.name ∈ batch.map ClassDef.name →
      rank base.name < rank decl.name)
    {path : List String} {sorted : List ClassDef} {name : String}
    (above : ∀ step ∈ path, step ∈ batch.map ClassDef.name ∧
      (name ∈ batch.map ClassDef.name → rank name < rank step)) :
    ∃ result, sortFrom batch path sorted name = .ok result := by
  induction path, sorted, name using sortFrom.induct batch with
  | case1 path sorted name present => exact ⟨sorted, by rw [sortFrom, if_pos present]⟩
  | case2 path sorted name absent onPath =>
      obtain ⟨inBatch, below⟩ := above name onPath
      exact absurd (below inBatch) (Nat.lt_irrefl _)
  | case3 path sorted name absent offPath missing =>
      exact ⟨sorted, sortFrom_of_outside offPath missing⟩
  | case4 path sorted name absent offPath decl found ih =>
      have listed := List.mem_of_find?_eq_some found
      have named : decl.name = name := by simpa using List.find?_some found
      have inBatch : name ∈ batch.map ClassDef.name := named ▸ List.mem_map_of_mem listed
      have each : ∀ base ∈ decl.bases, ∀ sorted,
          ∃ next, sortFrom batch (path ++ [name]) sorted base.name = .ok next := by
        intro base clause sorted
        apply ih
        intro step onPath
        rcases List.mem_append.mp onPath with early | last
        · refine ⟨(above step early).1, fun baseInBatch => ?_⟩
          exact Nat.lt_trans (named ▸ lower decl listed base clause baseInBatch)
            ((above step early).2 inBatch)
        · obtain rfl := List.mem_singleton.mp last
          exact ⟨inBatch, fun baseInBatch => named ▸ lower decl listed base clause baseInBatch⟩
      obtain ⟨below, walked⟩ := foldlM_ok _ _ each sorted
      refine ⟨below ++ [decl], ?_⟩
      rw [sortFrom_of_find? absent offPath found, walked]
      rfl

theorem basesFirst_ok (rank : String → Nat)
    (lower : ∀ decl ∈ batch, ∀ base ∈ decl.bases, base.name ∈ batch.map ClassDef.name →
      rank base.name < rank decl.name) : ∃ sorted, basesFirst batch = .ok sorted :=
  foldlM_ok _ _ (fun _ _ _ => sortFrom_ok rank lower (by simp)) []

namespace InTurn

variable {known : List String} {order : List ClassDef}

theorem split {earlier later : List ClassDef} {decl : ClassDef}
    (ready : InTurn known (earlier ++ decl :: later)) :
    decl.name ∉ known ++ earlier.map ClassDef.name ∧
      ∀ base ∈ decl.bases, base.name ∈ known ++ earlier.map ClassDef.name := by
  obtain ⟨_, ⟨new, _, bases⟩, _⟩ := inTurn_append.mp ready
  exact ⟨new, bases⟩

theorem idxOf_lt (ready : InTurn known order) {decl : ClassDef} (listed : decl ∈ order)
    {base : Base} (clause : base ∈ decl.bases) (inOrder : base.name ∈ order.map ClassDef.name) :
    (order.map ClassDef.name).idxOf base.name < (order.map ClassDef.name).idxOf decl.name := by
  obtain ⟨earlier, later, rfl⟩ := List.append_of_mem listed
  obtain ⟨new, bases⟩ := ready.split
  obtain ⟨owner, ownerListed, named⟩ := List.mem_map.mp inOrder
  have early : base.name ∈ earlier.map ClassDef.name := by
    rcases List.mem_append.mp (bases base clause) with old | early
    · exact absurd (named ▸ old) (ready.fresh owner ownerListed)
    · exact early
  have absent : decl.name ∉ earlier.map ClassDef.name := fun inside =>
    new (List.mem_append_right _ inside)
  rw [List.map_append, List.idxOf_append_of_mem early, List.idxOf_append_of_notMem absent]
  exact Nat.lt_of_lt_of_le (List.idxOf_lt_length_of_mem early) (Nat.le_add_right _ _)

end InTurn

theorem sortFrom_settled {path : List String} {sorted : List ClassDef} {name : String}
    (settled : name ∈ sorted.map ClassDef.name ∨ name ∉ path ∧ name ∉ batch.map ClassDef.name) :
    sortFrom batch path sorted name = .ok sorted := by
  rcases settled with placed | ⟨offPath, outside⟩
  · rw [sortFrom, if_pos (by simpa using placed)]
  · exact sortFrom_of_outside offPath (by simpa using outside)

theorem foldlM_eq_ok {α β ε : Type} {step : β → α → Except ε β} {state : β} (list : List α)
    (same : ∀ item ∈ list, step state item = .ok state) : list.foldlM step state = .ok state := by
  induction list with
  | nil => rfl
  | cons item rest ih =>
      rw [List.foldlM_cons, same item (List.mem_cons_self ..)]
      exact ih fun other listed => same other (List.mem_cons_of_mem _ listed)

theorem sortFrom_next {known : List String} {earlier later : List ClassDef} {decl : ClassDef}
    (ready : InTurn known (earlier ++ decl :: later)) :
    sortFrom (earlier ++ decl :: later) [] earlier decl.name = .ok (earlier ++ [decl]) := by
  obtain ⟨new, bases⟩ := ready.split
  have absent : decl.name ∉ earlier.map ClassDef.name := fun inside =>
    new (List.mem_append_right _ inside)
  have found : (earlier ++ decl :: later).find? (fun other => other.name == decl.name) =
      some decl := by
    rw [List.find?_append, List.find?_eq_none.mpr (by simpa using absent)]
    simp
  have settled : decl.bases.foldlM
      (fun sorted base => sortFrom (earlier ++ decl :: later) ([] ++ [decl.name]) sorted base.name)
      earlier = .ok earlier := by
    apply foldlM_eq_ok
    intro base clause
    apply sortFrom_settled
    rcases List.mem_append.mp (bases base clause) with old | early
    · have outside : base.name ∉ (earlier ++ decl :: later).map ClassDef.name := by
        intro inside
        obtain ⟨owner, listed, named⟩ := List.mem_map.mp inside
        exact ready.fresh owner listed (named ▸ old)
      refine .inr ⟨?_, outside⟩
      intro onPath
      rw [List.mem_singleton.mp onPath] at outside
      exact outside (by simp)
    · exact .inl early
  rw [sortFrom_of_find? (by simpa using absent) List.not_mem_nil found, settled]
  rfl

theorem basesFirst_of_inTurn {known : List String} (ready : InTurn known batch) :
    basesFirst batch = .ok batch := by
  suffices rest : ∀ later earlier, batch = earlier ++ later →
      later.foldlM (fun sorted decl => sortFrom batch [] sorted decl.name) earlier = .ok batch from
    rest batch [] rfl
  intro later
  induction later with
  | nil =>
      intro earlier split
      rw [split, List.append_nil]
      rfl
  | cons decl rest ih =>
      intro earlier split
      have next : sortFrom batch [] earlier decl.name = .ok (earlier ++ [decl]) := by
        rw [split] at ready ⊢
        exact sortFrom_next ready
      rw [List.foldlM_cons, next]
      exact ih (earlier ++ [decl]) (by simp [split])

namespace ClassTable

variable {table : ClassTable}

theorem checked_of_inTurn {order : List ClassDef} (perm : order.Perm batch)
    (ready : InTurn (table.classes.map ClassDef.name) order) : table.Checked batch := by
  have names := perm.map ClassDef.name
  constructor
  · intro decl listed
    rw [Bool.eq_false_iff, Ne, contains_iff_mem]
    exact ready.fresh decl (perm.mem_iff.mpr listed)
  · exact names.nodup ready.distinct
  · intro decl listed
    obtain ⟨earlier, later, rfl⟩ := List.append_of_mem (perm.mem_iff.mpr listed)
    exact (inTurn_append.mp ready).2.1.2.1
  · intro decl listed base clause
    rw [contains_iff_mem, ← names.mem_iff]
    obtain ⟨earlier, later, rfl⟩ := List.append_of_mem (perm.mem_iff.mpr listed)
    rcases List.mem_append.mp (ready.split.2 base clause) with old | early
    · exact .inl old
    · rw [List.map_append]
      exact .inr (List.mem_append_left _ early)

theorem exists_basesFirst {order : List ClassDef} (perm : order.Perm batch)
    (ready : InTurn (table.classes.map ClassDef.name) order) :
    ∃ sorted, basesFirst batch = .ok sorted := by
  apply basesFirst_ok (order.map ClassDef.name).idxOf
  intro decl listed base clause inBatch
  exact ready.idxOf_lt (perm.mem_iff.mpr listed) clause
    ((perm.map ClassDef.name).mem_iff.mpr inBatch)

theorem Checked.perm (checked : table.Checked batch) {sorted : List ClassDef}
    (sorts : basesFirst batch = .ok sorted) : sorted.Perm batch := by
  obtain ⟨inOrder, placed⟩ := basesFirst_sorts sorts
  have ready := checked.inTurn inOrder
  have inside : sorted ⊆ batch := by
    clear sorts placed ready
    induction inOrder with
    | nil => exact List.nil_subset _
    | concat _ listed _ _ ih => exact List.append_subset.mpr ⟨ih, by simpa using listed⟩
  rw [List.perm_ext_iff_of_nodup ready.distinct.of_map checked.distinct.of_map]
  refine fun decl => ⟨fun listed => inside listed, fun listed => ?_⟩
  obtain ⟨other, otherListed, named⟩ := List.mem_map.mp (placed decl listed)
  rwa [← List.inj_on_of_nodup_map checked.distinct (inside otherListed) listed named]

/-- The class has one place in the table, and its bases come before it. -/
structure PlacedAt (table : ClassTable) (index : Nat) (decl : ClassDef) : Prop where
  here : table.at? index = some decl
  only : ∀ other, table.at? other = some decl → other = index
  bases : ∀ base ∈ decl.bases, ∃ lower < index, table.index? base.name = some lower

theorem placedAt_of_inTurn {order : List ClassDef} {grown : ClassTable}
    (ready : InTurn (table.classes.map ClassDef.name) order)
    (classes : grown.classes = table.classes ++ order) {decl : ClassDef} (listed : decl ∈ order) :
    ∃ index ∈ List.range' table.size order.length, grown.PlacedAt index decl := by
  have fresh : decl ∉ table.classes := fun old =>
    ready.fresh decl listed (List.mem_map_of_mem old)
  have distinct : order.Nodup := ready.distinct.of_map
  obtain ⟨earlier, later, rfl⟩ := List.append_of_mem listed
  have here : (earlier ++ decl :: later)[earlier.length]? = some decl := by simp
  refine ⟨table.size + earlier.length, by simp, ?_, ?_, ?_⟩
  · rw [at?, classes, size, List.getElem?_append_right (Nat.le_add_right _ _),
      Nat.add_sub_cancel_left]
    exact here
  · intro other found
    rw [at?, classes] at found
    rcases Nat.lt_or_ge other table.classes.length with inside | outside
    · rw [List.getElem?_append_left inside] at found
      exact absurd (List.mem_of_getElem? found) fresh
    · rw [List.getElem?_append_right outside] at found
      have bounded := (List.getElem?_eq_some_iff.mp found).1
      have same := (List.getElem?_inj bounded distinct).mp (found.trans here.symm)
      rw [size]
      omega
  · intro base clause
    have before : ∃ owner ∈ table.classes ++ earlier, (owner.name == base.name) = true := by
      have named := ready.split.2 base clause
      rw [← List.map_append] at named
      obtain ⟨owner, ownerListed, same⟩ := List.mem_map.mp named
      exact ⟨owner, ownerListed, beq_iff_eq.mpr same⟩
    refine ⟨(table.classes ++ earlier).findIdx fun owner => owner.name == base.name, ?_, ?_⟩
    · rw [size, ← List.length_append]
      exact List.findIdx_lt_length_of_exists before
    · rw [index?, classes, ← List.append_assoc, List.findIdx?_append,
        List.findIdx?_eq_some_of_exists before, Option.some_or]

theorem outcome_registerAll_eq_ok {indices : List Nat} {grown : ClassTable} :
    outcome (registerAll batch) table = (.ok indices, grown) ↔
      table.Checked batch ∧ ∃ sorted, basesFirst batch = .ok sorted ∧
        outcome (sorted.mapM register) table = (.ok indices, grown) := by
  constructor
  · intro done
    by_cases checked : table.Checked batch
    · rw [outcome_registerAll_of_checked checked] at done
      cases sorts : basesFirst batch with
      | error fault =>
          rw [sorts] at done
          cases done
      | ok sorted =>
          rw [sorts] at done
          exact ⟨checked, sorted, rfl, done⟩
    · obtain ⟨fault, refused⟩ := outcome_registerAll_of_not_checked checked
      rw [refused] at done
      cases done
  · rintro ⟨checked, sorted, sorts, done⟩
    rw [outcome_registerAll_of_checked checked, sorts]
    exact done

theorem classes_of_outcome_mapM {order : List ClassDef} {indices : List Nat} {grown : ClassTable}
    (done : outcome (order.mapM register) table = (.ok indices, grown)) :
    indices = List.range' table.size order.length ∧ grown.classes = table.classes ++ order := by
  obtain ⟨other, again, classes⟩ := outcome_mapM_register (inTurn_of_outcome done)
  cases done.symm.trans again
  exact ⟨rfl, classes⟩

theorem registerAll_ok_iff_inTurn {batch : List ClassDef} :
    (∃ indices grown, outcome (registerAll batch) table = (.ok indices, grown)) ↔
      ∃ order : List ClassDef, order.Perm batch ∧
        InTurn (table.classes.map ClassDef.name) order := by
  constructor
  · rintro ⟨indices, grown, done⟩
    obtain ⟨checked, sorted, sorts, singly⟩ := outcome_registerAll_eq_ok.mp done
    exact ⟨sorted, checked.perm sorts, inTurn_of_outcome singly⟩
  · rintro ⟨order, perm, ready⟩
    have checked := checked_of_inTurn perm ready
    obtain ⟨sorted, sorts⟩ := exists_basesFirst perm ready
    obtain ⟨grown, inserted, _⟩ :=
      outcome_mapM_register (checked.inTurn (basesFirst_sorts sorts).1)
    exact ⟨_, grown, outcome_registerAll_eq_ok.mpr ⟨checked, sorted, sorts, inserted⟩⟩

theorem classes_of_registerAll {batch : List ClassDef} {indices : List Nat} {grown : ClassTable}
    (done : outcome (registerAll batch) table = (.ok indices, grown)) :
    ∃ order : List ClassDef, order.Perm batch ∧ grown.classes = table.classes ++ order := by
  obtain ⟨checked, sorted, sorts, singly⟩ := outcome_registerAll_eq_ok.mp done
  exact ⟨sorted, checked.perm sorts, (classes_of_outcome_mapM singly).2⟩

theorem registerAll_ok_iff_mapM :
    (∃ indices grown, outcome (registerAll batch) table = (.ok indices, grown)) ↔
      ∃ order : List ClassDef, order.Perm batch ∧
        ∃ indices grown, outcome (order.mapM register) table = (.ok indices, grown) := by
  constructor
  · rintro ⟨indices, grown, done⟩
    obtain ⟨checked, sorted, sorts, singly⟩ := outcome_registerAll_eq_ok.mp done
    exact ⟨sorted, checked.perm sorts, indices, grown, singly⟩
  · rintro ⟨order, perm, indices, grown, singly⟩
    have ready := inTurn_of_outcome singly
    have checked := checked_of_inTurn perm ready
    obtain ⟨sorted, sorts⟩ := exists_basesFirst perm ready
    obtain ⟨reached, inserted, _⟩ :=
      outcome_mapM_register (checked.inTurn (basesFirst_sorts sorts).1)
    exact ⟨_, reached, outcome_registerAll_eq_ok.mpr ⟨checked, sorted, sorts, inserted⟩⟩

theorem mapM_of_registerAll {indices : List Nat} {grown : ClassTable}
    (done : outcome (registerAll batch) table = (.ok indices, grown)) :
    indices = List.range' table.size batch.length ∧
      (∃ order : List ClassDef, order.Perm batch ∧ grown.classes = table.classes ++ order ∧
        outcome (order.mapM register) table = (.ok indices, grown)) ∧
      (∀ decl ∈ batch, ∃ index ∈ indices, grown.PlacedAt index decl) ∧
      ∀ singles final, outcome (batch.mapM register) table = (.ok singles, final) →
        grown.classes = table.classes ++ batch ∧ final = grown := by
  obtain ⟨checked, sorted, sorts, singly⟩ := outcome_registerAll_eq_ok.mp done
  have perm := checked.perm sorts
  obtain ⟨numbered, classes⟩ := classes_of_outcome_mapM singly
  refine ⟨perm.length_eq ▸ numbered, ⟨sorted, perm, classes, singly⟩, ?_, ?_⟩
  · intro decl listed
    rw [numbered]
    exact placedAt_of_inTurn (inTurn_of_outcome singly) classes (perm.mem_iff.mpr listed)
  · intro singles final given
    cases (basesFirst_of_inTurn (inTurn_of_outcome given)).symm.trans sorts
    cases given.symm.trans singly
    exact ⟨classes, rfl⟩

/-- A batch can be registered if some order of it can be registered class by class. The table is
then the one that this leads to for the order of the insertions, and the order is the given one
wherever that will do. -/
theorem registerAll_refines_register (table : ClassTable) (batch : List ClassDef) :
    ((∃ indices grown, outcome (registerAll batch) table = (.ok indices, grown)) ↔
      ∃ order : List ClassDef, order.Perm batch ∧
        ∃ indices grown, outcome (order.mapM register) table = (.ok indices, grown)) ∧
    ∀ indices grown, outcome (registerAll batch) table = (.ok indices, grown) →
      indices = List.range' table.size batch.length ∧
      (∃ order : List ClassDef, order.Perm batch ∧ grown.classes = table.classes ++ order ∧
        outcome (order.mapM register) table = (.ok indices, grown)) ∧
      (∀ decl ∈ batch, ∃ index ∈ indices, grown.PlacedAt index decl) ∧
      ∀ singles final, outcome (batch.mapM register) table = (.ok singles, final) →
        grown.classes = table.classes ++ batch ∧ final = grown :=
  ⟨registerAll_ok_iff_mapM, fun _ _ done => mapM_of_registerAll done⟩

end ClassTable

end StaticResolution

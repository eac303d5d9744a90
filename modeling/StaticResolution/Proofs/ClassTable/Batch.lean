import StaticResolution.Proofs.ClassTable.Register

/-!
Registration of classes one after the other succeeds exactly if the turn of each class comes after
its bases are known. A batch that passes the checks sorts into such an order, so that it takes
effect as a whole or not at all.
-/

namespace StaticResolution

/-- Each class is new when its turn comes, lists each base once, and all its bases are known. -/
def InTurn (known : List String) : List ClassDef → Prop
  | [] => True
  | decl :: rest =>
      (decl.name ∉ known ∧ decl.repeatedBase? = none ∧ ∀ base ∈ decl.bases, base.name ∈ known) ∧
        InTurn (known ++ [decl.name]) rest

theorem inTurn_append {known : List String} {front back : List ClassDef} :
    InTurn known (front ++ back) ↔
      InTurn known front ∧ InTurn (known ++ front.map ClassDef.name) back := by
  induction front generalizing known with
  | nil => simp [InTurn]
  | cons decl rest ih =>
      simp only [List.cons_append, InTurn, ih, List.map_cons, List.append_assoc,
        List.nil_append, and_assoc]

namespace InTurn

variable {known : List String} {order : List ClassDef}

theorem fresh (ready : InTurn known order) : ∀ decl ∈ order, decl.name ∉ known := by
  induction order generalizing known with
  | nil => simp
  | cons first rest ih =>
      obtain ⟨⟨new, _, _⟩, later⟩ := ready
      intro decl listed
      rcases List.mem_cons.mp listed with rfl | inRest
      · exact new
      · exact fun old => ih later decl inRest (List.mem_append_left _ old)

theorem distinct (ready : InTurn known order) : (order.map ClassDef.name).Nodup := by
  induction order generalizing known with
  | nil => exact List.nodup_nil
  | cons first rest ih =>
      obtain ⟨_, later⟩ := ready
      rw [List.map_cons, List.nodup_cons]
      refine ⟨?_, ih later⟩
      intro again
      obtain ⟨decl, listed, same⟩ := List.mem_map.mp again
      exact later.fresh decl listed (by simp [same])

end InTurn

namespace ClassTable

theorem admits_iff {table : ClassTable} {decl : ClassDef} :
    table.Admits decl ↔ decl.name ∉ table.classes.map ClassDef.name ∧
      decl.repeatedBase? = none ∧
        ∀ base ∈ decl.bases, base.name ∈ table.classes.map ClassDef.name := by
  simp only [← contains_iff_mem, Bool.not_eq_true]
  exact ⟨fun admitted => ⟨admitted.fresh, admitted.distinct, admitted.known⟩,
    fun ⟨fresh, distinct, known⟩ => ⟨fresh, distinct, known⟩⟩

theorem outcome_mapM_register {order : List ClassDef} {table : ClassTable}
    (ready : InTurn (table.classes.map ClassDef.name) order) :
    ∃ grown, outcome (order.mapM register) table =
        (.ok (List.range' table.size order.length), grown) ∧
      grown.classes = table.classes ++ order := by
  induction order generalizing table with
  | nil => exact ⟨table, rfl, by simp⟩
  | cons decl rest ih =>
      obtain ⟨first, later⟩ := ready
      have admitted := admits_iff.mpr first
      have sizeNext : (table.add decl admitted.known).size = table.size + 1 := by
        simp [add, size]
      obtain ⟨grown, done, classes⟩ :=
        @ih (table.add decl admitted.known) (by simpa [add] using later)
      refine ⟨grown, ?_, ?_⟩
      · rw [List.mapM_cons, outcome_bind_ok (outcome_register_of_admits admitted),
          outcome_bind_ok done, sizeNext]
        rfl
      · rw [classes]
        simp [add]

theorem inTurn_of_outcome {order : List ClassDef} {table grown : ClassTable} {indices : List Nat}
    (done : outcome (order.mapM register) table = (.ok indices, grown)) :
    InTurn (table.classes.map ClassDef.name) order := by
  induction order generalizing table indices with
  | nil => trivial
  | cons decl rest ih =>
      rw [List.mapM_cons] at done
      by_cases admitted : table.Admits decl
      · rw [outcome_bind_ok (outcome_register_of_admits admitted), outcome_bind] at done
        refine ⟨admits_iff.mp admitted, ?_⟩
        cases later : outcome (rest.mapM register) (table.add decl admitted.known) with
        | mk result reached =>
            cases result with
            | ok values =>
                rw [later] at done
                cases done
                have ready := ih later
                simpa [add] using ready
            | error fault =>
                rw [later] at done
                cases done
      · obtain ⟨fault, refused⟩ := outcome_register_of_not_admits admitted
        rw [outcome_bind, refused] at done
        cases done

end ClassTable

/-- Lists of classes of a batch, of different names, in which bases come first. -/
inductive BasesFirst (batch : List ClassDef) : List ClassDef → Prop
  | nil : BasesFirst batch []
  | concat {sorted : List ClassDef} {decl : ClassDef} (inOrder : BasesFirst batch sorted)
      (listed : decl ∈ batch) (fresh : decl.name ∉ sorted.map ClassDef.name)
      (after : ∀ base ∈ decl.bases, base.name ∈ batch.map ClassDef.name →
        base.name ∈ sorted.map ClassDef.name) : BasesFirst batch (sorted ++ [decl])

/-- What a step of the sorting does: it appends, and adds none of the names on the path. -/
structure SortsTo (batch : List ClassDef) (path : List String)
    (sorted result : List ClassDef) : Prop where
  kept : sorted <+: result
  inOrder : BasesFirst batch result
  apart : ∀ step ∈ path, step ∈ result.map ClassDef.name → step ∈ sorted.map ClassDef.name

namespace SortsTo

variable {batch : List ClassDef} {path : List String} {first second third : List ClassDef}

theorem refl (inOrder : BasesFirst batch first) : SortsTo batch path first first :=
  ⟨List.prefix_refl _, inOrder, fun _ _ listed => listed⟩

theorem trans (early : SortsTo batch path first second) (late : SortsTo batch path second third) :
    SortsTo batch path first third :=
  ⟨early.kept.trans late.kept, late.inOrder, fun step onPath listed =>
    early.apart step onPath (late.apart step onPath listed)⟩

theorem names (sorts : SortsTo batch path first second) {name : String}
    (listed : name ∈ first.map ClassDef.name) : name ∈ second.map ClassDef.name :=
  (sorts.kept.map ClassDef.name).subset listed

end SortsTo

variable {batch : List ClassDef}

theorem foldlM_sortsTo {α : Type} {path : List String} (label : α → String)
    (step : ∀ item sorted result, BasesFirst batch sorted →
      sortFrom batch path sorted (label item) = .ok result →
        SortsTo batch path sorted result ∧
          (label item ∈ batch.map ClassDef.name → label item ∈ result.map ClassDef.name))
    {list : List α} {sorted result : List ClassDef} (inOrder : BasesFirst batch sorted)
    (done : list.foldlM (fun sorted item => sortFrom batch path sorted (label item)) sorted =
      .ok result) :
    SortsTo batch path sorted result ∧
      ∀ item ∈ list, label item ∈ batch.map ClassDef.name →
        label item ∈ result.map ClassDef.name := by
  induction list generalizing sorted with
  | nil =>
      cases done
      exact ⟨.refl inOrder, by simp⟩
  | cons item rest ih =>
      rw [List.foldlM_cons] at done
      cases first : sortFrom batch path sorted (label item) with
      | error fault =>
          rw [first] at done
          cases done
      | ok middle =>
          rw [first] at done
          obtain ⟨early, placed⟩ := step _ _ _ inOrder first
          obtain ⟨late, others⟩ := ih early.inOrder done
          refine ⟨early.trans late, ?_⟩
          intro other listed inBatch
          rcases List.mem_cons.mp listed with rfl | later
          · exact late.names (placed inBatch)
          · exact others other later inBatch

theorem sortFrom_of_outside {path : List String} {sorted : List ClassDef} {name : String}
    (offPath : name ∉ path) (missing : batch.find? (fun decl => decl.name == name) = none) :
    sortFrom batch path sorted name = .ok sorted := by
  by_cases present : sorted.any (fun decl => decl.name == name) = true
  · rw [sortFrom, if_pos present]
  · rw [sortFrom, if_neg present, if_neg offPath]
    split
    next => rfl
    next decl found =>
      rw [missing] at found
      cases found

theorem sortFrom_of_find? {path : List String} {sorted : List ClassDef} {name : String}
    {decl : ClassDef} (absent : ¬ sorted.any (fun decl => decl.name == name) = true)
    (offPath : name ∉ path) (found : batch.find? (fun decl => decl.name == name) = some decl) :
    sortFrom batch path sorted name =
      (decl.bases.foldlM
        (fun sorted base => sortFrom batch (path ++ [name]) sorted base.name) sorted).map
        fun below => below ++ [decl] := by
  rw [sortFrom, if_neg absent, if_neg offPath]
  split
  next missing =>
    rw [missing] at found
    cases found
  next other otherFound =>
    cases found.symm.trans otherFound
    cases decl.bases.foldlM
      (fun sorted base => sortFrom batch (path ++ [name]) sorted base.name) sorted <;> rfl

theorem sortFrom_sortsTo {path : List String} {sorted result : List ClassDef} {name : String}
    (inOrder : BasesFirst batch sorted) (done : sortFrom batch path sorted name = .ok result) :
    SortsTo batch path sorted result ∧
      (name ∈ batch.map ClassDef.name → name ∈ result.map ClassDef.name) := by
  induction path, sorted, name using sortFrom.induct batch generalizing result with
  | case1 path sorted name present =>
      rw [sortFrom, if_pos present] at done
      cases done
      exact ⟨.refl inOrder, fun _ => by simpa using present⟩
  | case2 path sorted name absent onPath =>
      rw [sortFrom, if_neg absent, if_pos onPath] at done
      cases done
  | case3 path sorted name absent offPath missing =>
      rw [sortFrom_of_outside offPath missing] at done
      cases done
      refine ⟨.refl inOrder, ?_⟩
      intro inBatch
      obtain ⟨other, listed, named⟩ := List.mem_map.mp inBatch
      have differs := List.find?_eq_none.mp missing other listed
      simp [named] at differs
  | case4 path sorted name absent offPath decl found ih =>
      have listed := List.mem_of_find?_eq_some found
      have named : decl.name = name := by simpa using List.find?_some found
      rw [sortFrom_of_find? absent offPath found] at done
      cases walked : decl.bases.foldlM
        (fun sorted base => sortFrom batch (path ++ [name]) sorted base.name) sorted with
      | error fault =>
          rw [walked] at done
          cases done
      | ok below =>
          rw [walked] at done
          cases done
          obtain ⟨sorts, placed⟩ := foldlM_sortsTo Base.name
            (fun base sorted result inOrder done => ih sorted base inOrder done) inOrder walked
          have fresh : name ∉ below.map ClassDef.name := by
            intro early
            exact absent (by simpa using sorts.apart name (by simp) early)
          refine ⟨⟨sorts.kept.trans (List.prefix_append _ _), ?_, ?_⟩, by simp [named]⟩
          · exact .concat sorts.inOrder listed (named ▸ fresh) placed
          · intro step onPath inside
            rw [List.map_append, List.map_singleton, named, List.mem_append,
              List.mem_singleton] at inside
            rcases inside with early | rfl
            · exact sorts.apart step (List.mem_append_left _ onPath) early
            · exact absurd onPath offPath

theorem basesFirst_sorts {sorted : List ClassDef} (done : basesFirst batch = .ok sorted) :
    BasesFirst batch sorted ∧ ∀ decl ∈ batch, decl.name ∈ sorted.map ClassDef.name := by
  obtain ⟨sorts, placed⟩ := foldlM_sortsTo ClassDef.name
    (fun _ _ _ inOrder done => sortFrom_sortsTo inOrder done) .nil done
  exact ⟨sorts.inOrder, fun decl listed => placed decl listed (List.mem_map_of_mem listed)⟩

namespace ClassTable

variable {table : ClassTable}

/-- What a batch is checked for before it is sorted. -/
structure Checked (table : ClassTable) (batch : List ClassDef) : Prop where
  fresh : ∀ decl ∈ batch, table.contains decl.name = false
  distinct : (batch.map ClassDef.name).Nodup
  distinctBases : ∀ decl ∈ batch, decl.repeatedBase? = none
  known : ∀ decl ∈ batch, ∀ base ∈ decl.bases,
    table.contains base.name = true ∨ base.name ∈ batch.map ClassDef.name

theorem duplicate?_eq_none_iff {earlier : List String} :
    table.duplicate? earlier batch = none ↔
      (∀ decl ∈ batch, table.contains decl.name = false ∧ decl.name ∉ earlier ∧
        decl.repeatedBase? = none) ∧ (batch.map ClassDef.name).Nodup := by
  induction batch generalizing earlier with
  | nil => simp [duplicate?, duplicateAmong?]
  | cons decl rest ih =>
      rw [duplicate?, duplicateAmong?, ← duplicate?, List.forall_mem_cons, List.map_cons,
        List.nodup_cons]
      by_cases taken : table.contains decl.name = true ∨ decl.name ∈ earlier
      · rw [if_pos taken]
        rcases taken with old | again
        · simp [old]
        · simp [again]
      · rw [if_neg taken]
        push Not at taken
        cases repeated : decl.repeatedBase? with
        | some base => simp [ClassDef.duplicateBase?, repeated]
        | none =>
            simp only [ClassDef.duplicateBase?, repeated, Option.map_none, ih, List.mem_append,
              List.mem_singleton, not_or]
            constructor
            · rintro ⟨later, distinct⟩
              refine ⟨⟨⟨by simpa using taken.1, taken.2, trivial⟩, fun other listed =>
                ⟨(later other listed).1, (later other listed).2.1.1, (later other listed).2.2⟩⟩,
                ?_, distinct⟩
              intro again
              obtain ⟨other, listed, same⟩ := List.mem_map.mp again
              exact (later other listed).2.1.2 same
            · rintro ⟨⟨_, later⟩, apart, distinct⟩
              refine ⟨fun other listed => ⟨(later other listed).1,
                ⟨(later other listed).2.1, ?_⟩, (later other listed).2.2⟩, distinct⟩
              exact fun same => apart (same ▸ List.mem_map_of_mem listed)

theorem unknownBase?_eq_none_iff : table.unknownBase? batch = none ↔
    ∀ decl ∈ batch, ∀ base ∈ decl.bases,
      table.contains base.name = true ∨ base.name ∈ batch.map ClassDef.name := by
  simp [unknownBase?, unknownBaseAmong?, List.findSome?_eq_none_iff, or_iff_not_imp_left]

theorem checked_iff : table.Checked batch ↔
    table.duplicate? [] batch = none ∧ table.unknownBase? batch = none := by
  rw [duplicate?_eq_none_iff, unknownBase?_eq_none_iff]
  constructor
  · exact fun checked => ⟨⟨fun decl listed => ⟨checked.fresh decl listed, List.not_mem_nil,
      checked.distinctBases decl listed⟩, checked.distinct⟩, checked.known⟩
  · rintro ⟨⟨apart, distinct⟩, known⟩
    exact ⟨fun decl listed => (apart decl listed).1, distinct,
      fun decl listed => (apart decl listed).2.2, known⟩

theorem outcome_registerAll_of_checked (checked : table.Checked batch) :
    outcome (registerAll batch) table =
      match basesFirst batch with
      | .error fault => (.error fault, table)
      | .ok sorted => outcome (sorted.mapM register) table := by
  obtain ⟨duplicate, unknown⟩ := checked_iff.mp checked
  unfold registerAll
  rw [outcome_bind_ok (outcome_get table)]
  simp only [duplicate, unknown]
  cases basesFirst batch <;> rfl

theorem outcome_registerAll_of_not_checked (refused : ¬ table.Checked batch) :
    ∃ fault, outcome (registerAll batch) table = (.error fault, table) := by
  unfold registerAll
  rw [outcome_bind_ok (outcome_get table)]
  cases duplicate : table.duplicate? [] batch with
  | some fault => exact ⟨fault, rfl⟩
  | none =>
      cases unknown : table.unknownBase? batch with
      | some fault => exact ⟨fault, rfl⟩
      | none => exact absurd (checked_iff.mpr ⟨duplicate, unknown⟩) refused

theorem Checked.inTurn (checked : table.Checked batch) {sorted : List ClassDef}
    (inOrder : BasesFirst batch sorted) : InTurn (table.classes.map ClassDef.name) sorted := by
  induction inOrder with
  | nil => trivial
  | @concat sorted decl inOrder listed fresh after ih =>
      refine inTurn_append.mpr ⟨ih, ⟨?_, checked.distinctBases decl listed, ?_⟩, trivial⟩
      · rw [List.mem_append, not_or, ← contains_iff_mem, checked.fresh decl listed]
        exact ⟨Bool.false_ne_true, fresh⟩
      · intro base clause
        rw [List.mem_append, ← contains_iff_mem]
        rcases checked.known decl listed base clause with old | inBatch
        · exact .inl old
        · exact .inr (after base clause inBatch)

theorem atomic_registerAll (batch : List ClassDef) : Atomic (registerAll batch) := by
  intro table fault failed
  by_cases checked : table.Checked batch
  · rw [outcome_registerAll_of_checked checked] at failed ⊢
    cases sorts : basesFirst batch with
    | error fault => rfl
    | ok sorted =>
        obtain ⟨grown, done, _⟩ :=
          outcome_mapM_register (checked.inTurn (basesFirst_sorts sorts).1)
        simp only [sorts, done] at failed
        cases failed
  · obtain ⟨_, refused⟩ := outcome_registerAll_of_not_checked checked
    rw [refused]

theorem atomic_register (decl : ClassDef) : Atomic (register decl) := by
  intro table fault failed
  by_cases admitted : table.Admits decl
  · rw [outcome_register_of_admits admitted] at failed
    cases failed
  · obtain ⟨_, refused⟩ := outcome_register_of_not_admits admitted
    rw [refused]

end ClassTable

end StaticResolution

import Mathlib.Data.List.Nodup
import StaticResolution.ClassTable
import StaticResolution.Proofs.Outcome

/-!
What registrations do to a table: they add admitted classes at its end and nothing else. So every
reachable table holds each name once, and what it says about a class stays true when it grows.
-/

namespace StaticResolution

structure ClassTable.Admits (table : ClassTable) (decl : ClassDef) : Prop where
  fresh : table.contains decl.name = false
  distinct : decl.repeatedBase? = none
  known : ∀ base ∈ decl.bases, table.contains base.name = true

namespace ClassTable

theorem outcome_register_of_admits {table : ClassTable} {decl : ClassDef}
    (admitted : table.Admits decl) :
    outcome (register decl) table = (.ok table.size, table.add decl admitted.known) := by
  unfold register
  rw [outcome_bind_ok (outcome_get table)]
  have known : decl.bases.find? (fun base => !table.contains base.name) = none := by
    simpa using admitted.known
  simp only [admitted.fresh, Bool.false_eq_true, if_false, ClassDef.duplicateBase?,
    admitted.distinct, Option.map_none]
  split
  next base missing => simp [known] at missing
  next missing => rfl

theorem outcome_register_of_not_admits {table : ClassTable} {decl : ClassDef}
    (refused : ¬ table.Admits decl) :
    ∃ fault, outcome (register decl) table = (.error fault, table) := by
  unfold register
  rw [outcome_bind_ok (outcome_get table)]
  by_cases fresh : table.contains decl.name
  · exact ⟨.duplicateClass decl.name, by rw [if_pos fresh]; rfl⟩
  · rw [if_neg fresh]
    cases repeated : decl.repeatedBase? with
    | some base =>
        simp only [ClassDef.duplicateBase?, repeated, Option.map_some]
        exact ⟨.duplicateBase decl.name base, rfl⟩
    | none =>
        simp only [ClassDef.duplicateBase?, repeated, Option.map_none]
        split
        next base missing => exact ⟨.unknownBase decl.name base.name, rfl⟩
        next missing =>
          refine absurd ⟨by simpa using fresh, repeated, ?_⟩ refused
          simpa using missing

inductive Grows (start : ClassTable) : ClassTable → Prop
  | refl : Grows start start
  | add {table : ClassTable} {decl : ClassDef} (grown : Grows start table)
      (admitted : table.Admits decl) : Grows start (table.add decl admitted.known)

theorem Grows.trans {first second third : ClassTable} (early : Grows first second)
    (late : Grows second third) : Grows first third := by
  induction late with
  | refl => exact early
  | add _ admitted ih => exact .add ih admitted

theorem grows_register (table : ClassTable) (decl : ClassDef) :
    Grows table (outcome (register decl) table).2 := by
  by_cases admitted : table.Admits decl
  · rw [outcome_register_of_admits admitted]
    exact .add .refl admitted
  · obtain ⟨fault, failed⟩ := outcome_register_of_not_admits admitted
    rw [failed]
    exact .refl

theorem grows_registerAll (table : ClassTable) (batch : List ClassDef) :
    Grows table (outcome (registerAll batch) table).2 := by
  unfold registerAll
  rw [outcome_bind_ok (outcome_get table)]
  cases table.duplicate? [] batch with
  | some fault => exact .refl
  | none =>
      cases table.unknownBase? batch with
      | some fault => exact .refl
      | none =>
          cases basesFirst batch with
          | error fault => exact .refl
          | ok sorted =>
              exact outcome_mapM_induction
                (fun decl state grown => grown.trans (grows_register state decl)) sorted .refl

/-- The tables that calls of the two registrations lead to, whether they succeed or fail. -/
inductive Reachable : ClassTable → Prop
  | empty : Reachable .empty
  | register {table : ClassTable} (decl : ClassDef) (reachable : Reachable table) :
      Reachable (outcome (register decl) table).2
  | registerAll {table : ClassTable} (batch : List ClassDef) (reachable : Reachable table) :
      Reachable (outcome (registerAll batch) table).2

theorem Reachable.grows {table : ClassTable} (reachable : Reachable table) :
    Grows .empty table := by
  induction reachable with
  | empty => exact .refl
  | register decl _ ih => exact ih.trans (grows_register _ decl)
  | registerAll batch _ ih => exact ih.trans (grows_registerAll _ batch)

/-- A batch in which the class `A` is a shared base of `D` along two ways and an own base of `E`. -/
def mixedBatch : List ClassDef :=
  [{ name := "D", bases := [⟨"B", false⟩, ⟨"C", false⟩, ⟨"E", false⟩], members := [.data "d"] },
    { name := "E", bases := [⟨"A", false⟩] },
    { name := "C", bases := [⟨"A", true⟩] },
    { name := "B", bases := [⟨"A", true⟩], members := [.function "m" []] },
    { name := "A", members := [.function "m" [], .data "a"] }]

def mixed : ClassTable :=
  (outcome (registerAll mixedBatch) .empty).2

theorem reachable_mixed : Reachable mixed :=
  .registerAll mixedBatch .empty

end ClassTable

theorem firstRepeated_eq_none (seen list : List String) :
    firstRepeated seen list = none ↔ list.Nodup ∧ ∀ name ∈ list, name ∉ seen := by
  induction list generalizing seen with
  | nil => simp [firstRepeated]
  | cons name rest ih =>
      rw [firstRepeated, List.nodup_cons]
      by_cases met : name ∈ seen
      · simp [met]
      · rw [if_neg met, ih]
        constructor
        · rintro ⟨distinct, apart⟩
          refine ⟨⟨?_, distinct⟩, ?_⟩
          · intro later
            exact apart name later (by simp)
          · intro other listed
            rcases List.mem_cons.mp listed with rfl | later
            · exact met
            · exact fun early => apart other later (List.mem_append_left _ early)
        · rintro ⟨⟨absent, distinct⟩, apart⟩
          refine ⟨distinct, ?_⟩
          intro other later inside
          rcases List.mem_append.mp inside with early | same
          · exact apart other (List.mem_cons_of_mem _ later) early
          · exact absent (List.mem_singleton.mp same ▸ later)

theorem ClassDef.repeatedBase?_eq_none (decl : ClassDef) :
    decl.repeatedBase? = none ↔ (decl.bases.map Base.name).Nodup := by
  simp [repeatedBase?, firstRepeated_eq_none]

namespace ClassTable

structure WellFormed (table : ClassTable) : Prop where
  distinctNames : (table.classes.map ClassDef.name).Nodup
  distinctBases : ∀ decl ∈ table.classes, (decl.bases.map Base.name).Nodup

theorem contains_iff_mem {table : ClassTable} {name : String} :
    table.contains name = true ↔ name ∈ table.classes.map ClassDef.name := by
  simp [contains]

theorem WellFormed.add {table : ClassTable} {decl : ClassDef} (formed : WellFormed table)
    (admitted : table.Admits decl) : WellFormed (table.add decl admitted.known) := by
  constructor
  · have fresh : decl.name ∉ table.classes.map ClassDef.name := by
      rw [← contains_iff_mem, admitted.fresh]
      exact Bool.false_ne_true
    rw [ClassTable.add, List.map_append, List.map_singleton, ← List.concat_eq_append]
    exact formed.distinctNames.concat fresh
  · intro other listed
    rcases List.mem_append.mp listed with old | new
    · exact formed.distinctBases other old
    · rw [List.mem_singleton.mp new]
      exact (ClassDef.repeatedBase?_eq_none decl).mp admitted.distinct

theorem Grows.wellFormed {start table : ClassTable} (grown : Grows start table)
    (formed : WellFormed start) : WellFormed table := by
  induction grown with
  | refl => exact formed
  | add _ admitted ih => exact ih.add admitted

theorem Reachable.wellFormed {table : ClassTable} (reachable : Reachable table) :
    WellFormed table :=
  reachable.grows.wellFormed ⟨by simp [ClassTable.empty], by simp [ClassTable.empty]⟩

theorem find?_eq_none_iff {table : ClassTable} {name : String} :
    table.find? name = none ↔ table.contains name = false := by
  simp [find?, contains]

theorem exists_find? {table : ClassTable} {name : String}
    (registered : table.contains name = true) : ∃ decl, table.find? name = some decl := by
  cases found : table.find? name with
  | none => simp [find?_eq_none_iff.mp found] at registered
  | some decl => exact ⟨decl, rfl⟩

theorem mem_of_find? {table : ClassTable} {name : String} {decl : ClassDef}
    (found : table.find? name = some decl) : decl ∈ table.classes ∧ decl.name = name := by
  exact ⟨List.mem_of_find?_eq_some found, by simpa using List.find?_some found⟩

theorem WellFormed.find?_of_mem {table : ClassTable} (formed : WellFormed table) {name : String}
    {decl : ClassDef} (listed : decl ∈ table.classes) (named : decl.name = name) :
    table.find? name = some decl := by
  have registered : table.contains name = true := by
    rw [contains_iff_mem, ← named]
    exact List.mem_map_of_mem listed
  obtain ⟨other, found⟩ := exists_find? registered
  obtain ⟨otherListed, otherNamed⟩ := mem_of_find? found
  rw [found, List.inj_on_of_nodup_map formed.distinctNames otherListed listed
    (otherNamed.trans named.symm)]

theorem WellFormed.distinct_basesOf {table : ClassTable} (formed : WellFormed table)
    (name : String) : ((table.basesOf name).map Base.name).Nodup := by
  unfold basesOf
  split
  next decl found => exact formed.distinctBases decl (mem_of_find? found).1
  next => exact List.nodup_nil

theorem contains_of_mem_basesOf {table : ClassTable} {name : String} {base : Base}
    (listed : base ∈ table.basesOf name) : table.contains base.name = true := by
  have inside := table.rank_lt listed
  have bounded : table.rank name ≤ table.classes.length := List.findIdx_le_length
  have found : table.rank base.name < table.classes.length := by omega
  obtain ⟨owner, member, named⟩ := List.findIdx_lt_length.mp found
  exact List.any_eq_true.mpr ⟨owner, member, named⟩

section

variable {table : ClassTable}

theorem index?_of_contains {name : String} (registered : table.contains name = true) :
    table.index? name = some (table.rank name) :=
  List.findIdx?_eq_some_of_exists (by simpa [contains] using registered)

theorem contains_of_mem_bases {decl : ClassDef} (listed : decl ∈ table.classes) {base : Base}
    (clause : base ∈ decl.bases) : table.contains base.name = true := by
  obtain ⟨earlier, later, split⟩ := List.append_of_mem listed
  obtain ⟨owner, early, named⟩ := table.precede earlier decl later split base clause
  have inside : owner ∈ table.classes := by
    rw [split]
    exact List.mem_append_left _ early
  exact List.any_eq_true.mpr ⟨owner, inside, beq_iff_eq.mpr named⟩

end

def Extends (table larger : ClassTable) : Prop :=
  table.classes <+: larger.classes

theorem Grows.extension {table larger : ClassTable} (grown : Grows table larger) :
    Extends table larger := by
  induction grown with
  | refl => exact List.prefix_refl _
  | add _ _ ih => exact List.IsPrefix.trans ih (List.prefix_append _ _)

namespace Extends

variable {table larger : ClassTable} {name : String}

theorem contains (extension : Extends table larger) (registered : table.contains name = true) :
    larger.contains name = true := by
  rw [contains_iff_mem] at registered ⊢
  exact (List.IsPrefix.map ClassDef.name extension).subset registered

theorem find?_eq (extension : Extends table larger) (registered : table.contains name = true) :
    larger.find? name = table.find? name := by
  obtain ⟨decl, found⟩ := exists_find? registered
  obtain ⟨later, split⟩ := extension
  rw [found, find?, ← split, List.find?_append]
  rw [find?] at found
  rw [found]
  rfl

theorem rank_eq (extension : Extends table larger) (registered : table.contains name = true) :
    larger.rank name = table.rank name := by
  obtain ⟨later, split⟩ := extension
  have inside : table.rank name < table.classes.length :=
    List.findIdx_lt_length.mpr (by simpa using table.exists_of_contains registered)
  rw [rank, ← split, List.findIdx_append]
  exact if_pos inside

theorem index?_eq (extension : Extends table larger) (registered : table.contains name = true) :
    larger.index? name = table.index? name := by
  rw [index?_of_contains registered, index?_of_contains (extension.contains registered),
    extension.rank_eq registered]

theorem at?_eq (extension : Extends table larger) {index : Nat} (inside : index < table.size) :
    larger.at? index = table.at? index := by
  obtain ⟨later, split⟩ := extension
  rw [at?, ← split, List.getElem?_append_left inside]
  rfl

theorem basesAt_eq (extension : Extends table larger) {index : Nat} (inside : index < table.size) :
    larger.basesAt index = table.basesAt index := by
  rw [basesAt, basesAt, extension.at?_eq inside]
  cases found : table.at? index with
  | none => rfl
  | some decl =>
      have listed : decl ∈ table.classes := List.mem_of_getElem? found
      apply List.ext_getElem (by simp)
      intro position _ _
      simp only [List.getElem_mapIdx]
      rw [extension.rank_eq (contains_of_mem_bases listed (List.getElem_mem _))]

end Extends

end ClassTable

end StaticResolution

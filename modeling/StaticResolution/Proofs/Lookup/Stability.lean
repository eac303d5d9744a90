import StaticResolution.Proofs.ClassTable.Refinement
import StaticResolution.Proofs.Conversion
import StaticResolution.Proofs.Lookup.Sites

/-!
Registration changes no answer about the classes that are registered already; other names may gain
conversions by it, and lose none. The order of a batch decides in which order its classes are
inserted, and nothing that a query by name can tell.
-/

namespace StaticResolution

namespace ClassTable

variable {table larger : ClassTable} {name : String}

theorem lookup_congr {layout : Layout} {member : String}
    (alike : ∀ part ∈ layout.subobjects,
      larger.declares part.className member = table.declares part.className member) :
    larger.lookup layout member = table.lookup layout member := by
  have same : larger.declarers layout.subobjects member =
      table.declarers layout.subobjects member := List.filter_congr alike
  rw [lookup, lookup, same]

theorem lookupIn_congr {layout : Layout} {member : String}
    (alike : ∀ part ∈ layout.subobjects,
      larger.declares part.className member = table.declares part.className member)
    (qualifier : String) :
    larger.lookupIn layout qualifier member = table.lookupIn layout qualifier member := by
  unfold lookupIn
  cases layout.ofClass qualifier with
  | nil => rfl
  | cons start rest =>
      have same : ∀ p : Subobject → Bool,
          larger.declarers (layout.subobjects.filter p) member =
            table.declarers (layout.subobjects.filter p) member :=
        fun _ => List.filter_congr fun part kept => alike part (List.mem_of_mem_filter kept)
      simp only [same]

theorem conversion?_of_not_contains (formed : table.WellFormed) {source : String}
    (absent : table.contains source = false) (target : String) :
    table.conversion? source target = ConversionRules.standard source target := by
  unfold conversion?
  cases standard : ConversionRules.standard source target with
  | some conversion => rfl
  | none =>
      have differ := (ConversionRules.standard_eq_none_iff.mp standard).1
      have apart : ¬ table.Inherits source target :=
        fun inherits => differ (eq_of_inherits_of_not_contains absent inherits)
      have missing := mt (count_pos_iff_inherits formed).mp apart
      exact if_neg (by omega)

namespace Extends

theorem declares_eq (extension : Extends table larger) (registered : table.contains name = true) :
    larger.declares name = table.declares name := by
  funext member
  rw [declares, declares, extension.find?_eq registered]

theorem declares_layoutOf (extension : Extends table larger) (formed : table.WellFormed)
    (registered : table.contains name = true) (member : String) :
    ∀ part ∈ (table.layoutOf name).subobjects,
      larger.declares part.className member = table.declares part.className member := by
  intro part listed
  rw [extension.declares_eq ((inherits_of_mem_layoutOf formed listed).contains registered)]

theorem layout_eq (extension : Extends table larger) (formed : table.WellFormed)
    (registered : table.contains name = true) : larger.layout name = table.layout name := by
  rw [layout, layout, extension.contains registered, registered,
    extension.layoutOf_eq formed registered]

theorem conversion?_eq (extension : Extends table larger) (formed : table.WellFormed)
    {source : String} (registered : table.contains source = true) (target : String) :
    larger.conversion? source target = table.conversion? source target := by
  rw [conversion?, conversion?, extension.layoutOf_eq formed registered]

theorem conversion?_of_some (extension : Extends table larger) (formed : table.WellFormed)
    {source target : String} {conversion : Conversion}
    (converts : table.conversion? source target = some conversion) :
    larger.conversion? source target = some conversion := by
  cases registered : table.contains source with
  | true => rw [extension.conversion?_eq formed registered, converts]
  | false =>
      rw [conversion?_of_not_contains formed registered] at converts
      rw [conversion?, converts]

end Extends

/-- What the queries about one class tell stays as it was, also what they tell about its place. -/
structure Keeps (table larger : ClassTable) (name : String) : Prop where
  index? : larger.index? name = table.index? name
  find? : larger.find? name = table.find? name
  at? : ∀ index, table.index? name = some index → larger.at? index = table.at? index
  basesAt : ∀ index, table.index? name = some index → larger.basesAt index = table.basesAt index
  ancestry : larger.ancestry name = table.ancestry name
  layout : larger.layout name = table.layout name
  lookup : ∀ member, (larger.layout name >>= fun layout => larger.lookup layout member) =
    table.layout name >>= fun layout => table.lookup layout member
  lookupIn : ∀ qualifier member,
    (larger.layout name >>= fun layout => larger.lookupIn layout qualifier member) =
      table.layout name >>= fun layout => table.lookupIn layout qualifier member

theorem Extends.keeps (extension : Extends table larger) (formed : table.WellFormed)
    (registered : table.contains name = true) : Keeps table larger name := by
  have inside : ∀ index, table.index? name = some index → index < table.size :=
    fun index placed => (List.findIdx?_eq_some_iff_getElem.mp placed).1
  have laidOut : table.layout name = .ok (table.layoutOf name) :=
    layout_eq_ok_iff.mpr ⟨registered, rfl⟩
  constructor
  case index? => exact extension.index?_eq registered
  case find? => exact extension.find?_eq registered
  case at? => exact fun index placed => extension.at?_eq (inside index placed)
  case basesAt => exact fun index placed => extension.basesAt_eq (inside index placed)
  case ancestry => exact (extension.agreesAt registered).ancestry_eq
  case layout => exact extension.layout_eq formed registered
  case lookup =>
    intro member
    rw [extension.layout_eq formed registered, laidOut]
    exact lookup_congr (extension.declares_layoutOf formed registered member)
  case lookupIn =>
    intro qualifier member
    rw [extension.layout_eq formed registered, laidOut]
    exact lookupIn_congr (extension.declares_layoutOf formed registered member) qualifier

theorem grows_of_registration
    (done : (∃ decl index, outcome (register decl) table = (.ok index, larger)) ∨
      ∃ batch indices, outcome (registerAll batch) table = (.ok indices, larger)) :
    Grows table larger := by
  rcases done with ⟨decl, index, done⟩ | ⟨batch, indices, done⟩
  · have grown := grows_register table decl
    rwa [done] at grown
  · have grown := grows_registerAll table batch
    rwa [done] at grown

/-- A registration that succeeds leaves every answer about the classes registered before as it was.
Conversions from them stay as they were too, and any other name keeps those that it had, whatever
layouts are remembered for the two tables. -/
theorem registration_keeps (reachable : Reachable table)
    (done : (∃ decl index, outcome (register decl) table = (.ok index, larger)) ∨
      ∃ batch indices, outcome (registerAll batch) table = (.ok indices, larger)) :
    (∀ name, table.contains name = true → Keeps table larger name) ∧
    ∀ source target (memo largerMemo : LayoutMemo),
      memo.Coherent table → largerMemo.Coherent larger →
        (table.contains source = true →
          ((larger.convert source target).run largerMemo).run.1 =
            ((table.convert source target).run memo).run.1) ∧
        ∀ conversion, ((table.convert source target).run memo).run.1 = some conversion →
          ((larger.convert source target).run largerMemo).run.1 = some conversion := by
  have formed := reachable.wellFormed
  have grown := grows_of_registration done
  have extension := grown.extension
  refine ⟨fun name registered => extension.keeps formed registered, ?_⟩
  intro source target memo largerMemo coherent largerCoherent
  obtain ⟨answer, _⟩ := answers_convert formed source target memo coherent
  obtain ⟨largerAnswer, _⟩ :=
    answers_convert (grown.wellFormed formed) source target largerMemo largerCoherent
  rw [answer, largerAnswer]
  exact ⟨fun registered => extension.conversion?_eq formed registered target,
    fun conversion converts => extension.conversion?_of_some formed converts⟩

theorem registration_keeps_mixed : Reachable mixed ∧
    ∃ larger, outcome (register { name := "F", bases := [⟨"D", false⟩] }) mixed = (.ok 5, larger) ∧
      Keeps mixed larger "D" ∧
      ((mixed.convert "D" "E").run .empty).run.1 = some .derivedToBase ∧
      ((larger.convert "D" "E").run .empty).run.1 = some .derivedToBase ∧
      ((mixed.convert "F" "D").run .empty).run.1 = none ∧
      ((larger.convert "F" "D").run .empty).run.1 = some .derivedToBase := by
  have done : outcome (register { name := "F", bases := [⟨"D", false⟩] }) mixed =
      (.ok 5, (outcome (register { name := "F", bases := [⟨"D", false⟩] }) mixed).2) :=
    Prod.ext (by cbv) rfl
  have formed := reachable_mixed.wellFormed
  have largerFormed := (grows_of_registration (.inl ⟨_, _, done⟩)).wellFormed formed
  have forgotten := LayoutMemo.coherent_empty
  obtain ⟨keeps, converts⟩ := registration_keeps reachable_mixed (.inl ⟨_, _, done⟩)
  have before : ((mixed.convert "D" "E").run .empty).run.1 = some .derivedToBase := by
    rw [(answers_convert formed "D" "E" .empty (forgotten _)).1, conversion?,
      show ConversionRules.standard "D" "E" = none by decide]
    cbv
  have after := (converts "D" "E" .empty .empty (forgotten _) (forgotten _)).2 _ before
  have strange : ConversionRules.standard "F" "D" = none := by decide
  refine ⟨reachable_mixed, _, done, keeps "D" (by cbv), before, after, ?_, ?_⟩
  · rw [(answers_convert formed "F" "D" .empty (forgotten _)).1,
      conversion?_of_not_contains formed (by cbv), strange]
  · rw [(answers_convert largerFormed "F" "D" .empty (forgotten _)).1, conversion?, strange]
    cbv

end ClassTable

namespace Layout

variable (layout : Layout) (place : String → Nat)

theorem survives_reindexed (found : List Subobject) (part : Subobject) :
    (layout.reindexed place).survives (found.map (Subobject.reindexed place))
      (part.reindexed place) = layout.survives found part := by
  simp only [survives, List.all_map, contains, within_reindexed]
  rfl

theorem splitHidden_reindexed (found : List Subobject) :
    (layout.reindexed place).splitHidden (found.map (Subobject.reindexed place)) =
      ((layout.splitHidden found).1.map (Subobject.reindexed place),
        (layout.splitHidden found).2.map (Subobject.reindexed place)) := by
  simp only [splitHidden_eq, List.filter_map, Function.comp_def, survives_reindexed]

theorem verdictAmong_reindexed (member : String) (found : List Subobject) :
    (layout.reindexed place).verdictAmong member (found.map (Subobject.reindexed place)) =
      layout.verdictAmong member found := by
  unfold verdictAmong
  simp only [List.isEmpty_map, splitHidden_reindexed]
  split
  · rfl
  · rcases layout.splitHidden found with ⟨survivors, hidden⟩
    rcases survivors with _ | ⟨winner, _ | ⟨second, rest⟩⟩
    · rfl
    · cases hidden with
      | nil => rfl
      | cons first others => simp [Subobject.site, Subobject.reindexed]
    · simp [Subobject.site, Subobject.reindexed]

theorem choiceAmong_reindexed (qualifier member : String) (found : List Subobject) :
    (layout.reindexed place).choiceAmong qualifier member
      (found.map (Subobject.reindexed place)) = layout.choiceAmong qualifier member found := by
  unfold choiceAmong
  rw [splitHidden_reindexed]
  rcases layout.splitHidden found with ⟨survivors, hidden⟩
  cases survivors <;> rfl

end Layout

namespace ClassTable

variable {table other : ClassTable}

section Reindexed

variable (layout : Layout) (place : String → Nat) (member : String)

theorem declarers_reindexed (declares : other.declares = table.declares)
    (parts : List Subobject) :
    other.declarers (parts.map (Subobject.reindexed place)) member =
      (table.declarers parts member).map (Subobject.reindexed place) := by
  rw [declarers, declarers, declares, List.filter_map]
  rfl

theorem lookup_reindexed (declares : other.declares = table.declares) :
    other.lookup (layout.reindexed place) member = table.lookup layout member := by
  rw [lookup, lookup, Layout.subobjects_reindexed, declarers_reindexed _ _ declares,
    Layout.verdictAmong_reindexed]

theorem lookupIn_reindexed (declares : other.declares = table.declares) (qualifier : String) :
    other.lookupIn (layout.reindexed place) qualifier member =
      table.lookupIn layout qualifier member := by
  unfold lookupIn
  rw [Layout.ofClass_reindexed]
  cases layout.ofClass qualifier with
  | nil => rfl
  | cons start rest =>
      have scope : (layout.reindexed place).subobjects.filter (fun part =>
          ((layout.reindexed place).within (start.reindexed place).id).contains part.id) =
          (layout.subobjects.filter fun part =>
            (layout.within start.id).contains part.id).map (Subobject.reindexed place) := by
        rw [Layout.subobjects_reindexed, List.filter_map, Layout.within_reindexed]
        rfl
      simp only [List.map_cons, scope, declarers_reindexed _ _ declares,
        Layout.choiceAmong_reindexed]

end Reindexed

theorem WellFormed.find?_eq_of_perm (otherFormed : other.WellFormed)
    (perm : other.classes.Perm table.classes) : other.find? = table.find? := by
  funext name
  cases found : table.find? name with
  | some decl =>
      obtain ⟨listed, named⟩ := mem_of_find? found
      exact otherFormed.find?_of_mem (perm.mem_iff.mpr listed) named
  | none =>
      rw [find?_eq_none_iff] at found ⊢
      rw [← found, Bool.eq_iff_iff, contains_iff_mem, contains_iff_mem]
      exact (perm.map ClassDef.name).mem_iff

/-- What queries by name tell about the classes of two tables, also where the layouts that they
remember differ. -/
structure SameByName (table other : ClassTable) : Prop where
  find? : ∀ name, other.find? name = table.find? name
  ancestry : ∀ name, other.ancestry name = table.ancestry name
  layout : ∀ name, other.layout name =
    (table.layout name).map fun layout => layout.reindexed other.rank
  lookup : ∀ name member, (other.layout name >>= fun layout => other.lookup layout member) =
    table.layout name >>= fun layout => table.lookup layout member
  lookupIn : ∀ name qualifier member,
    (other.layout name >>= fun layout => other.lookupIn layout qualifier member) =
      table.layout name >>= fun layout => table.lookupIn layout qualifier member
  convert : ∀ source target (memo otherMemo : LayoutMemo),
    memo.Coherent table → otherMemo.Coherent other →
      ((other.convert source target).run otherMemo).run.1 =
        ((table.convert source target).run memo).run.1

theorem sameByName_of_find?_eq (formed : table.WellFormed) (otherFormed : other.WellFormed)
    (same : other.find? = table.find?) : SameByName table other := by
  have agrees : ∀ name, AgreesAt table other name := fun _ below _ => congrFun same below
  have declares : other.declares = table.declares := by
    funext className member
    rw [ClassTable.declares, same]
    rfl
  constructor
  case find? => exact congrFun same
  case ancestry => exact fun name => (agrees name).ancestry_eq
  case layout => exact fun name => (agrees name).layout_eq
  case lookup =>
    intro name member
    rw [(agrees name).layout_eq]
    cases table.layout name with
    | error fault => rfl
    | ok layout => exact lookup_reindexed layout other.rank member declares
  case lookupIn =>
    intro name qualifier member
    rw [(agrees name).layout_eq]
    cases table.layout name with
    | error fault => rfl
    | ok layout => exact lookupIn_reindexed layout other.rank member declares qualifier
  case convert =>
    intro source target memo otherMemo coherent otherCoherent
    apply convert_eq_of_conversion?_eq formed otherFormed _ coherent otherCoherent
    rw [conversion?, conversion?, (agrees source).layoutOf_eq, Layout.count_reindexed]

theorem reachable_of_registerAll (reachable : Reachable table) {batch : List ClassDef}
    {indices : List Nat} (done : outcome (registerAll batch) table = (.ok indices, other)) :
    Reachable other := by
  have grown := Reachable.registerAll batch reachable
  rwa [done] at grown

theorem registerAll_ok_iff_of_perm {batch reordered : List ClassDef}
    (perm : reordered.Perm batch) :
    (∃ indices grown, outcome (registerAll batch) table = (.ok indices, grown)) ↔
      ∃ indices grown, outcome (registerAll reordered) table = (.ok indices, grown) := by
  rw [registerAll_ok_iff_inTurn, registerAll_ok_iff_inTurn]
  constructor
  · exact fun ⟨order, sorts, ready⟩ => ⟨order, sorts.trans perm.symm, ready⟩
  · exact fun ⟨order, sorts, ready⟩ => ⟨order, sorts.trans perm, ready⟩

theorem sameByName_of_perm {batch reordered : List ClassDef} (reachable : Reachable table)
    (perm : reordered.Perm batch) {indices otherIndices : List Nat} {grown otherGrown : ClassTable}
    (done : outcome (registerAll batch) table = (.ok indices, grown))
    (otherDone : outcome (registerAll reordered) table = (.ok otherIndices, otherGrown)) :
    SameByName grown otherGrown := by
  have formed := (reachable_of_registerAll reachable done).wellFormed
  have otherFormed := (reachable_of_registerAll reachable otherDone).wellFormed
  obtain ⟨order, sorts, classes⟩ := classes_of_registerAll done
  obtain ⟨otherOrder, otherSorts, otherClasses⟩ := classes_of_registerAll otherDone
  apply sameByName_of_find?_eq formed otherFormed
  apply otherFormed.find?_eq_of_perm
  rw [classes, otherClasses]
  exact ((otherSorts.trans perm).trans sorts.symm).append_left table.classes

/-- A batch can be registered in every order or in none, and no query by name tells the orders
apart. -/
theorem registerAll_order_free {batch reordered : List ClassDef} (reachable : Reachable table)
    (perm : reordered.Perm batch) :
    ((∃ indices grown, outcome (registerAll batch) table = (.ok indices, grown)) ↔
      ∃ indices grown, outcome (registerAll reordered) table = (.ok indices, grown)) ∧
    ∀ indices grown otherIndices otherGrown,
      outcome (registerAll batch) table = (.ok indices, grown) →
        outcome (registerAll reordered) table = (.ok otherIndices, otherGrown) →
          SameByName grown otherGrown :=
  ⟨registerAll_ok_iff_of_perm perm, fun _ _ _ _ => sameByName_of_perm reachable perm⟩

theorem registerAll_order_free_mixed :
    Reachable .empty ∧ (mixedBatch.rotate 1).Perm mixedBatch ∧
      ∃ indices otherIndices rotated,
        outcome (registerAll mixedBatch) .empty = (.ok indices, mixed) ∧
        outcome (registerAll (mixedBatch.rotate 1)) .empty = (.ok otherIndices, rotated) ∧
        mixed.index? "E" = some 3 ∧ rotated.index? "E" = some 1 ∧ SameByName mixed rotated := by
  have perm := List.rotate_perm mixedBatch 1
  have done : outcome (registerAll mixedBatch) .empty = (.ok [0, 1, 2, 3, 4], mixed) :=
    Prod.ext (by cbv) rfl
  have otherDone : outcome (registerAll (mixedBatch.rotate 1)) .empty = (.ok [0, 1, 2, 3, 4],
      (outcome (registerAll (mixedBatch.rotate 1)) .empty).2) := Prod.ext (by cbv) rfl
  obtain ⟨_, same⟩ := registerAll_order_free .empty perm
  exact ⟨.empty, perm, _, _, _, done, otherDone, by cbv, by cbv, same _ _ _ _ done otherDone⟩

end ClassTable

end StaticResolution

import StaticResolution.Declarations

/-!
What fingerprints keep apart. The fold of the parameters loses nothing of its seed and nothing of a
single parameter, so that a change in one place always shows, if the names in it are hashed apart.
-/

namespace StaticResolution

namespace Digest

/-- No two of the names have the same hash. -/
def Separates (names : List String) : Prop :=
  ∀ first ∈ names, ∀ second ∈ names, ofText first = ofText second → first = second

instance (names : List String) : Decidable (Separates names) :=
  inferInstanceAs (Decidable (∀ first ∈ names, ∀ second ∈ names, _ → _))

theorem Separates.subset {names fewer : List String} (apart : Separates names)
    (inside : fewer ⊆ names) : Separates fewer :=
  fun first firstListed second secondListed =>
    apart first (inside firstListed) second (inside secondListed)

end Digest

namespace Fingerprint

theorem separator_mul_inj {first second : UInt64} :
    first * separator = second * separator ↔ first = second := by
  refine ⟨fun same => ?_, fun same => by rw [same]⟩
  have inverse : separator * 0xd3f20f0a40208825 = 1 := by decide
  rw [← UInt64.mul_one first, ← UInt64.mul_one second, ← inverse, ← UInt64.mul_assoc,
    ← UInt64.mul_assoc, same]

theorem foldFrom_inj {position : Nat} {params : List Fingerprint} {first second : UInt64} :
    foldFrom position first params = foldFrom position second params ↔ first = second := by
  induction params generalizing position first second with
  | nil => rfl
  | cons param rest ih => rw [foldFrom, foldFrom, ih, UInt64.add_left_inj, separator_mul_inj]

theorem foldFrom_change_inj {position : Nat} {seed : UInt64} {front back : List Fingerprint}
    {old new : Fingerprint} :
    foldFrom position seed (front ++ old :: back) = foldFrom position seed (front ++ new :: back) ↔
      old = new := by
  induction front generalizing position seed with
  | nil =>
      rw [List.nil_append, List.nil_append, foldFrom, foldFrom, foldFrom_inj, UInt64.add_right_inj,
        UInt64.xor_right_inj]
      exact ⟨fun same => congrArg mk same, fun same => by rw [same]⟩
  | cons first rest ih => exact ih

theorem foldParams_injective (params : List Fingerprint) :
    Function.Injective fun seed => foldParams seed params :=
  fun _ _ same => foldFrom_inj.mp same

end Fingerprint

/-- Two lists of one length that differ in one place only. -/
structure DifferAt {α : Type} (position : Nat) (first second : List α) : Prop where
  length : first.length = second.length
  here : first[position]? ≠ second[position]?
  elsewhere : ∀ other, other ≠ position → first[other]? = second[other]?

theorem DifferAt.of_split {α : Type} {front back : List α} {old new : α} (other : old ≠ new) :
    DifferAt front.length (front ++ old :: back) (front ++ new :: back) := by
  refine ⟨by simp, by simpa using other, ?_⟩
  intro place elsewhere
  rcases Nat.lt_or_ge place front.length with before | after
  · rw [List.getElem?_append_left before, List.getElem?_append_left before]
  · obtain ⟨offset, rfl⟩ := Nat.exists_eq_add_of_lt (Nat.lt_of_le_of_ne after elsewhere.symm)
    have offsetOf : front.length + offset + 1 - front.length = offset + 1 := by omega
    rw [List.getElem?_append_right after, List.getElem?_append_right after, offsetOf,
      List.getElem?_cons_succ, List.getElem?_cons_succ]

theorem DifferAt.exists_split {α : Type} {position : Nat} {first second : List α}
    (differ : DifferAt position first second) :
    ∃ front old new back,
      first = front ++ old :: back ∧ second = front ++ new :: back ∧ old ≠ new := by
  have inside : position < first.length := by
    apply Nat.lt_of_not_le
    intro beyond
    apply differ.here
    rw [List.getElem?_eq_none beyond, List.getElem?_eq_none (differ.length ▸ beyond)]
  have secondInside : position < second.length := differ.length ▸ inside
  have front : second.take position = first.take position := by
    apply List.ext_getElem?
    intro other
    rw [List.getElem?_take, List.getElem?_take]
    split
    next before => exact (differ.elsewhere other (Nat.ne_of_lt before)).symm
    next => rfl
  have back : second.drop (position + 1) = first.drop (position + 1) := by
    apply List.ext_getElem?
    intro offset
    rw [List.getElem?_drop, List.getElem?_drop]
    exact (differ.elsewhere _ (by omega)).symm
  refine ⟨first.take position, first[position], second[position], first.drop (position + 1), ?_,
    ?_, ?_⟩
  · rw [List.getElem_cons_drop, List.take_append_drop]
  · rw [← front, ← back, List.getElem_cons_drop, List.take_append_drop]
  · intro same
    apply differ.here
    rw [List.getElem?_eq_getElem inside, List.getElem?_eq_getElem secondInside, same]

theorem Fingerprint.foldParams_ne_of_differAt {seed : UInt64} {position : Nat}
    {first second : List Fingerprint} (differ : DifferAt position first second) :
    foldParams seed first ≠ foldParams seed second := by
  obtain ⟨front, old, new, back, rfl, rfl, other⟩ := differ.exists_split
  exact fun same => other (foldFrom_change_inj.mp same)

namespace Param

/-- A parameter of another type passed alike, or of the same type passed in another form. -/
inductive Change (param : Param) : Param → Prop
  | typeName {new : String} (differ : param.typeName ≠ new) :
      Change param { param with typeName := new }
  | form {isConst : Bool} {passing : Passing}
      (differ : (param.isConst, param.passing) ≠ (isConst, passing)) :
      Change param { param with isConst := isConst, passing := passing }

theorem form_inj {firstConst secondConst : Bool} {first second : Passing} :
    firstConst.toUInt64 ^^^ first.signatureBits = secondConst.toUInt64 ^^^ second.signatureBits ↔
      (firstConst, first) = (secondConst, second) := by
  cases firstConst <;> cases secondConst <;> cases first <;> cases second <;> decide

theorem fingerprint_ne_of_form {param : Param} {isConst : Bool} {passing : Passing}
    (differ : (param.isConst, param.passing) ≠ (isConst, passing)) :
    param.fingerprint ≠ { param with isConst := isConst, passing := passing }.fingerprint := by
  intro same
  have bits := congrArg Fingerprint.bits same
  simp only [fingerprint, UInt64.xor_assoc, UInt64.xor_right_inj] at bits
  exact differ (form_inj.mp bits)

theorem Change.fingerprint_ne {param other : Param} (change : param.Change other)
    (apart : Digest.Separates [param.typeName, other.typeName]) :
    param.fingerprint ≠ other.fingerprint := by
  cases change with
  | typeName differ =>
      intro same
      have bits := congrArg Fingerprint.bits same
      simp only [fingerprint, Fingerprint.ofTypeName, UInt64.xor_left_inj,
        UInt64.xor_right_inj] at bits
      exact differ (apart _ (by simp) _ (by simp) bits)
  | form differ => exact fingerprint_ne_of_form differ

end Param

namespace Member

def home (member : Member) : Option String :=
  if member.kind = .constructor then some (member.owner.getD member.name) else member.owner

def seed (member : Member) : UInt64 :=
  match member.kind, member.home with
  | .function, none => Fingerprint.functionMarker ^^^ Digest.ofText member.name
  | .function, some owner =>
      Fingerprint.methodMarker ^^^ (Fingerprint.ofTypeName owner).bits ^^^ Digest.ofText member.name
        ^^^ member.isConst.toUInt64
  | _, home => Fingerprint.constructorMarker ^^^ (Fingerprint.ofTypeName (home.getD "")).bits

theorem fingerprint_of_callable {member : Member} (callable : member.isCallable = true) :
    member.fingerprint =
      ⟨Fingerprint.foldParams member.seed (member.params.map Param.fingerprint)⟩ := by
  unfold fingerprint seed home
  cases kind : member.kind with
  | data => simp [isCallable, kind] at callable
  | function => cases member.owner <;> rfl
  | constructor => cases member.owner <;> rfl

theorem home_of_owned {member : Member} {owner : String} (owned : member.owner = some owner) :
    member.home = some owner := by
  simp [home, owned]

@[simp] theorem home_ownedBy (member : Member) (owner : String) :
    (member.ownedBy owner).home = some owner :=
  home_of_owned rfl

theorem seed_ownedBy_inj {member : Member} {old new : String} (callable : member.isCallable = true)
    (owned : member.owner = some old) :
    member.seed = (member.ownedBy new).seed ↔ Digest.ofText old = Digest.ofText new := by
  unfold seed
  rw [home_of_owned owned, home_ownedBy]
  cases kind : member.kind with
  | data => simp [isCallable, kind] at callable
  | function => simp [kind, ownedBy, Fingerprint.ofTypeName]
  | constructor => simp [kind, ownedBy, Fingerprint.ofTypeName]

theorem seed_rename_inj {member : Member} {new : String} (function : member.kind = .function) :
    member.seed = { member with name := new }.seed ↔
      Digest.ofText member.name = Digest.ofText new := by
  unfold seed home
  cases member.owner <;> simp [function]

theorem seed_isConst_ne {member : Member} (function : member.kind = .function)
    (owned : member.owner.isSome) :
    member.seed ≠ { member with isConst := !member.isConst }.seed := by
  obtain ⟨owner, owned⟩ := Option.isSome_iff_exists.mp owned
  have changed : { member with isConst := !member.isConst }.home = some owner :=
    home_of_owned owned
  unfold seed
  rw [home_of_owned owned, changed]
  simp only [function, Ne, UInt64.xor_right_inj]
  cases member.isConst <;> decide

end Member

end StaticResolution

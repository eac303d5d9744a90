/-!
What registrations and queries lead to. A registration changes a state and may fail, and a failure
has a message. An ambiguity and the lack of a match are answers of a query, and not failures.
-/

namespace StaticResolution

inductive RegistrationError where
  | duplicateClass (name : String)
  | unknownBase (className base : String)
  | duplicateBase (className base : String)
  | cyclicInheritance (path : List String)
  | duplicateFunction (signature : String)
  | notCallable (qualifiedName : String)
deriving DecidableEq

inductive QueryError where
  | unknownClass (name : String)
  | unknownMember (className member : String)
  | notABase (className qualifier : String)
  | cyclicInheritance (path : List String)
deriving DecidableEq

def cycleMessage (path : List String) : String :=
  "cyclic inheritance: " ++ " -> ".intercalate path

namespace RegistrationError

def message : RegistrationError → String
  | duplicateClass name => "duplicate class: " ++ name
  | unknownBase className base => "class '" ++ className ++ "' names unknown base '" ++ base ++ "'"
  | duplicateBase className base =>
      "class '" ++ className ++ "' lists base '" ++ base ++ "' more than once"
  | cyclicInheritance path => cycleMessage path
  | duplicateFunction signature => "duplicate function: " ++ signature
  | notCallable qualifiedName => "'" ++ qualifiedName ++ "' is not a function"

end RegistrationError

namespace QueryError

def message : QueryError → String
  | unknownClass name => "unknown class: " ++ name
  | unknownMember className member =>
      "'" ++ className ++ "' has no member named '" ++ member ++ "'"
  | notABase className qualifier => "'" ++ qualifier ++ "' is not a base of '" ++ className ++ "'"
  | cyclicInheritance path => cycleMessage path

end QueryError

abbrev Registration (σ α : Type) : Type :=
  ExceptT RegistrationError (StateM σ) α

namespace Registration

variable {σ τ α : Type}

def onPart (part : σ → τ) (replace : σ → τ → σ) (action : Registration τ α) : Registration σ α :=
  .mk fun state =>
    let (result, changed) := (action.run (part state)).run
    (result, replace state changed)

end Registration

inductive Verdict (α : Type) where
  | unique (winner : α)
  | ambiguous (candidates : List α)
  | hidden (winner : α) (shadowed : List α)
  | noMatch
deriving DecidableEq

namespace Verdict

variable {α β : Type}

def isUnique : Verdict α → Bool
  | unique _ => true
  | _ => false

def isAmbiguous : Verdict α → Bool
  | ambiguous _ => true
  | _ => false

def isHidden : Verdict α → Bool
  | hidden _ _ => true
  | _ => false

def isNoMatch : Verdict α → Bool
  | noMatch => true
  | _ => false

def winner? : Verdict α → Option α
  | unique winner => some winner
  | hidden winner _ => some winner
  | _ => none

def candidates : Verdict α → List α
  | ambiguous candidates => candidates
  | _ => []

def mapM {m : Type → Type} [Monad m] (f : α → m β) : Verdict α → m (Verdict β)
  | unique winner => return .unique (← f winner)
  | ambiguous candidates => return .ambiguous (← candidates.mapM f)
  | hidden winner shadowed => do
      let winner ← f winner
      return .hidden winner (← shadowed.mapM f)
  | noMatch => return .noMatch

def map (f : α → β) : Verdict α → Verdict β
  | unique winner => .unique (f winner)
  | ambiguous candidates => .ambiguous (candidates.map f)
  | hidden winner shadowed => .hidden (f winner) (shadowed.map f)
  | noMatch => .noMatch

def text (verdict : Verdict String) : String :=
  match verdict with
  | unique winner => "unique: " ++ winner
  | ambiguous candidates => "ambiguous: " ++ ", ".intercalate candidates
  | hidden winner shadowed => "hidden: " ++ winner ++ " hides " ++ ", ".intercalate shadowed
  | noMatch => "no match"

end Verdict

end StaticResolution

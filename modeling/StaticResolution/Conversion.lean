import StaticResolution.Layout

/-!
Implicit conversions from one type to another, and the rules that say which there are. A class
converts to a proper base if an object of it has exactly one sub-object of that base.
-/

namespace StaticResolution

inductive Conversion where
  | identity
  | arithmetic
  | derivedToBase
deriving DecidableEq

namespace Conversion

def text : Conversion → String
  | identity => "identity"
  | arithmetic => "arithmetic"
  | derivedToBase => "derived-to-base"

def cost : Conversion → UInt32
  | identity => 0
  | arithmetic => 3
  | derivedToBase => 3

/-- Whether a reference can refer to the argument itself. An arithmetic conversion makes a new
value. -/
def bindsDirectly : Conversion → Bool
  | identity => true
  | arithmetic => false
  | derivedToBase => true

end Conversion

def arithmeticTypes : List String :=
  ["bool", "char", "signed char", "unsigned char", "short", "unsigned short", "int", "unsigned",
    "unsigned int", "long", "unsigned long", "long long", "unsigned long long", "float", "double",
    "long double"]

def isArithmetic (typeName : String) : Bool :=
  arithmeticTypes.contains typeName

abbrev ConversionRules : Type :=
  String → String → Option Conversion

namespace ConversionRules

def exact : ConversionRules := fun source target =>
  if source = target then some .identity else none

def standard : ConversionRules := fun source target =>
  if source = target then some .identity
  else if isArithmetic source && isArithmetic target then some .arithmetic
  else none

def ofRows (rows : List (String × String × Conversion)) : ConversionRules := fun source target =>
  (rows.find? fun row => row.1 == source && row.2.1 == target).map fun row => row.2.2

end ConversionRules

namespace ClassTable

def derivedToBase (table : ClassTable) (source target : String) :
    StateM LayoutMemo (Option Conversion) := do
  match table.isBaseOf target source with
  | .ok true =>
      match ← (table.recallLayout source).run with
      | .ok layout => return if layout.count target = 1 then some .derivedToBase else none
      | .error _ => return none
  | _ => return none

/-- The standard conversions come first, so that equal and arithmetic types ask for no layout. -/
def convert (table : ClassTable) (source target : String) :
    StateM LayoutMemo (Option Conversion) :=
  match ConversionRules.standard source target with
  | some conversion => return some conversion
  | none => table.derivedToBase source target

end ClassTable

end StaticResolution

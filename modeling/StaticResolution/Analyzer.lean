import StaticResolution.Registry
import StaticResolution.Statement

/-!
The analyzer answers questions about a program: what a name means in a class, which overload a call
selects, and which constructor a statement calls. Its queries share a memo of layouts.
-/

namespace StaticResolution

/-- A call of a member by its name. A name that is ambiguous is not resolved any further. -/
inductive MemberResolution where
  | ambiguousName (sites : List MemberSite)
  | resolved (site : MemberSite) (verdict : Verdict Viable)
deriving DecidableEq

namespace MemberResolution

def verdict? : MemberResolution → Option (Verdict Viable)
  | ambiguousName _ => none
  | resolved _ verdict => some verdict

def winner? (resolution : MemberResolution) : Option Viable :=
  resolution.verdict?.bind Verdict.winner?

def isAmbiguous : MemberResolution → Bool
  | ambiguousName _ => true
  | resolved _ verdict => verdict.isAmbiguous

def text : MemberResolution → String
  | ambiguousName sites => "ambiguous name: " ++ ", ".intercalate (sites.map MemberSite.text)
  | resolved _ verdict => (verdict.map Viable.text).text

end MemberResolution

/-- A program, and the conversion rules of its own that it may have. Without them the class table
decides. -/
structure Analyzer where
  program : Program := .empty
  rules : Option ConversionRules := none

namespace Analyzer

def layout (analyzer : Analyzer) (name : String) : Query Layout :=
  analyzer.program.classes.recallLayout name

def lookup (analyzer : Analyzer) (name member : String) : Query (Verdict MemberSite) := do
  let layout ← analyzer.layout name
  analyzer.program.classes.lookup layout member

def lookupIn (analyzer : Analyzer) (name qualifier member : String) :
    Query (Verdict MemberSite) := do
  let layout ← analyzer.layout name
  analyzer.program.classes.lookupIn layout qualifier member

def convert (analyzer : Analyzer) (source target : String) :
    StateM LayoutMemo (Option Conversion) :=
  match analyzer.rules with
  | some rules => return rules source target
  | none => analyzer.program.classes.convert source target

def resolve (analyzer : Analyzer) (candidates : List Member) (call : Call) :
    StateM LayoutMemo (Verdict Viable) :=
  resolveAmong analyzer.convert candidates call

def functionCall (analyzer : Analyzer) (call : Call) : StateM LayoutMemo (Verdict Viable) :=
  analyzer.resolve (analyzer.program.functions.overloads call.callee) call

def membersAt (analyzer : Analyzer) (site : MemberSite) : List Member :=
  match analyzer.program.classes.find? site.className with
  | some decl => decl.findMembers site.member
  | none => []

/-- Resolves a call in the class where the lookup of its name has ended. -/
def resolveAt (analyzer : Analyzer) (name : String) (found : Verdict MemberSite) (call : Call) :
    Query MemberResolution := do
  match found.winner? with
  | none => throw (.unknownMember name call.callee)
  | some site => return .resolved site (← analyzer.resolve (analyzer.membersAt site) call)

def memberCall (analyzer : Analyzer) (name : String) (call : Call) : Query MemberResolution := do
  match ← analyzer.lookup name call.callee with
  | .ambiguous sites => return .ambiguousName sites
  | found => analyzer.resolveAt name found call

def qualifiedMemberCall (analyzer : Analyzer) (name qualifier : String) (call : Call) :
    Query MemberResolution := do
  let found ← analyzer.lookupIn name qualifier call.callee
  analyzer.resolveAt qualifier found call

def construct (analyzer : Analyzer) (name : String) (call : Call) : Query (Verdict Viable) :=
  match analyzer.program.classes.find? name with
  | none => throw (.unknownClass name)
  | some decl => analyzer.resolve decl.constructors call

def constructStatement (analyzer : Analyzer) (statement : Statement) :
    Query (Option (Verdict Viable)) := do
  match statement.constructorCall? with
  | none => return none
  | some call => return some (← analyzer.construct call.callee call)

end Analyzer

structure Session extends Analyzer where
  layouts : LayoutMemo := .empty

namespace Session

variable {α : Type}

def ofRules (rules : Option ConversionRules) : Session :=
  { rules := rules }

def ask (session : Session) (query : Analyzer → Query α) : Except QueryError α × Session :=
  let (result, layouts) := ((query session.toAnalyzer).run session.layouts).run
  (result, { session with layouts := layouts })

/-- Registers something with the program. The layouts stay: registration changes none of them. -/
def register (session : Session) (action : Registration Program α) :
    Except RegistrationError α × Session :=
  let (result, program) := (action.run session.program).run
  (result, { session with program := program })

end Session

end StaticResolution

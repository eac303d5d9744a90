import StaticResolution.Layout

/-!
Lookup of a member by its name in an object. A declaration in a sub-object hides those in the
sub-objects that it contains.
-/

namespace StaticResolution

structure MemberSite where
  subobject : Nat
  className : String
  member : String
deriving DecidableEq

namespace MemberSite

def text (site : MemberSite) : String :=
  site.className ++ "::" ++ site.member

end MemberSite

namespace Subobject

def site (part : Subobject) (member : String) : MemberSite :=
  { subobject := part.id, className := part.className, member := member }

end Subobject

namespace Layout

def properParts (layout : Layout) (id : Nat) : List Nat :=
  (layout.within id).filter fun inner => inner ≠ id

/-- Splits sub-objects into those that none of the others contains, and the rest. -/
def splitHidden (layout : Layout) (found : List Subobject) : List Subobject × List Subobject :=
  let inside := found.flatMap fun outer => layout.properParts outer.id
  found.partition fun part => !inside.contains part.id

def verdictAmong (layout : Layout) (member : String) (found : List Subobject) :
    Except QueryError (Verdict MemberSite) :=
  let site (part : Subobject) := part.site member
  if found.isEmpty then .error (.unknownMember layout.className member)
  else
    match layout.splitHidden found with
    | ([winner], []) => .ok (.unique (site winner))
    | ([winner], shadowed) => .ok (.hidden (site winner) (shadowed.map site))
    | (survivors, _) => .ok (.ambiguous (survivors.map site))

def choiceAmong (layout : Layout) (qualifier member : String) (found : List Subobject) :
    Except QueryError (Verdict MemberSite) :=
  match layout.splitHidden found with
  | ([], _) => .error (.unknownMember qualifier member)
  | (winner :: _, _) => .ok (.unique (winner.site member))

end Layout

namespace ClassTable

def declares (table : ClassTable) (className member : String) : Bool :=
  (table.find? className).any fun decl => decl.declares member

def declarers (table : ClassTable) (parts : List Subobject) (member : String) : List Subobject :=
  parts.filter fun part => table.declares part.className member

def lookup (table : ClassTable) (layout : Layout) (member : String) :
    Except QueryError (Verdict MemberSite) :=
  layout.verdictAmong member (table.declarers layout.subobjects member)

def lookupIn (table : ClassTable) (layout : Layout) (qualifier member : String) :
    Except QueryError (Verdict MemberSite) :=
  match layout.ofClass qualifier with
  | [] => .error (.notABase layout.className qualifier)
  | start :: _ =>
      let inside := layout.within start.id
      let scope := layout.subobjects.filter fun part => inside.contains part.id
      layout.choiceAmong qualifier member (table.declarers scope member)

end ClassTable

end StaticResolution

import StaticResolution.Overload

/-!
Statements of the form `Type name initializer;`, whose initializer may be meant as a parameter list.
What can be read as the declaration of a function is one, and some rewritten forms cannot.
-/

namespace StaticResolution

inductive Expr where
  | construct (typeName : String)
  | braced (typeName : String)
  | named (name typeName : String)
  | group (inner : Expr)
deriving DecidableEq

namespace Expr

def ungrouped : Expr → Expr
  | group inner => inner.ungrouped
  | expr => expr

def text : Expr → String
  | construct typeName => typeName ++ "()"
  | braced typeName => typeName ++ "\x7b\x7d"
  | named name _ => name
  | group inner => "(" ++ inner.text ++ ")"

end Expr

inductive Initializer where
  | emptyParens
  | parens (expr : Expr)
  | braces (expr : Expr)
  | emptyBraces
deriving DecidableEq

namespace Initializer

def expr? : Initializer → Option Expr
  | parens expr => some expr
  | braces expr => some expr
  | emptyParens => none
  | emptyBraces => none

def isBraced : Initializer → Bool
  | braces _ => true
  | emptyBraces => true
  | parens _ => false
  | emptyParens => false

def text : Initializer → String
  | emptyParens => "()"
  | parens expr => "(" ++ expr.text ++ ")"
  | braces expr => "\x7b" ++ expr.text ++ "\x7d"
  | emptyBraces => "\x7b\x7d"

end Initializer

structure Statement where
  typeName : String
  name : String
  initializer : Initializer
deriving DecidableEq

namespace Statement

def text (statement : Statement) : String :=
  statement.typeName ++ " " ++ statement.name ++ statement.initializer.text ++ ";"

end Statement

structure FunctionHeader where
  name : String
  returnType : String
  parameterReturn : Option String
deriving DecidableEq

namespace FunctionHeader

def parameterText (returnType : String) : String :=
  returnType ++ " (*)()"

def text (header : FunctionHeader) : String :=
  header.returnType ++ " " ++ header.name ++ "("
    ++ (header.parameterReturn.map parameterText).getD "" ++ ")"

end FunctionHeader

structure Variable where
  name : String
  typeName : String
  argument : Option Expr
  isBraced : Bool
deriving DecidableEq

inductive Reading where
  | function (header : FunctionHeader)
  | value (made : Variable)
deriving DecidableEq

namespace Reading

def isFunction : Reading → Bool
  | function _ => true
  | value _ => false

def isValue : Reading → Bool
  | function _ => false
  | value _ => true

def text : Reading → String
  | function header => "function declaration: " ++ header.text
  | value made => "variable: " ++ made.typeName ++ " " ++ made.name

end Reading

namespace Expr

def argument : Expr → Argument
  | construct typeName => { typeName := typeName, category := .prvalue }
  | braced typeName => { typeName := typeName, category := .prvalue }
  | named _ typeName => { typeName := typeName, category := .lvalue }
  | group inner => inner.argument

end Expr

namespace Statement

def reading (statement : Statement) : Reading :=
  match statement.initializer with
  | .emptyParens => .function ⟨statement.name, statement.typeName, none⟩
  | .parens (.construct returned) => .function ⟨statement.name, statement.typeName, some returned⟩
  | given => .value ⟨statement.name, statement.typeName, given.expr?, given.isBraced⟩

def constructorCall? (statement : Statement) : Option Call :=
  match statement.reading with
  | .function _ => none
  | .value _ =>
      some
        { callee := statement.typeName
          args := (statement.initializer.expr?.map Expr.argument).toList }

def withParens? (statement : Statement) : Option Statement :=
  statement.initializer.expr?.map fun expr =>
    { statement with initializer := .parens (.group expr) }

def withBraces (statement : Statement) : Statement :=
  match statement.initializer.expr? with
  | none => { statement with initializer := .emptyBraces }
  | some expr => { statement with initializer := .braces expr }

end Statement

end StaticResolution

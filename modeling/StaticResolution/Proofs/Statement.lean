import Mathlib.Data.List.TakeWhile
import StaticResolution.Analyzer

/-!
The forms offered in place of a statement are all read as the variable that it may be meant to
define. A statement can be read back from its text, but for the types of variables, which the text
does not tell.
-/

namespace StaticResolution

namespace Expr

/-- The expression is the core, possibly in parenthesis groups. -/
inductive IsAround (core : Expr) : Expr → Prop
  | self : IsAround core core
  | group {inner : Expr} (around : IsAround core inner) : IsAround core (.group inner)

inductive Supplies : Expr → Argument → Prop
  | construct (typeName : String) : Supplies (.construct typeName) ⟨typeName, .prvalue⟩
  | braced (typeName : String) : Supplies (.braced typeName) ⟨typeName, .prvalue⟩
  | named (name typeName : String) : Supplies (.named name typeName) ⟨typeName, .lvalue⟩

variable {expr core : Expr} {argument : Argument}

theorem isAround_ungrouped (expr : Expr) : IsAround expr.ungrouped expr := by
  induction expr with
  | construct typeName => exact .self
  | braced typeName => exact .self
  | named name typeName => exact .self
  | group inner ih => exact .group ih

theorem supplies_ungrouped (expr : Expr) : Supplies expr.ungrouped expr.argument := by
  induction expr with
  | construct typeName => exact .construct typeName
  | braced typeName => exact .braced typeName
  | named name typeName => exact .named name typeName
  | group inner ih => exact ih

theorem Supplies.argument_eq (supplies : Supplies core argument) : core.argument = argument := by
  cases supplies <;> rfl

theorem IsAround.argument_eq (around : IsAround core expr) : expr.argument = core.argument := by
  induction around with
  | self => rfl
  | group _ ih => exact ih

end Expr

namespace Statement

/-- The direct call of a constructor that a statement stands for as the definition of a variable. -/
inductive Constructs (statement : Statement) : Call → Prop
  | empty (missing : statement.initializer.expr? = none) :
      Constructs statement ⟨statement.typeName, [], true⟩
  | given {expr core : Expr} {argument : Argument}
      (found : statement.initializer.expr? = some expr) (around : core.IsAround expr)
      (supplies : core.Supplies argument) :
      Constructs statement ⟨statement.typeName, [argument], true⟩

def valueCall (statement : Statement) : Call :=
  { callee := statement.typeName, args := (statement.initializer.expr?.map Expr.argument).toList }

/-- The forms offered in place of the statement. -/
def rewrites (statement : Statement) : List Statement :=
  statement.withParens?.toList ++ [statement.withBraces]

variable {statement rewrite : Statement} {call : Call}

theorem constructs_iff : statement.Constructs call ↔ statement.valueCall = call := by
  constructor
  · rintro (missing | ⟨found, around, supplies⟩)
    · simp [valueCall, missing]
    · simp [valueCall, found, around.argument_eq, supplies.argument_eq]
  · rintro rfl
    cases found : statement.initializer.expr? with
    | none => simpa [valueCall, found] using Constructs.empty found
    | some expr =>
        simpa [valueCall, found] using
          Constructs.given found expr.isAround_ungrouped expr.supplies_ungrouped

theorem constructorCall?_eq :
    statement.constructorCall? =
      if statement.reading.isValue then some statement.valueCall else none := by
  unfold constructorCall?
  cases statement.reading <;> rfl

theorem constructorCall?_eq_none_iff :
    statement.constructorCall? = none ↔ statement.reading.isFunction = true := by
  unfold constructorCall?
  cases statement.reading <;> simp [Reading.isFunction]

theorem isSome_withParens? :
    statement.withParens?.isSome = statement.initializer.expr?.isSome := by
  simp [withParens?]

theorem withBraces_withBraces : statement.withBraces.withBraces = statement.withBraces := by
  obtain ⟨typeName, name, initializer⟩ := statement
  cases initializer <;> rfl

theorem mem_rewrites_iff : rewrite ∈ statement.rewrites ↔
    (∃ expr, statement.initializer.expr? = some expr ∧
      (rewrite = { statement with initializer := .parens (.group expr) } ∨
        rewrite = { statement with initializer := .braces expr })) ∨
    (statement.initializer.expr? = none ∧
      rewrite = { statement with initializer := .emptyBraces }) := by
  cases found : statement.initializer.expr? <;> simp [rewrites, withParens?, withBraces, found]

theorem reading_of_mem_rewrites (offered : rewrite ∈ statement.rewrites) :
    ∃ made, rewrite.reading = .value made ∧ made.typeName = statement.typeName ∧
      made.name = statement.name := by
  rcases mem_rewrites_iff.mp offered with ⟨expr, _, rfl | rfl⟩ | ⟨_, rfl⟩
  · exact ⟨_, rfl, rfl, rfl⟩
  · exact ⟨_, rfl, rfl, rfl⟩
  · exact ⟨_, rfl, rfl, rfl⟩

theorem valueCall_of_mem_rewrites (offered : rewrite ∈ statement.rewrites) :
    rewrite.valueCall = statement.valueCall := by
  rcases mem_rewrites_iff.mp offered with ⟨expr, found, rfl | rfl⟩ | ⟨missing, rfl⟩
  · rw [valueCall, valueCall, found]
    rfl
  · rw [valueCall, valueCall, found]
    rfl
  · rw [valueCall, valueCall, missing]
    rfl

theorem constructorCall?_of_mem_rewrites (offered : rewrite ∈ statement.rewrites) :
    rewrite.constructorCall? = some statement.valueCall := by
  obtain ⟨made, read, _⟩ := reading_of_mem_rewrites offered
  rw [constructorCall?_eq, read, valueCall_of_mem_rewrites offered]
  rfl

theorem constructStatement_congr {other : Statement}
    (same : statement.constructorCall? = other.constructorCall?) (analyzer : Analyzer) :
    analyzer.constructStatement statement = analyzer.constructStatement other := by
  rw [Analyzer.constructStatement, Analyzer.constructStatement, same]

/-- Every form that is offered defines the variable that the statement may mean, by the direct call
with the expression that is left once all groups are removed. A statement that already defines a
variable makes the same call, so that a session constructs the same. -/
theorem rewrites_keep_construction (statement : Statement) :
    statement.withParens?.isSome = statement.initializer.expr?.isSome ∧
    (∃ call, (∀ other, statement.Constructs other ↔ call = other) ∧
      (∀ rewrite ∈ statement.rewrites, rewrite.constructorCall? = some call ∧
        ∃ made, rewrite.reading = .value made ∧ made.typeName = statement.typeName ∧
          made.name = statement.name) ∧
      (statement.reading.isValue = true → statement.constructorCall? = some call ∧
        ∀ rewrite ∈ statement.rewrites, ∀ session : Session,
          session.ask (·.constructStatement rewrite) =
            session.ask (·.constructStatement statement))) ∧
    (statement.constructorCall? = none ↔ statement.reading.isFunction = true) ∧
    statement.withBraces.withBraces = statement.withBraces := by
  refine ⟨isSome_withParens?, ⟨statement.valueCall, fun _ => constructs_iff, ?_, ?_⟩,
    constructorCall?_eq_none_iff, withBraces_withBraces⟩
  · intro rewrite offered
    exact ⟨constructorCall?_of_mem_rewrites offered, reading_of_mem_rewrites offered⟩
  · intro defines
    have called : statement.constructorCall? = some statement.valueCall := by
      rw [constructorCall?_eq, if_pos defines]
    refine ⟨called, ?_⟩
    intro rewrite offered session
    simp only [constructStatement_congr ((constructorCall?_of_mem_rewrites offered).trans
      called.symm)]

def groupedStatement : Statement :=
  ⟨"B", "b", .parens (.group (.named "a" "A"))⟩

theorem rewrites_keep_construction_grouped : groupedStatement.reading.isValue = true ∧
    groupedStatement.constructorCall? = some ⟨"B", [⟨"A", .lvalue⟩], true⟩ ∧
    groupedStatement.withBraces.constructorCall? = some ⟨"B", [⟨"A", .lvalue⟩], true⟩ ∧
    ∀ session : Session, session.ask (·.constructStatement groupedStatement.withBraces) =
      session.ask (·.constructStatement groupedStatement) := by
  obtain ⟨_, ⟨call, exact, offered, kept⟩, _⟩ := rewrites_keep_construction groupedStatement
  have defines : groupedStatement.reading.isValue = true := rfl
  have braced : groupedStatement.withBraces ∈ groupedStatement.rewrites := by decide
  obtain rfl := (exact _).mp (.given rfl (.group (.self)) (.named "a" "A"))
  exact ⟨defines, (kept defines).1, (offered _ braced).1, (kept defines).2 _ braced⟩

end Statement

def isDelimiter (char : Char) : Bool :=
  [' ', '(', ')', '{', '}', ';'].contains char

/-- A name as it may stand in a text: something, and nothing that could end it. -/
structure IsName (name : String) : Prop where
  nonempty : name ≠ ""
  plain : ∀ char ∈ name.toList, isDelimiter char = false

theorem isName_iff {name : String} :
    IsName name ↔ name ≠ "" ∧ name.toList.all (fun char => !isDelimiter char) = true := by
  simp only [List.all_eq_true, Bool.not_eq_true']
  exact ⟨fun ⟨nonempty, plain⟩ => ⟨nonempty, plain⟩, fun ⟨nonempty, plain⟩ => ⟨nonempty, plain⟩⟩

instance (name : String) : Decidable (IsName name) :=
  decidable_of_iff _ isName_iff.symm

/-- The characters up to the first delimiter, as a name, and those that are left. -/
def readName (chars : List Char) : String × List Char :=
  (.ofList (chars.takeWhile fun char => !isDelimiter char),
    chars.dropWhile fun char => !isDelimiter char)

theorem readName_append {name : String} (named : IsName name) {delimiter : Char}
    (ends : isDelimiter delimiter = true) (rest : List Char) :
    readName (name.toList ++ delimiter :: rest) = (name, delimiter :: rest) := by
  have plain := List.all_eq_true.mp (isName_iff.mp named).2
  rw [readName, List.takeWhile_append_of_pos plain, List.dropWhile_append_of_pos plain]
  simp [ends]

theorem IsName.exists_cons {name : String} (named : IsName name) :
    ∃ first rest, name.toList = first :: rest ∧ isDelimiter first = false := by
  cases chars : name.toList with
  | nil => exact absurd (String.toList_eq_nil_iff.mp chars) named.nonempty
  | cons first rest => exact ⟨first, rest, rfl, named.plain first (by simp [chars])⟩

theorem IsName.head?_append_ne {name : String} (named : IsName name) {delimiter : Char}
    (ends : isDelimiter delimiter = true) (rest : List Char) :
    (name.toList ++ rest).head? ≠ some delimiter := by
  obtain ⟨first, others, chars, plain⟩ := named.exists_cons
  simp only [chars, List.cons_append, List.head?_cons, ne_eq, Option.some.injEq]
  rintro rfl
  simp [ends] at plain

namespace Expr

def names : Expr → List String
  | construct typeName => [typeName]
  | braced typeName => [typeName]
  | named name _ => [name]
  | group inner => inner.names

def untyped : Expr → Expr
  | construct typeName => .construct typeName
  | braced typeName => .braced typeName
  | named name _ => .named name ""
  | group inner => .group inner.untyped

def ofName (name : String) : List Char → Expr × List Char
  | '(' :: ')' :: rest => (.construct name, rest)
  | '{' :: '}' :: rest => (.braced name, rest)
  | rest => (.named name "", rest)

def read : List Char → Expr × List Char
  | [] => (.named "" "", [])
  | first :: rest =>
      if first = '(' then (.group (read rest).1, (read rest).2.tail)
      else ofName (readName (first :: rest)).1 (readName (first :: rest)).2

variable {expr : Expr} {closing : Char}

theorem read_name {name : String} (named : IsName name) {delimiter : Char}
    (ends : isDelimiter delimiter = true) (rest : List Char) :
    read (name.toList ++ delimiter :: rest) = ofName name (delimiter :: rest) := by
  have found := readName_append named ends rest
  obtain ⟨first, others, chars, plain⟩ := named.exists_cons
  have differ : first ≠ '(' := by
    rintro rfl
    simp [isDelimiter] at plain
  rw [chars, List.cons_append] at found ⊢
  rw [read, if_neg differ, found]

theorem read_text (plain : ∀ name ∈ expr.names, IsName name)
    (closes : closing = ')' ∨ closing = '}') (rest : List Char) :
    read (expr.text.toList ++ closing :: rest) = (expr.untyped, closing :: rest) := by
  induction expr generalizing closing rest with
  | construct typeName =>
      simp only [text, String.toList_append, List.append_assoc]
      exact read_name (plain typeName List.mem_cons_self) rfl _
  | braced typeName =>
      simp only [text, String.toList_append, List.append_assoc]
      exact read_name (plain typeName List.mem_cons_self) rfl _
  | named name typeName =>
      have named := plain name List.mem_cons_self
      rcases closes with rfl | rfl
      · exact read_name named rfl rest
      · exact read_name named rfl rest
  | group inner ih =>
      simp only [text, String.toList_append, List.append_assoc]
      change read ('(' :: (inner.text.toList ++ ')' :: closing :: rest)) = _
      rw [read, if_pos rfl, ih plain (.inl rfl)]
      rfl

theorem head?_text_ne (plain : ∀ name ∈ expr.names, IsName name)
    (closes : closing = ')' ∨ closing = '}') (rest : List Char) :
    (expr.text.toList ++ rest).head? ≠ some closing := by
  have ends : isDelimiter closing = true := by rcases closes with rfl | rfl <;> rfl
  cases expr with
  | construct typeName =>
      simp only [text, String.toList_append, List.append_assoc]
      exact (plain typeName List.mem_cons_self).head?_append_ne ends _
  | braced typeName =>
      simp only [text, String.toList_append, List.append_assoc]
      exact (plain typeName List.mem_cons_self).head?_append_ne ends _
  | named name typeName => exact (plain name List.mem_cons_self).head?_append_ne ends rest
  | group inner => rcases closes with rfl | rfl <;> simp [text]

theorem text_untyped (expr : Expr) : expr.untyped.text = expr.text := by
  induction expr with
  | construct typeName => rfl
  | braced typeName => rfl
  | named name typeName => rfl
  | group inner ih => rw [untyped, text, text, ih]

end Expr

namespace Initializer

def untyped : Initializer → Initializer
  | emptyParens => emptyParens
  | parens expr => parens expr.untyped
  | braces expr => braces expr.untyped
  | emptyBraces => emptyBraces

def readWithin (closing : Char) (empty : Initializer) (given : Expr → Initializer)
    (chars : List Char) : Initializer :=
  if chars.head? = some closing then empty else given (Expr.read chars).1

def read : List Char → Initializer
  | '{' :: rest => readWithin '}' .emptyBraces .braces rest
  | chars => readWithin ')' .emptyParens .parens chars.tail

theorem readWithin_text {expr : Expr} (plain : ∀ name ∈ expr.names, IsName name) {closing : Char}
    (closes : closing = ')' ∨ closing = '}') (empty : Initializer) (given : Expr → Initializer)
    (rest : List Char) :
    readWithin closing empty given (expr.text.toList ++ closing :: rest) = given expr.untyped := by
  rw [readWithin, if_neg (Expr.head?_text_ne plain closes _), Expr.read_text plain closes]

def names (initializer : Initializer) : List String :=
  (initializer.expr?.map Expr.names).getD []

theorem read_text {initializer : Initializer} (plain : ∀ name ∈ initializer.names, IsName name)
    (rest : List Char) : read (initializer.text.toList ++ rest) = initializer.untyped := by
  cases initializer with
  | emptyParens => rfl
  | emptyBraces => rfl
  | parens expr =>
      simp only [text, String.toList_append, List.append_assoc]
      exact readWithin_text plain (.inl rfl) _ _ rest
  | braces expr =>
      simp only [text, String.toList_append, List.append_assoc]
      exact readWithin_text plain (.inr rfl) _ _ rest

theorem exists_cons_text (initializer : Initializer) :
    ∃ opening rest, initializer.text.toList = opening :: rest ∧ isDelimiter opening = true := by
  cases initializer <;> simp [text, isDelimiter]

theorem text_untyped (initializer : Initializer) : initializer.untyped.text = initializer.text := by
  cases initializer <;> simp [untyped, text, Expr.text_untyped]

end Initializer

namespace Statement

def untyped (statement : Statement) : Statement :=
  { statement with initializer := statement.initializer.untyped }

def names (statement : Statement) : List String :=
  statement.typeName :: statement.name :: statement.initializer.names

def read (chars : List Char) : Statement :=
  let (typeName, afterType) := readName chars
  let (name, afterName) := readName afterType.tail
  { typeName := typeName, name := name, initializer := .read afterName }

variable {statement left right rewrite : Statement}

theorem read_text (plain : ∀ name ∈ statement.names, IsName name) :
    read statement.text.toList = statement.untyped := by
  obtain ⟨typeName, name, initializer⟩ := statement
  simp only [names, List.forall_mem_cons] at plain
  obtain ⟨typeNamed, named, plain⟩ := plain
  have spaced : isDelimiter ' ' = true := rfl
  have initialized := Initializer.read_text plain [';']
  obtain ⟨opening, rest, chars, delimits⟩ := initializer.exists_cons_text
  simp only [text, String.toList_append, List.append_assoc]
  rw [chars, List.cons_append] at initialized ⊢
  change read (typeName.toList ++ ' ' :: (name.toList ++ opening :: (rest ++ [';']))) = _
  simp only [read, readName_append typeNamed spaced, List.tail_cons, readName_append named delimits,
    initialized, untyped]

theorem text_untyped (statement : Statement) : statement.untyped.text = statement.text := by
  simp only [text, untyped, Initializer.text_untyped]

theorem isFunction_untyped (statement : Statement) :
    statement.untyped.reading.isFunction = statement.reading.isFunction := by
  obtain ⟨typeName, name, initializer⟩ := statement
  cases initializer with
  | parens expr => cases expr <;> rfl
  | emptyParens => rfl
  | braces expr => rfl
  | emptyBraces => rfl

theorem names_of_mem_rewrites (offered : rewrite ∈ statement.rewrites) :
    rewrite.names = statement.names := by
  rcases mem_rewrites_iff.mp offered with ⟨expr, found, rfl | rfl⟩ | ⟨missing, rfl⟩
  · rw [names, names, Initializer.names, Initializer.names, found]
    rfl
  · rw [names, names, Initializer.names, Initializer.names, found]
    rfl
  · rw [names, names, Initializer.names, Initializer.names, missing]
    rfl

theorem text_eq_iff (leftPlain : ∀ name ∈ left.names, IsName name)
    (rightPlain : ∀ name ∈ right.names, IsName name) :
    left.text = right.text ↔ left.untyped = right.untyped := by
  constructor
  · intro same
    rw [← read_text leftPlain, ← read_text rightPlain, same]
  · intro same
    rw [← left.text_untyped, ← right.text_untyped, same]

theorem isFunction_of_text_eq (leftPlain : ∀ name ∈ left.names, IsName name)
    (rightPlain : ∀ name ∈ right.names, IsName name) (same : left.text = right.text) :
    left.reading.isFunction = right.reading.isFunction := by
  rw [← left.isFunction_untyped, ← right.isFunction_untyped,
    (text_eq_iff leftPlain rightPlain).mp same]

/-- The text of a statement tells everything about it but the types of variables. So it tells how
the statement is read, and the text of a form that is offered is never one of a function
declaration. -/
theorem text_readable (leftPlain : ∀ name ∈ left.names, IsName name)
    (rightPlain : ∀ name ∈ right.names, IsName name) :
    (left.text = right.text ↔ left.untyped = right.untyped) ∧
    (left.text = right.text → left.reading.isFunction = right.reading.isFunction) ∧
    ∀ rewrite ∈ left.rewrites, rewrite.text = right.text → right.reading.isFunction = false := by
  refine ⟨text_eq_iff leftPlain rightPlain, isFunction_of_text_eq leftPlain rightPlain, ?_⟩
  intro rewrite offered same
  rw [← names_of_mem_rewrites offered] at leftPlain
  obtain ⟨made, read, _⟩ := reading_of_mem_rewrites offered
  rw [← isFunction_of_text_eq leftPlain rightPlain same, read, Reading.isFunction]

def variableStatement : Statement :=
  ⟨"B", "b", .parens (.named "a" "C")⟩

theorem text_readable_variable :
    (∀ name ∈ variableStatement.names, IsName name) ∧
    (∀ name ∈ groupedStatement.names, IsName name) ∧
    variableStatement.text ≠ groupedStatement.text ∧
    ∃ rewrite ∈ variableStatement.rewrites, rewrite ≠ groupedStatement ∧
      rewrite.text = groupedStatement.text ∧ groupedStatement.reading.isFunction = false := by
  have plain : ∀ name ∈ variableStatement.names, IsName name := by decide
  have groupedPlain : ∀ name ∈ groupedStatement.names, IsName name := by decide
  obtain ⟨exact, _, offered⟩ := text_readable plain groupedPlain
  have listed : ⟨"B", "b", .parens (.group (.named "a" "C"))⟩ ∈ variableStatement.rewrites :=
    List.mem_cons_self
  exact ⟨plain, groupedPlain, mt exact.mp (by decide), _, listed, by decide, rfl,
    offered _ listed rfl⟩

end Statement

end StaticResolution

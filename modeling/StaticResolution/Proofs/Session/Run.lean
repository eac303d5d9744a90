import StaticResolution.Analyzer
import StaticResolution.Proofs.ClassTable.Batch
import StaticResolution.Proofs.FunctionTable
import StaticResolution.Proofs.Layout.Memo

/-!
Runs of a session: registrations and questions in any order. A registration that fails leaves the
program as it was, and a question that fails leaves at most one layout in the memo, that of the
class in whose objects it looks a name up.
-/

namespace StaticResolution

inductive Declaration where
  | newClass (decl : ClassDef)
  | newClasses (batch : List ClassDef)
  | newFunction (function : Member)

def Declaration.registration : Declaration → Registration Program Unit
  | newClass decl => (fun _ => ()) <$> Program.registerClass decl
  | newClasses batch => (fun _ => ()) <$> Program.registerClasses batch
  | newFunction function => (fun _ => ()) <$> Program.registerFunction function

inductive Question where
  | layout (name : String)
  | lookup (name member : String)
  | lookupIn (name qualifier member : String)
  | resolve (candidates : List Member) (call : Call)
  | functionCall (call : Call)
  | memberCall (name : String) (call : Call)
  | qualifiedMemberCall (name qualifier : String) (call : Call)
  | construct (name : String) (call : Call)
  | constructStatement (statement : Statement)

inductive Answer where
  | layout (layout : Layout)
  | found (verdict : Verdict MemberSite)
  | selected (verdict : Verdict Viable)
  | called (resolution : MemberResolution)
  | constructed (verdict : Option (Verdict Viable))
deriving DecidableEq

namespace Question

def query : Question → Analyzer → Query Answer
  | layout name, analyzer => .layout <$> analyzer.layout name
  | lookup name member, analyzer => .found <$> analyzer.lookup name member
  | lookupIn name qualifier member, analyzer => .found <$> analyzer.lookupIn name qualifier member
  | resolve candidates call, analyzer => .selected <$> liftM (analyzer.resolve candidates call)
  | functionCall call, analyzer => .selected <$> liftM (analyzer.functionCall call)
  | memberCall name call, analyzer => .called <$> analyzer.memberCall name call
  | qualifiedMemberCall name qualifier call, analyzer =>
      .called <$> analyzer.qualifiedMemberCall name qualifier call
  | construct name call, analyzer => .selected <$> analyzer.construct name call
  | constructStatement statement, analyzer =>
      .constructed <$> analyzer.constructStatement statement

def subject? : Question → Option String
  | layout name => some name
  | lookup name _ => some name
  | lookupIn name _ _ => some name
  | memberCall name _ => some name
  | qualifiedMemberCall name _ _ => some name
  | resolve _ _ => none
  | functionCall _ => none
  | construct _ _ => none
  | constructStatement _ => none

end Question

inductive Operation where
  | register (declaration : Declaration)
  | ask (question : Question)

namespace Session

def perform (session : Session) : Operation → Session
  | .register declaration => (session.register declaration.registration).2
  | .ask question => (session.ask question.query).2

def run (session : Session) (operations : List Operation) : Session :=
  operations.foldl perform session

/-- The registrations of a run that succeed, in their order. -/
def successes (session : Session) : List Operation → List Operation
  | [] => []
  | .ask question :: rest => (session.perform (.ask question)).successes rest
  | .register declaration :: rest =>
      let later := (session.perform (.register declaration)).successes rest
      match (session.register declaration.registration).1 with
      | .ok _ => .register declaration :: later
      | .error _ => later

end Session

namespace Declaration

theorem atomic_registration (declaration : Declaration) : Atomic declaration.registration := by
  cases declaration with
  | newClass decl =>
      exact ((ClassTable.atomic_register decl).onPart fun _ => rfl).map fun _ => ()
  | newClasses batch =>
      exact ((ClassTable.atomic_registerAll batch).onPart fun _ => rfl).map fun _ => ()
  | newFunction function =>
      exact ((FunctionTable.atomic_register function).onPart fun _ => rfl).map fun _ => ()

theorem grows_registration (declaration : Declaration) (program : Program) :
    program.classes.Grows (outcome declaration.registration program).2.classes := by
  cases declaration with
  | newClass decl =>
      simp only [registration, outcome_map, Program.registerClass, outcome_onPart]
      exact ClassTable.grows_register _ decl
  | newClasses batch =>
      simp only [registration, outcome_map, Program.registerClasses, outcome_onPart]
      exact ClassTable.grows_registerAll _ batch
  | newFunction function =>
      simp only [registration, outcome_map, Program.registerFunction, outcome_onPart]
      exact .refl

end Declaration

/-- The class is known, but not the name that was looked up in it. -/
inductive QueryError.IsMissingName : QueryError → Prop
  | member {className member : String} : IsMissingName (.unknownMember className member)
  | base {className qualifier : String} : IsMissingName (.notABase className qualifier)

/-- The query fails only for a missing name, and then leaves the memo as it was. -/
structure Refuses {α : Type} (query : Query α) : Prop where
  atomic : Atomic query
  missingName : ∀ memo fault, (outcome query memo).1 = .error fault → fault.IsMissingName

namespace Refuses

variable {α β : Type}

theorem ofOk {query : Query α} (ok : ∀ memo, ∃ value, (outcome query memo).1 = .ok value) :
    Refuses query := by
  constructor <;>
  · intro memo fault failed
    obtain ⟨value, done⟩ := ok memo
    rw [done] at failed
    cases failed

theorem throw {fault : QueryError} (missingName : fault.IsMissingName) :
    Refuses (throw fault : Query α) := by
  constructor
  · intro memo reason failed
    rfl
  · intro memo reason failed
    cases failed
    exact missingName

theorem ofExcept {result : Except QueryError α}
    (missingName : ∀ fault, result = .error fault → fault.IsMissingName) :
    Refuses (liftM result : Query α) := by
  cases result with
  | error fault => exact throw (missingName fault rfl)
  | ok value => exact ofOk fun memo => ⟨value, rfl⟩

theorem bindExcept {result : Except QueryError α} {next : α → Query β}
    (missingName : ∀ fault, result = .error fault → fault.IsMissingName)
    (later : ∀ value, Refuses (next value)) : Refuses (liftM result >>= next) := by
  cases result with
  | error fault => exact throw (missingName fault rfl)
  | ok value => exact later value

end Refuses

/-- The memo after a question has failed: as it was, or with the layout that the question has asked
for before it found out. -/
inductive LayoutMemo.AfterFailure (table : ClassTable) (subject : Option String)
    (memo : LayoutMemo) (fault : QueryError) : LayoutMemo → Prop
  | unchanged : AfterFailure table subject memo fault memo
  | recalled {name : String} {layout : Layout} (asked : subject = some name)
      (missing : memo.get? name = none) (computed : table.layout name = .ok layout)
      (missingName : fault.IsMissingName) :
      AfterFailure table subject memo fault (memo.insert name layout)

def FailsCleanly {α : Type} (table : ClassTable) (subject : Option String) (query : Query α) :
    Prop :=
  ∀ memo fault, (outcome query memo).1 = .error fault →
    memo.AfterFailure table subject fault (outcome query memo).2

namespace FailsCleanly

variable {α β : Type} {table : ClassTable} {subject : Option String}

theorem ofAtomic {query : Query α} (atomic : Atomic query) : FailsCleanly table subject query := by
  intro memo fault failed
  rw [atomic memo fault failed]
  exact .unchanged

theorem map {query : Query α} (fails : FailsCleanly table subject query) (f : α → β) :
    FailsCleanly table subject (f <$> query) := by
  intro memo fault failed
  rw [outcome_map] at failed ⊢
  cases done : (outcome query memo).1 with
  | ok value => simp [done, Except.map] at failed
  | error reason =>
      simp only [done, Except.map, Except.error.injEq] at failed
      exact failed ▸ fails memo reason done

theorem afterLayout {name : String} {next : Layout → Query α}
    (later : ∀ layout, Refuses (next layout)) :
    FailsCleanly table (some name) (table.recallLayout name >>= next) := by
  intro memo fault failed
  rw [outcome_bind, outcome_recallLayout] at failed ⊢
  cases found : memo.get? name with
  | some layout =>
      simp only [found] at failed ⊢
      rw [(later layout).atomic memo fault failed]
      exact .unchanged
  | none =>
      cases computed : table.layout name with
      | error reason => exact .unchanged
      | ok layout =>
          simp only [found, computed] at failed ⊢
          rw [(later layout).atomic _ fault failed]
          exact .recalled rfl found computed ((later layout).missingName _ fault failed)

end FailsCleanly

theorem atomic_recallLayout (table : ClassTable) (name : String) :
    Atomic (table.recallLayout name) := by
  intro memo fault failed
  rw [outcome_recallLayout] at failed ⊢
  cases found : memo.get? name with
  | some layout => rfl
  | none =>
      cases computed : table.layout name with
      | ok layout => simp [found, computed] at failed
      | error reason => rfl

theorem ClassTable.lookup_missingName {table : ClassTable} {layout : Layout} {member : String}
    {fault : QueryError} (failed : table.lookup layout member = .error fault) :
    fault.IsMissingName := by
  unfold lookup Layout.verdictAmong at failed
  simp only at failed
  split at failed
  · cases failed
    exact .member
  · split at failed <;> cases failed

theorem ClassTable.lookupIn_missingName {table : ClassTable} {layout : Layout}
    {qualifier member : String} {fault : QueryError}
    (failed : table.lookupIn layout qualifier member = .error fault) : fault.IsMissingName := by
  unfold lookupIn Layout.choiceAmong at failed
  split at failed
  · cases failed
    exact .base
  · simp only at failed
    split at failed
    · cases failed
      exact .member
    · cases failed

namespace Analyzer

variable {analyzer : Analyzer}

theorem resolveAt_refuses (name : String) (found : Verdict MemberSite) (call : Call) :
    Refuses (analyzer.resolveAt name found call) := by
  unfold resolveAt
  split
  · exact .throw .member
  · exact .ofOk fun memo => ⟨_, rfl⟩

theorem lookup_failsCleanly (name member : String) :
    FailsCleanly analyzer.program.classes (some name) (analyzer.lookup name member) :=
  .afterLayout fun _ => .ofExcept fun _ failed => ClassTable.lookup_missingName failed

theorem lookupIn_failsCleanly (name qualifier member : String) :
    FailsCleanly analyzer.program.classes (some name)
      (analyzer.lookupIn name qualifier member) :=
  .afterLayout fun _ => .ofExcept fun _ failed => ClassTable.lookupIn_missingName failed

theorem memberCall_failsCleanly (name : String) (call : Call) :
    FailsCleanly analyzer.program.classes (some name) (analyzer.memberCall name call) := by
  rw [memberCall, lookup, bind_assoc]
  apply FailsCleanly.afterLayout
  intro layout
  apply Refuses.bindExcept fun _ failed => ClassTable.lookup_missingName failed
  intro found
  split
  · exact .ofOk fun memo => ⟨_, rfl⟩
  · exact resolveAt_refuses name _ call

theorem qualifiedMemberCall_failsCleanly (name qualifier : String) (call : Call) :
    FailsCleanly analyzer.program.classes (some name)
      (analyzer.qualifiedMemberCall name qualifier call) := by
  rw [qualifiedMemberCall, lookupIn, bind_assoc]
  apply FailsCleanly.afterLayout
  intro layout
  exact .bindExcept (fun _ failed => ClassTable.lookupIn_missingName failed) fun found =>
    resolveAt_refuses qualifier found call

theorem atomic_construct (name : String) (call : Call) :
    Atomic (analyzer.construct name call) := by
  unfold construct
  split
  · intro memo fault failed
    rfl
  · exact .lift _

theorem atomic_constructStatement (statement : Statement) :
    Atomic (analyzer.constructStatement statement) := by
  unfold constructStatement
  split
  · intro memo fault failed
    cases failed
  next call _ =>
    simp only [bind_pure_comp]
    exact (atomic_construct call.callee call).map some

end Analyzer

theorem Question.failsCleanly (question : Question) (analyzer : Analyzer) :
    FailsCleanly analyzer.program.classes question.subject? (question.query analyzer) := by
  cases question with
  | layout name => exact .ofAtomic ((atomic_recallLayout _ name).map _)
  | lookup name member => exact (Analyzer.lookup_failsCleanly name member).map _
  | lookupIn name qualifier member =>
      exact (Analyzer.lookupIn_failsCleanly name qualifier member).map _
  | resolve candidates call => exact .ofAtomic ((Atomic.lift _).map _)
  | functionCall call => exact .ofAtomic ((Atomic.lift _).map _)
  | memberCall name call => exact (Analyzer.memberCall_failsCleanly name call).map _
  | qualifiedMemberCall name qualifier call =>
      exact (Analyzer.qualifiedMemberCall_failsCleanly name qualifier call).map _
  | construct name call => exact .ofAtomic ((Analyzer.atomic_construct name call).map _)
  | constructStatement statement =>
      exact .ofAtomic ((Analyzer.atomic_constructStatement statement).map _)

end StaticResolution

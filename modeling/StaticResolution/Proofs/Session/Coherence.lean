import StaticResolution.Proofs.Session.Run

/-!
The layouts that a session keeps are never stale, and no answer depends on them.
-/

namespace StaticResolution

namespace Transparent

variable {α β : Type} {table : ClassTable}

theorem pureQuery (value : α) : Transparent table (Pure.pure value : Query α).run :=
  .pure _

theorem throw (fault : QueryError) : Transparent table (throw fault : Query α).run :=
  .pure _

theorem ofExcept (result : Except QueryError α) :
    Transparent table (liftM result : Query α).run :=
  ⟨_, .ofExcept result⟩

theorem mapQuery {query : Query α} (first : Transparent table query.run) (f : α → β) :
    Transparent table (f <$> query).run := by
  rw [← bind_pure_comp]
  exact first.bindQuery fun _ => pureQuery _

end Transparent

namespace Analyzer

variable {analyzer : Analyzer}

theorem transparent_layout (name : String) :
    Transparent analyzer.program.classes (analyzer.layout name).run :=
  ⟨_, answers_recallLayout _ name⟩

theorem transparent_lookup (name member : String) :
    Transparent analyzer.program.classes (analyzer.lookup name member).run :=
  (transparent_layout name).bindQuery fun _ => .ofExcept _

theorem transparent_lookupIn (name qualifier member : String) :
    Transparent analyzer.program.classes (analyzer.lookupIn name qualifier member).run :=
  (transparent_layout name).bindQuery fun _ => .ofExcept _

theorem transparent_convert (source target : String) :
    Transparent analyzer.program.classes (analyzer.convert source target) := by
  unfold convert
  split
  · exact .pure _
  · exact StaticResolution.transparent_convert _ source target

theorem transparent_resolve (candidates : List Member) (call : Call) :
    Transparent analyzer.program.classes (analyzer.resolve candidates call) :=
  transparent_resolveAmong transparent_convert candidates call

theorem transparent_resolveAt (name : String) (found : Verdict MemberSite) (call : Call) :
    Transparent analyzer.program.classes (analyzer.resolveAt name found call).run := by
  unfold resolveAt
  split
  · exact .throw _
  · exact (transparent_resolve _ call).lift.bindQuery fun _ => .pureQuery _

theorem transparent_memberCall (name : String) (call : Call) :
    Transparent analyzer.program.classes (analyzer.memberCall name call).run := by
  apply (transparent_lookup name call.callee).bindQuery
  intro found
  split
  · exact .pureQuery _
  · exact transparent_resolveAt name _ call

theorem transparent_qualifiedMemberCall (name qualifier : String) (call : Call) :
    Transparent analyzer.program.classes (analyzer.qualifiedMemberCall name qualifier call).run :=
  (transparent_lookupIn name qualifier call.callee).bindQuery fun found =>
    transparent_resolveAt qualifier found call

theorem transparent_construct (name : String) (call : Call) :
    Transparent analyzer.program.classes (analyzer.construct name call).run := by
  unfold construct
  split
  · exact .throw _
  · exact (transparent_resolve _ call).lift

theorem transparent_constructStatement (statement : Statement) :
    Transparent analyzer.program.classes (analyzer.constructStatement statement).run := by
  unfold constructStatement
  split
  · exact .pureQuery _
  · exact (transparent_construct _ _).bindQuery fun _ => .pureQuery _

end Analyzer

theorem Question.transparent (question : Question) (analyzer : Analyzer) :
    Transparent analyzer.program.classes (question.query analyzer).run := by
  cases question with
  | layout name => exact (Analyzer.transparent_layout name).mapQuery _
  | lookup name member => exact (Analyzer.transparent_lookup name member).mapQuery _
  | lookupIn name qualifier member =>
      exact (Analyzer.transparent_lookupIn name qualifier member).mapQuery _
  | resolve candidates call => exact (Analyzer.transparent_resolve candidates call).lift.mapQuery _
  | functionCall call => exact (Analyzer.transparent_resolve _ call).lift.mapQuery _
  | memberCall name call => exact (Analyzer.transparent_memberCall name call).mapQuery _
  | qualifiedMemberCall name qualifier call =>
      exact (Analyzer.transparent_qualifiedMemberCall name qualifier call).mapQuery _
  | construct name call => exact (Analyzer.transparent_construct name call).mapQuery _
  | constructStatement statement =>
      exact (Analyzer.transparent_constructStatement statement).mapQuery _

namespace Session

variable {session : Session}

/-- The layouts that the session keeps are those of its classes. -/
structure Coherent (session : Session) : Prop where
  formed : session.program.classes.WellFormed
  layouts : session.layouts.Coherent session.program.classes

theorem coherent_ofRules (rules : Option ConversionRules) : (ofRules rules).Coherent :=
  ⟨ClassTable.Reachable.empty.wellFormed, LayoutMemo.coherent_empty _⟩

theorem Coherent.register (coherent : session.Coherent) (declaration : Declaration) :
    (session.register declaration.registration).2.Coherent := by
  have grown := declaration.grows_registration session.program
  exact ⟨grown.wellFormed coherent.formed,
    coherent.layouts.of_extends coherent.formed grown.extension⟩

theorem Coherent.ask (coherent : session.Coherent) (question : Question) :
    (session.ask question.query).2.Coherent := by
  obtain ⟨result, answers⟩ := question.transparent session.toAnalyzer
  exact ⟨coherent.formed, (answers session.layouts coherent.layouts).2.2⟩

theorem Coherent.perform (coherent : session.Coherent) (operation : Operation) :
    (session.perform operation).Coherent := by
  cases operation with
  | register declaration => exact coherent.register declaration
  | ask question => exact coherent.ask question

theorem Coherent.run (coherent : session.Coherent) (operations : List Operation) :
    (session.run operations).Coherent := by
  induction operations generalizing session with
  | nil => exact coherent
  | cons operation rest ih => exact ih (coherent.perform operation)

theorem Coherent.entries_perform (coherent : session.Coherent) (operation : Operation) :
    session.layouts.entries <+: (session.perform operation).layouts.entries := by
  cases operation with
  | register declaration => exact List.prefix_refl _
  | ask question =>
      obtain ⟨result, answers⟩ := question.transparent session.toAnalyzer
      exact (answers session.layouts coherent.layouts).2.1

theorem Coherent.entries_run (coherent : session.Coherent) (operations : List Operation) :
    session.layouts.entries <+: (session.run operations).layouts.entries := by
  induction operations generalizing session with
  | nil => exact List.prefix_refl _
  | cons operation rest ih =>
      exact (coherent.entries_perform operation).trans (ih (coherent.perform operation))

theorem Coherent.answer_eq {other : Session} (coherent : session.Coherent)
    (otherCoherent : other.Coherent) (same : session.toAnalyzer = other.toAnalyzer)
    (question : Question) :
    (session.ask question.query).1 = (other.ask question.query).1 := by
  obtain ⟨analyzer, layouts⟩ := session
  obtain ⟨_, otherLayouts⟩ := other
  cases same
  obtain ⟨result, answers⟩ := question.transparent analyzer
  have here := (answers layouts coherent.layouts).1
  have there := (answers otherLayouts otherCoherent.layouts).1
  exact here.trans there.symm

theorem run_successes {other : Session} (same : session.toAnalyzer = other.toAnalyzer)
    (operations : List Operation) :
    (other.run (session.successes operations)).toAnalyzer = (session.run operations).toAnalyzer ∧
      (other.run (session.successes operations)).layouts = other.layouts := by
  induction operations generalizing session other with
  | nil => exact ⟨same.symm, rfl⟩
  | cons operation rest ih =>
      cases operation with
      | ask question => exact ih same
      | register declaration =>
          rw [successes]
          cases result : (session.register declaration.registration).1 with
          | ok value =>
              apply ih
              exact congrArg (fun analyzer : Analyzer => { analyzer with
                program := (outcome declaration.registration analyzer.program).2 }) same
          | error fault =>
              apply ih
              have kept := declaration.atomic_registration session.program fault result
              change { session.toAnalyzer with
                program := (outcome declaration.registration session.program).2 } = _
              rw [kept, ← same]

/-- At every point of a run the session keeps exactly layouts that its classes have now, and answers
as a session without any that has made the same successful registrations. Only questions add to
them, one that fails at most what it has asked for on the way. -/
theorem run_layouts (rules : Option ConversionRules) (operations : List Operation) :
    let session := (ofRules rules).run operations
    let fresh := (ofRules rules).run ((ofRules rules).successes operations)
    (session.layouts.entries.map Prod.fst).Nodup ∧
      (∀ entry ∈ session.layouts.entries, session.program.classes.contains entry.1 = true ∧
        session.program.classes.layout entry.1 = .ok entry.2) ∧
      (∀ more, session.layouts.entries <+: (session.run more).layouts.entries) ∧
      (∀ declaration : Declaration,
        (session.register declaration.registration).2.layouts = session.layouts) ∧
      (∀ (question : Question) fault, (session.ask question.query).1 = .error fault →
        session.layouts.AfterFailure session.program.classes question.subject? fault
          (session.ask question.query).2.layouts) ∧
      fresh.layouts = .empty ∧
      ∀ question : Question, (session.ask question.query).1 = (fresh.ask question.query).1 := by
  intro session fresh
  have coherent : session.Coherent := (coherent_ofRules rules).run operations
  have freshCoherent : fresh.Coherent := (coherent_ofRules rules).run _
  obtain ⟨same, none⟩ := run_successes (rfl : (ofRules rules).toAnalyzer = _) operations
  refine ⟨coherent.layouts.distinct, ?_, coherent.entries_run, fun _ => rfl, ?_, none, ?_⟩
  · intro entry listed
    have computed := coherent.layouts.current entry listed
    exact ⟨(ClassTable.layout_eq_ok_iff.mp computed).1, computed⟩
  · exact fun question => question.failsCleanly session.toAnalyzer session.layouts
  · exact coherent.answer_eq freshCoherent same.symm

theorem run_layouts_mixed :
    ∃ session, session = (ofRules none).run [.register (.newClasses ClassTable.mixedBatch),
        .ask (.layout "D"), .register (.newClass { name := "F", bases := [⟨"D", false⟩] })] ∧
      session.layouts.entries.map Prod.fst = ["D"] ∧ session.program.classes.contains "F" = true ∧
      (session.ask (Question.lookup "E" "z").query).1 = .error (.unknownMember "E" "z") ∧
      session.layouts.AfterFailure session.program.classes (some "E") (.unknownMember "E" "z")
        (session.ask (Question.lookup "E" "z").query).2.layouts := by
  obtain ⟨_, _, _, _, failures, _⟩ := run_layouts none
    [.register (.newClasses ClassTable.mixedBatch), .ask (.layout "D"),
      .register (.newClass { name := "F", bases := [⟨"D", false⟩] })]
  have failed : (((ofRules none).run [.register (.newClasses ClassTable.mixedBatch),
      .ask (.layout "D"), .register (.newClass { name := "F", bases := [⟨"D", false⟩] })]).ask
        (Question.lookup "E" "z").query).1 = .error (.unknownMember "E" "z") := by cbv
  exact ⟨_, rfl, by cbv, by cbv, failed, failures _ _ failed⟩

theorem failed_lookup_adds : ¬ ∀ (rules : Option ConversionRules) (operations : List Operation)
    (question : Question) (fault : QueryError),
    (((ofRules rules).run operations).ask question.query).1 = .error fault →
      (((ofRules rules).run operations).ask question.query).2.layouts =
        ((ofRules rules).run operations).layouts := by
  intro addsNone
  have same := addsNone none [.register (.newClass { name := "A" })] (.lookup "A" "m")
    (.unknownMember "A" "m") (by cbv)
  have sizes := congrArg LayoutMemo.size same
  have one : (((ofRules none).run [.register (.newClass { name := "A" })]).ask
      (Question.lookup "A" "m").query).2.layouts.size = 1 := by cbv
  have zero : ((ofRules none).run [.register (.newClass { name := "A" })]).layouts.size = 0 := by
    cbv
  omega

end Session

end StaticResolution

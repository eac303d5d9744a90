import StaticResolution.Proofs.Lookup.Qualified
import StaticResolution.Proofs.Overload.Selection
import StaticResolution.Proofs.Session.Coherence

/-!
Calls of members. Name lookup settles the class first, and the overloads of this class alone are
looked at. So a call through a qualifier selects what the plain call selects on an object of the
qualifier itself, and declarations elsewhere never take part.
-/

namespace StaticResolution

namespace Analyzer

variable {analyzer : Analyzer} {name : String} {layout : Layout}

theorem answers_lookup (computed : analyzer.program.classes.layout name = .ok layout)
    (member : String) :
    Answers analyzer.program.classes (analyzer.lookup name member).run
      (analyzer.program.classes.lookup layout member) := by
  have recalled := answers_recallLayout analyzer.program.classes name
  rw [computed] at recalled
  exact recalled.bindQuery (.ofExcept _)

theorem answers_lookup_fault {fault : QueryError}
    (failed : analyzer.program.classes.layout name = .error fault)
    (member : String) :
    Answers analyzer.program.classes (analyzer.lookup name member).run (.error fault) :=
  (failed ▸ answers_recallLayout analyzer.program.classes name).bindFault

theorem answers_lookupIn (computed : analyzer.program.classes.layout name = .ok layout)
    (qualifier member : String) :
    Answers analyzer.program.classes (analyzer.lookupIn name qualifier member).run
      (analyzer.program.classes.lookupIn layout qualifier member) := by
  have recalled := answers_recallLayout analyzer.program.classes name
  rw [computed] at recalled
  exact recalled.bindQuery (.ofExcept _)

variable {call : Call}

theorem answers_resolveAt {found : Verdict MemberSite} {site : MemberSite}
    {selected : Verdict Viable} (winner : found.winner? = some site)
    (resolved : Answers analyzer.program.classes
      (analyzer.resolve (analyzer.membersAt site) call) selected) :
    Answers analyzer.program.classes (analyzer.resolveAt name found call).run
      (.ok (.resolved site selected)) := by
  rw [resolveAt, winner]
  exact resolved.lift.bindQuery (.pure _)

theorem answers_memberCall_fault (computed : analyzer.program.classes.layout name = .ok layout)
    {fault : QueryError}
    (failed : analyzer.program.classes.lookup layout call.callee = .error fault) :
    Answers analyzer.program.classes (analyzer.memberCall name call).run (.error fault) :=
  (failed ▸ answers_lookup computed call.callee).bindFault

theorem answers_memberCall_ambiguous (computed : analyzer.program.classes.layout name = .ok layout)
    {sites : List MemberSite}
    (found : analyzer.program.classes.lookup layout call.callee = .ok (.ambiguous sites)) :
    Answers analyzer.program.classes (analyzer.memberCall name call).run
      (.ok (.ambiguousName sites)) :=
  (found ▸ answers_lookup computed call.callee).bindQuery (.pure _)

theorem answers_memberCall_winner (computed : analyzer.program.classes.layout name = .ok layout)
    {verdict : Verdict MemberSite} {site : MemberSite} {selected : Verdict Viable}
    (found : analyzer.program.classes.lookup layout call.callee = .ok verdict)
    (winner : verdict.winner? = some site)
    (resolved : Answers analyzer.program.classes
      (analyzer.resolve (analyzer.membersAt site) call) selected) :
    Answers analyzer.program.classes (analyzer.memberCall name call).run
      (.ok (.resolved site selected)) := by
  refine (found ▸ answers_lookup computed call.callee).bindQuery ?_
  have settled : Answers _ (analyzer.resolveAt name verdict call).run _ :=
    answers_resolveAt winner resolved
  cases verdict with
  | ambiguous sites => cases winner
  | unique _ => exact settled
  | hidden _ _ => exact settled
  | noMatch => cases winner

end Analyzer

/-- What a call of a member comes to, by what the lookup of its name comes to. -/
inductive MemberCallCase (analyzer : Analyzer) (call : Call) :
    Except QueryError (Verdict MemberSite) → Except QueryError MemberResolution → Prop
  | fault (fault : QueryError) : MemberCallCase analyzer call (.error fault) (.error fault)
  | ambiguous (sites : List MemberSite) :
      MemberCallCase analyzer call (.ok (.ambiguous sites)) (.ok (.ambiguousName sites))
  | resolved {found : Verdict MemberSite} {site : MemberSite} {selected : Verdict Viable}
      (winner : found.winner? = some site) (named : site.member = call.callee)
      (declares : analyzer.program.classes.Declares site.className call.callee)
      (answers : Answers analyzer.program.classes
        (analyzer.resolve (analyzer.membersAt site) call) selected) :
      MemberCallCase analyzer call (.ok found) (.ok (.resolved site selected))

namespace Session

variable {session : Session} {name qualifier : String} {call : Call}

theorem Coherent.ask_eq {α : Type} (coherent : session.Coherent) (query : Analyzer → Query α)
    {result : Except QueryError α}
    (answers : Answers session.program.classes (query session.toAnalyzer).run result) :
    (session.ask query).1 = result :=
  (answers session.layouts coherent.layouts).1

theorem Coherent.memberCall_case (coherent : session.Coherent) (name : String) (call : Call) :
    MemberCallCase session.toAnalyzer call
      (session.ask fun analyzer => analyzer.lookup name call.callee).1
      (session.ask fun analyzer => analyzer.memberCall name call).1 := by
  have lookup {result} (answers : Answers _ _ result) :=
    coherent.ask_eq (fun analyzer => analyzer.lookup name call.callee) answers
  have called {result} (answers : Answers _ _ result) :=
    coherent.ask_eq (fun analyzer => analyzer.memberCall name call) answers
  cases computed : session.program.classes.layout name with
  | error fault =>
      have failed := Analyzer.answers_lookup_fault computed call.callee
      rw [lookup failed, called failed.bindFault]
      exact .fault fault
  | ok layout =>
      obtain ⟨_, rfl⟩ := ClassTable.layout_eq_ok_iff.mp computed
      have case := (ClassTable.layoutOf_listsChains coherent.formed name).lookup_case
        coherent.formed call.callee
      rw [lookup (Analyzer.answers_lookup computed call.callee)]
      rcases case.settles with ⟨fault, found⟩ | ⟨sites, found⟩ |
        ⟨verdict, site, found, winner, named, declares⟩
      · rw [found, called (Analyzer.answers_memberCall_fault computed found)]
        exact .fault fault
      · rw [found, called (Analyzer.answers_memberCall_ambiguous computed found)]
        exact .ambiguous sites
      · obtain ⟨selected, answers⟩ :=
          Analyzer.transparent_resolve (session.toAnalyzer.membersAt site) call
        rw [found, called (Analyzer.answers_memberCall_winner computed found winner answers)]
        exact .resolved winner named declares answers

theorem Coherent.memberCall_resolved (coherent : session.Coherent)
    (registered : session.program.classes.contains name = true) {site : MemberSite}
    {selected : Verdict Viable}
    (resolved : (session.ask fun analyzer => analyzer.memberCall name call).1 =
      .ok (.resolved site selected)) :
    ∃ found, session.program.classes.lookup (session.program.classes.layoutOf name) call.callee =
        .ok found ∧ found.winner? = some site ∧
      Answers session.program.classes
        (session.toAnalyzer.resolve (session.toAnalyzer.membersAt site) call) selected := by
  have computed := ClassTable.layout_eq_ok_iff.mpr ⟨registered, rfl⟩
  have case := coherent.memberCall_case name call
  rw [resolved, coherent.ask_eq (fun analyzer => analyzer.lookup name call.callee)
    (Analyzer.answers_lookup computed call.callee)] at case
  generalize session.program.classes.lookup _ call.callee = result at case ⊢
  cases case with
  | resolved winner _ _ answers => exact ⟨_, rfl, winner, answers⟩

theorem Coherent.qualifiedMemberCall_eq (coherent : session.Coherent)
    (registered : session.program.classes.contains name = true)
    (inherits : session.program.classes.Inherits name qualifier) {site : MemberSite}
    {selected : Verdict Viable}
    (resolved : (session.ask fun analyzer => analyzer.memberCall qualifier call).1 =
      .ok (.resolved site selected)) :
    ∃ copy, (session.ask fun analyzer => analyzer.qualifiedMemberCall name qualifier call).1 =
      .ok (.resolved copy selected) := by
  obtain ⟨found, looked, winner, answers⟩ :=
    coherent.memberCall_resolved (inherits.contains registered) resolved
  obtain ⟨_, _, agrees⟩ := ClassTable.lookupIn_agrees coherent.formed
    (ClassTable.layoutOf_listsChains coherent.formed name)
    (ClassTable.layoutOf_listsChains coherent.formed qualifier) rfl inherits call.callee
  rw [looked] at agrees
  obtain ⟨id, copied⟩ := agrees.of_winner winner
  have qualified :=
    Analyzer.answers_lookupIn (ClassTable.layout_eq_ok_iff.mpr ⟨registered, rfl⟩) qualifier
      call.callee
  rw [copied] at qualified
  exact ⟨{ site with subobject := id }, coherent.ask_eq
    (fun analyzer => analyzer.qualifiedMemberCall name qualifier call)
    (qualified.bindQuery (Analyzer.answers_resolveAt rfl answers))⟩

end Session

namespace ClassTable

variable {table : ClassTable}

/-- Lookup through a qualifier finds what lookup in the qualifier finds, in the first copy of it,
and settles an ambiguity for the candidate that comes first there. So a member call through the
qualifier selects the same overload as the call on an object of the qualifier. -/
theorem qualified_lookup_agrees (reachable : Reachable table) {name : String}
    (registered : table.contains name = true) (qualifier member : String) :
    ∃ layout ancestry, table.layout name = .ok layout ∧ table.ancestry name = .ok ancestry ∧
      (qualifier ∈ name :: ancestry.ancestors → ∃ inner first,
        table.layout qualifier = .ok inner ∧
        IsLeast {id | ∃ part, layout.get? id = some part ∧ part.className = qualifier} first ∧
        Layout.QualifiedCase (layout.within first) qualifier member
          (table.lookup inner member) (table.lookupIn layout qualifier member)) ∧
      (∀ candidates, table.lookup layout member = .ok (.ambiguous candidates) →
        ∃ winner rest, candidates = winner :: rest ∧
          table.lookupIn layout name member = .ok (.unique winner)) ∧
      (∀ verdict, table.lookupIn layout qualifier member = .ok verdict →
        ∃ winner, verdict = .unique winner) ∧
      (table.lookupIn layout qualifier member = .error (.notABase name qualifier) ↔
        qualifier ∉ name :: ancestry.ancestors) ∧
      ∀ rules operations, ((Session.ofRules rules).run operations).program.classes = table →
        qualifier ∈ name :: ancestry.ancestors → ∀ call site selected,
          (((Session.ofRules rules).run operations).ask fun analyzer =>
            analyzer.memberCall qualifier call).1 = .ok (.resolved site selected) →
          ∃ copy, (((Session.ofRules rules).run operations).ask fun analyzer =>
            analyzer.qualifiedMemberCall name qualifier call).1 =
              .ok (.resolved copy selected) := by
  have formed := reachable.wellFormed
  have lists := layoutOf_listsChains formed name
  obtain ⟨ancestry, climbed, walked⟩ := ancestry_eq registered
  have inherits : qualifier ∈ name :: ancestry.ancestors ↔ table.Inherits name qualifier := by
    rw [walked, Descent.mem_preorder_iff]
    rfl
  have agrees : table.Inherits name qualifier → ∃ first, IsLeast _ first ∧ _ := fun below =>
    lookupIn_agrees formed lists (layoutOf_listsChains formed qualifier) rfl below member
  refine ⟨table.layoutOf name, ancestry, layout_eq_ok_iff.mpr ⟨registered, rfl⟩, climbed,
    ?_, ?_, ?_, ?_, ?_⟩
  · intro listed
    have below := inherits.mp listed
    obtain ⟨first, least, case⟩ := agrees below
    exact ⟨_, first, layout_eq_ok_iff.mpr ⟨below.contains registered, rfl⟩, least, case⟩
  · exact fun candidates ambiguous => lookupIn_self formed lists rfl ambiguous
  · intro verdict found
    by_cases below : table.Inherits name qualifier
    · obtain ⟨_, _, case⟩ := agrees below
      rcases case.settles with unknown | ⟨winner, unique⟩
      · cases found.symm.trans unknown
      · cases found.symm.trans unique
        exact ⟨winner, rfl⟩
    · rw [Layout.lookupIn_notABase ((ofClass_eq_nil_iff lists).mpr below)] at found
      cases found
  · rw [inherits]
    constructor
    · intro refused below
      obtain ⟨_, _, case⟩ := agrees below
      rcases case.settles with unknown | ⟨winner, unique⟩
      · cases refused.symm.trans unknown
      · cases refused.symm.trans unique
    · exact fun apart => Layout.lookupIn_notABase ((ofClass_eq_nil_iff lists).mpr apart) member
  · intro rules operations same listed call site selected resolved
    have coherent := (Session.coherent_ofRules rules).run operations
    exact coherent.qualifiedMemberCall_eq (same ▸ registered) (same ▸ inherits.mp listed) resolved

theorem qualified_lookup_agrees_mixed : mixed.Reachable ∧ mixed.contains "D" = true ∧
    ∃ layout inner first, mixed.layout "D" = .ok layout ∧ mixed.layout "A" = .ok inner ∧
      mixed.lookupIn layout "D" "m" = .ok (.unique ⟨1, "B", "m"⟩) ∧
      Layout.QualifiedCase (layout.within first) "A" "m"
        (mixed.lookup inner "m") (mixed.lookupIn layout "A" "m") ∧
      ∃ copy, (((Session.ofRules none).run [.register (.newClasses mixedBatch)]).ask fun analyzer =>
        analyzer.qualifiedMemberCall "D" "A" ⟨"m", [], true⟩).1 =
          .ok (.resolved copy
            (.unique (.ofBindings ⟨"m", none, .function, [], false, false⟩ []))) := by
  have registered : mixed.contains "D" = true := by cbv
  obtain ⟨layout, ancestry, found, climbed, agrees, own, _, _, calls⟩ :=
    qualified_lookup_agrees reachable_mixed registered "A" "m"
  obtain ⟨_, computed⟩ := layout_eq_ok_iff.mp found
  have ancestors : (mixed.ancestry "D").map Ancestry.ancestors = .ok ["B", "A", "C", "E"] := by cbv
  rw [climbed] at ancestors
  have listed : "A" ∈ "D" :: ancestry.ancestors := by
    rw [Except.ok.inj ancestors]
    decide
  obtain ⟨inner, first, innerFound, _, case⟩ := agrees listed
  have ambiguous : mixed.lookup layout "m" = .ok (.ambiguous [⟨1, "B", "m"⟩, ⟨5, "A", "m"⟩]) := by
    rw [← computed]
    cbv
  obtain ⟨_, _, split, settled⟩ := own _ ambiguous
  cases split
  have same : ((Session.ofRules none).run [.register (.newClasses mixedBatch)]).program.classes =
      mixed := by
    change (outcome (Declaration.newClasses mixedBatch).registration Program.empty).2.classes =
      mixed
    simp only [Declaration.registration, outcome_map, Program.registerClasses, outcome_onPart]
    rfl
  have resolved : (((Session.ofRules none).run [.register (.newClasses mixedBatch)]).ask
      fun analyzer => analyzer.memberCall "A" ⟨"m", [], true⟩).1 =
        .ok (.resolved ⟨0, "A", "m"⟩
          (.unique (.ofBindings ⟨"m", none, .function, [], false, false⟩ []))) := by cbv
  exact ⟨reachable_mixed, registered, layout, inner, first, found, innerFound, settled, case,
    calls none _ same listed _ _ _ resolved⟩

end ClassTable

/-- The definitions that come from a new one by adding bases and members. Fields, methods and
constructors are all added as members. -/
inductive ClassDef.Built : ClassDef → Prop
  | new (name : String) : Built { name := name }
  | withBase {decl : ClassDef} (built : Built decl) (name : String) : Built (decl.withBase name)
  | withVirtualBase {decl : ClassDef} (built : Built decl) (name : String) :
      Built (decl.withVirtualBase name)
  | withMember {decl : ClassDef} (built : Built decl) (member : Member) :
      Built (decl.withMember member)

theorem ClassDef.Built.owner_eq {decl : ClassDef} (built : decl.Built) :
    ∀ member ∈ decl.members, member.owner = some decl.name := by
  induction built with
  | new name => exact fun _ listed => absurd listed List.not_mem_nil
  | withBase _ name ih => exact ih
  | withVirtualBase _ name ih => exact ih
  | withMember _ added ih =>
      intro member listed
      rcases List.mem_append.mp listed with old | new
      · exact ih member old
      · rw [List.mem_singleton.mp new]
        rfl

theorem ClassDef.findMembers_eq_filter (decl : ClassDef) (name : String) :
    decl.findMembers name =
      decl.members.filter fun member => member.kind ≠ .constructor ∧ member.name = name := by
  apply List.filter_congr
  intro member _
  simp [Member.isConstructor, Bool.decide_and, beq_eq_decide]

theorem Call.kind_eq_function {call : Call} {member : Member}
    (admitted : call.admits member = true) (ordinary : member.kind ≠ .constructor) :
    member.kind = .function := by
  cases kind : member.kind with
  | data => simp [admits, Member.isCallable, kind] at admitted
  | function => rfl
  | constructor => exact absurd kind ordinary

namespace Analyzer

variable {analyzer : Analyzer}

theorem membersAt_of_declares (formed : analyzer.program.classes.WellFormed) {site : MemberSite}
    (declares : analyzer.program.classes.Declares site.className site.member) :
    ∃ decl, analyzer.program.classes.find? site.className = some decl ∧
      analyzer.membersAt site = decl.findMembers site.member ∧
      decl.findMembers site.member ≠ [] := by
  have declared := (ClassTable.declares_iff formed).mpr declares
  rw [ClassTable.declares] at declared
  unfold membersAt
  cases found : analyzer.program.classes.find? site.className with
  | none => simp [found] at declared
  | some decl =>
      refine ⟨decl, rfl, rfl, ?_⟩
      simpa [found, ClassDef.declares] using declared

end Analyzer

namespace Session

variable {session : Session} {call : Call}

theorem Coherent.function_of_mem_entries (coherent : session.Coherent) {decl : ClassDef}
    {selected : Verdict Viable}
    (answers : Answers session.program.classes
      (session.toAnalyzer.resolve (decl.findMembers call.callee) call) selected) :
    ∀ viable ∈ selected.entries, viable.member ∈ decl.findMembers call.callee ∧
      viable.member ∈ decl.members ∧ viable.member.kind = .function ∧
      viable.member.name = call.callee := by
  intro viable listed
  rw [← (answers session.layouts coherent.layouts).1] at listed
  obtain ⟨inside, admitted⟩ := member_of_mem_resolveAmong listed
  obtain ⟨member, kept⟩ := List.mem_filter.mp (ClassDef.findMembers_eq_filter _ _ ▸ inside)
  obtain ⟨ordinary, named⟩ := of_decide_eq_true kept
  exact ⟨inside, member, Call.kind_eq_function admitted ordinary, named⟩

end Session

def MemberResolution.named : MemberResolution → Verdict MemberSite
  | ambiguousName sites => .ambiguous sites
  | resolved site _ => .unique site

namespace MemberCallCase

variable {analyzer : Analyzer} {call : Call} {found : Except QueryError (Verdict MemberSite)}
  {called : Except QueryError MemberResolution}

theorem ambiguousName_iff (case : MemberCallCase analyzer call found called)
    (sites : List MemberSite) :
    called = .ok (.ambiguousName sites) ↔ found = .ok (.ambiguous sites) := by
  cases case with
  | fault => simp
  | ambiguous => simp
  | resolved winner =>
      constructor
      · rintro ⟨⟩
      · rintro ⟨⟩
        cases winner

theorem error_iff (case : MemberCallCase analyzer call found called) (fault : QueryError) :
    called = .error fault ↔ found = .error fault := by
  cases case <;> simp

theorem exists_resolved (case : MemberCallCase analyzer call found called)
    {verdict : Verdict MemberSite} (settled : found = .ok verdict)
    (plain : ∀ sites, verdict ≠ .ambiguous sites) :
    ∃ site selected, verdict.winner? = some site ∧ site.member = call.callee ∧
      analyzer.program.classes.Declares site.className site.member ∧
      Answers analyzer.program.classes (analyzer.resolve (analyzer.membersAt site) call) selected ∧
      called = .ok (.resolved site selected) := by
  cases case with
  | fault => cases settled
  | ambiguous sites =>
      cases settled
      exact absurd rfl (plain sites)
  | resolved winner named declares answers =>
      cases settled
      exact ⟨_, _, winner, named, named.symm ▸ declares, answers, rfl⟩

theorem named_eq (first : MemberCallCase analyzer call found called) {other : Call}
    {otherCalled : Except QueryError MemberResolution}
    (second : MemberCallCase analyzer other found otherCalled) :
    otherCalled.map MemberResolution.named = called.map MemberResolution.named := by
  cases first with
  | fault fault =>
      cases second with
      | fault => rfl
  | ambiguous sites =>
      cases second with
      | ambiguous => rfl
      | resolved winner => cases winner
  | resolved winner =>
      cases second with
      | ambiguous => cases winner
      | resolved otherWinner =>
          cases winner.symm.trans otherWinner
          rfl

end MemberCallCase

namespace Session

/-- A member call follows the lookup of its name. Where this settles on a class, the call is
resolved among the functions of the name that the class itself declares, and neither its arguments
nor whether it is direct matter for the class. -/
theorem memberCall_in_declaring_class (rules : Option ConversionRules)
    (operations : List Operation)
    (built : ∀ decl ∈ ((ofRules rules).run operations).program.classes.classes, decl.Built)
    (name : String) (call : Call) :
    let session := (ofRules rules).run operations
    let found := (session.ask fun analyzer => analyzer.lookup name call.callee).1
    let called := (session.ask fun analyzer => analyzer.memberCall name call).1
    (∀ sites, called = .ok (.ambiguousName sites) ↔ found = .ok (.ambiguous sites)) ∧
      (∀ fault, called = .error fault ↔ found = .error fault) ∧
      (∀ verdict, found = .ok verdict → (∀ sites, verdict ≠ .ambiguous sites) →
        ∃ site decl candidates selected, verdict.winner? = some site ∧
          site.member = call.callee ∧
          session.program.classes.find? site.className = some decl ∧
          (candidates = decl.members.filter fun member =>
            member.kind ≠ .constructor ∧ member.name = call.callee) ∧
          candidates ≠ [] ∧
          (session.ask fun analyzer => liftM (analyzer.resolve candidates call)).1 =
            .ok selected ∧
          called = .ok (.resolved site selected) ∧
          ∀ viable ∈ selected.entries, viable.member ∈ candidates ∧
            viable.member.kind = .function ∧ viable.member.name = call.callee ∧
            viable.member.owner = some site.className) ∧
      ∀ args direct, (session.ask fun analyzer => analyzer.memberCall name
          { callee := call.callee, args := args, direct := direct }).1.map MemberResolution.named =
        called.map MemberResolution.named := by
  intro session found called
  have coherent : session.Coherent := (coherent_ofRules rules).run operations
  have case : MemberCallCase session.toAnalyzer call found called :=
    coherent.memberCall_case name call
  refine ⟨case.ambiguousName_iff, case.error_iff, ?_,
    fun args direct => case.named_eq (coherent.memberCall_case name ⟨call.callee, args, direct⟩)⟩
  intro verdict settled plain
  obtain ⟨site, selected, winner, named, declares, answers, resolved⟩ :=
    case.exists_resolved settled plain
  obtain ⟨decl, registered, members, some⟩ :=
    Analyzer.membersAt_of_declares coherent.formed declares
  rw [members] at answers
  rw [named] at answers some
  obtain ⟨listed, owned⟩ := ClassTable.mem_of_find? registered
  refine ⟨site, decl, _, selected, winner, named, registered, decl.findMembers_eq_filter _, some,
    coherent.ask_eq _ answers.lift, resolved, ?_⟩
  intro viable entry
  obtain ⟨inside, member, function, same⟩ := coherent.function_of_mem_entries answers viable entry
  exact ⟨inside, function, same, owned ▸ (built decl listed).owner_eq _ member⟩

def hidingClasses : List ClassDef :=
  [({ name := "Base" } : ClassDef).withMethod "put" [⟨"int", false, .byValue⟩],
    (({ name := "Derived" } : ClassDef).withBase "Base").withMethod "put"
      [⟨"Text", false, .byValue⟩]]

theorem memberCall_in_declaring_class_hiding :
    ∃ session, session = (ofRules (some .exact)).run [.register (.newClasses hidingClasses)] ∧
      (∀ decl ∈ session.program.classes.classes, decl.Built) ∧
      (session.ask fun analyzer => analyzer.lookup "Derived" "put").1 =
        .ok (.hidden ⟨0, "Derived", "put"⟩ [⟨1, "Base", "put"⟩]) ∧
      (session.ask fun analyzer =>
        analyzer.memberCall "Base" ⟨"put", [⟨"int", .lvalue⟩], true⟩).1.map
          (fun resolution => resolution.winner?.map Viable.text) = .ok (some "Base::put(int)") ∧
      (session.ask fun analyzer =>
        analyzer.memberCall "Derived" ⟨"put", [⟨"int", .lvalue⟩], true⟩).1 =
          .ok (.resolved ⟨0, "Derived", "put"⟩ .noMatch) ∧
      ∀ args direct, (session.ask fun analyzer =>
        analyzer.memberCall "Derived" ⟨"put", args, direct⟩).1.map MemberResolution.named =
          .ok (.unique ⟨0, "Derived", "put"⟩) := by
  have classes : ((ofRules (some .exact)).run
      [.register (.newClasses hidingClasses)]).program.classes.classes = hidingClasses := by cbv
  have built : ∀ decl ∈ ((ofRules (some .exact)).run
      [.register (.newClasses hidingClasses)]).program.classes.classes, decl.Built := by
    rw [classes, hidingClasses, List.forall_mem_cons, List.forall_mem_singleton]
    exact ⟨.withMember (.new "Base") _, .withMember (.withBase (.new "Derived") "Base") _⟩
  obtain ⟨_, _, _, others⟩ := memberCall_in_declaring_class (some .exact)
    [.register (.newClasses hidingClasses)] built "Derived" ⟨"put", [⟨"int", .lvalue⟩], true⟩
  have called : (((ofRules (some .exact)).run [.register (.newClasses hidingClasses)]).ask
      fun analyzer => analyzer.memberCall "Derived" ⟨"put", [⟨"int", .lvalue⟩], true⟩).1 =
        .ok (.resolved ⟨0, "Derived", "put"⟩ .noMatch) := by cbv
  refine ⟨_, rfl, built, by cbv, by cbv, called, ?_⟩
  intro args direct
  rw [others, called]
  rfl

end Session

end StaticResolution

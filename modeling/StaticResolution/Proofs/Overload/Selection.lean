import Mathlib.Data.List.Sort
import StaticResolution.Overload

/-!
The choice among viable candidates, and what it takes from their order: nothing but the places of
ambiguous candidates of equal text.
-/

namespace StaticResolution

theorem min?_eq_of_perm {left right : List UInt32} (perm : left.Perm right) :
    left.min? = right.min? := by
  ext least
  rw [List.min?_eq_some_iff, List.min?_eq_some_iff, perm.mem_iff]
  exact and_congr_right fun _ => ⟨fun bound cost listed => bound cost (perm.mem_iff.mpr listed),
    fun bound cost listed => bound cost (perm.mem_iff.mp listed)⟩

theorem cheapest_eq_filter (viable : List Viable) :
    cheapest viable =
      viable.filter fun candidate => (viable.map Viable.cost).min? = some candidate.cost := by
  unfold cheapest
  cases found : (viable.map Viable.cost).min? with
  | none =>
      rw [List.min?_eq_none_iff, List.map_eq_nil_iff] at found
      simp [found]
  | some least => simp [eq_comm]

theorem cheapest_perm {left right : List Viable} (perm : left.Perm right) :
    (cheapest left).Perm (cheapest right) := by
  rw [cheapest_eq_filter, cheapest_eq_filter, min?_eq_of_perm (perm.map Viable.cost)]
  exact perm.filter _

namespace Viable

def inTextOrder (left right : Viable) : Bool :=
  decide (left.text ≤ right.text)

theorem inTextOrder_trans (first second third : Viable) (early : inTextOrder first second = true)
    (late : inTextOrder second third = true) : inTextOrder first third = true := by
  simp only [inTextOrder, decide_eq_true_eq] at *
  exact String.le_trans early late

theorem inTextOrder_total (left right : Viable) :
    (inTextOrder left right || inTextOrder right left) = true := by
  simpa [inTextOrder] using String.le_total left.text right.text

theorem pairwise_sorted (list : List Viable) :
    (list.mergeSort inTextOrder).Pairwise fun left right => left.text ≤ right.text := by
  simpa [inTextOrder] using List.pairwise_mergeSort inTextOrder_trans inTextOrder_total list

theorem sorted_perm {left right : List Viable} (perm : left.Perm right) :
    (left.mergeSort inTextOrder).Perm (right.mergeSort inTextOrder) :=
  (List.mergeSort_perm left _).trans (perm.trans (List.mergeSort_perm right _).symm)

theorem sorted_texts {left right : List Viable} (perm : left.Perm right) :
    (left.mergeSort inTextOrder).map text = (right.mergeSort inTextOrder).map text := by
  refine List.Perm.eq_of_pairwise (fun _ _ _ _ => String.le_antisymm) ?_ ?_
    ((sorted_perm perm).map text)
  · exact List.pairwise_map.mpr (pairwise_sorted left)
  · exact List.pairwise_map.mpr (pairwise_sorted right)

theorem sorted_eq {left right : List Viable} (perm : left.Perm right)
    (distinct : ∀ first ∈ right, ∀ second ∈ right, first.text = second.text → first = second) :
    left.mergeSort inTextOrder = right.mergeSort inTextOrder := by
  refine List.Perm.eq_of_pairwise ?_ (pairwise_sorted left) (pairwise_sorted right)
    (sorted_perm perm)
  intro first second firstListed secondListed below above
  exact distinct first (perm.mem_iff.mp (List.mem_mergeSort.mp firstListed))
    second (List.mem_mergeSort.mp secondListed) (String.le_antisymm below above)

theorem filter_sorted (list : List Viable) (common : String) :
    (list.mergeSort inTextOrder).filter (fun viable => viable.text = common) =
      list.filter fun viable => viable.text = common := by
  have alike : (list.filter fun viable => viable.text = common).Pairwise
      fun left right => inTextOrder left right = true := by
    apply List.pairwise_of_forall_mem_list
    intro left leftListed right rightListed
    simp only [List.mem_filter, decide_eq_true_eq] at leftListed rightListed
    simp [inTextOrder, leftListed.2, rightListed.2]
  have kept := (List.sublist_mergeSort inTextOrder_trans inTextOrder_total alike
    List.filter_sublist).filter fun viable => viable.text = common
  rw [List.filter_filter] at kept
  simp only [Bool.and_self] at kept
  exact (kept.eq_of_length ((List.mergeSort_perm list _).filter _).length_eq.symm).symm

end Viable

/-- Verdicts that differ at most in the places of ambiguous candidates of equal text. -/
inductive Verdict.AgreesByText : Verdict Viable → Verdict Viable → Prop
  | same (verdict : Verdict Viable) : AgreesByText verdict verdict
  | ambiguous {left right : List Viable} (perm : left.Perm right)
      (texts : left.map Viable.text = right.map Viable.text) :
      AgreesByText (.ambiguous left) (.ambiguous right)

theorem selectCheapest_of_several {viable : List Viable}
    (several : 2 ≤ (cheapest viable).length) :
    selectCheapest viable = .ambiguous ((cheapest viable).mergeSort Viable.inTextOrder) := by
  unfold selectCheapest
  split
  next none => simp [none] at several
  next best only => simp [only] at several
  next => rfl

theorem selectCheapest_congr {left right : List Viable} (same : cheapest left = cheapest right) :
    selectCheapest left = selectCheapest right := by
  unfold selectCheapest
  rw [same]

theorem selectCheapest_of_few {left right : List Viable} (perm : left.Perm right)
    (few : (cheapest right).length < 2) : selectCheapest left = selectCheapest right := by
  have best := cheapest_perm perm
  apply selectCheapest_congr
  rcases found : cheapest right with _ | ⟨winner, rest⟩
  · exact (found ▸ best).eq_nil
  · rw [found, List.length_cons] at few
    obtain rfl := List.eq_nil_of_length_eq_zero (by omega : rest.length = 0)
    exact (found ▸ best).eq_singleton

theorem selectCheapest_agrees {left right : List Viable} (perm : left.Perm right) :
    (selectCheapest left).AgreesByText (selectCheapest right) := by
  have best := cheapest_perm perm
  rcases Nat.lt_or_ge (cheapest right).length 2 with few | several
  · rw [selectCheapest_of_few perm few]
    exact .same _
  · rw [selectCheapest_of_several several, selectCheapest_of_several (best.length_eq ▸ several)]
    exact .ambiguous (Viable.sorted_perm best) (Viable.sorted_texts best)

theorem selectCheapest_eq {left right : List Viable} (perm : left.Perm right)
    (distinct : ∀ first ∈ cheapest right, ∀ second ∈ cheapest right,
      first.text = second.text → first = second) : selectCheapest left = selectCheapest right := by
  have best := cheapest_perm perm
  rcases Nat.lt_or_ge (cheapest right).length 2 with few | several
  · exact selectCheapest_of_few perm few
  · rw [selectCheapest_of_several several, selectCheapest_of_several (best.length_eq ▸ several),
      Viable.sorted_eq best distinct]

theorem filter_cheapest_of_selectCheapest_eq {left right : List Viable}
    (severalLeft : 2 ≤ (cheapest left).length) (severalRight : 2 ≤ (cheapest right).length)
    (same : selectCheapest left = selectCheapest right) (common : String) :
    (cheapest left).filter (fun viable => viable.text = common) =
      (cheapest right).filter fun viable => viable.text = common := by
  rw [selectCheapest_of_several severalLeft, selectCheapest_of_several severalRight,
    Verdict.ambiguous.injEq] at same
  rw [← Viable.filter_sorted, same, Viable.filter_sorted]

theorem exists_cheapest_cons {viable rest : List Viable} {left right : Viable}
    (perm : (left :: right :: rest).Perm viable) (leftBest : left ∈ cheapest viable)
    (rightBest : right ∈ cheapest viable) :
    ∃ tail, cheapest (left :: right :: rest) = left :: right :: tail := by
  rw [cheapest_eq_filter, List.mem_filter, ← min?_eq_of_perm (perm.map Viable.cost)]
    at leftBest rightBest
  rw [cheapest_eq_filter, List.filter_cons, if_pos leftBest.2, List.filter_cons,
    if_pos rightBest.2]
  exact ⟨_, rfl⟩

theorem eq_of_selectCheapest_eq {viable rest : List Viable} {left right : Viable}
    (perm : (left :: right :: rest).Perm viable) (leftBest : left ∈ cheapest viable)
    (rightBest : right ∈ cheapest viable) (texts : left.text = right.text)
    (same : selectCheapest (left :: right :: rest) = selectCheapest (right :: left :: rest)) :
    left = right := by
  obtain ⟨front, leftFirst⟩ := exists_cheapest_cons perm leftBest rightBest
  obtain ⟨back, rightFirst⟩ :=
    exists_cheapest_cons ((List.Perm.swap ..).trans perm) rightBest leftBest
  have kept := filter_cheapest_of_selectCheapest_eq (by simp [leftFirst]) (by simp [rightFirst])
    same left.text
  have heads := congrArg List.head? kept
  simpa [leftFirst, rightFirst, texts] using heads

def Verdict.entries {α : Type} : Verdict α → List α
  | unique winner => [winner]
  | ambiguous candidates => candidates
  | hidden winner shadowed => winner :: shadowed
  | noMatch => []

theorem mem_of_mem_selectCheapest {viable : List Viable} {chosen : Viable}
    (listed : chosen ∈ (selectCheapest viable).entries) : chosen ∈ viable := by
  have best : chosen ∈ cheapest viable := by
    unfold selectCheapest at listed
    split at listed
    next => exact absurd listed List.not_mem_nil
    next best only => rwa [only]
    next => exact List.mem_mergeSort.mp listed
  rw [cheapest_eq_filter] at best
  exact List.mem_of_mem_filter best

section Stateful

variable {σ : Type} {convert : String → String → StateM σ (Option Conversion)} {call : Call}

theorem member_of_viable? {member : Member} {state : σ} {viable : Viable}
    (found : ((viable? convert call member).run state).run.1 = some viable) :
    viable.member = member ∧ call.admits member = true := by
  unfold viable? at found
  split at found
  next admitted =>
    obtain ⟨bindings, _, rfl⟩ := Option.map_eq_some_iff.mp found
    exact ⟨rfl, admitted⟩
  next => cases found

theorem member_of_mem_viableAmong {candidates : List Member} {state : σ} {viable : Viable}
    (listed : viable ∈ ((viableAmong convert call candidates).run state).run.1) :
    viable.member ∈ candidates ∧ call.admits viable.member = true := by
  induction candidates generalizing state with
  | nil => exact absurd listed List.not_mem_nil
  | cons member rest ih =>
      rcases List.mem_append.mp listed with first | later
      · obtain ⟨rfl, admitted⟩ := member_of_viable? (Option.mem_toList.mp first)
        exact ⟨List.mem_cons_self, admitted⟩
      · obtain ⟨inside, admitted⟩ := ih later
        exact ⟨List.mem_cons_of_mem _ inside, admitted⟩

theorem member_of_mem_resolveAmong {candidates : List Member} {state : σ} {viable : Viable}
    (listed : viable ∈ ((resolveAmong convert candidates call).run state).run.1.entries) :
    viable.member ∈ candidates ∧ call.admits viable.member = true :=
  member_of_mem_viableAmong (mem_of_mem_selectCheapest listed)

end Stateful

/-- The rules as conversions that are asked for without any effects. -/
def ConversionRules.ask (rules : ConversionRules) (source target : String) :
    Id (Option Conversion) :=
  rules source target

variable {rules : ConversionRules} {call : Call}

theorem viableAmong_ask (candidates : List Member) :
    (viableAmong rules.ask call candidates).run =
      candidates.filterMap fun member => (viable? rules.ask call member).run := by
  induction candidates with
  | nil => rfl
  | cons member rest ih =>
      rw [List.filterMap_cons, ← ih]
      change (viable? rules.ask call member).run.toList ++ _ = _
      cases (viable? rules.ask call member).run <;> rfl

theorem resolveAmong_ask (candidates : List Member) :
    (resolveAmong rules.ask candidates call).run =
      selectCheapest (viableAmong rules.ask call candidates).run := rfl

theorem viableAmong_cons {member : Member} {viable : Viable}
    (found : (viable? rules.ask call member).run = some viable) (rest : List Member) :
    (viableAmong rules.ask call (member :: rest)).run =
      viable :: (viableAmong rules.ask call rest).run := by
  rw [viableAmong_ask, viableAmong_ask]
  exact List.filterMap_cons_some found

theorem viableAmong_perm {candidates others : List Member} (perm : others.Perm candidates) :
    (viableAmong rules.ask call others).run.Perm (viableAmong rules.ask call candidates).run := by
  rw [viableAmong_ask, viableAmong_ask]
  exact perm.filterMap _

theorem exists_of_mem_cheapest {candidates : List Member} {viable : Viable}
    (best : viable ∈ cheapest (viableAmong rules.ask call candidates).run) :
    ∃ member ∈ candidates, (viable? rules.ask call member).run = some viable := by
  rw [cheapest_eq_filter, List.mem_filter, viableAmong_ask] at best
  exact List.mem_filterMap.mp best.1

theorem exists_perm_cons_cons {candidates : List Member} {left right : Member}
    (leftListed : left ∈ candidates) (rightListed : right ∈ candidates) (differ : right ≠ left) :
    ∃ rest, (left :: right :: rest).Perm candidates := by
  have still := (List.mem_erase_of_ne differ).mpr rightListed
  exact ⟨(candidates.erase left).erase right,
    ((List.perm_cons_erase still).symm.cons left).trans (List.perm_cons_erase leftListed).symm⟩

theorem eq_of_resolveAmong_eq {candidates : List Member}
    (constant : ∀ others : List Member, others.Perm candidates →
      (resolveAmong rules.ask others call).run = (resolveAmong rules.ask candidates call).run)
    {left right : Viable}
    (leftBest : left ∈ cheapest (viableAmong rules.ask call candidates).run)
    (rightBest : right ∈ cheapest (viableAmong rules.ask call candidates).run)
    (texts : left.text = right.text) : left = right := by
  by_contra differ
  obtain ⟨leftMember, leftListed, leftFound⟩ := exists_of_mem_cheapest leftBest
  obtain ⟨rightMember, rightListed, rightFound⟩ := exists_of_mem_cheapest rightBest
  have membersDiffer : rightMember ≠ leftMember := by
    rintro rfl
    exact differ (Option.some.inj (leftFound.symm.trans rightFound))
  obtain ⟨rest, front⟩ := exists_perm_cons_cons leftListed rightListed membersDiffer
  have same := (constant _ front).trans (constant _ ((List.Perm.swap ..).trans front)).symm
  have perm : (viableAmong rules.ask call (leftMember :: rightMember :: rest)).run.Perm
      (viableAmong rules.ask call candidates).run := viableAmong_perm front
  rw [viableAmong_cons leftFound, viableAmong_cons rightFound] at perm
  rw [resolveAmong_ask, resolveAmong_ask, viableAmong_cons leftFound, viableAmong_cons rightFound,
    viableAmong_cons rightFound, viableAmong_cons leftFound] at same
  exact differ (eq_of_selectCheapest_eq perm leftBest rightBest texts same)

/-- Reordering candidates moves ambiguous candidates of equal text at most. The verdict stays
whatever the order is exactly if no two of the cheapest candidates differ and have equal texts. -/
theorem resolveAmong_reorder (rules : ConversionRules) (candidates : List Member) (call : Call) :
    (∀ others : List Member, others.Perm candidates →
      (resolveAmong rules.ask others call).run.AgreesByText
        (resolveAmong rules.ask candidates call).run) ∧
    ((∀ others : List Member, others.Perm candidates →
        (resolveAmong rules.ask others call).run = (resolveAmong rules.ask candidates call).run) ↔
      ∀ left ∈ cheapest (viableAmong rules.ask call candidates).run,
        ∀ right ∈ cheapest (viableAmong rules.ask call candidates).run,
          left.text = right.text → left = right) := by
  refine ⟨fun others perm => selectCheapest_agrees (viableAmong_perm perm), ?_, ?_⟩
  · intro constant left leftBest right rightBest
    exact eq_of_resolveAmong_eq constant leftBest rightBest
  · intro distinct others perm
    exact selectCheapest_eq (viableAmong_perm perm) distinct

def namesakes : List Member :=
  [.constructor "A" [], (Member.function "A" []).ownedBy "A"]

def namesakeCall : Call :=
  { callee := "A", args := [] }

theorem resolveAmong_namesakes_reverse :
    namesakes.reverse.Perm namesakes ∧
      (resolveAmong ConversionRules.standard.ask namesakes.reverse namesakeCall).run ≠
        (resolveAmong ConversionRules.standard.ask namesakes namesakeCall).run := by
  refine ⟨List.reverse_perm _, ?_⟩
  intro same
  have equal := eq_of_selectCheapest_eq
    (List.Perm.refl [Viable.ofBindings (.constructor "A" []) [],
      .ofBindings ((Member.function "A" []).ownedBy "A") []])
    (by decide +kernel) (by decide +kernel) rfl same.symm
  exact absurd equal (by decide)

end StaticResolution

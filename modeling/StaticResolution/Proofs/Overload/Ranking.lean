import StaticResolution.Proofs.Overload.Selection

/-!
The choice among viable candidates, told by the list alone: the only entry of the lowest cost, or
all entries of that cost in the order of their texts.
-/

namespace StaticResolution

/-- The lexicographic order of texts by the numbers of their code points. -/
def TextBefore (left right : String) : Prop :=
  List.Lex (· < ·) (left.toList.map Char.toNat) (right.toList.map Char.toNat)

theorem lex_map_toNat_iff (left right : List Char) :
    List.Lex (· < ·) (left.map Char.toNat) (right.map Char.toNat) ↔
      List.Lex (· < ·) left right := by
  induction left generalizing right with
  | nil => cases right <;> simp
  | cons first rest ih =>
      cases right with
      | nil => simp
      | cons other others =>
          simp only [List.map_cons, List.cons_lex_cons_iff, ih, Char.toNat_inj]
          exact Iff.rfl

theorem textBefore_iff {left right : String} : TextBefore left right ↔ left < right :=
  lex_map_toNat_iff left.toList right.toList

def IsLeastCost (viable : List Viable) (least : UInt32) : Prop :=
  (∃ best ∈ viable, best.cost = least) ∧ ∀ other ∈ viable, least ≤ other.cost

def HasLeastCostAt (viable : List Viable) (place : Nat) : Prop :=
  ∃ entry, viable[place]? = some entry ∧ IsLeastCost viable entry.cost

/-- All entries of the cost and no others, by their texts, and otherwise as they are listed. -/
structure ListsTied (viable : List Viable) (least : UInt32) (listed : List Viable) : Prop where
  several : 2 ≤ listed.length
  perm : listed.Perm (viable.filter fun entry => entry.cost = least)
  sorted : listed.Pairwise fun left right => ¬ TextBefore right.text left.text
  stable : ∀ common, listed.filter (fun entry => entry.text = common) =
    viable.filter fun entry => entry.cost = least ∧ entry.text = common

section LeastCost

variable {viable : List Viable} {least : UInt32}

theorem isLeastCost_iff :
    IsLeastCost viable least ↔ (viable.map Viable.cost).min? = some least := by
  simp [IsLeastCost, List.min?_eq_some_iff]

theorem IsLeastCost.unique {other : UInt32} (lowest : IsLeastCost viable least)
    (otherLowest : IsLeastCost viable other) : least = other := by
  rw [isLeastCost_iff] at lowest otherLowest
  simpa [lowest] using otherLowest

theorem exists_isLeastCost (listed : viable ≠ []) : ∃ least, IsLeastCost viable least := by
  simp only [isLeastCost_iff]
  rw [← Option.isSome_iff_exists, ← Option.ne_none_iff_isSome]
  simpa [List.min?_eq_none_iff] using listed

theorem IsLeastCost.cheapest_eq (lowest : IsLeastCost viable least) :
    cheapest viable = viable.filter fun entry => entry.cost = least := by
  rw [cheapest_eq_filter, isLeastCost_iff.mp lowest]
  simp only [Option.some.injEq, eq_comm]

theorem IsLeastCost.isLeastCost_iff_eq (lowest : IsLeastCost viable least) {entry : Viable} :
    IsLeastCost viable entry.cost ↔ entry.cost = least :=
  ⟨fun other => other.unique lowest, fun same => same ▸ lowest⟩

theorem cheapest_eq_nil_iff : cheapest viable = [] ↔ viable = [] := by
  constructor
  · intro none
    by_contra listed
    obtain ⟨least, lowest⟩ := exists_isLeastCost listed
    obtain ⟨⟨best, inside, cost⟩, _⟩ := id lowest
    rw [lowest.cheapest_eq, List.filter_eq_nil_iff] at none
    exact none best inside (by simpa using cost)
  · rintro rfl
    rfl

end LeastCost

section Places

variable {α : Type} {keeps : α → Prop} [DecidablePred keeps] {list : List α} {kept : α}

theorem exists_place_of_filter_eq (only : list.filter (fun entry => keeps entry) = [kept]) :
    ∃ place : Nat, list[place]? = some kept ∧
      ∀ other : Nat, (∃ entry, list[other]? = some entry ∧ keeps entry) ↔ other = place := by
  obtain ⟨before, after, rfl, early, keeping, late⟩ := List.filter_eq_cons_iff.mp only
  simp only [List.filter_eq_nil_iff, decide_eq_true_eq] at early keeping late
  refine ⟨before.length, by simp, ?_⟩
  intro other
  constructor
  · rintro ⟨entry, found, keepsToo⟩
    rcases Nat.lt_trichotomy other before.length with earlier | same | later
    · rw [List.getElem?_append_left earlier] at found
      exact absurd keepsToo (early entry (List.mem_of_getElem? found))
    · exact same
    · obtain ⟨gap, rfl⟩ := Nat.exists_eq_add_of_lt later
      rw [List.getElem?_append_right (by omega), Nat.add_assoc, Nat.add_sub_cancel_left,
        List.getElem?_cons_succ] at found
      exact absurd keepsToo (late entry (List.mem_of_getElem? found))
  · rintro rfl
    exact ⟨kept, by simp, keeping⟩

theorem filter_eq_of_place {place : Nat} (found : list[place]? = some kept)
    (only : ∀ other : Nat, (∃ entry, list[other]? = some entry ∧ keeps entry) ↔ other = place) :
    list.filter (fun entry => keeps entry) = [kept] := by
  obtain ⟨bound, rfl⟩ := List.getElem?_eq_some_iff.mp found
  obtain ⟨entry, same, keeping⟩ := (only place).mpr rfl
  cases found.symm.trans same
  have apart : ∀ other entry, list[other]? = some entry → other ≠ place → ¬ keeps entry :=
    fun other entry listed differ keepsToo => differ ((only other).mp ⟨entry, listed, keepsToo⟩)
  rw [List.filter_eq_cons_iff]
  refine ⟨list.take place, list.drop (place + 1), by simp, ?_, by simpa using keeping, ?_⟩
  · intro entry early
    obtain ⟨other, listed⟩ := List.mem_iff_getElem?.mp early
    rw [List.getElem?_take] at listed
    split at listed
    next earlier => simpa using apart other entry listed (by omega)
    next => cases listed
  · rw [List.filter_eq_nil_iff]
    intro entry late
    obtain ⟨gap, listed⟩ := List.mem_iff_getElem?.mp late
    rw [List.getElem?_drop] at listed
    simpa using apart _ entry listed (by omega)

theorem filter_eq_singleton_iff : list.filter (fun entry => keeps entry) = [kept] ↔
    ∃ place : Nat, list[place]? = some kept ∧
      ∀ other : Nat, (∃ entry, list[other]? = some entry ∧ keeps entry) ↔ other = place :=
  ⟨exists_place_of_filter_eq, fun ⟨_, found, only⟩ => filter_eq_of_place found only⟩

end Places

section Agreement

variable {left right : List Viable}

theorem mem_of_filter_eq (agree : ∀ common, left.filter (fun entry => entry.text = common) =
    right.filter fun entry => entry.text = common) {entry : Viable} (listed : entry ∈ left) :
    entry ∈ right := by
  have kept : entry ∈ left.filter fun other => other.text = entry.text := by simpa using listed
  rw [agree] at kept
  exact List.mem_of_mem_filter kept

theorem head_text_le {first entry : Viable} {rest : List Viable}
    (sorted : (first :: rest).Pairwise fun before after => before.text ≤ after.text)
    (listed : entry ∈ first :: rest) : first.text ≤ entry.text := by
  rcases List.mem_cons.mp listed with rfl | later
  · exact String.le_refl _
  · exact (List.pairwise_cons.mp sorted).1 entry later

theorem eq_of_sorted_of_filter_eq
    (leftSorted : left.Pairwise fun before after => before.text ≤ after.text)
    (rightSorted : right.Pairwise fun before after => before.text ≤ after.text)
    (agree : ∀ common, left.filter (fun entry => entry.text = common) =
      right.filter fun entry => entry.text = common) : left = right := by
  induction left generalizing right with
  | nil =>
      cases right with
      | nil => rfl
      | cons other others => simpa using agree other.text
  | cons first rest ih =>
      cases right with
      | nil => simpa using agree first.text
      | cons other others =>
          have below : first.text ≤ other.text := head_text_le leftSorted
            (mem_of_filter_eq (fun common => (agree common).symm) List.mem_cons_self)
          have above : other.text ≤ first.text := head_text_le rightSorted
            (mem_of_filter_eq agree List.mem_cons_self)
          have same : first = other := by
            have heads := agree first.text
            simp only [List.filter_cons, String.le_antisymm below above, decide_true, if_true]
              at heads
            exact (List.cons.inj heads).1
          subst same
          congr 1
          apply ih leftSorted.of_cons rightSorted.of_cons
          intro common
          have tails := agree common
          by_cases named : first.text = common
          · simpa [named] using tails
          · simpa [named] using tails

end Agreement

section Selected

variable {viable : List Viable} {least : UInt32}

theorem selectCheapest_cases (viable : List Viable) :
    (cheapest viable = [] ∧ selectCheapest viable = .noMatch) ∨
    (∃ best, cheapest viable = [best] ∧ selectCheapest viable = .unique best) ∨
    (2 ≤ (cheapest viable).length ∧
      selectCheapest viable = .ambiguous ((cheapest viable).mergeSort Viable.inTextOrder)) := by
  rcases found : cheapest viable with _ | ⟨best, _ | ⟨next, rest⟩⟩
  · simp [selectCheapest, found]
  · simp [selectCheapest, found]
  · have several : 2 ≤ (cheapest viable).length := by simp [found]
    rw [selectCheapest_of_several several, found]
    simp

theorem selectCheapest_eq_noMatch_iff : selectCheapest viable = .noMatch ↔ viable = [] := by
  rw [← cheapest_eq_nil_iff]
  rcases selectCheapest_cases viable with ⟨best, chosen⟩ | ⟨_, best, chosen⟩ | ⟨several, chosen⟩
  · simp [best, chosen]
  · simp [best, chosen]
  · rw [chosen]
    refine ⟨nofun, fun best => ?_⟩
    simp [best] at several

theorem selectCheapest_eq_unique_iff {best : Viable} :
    selectCheapest viable = .unique best ↔ cheapest viable = [best] := by
  rcases selectCheapest_cases viable with ⟨best, chosen⟩ | ⟨_, best, chosen⟩ | ⟨several, chosen⟩
  · simp [best, chosen]
  · simp [best, chosen]
  · rw [chosen]
    refine ⟨nofun, fun best => ?_⟩
    simp [best] at several

theorem selectCheapest_eq_ambiguous_iff {listed : List Viable} :
    selectCheapest viable = .ambiguous listed ↔
      2 ≤ (cheapest viable).length ∧ (cheapest viable).mergeSort Viable.inTextOrder = listed := by
  rcases selectCheapest_cases viable with ⟨best, chosen⟩ | ⟨_, best, chosen⟩ | ⟨several, chosen⟩
  · simp [best, chosen]
  · simp [best, chosen]
  · simp [chosen, several]

theorem selectCheapest_ne_hidden (winner : Viable) (shadowed : List Viable) :
    selectCheapest viable ≠ .hidden winner shadowed := by
  rcases selectCheapest_cases viable with ⟨_, chosen⟩ | ⟨_, _, chosen⟩ | ⟨_, chosen⟩ <;>
    simp [chosen]

theorem IsLeastCost.listsTied_sorted (lowest : IsLeastCost viable least)
    (several : 2 ≤ (cheapest viable).length) :
    ListsTied viable least ((cheapest viable).mergeSort Viable.inTextOrder) := by
  refine ⟨by simpa using several, ?_, ?_, ?_⟩
  · rw [← lowest.cheapest_eq]
    exact List.mergeSort_perm _ _
  · simp only [textBefore_iff]
    exact Viable.pairwise_sorted _
  · intro common
    rw [Viable.filter_sorted, lowest.cheapest_eq, List.filter_filter]
    simp only [Bool.decide_and, Bool.and_comm]

theorem ListsTied.unique {listed others : List Viable} (tied : ListsTied viable least listed)
    (otherTied : ListsTied viable least others) : listed = others := by
  have sorted := tied.sorted
  have otherSorted := otherTied.sorted
  simp only [textBefore_iff] at sorted otherSorted
  apply eq_of_sorted_of_filter_eq sorted otherSorted
  intro common
  rw [tied.stable, otherTied.stable]

theorem ListsTied.several_cheapest {listed : List Viable} (tied : ListsTied viable least listed)
    (lowest : IsLeastCost viable least) : 2 ≤ (cheapest viable).length := by
  rw [lowest.cheapest_eq, ← tied.perm.length_eq]
  exact tied.several

theorem selectCheapest_eq_ambiguous_iff_listsTied {listed : List Viable} :
    selectCheapest viable = .ambiguous listed ↔
      ∃ least, IsLeastCost viable least ∧ ListsTied viable least listed := by
  rw [selectCheapest_eq_ambiguous_iff]
  constructor
  · rintro ⟨several, rfl⟩
    have some : viable ≠ [] := by
      rintro rfl
      simp [cheapest] at several
    obtain ⟨least, lowest⟩ := exists_isLeastCost some
    exact ⟨least, lowest, lowest.listsTied_sorted several⟩
  · rintro ⟨least, lowest, tied⟩
    have several := tied.several_cheapest lowest
    exact ⟨several, (lowest.listsTied_sorted several).unique tied⟩

theorem cheapest_eq_singleton_iff {best : Viable} : cheapest viable = [best] ↔
    ∃ place : Nat, viable[place]? = some best ∧
      ∀ other, HasLeastCostAt viable other ↔ other = place := by
  by_cases empty : viable = []
  · simp [empty, cheapest]
  · obtain ⟨least, lowest⟩ := exists_isLeastCost empty
    simp only [HasLeastCostAt, lowest.isLeastCost_iff_eq]
    rw [lowest.cheapest_eq, filter_eq_singleton_iff]

end Selected

/-- No match comes of an empty list only, and a winner of the lowest cost from a list that has that
cost in one place only. Otherwise the entries of the lowest cost are all ambiguous, in the order
of their texts, and entries of equal text in the order of the list. -/
theorem selectCheapest_exact (viable : List Viable) :
    (selectCheapest viable = .noMatch ↔ viable = []) ∧
      (∀ best, selectCheapest viable = .unique best ↔
        ∃ place : Nat, viable[place]? = some best ∧
          ∀ other, HasLeastCostAt viable other ↔ other = place) ∧
      (∀ listed, selectCheapest viable = .ambiguous listed ↔
        ∃ least, IsLeastCost viable least ∧ ListsTied viable least listed) ∧
      (viable = [] ∨ (∃ place, ∀ other, HasLeastCostAt viable other ↔ other = place) ∨
        ∃ listed, selectCheapest viable = .ambiguous listed) ∧
      ∀ winner shadowed, selectCheapest viable ≠ .hidden winner shadowed := by
  refine ⟨selectCheapest_eq_noMatch_iff, ?_, fun _ => selectCheapest_eq_ambiguous_iff_listsTied,
    ?_, selectCheapest_ne_hidden⟩
  · intro best
    rw [selectCheapest_eq_unique_iff, cheapest_eq_singleton_iff]
  · rcases selectCheapest_cases viable with ⟨none, _⟩ | ⟨best, only, _⟩ | ⟨_, chosen⟩
    · exact .inl (cheapest_eq_nil_iff.mp none)
    · obtain ⟨place, _, sole⟩ := cheapest_eq_singleton_iff.mp only
      exact .inr (.inl ⟨place, sole⟩)
    · exact .inr (.inr ⟨_, chosen⟩)

end StaticResolution

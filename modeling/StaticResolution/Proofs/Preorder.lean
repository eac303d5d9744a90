import Mathlib.Data.List.Nodup
import Mathlib.Logic.Relation

/-!
Depth-first walks over a relation that only goes down. A walk lists what it meets in pre-order, each
thing once, and so it does for the images under a map that brings some of these things together.
-/

namespace StaticResolution

/-- A relation in which every step lowers the rank. -/
structure Descent (α : Type) where
  next : α → List α
  rank : α → Nat
  rank_lt : ∀ {a b}, b ∈ next a → rank b < rank a

namespace Descent

section Reach

variable {α : Type} (descent : Descent α)

def Reaches : α → α → Prop :=
  Relation.ReflTransGen fun a b => b ∈ descent.next a

theorem induction {motive : α → Prop}
    (step : ∀ a, (∀ b ∈ descent.next a, motive b) → motive a) (a : α) : motive a := by
  generalize bound : descent.rank a = rank
  induction rank using Nat.strongRecOn generalizing a with
  | ind rank ih =>
      apply step
      intro b below
      have lower := descent.rank_lt below
      exact ih (descent.rank b) (by omega) b rfl

variable {descent}

theorem Reaches.rank_le {a b : α} (reach : descent.Reaches a b) :
    descent.rank b ≤ descent.rank a := by
  induction reach with
  | refl => exact Nat.le_refl _
  | tail _ step ih => exact Nat.le_trans (Nat.le_of_lt (descent.rank_lt step)) ih

theorem Reaches.rank_lt_of_ne {a b : α} (reach : descent.Reaches a b) (differ : a ≠ b) :
    descent.rank b < descent.rank a := by
  cases reach with
  | refl => exact absurd rfl differ
  | tail before step => exact Nat.lt_of_lt_of_le (descent.rank_lt step) (Reaches.rank_le before)

theorem Reaches.antisymm {a b : α} (forth : descent.Reaches a b) (back : descent.Reaches b a) :
    a = b := by
  by_contra differ
  have lower := forth.rank_lt_of_ne differ
  have upper := back.rank_le
  omega

theorem Reaches.inside {region : α → Prop}
    (closed : ∀ a, region a → ∀ b ∈ descent.next a, region b) {a b : α}
    (reach : descent.Reaches a b) (start : region a) : region b := by
  induction reach with
  | refl => exact start
  | tail _ step ih => exact closed _ ih _ step

theorem reaches_congr {other : Descent α} (same : ∀ a b, b ∈ other.next a ↔ b ∈ descent.next a) :
    other.Reaches = descent.Reaches := by
  have steps : (fun a b => b ∈ other.next a) = fun a b => b ∈ descent.next a := by
    funext a b
    exact propext (same a b)
  rw [Reaches, Reaches, steps]

end Reach

variable {α : Type} [DecidableEq α]

/-- Appends to `seen` what can be reached from `a` and is not in it yet. -/
def visit (descent : Descent α) (seen : List α) (a : α) : List α :=
  if a ∈ seen then seen
  else (descent.next a).foldl (fun seen b => descent.visit seen b) (seen ++ [a])
termination_by descent.rank a
decreasing_by exact descent.rank_lt (by assumption)

def preorder (descent : Descent α) (a : α) : List α :=
  descent.visit [] a

theorem visit_of_mem (descent : Descent α) {seen : List α} {a : α} (met : a ∈ seen) :
    descent.visit seen a = seen := by
  rw [visit, if_pos met]

def visitAll (descent : Descent α) (seen list : List α) : List α :=
  list.foldl descent.visit seen

theorem visit_of_not_mem (descent : Descent α) {seen : List α} {a : α} (fresh : a ∉ seen) :
    descent.visit seen a = descent.visitAll (seen ++ [a]) (descent.next a) := by
  rw [visit, if_neg fresh, visitAll]

variable (descent : Descent α)

@[simp] theorem visitAll_nil (seen : List α) : descent.visitAll seen [] = seen := rfl

@[simp] theorem visitAll_cons (seen : List α) (a : α) (rest : List α) :
    descent.visitAll seen (a :: rest) = descent.visitAll (descent.visit seen a) rest := rfl

theorem visitAll_append (seen front back : List α) :
    descent.visitAll seen (front ++ back) =
      descent.visitAll (descent.visitAll seen front) back :=
  List.foldl_append

theorem visit_induction (keeps : List α → Prop) (a : α) (seen : List α) (start : keeps seen)
    (grow : ∀ met x, keeps met → x ∉ met →
      (x = a ∨ ∃ above ∈ met, descent.Reaches a above ∧ x ∈ descent.next above) →
      keeps (met ++ [x])) :
    keeps (descent.visit seen a) := by
  induction a using descent.induction generalizing seen keeps with
  | step a ih =>
      by_cases met : a ∈ seen
      · rwa [descent.visit_of_mem met]
      · rw [descent.visit_of_not_mem met]
        suffices folded : ∀ parts ⊆ descent.next a, ∀ seen, keeps seen → a ∈ seen →
            keeps (descent.visitAll seen parts) from
          folded _ (List.Subset.refl _) _ (grow seen a start met (Or.inl rfl)) (by simp)
        intro parts
        induction parts with
        | nil => exact fun _ _ kept _ => kept
        | cons b rest walkRest =>
            intro inside seen kept around
            have below : b ∈ descent.next a := inside (List.mem_cons_self ..)
            have visited : keeps (descent.visit seen b) ∧ a ∈ descent.visit seen b := by
              refine ih b below (fun met => keeps met ∧ a ∈ met) seen ⟨kept, around⟩ ?_
              rintro met x ⟨keptMet, aroundMet⟩ fresh origin
              refine ⟨grow met x keptMet fresh (Or.inr ?_), List.mem_append_left _ aroundMet⟩
              rcases origin with rfl | ⟨above, listed, reach, step⟩
              · exact ⟨a, aroundMet, .refl, below⟩
              · exact ⟨above, listed, .head below reach, step⟩
            exact walkRest (fun _ listed => inside (List.mem_cons_of_mem _ listed)) _
              visited.1 visited.2

theorem prefix_visit (seen : List α) (a : α) : seen <+: descent.visit seen a := by
  apply descent.visit_induction _ a seen (List.prefix_refl _)
  intro met x kept _ _
  exact kept.trans (List.prefix_append _ _)

theorem nodup_visit {seen : List α} (distinct : seen.Nodup) (a : α) :
    (descent.visit seen a).Nodup := by
  apply descent.visit_induction _ a seen distinct
  intro met x kept fresh _
  rw [← List.concat_eq_append]
  exact kept.concat fresh

theorem reaches_of_mem_visit (seen : List α) (a : α) :
    ∀ x ∈ descent.visit seen a, x ∈ seen ∨ descent.Reaches a x := by
  apply descent.visit_induction (fun met => ∀ x ∈ met, x ∈ seen ∨ descent.Reaches a x)
    a seen (fun _ listed => Or.inl listed)
  intro met x kept _ origin y listed
  rcases List.mem_append.mp listed with old | new
  · exact kept y old
  · rw [List.mem_singleton] at new
    subst new
    rcases origin with rfl | ⟨above, _, reach, step⟩
    · exact Or.inr .refl
    · exact Or.inr (.tail reach step)

theorem prefix_visitAll (seen list : List α) : seen <+: descent.visitAll seen list := by
  induction list generalizing seen with
  | nil => exact List.prefix_refl _
  | cons a rest ih => exact (descent.prefix_visit seen a).trans (ih _)

theorem nodup_visitAll {seen : List α} (distinct : seen.Nodup) (list : List α) :
    (descent.visitAll seen list).Nodup := by
  induction list generalizing seen with
  | nil => exact distinct
  | cons a rest ih => exact ih (descent.nodup_visit distinct a)

theorem mem_visit_self (seen : List α) (a : α) : a ∈ descent.visit seen a := by
  by_cases met : a ∈ seen
  · rwa [descent.visit_of_mem met]
  · rw [descent.visit_of_not_mem met]
    exact (descent.prefix_visitAll _ _).subset (by simp)

theorem subset_visitAll (seen list : List α) : list ⊆ descent.visitAll seen list := by
  induction list generalizing seen with
  | nil => exact List.nil_subset _
  | cons a rest ih =>
      apply List.cons_subset.mpr
      exact ⟨(descent.prefix_visitAll _ rest).subset (descent.mem_visit_self seen a), ih _⟩

theorem next_subset_visitAll_of {list : List α}
    (each : ∀ b ∈ list, ∀ seen, ∀ x ∈ descent.visit seen b, x ∉ seen →
      descent.next x ⊆ descent.visit seen b) (seen : List α) :
    ∀ x ∈ descent.visitAll seen list, x ∉ seen → descent.next x ⊆ descent.visitAll seen list := by
  induction list generalizing seen with
  | nil => exact fun x listed fresh => absurd listed fresh
  | cons b rest ih =>
      intro x listed fresh
      by_cases early : x ∈ descent.visit seen b
      · have below := each b (List.mem_cons_self ..) seen x early fresh
        exact List.Subset.trans below (descent.prefix_visitAll _ rest).subset
      · exact ih (fun c later => each c (List.mem_cons_of_mem _ later)) _ x listed early

theorem next_subset_visit (a : α) (seen : List α) :
    ∀ x ∈ descent.visit seen a, x ∉ seen → descent.next x ⊆ descent.visit seen a := by
  induction a using descent.induction generalizing seen with
  | step a ih =>
      by_cases met : a ∈ seen
      · rw [descent.visit_of_mem met]
        exact fun x listed fresh => absurd listed fresh
      · rw [descent.visit_of_not_mem met]
        intro x listed fresh
        by_cases same : x = a
        · subst same
          exact descent.subset_visitAll _ _
        · apply descent.next_subset_visitAll_of ih _ x listed
          simp [fresh, same]

theorem next_subset_visitAll (list seen : List α) :
    ∀ x ∈ descent.visitAll seen list, x ∉ seen → descent.next x ⊆ descent.visitAll seen list :=
  descent.next_subset_visitAll_of (fun b _ => descent.next_subset_visit b) seen

theorem nodup_preorder (a : α) : (descent.preorder a).Nodup :=
  descent.nodup_visit List.nodup_nil a

theorem mem_preorder_iff {a x : α} : x ∈ descent.preorder a ↔ descent.Reaches a x := by
  constructor
  · intro listed
    exact (descent.reaches_of_mem_visit [] a x listed).resolve_left List.not_mem_nil
  · intro reach
    induction reach with
    | refl => exact descent.mem_visit_self [] a
    | tail _ step ih => exact descent.next_subset_visit a [] _ ih List.not_mem_nil step

theorem preorder_eq_cons (a : α) :
    descent.preorder a = descent.visitAll [a] (descent.next a) :=
  descent.visit_of_not_mem List.not_mem_nil

theorem preorder_head (a : α) : (descent.preorder a)[0]? = some a := by
  rw [preorder_eq_cons]
  obtain ⟨rest, split⟩ := descent.prefix_visitAll [a] (descent.next a)
  rw [← split]
  rfl

end Descent

theorem Descent.visit_map {α β : Type} [DecidableEq α] [DecidableEq β] (source : Descent α)
    (target : Descent β) (f : α → β) (region : α → Prop)
    (closed : ∀ a, region a → ∀ b ∈ source.next a, region b)
    (commutes : ∀ a, region a → target.next (f a) = (source.next a).map f)
    (injective : ∀ a b, region a → region b → f a = f b → a = b)
    (a : α) (inside : region a) (seen : List α) (seenInside : ∀ x ∈ seen, region x) :
    target.visit (seen.map f) (f a) = (source.visit seen a).map f := by
  induction a using source.induction generalizing seen with
  | step a ih =>
      have member : f a ∈ seen.map f ↔ a ∈ seen := by
        constructor
        · intro listed
          obtain ⟨x, listed, same⟩ := List.mem_map.mp listed
          rwa [← injective x a (seenInside x listed) inside same]
        · exact fun listed => List.mem_map_of_mem listed
      by_cases met : a ∈ seen
      · rw [target.visit_of_mem (member.mpr met), source.visit_of_mem met]
      · rw [target.visit_of_not_mem (mt member.mp met), source.visit_of_not_mem met,
          commutes a inside]
        suffices folded : ∀ parts ⊆ source.next a, ∀ seen, (∀ x ∈ seen, region x) →
            target.visitAll (seen.map f) (parts.map f) = (source.visitAll seen parts).map f by
          rw [← folded _ (List.Subset.refl _) (seen ++ [a])]
          · simp
          · intro x listed
            rcases List.mem_append.mp listed with old | new
            · exact seenInside x old
            · exact List.mem_singleton.mp new ▸ inside
        intro parts
        induction parts with
        | nil => exact fun _ _ _ => rfl
        | cons b rest walkRest =>
            intro below seen seenInside
            have bBelow : b ∈ source.next a := below (List.mem_cons_self ..)
            have bInside := closed a inside b bBelow
            rw [List.map_cons, Descent.visitAll_cons, ih b bBelow bInside seen seenInside,
              walkRest (fun _ later => below (List.mem_cons_of_mem _ later)),
              Descent.visitAll_cons]
            intro x listed
            rcases source.reaches_of_mem_visit seen b x listed with old | reach
            · exact seenInside x old
            · exact reach.inside closed bInside

theorem Descent.preorder_map {α β : Type} [DecidableEq α] [DecidableEq β] (source : Descent α)
    (target : Descent β) (f : α → β) (a : α)
    (commutes : ∀ x, source.Reaches a x → target.next (f x) = (source.next x).map f)
    (injective : ∀ x y, source.Reaches a x → source.Reaches a y → f x = f y → x = y) :
    target.preorder (f a) = (source.preorder a).map f :=
  source.visit_map target f (source.Reaches a)
    (fun _ reach _ step => .tail reach step) commutes injective a .refl [] (by simp)

section FirstOccurrences

variable {α : Type} [DecidableEq α] {list : List α}

theorem eraseDups_append_of_subset {more : List α} (inside : more ⊆ list) :
    (list ++ more).eraseDups = list.eraseDups := by
  have none : more.removeAll list = [] := by
    apply List.filter_eq_nil_iff.mpr
    intro x listed
    simpa using inside listed
  rw [List.eraseDups_append, none, List.eraseDups_nil, List.append_nil]

theorem eraseDups_concat {x : α} (fresh : x ∉ list) :
    (list ++ [x]).eraseDups = list.eraseDups ++ [x] := by
  have same : [x].removeAll list = [x] := by
    apply List.filter_eq_self.mpr
    intro y listed
    simpa [List.mem_singleton.mp listed] using fresh
  rw [List.eraseDups_append, same]
  rfl

end FirstOccurrences

namespace Descent

section Closed

variable {α : Type} {descent : Descent α} {bound : Nat} {seen : List α}

/-- Nothing is missing below what is listed, as far as the rank of it lies under the bound. In the
course of a walk this holds under the rank of every place that the walk has not left yet. -/
def ClosedUnder (descent : Descent α) (bound : Nat) (seen : List α) : Prop :=
  ∀ x ∈ seen, descent.rank x < bound → descent.next x ⊆ seen

theorem ClosedUnder.mono {lower : Nat} (closed : descent.ClosedUnder bound seen)
    (le : lower ≤ bound) : descent.ClosedUnder lower seen :=
  fun x listed under => closed x listed (Nat.lt_of_lt_of_le under le)

theorem ClosedUnder.concat {a : α} (closed : descent.ClosedUnder bound seen)
    (above : bound ≤ descent.rank a) : descent.ClosedUnder bound (seen ++ [a]) := by
  intro x listed lower
  rcases List.mem_append.mp listed with old | new
  · exact List.Subset.trans (closed x old lower) (List.subset_append_left _ _)
  · rw [List.mem_singleton.mp new] at lower
    omega

theorem ClosedUnder.mem_of_reaches {a x : α} (closed : descent.ClosedUnder bound seen)
    (listed : a ∈ seen) (lower : descent.rank a < bound) (reach : descent.Reaches a x) :
    x ∈ seen := by
  have stays : ∀ y, y ∈ seen ∧ descent.rank y < bound →
      ∀ z ∈ descent.next y, z ∈ seen ∧ descent.rank z < bound := by
    intro y ⟨inside, under⟩ z step
    exact ⟨closed y inside under step, Nat.lt_trans (descent.rank_lt step) under⟩
  exact (reach.inside stays ⟨listed, lower⟩).1

theorem ClosedUnder.visit [DecidableEq α] (closed : descent.ClosedUnder bound seen) (a : α) :
    descent.ClosedUnder bound (descent.visit seen a) := by
  intro x listed lower
  by_cases old : x ∈ seen
  · exact List.Subset.trans (closed x old lower) (descent.prefix_visit seen a).subset
  · exact descent.next_subset_visit a seen x listed old

end Closed

section Image

variable {α β : Type} {source : Descent α} {target : Descent β} {f : α → β}

theorem mem_next_map (commutes : ∀ a, target.next (f a) = (source.next a).map f) {a b : α}
    (step : b ∈ source.next a) : f b ∈ target.next (f a) := by
  rw [commutes]
  exact List.mem_map_of_mem step

theorem Reaches.map (commutes : ∀ a, target.next (f a) = (source.next a).map f) {a x : α}
    (reach : source.Reaches a x) : target.Reaches (f a) (f x) := by
  induction reach with
  | refl => exact .refl
  | tail _ step ih => exact .tail ih (mem_next_map commutes step)

variable [DecidableEq α] [DecidableEq β]

theorem eraseDups_map_visitAll_of {bound : Nat} {parts : List α}
    (each : ∀ b ∈ parts, ∀ seen, target.ClosedUnder bound (seen.map f).eraseDups →
      ((source.visit seen b).map f).eraseDups = target.visit (seen.map f).eraseDups (f b))
    (seen : List α) (closed : target.ClosedUnder bound (seen.map f).eraseDups) :
    ((source.visitAll seen parts).map f).eraseDups =
      target.visitAll (seen.map f).eraseDups (parts.map f) := by
  induction parts generalizing seen with
  | nil => rfl
  | cons b rest ih =>
      have visited := each b (List.mem_cons_self ..) seen closed
      rw [List.map_cons, visitAll_cons, visitAll_cons, ← visited]
      apply ih fun c later => each c (List.mem_cons_of_mem _ later)
      rw [visited]
      exact closed.visit (f b)

variable (commutes : ∀ a, target.next (f a) = (source.next a).map f)

include commutes

theorem eraseDups_map_visit_of_mem {a : α} {seen : List α}
    (closed : target.ClosedUnder (target.rank (f a) + 1) (seen.map f).eraseDups)
    (image : f a ∈ (seen.map f).eraseDups) :
    ((source.visit seen a).map f).eraseDups = (seen.map f).eraseDups := by
  obtain ⟨later, grown⟩ := source.prefix_visit seen a
  have known : later.map f ⊆ seen.map f := by
    intro y listed
    obtain ⟨x, inside, rfl⟩ := List.mem_map.mp listed
    have reached := source.reaches_of_mem_visit seen a x (grown ▸ List.mem_append_right _ inside)
    rcases reached with old | reach
    · exact List.mem_map_of_mem old
    · exact List.mem_eraseDups.mp
        (closed.mem_of_reaches image (Nat.lt_succ_self _) (reach.map commutes))
  rw [← grown, List.map_append, eraseDups_append_of_subset known]

theorem eraseDups_map_visit (a : α) (seen : List α)
    (closed : target.ClosedUnder (target.rank (f a) + 1) (seen.map f).eraseDups) :
    ((source.visit seen a).map f).eraseDups = target.visit (seen.map f).eraseDups (f a) := by
  induction a using source.induction generalizing seen with
  | step a ih =>
      by_cases image : f a ∈ (seen.map f).eraseDups
      · rw [target.visit_of_mem image, eraseDups_map_visit_of_mem commutes closed image]
      · have fresh : f a ∉ seen.map f := mt List.mem_eraseDups.mpr image
        have unmet : a ∉ seen := mt List.mem_map_of_mem fresh
        have first : ((seen ++ [a]).map f).eraseDups = (seen.map f).eraseDups ++ [f a] := by
          rw [List.map_append, List.map_singleton, eraseDups_concat fresh]
        have under : target.ClosedUnder (target.rank (f a)) ((seen ++ [a]).map f).eraseDups := by
          rw [first]
          exact (closed.mono (Nat.le_succ _)).concat (Nat.le_refl _)
        rw [source.visit_of_not_mem unmet, target.visit_of_not_mem image, commutes, ← first]
        refine eraseDups_map_visitAll_of (fun b step seen closed => ?_) _ under
        exact ih b step seen (closed.mono (target.rank_lt (mem_next_map commutes step)))

theorem eraseDups_map_preorder (a : α) :
    ((source.preorder a).map f).eraseDups = target.preorder (f a) :=
  eraseDups_map_visit commutes a [] fun _ listed => absurd listed List.not_mem_nil

end Image

end Descent

end StaticResolution

import StaticResolution.Outcome

/-!
Outcomes of actions that read and change a state and may fail: the result, and the state afterwards.
-/

namespace StaticResolution

section Outcome

variable {ε σ τ α β : Type}

def outcome (action : ExceptT ε (StateM σ) α) (state : σ) : Except ε α × σ :=
  (action.run state).run

@[simp] theorem outcome_get (state : σ) :
    outcome (get : ExceptT ε (StateM σ) σ) state = (.ok state, state) := rfl

theorem outcome_bind (action : ExceptT ε (StateM σ) α) (next : α → ExceptT ε (StateM σ) β)
    (state : σ) :
    outcome (action >>= next) state =
      match outcome action state with
      | (.ok value, changed) => outcome (next value) changed
      | (.error fault, changed) => (.error fault, changed) := by
  change (ExceptT.bindCont next (outcome action state).1).run (outcome action state).2 = _
  obtain ⟨result, changed⟩ := outcome action state
  cases result <;> rfl

theorem outcome_bind_ok {action : ExceptT ε (StateM σ) α} {next : α → ExceptT ε (StateM σ) β}
    {state changed : σ} {value : α} (done : outcome action state = (.ok value, changed)) :
    outcome (action >>= next) state = outcome (next value) changed := by
  rw [outcome_bind, done]

@[simp] theorem outcome_map (f : α → β) (action : ExceptT ε (StateM σ) α) (state : σ) :
    outcome (f <$> action) state =
      ((outcome action state).1.map f, (outcome action state).2) := by
  rw [← bind_pure_comp, outcome_bind]
  obtain ⟨result, changed⟩ := outcome action state
  cases result <;> rfl

theorem outcome_bind_induction {keeps : σ → Prop} {action : ExceptT ε (StateM σ) α}
    {next : α → ExceptT ε (StateM σ) β} {state : σ} (first : keeps (outcome action state).2)
    (later : ∀ value changed, keeps changed → keeps (outcome (next value) changed).2) :
    keeps (outcome (action >>= next) state).2 := by
  rw [outcome_bind]
  generalize outcome action state = reached at first
  obtain ⟨result, changed⟩ := reached
  cases result with
  | error fault => exact first
  | ok value => exact later value changed first

theorem outcome_mapM_induction {keeps : σ → Prop} {f : α → ExceptT ε (StateM σ) β}
    (step : ∀ item state, keeps state → keeps (outcome (f item) state).2) (list : List α)
    {state : σ} (start : keeps state) : keeps (outcome (list.mapM f) state).2 := by
  induction list generalizing state with
  | nil => exact start
  | cons item rest ih =>
      rw [List.mapM_cons]
      apply outcome_bind_induction (step item state start)
      intro value changed kept
      apply outcome_bind_induction (ih kept)
      exact fun _ _ kept => kept

theorem outcome_onPart (part : σ → τ) (replace : σ → τ → σ) (action : Registration τ α)
    (state : σ) :
    outcome (action.onPart part replace) state =
      ((outcome action (part state)).1, replace state (outcome action (part state)).2) := rfl

/-- The image of an action does on the image of a state what the action does on the state. -/
def Mirrors (view : σ → τ) (action : ExceptT ε (StateM σ) α) (image : ExceptT ε (StateM τ) α) :
    Prop :=
  ∀ state, outcome image (view state) =
    ((outcome action state).1, view (outcome action state).2)

theorem Mirrors.eq_ok_iff {view : σ → τ} {action : ExceptT ε (StateM σ) α}
    {image : ExceptT ε (StateM τ) α} (mirrors : Mirrors view action image) {state : σ} {value : α}
    {reached : τ} : outcome image (view state) = (.ok value, reached) ↔
      ∃ changed, outcome action state = (.ok value, changed) ∧ view changed = reached := by
  rw [mirrors state, Prod.mk.injEq]
  constructor
  · rintro ⟨done, led⟩
    exact ⟨_, Prod.ext done rfl, led⟩
  · rintro ⟨changed, done, led⟩
    rw [done]
    exact ⟨rfl, led⟩

theorem Mirrors.exists_ok_iff {view : σ → τ} {action : ExceptT ε (StateM σ) α}
    {image : ExceptT ε (StateM τ) α} (mirrors : Mirrors view action image) {state : σ} :
    (∃ value reached, outcome image (view state) = (.ok value, reached)) ↔
      ∃ value changed, outcome action state = (.ok value, changed) := by
  simp only [mirrors.eq_ok_iff]
  constructor
  · rintro ⟨value, _, changed, done, _⟩
    exact ⟨value, changed, done⟩
  · rintro ⟨value, changed, done⟩
    exact ⟨value, _, changed, done, rfl⟩

theorem Mirrors.mapM {view : σ → τ} {f : α → ExceptT ε (StateM σ) β}
    {image : α → ExceptT ε (StateM τ) β} (each : ∀ item, Mirrors view (f item) (image item))
    (list : List α) : Mirrors view (list.mapM f) (list.mapM image) := by
  induction list with
  | nil => exact fun _ => rfl
  | cons item rest ih =>
      intro state
      rw [List.mapM_cons, List.mapM_cons, outcome_bind, outcome_bind, each item state]
      obtain ⟨result, changed⟩ := outcome (f item) state
      cases result with
      | error fault => rfl
      | ok value =>
          simp only
          rw [outcome_bind, outcome_bind, ih changed]
          obtain ⟨later, reached⟩ := outcome (rest.mapM f) changed
          cases later <;> rfl

theorem Mirrors.map {view : σ → τ} {action : ExceptT ε (StateM σ) α}
    {image : ExceptT ε (StateM τ) α} (mirrors : Mirrors view action image) (f : α → β) :
    Mirrors view (f <$> action) (f <$> image) := by
  intro state
  rw [outcome_map, outcome_map, mirrors state]

theorem Mirrors.onPart {υ ω : Type} {view : σ → τ} {inner : υ → ω} {part : σ → υ}
    {replace : σ → υ → σ} {imagePart : τ → ω} {imageReplace : τ → ω → τ}
    {action : Registration υ α} {image : Registration ω α} (mirrors : Mirrors inner action image)
    (parts : ∀ state, imagePart (view state) = inner (part state))
    (replaced : ∀ state changed,
      imageReplace (view state) (inner changed) = view (replace state changed)) :
    Mirrors view (action.onPart part replace) (image.onPart imagePart imageReplace) := by
  intro state
  rw [outcome_onPart, outcome_onPart, parts, mirrors (part state), replaced]

def Atomic (action : ExceptT ε (StateM σ) α) : Prop :=
  ∀ state fault, (outcome action state).1 = .error fault → (outcome action state).2 = state

def KeepsOnFailure (action : ExceptT ε (StateM σ) α) (state : σ) : Prop :=
  ∀ fault, (outcome action state).1 = .error fault → (outcome action state).2 = state

theorem Mirrors.keepsOnFailure {view : σ → τ} {action : ExceptT ε (StateM σ) α}
    {image : ExceptT ε (StateM τ) α} (mirrors : Mirrors view action image) (atomic : Atomic action)
    (state : σ) : KeepsOnFailure image (view state) := by
  intro fault failed
  rw [mirrors state] at failed ⊢
  rw [atomic state fault failed]

theorem Atomic.map {action : ExceptT ε (StateM σ) α} (atomic : Atomic action) (f : α → β) :
    Atomic (f <$> action) := by
  intro state fault failed
  rw [outcome_map] at failed ⊢
  have kept := atomic state
  generalize outcome action state = reached at failed kept
  obtain ⟨result, changed⟩ := reached
  cases result with
  | error reason => exact kept reason rfl
  | ok value => cases failed

theorem Atomic.lift (action : StateM σ α) : Atomic (liftM action : ExceptT ε (StateM σ) α) := by
  intro state fault failed
  cases failed

theorem Atomic.onPart {part : σ → τ} {replace : σ → τ → σ} {action : Registration τ α}
    (atomic : Atomic action) (same : ∀ state, replace state (part state) = state) :
    Atomic (action.onPart part replace) := by
  intro state fault failed
  rw [outcome_onPart] at failed ⊢
  rw [atomic (part state) fault failed, same]

end Outcome

end StaticResolution

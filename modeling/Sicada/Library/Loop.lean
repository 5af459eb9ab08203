import Mathlib

namespace Loop

variable {State : Type*} {step : State → Option State}

/- A loop that goes on until its body has nothing left to do; `none` is one cut off by the
fuel. -/
def runLoop (step : State → Option State) : ℕ → State → Option State
  | 0, _ => none
  | fuel + 1, s =>
    match step s with
    | some t => runLoop step fuel t
    | none => some s

variable {Inv : State → Prop} {fuel : ℕ} {s : State}

theorem runLoop_invariant (hstep : ∀ s t, Inv s → step s = some t → Inv t) {t : State} (hs : Inv s)
    (hrun : runLoop step fuel s = some t) : Inv t ∧ step t = none := by
  induction fuel generalizing s with
  | zero => simp [runLoop] at hrun
  | succ fuel ih =>
    rw [runLoop] at hrun
    cases hnext : step s with
    | none =>
      rw [hnext] at hrun
      obtain rfl : s = t := by simpa using hrun
      exact ⟨hs, hnext⟩
    | some u =>
      rw [hnext] at hrun
      exact ih (hstep s u hs hnext) hrun

/- A loop whose body brings a measure down stops before the fuel does. -/
theorem runLoop_terminates {measure : State → ℕ} (hstep : ∀ s t, Inv s → step s = some t → Inv t)
    (hdown : ∀ s t, Inv s → step s = some t → measure t < measure s) (hs : Inv s)
    (hfuel : measure s < fuel) :
    ∃ t, runLoop step fuel s = some t ∧ Inv t ∧ step t = none := by
  induction fuel generalizing s with
  | zero => omega
  | succ fuel ih =>
    rw [runLoop]
    cases hnext : step s with
    | none => exact ⟨s, rfl, hs, hnext⟩
    | some u =>
      have hlt := hdown s u hs hnext
      exact ih (hstep s u hs hnext) (by omega)

theorem runLoop_mono {fuel' : ℕ} (hle : fuel ≤ fuel') {t : State}
    (hrun : runLoop step fuel s = some t) : runLoop step fuel' s = some t := by
  induction fuel generalizing fuel' s with
  | zero => simp [runLoop] at hrun
  | succ fuel ih =>
    obtain ⟨fuel', rfl⟩ : ∃ n, fuel' = n + 1 := ⟨fuel' - 1, by omega⟩
    rw [runLoop] at hrun ⊢
    cases hnext : step s with
    | none => rwa [hnext] at hrun
    | some u =>
      rw [hnext] at hrun
      exact ih (by omega) hrun

/- Two loops whose bodies keep step with each other end together. -/
theorem runLoop_rel {State' : Type*} {step' : State' → Option State'} {R : State → State' → Prop}
    (hstep : ∀ s s', R s s' → Option.Rel R (step s) (step' s')) (fuel : ℕ) {s' : State'}
    (hs : R s s') : Option.Rel R (runLoop step fuel s) (runLoop step' fuel s') := by
  induction fuel generalizing s s' with
  | zero => exact .none
  | succ fuel ih =>
    rw [runLoop, runLoop]
    generalize hnext : step s = x, hnext' : step' s' = x'
    have hrel := hstep s s' hs
    rw [hnext, hnext'] at hrel
    cases hrel with
    | none => exact .some hs
    | some h => exact ih h

section Failing

variable {ε : Type*} {attempt : State → Except ε (Option State)}

/- A loop whose body may fail, and then ends it. -/
def tryStep (attempt : State → Except ε (Option State)) : Except ε State → Option (Except ε State)
  | .error _ => none
  | .ok s =>
    match attempt s with
    | .error e => some (.error e)
    | .ok none => none
    | .ok (some t) => some (.ok t)

def tryLoop (attempt : State → Except ε (Option State)) (fuel : ℕ) (s : State) :
    Option (Except ε State) :=
  runLoop (tryStep attempt) fuel (.ok s)

theorem tryStep_ok {t : State} (h : tryStep attempt (.ok s) = some (.ok t)) :
    attempt s = .ok (some t) := by
  unfold tryStep at h
  dsimp only at h
  split at h
  · cases h
  · cases h
  · next u hu =>
    cases h
    exact hu

theorem attempt_of_tryStep_none (h : tryStep attempt (.ok s) = none) :
    attempt s = .ok none := by
  unfold tryStep at h
  dsimp only at h
  split at h
  · cases h
  · next hnone => exact hnone
  · cases h

/- A body that never fails is one of the plain loops. -/
theorem tryLoop_eq (hstep : ∀ s t, Inv s → step s = some t → Inv t)
    (heq : ∀ s, Inv s → attempt s = .ok (step s)) (hs : Inv s) :
    tryLoop attempt fuel s = (runLoop step fuel s).map .ok := by
  unfold tryLoop
  induction fuel generalizing s with
  | zero => rfl
  | succ fuel ih =>
    rw [runLoop, runLoop, tryStep, heq s hs]
    cases hnext : step s with
    | none => rfl
    | some t => exact ih (hstep s t hs hnext)

theorem tryLoop_invariant (hstep : ∀ s t, Inv s → attempt s = .ok (some t) → Inv t) {t : State}
    (hs : Inv s) (hrun : tryLoop attempt fuel s = some (.ok t)) : Inv t ∧ attempt t = .ok none := by
  have hstep' : ∀ x y, (∀ u, x = .ok u → Inv u) → tryStep attempt x = some y →
      ∀ u, y = .ok u → Inv u := by
    intro x y hx hxy u hyu
    subst hyu
    cases x with
    | error e => cases hxy
    | ok v => exact hstep v u (hx v rfl) (tryStep_ok hxy)
  obtain ⟨hinv, hstop⟩ := runLoop_invariant hstep' (fun u hu => by cases hu; exact hs) hrun
  exact ⟨hinv t rfl, attempt_of_tryStep_none hstop⟩

/- A loop that may fail still stops, by failing at the latest when the measure is used up. -/
theorem tryLoop_terminates {measure : State → ℕ}
    (hstep : ∀ s t, Inv s → attempt s = .ok (some t) → Inv t)
    (hdown : ∀ s t, Inv s → attempt s = .ok (some t) → measure t < measure s) (hs : Inv s)
    (hfuel : measure s + 1 < fuel) :
    ∃ r, tryLoop attempt fuel s = some r ∧
      ∀ e, r = .error e → ∃ t, Inv t ∧ attempt t = .error e := by
  let measure' : Except ε State → ℕ
    | .error _ => 0
    | .ok u => measure u + 1
  let Inv' : Except ε State → Prop
    | .error e => ∃ t, Inv t ∧ attempt t = .error e
    | .ok u => Inv u
  have hnext : ∀ x y, Inv' x → tryStep attempt x = some y → Inv' y ∧ measure' y < measure' x := by
    intro x y hx hxy
    cases x with
    | error e => cases hxy
    | ok v =>
      cases y with
      | error e =>
        refine ⟨⟨v, hx, ?_⟩, Nat.succ_pos _⟩
        unfold tryStep at hxy
        dsimp only at hxy
        split at hxy
        · next herror =>
          cases hxy
          exact herror
        · cases hxy
        · cases hxy
      | ok u =>
        have hattempt := tryStep_ok hxy
        exact ⟨hstep v u hx hattempt, Nat.succ_lt_succ (hdown v u hx hattempt)⟩
  obtain ⟨r, hrun, hr, -⟩ := runLoop_terminates (fun x y hx hxy => (hnext x y hx hxy).1)
    (fun x y hx hxy => (hnext x y hx hxy).2) (s := .ok s) hs hfuel
  refine ⟨r, hrun, ?_⟩
  rintro e rfl
  exact hr

end Failing

end Loop

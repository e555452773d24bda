import Mathlib.Data.List.Basic

/-! # Runs and traces

A system with a step function that consumes an action and emits events. A run
is a sequence of steps, its trace the events emitted so far.

* `Run step ok s₀ tr s`: a run from `s₀` to `s` with trace `tr`, whose steps
  all satisfy the guard `ok`.
* `Run.invariant`: the invariant rule, for properties of trace and state.
* `Run.mono`, `Run.of_guarded`, `Run.of_exec`: weaker guards, guards put into the step, and
  runs computed from a list of actions.
-/

namespace Trace

variable {σ α ε : Type*}

/-- Runs from `s₀`, with the events emitted on the way. -/
inductive Run (step : σ → α → Option (σ × List ε)) (ok : σ → α → Prop) (s₀ : σ) :
    List ε → σ → Prop where
  | nil : Run step ok s₀ [] s₀
  | snoc {tr : List ε} {s s' : σ} {a : α} {evs : List ε} (hrun : Run step ok s₀ tr s)
      (hok : ok s a) (hstep : step s a = some (s', evs)) : Run step ok s₀ (tr ++ evs) s'

variable {step : σ → α → Option (σ × List ε)} {ok : σ → α → Prop} {s₀ : σ}

/-- What holds at the start and is preserved by every step holds after every run. -/
theorem Run.invariant {inv : List ε → σ → Prop} (hinit : inv [] s₀)
    (hstep : ∀ tr s a s' evs, Run step ok s₀ tr s → inv tr s → ok s a →
      step s a = some (s', evs) → inv (tr ++ evs) s')
    {tr : List ε} {s : σ} (h : Run step ok s₀ tr s) : inv tr s := by
  induction h with
  | nil => exact hinit
  | snoc hrun hok hst ih => exact hstep _ _ _ _ _ hrun ih hok hst

theorem Run.mono {ok' : σ → α → Prop} (hok : ∀ s a, ok s a → ok' s a) {tr : List ε} {s : σ}
    (h : Run step ok s₀ tr s) : Run step ok' s₀ tr s := by
  induction h with
  | nil => exact .nil
  | snoc _ hok' hst ih => exact .snoc ih (hok _ _ hok') hst

/-- A run of the guarded step, for a guard that can be decided on the way. -/
theorem Run.of_guarded [∀ s a, Decidable (ok s a)] {tr : List ε} {s : σ}
    (h : Run (fun s a => if ok s a then step s a else none) (fun _ _ => True) s₀ tr s) :
    Run step ok s₀ tr s := by
  induction h with
  | nil => exact .nil
  | snoc _ _ hst ih =>
      split at hst
      · rename_i hok
        exact .snoc ih hok hst
      · simp at hst

theorem Run.append {tr tr' : List ε} {s s' : σ} (h : Run step ok s₀ tr s)
    (h' : Run step ok s tr' s') : Run step ok s₀ (tr ++ tr') s' := by
  induction h' with
  | nil =>
      rw [List.append_nil]
      exact h
  | snoc _ hok hst ih =>
      rw [← List.append_assoc]
      exact .snoc ih hok hst

/-- The run of a list of actions. -/
def exec (step : σ → α → Option (σ × List ε)) : σ → List α → Option (σ × List ε)
  | s, [] => some (s, [])
  | s, a :: as =>
      (step s a).bind fun r => (exec step r.1 as).map fun r' => (r'.1, r.2 ++ r'.2)

theorem Run.append_exec {tr : List ε} {s : σ} (h : Run step ok s₀ tr s) {as : List α}
    (hok : ∀ a ∈ as, ∀ s, ok s a) {r : σ × List ε} (hex : exec step s as = some r) :
    Run step ok s₀ (tr ++ r.2) r.1 := by
  induction as generalizing tr s r with
  | nil =>
      cases hex
      rw [List.append_nil]
      exact h
  | cons a as ih =>
      rcases Option.bind_eq_some_iff.mp hex with ⟨⟨s', evs⟩, hst, hex⟩
      rcases Option.map_eq_some_iff.mp hex with ⟨r', hr', rfl⟩
      rw [← List.append_assoc]
      exact ih (.snoc h (hok a List.mem_cons_self s) hst)
        (fun a' ha' => hok a' (List.mem_cons_of_mem _ ha')) hr'

/-- A list of actions that can be executed is a run. -/
theorem Run.of_exec {as : List α} (hok : ∀ a ∈ as, ∀ s, ok s a) {r : σ × List ε}
    (h : exec step s₀ as = some r) : Run step ok s₀ r.2 r.1 := by
  have hrun := Run.append_exec (@Run.nil _ _ _ step ok s₀) hok h
  rwa [List.nil_append] at hrun

/-- The run up to the step that emitted a given event. -/
theorem Run.split_at {pre post : List ε} {ev : ε} {tr : List ε} {s : σ}
    (h : Run step ok s₀ tr s) (htr : tr = pre ++ ev :: post) :
    ∃ tr₁ s₁ a s₂ evs₁ evs₂, Run step ok s₀ tr₁ s₁ ∧ ok s₁ a ∧
      step s₁ a = some (s₂, evs₁ ++ ev :: evs₂) ∧ pre = tr₁ ++ evs₁ := by
  induction h generalizing post with
  | nil => simp at htr
  | @snoc tr s s' a evs hrun hok hst ih =>
      rcases List.append_eq_append_iff.mp htr with ⟨l, hpre, hevs⟩ | ⟨l, htr', hpost⟩
      · -- the event is emitted by the last step
        exact ⟨tr, s, a, s', l, post, hrun, hok, by rw [hst, hevs], hpre⟩
      · rcases l with _ | ⟨ev', l⟩
        · rw [List.append_nil] at htr'
          rw [List.nil_append] at hpost
          exact ⟨tr, s, a, s', [], post, hrun, hok, by rw [hst, ← hpost]; rfl, by simp [htr']⟩
        · -- the event was emitted before
          rw [List.cons_append, List.cons.injEq] at hpost
          rw [← hpost.1] at htr'
          exact ih htr'

end Trace

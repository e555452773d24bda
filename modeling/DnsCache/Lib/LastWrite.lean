import Mathlib.Data.List.Basic
import Mathlib.Data.List.Induction

/-! # The last of a history of writes

A cell that is overwritten by some of the events of a history holds what the
last of these events wrote. `lastOf p l` is that event, for the events that
`p` selects.
-/

namespace LastWrite

variable {ε : Type*} {α : Type*}

/-- The last event of `l` that `p` selects. -/
def lastOf (p : ε → Bool) (l : List ε) : Option ε := (l.filter p).getLast?

@[simp] theorem lastOf_snoc (p : ε → Bool) (l : List ε) (e : ε) :
    lastOf p (l ++ [e]) = if p e then some e else lastOf p l := by
  unfold lastOf
  by_cases h : p e <;> simp [List.filter_append, h]

theorem lastOf_spec {p : ε → Bool} {l : List ε} {e : ε} (h : lastOf p l = some e) :
    e ∈ l ∧ p e = true := by
  have hmem : e ∈ l.filter p := List.mem_of_getLast? h
  exact List.mem_filter.mp hmem

theorem lastOf_eq_none_iff {p : ε → Bool} {l : List ε} :
    lastOf p l = none ↔ ∀ e ∈ l, p e = false := by
  simp [lastOf]

/-- Two selections that agree on the history have the same last event. -/
theorem lastOf_congr {p q : ε → Bool} {l : List ε} (h : ∀ e ∈ l, p e = q e) :
    lastOf p l = lastOf q l := by
  unfold lastOf
  rw [List.filter_congr h]

/-- The cell rule: a cell that starts as `a`, is set to `f e` by the events
that `p` selects and is left alone by all others ends with the last selected
event's value. -/
theorem foldl_overwrite (p : ε → Bool) (f : ε → α) (a : α) (l : List ε) :
    l.foldl (fun x e => if p e then f e else x) a = ((lastOf p l).map f).getD a := by
  induction l using List.reverseRecOn with
  | nil => rfl
  | append_singleton l e ih =>
      rw [List.foldl_append, lastOf_snoc]
      by_cases h : p e
      · simp [h]
      · simpa [h] using ih

/-- The same rule read through an observation `obs` of a larger state. -/
theorem observe_overwrite {σ : Type*} (step : σ → ε → σ) (obs : σ → α) (inv : σ → Prop)
    (p : ε → Bool) (f : ε → α)
    (hinv : ∀ s e, inv s → inv (step s e))
    (hobs : ∀ s e, inv s → obs (step s e) = if p e then f e else obs s)
    (s : σ) (hs : inv s) (l : List ε) :
    obs (l.foldl step s) = ((lastOf p l).map f).getD (obs s) := by
  rw [← foldl_overwrite]
  induction l generalizing s with
  | nil => rfl
  | cons e l ih =>
      rw [List.foldl_cons, ih (step s e) (hinv s e hs), List.foldl_cons, hobs s e hs]

end LastWrite

import Mathlib.Data.List.Basic

/-! # Bounded sequences

A sequence with a capacity, which is also its list of operations: what a list
with a fixed supply of nodes is for.
-/

/-- At most `capacity` items. -/
structure BoundedSeq (α : Type*) where
  items : List α
  capacity : Nat
  fits : items.length ≤ capacity

namespace BoundedSeq

variable {α : Type*}

/-- The operations. -/
inductive Op (α : Type*) where
  | push (d : α)
  | append (d : α)
  | pop
  | expand (delta : Nat)
  | mv2head (d : α)

/-- What an operation returns: a status, or a datum if there is one. -/
inductive Result (α : Type*) where
  | code (n : Nat)
  | datum (d : Option α)
  | done

def empty (capacity : Nat) : BoundedSeq α := ⟨[], capacity, Nat.zero_le _⟩

/-- A full sequence takes no further item. -/
def Full (s : BoundedSeq α) : Prop := s.items.length = s.capacity

instance (s : BoundedSeq α) : Decidable s.Full := inferInstanceAs (Decidable (_ = _))

theorem lt_of_not_full {s : BoundedSeq α} (h : ¬ s.Full) : s.items.length < s.capacity :=
  Nat.lt_of_le_of_ne s.fits h

variable [DecidableEq α]

/-- One operation. -/
def step (s : BoundedSeq α) : Op α → Result α × BoundedSeq α
  | .push d =>
      if h : s.Full then (.code 1, s)
      else (.code 0, ⟨d :: s.items, s.capacity, lt_of_not_full h⟩)
  | .append d =>
      if h : s.Full then (.code 1, s)
      else (.code 0, ⟨s.items ++ [d], s.capacity, by
        rw [List.length_append]
        exact lt_of_not_full h⟩)
  | .pop => (.datum s.items.head?, ⟨s.items.tail, s.capacity, by
      rw [List.length_tail]
      exact Nat.le_trans (Nat.sub_le _ _) s.fits⟩)
  | .expand delta => (.done, ⟨s.items, s.capacity + delta, Nat.le_add_right_of_le s.fits⟩)
  | .mv2head d =>
      if h : d ∈ s.items then (.code 0, ⟨d :: s.items.erase d, s.capacity, by
        rw [List.length_cons, List.length_erase_of_mem h,
          Nat.sub_add_cancel (List.length_pos_of_mem h)]
        exact s.fits⟩)
      else (.code 1, s)

section
variable {s : BoundedSeq α} {d : α}

theorem step_push_full (h : s.Full) : s.step (.push d) = (.code 1, s) := dif_pos h

theorem step_push (h : ¬ s.Full) : (s.step (.push d)).1 = .code 0 ∧
    (s.step (.push d)).2.items = d :: s.items ∧ (s.step (.push d)).2.capacity = s.capacity := by
  rw [step, dif_neg h]
  exact ⟨rfl, rfl, rfl⟩

theorem step_append_full (h : s.Full) : s.step (.append d) = (.code 1, s) := dif_pos h

theorem step_append (h : ¬ s.Full) : (s.step (.append d)).1 = .code 0 ∧
    (s.step (.append d)).2.items = s.items ++ [d] ∧
    (s.step (.append d)).2.capacity = s.capacity := by
  rw [step, dif_neg h]
  exact ⟨rfl, rfl, rfl⟩

theorem step_mv2head (d : α) :
    (s.step (.mv2head d)).1 = .code (if d ∈ s.items then 0 else 1) ∧
      (s.step (.mv2head d)).2.items = (if d ∈ s.items then d :: s.items.erase d else s.items) ∧
      (s.step (.mv2head d)).2.capacity = s.capacity := by
  by_cases h : d ∈ s.items
  · rw [step, dif_pos h, if_pos h, if_pos h]
    exact ⟨rfl, rfl, rfl⟩
  · rw [step, dif_neg h, if_neg h, if_neg h]
    exact ⟨rfl, rfl, rfl⟩

end

/-- What the operations ask of their caller. -/
def Allows (s : BoundedSeq α) : Op α → Prop
  | .expand delta => 1 ≤ delta
  | .mv2head _ => s.items ≠ []
  | _ => True

/-- A sequence of operations, with their results. -/
def run (s : BoundedSeq α) : List (Op α) → List (Result α) × BoundedSeq α
  | [] => ([], s)
  | op :: ops =>
      let (result, s) := s.step op
      let (results, s) := s.run ops
      (result :: results, s)

/-- Each operation is allowed when its turn comes. -/
def AllowsAll (s : BoundedSeq α) : List (Op α) → Prop
  | [] => True
  | op :: ops => s.Allows op ∧ (s.step op).2.AllowsAll ops

end BoundedSeq

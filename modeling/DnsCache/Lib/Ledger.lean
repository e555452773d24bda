import Mathlib.Data.List.Perm.Basic

/-! # Ledgers of blocks

What a piece of code takes from an allocator and gives back, and how often it
closes the descriptor it was handed.

* `Ledger.Owes`: the blocks taken and not yet given back.
* `Owes.alloc`, `Owes.free`, `Owes.freeAll`: who takes or gives back what.
* `Ledger.Returned`: nothing is owed any more, and nothing was given back twice.
-/

/-- Blocks are numbered in the order in which they are taken. -/
structure Ledger where
  taken : Nat
  freed : List Nat
  closed : Nat
deriving DecidableEq, Repr

namespace Ledger

def start : Ledger := ⟨0, [], 0⟩

def alloc (l : Ledger) : Nat × Ledger := (l.taken, { l with taken := l.taken + 1 })

def free (l : Ledger) (p : Nat) : Ledger := { l with freed := l.freed ++ [p] }

def close (l : Ledger) : Ledger := { l with closed := l.closed + 1 }

/-- Each block taken was given back once, and no other was. -/
def Returned (l : Ledger) : Prop := ∀ p, l.freed.count p = if p < l.taken then 1 else 0

/-- The blocks `ps` have been taken and not given back, each other one once. -/
def Owes (l : Ledger) (ps : List Nat) : Prop := (l.freed ++ ps).Perm (List.range l.taken)

variable {l : Ledger} {p : Nat} {ps qs : List Nat}

@[simp] theorem free_closed : (l.free p).closed = l.closed := rfl

@[simp] theorem alloc_closed : l.alloc.2.closed = l.closed := rfl

@[simp] theorem close_closed : l.close.closed = l.closed + 1 := rfl

theorem owes_start : start.Owes [] := List.Perm.refl _

theorem Owes.perm (h : l.Owes ps) (hperm : ps.Perm qs) : l.Owes qs :=
  (hperm.symm.append_left _).trans h

theorem Owes.alloc (h : l.Owes ps) : l.alloc.2.Owes (l.alloc.1 :: ps) := by
  show (l.freed ++ l.taken :: ps).Perm (List.range (l.taken + 1))
  rw [List.range_succ]
  exact (List.perm_middle.trans (h.cons l.taken)).trans (List.perm_append_singleton _ _).symm

theorem Owes.free (h : l.Owes (p :: ps)) : (l.free p).Owes ps := by
  show (l.freed ++ [p] ++ ps).Perm (List.range l.taken)
  rw [List.append_assoc]
  exact h

theorem Owes.close (h : l.Owes ps) : l.close.Owes ps := h

/-- A whole list of blocks is given back. -/
theorem Owes.freeAll (h : l.Owes (ps ++ qs)) : (ps.foldl Ledger.free l).Owes qs := by
  induction ps generalizing l with
  | nil => exact h
  | cons p ps ih => exact ih h.free

theorem foldl_free_closed (ps : List Nat) (l : Ledger) :
    (ps.foldl Ledger.free l).closed = l.closed := by
  induction ps generalizing l with
  | nil => rfl
  | cons p ps ih => rw [List.foldl_cons, ih, free_closed]

/-- Owing nothing is having given everything back. -/
theorem returned_iff : l.Returned ↔ l.Owes [] := by
  unfold Returned Owes
  rw [List.append_nil, List.perm_iff_count]
  apply forall_congr'
  intro p
  rw [List.count_range]

/-- A block that is owed has not been given back. -/
theorem Owes.not_returned (h : l.Owes (p :: ps)) : ¬ l.Returned := by
  intro hreturned
  have hperm := (returned_iff.mp hreturned).trans h.symm
  have hlen := hperm.length_eq
  simp only [List.length_append, List.length_cons, List.length_nil] at hlen
  omega

end Ledger

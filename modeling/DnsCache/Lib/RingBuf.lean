import Mathlib.Data.List.Basic
import Mathlib.Logic.Function.Basic

/-! # A ring of slots as a queue

An array of `n` slots with two indices, as a C program keeps it: `put` writes
the slot at `iput` and advances, `take` reads the slot at `iget` and advances,
and both indices equal means empty.

* `toList`: the entries put and not yet taken.
* `toList_put`, `toList_take`: the ring is a queue, as long as no put makes the
  indices meet; `overrun_put_iff`: when that happens.
-/

variable {α : Type*}

/-- The slots and the two indices. -/
structure RingBuf (α : Type*) (n : Nat) where
  slots : Nat → α
  iget : Nat
  iput : Nat
  iget_lt : iget < n
  iput_lt : iput < n

namespace RingBuf

variable {n : Nat}

/-- `if (++i == n) i = 0`. -/
def bump (n i : Nat) : Nat := if i + 1 = n then 0 else i + 1

theorem bump_lt {i : Nat} (h : i < n) : bump n i < n := by
  unfold bump
  split <;> omega

/-- All slots hold `a`, nothing has been put. -/
def start (a : α) (h : 0 < n) : RingBuf α n := ⟨fun _ => a, 0, 0, h, h⟩

/-- Write the slot at `iput` and advance. -/
def put (r : RingBuf α n) (a : α) : RingBuf α n where
  slots := Function.update r.slots r.iput a
  iget := r.iget
  iput := bump n r.iput
  iget_lt := r.iget_lt
  iput_lt := bump_lt r.iput_lt

/-- The test made after a put. -/
def Overrun (r : RingBuf α n) : Prop := r.iget = r.iput

instance (r : RingBuf α n) : Decidable r.Overrun := inferInstanceAs (Decidable (_ = _))

/-- Read the slot at `iget` and advance, unless the ring is empty. -/
def take (r : RingBuf α n) : Option (α × RingBuf α n) :=
  if r.iget = r.iput then none
  else some (r.slots r.iget, ⟨r.slots, bump n r.iget, r.iput, bump_lt r.iget_lt, r.iput_lt⟩)

/-- The number of entries from `iget` up to `iput`, going round the end. -/
def count (r : RingBuf α n) : Nat := if r.iget ≤ r.iput then r.iput - r.iget else n + r.iput - r.iget

/-- The slot index `k` places after `iget`. -/
def at_ (r : RingBuf α n) (k : Nat) : Nat := if r.iget + k < n then r.iget + k else r.iget + k - n

/-- The entries put and not yet taken, the next one to take first. -/
def toList (r : RingBuf α n) : List α := (List.range r.count).map fun k => r.slots (r.at_ k)

@[simp] theorem length_toList (r : RingBuf α n) : r.toList.length = r.count := by
  simp [toList]

theorem count_lt (r : RingBuf α n) : r.count < n := by
  have h₁ := r.iget_lt
  have h₂ := r.iput_lt
  unfold count
  split <;> omega

@[simp] theorem toList_start (a : α) (h : 0 < n) : (start a h).toList = [] := by
  simp [toList, start, count]

/-- A put makes the indices meet exactly when it fills the last free slot. -/
theorem overrun_put_iff (r : RingBuf α n) (a : α) : (r.put a).Overrun ↔ r.count + 1 = n := by
  have h₁ := r.iget_lt
  have h₂ := r.iput_lt
  unfold Overrun put count bump
  dsimp only
  split <;> split <;> omega

theorem count_put {r : RingBuf α n} {a : α} (h : ¬ (r.put a).Overrun) :
    (r.put a).count = r.count + 1 := by
  have h₁ := r.iget_lt
  have h₂ := r.iput_lt
  have hne : r.iget ≠ bump n r.iput := h
  show (if r.iget ≤ bump n r.iput then bump n r.iput - r.iget
    else n + bump n r.iput - r.iget) = r.count + 1
  by_cases hend : r.iput + 1 = n
  · -- the index goes round
    have hb : bump n r.iput = 0 := if_pos hend
    rw [hb] at hne ⊢
    unfold count
    split <;> split <;> omega
  · have hb : bump n r.iput = r.iput + 1 := if_neg hend
    rw [hb] at hne ⊢
    unfold count
    split <;> split <;> omega

theorem at_count (r : RingBuf α n) : r.at_ r.count = r.iput := by
  have h₁ := r.iget_lt
  have h₂ := r.iput_lt
  unfold at_ count
  split <;> split <;> omega

theorem at_ne_iput {r : RingBuf α n} {k : Nat} (h : k < r.count) : r.at_ k ≠ r.iput := by
  have h₁ := r.iget_lt
  have h₂ := r.iput_lt
  unfold count at h
  unfold at_
  split at h <;> split <;> omega

/-- A put that does not make the indices meet appends its entry. -/
theorem toList_put {r : RingBuf α n} {a : α} (h : ¬ (r.put a).Overrun) :
    (r.put a).toList = r.toList ++ [a] := by
  have hat : ∀ k, (r.put a).at_ k = r.at_ k := fun _ => rfl
  unfold toList
  rw [count_put h, List.range_succ, List.map_append, List.map_singleton]
  congr 1
  · apply List.map_congr_left
    intro k hk
    rw [hat]
    exact Function.update_of_ne (at_ne_iput (List.mem_range.mp hk)) _ _
  · rw [hat, at_count]
    exact congrArg (fun x => [x]) (Function.update_self _ _ _)

/-- A take removes the first entry. -/
theorem toList_take {r r' : RingBuf α n} {a : α} (h : r.take = some (a, r')) :
    r.toList = a :: r'.toList := by
  have h₁ := r.iget_lt
  have h₂ := r.iput_lt
  unfold take at h
  split at h
  · simp at h
  · rename_i hne
    simp only [Option.some.injEq, Prod.mk.injEq] at h
    rcases h with ⟨rfl, rfl⟩
    have hcount : r.count = (⟨r.slots, bump n r.iget, r.iput, bump_lt h₁, h₂⟩ : RingBuf α n).count + 1 := by
      unfold count bump
      dsimp only
      split <;> split <;> split <;> omega
    unfold toList
    rw [hcount, List.range_succ_eq_map, List.map_cons, List.map_map]
    congr 1
    · unfold at_
      rw [if_pos (by omega), Nat.add_zero]
    · apply List.map_congr_left
      intro k hk
      have hk' := List.mem_range.mp hk
      have hlt := (⟨r.slots, bump n r.iget, r.iput, bump_lt h₁, h₂⟩ : RingBuf α n).count_lt
      show r.slots (r.at_ (k + 1)) = r.slots _
      congr 1
      unfold at_ bump
      dsimp only
      split <;> split <;> split <;> omega

end RingBuf

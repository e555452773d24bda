import Mathlib.Data.List.TakeWhile
import Mathlib.Order.Lattice

/-! # Ascending lists cut at a bound

A loop that keeps a list in order looks for the first element that is not below
the new one, and puts it there.

* `takeWhile_lt`, `dropWhile_ge`: the two parts.
* `insert_pairwise`, `mem_insert`: the list with the new element between them.
-/

namespace Ascending

variable {α : Type*} [LinearOrder α] {l : List α} {a b : α}

theorem takeWhile_lt (b : α) : ∀ a ∈ l.takeWhile (fun i => decide (i < b)), a < b := by
  intro a ha
  have hlt := List.mem_takeWhile_imp ha
  exact of_decide_eq_true hlt

theorem dropWhile_ge (hl : l.Pairwise (· < ·)) (b : α) :
    ∀ a ∈ l.dropWhile (fun i => decide (i < b)), b ≤ a := by
  induction l with
  | nil => simp
  | cons y l ih =>
      rcases List.pairwise_cons.mp hl with ⟨hy, hl⟩
      intro a ha
      rw [List.dropWhile_cons] at ha
      split at ha
      · exact ih hl a ha
      · rename_i hlt
        have hby : b ≤ y := not_lt.mp fun h => hlt (decide_eq_true h)
        rcases List.mem_cons.mp ha with rfl | hmem
        · exact hby
        · exact le_of_lt (lt_of_le_of_lt hby (hy a hmem))

/-- The list with `b` in its place. -/
def insert (l : List α) (b : α) : List α :=
  l.takeWhile (fun i => decide (i < b)) ++ b :: l.dropWhile (fun i => decide (i < b))

theorem mem_insert : a ∈ insert l b ↔ a = b ∨ a ∈ l := by
  have hsplit : l.takeWhile (fun i => decide (i < b)) ++ l.dropWhile (fun i => decide (i < b)) = l :=
    List.takeWhile_append_dropWhile
  rw [insert, List.mem_append, List.mem_cons, or_left_comm, ← List.mem_append, hsplit]

theorem insert_pairwise (hl : l.Pairwise (· < ·)) (hb : b ∉ l) : (insert l b).Pairwise (· < ·) := by
  have hsplit : l.takeWhile (fun i => decide (i < b)) ++ l.dropWhile (fun i => decide (i < b)) = l :=
    List.takeWhile_append_dropWhile
  have hless := takeWhile_lt (l := l) b
  have hmore := dropWhile_ge hl b
  unfold insert
  generalize l.takeWhile (fun i => decide (i < b)) = u at *
  generalize l.dropWhile (fun i => decide (i < b)) = v at *
  subst hsplit
  rcases List.pairwise_append.mp hl with ⟨hu, hv, huv⟩
  refine List.pairwise_append.mpr ⟨hu, List.pairwise_cons.mpr ⟨?_, hv⟩, ?_⟩
  · intro y hy
    refine lt_of_le_of_ne (hmore y hy) ?_
    rintro rfl
    exact hb (List.mem_append_right _ hy)
  · intro y hy z hz
    rcases List.mem_cons.mp hz with rfl | hz
    · exact hless y hy
    · exact huv y hy z hz

end Ascending

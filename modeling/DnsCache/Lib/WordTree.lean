import Mathlib.Data.Finset.Card
import Mathlib.Data.Finset.Insert

/-! # Trees whose edges carry letters

A tree is given by its edges `edge p c i`: from node `p` with letter `c` to
node `i`. A node is named by the word on the way to it.

* `Path edge root w s`: the word `w` leads from the root to `s`.
* `IsTree`: one edge for a letter, one edge into a node, none into the root.
* `IsTree.node_unique`, `IsTree.word_unique`: words and reachable nodes correspond.
* `Path.map`, `Path.comap`: nodes under other names.
* `path_addLeaf`, `path_removeLeaf`: a leaf more, a leaf less.
-/

namespace WordTree

variable {ι κ α : Type*}

/-- The word leads from the root to the node. -/
inductive Path (edge : ι → α → ι → Prop) (root : ι) : List α → ι → Prop where
  | nil : Path edge root [] root
  | snoc {w : List α} {p : ι} {c : α} {i : ι} (hp : Path edge root w p) (he : edge p c i) :
      Path edge root (w ++ [c]) i

/-- Edges go one way forth and one way back. -/
structure IsTree (edge : ι → α → ι → Prop) (root : ι) : Prop where
  next_unique : ∀ {p c i j}, edge p c i → edge p c j → i = j
  back_unique : ∀ {p c i p' c'}, edge p c i → edge p' c' i → p = p' ∧ c = c'
  root_min : ∀ {p c}, ¬ edge p c root

variable {edge edge' : ι → α → ι → Prop} {root : ι} {w v : List α} {s t p i x : ι} {c : α}

@[simp] theorem path_nil : Path edge root [] s ↔ s = root := by
  constructor
  · intro h
    generalize hw : ([] : List α) = w at h
    cases h with
    | nil => rfl
    | snoc => simp at hw
  · rintro rfl
    exact .nil

theorem path_snoc : Path edge root (w ++ [c]) i ↔ ∃ p, Path edge root w p ∧ edge p c i := by
  constructor
  · intro h
    generalize hw : w ++ [c] = w' at h
    cases h with
    | nil => simp at hw
    | @snoc u p d i hp he =>
        rcases List.append_inj' hw rfl with ⟨rfl, hcd⟩
        cases hcd
        exact ⟨p, hp, he⟩
  · rintro ⟨p, hp, he⟩
    exact .snoc hp he

namespace IsTree

theorem node_unique (ht : IsTree edge root) (h : Path edge root w s) (h' : Path edge root w t) :
    s = t := by
  induction h generalizing t with
  | nil => exact (path_nil.mp h').symm
  | snoc hp he ih =>
      rcases path_snoc.mp h' with ⟨q, hq, he'⟩
      rw [← ih hq] at he'
      exact ht.next_unique he he'

theorem word_unique (ht : IsTree edge root) (h : Path edge root w s) (h' : Path edge root v s) :
    w = v := by
  induction h generalizing v with
  | nil =>
      generalize hs : root = s at h'
      cases h' with
      | nil => rfl
      | snoc hp he =>
          rw [← hs] at he
          exact absurd he ht.root_min
  | @snoc w p c i hp he ih =>
      generalize hs : i = s at h'
      cases h' with
      | nil =>
          rw [hs] at he
          exact absurd he ht.root_min
      | snoc hq he' =>
          rw [hs] at he
          rcases ht.back_unique he he' with ⟨rfl, rfl⟩
          rw [ih hq]

/-- No reachable node is its own child. -/
theorem edge_ne (ht : IsTree edge root) (h : Path edge root w p) (he : edge p c i) : i ≠ p := by
  rintro rfl
  have hw := congrArg List.length (ht.word_unique h (.snoc h he))
  rw [List.length_append, List.length_singleton] at hw
  omega

/-- A word is shorter than there are nodes. -/
theorem length_lt_card [DecidableEq ι] (ht : IsTree edge root) (h : Path edge root w s)
    (S : Finset ι) (hS : ∀ v t, Path edge root v t → t ∈ S) : w.length < S.card := by
  -- the nodes on the way are as many as the letters, and one more
  suffices hway : ∃ T : Finset ι, T.card = w.length + 1 ∧
      ∀ t ∈ T, ∃ v, Path edge root v t ∧ v.length ≤ w.length by
    rcases hway with ⟨T, hcard, hT⟩
    have hsub : T ⊆ S := by
      intro t ht'
      rcases hT t ht' with ⟨v, hv, -⟩
      exact hS v t hv
    have hle := Finset.card_le_card hsub
    omega
  clear hS
  induction h with
  | nil => exact ⟨{root}, Finset.card_singleton _, fun t ht' =>
      ⟨[], by rw [Finset.mem_singleton.mp ht']; exact .nil, Nat.le_refl _⟩⟩
  | @snoc w p c i hp he ih =>
      rcases ih with ⟨T, hcard, hT⟩
      have hfresh : i ∉ T := by
        intro hmem
        rcases hT i hmem with ⟨v, hv, hlen⟩
        rw [ht.word_unique hv (.snoc hp he), List.length_append, List.length_singleton] at hlen
        omega
      refine ⟨insert i T, ?_, ?_⟩
      · rw [Finset.card_insert_of_notMem hfresh, hcard, List.length_append, List.length_singleton]
      · intro t ht'
        rw [List.length_append, List.length_singleton]
        rcases Finset.mem_insert.mp ht' with rfl | hmem
        · exact ⟨w ++ [c], .snoc hp he, by rw [List.length_append, List.length_singleton]⟩
        · rcases hT t hmem with ⟨v, hv, hlen⟩
          exact ⟨v, hv, Nat.le_succ_of_le hlen⟩

end IsTree

/-! ## Other names -/

variable {edgeK : κ → α → κ → Prop} {rootK : κ} {f : ι → κ}

theorem Path.map (hroot : f root = rootK)
    (hedge : ∀ w p c i, Path edge root w p → edge p c i → edgeK (f p) c (f i))
    (h : Path edge root w s) : Path edgeK rootK w (f s) := by
  induction h with
  | nil =>
      rw [hroot]
      exact .nil
  | snoc hp he ih => exact .snoc ih (hedge _ _ _ _ hp he)

theorem Path.comap (hroot : f root = rootK)
    (hedge : ∀ w p c j, Path edge root w p → edgeK (f p) c j → ∃ i, edge p c i ∧ f i = j)
    {j : κ} (h : Path edgeK rootK w j) : ∃ i, Path edge root w i ∧ f i = j := by
  induction h with
  | nil => exact ⟨root, .nil, hroot⟩
  | snoc hp he ih =>
      rcases ih with ⟨p, hpath, rfl⟩
      rcases hedge _ _ _ _ hpath he with ⟨i, hei, rfl⟩
      exact ⟨i, .snoc hpath hei, rfl⟩

/-! ## Leaves -/

/-- A new leaf `x` under `s`. -/
theorem path_addLeaf (hx : ∀ p d, ¬ edge p d x) (hroot : x ≠ root) (hleaf : ∀ d i, ¬ edge x d i)
    (hedge : ∀ p d i, edge' p d i ↔ edge p d i ∨ p = s ∧ d = c ∧ i = x) :
    Path edge' root v t ↔
      Path edge root v t ∨ ∃ w, Path edge root w s ∧ v = w ++ [c] ∧ t = x := by
  constructor
  · intro h
    induction h with
    | nil => exact .inl .nil
    | @snoc v p d i hp he ih =>
        rcases (hedge p d i).mp he with hold | ⟨rfl, rfl, rfl⟩
        · rcases ih with hpath | ⟨w, hw, rfl, rfl⟩
          · exact .inl (.snoc hpath hold)
          · exact absurd hold (hleaf d i)
        · rcases ih with hpath | ⟨w, hw, rfl, hpx⟩
          · exact .inr ⟨v, hpath, rfl, rfl⟩
          · -- `s` itself is not the new leaf
            rw [hpx] at hw
            generalize hq : i = q at hw
            cases hw with
            | nil => exact absurd hq hroot
            | snoc hq' he' =>
                rw [← hq] at he'
                exact absurd he' (hx _ _)
  · have hmono : ∀ {v t}, Path edge root v t → Path edge' root v t := by
      intro v t h
      induction h with
      | nil => exact .nil
      | snoc hp he ih => exact .snoc ih ((hedge _ _ _).mpr (.inl he))
    rintro (h | ⟨w, hw, rfl, rfl⟩)
    · exact hmono h
    · exact .snoc (hmono hw) ((hedge _ _ _).mpr (.inr ⟨rfl, rfl, rfl⟩))

/-- The leaf `x` is gone. -/
theorem path_removeLeaf (hroot : x ≠ root) (hleaf : ∀ d i, ¬ edge x d i)
    (hedge : ∀ p d i, edge' p d i ↔ edge p d i ∧ i ≠ x) :
    Path edge' root v t ↔ Path edge root v t ∧ t ≠ x := by
  constructor
  · intro h
    induction h with
    | nil => exact ⟨.nil, hroot.symm⟩
    | snoc hp he ih => exact ⟨.snoc ih.1 ((hedge _ _ _).mp he).1, ((hedge _ _ _).mp he).2⟩
  · rintro ⟨h, htx⟩
    induction h with
    | nil => exact .nil
    | @snoc v p d i hp he ih =>
        have hpx : p ≠ x := by
          rintro rfl
          exact hleaf _ _ he
        exact .snoc (ih hpx) ((hedge _ _ _).mpr ⟨he, htx⟩)

end WordTree

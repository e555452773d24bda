import Mathlib.Data.Set.Basic
import Mathlib.Data.List.Induction
import Mathlib.Logic.Function.Basic

/-! # Maps from words kept as trees of beginnings

A dictionary keeps the beginnings of its keys as inner nodes, up to where a key
is on its own. There it has a leaf, which keeps the rest of the key and the value.

* `Dict`: inner nodes and leaves, with the laws that make them a tree.
* `Dict.Holds`, `Dict.Represents`: the entries, and the map they are.
* `Dict.addLeaf`, `Dict.split`, `Dict.setLeaf`, `Dict.remove`, `Dict.prune`: the changes,
  each with the entries behind it.
* `Dict.Tight`: no inner node without an entry below it.
-/

namespace Radix

variable {α β : Type*}

/-- Inner nodes and leaves, named by the words on the way to them. -/
structure Dict (α β : Type*) where
  inner : Set (List α)
  leaf : List α → Option (List α × β)
  nil_mem : [] ∈ inner
  closed : ∀ {w c}, w ++ [c] ∈ inner ∨ (leaf (w ++ [c])).isSome → w ∈ inner
  disjoint : ∀ {w}, w ∈ inner → leaf w = none

namespace Dict

variable {D : Dict α β} {w v u p k rest : List α} {c : α} {x y : β}

/-- A key is the way to a leaf and the rest that the leaf keeps. -/
def Holds (D : Dict α β) (k : List α) (x : β) : Prop :=
  ∃ w rest, D.leaf w = some (rest, x) ∧ k = w ++ rest

/-- The entries are those of the map. -/
def Represents (D : Dict α β) (m : List α → Option β) : Prop :=
  ∀ k x, D.Holds k x ↔ m k = some x

/-- The word is a node. -/
def Node (D : Dict α β) (w : List α) : Prop := w ∈ D.inner ∨ (D.leaf w).isSome

theorem inner_of_append (h : w ++ v ∈ D.inner) : w ∈ D.inner := by
  induction v using List.reverseRecOn with
  | nil => rwa [List.append_nil] at h
  | append_singleton v c ih =>
      rw [← List.append_assoc] at h
      exact ih (D.closed (.inl h))

theorem inner_of_node (h : D.Node (w ++ c :: v)) : w ∈ D.inner := by
  rcases List.eq_nil_or_concat v with rfl | ⟨v, d, rfl⟩
  · exact D.closed h
  · rw [List.concat_eq_append, ← List.cons_append, ← List.append_assoc] at h
    exact inner_of_append (D.closed h)

theorem not_inner_of_leaf (h : (D.leaf w).isSome) : w ∉ D.inner := by
  intro hw
  rw [D.disjoint hw] at h
  exact absurd h (by simp)

/-- Below a leaf there is nothing. -/
theorem not_node_below (h : (D.leaf w).isSome) : ¬ D.Node (w ++ c :: v) :=
  fun hn => not_inner_of_leaf h (inner_of_node hn)

theorem not_node_append (h : (D.leaf w).isSome) (hv : v ≠ []) : ¬ D.Node (w ++ v) := by
  rcases List.exists_cons_of_ne_nil hv with ⟨c, v, rfl⟩
  exact not_node_below h

/-- The keys that pass a leaf. -/
theorem holds_at_leaf (h : D.leaf w = some (rest, x)) :
    D.Holds (w ++ v) y ↔ v = rest ∧ y = x := by
  have hleaf : (D.leaf w).isSome := by rw [h]; rfl
  constructor
  · rintro ⟨w', rest', h', heq⟩
    have hleaf' : (D.leaf w').isSome := by rw [h']; rfl
    rcases List.append_eq_append_iff.mp heq with ⟨a, rfl, rfl⟩ | ⟨a, rfl, rfl⟩
    · cases a with
      | nil =>
          rw [List.append_nil, h] at h'
          cases h'
          exact ⟨rfl, rfl⟩
      | cons d a => exact absurd (.inr hleaf') (not_node_below hleaf)
    · cases a with
      | nil =>
          rw [List.append_nil, h'] at h
          cases h
          exact ⟨rfl, rfl⟩
      | cons d a => exact absurd (.inr hleaf) (not_node_below hleaf')
  · rintro ⟨rfl, rfl⟩
    exact ⟨w, v, h, rfl⟩

/-- The keys that leave the tree at an inner node. -/
theorem not_holds_off (hw : w ∈ D.inner) (hc : ¬ D.Node (w ++ [c])) : ¬ D.Holds (w ++ c :: v) y := by
  rintro ⟨w', rest, h, heq⟩
  have hleaf : (D.leaf w').isSome := by rw [h]; rfl
  rcases List.append_eq_append_iff.mp heq with ⟨a, rfl, ha⟩ | ⟨a, rfl, rfl⟩
  · cases a with
    | nil =>
        rw [List.append_nil] at hleaf
        exact not_inner_of_leaf hleaf hw
    | cons d a =>
        rw [List.cons_append, List.cons.injEq] at ha
        rw [← ha.1] at hleaf
        cases a with
        | nil => exact hc (.inr hleaf)
        | cons e a =>
            have hn : D.Node ((w ++ [c]) ++ e :: a) := by
              rw [List.append_assoc]
              exact .inr hleaf
            exact hc (.inl (inner_of_node hn))
  · exact not_inner_of_leaf hleaf (inner_of_append hw)

theorem Holds.unique (h : D.Holds k x) (h' : D.Holds k y) : x = y := by
  rcases h with ⟨w, rest, hleaf, rfl⟩
  exact ((holds_at_leaf hleaf).mp h').2.symm

/-- No inner node is there for nothing. -/
def Tight (D : Dict α β) : Prop := ∀ w ∈ D.inner, w ≠ [] → ∃ c, D.Node (w ++ [c])

/-- Then every node is on the way to an entry. -/
theorem Tight.exists_holds (h : D.Tight) {n : Nat} (hlen : ∀ v ∈ D.inner, v.length ≤ n)
    (hw : D.Node w) (hne : w ≠ []) : ∃ k x, D.Holds k x ∧ w <+: k := by
  induction hk : n + 1 - w.length generalizing w with
  | zero =>
      rcases hw with hw | hw
      · have := hlen w hw
        omega
      · rcases Option.isSome_iff_exists.mp hw with ⟨⟨rest, x⟩, hleaf⟩
        exact ⟨w ++ rest, x, ⟨w, rest, hleaf, rfl⟩, List.prefix_append _ _⟩
  | succ k ih =>
      rcases hw with hw | hw
      · rcases h w hw hne with ⟨c, hc⟩
        rcases ih hc (by simp) (by rw [List.length_append, List.length_singleton]; omega) with
          ⟨k, x, hx, hpre⟩
        exact ⟨k, x, hx, (List.prefix_append _ _).trans hpre⟩
      · rcases Option.isSome_iff_exists.mp hw with ⟨⟨rest, x⟩, hleaf⟩
        exact ⟨w ++ rest, x, ⟨w, rest, hleaf, rfl⟩, List.prefix_append _ _⟩

/-- There is one map of the entries. -/
theorem exists_represents (D : Dict α β) : ∃ m, D.Represents m := by
  classical
  refine ⟨fun k => if hk : ∃ x, D.Holds k x then some hk.choose else none, fun k x => ?_⟩
  dsimp only
  split
  · rename_i hk
    rw [Option.some.injEq]
    exact ⟨fun hx => hk.choose_spec.unique hx, fun hx => hx ▸ hk.choose_spec⟩
  · rename_i hk
    exact iff_of_false (fun hx => hk ⟨x, hx⟩) (by simp)

/-- Without a key. -/
def empty : Dict α β where
  inner := {[]}
  leaf := fun _ => none
  nil_mem := rfl
  closed := by
    intro w c h
    rcases h with h | h
    · have heq : w ++ [c] = [] := h
      simp at heq
    · cases h
  disjoint := fun _ => rfl

theorem empty_represents : (empty : Dict α β).Represents fun _ => none := by
  intro k x
  simp [Holds, empty]

theorem empty_tight : (empty : Dict α β).Tight := fun _ hw hne => absurd hw hne

variable [DecidableEq α]

/-! ## A new leaf -/

/-- A leaf for a key that leaves the tree at `w` with the letter `c`. -/
def addLeaf (D : Dict α β) (w : List α) (c : α) (r : List α × β) (hw : w ∈ D.inner)
    (hc : ¬ D.Node (w ++ [c])) : Dict α β where
  inner := D.inner
  leaf := Function.update D.leaf (w ++ [c]) (some r)
  nil_mem := D.nil_mem
  closed := by
    intro v d h
    by_cases heq : v ++ [d] = w ++ [c]
    · rwa [(List.append_inj' heq rfl).1]
    · rw [Function.update_of_ne heq] at h
      exact D.closed h
  disjoint := by
    intro v hv
    rw [Function.update_of_ne, D.disjoint hv]
    rintro rfl
    exact hc (.inl hv)

variable {r : List α × β} {hw : w ∈ D.inner} {hc : ¬ D.Node (w ++ [c])}

theorem addLeaf_leaf :
    (D.addLeaf w c r hw hc).leaf = Function.update D.leaf (w ++ [c]) (some r) := rfl

theorem node_addLeaf : (D.addLeaf w c r hw hc).Node v ↔ D.Node v ∨ v = w ++ [c] := by
  by_cases heq : v = w ++ [c]
  · simp [Node, addLeaf, heq]
  · simp [Node, addLeaf, heq]

theorem holds_addLeaf :
    (D.addLeaf w c r hw hc).Holds k y ↔ D.Holds k y ∨ k = w ++ c :: r.1 ∧ y = r.2 := by
  constructor
  · rintro ⟨v, rest, h, rfl⟩
    by_cases heq : v = w ++ [c]
    · have hr : some r = some (rest, y) := by rwa [heq, addLeaf_leaf, Function.update_self] at h
      cases hr
      right
      rw [heq, List.append_assoc]
      exact ⟨rfl, rfl⟩
    · left
      rw [addLeaf_leaf, Function.update_of_ne heq] at h
      exact ⟨v, rest, h, rfl⟩
  · rintro (⟨v, rest, h, rfl⟩ | ⟨rfl, rfl⟩)
    · refine ⟨v, rest, ?_, rfl⟩
      rw [addLeaf_leaf, Function.update_of_ne, h]
      rintro rfl
      exact hc (.inr (by rw [h]; rfl))
    · refine ⟨w ++ [c], r.1, Function.update_self .., ?_⟩
      rw [List.append_assoc]
      rfl

theorem addLeaf_represents {m : List α → Option β} (h : D.Represents m) :
    (D.addLeaf w c r hw hc).Represents (Function.update m (w ++ c :: r.1) (some r.2)) := by
  intro k y
  rw [holds_addLeaf, h k y]
  by_cases hk : k = w ++ c :: r.1
  · have hold : m k ≠ some y := by
      intro hm
      rw [hk] at hm
      exact not_holds_off hw hc ((h _ _).mpr hm)
    rw [hk] at hold ⊢
    rw [Function.update_self, Option.some.injEq]
    simp [hold, eq_comm]
  · rw [Function.update_of_ne hk]
    simp [hk]

theorem addLeaf_tight (h : D.Tight) : (D.addLeaf w c r hw hc).Tight := by
  intro v hv hne
  rcases h v hv hne with ⟨d, hd⟩
  exact ⟨d, node_addLeaf.mpr (.inl hd)⟩

/-! ## A leaf moved down -/

/-- The leaf at `w` is moved to `w ++ p ++ [c]`, the nodes above it become inner nodes. -/
def split (D : Dict α β) (w p : List α) (c : α) (r : List α × β)
    (h : D.leaf w = some (p ++ c :: r.1, r.2)) : Dict α β where
  inner := {v | v ∈ D.inner ∨ ∃ u, u <+: p ∧ v = w ++ u}
  leaf := Function.update (Function.update D.leaf w none) (w ++ p ++ [c]) (some r)
  nil_mem := .inl D.nil_mem
  closed := by
    have hleaf : (D.leaf w).isSome := by rw [h]; rfl
    intro v d hv
    rcases hv with (hv | ⟨u, hu, heq⟩) | hv
    · exact .inl (D.closed (.inl hv))
    · rcases List.eq_nil_or_concat u with rfl | ⟨u, e, rfl⟩
      · rw [List.append_nil] at heq
        rw [← heq] at hleaf
        exact .inl (D.closed (.inr hleaf))
      · rw [List.concat_eq_append] at heq hu
        rw [← List.append_assoc] at heq
        exact .inr ⟨u, (List.prefix_append _ _).trans hu, (List.append_inj' heq rfl).1⟩
    · by_cases heq : v ++ [d] = w ++ p ++ [c]
      · exact .inr ⟨p, List.prefix_rfl, (List.append_inj' heq rfl).1⟩
      · rw [Function.update_of_ne heq] at hv
        by_cases hvw : v ++ [d] = w
        · rw [hvw, Function.update_self] at hv
          exact absurd hv (by simp)
        · rw [Function.update_of_ne hvw] at hv
          exact .inl (D.closed (.inr hv))
  disjoint := by
    have hleaf : (D.leaf w).isSome := by rw [h]; rfl
    intro v hv
    have hne : v ≠ w ++ p ++ [c] := by
      rintro rfl
      rcases hv with hv | ⟨u, hu, heq⟩
      · rw [List.append_assoc] at hv
        exact not_inner_of_leaf hleaf (inner_of_append hv)
      · rw [List.append_assoc] at heq
        have hlen := congrArg List.length (List.append_cancel_left heq)
        have hle := hu.length_le
        rw [List.length_append, List.length_singleton] at hlen
        omega
    rw [Function.update_of_ne hne]
    by_cases hvw : v = w
    · rw [hvw, Function.update_self]
    · rw [Function.update_of_ne hvw]
      rcases hv with hv | ⟨u, -, rfl⟩
      · exact D.disjoint hv
      · cases u with
        | nil => simp at hvw
        | cons e u =>
            by_contra hsome
            exact not_node_below hleaf (.inr (Option.isSome_iff_ne_none.mpr hsome))

variable {hleaf : D.leaf w = some (p ++ c :: r.1, r.2)}

theorem split_leaf : (D.split w p c r hleaf).leaf =
    Function.update (Function.update D.leaf w none) (w ++ p ++ [c]) (some r) := rfl

theorem holds_split : (D.split w p c r hleaf).Holds k y ↔ D.Holds k y := by
  constructor
  · rintro ⟨v, rest, h, rfl⟩
    by_cases heq : v = w ++ p ++ [c]
    · have hr : some r = some (rest, y) := by rwa [heq, split_leaf, Function.update_self] at h
      cases hr
      exact ⟨w, _, hleaf, by simp [heq]⟩
    · rw [split_leaf, Function.update_of_ne heq] at h
      by_cases hvw : v = w
      · rw [hvw, Function.update_self] at h
        cases h
      · rw [Function.update_of_ne hvw] at h
        exact ⟨v, rest, h, rfl⟩
  · rintro ⟨v, rest, h, rfl⟩
    by_cases hvw : v = w
    · rw [hvw, hleaf] at h
      cases h
      exact ⟨w ++ p ++ [c], r.1, Function.update_self .., by simp [hvw]⟩
    · have hne : v ≠ w ++ p ++ [c] := by
        rintro rfl
        rw [List.append_assoc] at h
        have hsome : (D.leaf w).isSome := by rw [hleaf]; rfl
        have hpc : p ++ [c] ≠ [] := by simp
        exact not_node_append hsome hpc (.inr (by rw [h]; rfl))
      refine ⟨v, rest, ?_, rfl⟩
      rw [split_leaf, Function.update_of_ne hne, Function.update_of_ne hvw, h]

theorem split_represents {m : List α → Option β} (h : D.Represents m) :
    (D.split w p c r hleaf).Represents m := by
  intro k y
  rw [holds_split, h k y]

theorem node_split (h : D.Node v) : (D.split w p c r hleaf).Node v := by
  by_cases hvw : v = w
  · exact .inl (.inr ⟨[], List.nil_prefix, by rw [hvw, List.append_nil]⟩)
  · rcases h with h | h
    · exact .inl (.inl h)
    · right
      by_cases heq : v = w ++ p ++ [c]
      · rw [heq, split_leaf, Function.update_self]
        rfl
      · rwa [split_leaf, Function.update_of_ne heq, Function.update_of_ne hvw]

theorem split_tight (h : D.Tight) : (D.split w p c r hleaf).Tight := by
  rintro v (hv | ⟨u, hu, rfl⟩) hne
  · rcases h v hv hne with ⟨d, hd⟩
    exact ⟨d, node_split hd⟩
  · rcases hu with ⟨a, ha⟩
    cases a with
    | nil =>
        rw [List.append_nil] at ha
        refine ⟨c, .inr ?_⟩
        rw [split_leaf, ha, Function.update_self]
        rfl
    | cons e a =>
        refine ⟨e, .inl (.inr ⟨u ++ [e], ⟨a, ?_⟩, ?_⟩)⟩
        · rw [List.append_assoc, List.singleton_append, ha]
        · rw [List.append_assoc]

/-! ## Another value -/

/-- The leaf at `w` gets another value. -/
def setLeaf (D : Dict α β) (w : List α) (r : List α × β) (h : (D.leaf w).isSome) : Dict α β where
  inner := D.inner
  leaf := Function.update D.leaf w (some r)
  nil_mem := D.nil_mem
  closed := by
    intro v d hv
    by_cases heq : v ++ [d] = w
    · rw [← heq] at h
      exact D.closed (.inr h)
    · rw [Function.update_of_ne heq] at hv
      exact D.closed hv
  disjoint := by
    intro v hv
    rw [Function.update_of_ne, D.disjoint hv]
    rintro rfl
    exact not_inner_of_leaf h hv

theorem setLeaf_leaf (h : (D.leaf w).isSome) :
    (D.setLeaf w r h).leaf = Function.update D.leaf w (some r) := rfl

theorem setLeaf_represents {m : List α → Option β} (h : D.Represents m)
    (hx : D.leaf w = some (rest, x)) (hsome : (D.leaf w).isSome) :
    (D.setLeaf w (rest, y) hsome).Represents (Function.update m (w ++ rest) (some y)) := by
  intro k z
  by_cases hk : ∃ v, k = w ++ v
  · rcases hk with ⟨v, rfl⟩
    have hself : (D.setLeaf w (rest, y) hsome).leaf w = some (rest, y) := Function.update_self ..
    rw [holds_at_leaf hself]
    by_cases hv : v = rest
    · rw [hv, Function.update_self, Option.some.injEq]
      simp [eq_comm]
    · have hne : w ++ v ≠ w ++ rest := fun heq => hv (List.append_cancel_left heq)
      rw [Function.update_of_ne hne, ← h, holds_at_leaf hx]
      simp [hv]
  · have hne : k ≠ w ++ rest := fun heq => hk ⟨rest, heq⟩
    rw [Function.update_of_ne hne, ← h]
    -- a key that does not pass `w` has its leaf elsewhere
    constructor
    · rintro ⟨v, rest', hv, rfl⟩
      have hvw : v ≠ w := by
        rintro rfl
        exact hk ⟨rest', rfl⟩
      rw [setLeaf_leaf, Function.update_of_ne hvw] at hv
      exact ⟨v, rest', hv, rfl⟩
    · rintro ⟨v, rest', hv, rfl⟩
      have hvw : v ≠ w := by
        rintro rfl
        exact hk ⟨rest', rfl⟩
      refine ⟨v, rest', ?_, rfl⟩
      rw [setLeaf_leaf, Function.update_of_ne hvw, hv]

theorem setLeaf_tight (h : D.Tight) (hsome : (D.leaf w).isSome) : (D.setLeaf w r hsome).Tight := by
  intro v hv hne
  rcases h v hv hne with ⟨d, hd⟩
  refine ⟨d, ?_⟩
  rcases hd with hd | hd
  · exact .inl hd
  · right
    by_cases heq : v ++ [d] = w
    · simp [setLeaf, heq]
    · rwa [setLeaf_leaf, Function.update_of_ne heq]

/-! ## An entry taken out -/

/-- The leaf at `q ++ u` is taken out, and with it the nodes behind `q` that lead to it only. -/
def remove (D : Dict α β) (q u : List α) (h : (D.leaf (q ++ u)).isSome)
    (honly : ∀ a c b, a ≠ [] → u = a ++ c :: b → ∀ d, D.Node (q ++ a ++ [d]) → d = c) :
    Dict α β where
  inner := {v | v ∈ D.inner ∧ ¬ ∃ a b, a ≠ [] ∧ b ≠ [] ∧ u = a ++ b ∧ v = q ++ a}
  leaf := Function.update D.leaf (q ++ u) none
  nil_mem := by
    refine ⟨D.nil_mem, ?_⟩
    rintro ⟨a, b, ha, -, -, heq⟩
    exact ha (List.append_eq_nil_iff.mp heq.symm).2
  closed := by
    intro v d hv
    have hnode : D.Node (v ++ [d]) := by
      rcases hv with hv | hv
      · exact .inl hv.1
      · by_cases heq : v ++ [d] = q ++ u
        · rw [heq, Function.update_self] at hv
          exact absurd hv (by simp)
        · rw [Function.update_of_ne heq] at hv
          exact .inr hv
    refine ⟨D.closed hnode, ?_⟩
    rintro ⟨a, b, ha, hb, rfl, rfl⟩
    rcases List.exists_cons_of_ne_nil hb with ⟨c, b, rfl⟩
    have hdc := honly a c b ha rfl d hnode
    rw [hdc] at hv
    -- the child on the way is the leaf itself or a node that goes too
    by_cases hnil : b = []
    · rw [hnil, List.append_assoc] at hv
      rcases hv with hv | hv
      · rw [hnil] at h
        exact not_inner_of_leaf h hv.1
      · rw [Function.update_self] at hv
        exact absurd hv (by simp)
    · have hsplit : q ++ (a ++ c :: b) = q ++ a ++ [c] ++ b := by simp
      rw [hsplit] at h
      rcases List.exists_cons_of_ne_nil hnil with ⟨e, b', hbe⟩
      rcases hv with hv | hv
      · exact hv.2 ⟨a ++ [c], b, by simp, hnil, by simp, by simp⟩
      · have hne : q ++ a ++ [c] ≠ q ++ (a ++ c :: b) := by
          rw [hsplit, hbe]
          simp
        rw [Function.update_of_ne hne] at hv
        rw [hbe] at h
        exact not_node_below hv (.inr h)
  disjoint := by
    intro v hv
    by_cases hvw : v = q ++ u
    · rw [hvw, Function.update_self]
    · rw [Function.update_of_ne hvw, D.disjoint hv.1]

variable {q : List α} {h : (D.leaf (q ++ u)).isSome}
  {honly : ∀ a c b, a ≠ [] → u = a ++ c :: b → ∀ d, D.Node (q ++ a ++ [d]) → d = c}

theorem remove_leaf :
    (D.remove q u h honly).leaf = Function.update D.leaf (q ++ u) none := rfl

theorem remove_represents {m : List α → Option β} (hm : D.Represents m)
    (hx : D.leaf (q ++ u) = some (rest, x)) :
    (D.remove q u h honly).Represents (Function.update m (q ++ u ++ rest) none) := by
  intro k y
  have hrest : D.Holds k y ∧ k ≠ q ++ u ++ rest ↔ (D.remove q u h honly).Holds k y := by
    constructor
    · rintro ⟨⟨v, rest', hv, rfl⟩, hne⟩
      refine ⟨v, rest', ?_, rfl⟩
      rw [remove_leaf, Function.update_of_ne, hv]
      rintro rfl
      rw [hx] at hv
      cases hv
      exact hne rfl
    · rintro ⟨v, rest', hv, rfl⟩
      have hvw : v ≠ q ++ u := by
        rintro rfl
        rw [remove_leaf, Function.update_self] at hv
        cases hv
      rw [remove_leaf, Function.update_of_ne hvw] at hv
      refine ⟨⟨v, rest', hv, rfl⟩, ?_⟩
      intro heq
      -- two leaves on one way
      have hboth : D.Holds (v ++ rest') x := by
        rw [heq]
        exact ⟨_, rest, hx, rfl⟩
      rcases List.append_eq_append_iff.mp heq with ⟨a, ha, -⟩ | ⟨a, ha, -⟩
      · cases a with
        | nil => exact hvw (by rw [ha, List.append_nil])
        | cons e a =>
            rw [ha] at h
            exact not_node_below (by rw [hv]; rfl) (.inr h)
      · cases a with
        | nil => exact hvw (by rw [ha, List.append_nil])
        | cons e a =>
            have hsome : (D.leaf v).isSome := by rw [hv]; rfl
            rw [ha] at hsome
            exact not_node_below h (.inr hsome)
  rw [← hrest, hm k y]
  by_cases hk : k = q ++ u ++ rest
  · simp [hk]
  · rw [Function.update_of_ne hk]
    exact and_iff_left hk

/-- Nothing is left over when `q` keeps another child. -/
theorem remove_tight (ht : D.Tight)
    (hq : q = [] ∨ ∃ d, D.Node (q ++ [d]) ∧ u.head? ≠ some d) :
    (D.remove q u h honly).Tight := by
  have hkeep : ∀ v, D.Node v → v ≠ q ++ u →
      (¬ ∃ a b, a ≠ [] ∧ b ≠ [] ∧ u = a ++ b ∧ v = q ++ a) → (D.remove q u h honly).Node v := by
    rintro v (hv | hv) hne hnot
    · exact .inl ⟨hv, hnot⟩
    · right
      rwa [remove_leaf, Function.update_of_ne hne]
  rintro v ⟨hv, hnot⟩ hne
  suffices hchild : ∃ d, D.Node (v ++ [d]) ∧ v ++ [d] ≠ q ++ u ∧
      ¬ ∃ a b, a ≠ [] ∧ b ≠ [] ∧ u = a ++ b ∧ v ++ [d] = q ++ a by
    rcases hchild with ⟨d, hd, hdne, hdnot⟩
    exact ⟨d, hkeep _ hd hdne hdnot⟩
  rcases ht v hv hne with ⟨d, hd⟩
  by_cases hway : ∃ a b, u = a ++ [d] ++ b ∧ v = q ++ a
  · rcases hway with ⟨a, b, hu, rfl⟩
    have hnil : a = [] := by
      by_contra hnil
      exact hnot ⟨a, [d] ++ b, hnil, by simp, by rw [hu, List.append_assoc], rfl⟩
    subst hnil
    rw [List.append_nil] at hne ⊢
    -- `v` is `q`
    rcases hq with hq | ⟨d', hd', hhead⟩
    · exact absurd hq hne
    · refine ⟨d', hd', ?_, ?_⟩
      · intro heq
        rw [← List.append_cancel_left heq] at hhead
        exact hhead rfl
      · rintro ⟨a', b', -, -, hab, heq⟩
        rw [hab, ← List.append_cancel_left heq] at hhead
        exact hhead rfl
  · have hlast : ∀ a b, a ≠ [] → u = a ++ b → v ++ [d] ≠ q ++ a := by
      intro a b ha hu heq
      rcases List.eq_nil_or_concat a with rfl | ⟨a, e, rfl⟩
      · exact ha rfl
      · rw [List.concat_eq_append] at hu heq
        rw [← List.append_assoc] at heq
        rcases List.append_inj' heq rfl with ⟨hva, hde⟩
        cases hde
        exact hway ⟨a, b, hu, hva⟩
    refine ⟨d, hd, ?_, ?_⟩
    · intro heq
      by_cases hnil : u = []
      · -- then the leaf is `q`, which has no child
        subst hnil
        rw [List.append_nil] at h heq
        rw [← heq] at h
        rcases hq with hq | ⟨d', hd', -⟩
        · rw [hq] at heq
          simp at heq
        · rw [← heq] at hd'
          exact not_node_below h hd'
      · exact hlast u [] hnil (by simp) heq
    · rintro ⟨a, b, ha, -, hu, heq⟩
      exact hlast a b ha hu heq

end Dict

end Radix

import Mathlib.Algebra.GroupWithZero.Nat
import DnsCache.Slist

/-! # `slist` is a bounded sequence

* `Slist.Layout`, `Slist.Holds`: the two chains, and the items on the first.
* `push_holds` and the like: what each function does to the items.
* `slStep_refines`, `slist_refines_iff`: one operation, and any sequence of them.
-/

namespace DnsCache

open Chain

variable {α : Type}

/-! ## The two chains -/

/-- The nodes in use are `chain`, from `head` to `end`, and hold `items`; the
others are `blanks`. Every node belongs to a block obtained before. -/
structure Slist.Layout (sl : Slist α) (chain blanks : List NodeAddr) (items : List α) : Prop where
  used : Seg sl.nodes.next sl.head chain none
  data : chain.map sl.nodes.data = items.map some
  end_ : sl.end_ = chain.getLast?
  unused : Seg sl.nodes.next sl.blank blanks none
  disjoint : ∀ a ∈ chain, a ∉ blanks
  length : sl.length = chain.length
  capacity : sl.capacity = chain.length + blanks.length
  known : ∀ a, (sl.nodes.next a).isSome → a.block < sl.blocks

/-- From `p` on, `memlist` has one node for each of the first `n` blocks of
nodes: the nodes of the block `2 * k` were followed by the memlist node `2 * k + 1`. -/
def MemChain (m : Nat → Option MemNode) : Option Nat → Nat → Prop
  | p, 0 => p = none
  | p, n + 1 => p = some (2 * n + 1) ∧ ∃ r, m (2 * n + 1) = some ⟨2 * n, r⟩ ∧ MemChain m r n

/-- `memlist` knows every block of the list. -/
def Slist.Owned (sl : Slist α) : Prop := ∃ n, sl.blocks = 2 * n ∧ MemChain sl.memNodes sl.memlist n

/-- The list holds `items` and has `capacity` nodes. -/
def Slist.Holds (sl : Slist α) (items : List α) (capacity : Nat) : Prop :=
  sl.capacity = capacity ∧ sl.Owned ∧ ∃ chain blanks, sl.Layout chain blanks items

variable {sl : Slist α} {chain blanks : List NodeAddr} {items : List α} {capacity : Nat} {d : α}

theorem Slist.Layout.items_length (h : sl.Layout chain blanks items) :
    items.length = chain.length := by
  have hlen := congrArg List.length h.data
  rw [List.length_map, List.length_map] at hlen
  exact hlen.symm

theorem Slist.Holds.length_eq (h : sl.Holds items capacity) : sl.length = items.length := by
  rcases h with ⟨-, -, chain, blanks, h⟩
  rw [h.length, h.items_length]

/-- The chain of a list with an item at its head. -/
theorem Slist.Layout.cons_inv {x : α} {xs : List α} (h : sl.Layout chain blanks (x :: xs)) :
    ∃ a as, chain = a :: as ∧ sl.head = some a ∧ sl.nodes.data a = some x ∧
      as.map sl.nodes.data = xs.map some := by
  cases chain with
  | nil =>
      have hdata := h.data
      simp at hdata
  | cons a as =>
      have hdata := h.data
      rw [List.map_cons, List.map_cons, List.cons.injEq] at hdata
      exact ⟨a, as, rfl, h.used.1, hdata.1, hdata.2⟩

theorem Slist.Layout.head_eq_none_iff (h : sl.Layout chain blanks items) :
    sl.head = none ↔ items = [] := by
  have hlen := h.items_length
  rw [h.used.start_eq, List.head?_eq_none_iff]
  constructor
  · intro hnil
    rw [hnil] at hlen
    exact List.eq_nil_of_length_eq_zero hlen
  · intro hnil
    rw [hnil] at hlen
    exact List.eq_nil_of_length_eq_zero hlen.symm

/-! ## The blocks of a list -/

/-- A new node in front of `memlist` is not one of those behind it. -/
theorem MemChain.update {m : Nat → Option MemNode} {p : Option Nat} {n a : Nat} (h : MemChain m p n)
    (ha : 2 * n < a) (v : Option MemNode) : MemChain (Function.update m a v) p n := by
  induction n generalizing p with
  | zero => exact h
  | succ n ih =>
      rcases h with ⟨hp, r, hr, hrest⟩
      refine ⟨hp, r, ?_, ih hrest (by omega)⟩
      rw [Function.update_of_ne (by omega), hr]

/-- What `sl_expand` does to `memlist`. -/
theorem Slist.Owned.grow (h : sl.Owned) : ∃ n, sl.blocks + 2 = 2 * n ∧
    MemChain (Function.update sl.memNodes (sl.blocks + 1) (some ⟨sl.blocks, sl.memlist⟩))
      (some (sl.blocks + 1)) n := by
  rcases h with ⟨n, hblocks, hchain⟩
  refine ⟨n + 1, by omega, by rw [hblocks], sl.memlist, ?_, hchain.update (by omega) _⟩
  rw [hblocks, Function.update_self]

/-- The blocks in the order in which `sl_free` meets them. -/
def blocksInTurn : Nat → List Nat
  | 0 => []
  | n + 1 => [2 * n, 2 * n + 1] ++ blocksInTurn n

theorem slFreeLoop_spec {fuel n : Nat} {p : Option Nat} {freed : List Nat}
    (h : MemChain sl.memNodes p n) (hfreed : ∀ b ∈ freed, 2 * n ≤ b) (hfuel : n < fuel) :
    slFreeLoop sl fuel p freed = some (freed ++ blocksInTurn n) := by
  induction fuel generalizing n p freed with
  | zero => omega
  | succ fuel ih =>
      cases n with
      | zero =>
          rw [show p = none from h, slFreeLoop, blocksInTurn, List.append_nil]
      | succ n =>
          rcases h with ⟨rfl, r, hr, hrest⟩
          have hnot : 2 * n + 1 ∉ freed := by
            intro hmem
            have hle := hfreed _ hmem
            omega
          rw [slFreeLoop, blocksInTurn]
          simp only [if_neg hnot, hr, Option.bind_eq_bind, Option.bind_some]
          rw [ih hrest ?_ (by omega), List.append_assoc]
          intro b hb
          rcases List.mem_append.mp hb with hb | hb
          · have hle := hfreed b hb
            omega
          · simp only [List.mem_cons, List.not_mem_nil, or_false] at hb
            omega

/-- `sl_free` frees block after block and reads none that it has freed. -/
theorem slFree_holds (h : sl.Holds items capacity) :
    ∃ n, sl.blocks = 2 * n ∧ slFree sl = some (blocksInTurn n) := by
  rcases h with ⟨-, ⟨n, hblocks, hchain⟩, -⟩
  refine ⟨n, hblocks, ?_⟩
  rw [slFree, slFreeLoop_spec hchain (by simp) (by omega), List.nil_append]

/-! ## Stores -/

theorem next_update (m : Nodes α) (a : NodeAddr) (node : SlNode α) :
    Nodes.next (Function.update m a (some node)) = Function.update m.next a (some node.next) := by
  funext b
  unfold Nodes.next
  by_cases hb : b = a
  · rw [hb, Function.update_self, Function.update_self, Option.map_some]
  · rw [Function.update_of_ne hb, Function.update_of_ne hb]

theorem data_update (m : Nodes α) (a : NodeAddr) (node : SlNode α) :
    Nodes.data (Function.update m a (some node)) = Function.update m.data a node.data := by
  funext b
  unfold Nodes.data
  by_cases hb : b = a
  · rw [hb, Function.update_self, Function.update_self, Option.bind_some]
  · rw [Function.update_of_ne hb, Function.update_of_ne hb]

/-- Reading a node of a chain. -/
theorem deref_spec {a : NodeAddr} {r : Option NodeAddr} (h : sl.nodes.next a = some r) :
    ∃ node, sl.deref (some a) = some node ∧ node.next = r ∧ node.data = sl.nodes.data a := by
  rcases Option.map_eq_some_iff.mp h with ⟨node, hnode, hnext⟩
  refine ⟨node, hnode, hnext, ?_⟩
  rw [Nodes.data, hnode, Option.bind_some]

theorem setNext_spec {p : Option NodeAddr} {a : NodeAddr} (hp : p = some a)
    (h : (sl.nodes.next a).isSome) (q : Option NodeAddr) :
    ∃ m, sl.setNext p q = some { sl with nodes := m } ∧
      Nodes.next m = Function.update sl.nodes.next a (some q) ∧
      Nodes.data m = sl.nodes.data := by
  rcases Option.isSome_iff_exists.mp h with ⟨r, hr⟩
  rcases Option.map_eq_some_iff.mp hr with ⟨node, hnode, -⟩
  refine ⟨Function.update sl.nodes a (some { node with next := q }), ?_, next_update _ _ _, ?_⟩
  · simp [Slist.setNext, hp, hnode]
  · rw [data_update]
    have hdata : sl.nodes.data a = node.data := by rw [Nodes.data, hnode, Option.bind_some]
    rw [← hdata, Function.update_eq_self]

theorem setData_spec {a : NodeAddr} (h : (sl.nodes.next a).isSome) (d : α) :
    ∃ m, sl.setData (some a) d = some { sl with nodes := m } ∧
      Nodes.next m = sl.nodes.next ∧
      Nodes.data m = Function.update sl.nodes.data a (some d) := by
  rcases Option.isSome_iff_exists.mp h with ⟨r, hr⟩
  rcases Option.map_eq_some_iff.mp hr with ⟨node, hnode, hnext⟩
  refine ⟨Function.update sl.nodes a (some { node with data := some d }), ?_, ?_,
    data_update _ _ _⟩
  · simp [Slist.setData, hnode]
  · rw [next_update]
    have hsame : sl.nodes.next a = some node.next := by rw [hr, hnext]
    rw [← hsame, Function.update_eq_self]

theorem map_update_of_not_mem {f : NodeAddr → Option α} {a : NodeAddr} {v : Option α}
    {as : List NodeAddr} (h : a ∉ as) : as.map (Function.update f a v) = as.map f := by
  apply List.map_congr_left
  intro b hb
  apply Function.update_of_ne
  intro hba
  rw [hba] at hb
  exact h hb

/-- A store to a node that is there adds no node. -/
theorem known_update {next : NodeAddr → Option (Option NodeAddr)} {blocks : Nat} {a : NodeAddr}
    {v : Option (Option NodeAddr)} (h : ∀ b, (next b).isSome → b.block < blocks)
    (ha : (next a).isSome) : ∀ b, (Function.update next a v b).isSome → b.block < blocks := by
  intro b hb
  by_cases hba : b = a
  · rw [hba]
    exact h a ha
  · rw [Function.update_of_ne hba] at hb
    exact h b hb

/-! ## `push` and `append` -/

theorem Slist.Holds.full_iff (h : sl.Holds items capacity) :
    sl.length = sl.capacity ↔ items.length = capacity := by
  rw [h.length_eq, h.1]

/-- A list that is not full has a blank node. -/
theorem Slist.Layout.blank_inv (h : sl.Layout chain blanks items)
    (hroom : items.length < sl.capacity) :
    ∃ b bs r, blanks = b :: bs ∧ sl.blank = some b ∧ sl.nodes.next b = some r ∧
      Seg sl.nodes.next r bs none ∧ b ∉ chain ∧ b ∉ bs := by
  cases blanks with
  | nil =>
      have hcap := h.capacity
      rw [h.items_length] at hroom
      rw [List.length_nil] at hcap
      omega
  | cons b bs =>
      have hnodup := List.nodup_cons.mp h.unused.nodup
      rcases h.unused with ⟨hb, r, hr, hrest⟩
      refine ⟨b, bs, r, rfl, hb, hr, hrest, ?_, hnodup.1⟩
      intro hmem
      exact h.disjoint b hmem List.mem_cons_self

theorem push_full (h : sl.Holds items capacity) (hfull : items.length = capacity) :
    push d sl = some (1, sl) := by
  rw [push, if_pos (h.full_iff.mpr hfull)]

/-- `push` is cons. -/
theorem push_holds (h : sl.Holds items capacity) (hroom : items.length < capacity) (d : α) :
    ∃ sl', push d sl = some (0, sl') ∧ sl'.Holds (d :: items) capacity := by
  have hnot : ¬ sl.length = sl.capacity := by
    rw [h.full_iff]
    omega
  rcases h with ⟨hcap, hown, chain, blanks, h⟩
  rcases h.blank_inv (by omega) with ⟨b, bs, r, rfl, hblank, hb, hbs, hchain, hbs'⟩
  rcases deref_spec hb with ⟨node, hnode, hnext, -⟩
  rcases @setData_spec α { sl with blank := r } b (by simp [hb]) d with ⟨m₁, hset₁, hm₁, hd₁⟩
  rcases @setNext_spec α { sl with blank := r, nodes := m₁ } _ b rfl
    (by show (Nodes.next m₁ b).isSome; rw [hm₁]; simp [hb]) sl.head with ⟨m₂, hset₂, hm₂, hd₂⟩
  change Nodes.next m₂ = Function.update (Nodes.next m₁) b _ at hm₂
  change Nodes.data m₂ = Nodes.data m₁ at hd₂
  rw [hm₁] at hm₂
  rw [hd₁] at hd₂
  refine ⟨{ sl with
    nodes := m₂
    blank := r
    head := some b
    end_ := if sl.end_ = none then some b else sl.end_
    length := sl.length + 1 }, ?_, hcap, hown, b :: chain, bs, ?_⟩
  · rw [push, if_neg hnot]
    simp only [hblank, hnode, hnext, hset₁, hset₂, Option.bind_eq_bind, Option.bind_some,
      Option.pure_def]
  · constructor
    · show Seg (Nodes.next m₂) _ _ _
      rw [hm₂]
      exact ⟨rfl, sl.head, Function.update_self _ _ _, h.used.update hchain⟩
    · show (b :: chain).map (Nodes.data m₂) = _
      rw [hd₂, List.map_cons, Function.update_self, map_update_of_not_mem hchain, h.data,
        List.map_cons]
    · show (if sl.end_ = none then some b else sl.end_) = _
      rw [h.end_]
      cases chain with
      | nil => rfl
      | cons a as => simp [List.getLast?_cons_cons]
    · show Seg (Nodes.next m₂) _ _ _
      rw [hm₂]
      exact hbs.update hbs'
    · intro a ha
      rcases List.mem_cons.mp ha with rfl | ha
      · exact hbs'
      · exact fun hmem => h.disjoint a ha (List.mem_cons_of_mem _ hmem)
    · show sl.length + 1 = _
      rw [h.length, List.length_cons]
    · show sl.capacity = _
      rw [h.capacity, List.length_cons, List.length_cons]
      omega
    · show ∀ a, (Nodes.next m₂ a).isSome → _
      rw [hm₂]
      exact known_update h.known (by simp [hb])

theorem append_full (h : sl.Holds items capacity) (hfull : items.length = capacity) :
    append d sl = some (1, sl) := by
  rw [append, if_pos (h.full_iff.mpr hfull)]

/-- The link to a new last node. -/
theorem linkEnd_spec {m : Nodes α} {b : NodeAddr} (h : sl.Layout chain blanks items)
    (hnext : Nodes.next m = sl.nodes.next) (hchain : b ∉ chain)
    (r : Option NodeAddr) :
    ∃ m₂, { sl with blank := r, nodes := m }.linkEnd (some b) =
        some { sl with blank := r, nodes := m₂, head := (chain ++ [b]).head?, end_ := some b } ∧
      Nodes.data m₂ = Nodes.data m ∧
      (∀ a, (Nodes.next m₂ a).isSome → a.block < sl.blocks) ∧
      Seg (Function.update (Nodes.next m₂) b (some none)) (chain ++ [b]).head? (chain ++ [b]) none ∧
      ∀ a ∈ blanks, Nodes.next m₂ a = sl.nodes.next a := by
  rcases List.eq_nil_or_concat chain with hnil | ⟨as, e, hsplit⟩
  · -- the node becomes the only one
    have hhead : sl.head = none := by rw [h.used.start_eq, hnil, List.head?_nil]
    refine ⟨m, ?_, rfl, ?_, ?_, ?_⟩
    · rw [Slist.linkEnd, if_pos hhead, hnil]
      rfl
    · rw [hnext]
      exact h.known
    · rw [hnil]
      exact ⟨rfl, none, Function.update_self _ _ _, rfl⟩
    · intro a _
      rw [hnext]
  · -- the last node is linked to it
    rw [List.concat_eq_append] at hsplit
    have hend : sl.end_ = some e := by rw [h.end_, hsplit, List.getLast?_append]; rfl
    have hhead : sl.head = (as ++ [e] ++ [b]).head? := by
      rw [h.used.start_eq, hsplit]
      cases as <;> rfl
    have hne : sl.head ≠ none := by
      rw [hhead]
      cases as <;> simp
    have hused := h.used
    rw [hsplit] at hused hchain
    have hnodup := hused.nodup
    rw [List.nodup_append] at hnodup
    have heas : e ∉ as := fun hmem => hnodup.2.2 e hmem e (by simp) rfl
    have he : (sl.nodes.next e).isSome := hused.isSome (by simp)
    rcases @setNext_spec α { sl with blank := r, nodes := m } sl.end_ e hend
      (by show (Nodes.next m e).isSome; rw [hnext]; exact he) (some b) with ⟨m₂, hset, hm₂, hd₂⟩
    change Nodes.next m₂ = Function.update (Nodes.next m) e _ at hm₂
    rw [hnext] at hm₂
    refine ⟨m₂, ?_, hd₂, ?_, ?_, ?_⟩
    · rw [Slist.linkEnd, if_neg hne, hset, hsplit, ← hhead]
      rfl
    · rw [hm₂]
      exact known_update h.known he
    · rw [hsplit, ← hhead, hm₂]
      refine Seg.append_iff.mpr ⟨some b, (hused.relink heas (some b)).update hchain, rfl, none, ?_, rfl⟩
      exact Function.update_self _ _ _
    · intro a ha
      rw [hm₂]
      apply Function.update_of_ne
      intro hae
      rw [hae] at ha
      exact h.disjoint e (by rw [hsplit]; simp) ha

/-- `append` is snoc. -/
theorem append_holds (h : sl.Holds items capacity) (hroom : items.length < capacity) (d : α) :
    ∃ sl', append d sl = some (0, sl') ∧ sl'.Holds (items ++ [d]) capacity := by
  have hnot : ¬ sl.length = sl.capacity := by
    rw [h.full_iff]
    omega
  rcases h with ⟨hcap, hown, chain, blanks, h⟩
  rcases h.blank_inv (by omega) with ⟨b, bs, r, rfl, hblank, hb, hbs, hchain, hbs'⟩
  rcases deref_spec hb with ⟨node, hnode, hnext, -⟩
  rcases @setData_spec α { sl with blank := r } b (by simp [hb]) d with ⟨m₁, hset₁, hm₁, hd₁⟩
  change Nodes.data m₁ = Function.update (Nodes.data sl.nodes) b _ at hd₁
  rcases linkEnd_spec h hm₁ hchain r with ⟨m₂, hlink, hd₂, hknown, hused, hkeep⟩
  have hb₂ : (Nodes.next m₂ b).isSome := by
    rw [hkeep b List.mem_cons_self, hb]
    rfl
  rcases @setNext_spec α
    { sl with blank := r, nodes := m₂, head := (chain ++ [b]).head?, end_ := some b } _ b rfl hb₂ none
    with ⟨m₃, hset₃, hm₃, hd₃⟩
  change Nodes.next m₃ = Function.update (Nodes.next m₂) b _ at hm₃
  change Nodes.data m₃ = Nodes.data m₂ at hd₃
  rw [hd₂, hd₁] at hd₃
  refine ⟨{ sl with
    nodes := m₃
    blank := r
    head := (chain ++ [b]).head?
    end_ := some b
    length := sl.length + 1 }, ?_, hcap, hown, chain ++ [b], bs, ?_⟩
  · rw [append, if_neg hnot]
    simp only [hblank, hnode, hnext, hset₁, hlink, hset₃, Option.bind_eq_bind, Option.bind_some,
      Option.pure_def]
  · constructor
    · show Seg (Nodes.next m₃) _ _ _
      rw [hm₃]
      exact hused
    · show (chain ++ [b]).map (Nodes.data m₃) = _
      rw [hd₃, List.map_append, map_update_of_not_mem hchain, h.data, List.map_append]
      simp
    · show some b = _
      rw [List.getLast?_append]
      rfl
    · show Seg (Nodes.next m₃) _ _ _
      rw [hm₃]
      refine Seg.update (hbs.frame ?_) hbs'
      intro a ha
      exact hkeep a (List.mem_cons_of_mem _ ha)
    · intro a ha
      rcases List.mem_append.mp ha with ha | ha
      · exact fun hmem => h.disjoint a ha (List.mem_cons_of_mem _ hmem)
      · rw [List.mem_singleton.mp ha]
        exact hbs'
    · show sl.length + 1 = _
      rw [h.length, List.length_append]
      rfl
    · show sl.capacity = _
      rw [h.capacity, List.length_append, List.length_cons, List.length_singleton]
      omega
    · show ∀ a, (Nodes.next m₃ a).isSome → _
      rw [hm₃]
      exact known_update hknown hb₂

/-! ## `pop` -/

theorem pop_empty (h : sl.Holds ([] : List α) capacity) : pop sl = some (none, sl) := by
  rcases h with ⟨-, -, chain, blanks, h⟩
  rw [pop, if_pos (h.head_eq_none_iff.mpr rfl)]

/-- `pop` removes the first item. -/
theorem pop_holds {x : α} {xs : List α} (h : sl.Holds (x :: xs) capacity) :
    ∃ sl', pop sl = some (some x, sl') ∧ sl'.Holds xs capacity := by
  rcases h with ⟨hcap, hown, chain, blanks, h⟩
  have hne : sl.head ≠ none := by
    rw [Ne, h.head_eq_none_iff]
    simp
  rcases h.cons_inv with ⟨a, as, rfl, hhead, hx, hxs⟩
  rcases h.used with ⟨-, r, hr, hrest⟩
  have hnodup := List.nodup_cons.mp h.used.nodup
  rcases deref_spec hr with ⟨node, hnode, hnext, hdata⟩
  rw [hx] at hdata
  rcases @setNext_spec α
    { sl with head := r, end_ := if r = none then none else sl.end_ } _ a rfl (by simp [hr]) sl.blank
    with ⟨m, hset, hm, hd⟩
  change Nodes.next m = Function.update sl.nodes.next a _ at hm
  change Nodes.data m = sl.nodes.data at hd
  refine ⟨{ sl with
    nodes := m
    head := r
    end_ := if r = none then none else sl.end_
    blank := some a
    length := sl.length - 1 }, ?_, hcap, hown, as, a :: blanks, ?_⟩
  · rw [pop, if_neg hne]
    simp only [hhead, hnode, hnext, hdata, hset, Option.bind_eq_bind, Option.bind_some,
      Option.pure_def]
  · constructor
    · show Seg (Nodes.next m) _ _ _
      rw [hm]
      exact hrest.update hnodup.1
    · show as.map (Nodes.data m) = _
      rw [hd, hxs]
    · show (if r = none then none else sl.end_) = _
      rw [h.end_, hrest.start_eq]
      cases as with
      | nil => rfl
      | cons b bs => simp [List.getLast?_cons_cons]
    · show Seg (Nodes.next m) _ _ _
      rw [hm]
      refine ⟨rfl, sl.blank, Function.update_self _ _ _, h.unused.update ?_⟩
      exact h.disjoint a List.mem_cons_self
    · intro b hb hmem
      rcases List.mem_cons.mp hmem with rfl | hmem
      · exact hnodup.1 hb
      · exact h.disjoint b (List.mem_cons_of_mem _ hb) hmem
    · show sl.length - 1 = _
      rw [h.length, List.length_cons, Nat.add_sub_cancel]
    · show sl.capacity = _
      rw [h.capacity, List.length_cons, List.length_cons]
      omega
    · show ∀ b, (Nodes.next m b).isSome → _
      rw [hm]
      exact known_update h.known (by simp [hr])

/-! ## `mk_slist` and `sl_expand` -/

/-- The nodes of a block from a place on. -/
def blockNodes (block index count : Nat) : List NodeAddr :=
  (List.range' index count).map (NodeAddr.mk block)

theorem mem_blockNodes {block index count : Nat} {a : NodeAddr} (h : a ∈ blockNodes block index count) :
    a.block = block ∧ index ≤ a.index := by
  rcases List.mem_map.mp h with ⟨i, hi, rfl⟩
  exact ⟨rfl, (List.mem_range'_1.mp hi).1⟩

/-- The nodes of a new block, once the last has been linked to `q`. -/
theorem linkNodes_spec (block count index : Nat) (m : Nodes α) (q : Option NodeAddr) :
    let r := linkNodes block (count + 1) index m
    let m' : Nodes α := Function.update r.1 ⟨block, r.2⟩ (some ⟨none, q⟩)
    Seg (Nodes.next m') (some ⟨block, index⟩) (blockNodes block index (count + 1)) q ∧
      ∀ a, a ∉ blockNodes block index (count + 1) → m' a = m a := by
  induction count generalizing index m with
  | zero =>
      intro r m'
      have hr : r = (m, index) := rfl
      constructor
      · refine ⟨rfl, q, ?_, rfl⟩
        show (m' _).map _ = _
        simp only [m', hr, Function.update_self, Option.map_some]
      · intro a ha
        simp only [m', hr]
        apply Function.update_of_ne
        intro hae
        exact ha (by simp [hae, blockNodes])
  | succ count ih =>
      intro r m'
      -- the rest of the block is linked without its first node
      rcases ih (index + 1) (Function.update m ⟨block, index⟩ (some ⟨none, some ⟨block, index + 1⟩⟩))
        with ⟨hseg, hkeep⟩
      have hfirst : (⟨block, index⟩ : NodeAddr) ∉ blockNodes block (index + 1) (count + 1) := by
        intro hmem
        have hle := (mem_blockNodes hmem).2
        dsimp only at hle
        omega
      have hsplit : blockNodes block index (count + 1 + 1) =
          ⟨block, index⟩ :: blockNodes block (index + 1) (count + 1) := by
        unfold blockNodes
        rw [List.range'_succ, List.map_cons]
      rw [hsplit]
      constructor
      · refine ⟨rfl, some ⟨block, index + 1⟩, ?_, hseg⟩
        exact congrArg (Option.map (·.next)) ((hkeep _ hfirst).trans (Function.update_self _ _ _))
      · intro a ha
        rw [List.mem_cons, not_or] at ha
        exact (hkeep a ha.2).trans (Function.update_of_ne ha.1 _ _)

theorem blockNodes_length (block index count : Nat) :
    (blockNodes block index count).length = count := by
  rw [blockNodes, List.length_map, List.length_range']

/-- The block of a new list has room for its nodes as long as the byte count does not wrap. -/
theorem listBytes_holdsNodes_iff :
    HoldsNodes (listBytes capacity) slistSize capacity ↔ 48 + 16 * capacity < 2 ^ 64 := by
  have hbytes : (listBytes capacity).toNat = (48 + 16 * (capacity % 2 ^ 64) % 2 ^ 64) % 2 ^ 64 := by
    rw [listBytes, UInt64.toNat_add, UInt64.toNat_mul, UInt64.toNat_ofNat']
    rfl
  rw [HoldsNodes, hbytes]
  show 48 + 16 * capacity ≤ _ ↔ _
  omega

theorem nodesBytes_holdsNodes_iff {delta : Nat} :
    HoldsNodes (nodesBytes delta) 0 delta ↔ 16 * delta < 2 ^ 64 := by
  have hbytes : (nodesBytes delta).toNat = delta % 2 ^ 64 * 16 % 2 ^ 64 := by
    rw [nodesBytes, UInt64.toNat_mul, UInt64.toNat_ofNat']
    rfl
  rw [HoldsNodes, hbytes]
  show 0 + 16 * delta ≤ _ ↔ _
  omega

/-- `mk_slist` makes an empty list. -/
theorem mkSlist_holds (hcap : 1 ≤ capacity) (hfit : 48 + 16 * capacity < 2 ^ 64) :
    ∃ sl : Slist α, mkSlist capacity = some sl ∧ sl.Holds [] capacity := by
  have hroom : ¬ (capacity = 0 ∨ ¬ HoldsNodes (listBytes capacity) slistSize capacity) := by
    rw [listBytes_holdsNodes_iff]
    omega
  obtain ⟨count, rfl⟩ : ∃ count, capacity = count + 1 := ⟨capacity - 1, by omega⟩
  rcases @linkNodes_spec α 0 count 0 (fun _ => none) none with ⟨hseg, hkeep⟩
  refine ⟨_, by rw [mkSlist, if_neg hroom], rfl, ?_, [], blockNodes 0 0 (count + 1), ?_⟩
  · exact ⟨1, rfl, rfl, none, rfl, rfl⟩
  constructor
  · rfl
  · rfl
  · rfl
  · exact hseg
  · simp
  · rfl
  · show count + 1 = _
    rw [blockNodes_length, List.length_nil, Nat.zero_add]
  · intro a ha
    show a.block < 2
    by_cases hmem : a ∈ blockNodes 0 0 (count + 1)
    · rw [(mem_blockNodes hmem).1]
      exact Nat.two_pos
    · simp only [Nodes.next, hkeep a hmem] at ha
      simp at ha

/-- A call of `mk_slist` that returns has asked for a node, and for all its bytes. -/
theorem mkSlist_asks (h : mkSlist capacity = some sl) :
    1 ≤ capacity ∧ 48 + 16 * capacity < 2 ^ 64 := by
  unfold mkSlist at h
  split at h
  · simp at h
  · rename_i hroom
    rw [listBytes_holdsNodes_iff] at hroom
    omega

/-- `sl_expand` adds blank nodes. -/
theorem slExpand_holds {delta : Nat} (hdelta : 1 ≤ delta) (hfit : 16 * delta < 2 ^ 64)
    (h : sl.Holds items capacity) :
    ∃ sl', slExpand delta sl = some sl' ∧ sl'.Holds items (capacity + delta) := by
  have hroom : ¬ (delta = 0 ∨ ¬ HoldsNodes (nodesBytes delta) 0 delta) := by
    rw [nodesBytes_holdsNodes_iff]
    omega
  obtain ⟨count, rfl⟩ : ∃ count, delta = count + 1 := ⟨delta - 1, by omega⟩
  rcases h with ⟨hcap, hown, chain, blanks, h⟩
  rcases linkNodes_spec sl.blocks count 0 sl.nodes sl.blank with ⟨hseg, hkeep⟩
  -- the block is new: no node of it was there before
  have hold : ∀ {a}, (sl.nodes.next a).isSome → a ∉ blockNodes sl.blocks 0 (count + 1) := by
    intro a ha hmem
    have hlt := h.known a ha
    rw [(mem_blockNodes hmem).1] at hlt
    omega
  refine ⟨_, by rw [slExpand, if_neg hroom], congrArg (· + (count + 1)) hcap, ?_, chain,
    blockNodes sl.blocks 0 (count + 1) ++ blanks, ?_⟩
  · exact hown.grow
  constructor
  · refine h.used.frame ?_
    intro a ha
    simp only [Nodes.next, hkeep a (hold (h.used.isSome ha))]
  · show chain.map _ = _
    rw [← h.data]
    apply List.map_congr_left
    intro a ha
    simp only [Nodes.data, hkeep a (hold (h.used.isSome ha))]
  · exact h.end_
  · refine Seg.append_iff.mpr ⟨sl.blank, hseg, h.unused.frame ?_⟩
    intro a ha
    simp only [Nodes.next, hkeep a (hold (h.unused.isSome ha))]
  · intro a ha hmem
    rcases List.mem_append.mp hmem with hmem | hmem
    · exact hold (h.used.isSome ha) hmem
    · exact h.disjoint a ha hmem
  · exact h.length
  · show sl.capacity + (count + 1) = _
    rw [h.capacity, List.length_append, blockNodes_length]
    omega
  · intro a ha
    show a.block < sl.blocks + 2
    by_cases hmem : a ∈ blockNodes sl.blocks 0 (count + 1)
    · rw [(mem_blockNodes hmem).1]
      omega
    · simp only [Nodes.next, hkeep a hmem] at ha
      have hlt := h.known a ha
      omega

theorem slExpand_asks {sl' : Slist α} {delta : Nat} (h : slExpand delta sl = some sl') :
    1 ≤ delta ∧ 16 * delta < 2 ^ 64 := by
  unfold slExpand at h
  split at h
  · simp at h
  · rename_i hroom
    rw [nodesBytes_holdsNodes_iff] at hroom
    omega

/-! ## Loops along the chain -/

theorem traverseLoop_spec {fuel : Nat} {p : Option NodeAddr} {as : List NodeAddr} {xs : List α}
    (hseg : Seg sl.nodes.next p as none) (hdata : as.map sl.nodes.data = xs.map some)
    (hfuel : as.length < fuel) : traverseLoop sl fuel p = some xs := by
  induction fuel generalizing p as xs with
  | zero => omega
  | succ fuel ih =>
      cases as with
      | nil =>
          have hp : p = none := hseg
          have hxs : xs = [] := by simpa using hdata
          rw [traverseLoop, if_pos hp, hxs]
      | cons a as =>
          rcases hseg with ⟨rfl, r, hr, hrest⟩
          cases xs with
          | nil => simp at hdata
          | cons x xs =>
              rw [List.map_cons, List.map_cons, List.cons.injEq] at hdata
              rcases deref_spec hr with ⟨node, hnode, hnext, hx⟩
              rw [hdata.1] at hx
              rw [traverseLoop, if_neg (by simp)]
              simp only [hnode, hnext, hx, Option.bind_eq_bind, Option.bind_some,
                ih hrest hdata.2 (by simpa using hfuel), Option.map_some]

/-- `traverse` visits the items in order. -/
theorem traverse_holds (h : sl.Holds items capacity) : traverse sl = some items := by
  rcases h with ⟨-, -, chain, blanks, h⟩
  apply traverseLoop_spec h.used h.data
  rw [Slist.rounds, h.capacity]
  omega

/-! ## Moving a node to the front -/

/-- The nodes before `c` hold the items before its own. -/
theorem Slist.Layout.split {as bs : List NodeAddr} {c : NodeAddr} {is js : List α} {x : α}
    (h : sl.Layout (as ++ c :: bs) blanks (is ++ x :: js)) (hlen : as.length = is.length) :
    as.map sl.nodes.data = is.map some ∧ sl.nodes.data c = some x ∧
      bs.map sl.nodes.data = js.map some := by
  have hdata := h.data
  rw [List.map_append, List.map_append] at hdata
  rcases List.append_inj hdata (by rw [List.length_map, List.length_map, hlen]) with ⟨has, hrest⟩
  rw [List.map_cons, List.map_cons, List.cons.injEq] at hrest
  exact ⟨has, hrest.1, hrest.2⟩

/-- The last node of the chain stays last, unless it is the one that is moved. -/
theorem getLast?_toHead {xs ys : List NodeAddr} {p c : NodeAddr} (hc : c ∉ ys) :
    (if some c = (xs ++ [p] ++ c :: ys).getLast? then some p
      else (xs ++ [p] ++ c :: ys).getLast?) = (c :: (xs ++ [p] ++ ys)).getLast? := by
  cases ys with
  | nil => simp [List.getLast?_cons, List.getLast?_append]
  | cons b bs =>
      have hlast : (xs ++ [p] ++ c :: b :: bs).getLast? = (b :: bs).getLast? := by
        rw [List.getLast?_append, List.getLast?_cons_cons]
        simp [List.getLast?_cons]
      have hne : some c ≠ (b :: bs).getLast? := by
        intro heq
        exact hc (List.mem_of_getLast? heq.symm)
      rw [hlast, if_neg hne, ← List.cons_append, List.getLast?_append]
      simp [List.getLast?_cons]

/-- What `toHead` writes. -/
theorem toHead_sets {p c : NodeAddr} (hp : (sl.nodes.next p).isSome)
    (hc : (sl.nodes.next c).isSome) (hne : c ≠ p) (rest : Option NodeAddr) :
    ∃ m, sl.toHead (some p) (some c) rest = some { sl with
        nodes := m
        end_ := if some c = sl.end_ then some p else sl.end_
        head := some c } ∧
      m.next = Function.update (Function.update sl.nodes.next p (some rest)) c (some sl.head) ∧
      m.data = sl.nodes.data := by
  rcases @setNext_spec α
    { sl with end_ := if some c = sl.end_ then some p else sl.end_ } _ p rfl hp rest
    with ⟨m₁, hset₁, hm₁, hd₁⟩
  change Nodes.next m₁ = Function.update sl.nodes.next p _ at hm₁
  change Nodes.data m₁ = sl.nodes.data at hd₁
  have hc₁ : (Nodes.next m₁ c).isSome := by
    rw [hm₁, Function.update_of_ne hne]
    exact hc
  rcases @setNext_spec α
    { sl with end_ := if some c = sl.end_ then some p else sl.end_, nodes := m₁ } _ c rfl hc₁ sl.head
    with ⟨m₂, hset₂, hm₂, hd₂⟩
  change Nodes.next m₂ = Function.update (Nodes.next m₁) c _ at hm₂
  change Nodes.data m₂ = Nodes.data m₁ at hd₂
  rw [hm₁] at hm₂
  rw [hd₁] at hd₂
  refine ⟨m₂, ?_, hm₂, hd₂⟩
  simp only [Slist.toHead, hset₁, hset₂, Option.bind_eq_bind, Option.bind_some, Option.pure_def]

/-- The node `c` is taken out behind `p` and put in front of the head. -/
theorem toHead_spec {xs ys : List NodeAddr} {p c : NodeAddr} {is js : List α} {x : α}
    (h : sl.Layout (xs ++ [p] ++ c :: ys) blanks (is ++ x :: js))
    (hlen : (xs ++ [p]).length = is.length) :
    ∃ sl', sl.toHead (some p) (some c) ys.head? = some sl' ∧ sl'.capacity = sl.capacity ∧
      (sl.Owned → sl'.Owned) ∧ sl'.Layout (c :: (xs ++ [p] ++ ys)) blanks (x :: (is ++ js)) := by
  rcases h.split hlen with ⟨hdata, hx, hrest⟩
  rcases Seg.append_iff.mp h.used with ⟨r, hfront, rfl, r', hr', hback⟩
  have hr'eq : r' = ys.head? := hback.start_eq
  -- all nodes of the chain differ
  rcases List.nodup_append.mp h.used.nodup with ⟨hfrontNodup, hbackNodup, hdiff⟩
  have hxp := (List.nodup_append.mp hfrontNodup).2.2
  have hcys := (List.nodup_cons.mp hbackNodup).1
  have hpxs : p ∉ xs := fun hmem => hxp p hmem p (by simp) rfl
  have hpys : p ∉ ys := fun hmem => hdiff p (by simp) p (List.mem_cons_of_mem _ hmem) rfl
  have hcfront : c ∉ xs ++ [p] := fun hmem => hdiff c hmem c List.mem_cons_self rfl
  have hp : (sl.nodes.next p).isSome := h.used.isSome (by simp)
  have hc : (sl.nodes.next c).isSome := h.used.isSome (by simp)
  have hcp : c ≠ p := fun hcp => hcfront (by simp [hcp])
  rcases @toHead_sets α sl p c hp hc hcp ys.head? with ⟨m₂, hrun, hm₂, hd₂⟩
  refine ⟨_, hrun, rfl, id, ?_⟩
  constructor
  · show Seg (Nodes.next m₂) _ _ _
    rw [hm₂]
    refine ⟨rfl, sl.head, Function.update_self _ _ _, ?_⟩
    refine Seg.append_iff.mpr ⟨ys.head?, (hfront.relink hpxs _).update hcfront, ?_⟩
    rw [← hr'eq]
    exact (hback.update hpys).update hcys
  · show (c :: (xs ++ [p] ++ ys)).map (Nodes.data m₂) = _
    rw [hd₂, List.map_cons, List.map_append, hdata, hrest, hx, List.map_cons, List.map_append]
  · show (if some c = sl.end_ then some p else sl.end_) = _
    rw [h.end_]
    exact getLast?_toHead hcys
  · show Seg (Nodes.next m₂) _ _ _
    rw [hm₂]
    refine (h.unused.update ?_).update ?_
    · exact h.disjoint p (by simp)
    · exact h.disjoint c (by simp)
  · intro a ha
    apply h.disjoint
    rcases List.mem_cons.mp ha with rfl | ha
    · simp
    · rcases List.mem_append.mp ha with ha | ha
      · exact List.mem_append_left _ ha
      · exact List.mem_append_right _ (List.mem_cons_of_mem _ ha)
  · show sl.length = _
    rw [h.length]
    simp only [List.length_append, List.length_cons]
    omega
  · show sl.capacity = _
    rw [h.capacity]
    simp only [List.length_append, List.length_cons]
    omega
  · show ∀ a, (Nodes.next m₂ a).isSome → _
    rw [hm₂]
    apply known_update (known_update h.known hp)
    rw [Function.update_of_ne hcp]
    exact hc

variable [DecidableEq α]

/-- The loop of `mv2head`, behind the nodes that do not hold `d`. -/
theorem mv2headLoop_spec {fuel : Nat} {xs ys : List NodeAddr} {p : NodeAddr} {is js : List α}
    (h : sl.Layout (xs ++ [p] ++ ys) blanks (is ++ js)) (hown : sl.Owned)
    (hlen : (xs ++ [p]).length = is.length) (hfuel : ys.length < fuel) :
    ∃ sl', mv2headLoop d sl fuel (some p) ys.head? = some (if d ∈ js then 0 else 1, sl') ∧
      sl'.Holds (if d ∈ js then d :: (is ++ js.erase d) else is ++ js) sl.capacity := by
  -- on the nodes still ahead: `xs` and `p` hold the data `is`, none of which is `d`
  induction ys generalizing fuel xs p is js with
  | nil =>
      have hjs : js = [] := by
        have hitems := h.items_length
        rw [List.append_nil, List.length_append, hlen] at hitems
        exact List.eq_nil_of_length_eq_zero (by omega)
      obtain ⟨fuel, rfl⟩ : ∃ f, fuel = f + 1 := ⟨fuel - 1, by simp at hfuel; omega⟩
      refine ⟨sl, ?_, ?_⟩
      · rw [mv2headLoop, if_pos List.head?_nil, hjs, if_neg List.not_mem_nil]
      · rw [hjs, if_neg List.not_mem_nil]
        rw [hjs] at h
        exact ⟨rfl, hown, _, _, h⟩
  | cons c ys ih =>
      obtain ⟨fuel, rfl⟩ : ∃ f, fuel = f + 1 := ⟨fuel - 1, by simp at hfuel; omega⟩
      cases js with
      | nil =>
          have hitems := h.items_length
          rw [List.append_nil, List.length_append, hlen, List.length_cons] at hitems
          omega
      | cons x js =>
          rcases h.split hlen with ⟨-, hx, -⟩
          rcases Seg.append_iff.mp h.used with ⟨r, -, rfl, r', hr', hback⟩
          rcases deref_spec hr' with ⟨node, hnode, hnext, hdata⟩
          rw [hx] at hdata
          rw [hback.start_eq] at hnext
          rw [mv2headLoop, List.head?_cons, if_neg (by simp)]
          simp only [hnode, hnext, hdata, Option.bind_eq_bind, Option.bind_some]
          by_cases hxd : x = d
          · -- found
            rcases toHead_spec h hlen with ⟨sl', hmove, hcap, hown', hlayout⟩
            refine ⟨sl', ?_, ?_⟩
            · rw [if_pos hxd, hmove, hxd, if_pos List.mem_cons_self]
              rfl
            · rw [hxd, if_pos List.mem_cons_self, List.erase_cons_head]
              rw [hxd] at hlayout
              exact ⟨hcap, hown' hown, _, _, hlayout⟩
          · -- the search goes on behind `c`
            have hmem : d ∈ x :: js ↔ d ∈ js := by
              simp [Ne.symm hxd]
            rcases @ih fuel (xs ++ [p]) c (is ++ [x]) js (by simpa using h)
              (by simpa using hlen) (by simpa using hfuel)
              with ⟨sl', hloop, hholds⟩
            refine ⟨sl', ?_, ?_⟩
            · rw [if_neg hxd, hloop]
              simp only [hmem]
            · have hitems : (if d ∈ x :: js then d :: (is ++ (x :: js).erase d) else is ++ x :: js) =
                  if d ∈ js then d :: (is ++ [x] ++ js.erase d) else is ++ [x] ++ js := by
                rw [List.erase_cons_tail (by simpa using hxd)]
                simp only [hmem, List.append_assoc, List.singleton_append]
              rw [hitems]
              exact hholds

/-- `mv2head` moves the first occurrence to the front. -/
theorem mv2head_holds (h : sl.Holds items capacity) (hne : items ≠ []) (d : α) :
    ∃ sl', mv2head d sl = some (if d ∈ items then 0 else 1, sl') ∧
      sl'.Holds (if d ∈ items then d :: items.erase d else items) capacity := by
  rcases h with ⟨hcap, hown, chain, blanks, h⟩
  rcases List.exists_cons_of_ne_nil hne with ⟨x, xs, rfl⟩
  rcases h.cons_inv with ⟨a, as, rfl, hhead, hx, -⟩
  rcases h.used with ⟨-, r, hr, hrest⟩
  rcases deref_spec hr with ⟨node, hnode, hnext, hdata⟩
  rw [hx] at hdata
  rw [hrest.start_eq] at hnext
  unfold mv2head
  simp only [hhead, hnode, hnext, hdata, Option.bind_eq_bind, Option.bind_some]
  by_cases hxd : x = d
  · -- the first node holds the datum
    refine ⟨sl, ?_, ?_⟩
    · rw [if_pos hxd, hxd, if_pos List.mem_cons_self]
      rfl
    · rw [hxd, if_pos List.mem_cons_self, List.erase_cons_head, ← hxd]
      exact ⟨hcap, hown, _, _, h⟩
  · -- the loop starts behind the first node
    have hmem : d ∈ x :: xs ↔ d ∈ xs := by
      simp [Ne.symm hxd]
    have hcapacity := h.capacity
    rcases @mv2headLoop_spec α sl blanks d _ sl.rounds [] as a [x] xs h hown rfl
      (by rw [Slist.rounds, hcapacity, List.length_cons]; omega) with ⟨sl', hloop, hholds⟩
    refine ⟨sl', ?_, ?_⟩
    · rw [if_neg hxd, hloop]
      simp only [hmem]
    · rw [List.erase_cons_tail (by simpa using hxd), ← hcap]
      simp only [hmem]
      exact hholds

/-! ## `find` -/

theorem findLoop_spec {fuel : Nat} {p : Option NodeAddr} {as : List NodeAddr} {xs : List α}
    (hseg : Seg sl.nodes.next p as none) (hdata : as.map sl.nodes.data = xs.map some)
    (hfuel : as.length < fuel) : findLoop d sl fuel p = some (if d ∈ xs then 1 else 0) := by
  induction fuel generalizing p as xs with
  | zero => omega
  | succ fuel ih =>
      cases as with
      | nil =>
          have hp : p = none := hseg
          have hxs : xs = [] := by simpa using hdata
          rw [findLoop, if_pos hp, hxs, if_neg List.not_mem_nil]
      | cons a as =>
          rcases hseg with ⟨rfl, r, hr, hrest⟩
          cases xs with
          | nil => simp at hdata
          | cons x xs =>
              rw [List.map_cons, List.map_cons, List.cons.injEq] at hdata
              rcases deref_spec hr with ⟨node, hnode, hnext, hx⟩
              rw [hdata.1] at hx
              rw [findLoop, if_neg (by simp)]
              simp only [hnode, hnext, hx, Option.bind_eq_bind, Option.bind_some,
                ih hrest hdata.2 (by simpa using hfuel), Option.pure_def]
              by_cases hxd : x = d
              · simp [hxd]
              · simp [hxd, Ne.symm hxd]

/-- `find` tells whether the datum is there. -/
theorem find_holds (h : sl.Holds items capacity) (d : α) :
    find d sl = some (if d ∈ items then 1 else 0) := by
  rcases h with ⟨-, -, chain, blanks, h⟩
  apply findLoop_spec h.used h.data
  rw [Slist.rounds, h.capacity]
  omega

/-! ## The refinement -/

omit [DecidableEq α] in
/-- The list is the bounded sequence `s`: the nodes reachable from `head` are an
acyclic chain that holds the items and ends at `end`, the blank ones another. -/
structure Slist.Represents (sl : Slist α) (s : BoundedSeq α) : Prop where
  chains : ∃ chain blanks, Seg sl.nodes.next sl.head chain none ∧
    Seg sl.nodes.next sl.blank blanks none ∧ (chain ++ blanks).Nodup ∧
    chain.map sl.nodes.data = s.items.map some ∧ sl.end_ = chain.getLast? ∧
    sl.length = chain.length ∧ blanks.length = sl.capacity - sl.length
  capacity : sl.capacity = s.capacity
  head : sl.head = none ↔ s.items = []
  end_ : sl.end_ = none ↔ s.items = []

omit [DecidableEq α] in
theorem represents_of_holds {s : BoundedSeq α} (h : sl.Holds s.items s.capacity) :
    sl.Represents s := by
  rcases h with ⟨hcap, hown, chain, blanks, h⟩
  have hlen := h.items_length
  constructor
  · refine ⟨chain, blanks, h.used, h.unused, ?_, h.data, h.end_, h.length, ?_⟩
    · refine List.nodup_append.mpr ⟨h.used.nodup, h.unused.nodup, ?_⟩
      intro a ha b hb hab
      rw [hab] at ha
      exact h.disjoint b ha hb
    · rw [h.capacity, h.length]
      omega
  · exact hcap
  · exact h.head_eq_none_iff
  · rw [h.end_, List.getLast?_eq_none_iff, ← List.length_eq_zero_iff, ← hlen,
      List.length_eq_zero_iff]

omit [DecidableEq α] in
/-- The byte count of the block that an operation obtains does not wrap. -/
def OpFits : BoundedSeq.Op α → Prop
  | .expand delta => 16 * delta < 2 ^ 64
  | _ => True

omit [DecidableEq α] in
/-- No byte count wraps, neither that of `mk_slist` nor one of the operations. -/
def BytesFit (capacity : Nat) (ops : List (BoundedSeq.Op α)) : Prop :=
  48 + 16 * capacity < 2 ^ 64 ∧ ∀ op ∈ ops, OpFits op

/-- The step lemma: an operation does to the list what it does to the sequence. -/
theorem slStep_refines {s : BoundedSeq α} {op : BoundedSeq.Op α}
    (h : sl.Holds s.items s.capacity) (hop : s.Allows op) (hfit : OpFits op) :
    ∃ sl', slStep sl op = some ((s.step op).1, sl') ∧
      sl'.Holds (s.step op).2.items (s.step op).2.capacity := by
  cases op with
  | push d =>
      by_cases hfull : s.Full
      · refine ⟨sl, ?_, ?_⟩
        · rw [slStep, push_full h hfull, BoundedSeq.step_push_full hfull]
          rfl
        · rw [BoundedSeq.step_push_full hfull]
          exact h
      · rcases push_holds h (BoundedSeq.lt_of_not_full hfull) d with ⟨sl', hpush, hholds⟩
        rcases BoundedSeq.step_push (d := d) hfull with ⟨hresult, hitems, hcap⟩
        rw [hresult, hitems, hcap]
        refine ⟨sl', ?_, hholds⟩
        rw [slStep, hpush]
        rfl
  | append d =>
      by_cases hfull : s.Full
      · refine ⟨sl, ?_, ?_⟩
        · rw [slStep, append_full h hfull, BoundedSeq.step_append_full hfull]
          rfl
        · rw [BoundedSeq.step_append_full hfull]
          exact h
      · rcases append_holds h (BoundedSeq.lt_of_not_full hfull) d with ⟨sl', happend, hholds⟩
        rcases BoundedSeq.step_append (d := d) hfull with ⟨hresult, hitems, hcap⟩
        rw [hresult, hitems, hcap]
        refine ⟨sl', ?_, hholds⟩
        rw [slStep, happend]
        rfl
  | pop =>
      rcases s with ⟨items, capacity, hfits⟩
      cases items with
      | nil =>
          refine ⟨sl, ?_, h⟩
          rw [slStep, pop_empty h]
          rfl
      | cons x xs =>
          rcases pop_holds h with ⟨sl', hpop, hholds⟩
          refine ⟨sl', ?_, hholds⟩
          rw [slStep, hpop]
          rfl
  | expand delta =>
      rcases slExpand_holds hop hfit h with ⟨sl', hexpand, hholds⟩
      refine ⟨sl', ?_, hholds⟩
      rw [slStep, hexpand]
      rfl
  | mv2head d =>
      rcases mv2head_holds h hop d with ⟨sl', hmove, hholds⟩
      rcases BoundedSeq.step_mv2head (s := s) d with ⟨hresult, hitems, hcap⟩
      rw [hresult, hitems, hcap]
      refine ⟨sl', ?_, hholds⟩
      rw [slStep, hmove]
      rfl

/-- The run lemma. -/
theorem slRun_refines {s : BoundedSeq α} {ops : List (BoundedSeq.Op α)}
    (h : sl.Holds s.items s.capacity) (hops : s.AllowsAll ops) (hfits : ∀ op ∈ ops, OpFits op) :
    ∃ sl', slRun sl ops = some ((s.run ops).1, sl') ∧
      sl'.Holds (s.run ops).2.items (s.run ops).2.capacity := by
  induction ops generalizing sl s with
  | nil => exact ⟨sl, rfl, h⟩
  | cons op ops ih =>
      rcases List.forall_mem_cons.mp hfits with ⟨hfit, hfits⟩
      rcases slStep_refines h hops.1 hfit with ⟨sl₁, hstep, h₁⟩
      rcases ih h₁ hops.2 hfits with ⟨sl', hrun, h'⟩
      refine ⟨sl', ?_, h'⟩
      simp only [slRun, hstep, hrun, Option.bind_eq_bind, Option.bind_some, Option.pure_def]
      rfl

/-- The run lemma from a new list on. -/
theorem mkSlist_run {capacity : Nat} {ops : List (BoundedSeq.Op α)} (hcap : 1 ≤ capacity)
    (hfit : BytesFit capacity ops) (hops : (BoundedSeq.empty capacity).AllowsAll ops) :
    ∃ sl₀ sl : Slist α, mkSlist capacity = some sl₀ ∧
      slRun sl₀ ops = some (((BoundedSeq.empty capacity).run ops).1, sl) ∧
      sl.Holds ((BoundedSeq.empty capacity).run ops).2.items
        ((BoundedSeq.empty capacity).run ops).2.capacity := by
  rcases @mkSlist_holds α capacity hcap hfit.1 with ⟨sl₀, hmk, h₀⟩
  rcases @slRun_refines α sl₀ _ (BoundedSeq.empty capacity) ops h₀ hops hfit.2
    with ⟨sl, hrun, h⟩
  exact ⟨sl₀, sl, hmk, hrun, h⟩

/-- An operation that returns has got all the bytes of its nodes. -/
theorem slStep_fits {op : BoundedSeq.Op α} {r : BoundedSeq.Result α × Slist α}
    (h : slStep sl op = some r) : OpFits op := by
  cases op with
  | expand delta =>
      rcases Option.map_eq_some_iff.mp h with ⟨sl', hexpand, -⟩
      exact (slExpand_asks hexpand).2
  | push d => trivial
  | append d => trivial
  | pop => trivial
  | mv2head d => trivial

theorem slRun_fits {ops : List (BoundedSeq.Op α)} {r : List (BoundedSeq.Result α) × Slist α}
    (h : slRun sl ops = some r) : ∀ op ∈ ops, OpFits op := by
  induction ops generalizing sl r with
  | nil => simp
  | cons op ops ih =>
      simp only [slRun, Option.bind_eq_bind, Option.bind_eq_some_iff, Prod.exists] at h
      rcases h with ⟨result, sl₁, hstep, results, sl₂, hrest, -⟩
      exact List.forall_mem_cons.mpr ⟨slStep_fits hstep, ih hrest⟩

/-- `mk_slist` makes a list that, used by the operations, returns what the bounded
sequence returns and represents it afterwards. -/
def SlistRefines (capacity : Nat) (ops : List (BoundedSeq.Op α)) : Prop :=
  ∃ sl₀ sl : Slist α, mkSlist capacity = some sl₀ ∧
    slRun sl₀ ops = some (((BoundedSeq.empty capacity).run ops).1, sl) ∧
    sl.Represents ((BoundedSeq.empty capacity).run ops).2

/-- A list made by `mk_slist` is a bounded sequence under any sequence of operations,
exactly when no byte count wraps: neither function asks whether its product does. -/
theorem slist_refines_iff {capacity : Nat} (hcap : 1 ≤ capacity) (ops : List (BoundedSeq.Op α))
    (hops : (BoundedSeq.empty capacity).AllowsAll ops) :
    SlistRefines capacity ops ↔ BytesFit capacity ops := by
  constructor
  · rintro ⟨sl₀, sl, hmk, hrun, -⟩
    exact ⟨(mkSlist_asks hmk).2, slRun_fits hrun⟩
  · intro hfit
    rcases mkSlist_run hcap hfit hops with ⟨sl₀, sl, hmk, hrun, h⟩
    exact ⟨sl₀, sl, hmk, hrun, represents_of_holds h⟩

/-- `slist_refines_iff` for a list of one node that is filled, expanded, filled and reordered. -/
theorem slist_refines_iff_expanded :
    ∃ sl₀ sl : Slist Nat, mkSlist 1 = some sl₀ ∧
      slRun sl₀ [.push 5, .push 6, .expand 1, .append 6, .mv2head 6, .pop] =
        some ([.code 0, .code 1, .done, .code 0, .code 0, .datum (some 6)], sl) ∧
      sl.Represents ⟨[5], 2, by decide⟩ := by
  rcases (slist_refines_iff (Nat.le_refl 1)
    [.push 5, .push 6, .expand 1, .append 6, .mv2head 6, .pop]
    ⟨trivial, trivial, Nat.le_refl 1, trivial, List.cons_ne_nil _ _, trivial, trivial⟩).mpr
    ⟨by decide, by simp [OpFits]⟩ with ⟨sl₀, sl, hmk, hrun, hrep⟩
  exact ⟨sl₀, sl, hmk, hrun, hrep⟩

/-- Of `2 ^ 60` more nodes the byte count is 0, and the loop links them behind the block. -/
theorem slExpand_wraps :
    nodesBytes (2 ^ 60) = 0 ∧ ¬ SlistRefines 1 ([.expand (2 ^ 60)] : List (BoundedSeq.Op Nat)) ∧
      ∃ sl₀ : Slist Nat, mkSlist 1 = some sl₀ ∧ slExpand (2 ^ 60) sl₀ = none := by
  have hwraps : ¬ 16 * 2 ^ 60 < 2 ^ 64 := by omega
  refine ⟨by decide, ?_, ?_⟩
  · rintro ⟨sl₀, sl, -, hrun, -⟩
    exact hwraps (slRun_fits hrun _ List.mem_cons_self)
  · rcases @mkSlist_holds Nat 1 (Nat.le_refl 1) (by decide) with ⟨sl₀, hmk, -⟩
    exact ⟨sl₀, hmk, if_pos (.inr (mt nodesBytes_holdsNodes_iff.mp hwraps))⟩

end DnsCache

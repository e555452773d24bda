import DnsCache.Lib.WordTree
import DnsCache.DaSearch

/-! # The tree in the double array

* `Edge`, `DaPath`: the states as a tree, with the characters on its edges.
* `Good`, `DaInv`: every state is reached by a word, the other cells are in the ring.
* `daWalk_iff`, `mem_daOutputSymbols`, `daHasChildren_iff`: the functions that read it.
* `FreeList.setBase`, `FreeList.setCheck`, `moveChildren_spec`, `relocateSymbol_spec`:
  the stores to the cells of states.
-/

namespace DnsCache

open WordTree

/-- A child of `p` on character `c`. -/
def Edge (N : Int → Option DACell) (p : Int) (c : UInt8) (i : Int) : Prop :=
  ∃ cp ci, N p = some cp ∧ 0 < cp.base ∧ i = cp.base + c.toNat ∧ N i = some ci ∧ ci.check = p

/-- The word leads from the root to the state. -/
abbrev DaPath (N : Int → Option DACell) : List UInt8 → Int → Prop := Path (Edge N) daGetRoot

/-- The states are a tree. No edge carries character 255. -/
structure Good (N : Int → Option DACell) : Prop where
  root : ∃ b, 0 < b ∧ N daGetRoot = some ⟨b, 0⟩
  low : ∀ {i c}, N i = some c → 2 ≤ i
  pool : ∀ {i c}, N i = some c → 0 < c.base → daPoolBegin ≤ c.base
  reach : ∀ {i c}, N i = some c → ∃ w, DaPath N w i
  small : ∀ {p c i}, Edge N p c i → c ≠ 255

/-- The invariant of the double array. -/
structure DaInv (d : DArray) (l : List Int) : Prop where
  free : FreeList d l
  good : Good d.node
  base_le : ∀ {i c}, d.node i = some c → c.base ≤ d.numCells

variable {d : DArray} {l : List Int} {N : Int → Option DACell} {p s i a b x v : Int}
  {w : List UInt8} {c sym : UInt8} {cs : DACell}

theorem toNat_toUInt8 {k : Nat} (h : k < 255) : k.toUInt8.toNat = k :=
  UInt8.toNat_ofNat_of_lt' (Nat.lt_trans h (by decide))

theorem toUInt8_toNat (c : UInt8) : c.toNat.toUInt8 = c := UInt8.ofNat_toNat

/-! ## The tree -/

theorem Good.isTree (h : Good N) : IsTree (Edge N) daGetRoot := by
  refine ⟨?_, ?_, ?_⟩
  · rintro p c i j ⟨cp, -, hp, -, rfl, -⟩ ⟨cp', -, hp', -, rfl, -⟩
    rw [hp] at hp'
    cases hp'
    rfl
  · rintro p c i p' c' ⟨cp, ci, hp, -, hi, hci, rfl⟩ ⟨cp', ci', hp', -, hi', hci', rfl⟩
    rw [hci] at hci'
    cases hci'
    rw [hp] at hp'
    cases hp'
    refine ⟨rfl, UInt8.toNat_inj.mp ?_⟩
    omega
  · rintro p c ⟨cp, ci, hp, -, -, hci, hcheck⟩
    rcases h.root with ⟨b, -, hroot⟩
    rw [hroot] at hci
    cases hci
    have hlow := h.low hp
    rw [← hcheck] at hlow
    have hzero : (2 : Int) ≤ 0 := hlow
    omega

/-- Every state but the root has its parent in its check. -/
theorem Good.parent (h : Good N) {ci : DACell} (hi : N i = some ci) (hne : i ≠ daGetRoot) :
    ∃ c, Edge N ci.check c i := by
  rcases h.reach hi with ⟨w, hw⟩
  cases hw with
  | nil => exact absurd rfl hne
  | @snoc w p c _ hp he =>
      obtain ⟨cp, ci', hcp, hpos, heq, hci, hcheck⟩ := he
      rw [hi] at hci
      cases hci
      exact ⟨c, cp, ci, by rwa [hcheck], hpos, heq, hi, rfl⟩

theorem Edge.node (h : Edge N p c i) : (∃ cp, N p = some cp ∧ 0 < cp.base) ∧
    ∃ ci, N i = some ci ∧ ci.check = p := by
  obtain ⟨cp, ci, hp, hpos, -, hi, hcheck⟩ := h
  exact ⟨⟨cp, hp, hpos⟩, ci, hi, hcheck⟩

/-- What a word leads to is a state. -/
theorem Good.node_of_path (h : Good N) (hw : DaPath N w i) : ∃ ci, N i = some ci := by
  cases hw with
  | nil =>
      rcases h.root with ⟨b, -, hroot⟩
      exact ⟨_, hroot⟩
  | snoc hp he =>
      rcases he.node.2 with ⟨ci, hci, -⟩
      exact ⟨ci, hci⟩

theorem Good.three_le (h : Good N) (hi : N i = some cs) (hne : i ≠ daGetRoot) : 3 ≤ i := by
  have := h.low hi
  unfold daGetRoot at hne
  omega

/-- A state whose base is not positive is a leaf. -/
theorem not_edge_of_base (hs : N s = some cs) (hb : cs.base ≤ 0) : ¬ Edge N s c i := by
  rintro ⟨cp, -, hp, hpos, -⟩
  rw [hs] at hp
  cases hp
  omega

/-! ## Reading the tree -/

theorem node_bounds (hs : d.node s = some cs) : 2 ≤ s ∧ s < d.numCells :=
  ⟨(node_eq_some.mp hs).1.1, (node_eq_some.mp hs).1.2.1⟩

theorem daGetBase_eq (hs : d.node s = some cs) : daGetBase d s = cs.base := (node_eq_some.mp hs).2.1

theorem edge_iff (hf : FreeList d l) (hs : d.node s = some cs) (hb : 0 < cs.base) :
    Edge d.node s c i ↔ i = cs.base + c.toNat ∧ daGetCheck d i = s := by
  have hsb := node_bounds hs
  rw [daGetCheck_eq_iff hf hsb.1 hsb.2]
  constructor
  · rintro ⟨cp, ci, hp, -, heq, hi, hcheck⟩
    rw [hs] at hp
    cases hp
    exact ⟨heq, ci, hi, hcheck⟩
  · rintro ⟨heq, ci, hi, hcheck⟩
    exact ⟨cs, ci, hs, hb, heq, hi, hcheck⟩

/-- `da_walk` follows the edges. -/
theorem daWalk_iff (hf : FreeList d l) (hs : d.node s = some cs) (hb : 0 < cs.base) :
    daWalk d s c = some i ↔ Edge d.node s c i := by
  rw [edge_iff hf hs hb, daWalk, daGetBase_eq hs]
  constructor
  · intro h
    split at h
    · rename_i hcheck
      cases h
      exact ⟨rfl, hcheck⟩
    · cases h
  · rintro ⟨rfl, hcheck⟩
    exact if_pos hcheck

/-- The characters below `max_c` are those of the edges. -/
theorem lt_maxC_iff (hf : FreeList d l) (hs : d.node s = some cs) (hb : 0 < cs.base) {k : Nat} :
    (k < maxC cs.base ∧ daGetCheck d (cs.base + k) = s) ↔
      k < 255 ∧ ∃ i, Edge d.node s k.toUInt8 i := by
  have hsb := node_bounds hs
  have hbound := hf.bound
  unfold maxC
  constructor
  · rintro ⟨hk, hcheck⟩
    have hk' : k < 255 := by omega
    refine ⟨hk', cs.base + k, (edge_iff hf hs hb).mpr ⟨?_, hcheck⟩⟩
    rw [toNat_toUInt8 (by omega)]
  · rintro ⟨hk, i, he⟩
    rcases (edge_iff hf hs hb).mp he with ⟨rfl, hcheck⟩
    rw [toNat_toUInt8 (by omega)] at hcheck
    rcases (daGetCheck_eq_iff hf hsb.1 hsb.2).mp hcheck with ⟨ci, hi, -⟩
    have := node_bounds hi
    exact ⟨by omega, hcheck⟩

theorem mem_daOutputSymbols (hf : FreeList d l) (hs : d.node s = some cs) (hb : 0 < cs.base) :
    c ∈ daOutputSymbols d s ↔ c ≠ 255 ∧ ∃ i, Edge d.node s c i := by
  have hc := c.toNat_lt
  have hc255 : c ≠ 255 ↔ c.toNat < 255 := by
    rw [Ne, ← UInt8.toNat_inj]
    have : (255 : UInt8).toNat = 255 := rfl
    omega
  simp only [daOutputSymbols, daGetBase_eq hs, List.mem_map, List.mem_filter, List.mem_range,
    decide_eq_true_eq, lt_maxC_iff hf hs hb]
  constructor
  · rintro ⟨k, ⟨hk, he⟩, rfl⟩
    refine ⟨?_, he⟩
    rw [hc255, toNat_toUInt8 (by omega)]
    exact hk
  · rintro ⟨hne, he⟩
    exact ⟨c.toNat, ⟨hc255.mp hne, by rwa [toUInt8_toNat]⟩, toUInt8_toNat c⟩

theorem daOutputSymbols_sorted (d : DArray) (s : Int) : (daOutputSymbols d s).Pairwise (· < ·) := by
  have hsub : ∀ k ∈ (List.range (maxC (daGetBase d s))).filter
      (fun c : Nat => daGetCheck d (daGetBase d s + c) = s), k < 255 := by
    intro k hk
    have := List.mem_range.mp (List.mem_filter.mp hk).1
    unfold maxC at this
    omega
  refine List.pairwise_map.mpr (List.Pairwise.imp_of_mem ?_
    (List.pairwise_lt_range.sublist List.filter_sublist))
  intro j k hj hk hlt
  have hj' := hsub j hj
  have hk' := hsub k hk
  rw [UInt8.lt_iff_toNat_lt, toNat_toUInt8 (by omega), toNat_toUInt8 (by omega)]
  exact hlt

/-- A node is taken for childless when it has no child on a character below 255. -/
theorem daHasChildren_iff (hf : FreeList d l) (hs : d.node s = some cs) :
    daHasChildren d s = true ↔ ∃ c i, c ≠ 255 ∧ Edge d.node s c i := by
  unfold daHasChildren
  simp only [daGetBase_eq hs]
  by_cases hb : 0 < cs.base
  · have hsome : ¬ (cs.base = trieIndexError ∨ cs.base < 0) := by
      unfold trieIndexError
      omega
    rw [if_neg hsome, List.any_eq_true]
    simp only [List.mem_range, decide_eq_true_eq, lt_maxC_iff hf hs hb]
    constructor
    · rintro ⟨k, hk, i, he⟩
      refine ⟨k.toUInt8, i, ?_, he⟩
      intro heq
      have := congrArg UInt8.toNat heq
      rw [toNat_toUInt8 (by omega)] at this
      exact absurd hk (by rw [this]; decide)
    · rintro ⟨c, i, hne, he⟩
      refine ⟨c.toNat, ?_, i, by rwa [toUInt8_toNat]⟩
      have hc := c.toNat_lt
      have : c.toNat ≠ 255 := fun h => hne (UInt8.toNat_inj.mp h)
      omega
  · have hnone : cs.base = trieIndexError ∨ cs.base < 0 := by
      unfold trieIndexError
      omega
    rw [if_pos hnone]
    constructor
    · intro h
      cases h
    · rintro ⟨c, i, -, he⟩
      exact absurd he (not_edge_of_base hs (by omega))

/-! ## Stores to states -/

/-- The cells of states are not on the ring. -/
theorem FreeList.not_mem_of_node (hf : FreeList d l) (hs : d.node s = some cs) :
    s ∉ daGetFreeList :: l := by
  intro hmem
  rcases List.mem_cons.mp hmem with rfl | hmem
  · exact absurd (node_bounds hs).1 (by decide)
  · rw [hf.node_of_mem hmem] at hs
    cases hs

theorem FreeList.setBase (hf : FreeList d l) (hs : d.node s = some cs) (v : Int) :
    FreeList (daSetBase d s v) l ∧
      (daSetBase d s v).node = Function.update d.node s (some ⟨v, cs.check⟩) := by
  have hsb := node_bounds hs
  have hcheck := daGetCheck_daSetBase (d := d) (v := v) (by omega : 0 ≤ s)
  have hbase := daGetBase_daSetBase (d := d) (v := v) (by omega : 1 ≤ s) hsb.2
  constructor
  · refine ⟨?_, ?_, ?_, ?_, ?_, hf.sorted, ?_⟩
    · rw [numCells_daSetBase]
      exact hf.size
    · rw [numCells_daSetBase]
      exact hf.bound
    · rw [cell_zero_daSetBase (by omega), numCells_daSetBase]
      exact hf.header
    · rw [hcheck]
      exact hf.root_check
    · rw [FreeList.nextFree_daSetBase (by omega), FreeList.prevFree_daSetBase (by omega) hsb.2]
      refine hf.ring.frame (fun _ _ => rfl) ?_
      intro y hy
      rw [Function.update_of_ne]
      rintro rfl
      apply hf.not_mem_of_node hs
      rcases List.mem_append.mp hy with h | h
      · exact List.mem_cons_of_mem _ h
      · rw [List.mem_singleton.mp h]
        exact List.mem_cons_self
    · intro i
      rw [numCells_daSetBase, hcheck]
      exact hf.mem_iff i
  · funext i
    rw [Function.update_apply]
    split
    · rename_i his
      rw [his, node_eq_some, hcheck, hbase, Function.update_self, numCells_daSetBase]
      exact ⟨(node_eq_some.mp hs).1, rfl, (node_eq_some.mp hs).2.2⟩
    · rename_i his
      apply FreeList.node_congr numCells_daSetBase
      rw [hcheck, hbase, Function.update_of_ne his]
      exact .inr (.inr ⟨rfl, rfl⟩)

theorem FreeList.setCheck (hf : FreeList d l) (hs : d.node s = some cs) (hne : s ≠ daGetRoot)
    (hv : 0 ≤ v) :
    FreeList (daSetCheck d s v) l ∧
      (daSetCheck d s v).node = Function.update d.node s (some ⟨cs.base, v⟩) := by
  have hsb := node_bounds hs
  have hsl := hf.not_mem_of_node hs
  have hcheck := daGetCheck_daSetCheck (d := d) (v := v) (by omega : 1 ≤ s) hsb.2
  have hbase := daGetBase_daSetCheck (d := d) (v := v) (by omega : 0 ≤ s)
  constructor
  · refine ⟨?_, ?_, ?_, ?_, ?_, hf.sorted, ?_⟩
    · rw [numCells_daSetCheck]
      exact hf.size
    · rw [numCells_daSetCheck]
      exact hf.bound
    · rw [cell_zero_daSetCheck (by omega), numCells_daSetCheck]
      exact hf.header
    · rw [hcheck, Function.update_of_ne hne.symm]
      exact hf.root_check
    · rw [FreeList.prevFree_daSetCheck (by omega), FreeList.nextFree_daSetCheck (by omega) hsb.2]
      refine hf.ring.frame ?_ (fun _ _ => rfl)
      intro y hy
      rw [Function.update_of_ne]
      rintro rfl
      exact hsl hy
    · intro i
      rw [numCells_daSetCheck, hcheck, Function.update_apply]
      split
      · rename_i his
        rw [his]
        exact iff_of_false (fun h => hsl (List.mem_cons_of_mem _ h)) (by omega)
      · exact hf.mem_iff i
  · funext i
    rw [Function.update_apply]
    split
    · rename_i his
      rw [his, node_eq_some, hcheck, hbase, Function.update_self, numCells_daSetCheck]
      exact ⟨⟨hsb.1, hsb.2, hv⟩, (node_eq_some.mp hs).2.1, rfl⟩
    · rename_i his
      apply FreeList.node_congr numCells_daSetCheck
      rw [hcheck, hbase, Function.update_of_ne his]
      exact .inr (.inr ⟨rfl, rfl⟩)

/-- The loop gives the children of `a` found below `base + k` to `b`. -/
theorem moveChildren_loop (hf : FreeList d l) {base : Int}
    (ha : d.node a = some cs) (hb : 0 ≤ b) (k : Nat) :
    let d' := (List.range k).foldl (fun d (c : Nat) =>
      if daGetCheck d (base + c) = a then daSetCheck d (base + c) b else d) d
    FreeList d' l ∧ d'.numCells = d.numCells ∧ ∀ x, d'.node x = (d.node x).map fun cx =>
      if cx.check = a ∧ base ≤ x ∧ x < base + k then ⟨cx.base, b⟩ else cx := by
  have hab := node_bounds ha
  induction k with
  | zero =>
      refine ⟨hf, rfl, fun x => ?_⟩
      have hnone : (fun cx : DACell =>
          if cx.check = a ∧ base ≤ x ∧ x < base + (0 : Nat) then (⟨cx.base, b⟩ : DACell) else cx) =
            id := by
        funext cx
        rw [if_neg (by omega)]
        rfl
      rw [hnone, Option.map_id]
      rfl
  | succ k ih =>
      simp only [List.range_succ, List.foldl_append, List.foldl_cons, List.foldl_nil] at ih ⊢
      generalize (List.range k).foldl (fun d (c : Nat) =>
        if daGetCheck d (base + c) = a then daSetCheck d (base + c) b else d) d = d' at ih ⊢
      rcases ih with ⟨hf', hn', hnode⟩
      have hcheck := daGetCheck_eq_iff hf' (i := base + k) hab.1 (by rw [hn']; exact hab.2)
      by_cases hk : daGetCheck d' (base + k) = a
      · rw [if_pos hk]
        rcases hcheck.mp hk with ⟨ck, hck, hcka⟩
        have hroot : base + k ≠ daGetRoot := by
          intro heq
          have := hf'.root_check
          rw [← heq, hk] at this
          omega
        rcases hf'.setCheck hck hroot hb with ⟨hf'', hnode'⟩
        refine ⟨hf'', by rw [numCells_daSetCheck, hn'], fun x => ?_⟩
        rw [hnode', Function.update_apply]
        by_cases hx : x = base + k
        · have hck' := hnode x
          rw [hx, hck] at hck'
          rw [if_pos hx, hx]
          rcases Option.map_eq_some_iff.mp hck'.symm with ⟨cx, hcx, hcx'⟩
          rw [if_neg (by omega)] at hcx'
          rw [hcx, hcx', Option.map_some, if_pos ⟨hcka, by omega⟩]
        · rw [if_neg hx, hnode]
          congr 1
          funext cx
          have hiff : (cx.check = a ∧ base ≤ x ∧ x < base + ((k + 1 : Nat) : Int)) ↔
              cx.check = a ∧ base ≤ x ∧ x < base + k := by omega
          simp only [hiff]
      · rw [if_neg hk]
        refine ⟨hf', hn', fun x => ?_⟩
        rw [hnode]
        by_cases hx : x = base + k
        · cases hcx : d.node x with
          | none => rfl
          | some cx =>
              have hcx' := hnode x
              rw [hcx, Option.map_some, if_neg (by omega)] at hcx'
              rw [Option.map_some, Option.map_some, if_neg (by omega), if_neg]
              rintro ⟨hca, -⟩
              rw [hx] at hcx'
              exact hk (hcheck.mpr ⟨cx, hcx', hca⟩)
        · congr 1
          funext cx
          have hiff : (cx.check = a ∧ base ≤ x ∧ x < base + ((k + 1 : Nat) : Int)) ↔
              cx.check = a ∧ base ≤ x ∧ x < base + k := by omega
          simp only [hiff]

/-- State `a` under the name `b`. -/
def moveNode (N : Int → Option DACell) (a b : Int) : Int → Option DACell := fun x =>
  if x = a then none
  else if x = b then N a
  else (N x).map fun cx => if cx.check = a then ⟨cx.base, b⟩ else cx

/-- A round of `da_relocate_base`: a child of `s` is moved with all that it has. -/
theorem relocateSymbol_spec (hf : FreeList d l) {oldBase newBase : Int}
    (ha : d.node (oldBase + sym.toNat) = some ⟨v, s⟩) (ha3 : 3 ≤ oldBase + sym.toNat)
    (hb : newBase + sym.toNat ∈ l) (hs : 0 ≤ s) (hne : s ≠ oldBase + sym.toNat)
    (hchildren : ∀ x cx, d.node x = some cx → cx.check = oldBase + sym.toNat →
      0 < v ∧ ∃ e : UInt8, e ≠ 255 ∧ x = v + e.toNat) :
    ∃ l', FreeList (relocateSymbol s oldBase newBase d sym) l' ∧
      (relocateSymbol s oldBase newBase d sym).numCells = d.numCells ∧
      (relocateSymbol s oldBase newBase d sym).node =
        moveNode d.node (oldBase + sym.toNat) (newBase + sym.toNat) := by
  generalize hadef : oldBase + (sym.toNat : Int) = a at *
  generalize hbdef : newBase + (sym.toNat : Int) = b at *
  have hbmem := (hf.mem_iff b).mp hb
  have hbnone := hf.node_of_mem hb
  have hab : a ≠ b := by
    rintro rfl
    rw [hbnone] at ha
    cases ha
  have hbound := hf.bound
  -- the new cell with the old base
  rcases hf.take hb hs with ⟨hf₁, bb, -, hnode₁⟩
  have hb₁ : (takeCell d s b).node b = some ⟨bb, s⟩ := by rw [hnode₁, Function.update_self]
  rcases hf₁.setBase hb₁ v with ⟨hf₂, hnode₂⟩
  have hn₂ : (daSetBase (takeCell d s b) b v).numCells = d.numCells := by
    rw [numCells_daSetBase, FreeList.numCells_takeCell]
  have hnode₂' : ∀ x, (daSetBase (takeCell d s b) b v).node x =
      if x = b then some ⟨v, s⟩ else d.node x := by
    intro x
    rw [hnode₂, Function.update_apply, hnode₁, Function.update_apply]
    split <;> rfl
  have ha₂ : (daSetBase (takeCell d s b) b v).node a = some ⟨v, s⟩ := by
    rw [hnode₂', if_neg hab, ha]
  have hbase : daGetBase d a = v := daGetBase_eq ha
  have hrel : relocateSymbol s oldBase newBase d sym =
      daFreeCell (if 0 < v then moveChildren (daSetBase (takeCell d s b) b v) v a b
        else daSetBase (takeCell d s b) b v) a := by
    rw [relocateSymbol, hadef, hbdef, hbase]
    rfl
  generalize daSetBase (takeCell d s b) b v = d₂ at *
  -- the children
  have hmove : ∃ d₃, (if 0 < v then moveChildren d₂ v a b else d₂) = d₃ ∧
      FreeList d₃ (l.erase b) ∧ d₃.numCells = d.numCells ∧ ∀ x, d₃.node x = (d₂.node x).map fun cx =>
        if cx.check = a then ⟨cx.base, b⟩ else cx := by
    by_cases hv : 0 < v
    · rcases moveChildren_loop hf₂ ha₂ (by omega : 0 ≤ b) (maxC v) with ⟨hf₃, hn₃, hnode₃⟩
      refine ⟨_, if_pos hv, hf₃, hn₃.trans hn₂, fun x => ?_⟩
      refine (hnode₃ x).trans ?_
      cases hcx : d₂.node x with
      | none => rfl
      | some cx =>
          rw [Option.map_some, Option.map_some]
          by_cases hca : cx.check = a
          · -- children are found below character 255
            have hin : v ≤ x ∧ x < v + (maxC v : Nat) := by
              rw [hnode₂'] at hcx
              split at hcx
              · cases hcx
                exact absurd hca hne
              · rcases hchildren x cx hcx hca with ⟨-, e, he, rfl⟩
                have hx := node_bounds hcx
                have he' := e.toNat_lt
                have : e.toNat ≠ 255 := fun h => he (UInt8.toNat_inj.mp h)
                unfold maxC
                omega
            rw [if_pos ⟨hca, hin⟩, if_pos hca]
          · rw [if_neg hca, if_neg (fun h => hca h.1)]
    · refine ⟨d₂, if_neg hv, hf₂, hn₂, fun x => ?_⟩
      cases hcx : d₂.node x with
      | none => rfl
      | some cx =>
          rw [Option.map_some, if_neg]
          intro hca
          rw [hnode₂'] at hcx
          split at hcx
          · cases hcx
            exact hne hca
          · exact hv (hchildren x cx hcx hca).1
  rcases hmove with ⟨d₃, hd₃, hf₃, hn₃, hnode₃⟩
  rw [hrel, hd₃]
  have ha₃ : d₃.node a = some ⟨v, s⟩ := by
    rw [hnode₃, ha₂, Option.map_some, if_neg hne]
  rcases hf₃.free ha3 ha₃ with ⟨hf₄, hnode₄⟩
  refine ⟨_, hf₄, by rw [FreeList.numCells_daFreeCell, hn₃], ?_⟩
  funext x
  rw [hnode₄, Function.update_apply, moveNode]
  split
  · rfl
  · rename_i hxa
    rw [hnode₃, hnode₂']
    split
    · rw [ha, Option.map_some, if_neg hne]
    · rfl

end DnsCache

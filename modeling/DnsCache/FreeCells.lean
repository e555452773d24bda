import Mathlib.Data.Int.Interval
import DnsCache.Lib.Ascending
import DnsCache.DArray

/-! # The free cells of the double array

* `FreeList`: the ring through cell 1 holds the free cells in ascending order.
* `DArray.node`: the states, as a partial map of cells.
* `FreeList.extend`, `FreeList.take`, `FreeList.free`: the three operations on
  the ring, with the states they leave.
* `FreeList.freeFrom_eq`: what the loops over the ring find.
-/

namespace DnsCache

variable {d : DArray} {s t v i a x : Int} {l : List Int}

/-! ## Stores to cells -/

@[simp] theorem numCells_daSetBase : (daSetBase d s v).numCells = d.numCells := by
  unfold daSetBase DArray.numCells
  split
  · rw [List.length_set]
  · rfl

@[simp] theorem numCells_daSetCheck : (daSetCheck d s v).numCells = d.numCells := by
  unfold daSetCheck DArray.numCells
  split
  · rw [List.length_set]
  · rfl

/-- The cells after a store. -/
theorem cell_set (c : DACell) (hs : 0 ≤ s) (hn : s < d.numCells) :
    (DArray.mk (d.cells.set s.toNat c)).cell t = if t.toNat = s.toNat then c else d.cell t := by
  have hlt : s.toNat < d.cells.length := by
    unfold DArray.numCells at hn
    omega
  unfold DArray.cell
  rw [List.getD_eq_getElem?_getD, List.getD_eq_getElem?_getD, List.getElem?_set]
  by_cases h : t.toNat = s.toNat
  · rw [if_pos h.symm, h, if_pos hlt, if_pos rfl, Option.getD_some]
  · rw [if_neg (Ne.symm h), if_neg h]

theorem daGetBase_daSetBase (hs : 1 ≤ s) (hn : s < d.numCells) :
    daGetBase (daSetBase d s v) = Function.update (daGetBase d) s v := by
  funext t
  rw [Function.update_apply]
  unfold daGetBase
  rw [numCells_daSetBase, daSetBase, if_pos hn, cell_set _ (by omega) hn]
  by_cases h : t = s
  · rw [if_pos h, h, if_pos hn, if_pos rfl]
  · rw [if_neg h, if_neg (by omega : ¬ t.toNat = s.toNat)]

theorem daGetCheck_daSetCheck (hs : 1 ≤ s) (hn : s < d.numCells) :
    daGetCheck (daSetCheck d s v) = Function.update (daGetCheck d) s v := by
  funext t
  rw [Function.update_apply]
  unfold daGetCheck
  rw [numCells_daSetCheck, daSetCheck, if_pos hn, cell_set _ (by omega) hn]
  by_cases h : t = s
  · rw [if_pos h, h, if_pos hn, if_pos rfl]
  · rw [if_neg h, if_neg (by omega : ¬ t.toNat = s.toNat)]

theorem daGetCheck_daSetBase (hs : 0 ≤ s) : daGetCheck (daSetBase d s v) = daGetCheck d := by
  funext t
  unfold daGetCheck
  rw [numCells_daSetBase]
  by_cases hn : s < d.numCells
  · rw [daSetBase, if_pos hn, cell_set _ hs hn]
    by_cases h : t.toNat = s.toNat
    · have hcell : d.cell t = d.cell s := by rw [DArray.cell, DArray.cell, h]
      rw [if_pos h, hcell]
    · rw [if_neg h]
  · rw [daSetBase, if_neg hn]

theorem daGetBase_daSetCheck (hs : 0 ≤ s) : daGetBase (daSetCheck d s v) = daGetBase d := by
  funext t
  unfold daGetBase
  rw [numCells_daSetCheck]
  by_cases hn : s < d.numCells
  · rw [daSetCheck, if_pos hn, cell_set _ hs hn]
    by_cases h : t.toNat = s.toNat
    · have hcell : d.cell t = d.cell s := by rw [DArray.cell, DArray.cell, h]
      rw [if_pos h, hcell]
    · rw [if_neg h]
  · rw [daSetCheck, if_neg hn]

/-- A store elsewhere leaves the header alone. -/
theorem cell_zero_daSetBase (hs : 1 ≤ s) : (daSetBase d s v).cell 0 = d.cell 0 := by
  unfold daSetBase
  split
  · rename_i hn
    rw [cell_set _ (by omega) hn, if_neg (by simp; omega)]
  · rfl

theorem cell_zero_daSetCheck (hs : 1 ≤ s) : (daSetCheck d s v).cell 0 = d.cell 0 := by
  unfold daSetCheck
  split
  · rename_i hn
    rw [cell_set _ (by omega) hn, if_neg (by simp; omega)]
  · rfl

/-! ## The ring -/

/-- The free cell before this one. -/
def prevFree (d : DArray) (i : Int) : Int := -daGetBase d i

/-- The free cells in ascending order, and the header with the number of cells. -/
structure FreeList (d : DArray) (l : List Int) : Prop where
  size : 3 ≤ d.numCells
  bound : d.numCells ≤ trieIndexMax
  header : d.cell 0 = ⟨daSignature, d.numCells⟩
  root_check : daGetCheck d daGetRoot = 0
  ring : Ring.Linked (nextFree d) (prevFree d) daGetFreeList l daGetFreeList
  sorted : l.Pairwise (· < ·)
  mem_iff : ∀ i, i ∈ l ↔ 3 ≤ i ∧ i < d.numCells ∧ daGetCheck d i < 0

/-- The state that a cell holds. -/
def DArray.node (d : DArray) (i : Int) : Option DACell :=
  if 2 ≤ i ∧ i < d.numCells ∧ 0 ≤ daGetCheck d i then some ⟨daGetBase d i, daGetCheck d i⟩ else none

theorem node_eq_some {c : DACell} : d.node i = some c ↔
    (2 ≤ i ∧ i < d.numCells ∧ 0 ≤ c.check) ∧ daGetBase d i = c.base ∧ daGetCheck d i = c.check := by
  unfold DArray.node
  constructor
  · intro h
    split at h
    · rename_i hi
      cases h
      exact ⟨hi, rfl, rfl⟩
    · cases h
  · rintro ⟨⟨h2, hn, hc⟩, hbase, hcheck⟩
    rw [← hcheck] at hc
    rw [if_pos ⟨h2, hn, hc⟩, hbase, hcheck]

/-- Which cell has which check, for a state as parent. -/
theorem daGetCheck_eq_iff (hf : FreeList d l) {p : Int} (hp : 2 ≤ p) (hpn : p < d.numCells) :
    daGetCheck d i = p ↔ ∃ c, d.node i = some c ∧ c.check = p := by
  constructor
  · intro h
    have hn : i < d.numCells := by
      by_contra hn
      rw [daGetCheck, if_neg hn] at h
      unfold trieIndexError at h
      omega
    have h2 : 2 ≤ i := by
      by_contra h2
      by_cases h1 : i = 1
      · -- the check of cell 1 leads to a free cell
        have hmem := hf.ring.next_mem
        have hnext : nextFree d 1 = -p := by rw [nextFree, ← h1, h]
        unfold daGetFreeList at hmem
        rw [hnext] at hmem
        rcases List.mem_append.mp hmem with hmem | hmem
        · have := ((hf.mem_iff _).mp hmem).1
          omega
        · have := List.mem_singleton.mp hmem
          omega
      · -- the check of cell 0 is the number of cells
        have hcell : d.cell i = d.cell 0 := by
          rw [DArray.cell, DArray.cell, show i.toNat = 0 by omega]
          rfl
        rw [daGetCheck, if_pos hn, hcell, hf.header] at h
        have : d.numCells = p := h
        omega
    exact ⟨⟨daGetBase d i, p⟩, node_eq_some.mpr ⟨⟨h2, hn, by show 0 ≤ p; omega⟩, rfl, h⟩, rfl⟩
  · rintro ⟨c, hc, rfl⟩
    exact (node_eq_some.mp hc).2.2

namespace FreeList

theorem nodup (hf : FreeList d l) : (daGetFreeList :: l).Nodup := by
  refine List.nodup_cons.mpr ⟨?_, hf.sorted.imp fun h => Int.ne_of_lt h⟩
  intro hmem
  have := ((hf.mem_iff _).mp hmem).1
  unfold daGetFreeList at this
  omega

theorem node_of_mem (hf : FreeList d l) (hx : x ∈ l) : d.node x = none := by
  have hcheck := ((hf.mem_iff x).mp hx).2.2
  rw [DArray.node, if_neg]
  omega

theorem mem_of_node_none (hf : FreeList d l) (h3 : 3 ≤ x) (hn : x < d.numCells)
    (h : d.node x = none) : x ∈ l := by
  rw [hf.mem_iff]
  refine ⟨h3, hn, ?_⟩
  by_contra hcheck
  rw [DArray.node, if_pos ⟨by omega, hn, by omega⟩] at h
  cases h

/-- The neighbours of a free cell are cells of the array. -/
theorem mem_bounds (hf : FreeList d l) {y : Int} (hy : y ∈ daGetFreeList :: l) :
    1 ≤ y ∧ y < d.numCells := by
  rcases List.mem_cons.mp hy with rfl | hmem
  · have := hf.size
    unfold daGetFreeList
    omega
  · have := (hf.mem_iff y).mp hmem
    omega

theorem mem_bounds' (hf : FreeList d l) {y : Int} (hy : y ∈ l ++ [daGetFreeList]) :
    1 ≤ y ∧ y < d.numCells := by
  apply hf.mem_bounds
  rcases List.mem_append.mp hy with hmem | hmem
  · exact List.mem_cons_of_mem _ hmem
  · rw [List.mem_singleton.mp hmem]
    exact List.mem_cons_self

/-- The stores to one cell of a ring, seen from the ring. -/
theorem nextFree_daSetCheck (hs : 1 ≤ s) (hn : s < d.numCells) :
    nextFree (daSetCheck d s v) = Function.update (nextFree d) s (-v) := by
  funext t
  simp only [nextFree, daGetCheck_daSetCheck hs hn, Function.update_apply]
  split <;> rfl

theorem prevFree_daSetBase (hs : 1 ≤ s) (hn : s < d.numCells) :
    prevFree (daSetBase d s v) = Function.update (prevFree d) s (-v) := by
  funext t
  simp only [prevFree, daGetBase_daSetBase hs hn, Function.update_apply]
  split <;> rfl

theorem nextFree_daSetBase (hs : 0 ≤ s) : nextFree (daSetBase d s v) = nextFree d := by
  funext t
  rw [nextFree, nextFree, daGetCheck_daSetBase hs]

theorem prevFree_daSetCheck (hs : 0 ≤ s) : prevFree (daSetCheck d s v) = prevFree d := by
  funext t
  rw [prevFree, prevFree, daGetBase_daSetCheck hs]

/-- There are fewer free cells than cells. -/
theorem length_lt (hf : FreeList d l) : l.length + 3 ≤ d.cells.length := by
  have hsub : l.toFinset ⊆ Finset.Ico 3 d.numCells := by
    intro i hi
    have := (hf.mem_iff i).mp (List.mem_toFinset.mp hi)
    exact Finset.mem_Ico.mpr ⟨this.1, this.2.1⟩
  have hcard := Finset.card_le_card hsub
  rw [List.toFinset_card_of_nodup (List.nodup_cons.mp hf.nodup).2, Int.card_Ico] at hcard
  have hsize := hf.size
  unfold DArray.numCells at hcard hsize
  omega

/-- The first free cell from a bound on, or the head of the ring. -/
theorem freeFrom_eq (hf : FreeList d l) (bound : Int) :
    freeFrom d bound = (l.dropWhile (· < bound)).head?.getD daGetFreeList := by
  have hring := hf.ring
  rw [← List.takeWhile_append_dropWhile (p := fun i => decide (i < bound)) (l := l)] at hring
  refine hring.walkWhile_eq ?_ ?_ ?_
  · intro y hy
    have hlt := List.mem_takeWhile_imp hy
    have hmem := (List.takeWhile_sublist _).subset hy
    have h3 := ((hf.mem_iff y).mp hmem).1
    refine decide_eq_true ⟨?_, of_decide_eq_true hlt⟩
    unfold daGetFreeList
    omega
  · apply decide_eq_false
    rintro ⟨hne, hlt⟩
    cases hdrop : l.dropWhile (fun i => decide (i < bound)) with
    | nil =>
        rw [hdrop] at hne
        exact hne rfl
    | cons y m =>
        rw [hdrop] at hlt
        have hhead := List.head_dropWhile_not (fun i => decide (i < bound)) (by rw [hdrop]; simp)
        simp only [hdrop, List.head_cons, decide_eq_false_iff_not] at hhead
        exact hhead hlt
  · have hlen := (List.takeWhile_sublist (fun i => decide (i < bound)) (l := l)).length_le
    have := hf.length_lt
    omega

/-- A cell whose contents did not change, or which is free before and after. -/
theorem node_congr {d' : DArray} (hn : d'.numCells = d.numCells)
    (h : i < 2 ∨ (daGetCheck d i < 0 ∧ daGetCheck d' i < 0) ∨
      daGetCheck d' i = daGetCheck d i ∧ daGetBase d' i = daGetBase d i) :
    d'.node i = d.node i := by
  unfold DArray.node
  rw [hn]
  rcases h with h | h | h
  · rw [if_neg (by omega), if_neg (by omega)]
  · rw [if_neg (by omega), if_neg (by omega)]
  · rw [h.1, h.2]

@[simp] theorem numCells_takeCell : (takeCell d s x).numCells = d.numCells := by
  rw [takeCell, numCells_daSetCheck, daAllocCell, numCells_daSetBase, numCells_daSetCheck]

/-- A free cell becomes a state. Its base is still what the ring left there. -/
theorem take (hf : FreeList d l) (hx : x ∈ l) (hs : 0 ≤ s) :
    FreeList (takeCell d s x) (l.erase x) ∧
      ∃ b, b < 0 ∧ (takeCell d s x).node = Function.update d.node x (some ⟨b, s⟩) := by
  have hp : prevFree d x ∈ daGetFreeList :: l := hf.ring.prev_mem_of_mem hx
  have hq : nextFree d x ∈ l ++ [daGetFreeList] := hf.ring.next_mem_of_mem hx
  generalize hpdef : prevFree d x = p at hp
  generalize hqdef : nextFree d x = q at hq
  have hpb := hf.mem_bounds hp
  have hqb := hf.mem_bounds' hq
  have hxb := (hf.mem_iff x).mp hx
  have halloc : daAllocCell d x = daSetBase (daSetCheck d p (-q)) q (-p) := by
    rw [daAllocCell, ← hpdef, ← hqdef]
    rfl
  have hnext : nextFree (takeCell d s x) =
      Function.update (Function.update (nextFree d) p q) x (-s) := by
    rw [takeCell, halloc, nextFree_daSetCheck (by omega) (by simpa using hxb.2.1),
      nextFree_daSetBase (by omega), nextFree_daSetCheck hpb.1 hpb.2, Int.neg_neg]
  have hprev : prevFree (takeCell d s x) = Function.update (prevFree d) q p := by
    rw [takeCell, halloc, prevFree_daSetCheck (by omega), prevFree_daSetBase hqb.1 (by simpa using hqb.2),
      prevFree_daSetCheck (by omega), Int.neg_neg]
  have hcheck : ∀ i, daGetCheck (takeCell d s x) i =
      if i = x then s else if i = p then -q else daGetCheck d i := by
    intro i
    have h := congrFun hnext i
    simp only [nextFree, Function.update_apply] at h
    split <;> rename_i hi
    · rw [if_pos hi] at h
      omega
    · rw [if_neg hi] at h
      split <;> rename_i hip
      · rw [if_pos hip] at h
        omega
      · rw [if_neg hip] at h
        omega
  have hbase : ∀ i, daGetBase (takeCell d s x) i = if i = q then -p else daGetBase d i := by
    intro i
    have h := congrFun hprev i
    simp only [prevFree, Function.update_apply] at h
    split <;> rename_i hi
    · rw [if_pos hi] at h
      omega
    · rw [if_neg hi] at h
      omega
  -- the cell is cut out of the ring
  rcases List.append_of_mem hx with ⟨u, v, rfl⟩
  have hnodup := hf.nodup
  have hxu : x ∉ u := by
    intro hmem
    rcases List.nodup_append.mp (List.nodup_cons.mp hnodup).2 with ⟨-, -, hdisj⟩
    exact hdisj x hmem x List.mem_cons_self rfl
  have herase : (u ++ x :: v).erase x = u ++ v := by
    rw [List.erase_append_right _ hxu, List.erase_cons_head]
  have hxuv : x ∉ daGetFreeList :: (u ++ v) := by
    intro hmem
    have hperm : (daGetFreeList :: (u ++ x :: v)).Perm (x :: daGetFreeList :: (u ++ v)) :=
      (List.perm_middle.cons _).trans (List.Perm.swap ..)
    exact (List.nodup_cons.mp (hperm.nodup_iff.mp hnodup)).1 hmem
  have hqx : q ≠ x := by
    rintro rfl
    have hcut := (Ring.Linked.append_iff.mp hf.ring).2
    have hmem := hcut.next_mem
    rw [hqdef] at hmem
    apply hxuv
    rcases List.mem_append.mp hmem with hmem | hmem
    · exact List.mem_cons_of_mem _ (List.mem_append_right _ hmem)
    · rw [List.mem_singleton.mp hmem]
      exact List.mem_cons_self
  have hpx : p ≠ x := by
    rintro rfl
    have hcut := (Ring.Linked.append_iff.mp hf.ring).1
    have hmem := hcut.prev_mem
    rw [hpdef] at hmem
    rcases List.mem_cons.mp hmem with heq | hmem
    · exact hxuv (by rw [← heq]; exact List.mem_cons_self)
    · exact hxu hmem
  have hfree : ∀ i ∈ daGetFreeList :: (u ++ x :: v), i < 2 ∨ daGetCheck d i < 0 := by
    intro i hi
    rcases List.mem_cons.mp hi with rfl | hi
    · exact .inl (by decide)
    · exact .inr ((hf.mem_iff i).mp hi).2.2
  constructor
  · refine ⟨?_, ?_, ?_, ?_, ?_, ?_, ?_⟩
    · rw [numCells_takeCell]
      exact hf.size
    · rw [numCells_takeCell]
      exact hf.bound
    · rw [takeCell, cell_zero_daSetCheck (by omega), halloc, cell_zero_daSetBase hqb.1,
        cell_zero_daSetCheck hpb.1, numCells_daSetCheck, numCells_daSetBase, numCells_daSetCheck]
      exact hf.header
    · have hroot := hf.root_check
      rw [hcheck, if_neg, if_neg, hroot]
      · rintro rfl
        rcases hfree _ hp with h | h
        · exact absurd h (by decide)
        · rw [hroot] at h
          exact absurd h (by decide)
      · unfold daGetRoot
        omega
    · rw [herase]
      have hcut := hf.ring.unlink hnodup
      rw [hpdef, hqdef, ← hprev] at hcut
      refine hcut.frame ?_ fun _ _ => rfl
      intro y hy
      rw [hnext, Function.update_of_ne]
      rintro rfl
      exact hxuv hy
    · exact hf.sorted.sublist List.erase_sublist
    · intro i
      rw [numCells_takeCell, hcheck, (List.nodup_cons.mp hnodup).2.mem_erase_iff, hf.mem_iff]
      by_cases hix : i = x
      · simp [hix, Int.not_lt.mpr hs]
      · rw [if_neg hix]
        by_cases hip : i = p
        · have hpcheck := hfree _ hp
          rw [if_pos hip, hip]
          constructor
          · rintro ⟨-, h⟩
            exact ⟨h.1, h.2.1, by omega⟩
          · rintro h
            exact ⟨hpx, h.1, h.2.1, by omega⟩
        · rw [if_neg hip]
          exact and_iff_right hix
  · refine ⟨-p, by omega, ?_⟩
    funext i
    by_cases hix : i = x
    · have hbx : daGetBase d x = -p := by
        have : -daGetBase d x = p := hpdef
        omega
      rw [hix, Function.update_self, node_eq_some, hcheck, hbase, if_pos rfl, if_neg hqx.symm,
        numCells_takeCell]
      exact ⟨⟨by omega, hxb.2.1, hs⟩, hbx, rfl⟩
    · rw [Function.update_of_ne hix]
      apply node_congr numCells_takeCell
      rw [hcheck, hbase, if_neg hix]
      by_cases hi : i ∈ daGetFreeList :: (u ++ x :: v)
      · rcases hfree i hi with h | h
        · exact .inl h
        · right
          left
          refine ⟨h, ?_⟩
          split
          · omega
          · exact h
      · right
        right
        have hip : i ≠ p := by
          rintro rfl
          exact hi hp
        have hiq : i ≠ q := by
          rintro rfl
          apply hi
          rcases List.mem_append.mp hq with hmem | hmem
          · exact List.mem_cons_of_mem _ hmem
          · rw [List.mem_singleton.mp hmem]
            exact List.mem_cons_self
        rw [if_neg hip, if_neg hiq]
        exact ⟨rfl, rfl⟩

@[simp] theorem numCells_daFreeCell : (daFreeCell d a).numCells = d.numCells := by
  simp only [daFreeCell, numCells_daSetBase, numCells_daSetCheck]

/-- A state becomes a free cell, in its place in the ring. -/
theorem free (hf : FreeList d l) (ha : 3 ≤ a) {c : DACell} (hc : d.node a = some c) :
    FreeList (daFreeCell d a) (Ascending.insert l a) ∧
      (daFreeCell d a).node = Function.update d.node a none := by
  have hsplit : l.takeWhile (fun i => decide (i < a)) ++ l.dropWhile (fun i => decide (i < a)) = l :=
    List.takeWhile_append_dropWhile
  have hfrom := hf.freeFrom_eq a
  have hal : a ∉ l := by
    intro hmem
    rw [hf.node_of_mem hmem] at hc
    cases hc
  have hab : a < d.numCells := (node_eq_some.mp hc).1.2.1
  have hsorted := Ascending.insert_pairwise hf.sorted hal
  unfold Ascending.insert at hsorted ⊢
  generalize l.takeWhile (fun i => decide (i < a)) = u at hsplit hsorted ⊢
  generalize l.dropWhile (fun i => decide (i < a)) = v at hsplit hfrom hsorted ⊢
  subst hsplit
  generalize hqdef : freeFrom d a = q at hfrom
  have hq : q ∈ u ++ v ++ [daGetFreeList] := by
    rw [hfrom]
    cases v with
    | nil => simp
    | cons y v => simp
  have hprevmem : prevFree d q ∈ daGetFreeList :: (u ++ v) := by
    rcases List.mem_append.mp hq with hmem | hmem
    · exact hf.ring.prev_mem_of_mem hmem
    · rw [List.mem_singleton.mp hmem]
      exact hf.ring.prev_mem
  generalize hpdef : prevFree d q = p at hprevmem
  have hpb := hf.mem_bounds hprevmem
  have hqb := hf.mem_bounds' hq
  have hfreed : daFreeCell d a =
      daSetBase (daSetCheck (daSetBase (daSetCheck d a (-q)) a (-p)) p (-a)) q (-a) := by
    rw [← hpdef, ← hqdef]
    rfl
  have hnext : nextFree (daFreeCell d a) =
      Function.update (Function.update (nextFree d) a q) p a := by
    rw [hfreed, nextFree_daSetBase (by omega), nextFree_daSetCheck hpb.1 (by simpa using hpb.2),
      nextFree_daSetBase (by omega), nextFree_daSetCheck (by omega) hab, Int.neg_neg, Int.neg_neg]
  have hprev : prevFree (daFreeCell d a) =
      Function.update (Function.update (prevFree d) a p) q a := by
    rw [hfreed, prevFree_daSetBase hqb.1 (by simpa using hqb.2), prevFree_daSetCheck (by omega),
      prevFree_daSetBase (by omega) (by simpa using hab), prevFree_daSetCheck (by omega),
      Int.neg_neg, Int.neg_neg]
  have hcheck : ∀ i, daGetCheck (daFreeCell d a) i =
      if i = p then -a else if i = a then -q else daGetCheck d i := by
    intro i
    have h := congrFun hnext i
    simp only [nextFree, Function.update_apply] at h
    split at h
    · rename_i hi
      rw [if_pos hi]
      omega
    · rename_i hi
      rw [if_neg hi]
      split at h
      · rename_i hia
        rw [if_pos hia]
        omega
      · rename_i hia
        rw [if_neg hia]
        omega
  have hbase : ∀ i, i ≠ q → i ≠ a → daGetBase (daFreeCell d a) i = daGetBase d i := by
    intro i hiq hia
    have h := congrFun hprev i
    rw [Function.update_of_ne hiq, Function.update_of_ne hia] at h
    simp only [prevFree] at h
    omega
  have hnodup : (a :: daGetFreeList :: (u ++ v)).Nodup := by
    refine List.nodup_cons.mpr ⟨?_, hf.nodup⟩
    intro hmem
    rcases List.mem_cons.mp hmem with rfl | hmem
    · exact absurd ha (by decide)
    · exact hal hmem
  have hpa : p ≠ a := by
    rintro rfl
    exact (List.nodup_cons.mp hnodup).1 hprevmem
  have hfree : ∀ i ∈ daGetFreeList :: (u ++ v), i < 2 ∨ daGetCheck d i < 0 := by
    intro i hi
    rcases List.mem_cons.mp hi with rfl | hi
    · exact .inl (by decide)
    · exact .inr ((hf.mem_iff i).mp hi).2.2
  constructor
  · refine ⟨?_, ?_, ?_, ?_, ?_, ?_, ?_⟩
    · rw [numCells_daFreeCell]
      exact hf.size
    · rw [numCells_daFreeCell]
      exact hf.bound
    · rw [hfreed, cell_zero_daSetBase hqb.1, cell_zero_daSetCheck hpb.1,
        cell_zero_daSetBase (by omega), cell_zero_daSetCheck (by omega), ← hfreed,
        numCells_daFreeCell]
      exact hf.header
    · have hroot := hf.root_check
      rw [hcheck, if_neg, if_neg, hroot]
      · unfold daGetRoot
        omega
      · rintro rfl
        rcases hfree _ hprevmem with h | h
        · exact absurd h (by decide)
        · rw [hroot] at h
          exact absurd h (by decide)
    · rw [hnext, hprev, ← hpdef]
      exact hf.ring.link hnodup hfrom
    · exact hsorted
    · intro i
      have hmem : i ∈ u ++ a :: v ↔ i = a ∨ i ∈ u ++ v := by simp [or_left_comm]
      rw [hmem, numCells_daFreeCell, hcheck, hf.mem_iff]
      by_cases hip : i = p
      · have hpcheck := hfree _ hprevmem
        rw [if_pos hip, hip]
        constructor
        · rintro (h | h)
          · exact absurd h hpa
          · exact ⟨h.1, h.2.1, by omega⟩
        · rintro h
          exact .inr ⟨h.1, h.2.1, by omega⟩
      · rw [if_neg hip]
        by_cases hia : i = a
        · rw [if_pos hia, hia]
          exact iff_of_true (.inl rfl) ⟨ha, hab, by omega⟩
        · rw [if_neg hia]
          exact or_iff_right hia
  · funext i
    by_cases hia : i = a
    · rw [hia, Function.update_self, DArray.node, hcheck, if_neg hpa.symm, if_pos rfl, if_neg]
      omega
    · rw [Function.update_of_ne hia]
      apply node_congr numCells_daFreeCell
      by_cases hi : i ∈ daGetFreeList :: (u ++ v)
      · rcases hfree i hi with h | h
        · exact .inl h
        · right
          left
          rw [hcheck, if_neg hia]
          refine ⟨h, ?_⟩
          split
          · omega
          · exact h
      · right
        right
        have hip : i ≠ p := by
          rintro rfl
          exact hi hprevmem
        have hiq : i ≠ q := by
          rintro rfl
          apply hi
          rcases List.mem_append.mp hq with hmem | hmem
          · exact List.mem_cons_of_mem _ hmem
          · rw [List.mem_singleton.mp hmem]
            exact List.mem_cons_self
        rw [hcheck, if_neg hip, if_neg hia, hbase i hiq hia]
        exact ⟨rfl, rfl⟩

end FreeList

/-! ## More cells -/

/-- `count` cells from `b` on. -/
def cellsFrom : Int → Nat → List Int
  | _, 0 => []
  | b, count + 1 => b :: cellsFrom (b + 1) count

theorem mem_cellsFrom {b : Int} {count : Nat} : i ∈ cellsFrom b count ↔ b ≤ i ∧ i < b + count := by
  induction count generalizing b with
  | zero =>
      simp only [cellsFrom, List.not_mem_nil, false_iff]
      omega
  | succ count ih =>
      rw [cellsFrom, List.mem_cons, ih]
      omega

theorem cellsFrom_sorted (b : Int) (count : Nat) : (cellsFrom b count).Pairwise (· < ·) := by
  induction count generalizing b with
  | zero => exact .nil
  | succ count ih =>
      refine List.pairwise_cons.mpr ⟨?_, ih (b + 1)⟩
      intro j hj
      have := (mem_cellsFrom.mp hj).1
      omega

/-- The links that the loop sets. -/
theorem linked_cellsFrom {next prev : Int → Int} {b h : Int} {count : Nat}
    (hnext : ∀ j, b ≤ j → j < b + count → next j = j + 1)
    (hprev : ∀ j, b ≤ j → j < b + count → prev (j + 1) = j) (hlast : next (b + count) = h)
    (hback : prev h = b + count) : Ring.Linked next prev b (cellsFrom (b + 1) count) h := by
  induction count generalizing b with
  | zero =>
      rw [Int.natCast_zero, Int.add_zero] at hlast hback
      exact ⟨hlast, hback⟩
  | succ count ih =>
      rw [Int.natCast_succ] at *
      refine ⟨⟨hnext b (Int.le_refl _) (by omega), hprev b (Int.le_refl _) (by omega)⟩, ih ?_ ?_ ?_ ?_⟩
      · intro j hj hlt
        exact hnext j (by omega) (by omega)
      · intro j hj hlt
        exact hprev j (by omega) (by omega)
      · rw [← hlast]
        congr 1
        omega
      · rw [hback]
        omega

variable {count : Nat} {b : Int}

theorem linkCells_succ : linkCells d b (count + 1) =
    daSetBase (daSetCheck (linkCells d b count) (b + count) (-(b + count + 1))) (b + count + 1)
      (-(b + count)) := by
  rw [linkCells, List.range_succ, List.foldl_append]
  rfl

@[simp] theorem numCells_linkCells : (linkCells d b count).numCells = d.numCells := by
  induction count with
  | zero => rfl
  | succ count ih => rw [linkCells_succ, numCells_daSetBase, numCells_daSetCheck, ih]

/-- The loop over the new cells, cell by cell. -/
theorem linkCells_eq (hb : 1 ≤ b) (hn : b + count < d.numCells) :
    (∀ i, daGetCheck (linkCells d b count) i =
      if b ≤ i ∧ i < b + count then -(i + 1) else daGetCheck d i) ∧
    (∀ i, daGetBase (linkCells d b count) i =
      if b < i ∧ i ≤ b + count then -(i - 1) else daGetBase d i) ∧
    (linkCells d b count).cell 0 = d.cell 0 := by
  induction count with
  | zero =>
      refine ⟨fun i => ?_, fun i => ?_, rfl⟩
      · rw [if_neg (by omega)]
        rfl
      · rw [if_neg (by omega)]
        rfl
  | succ count ih =>
      rw [Int.natCast_succ] at hn
      rcases ih (by omega) with ⟨hcheck, hbase, hzero⟩
      rw [linkCells_succ]
      refine ⟨fun i => ?_, fun i => ?_, ?_⟩
      · rw [daGetCheck_daSetBase (by omega), daGetCheck_daSetCheck (by omega) (by rw [numCells_linkCells]; omega),
          Function.update_apply, hcheck, Int.natCast_succ]
        by_cases hi : i = b + count
        · rw [if_pos hi, if_pos (by omega), hi]
        · rw [if_neg hi]
          by_cases hin : b ≤ i ∧ i < b + count
          · rw [if_pos hin, if_pos (by omega)]
          · rw [if_neg hin, if_neg (by omega)]
      · rw [daGetBase_daSetBase (by omega) (by rw [numCells_daSetCheck, numCells_linkCells]; omega),
          Function.update_apply, daGetBase_daSetCheck (by omega), hbase, Int.natCast_succ]
        by_cases hi : i = b + count + 1
        · rw [if_pos hi, if_pos (by omega), hi]
          omega
        · rw [if_neg hi]
          by_cases hin : b < i ∧ i ≤ b + count
          · rw [if_pos hin, if_pos (by omega)]
          · rw [if_neg hin, if_neg (by omega)]
      · rw [cell_zero_daSetBase (by omega), cell_zero_daSetCheck (by omega), hzero]

/-- What `realloc` leaves of the old cells. -/
theorem cell_append {new : List DACell} (hpos : 0 < d.numCells) (hi : i < d.numCells) :
    (DArray.mk (d.cells ++ new)).cell i = d.cell i := by
  unfold DArray.numCells at hpos hi
  unfold DArray.cell
  rw [List.getD_eq_getElem?_getD, List.getD_eq_getElem?_getD,
    List.getElem?_append_left (by omega : i.toNat < d.cells.length)]

/-- The header has no part in the ring. -/
theorem daGetCheck_daSetCheck_zero (hi : 1 ≤ i) : daGetCheck (daSetCheck d 0 v) i = daGetCheck d i := by
  unfold daGetCheck
  rw [numCells_daSetCheck]
  by_cases hn : 0 < d.numCells
  · have hne : ¬ i.toNat = (0 : Int).toNat := by omega
    rw [daSetCheck, if_pos hn, cell_set _ (Int.le_refl _) hn, if_neg hne]
  · rw [daSetCheck, if_neg hn]

/-- The cells of the extended array, up to the header. -/
theorem daExtendPool_eq (hf : FreeList d l) {toIndex : Int} (hto : d.numCells ≤ toIndex)
    (hmax : toIndex < trieIndexMax) :
    ∃ d', daExtendPool d toIndex = (true, d') ∧ d'.numCells = toIndex + 1 ∧
      (∀ i, 1 ≤ i → daGetCheck d' i = if i = toIndex then -1 else if i = prevFree d 1 then -d.numCells
        else if d.numCells ≤ i ∧ i < toIndex then -(i + 1) else daGetCheck d i) ∧
      (∀ i, 1 ≤ i → daGetBase d' i = if i = 1 then -toIndex else if i = d.numCells then -prevFree d 1
        else if d.numCells < i ∧ i ≤ toIndex then -(i - 1) else daGetBase d i) ∧
      d'.cell 0 = ⟨daSignature, toIndex + 1⟩ := by
  have hsize := hf.size
  have htail : prevFree d 1 ∈ daGetFreeList :: l := hf.ring.prev_mem
  have htb := hf.mem_bounds htail
  generalize hn : d.numCells = n at *
  generalize hft : prevFree d 1 = ft at *
  obtain ⟨count, rfl⟩ : ∃ count : Nat, toIndex = n + count := ⟨(toIndex - n).toNat, by omega⟩
  -- the new array, before and after the loop
  have hcount : (n + (count : Int) - n).toNat = count := by omega
  have hlen : (n + (count : Int) + 1 - n).toNat = count + 1 := by omega
  generalize hd0 : DArray.mk (d.cells ++ List.replicate (count + 1) ⟨0, 0⟩) = d0
  have hn0 : d0.numCells = n + count + 1 := by
    rw [← hd0]
    unfold DArray.numCells at hn ⊢
    rw [List.length_append, List.length_replicate, Int.natCast_add, hn]
    omega
  have hcell0 : ∀ i, i < n → d0.cell i = d.cell i := by
    intro i hi
    rw [← hd0, cell_append (by omega) (by omega)]
  rcases linkCells_eq (by omega : 1 ≤ n) (by omega : n + (count : Int) < d0.numCells) with
    ⟨hcheck, hbase, hzero⟩
  have hn1 : (linkCells d0 n count).numCells = n + count + 1 := by rw [numCells_linkCells, hn0]
  generalize hd1 : linkCells d0 n count = d1 at hcheck hbase hzero hn1
  have hold_check : ∀ i, i < n ∨ n + count < i → daGetCheck d0 i = daGetCheck d i := by
    intro i hi
    unfold daGetCheck
    by_cases hin : i < n
    · rw [if_pos (by omega), if_pos (by omega), hcell0 i hin]
    · rw [if_neg (by omega), if_neg (by omega)]
  have hold_base : ∀ i, i < n ∨ n + count < i → daGetBase d0 i = daGetBase d i := by
    intro i hi
    unfold daGetBase
    by_cases hin : i < n
    · rw [if_pos (by omega), if_pos (by omega), hcell0 i hin]
    · rw [if_neg (by omega), if_neg (by omega)]
  have hft1 : -daGetBase d1 1 = ft := by
    rw [hbase, if_neg (by omega), hold_base 1 (by omega)]
    exact hft
  have hextend : daExtendPool d (n + count) = (true, daSetCheck (daSetBase (daSetCheck (daSetBase
      (daSetCheck d1 ft (-n)) n (-ft)) (n + count) (-1)) 1 (-(n + count))) 0 (n + count + 1)) := by
    rw [daExtendPool, if_neg (by omega), if_neg (by omega)]
    simp only [hn, hcount, hlen, hd0, hd1]
    rw [show daGetFreeList = 1 from rfl, hft1]
    simp only [numCells_daSetBase, numCells_daSetCheck, hn1]
  refine ⟨_, hextend, ?_, ?_, ?_, ?_⟩
  · simp only [numCells_daSetBase, numCells_daSetCheck, hn1]
  · intro i hi
    rw [daGetCheck_daSetCheck_zero hi, daGetCheck_daSetBase (by omega),
      daGetCheck_daSetCheck (by omega) (by simp only [numCells_daSetBase, numCells_daSetCheck]; omega),
      Function.update_apply, daGetCheck_daSetBase (by omega),
      daGetCheck_daSetCheck (by omega) (by omega), Function.update_apply, hcheck]
    split
    · rfl
    · split
      · rfl
      · split
        · rfl
        · exact hold_check i (by omega)
  · intro i hi
    rw [daGetBase_daSetCheck (by omega), daGetBase_daSetBase (by omega)
      (by simp only [numCells_daSetBase, numCells_daSetCheck]; omega), Function.update_apply,
      daGetBase_daSetCheck (by omega), daGetBase_daSetBase (by omega)
      (by simp only [numCells_daSetCheck]; omega), Function.update_apply,
      daGetBase_daSetCheck (by omega), hbase]
    split
    · rfl
    · split
      · rfl
      · split
        · rfl
        · exact hold_base i (by omega)
  · have hcell : ∀ d' : DArray, 0 < d'.numCells → d'.cell 0 = ⟨daSignature, n⟩ →
        ∀ v, (daSetCheck d' 0 v).cell 0 = ⟨daSignature, v⟩ := by
      intro d' hpos hcell v
      rw [daSetCheck, if_pos hpos, cell_set _ (Int.le_refl _) hpos, if_pos rfl, hcell]
    apply hcell
    · simp only [numCells_daSetBase, numCells_daSetCheck, hn1]
      omega
    · rw [cell_zero_daSetBase (by omega), cell_zero_daSetCheck (by omega),
        cell_zero_daSetBase (by omega), cell_zero_daSetCheck (by omega), hzero, hcell0 0 (by omega),
        hf.header, hn]

/-- The new cells stand behind the others in the ring. -/
theorem FreeList.extend (hf : FreeList d l) {toIndex : Int} (hto : d.numCells ≤ toIndex)
    (hmax : toIndex < trieIndexMax) :
    ∃ d', daExtendPool d toIndex = (true, d') ∧ d'.numCells = toIndex + 1 ∧ d'.node = d.node ∧
      FreeList d' (l ++ cellsFrom d.numCells (toIndex + 1 - d.numCells).toNat) := by
  rcases daExtendPool_eq hf hto hmax with ⟨d', hd', hn', hcheck, hbase, hzero⟩
  have hsize := hf.size
  have htail : prevFree d 1 ∈ daGetFreeList :: l := hf.ring.prev_mem
  have htb := hf.mem_bounds htail
  obtain ⟨count, hcount⟩ : ∃ count : Nat, toIndex = d.numCells + count :=
    ⟨(toIndex - d.numCells).toNat, by omega⟩
  have hlen : (toIndex + 1 - d.numCells).toNat = count + 1 := by omega
  have hfree : ∀ i ∈ daGetFreeList :: l, i < 2 ∨ daGetCheck d i < 0 := by
    intro i hi
    rcases List.mem_cons.mp hi with rfl | hi
    · exact .inl (by decide)
    · exact .inr ((hf.mem_iff i).mp hi).2.2
  refine ⟨d', hd', hn', ?_, ?_⟩
  · funext i
    by_cases h2 : 2 ≤ i ∧ i < d.numCells
    · unfold DArray.node
      rw [hn', hcheck i (by omega), hbase i (by omega), if_neg (by omega : ¬ i = toIndex),
        if_neg (by omega : ¬ (d.numCells ≤ i ∧ i < toIndex)), if_neg (by omega : ¬ i = 1),
        if_neg (by omega : ¬ i = d.numCells), if_neg (by omega : ¬ (d.numCells < i ∧ i ≤ toIndex))]
      by_cases hi : i = prevFree d 1
      · have hlt := hfree i (by rw [hi]; exact htail)
        rw [if_pos hi, if_neg (by omega), if_neg (by omega)]
      · rw [if_neg hi]
        by_cases hc : 0 ≤ daGetCheck d i
        · rw [if_pos (by omega), if_pos (by omega)]
        · rw [if_neg (by omega), if_neg (by omega)]
    · -- neither the header cells nor the new ones hold a state
      unfold DArray.node
      rw [if_neg (show ¬ (2 ≤ i ∧ i < d.numCells ∧ _) by omega), if_neg]
      rintro ⟨hi2, hin, hpos⟩
      rw [hcheck i (by omega)] at hpos
      split at hpos
      · omega
      · split at hpos
        · omega
        · split at hpos
          · omega
          · omega
  · refine ⟨by omega, by omega, by rw [hzero, hn'], ?_, ?_, ?_, ?_⟩
    · have hroot := hf.root_check
      have hne : ¬ daGetRoot = prevFree d 1 := by
        intro heq
        rcases hfree _ htail with h | h
        · rw [← heq] at h
          exact absurd h (by decide)
        · rw [← heq, hroot] at h
          exact absurd h (by decide)
      rw [hcheck daGetRoot (by decide), if_neg (by unfold daGetRoot; omega), if_neg hne,
        if_neg (by unfold daGetRoot; omega), hroot]
    · have hnl : d.numCells ∉ l := by
        intro hmem
        have := ((hf.mem_iff _).mp hmem).2.1
        omega
      rw [hlen, cellsFrom]
      refine hf.ring.splice hf.nodup hnl ?_ ?_ ?_ (linked_cellsFrom ?_ ?_ ?_ ?_)
      · intro y hy
        have hyb := hf.mem_bounds hy
        rw [show daGetFreeList = 1 from rfl]
        unfold nextFree
        rw [hcheck y hyb.1, if_neg (by omega)]
        by_cases hyt : y = prevFree d 1
        · rw [if_pos hyt, if_pos hyt, Int.neg_neg]
        · rw [if_neg hyt, if_neg hyt, if_neg (by omega)]
      · intro y hy
        have hyb := hf.mem_bounds (List.mem_cons_of_mem _ hy)
        have hy3 := ((hf.mem_iff y).mp hy).1
        unfold prevFree
        rw [hbase y hyb.1, if_neg (by omega), if_neg (by omega), if_neg (by omega)]
      · unfold prevFree
        rw [hbase _ (by omega), if_neg (by omega), if_pos rfl, Int.neg_neg]
        rfl
      · intro j hj hlt
        unfold nextFree
        rw [hcheck j (by omega), if_neg (by omega), if_neg (by omega), if_pos (by omega), Int.neg_neg]
      · intro j hj hlt
        unfold prevFree
        rw [hbase (j + 1) (by omega), if_neg (by omega), if_neg (by omega), if_pos (by omega)]
        omega
      · unfold nextFree
        rw [hcheck _ (by omega), if_pos hcount.symm]
        rfl
      · unfold prevFree
        rw [hbase daGetFreeList (by decide), if_pos (show daGetFreeList = 1 from rfl), Int.neg_neg, hcount]
    · refine List.pairwise_append.mpr ⟨hf.sorted, cellsFrom_sorted _ _, ?_⟩
      intro y hy z hz
      have := ((hf.mem_iff y).mp hy).2.1
      have := (mem_cellsFrom.mp hz).1
      omega
    · intro i
      rw [List.mem_append, hf.mem_iff, mem_cellsFrom, hn', hlen]
      by_cases h3 : 3 ≤ i
      · rw [hcheck i (by omega)]
        by_cases hi : i = prevFree d 1
        · have hlt := hfree i (by rw [hi]; exact htail)
          rw [if_neg (by omega), if_pos hi]
          omega
        · rw [if_neg hi]
          split
          · omega
          · split
            · omega
            · have hout : d.numCells ≤ i → daGetCheck d i = 0 := by
                intro h
                rw [daGetCheck, if_neg (by omega)]
                rfl
              by_cases hin : d.numCells ≤ i
              · rw [hout hin]
                omega
              · omega
      · omega

/-! ## A larger array with the same states -/

theorem cellsFrom_add (b : Int) (j k : Nat) :
    cellsFrom b j ++ cellsFrom (b + j) k = cellsFrom b (j + k) := by
  induction j generalizing b with
  | zero => simp [cellsFrom]
  | succ j ih =>
      rw [Nat.succ_add, cellsFrom, cellsFrom, List.cons_append, ← ih (b + 1), Int.natCast_succ]
      congr 3
      omega

/-- `d'` is `d` with new free cells at the end. -/
structure Grown (d : DArray) (l : List Int) (d' : DArray) (count : Nat) : Prop where
  numCells : d'.numCells = d.numCells + count
  node : d'.node = d.node
  freeList : FreeList d' (l ++ cellsFrom d.numCells count)

namespace Grown

variable {d' d'' : DArray} {j k : Nat}

theorem refl (hf : FreeList d l) : Grown d l d 0 :=
  ⟨(Int.add_zero _).symm, rfl, by rw [cellsFrom, List.append_nil]; exact hf⟩

theorem trans (h : Grown d l d' j) (h' : Grown d' (l ++ cellsFrom d.numCells j) d'' k) :
    Grown d l d'' (j + k) := by
  refine ⟨?_, h'.node.trans h.node, ?_⟩
  · rw [h'.numCells, h.numCells, Int.natCast_add, Int.add_assoc]
  · have hf := h'.freeList
    rwa [h.numCells, List.append_assoc, cellsFrom_add] at hf

end Grown

/-- No free cell is lost when there are more of them. -/
theorem mem_more {b : Int} {j k : Nat} (hi : i ∈ l ++ cellsFrom b j) (hjk : j ≤ k) :
    i ∈ l ++ cellsFrom b k := by
  rcases List.mem_append.mp hi with hi | hi
  · exact List.mem_append_left _ hi
  · refine List.mem_append_right _ (mem_cellsFrom.mpr ?_)
    have := mem_cellsFrom.mp hi
    omega

/-- `da_extend_pool` on any index. -/
theorem daExtendPool_spec (hf : FreeList d l) (hs : 0 < s) :
    (trieIndexMax ≤ s ∧ daExtendPool d s = (false, d)) ∨
      s < trieIndexMax ∧ ∃ d', daExtendPool d s = (true, d') ∧
        Grown d l d' (s + 1 - d.numCells).toNat := by
  by_cases hmax : trieIndexMax ≤ s
  · refine .inl ⟨hmax, ?_⟩
    rw [daExtendPool, if_pos (.inr hmax)]
  · refine .inr ⟨by omega, ?_⟩
    by_cases hn : s < d.numCells
    · refine ⟨d, ?_, ?_⟩
      · rw [daExtendPool, if_neg (by omega), if_pos hn]
      · have hzero : (s + 1 - d.numCells).toNat = 0 := by omega
        rw [hzero]
        exact .refl hf
    · rcases hf.extend (by omega : d.numCells ≤ s) (by omega) with ⟨d', hd', hn', hnode, hf'⟩
      exact ⟨d', hd', by rw [hn']; omega, hnode, hf'⟩

end DnsCache

import DnsCache.FreeCells

/-! # A place for the children of a node

`da_find_free_base` goes up along the free cells until the symbols fit.

* `symbolsAdd_sorted`, `mem_symbolsAdd`: the symbols are kept in order.
* `daFitSymbols_spec`, `firstFreeLoop_spec`, `fitLoop_spec`: the loops.
* `daFindFreeBase_spec`: the search ends, what it finds fits, and the pool does
  not grow by more than the characters and a header.
-/

namespace DnsCache

variable {d : DArray} {l : List Int} {s base : Int} {syms symbols : List UInt8} {c sym : UInt8}

/-! ## Symbols in order -/

/-- The search ends at a place that keeps the order, or at the symbol. -/
theorem symbolsSearch_spec (hs : syms.Pairwise (· < ·)) {n lower upper : Nat}
    (hle : lower ≤ upper) (hlen : upper ≤ syms.length) (hn : upper - lower ≤ n)
    (hlow : ∀ y ∈ syms.take lower, y < c) (hup : ∀ y ∈ syms.drop upper, c < y) :
    (symbolsSearch syms c n lower upper = none ∧ c ∈ syms) ∨
      ∃ k, symbolsSearch syms c n lower upper = some k ∧ (∀ y ∈ syms.take k, y < c) ∧
        ∀ y ∈ syms.drop k, c < y := by
  induction n generalizing lower upper with
  | zero =>
      have heq : lower = upper := by omega
      rw [← heq] at hup
      exact .inr ⟨lower, rfl, hlow, hup⟩
  | succ n ih =>
      rw [symbolsSearch]
      by_cases hlt : lower < upper
      · rw [if_pos hlt]
        have hmid : (lower + upper) / 2 < syms.length := by omega
        have hget : syms.getD ((lower + upper) / 2) 0 = syms[(lower + upper) / 2] := by
          rw [List.getD_eq_getElem?_getD, List.getElem?_eq_getElem hmid, Option.getD_some]
        simp only [hget]
        split
        · rename_i hc
          refine ih (by omega) hlen (by omega) ?_ hup
          intro y hy
          rcases List.mem_take_iff_getElem.mp hy with ⟨j, hj, rfl⟩
          by_cases hjm : j = (lower + upper) / 2
          · simp only [hjm]
            exact hc
          · exact UInt8.lt_trans (List.pairwise_iff_getElem.mp hs _ _ (by omega) hmid (by omega)) hc
        · rename_i hc
          split
          · rename_i hc'
            refine ih (by omega) (by omega) (by omega) hlow ?_
            intro y hy
            rcases List.mem_drop_iff_getElem.mp hy with ⟨j, hj, rfl⟩
            by_cases hjm : j = 0
            · simp only [hjm, Nat.add_zero]
              exact hc'
            · exact UInt8.lt_trans hc' (List.pairwise_iff_getElem.mp hs _ _ hmid (by omega) (by omega))
          · rename_i hc'
            left
            have heq : c = syms[(lower + upper) / 2] :=
              UInt8.le_antisymm (UInt8.not_lt.mp hc) (UInt8.not_lt.mp hc')
            exact ⟨rfl, by rw [heq]; exact List.getElem_mem hmid⟩
      · rw [if_neg hlt]
        have heq : lower = upper := by omega
        rw [← heq] at hup
        exact .inr ⟨lower, rfl, hlow, hup⟩

theorem symbolsAdd_spec (hs : syms.Pairwise (· < ·)) :
    (symbolsAdd syms c).Pairwise (· < ·) ∧ ∀ y, y ∈ symbolsAdd syms c ↔ y = c ∨ y ∈ syms := by
  have hsearch := symbolsSearch_spec (c := c) hs (Nat.zero_le syms.length) (Nat.le_refl _)
    (Nat.le_refl (syms.length - 0)) (by simp) (by simp)
  rw [symbolsAdd]
  rcases hsearch with ⟨hnone, hmem⟩ | ⟨k, hk, hlow, hup⟩
  · rw [Nat.sub_zero] at hnone
    rw [hnone]
    refine ⟨hs, fun y => ⟨.inr, ?_⟩⟩
    rintro (rfl | hy)
    · exact hmem
    · exact hy
  · rw [Nat.sub_zero] at hk
    rw [hk]
    constructor
    · refine List.pairwise_append.mpr ⟨hs.sublist (List.take_sublist ..), ?_, ?_⟩
      · exact List.pairwise_cons.mpr ⟨hup, hs.sublist (List.drop_sublist ..)⟩
      · intro y hy z hz
        rcases List.mem_cons.mp hz with rfl | hz
        · exact hlow y hy
        · exact UInt8.lt_trans (hlow y hy) (hup z hz)
    · intro y
      rw [List.mem_append, List.mem_cons, or_left_comm, ← List.mem_append, List.take_append_drop]

/-! ## Free cells that fit -/

/-- The next free cell is the first one above, and the last one leads to the head. -/
theorem FreeList.nextFree_spec (hf : FreeList d l) (hs : s ∈ l) :
    (nextFree d s = daGetFreeList ∧ ∀ y ∈ l, y ≤ s) ∨
      nextFree d s ∈ l ∧ s < nextFree d s ∧ ∀ y ∈ l, s < y → nextFree d s ≤ y := by
  rcases List.append_of_mem hs with ⟨u, v, rfl⟩
  have hnext := (Ring.Linked.append_iff.mp hf.ring).2.next_eq
  rcases List.pairwise_append.mp hf.sorted with ⟨-, hsv, huv⟩
  rcases List.pairwise_cons.mp hsv with ⟨hsv, hv⟩
  have hbefore : ∀ y ∈ u ++ s :: v, y ≤ s ∨ y ∈ v := by
    intro y hy
    rcases List.mem_append.mp hy with hy | hy
    · exact .inl (Int.le_of_lt (huv y hy s List.mem_cons_self))
    · rcases List.mem_cons.mp hy with rfl | hy
      · exact .inl (Int.le_refl _)
      · exact .inr hy
  cases v with
  | nil =>
      refine .inl ⟨hnext, fun y hy => ?_⟩
      rcases hbefore y hy with h | h
      · exact h
      · cases h
  | cons z v =>
      rw [show nextFree d s = z from hnext]
      refine .inr ⟨by simp, hsv z List.mem_cons_self, fun y hy hlt => ?_⟩
      rcases hbefore y hy with h | h
      · omega
      · rcases List.mem_cons.mp h with rfl | h
        · exact Int.le_refl _
        · exact Int.le_of_lt ((List.pairwise_cons.mp hv).1 y h)

theorem daCheckFreeCell_spec (hf : FreeList d l) (hs : 3 ≤ s) :
    ∃ d' k, daCheckFreeCell d s = (decide (s < trieIndexMax ∧ d.node s = none), d') ∧
      Grown d l d' k ∧ d'.numCells ≤ max d.numCells (s + 1) ∧
      (s < trieIndexMax → d.node s = none → s ∈ l ++ cellsFrom d.numCells k) := by
  rcases daExtendPool_spec hf (by omega : 0 < s) with ⟨hmax, heq⟩ | ⟨hmax, d', heq, hg⟩
  · refine ⟨d, 0, ?_, .refl hf, by omega, fun h => absurd h (by omega)⟩
    rw [daCheckFreeCell, heq]
    simp only [Bool.false_and, Prod.mk.injEq, and_true]
    exact (decide_eq_false (by omega)).symm
  · have hn := hg.numCells
    have hin : s < d'.numCells := by omega
    refine ⟨d', _, ?_, hg, by omega, fun _ hnode => ?_⟩
    · rw [daCheckFreeCell, heq]
      simp only [Bool.true_and, Prod.mk.injEq, and_true, decide_eq_decide]
      rw [← hg.node, DArray.node]
      constructor
      · intro hlt
        exact ⟨hmax, if_neg (by omega)⟩
      · rintro ⟨-, hnone⟩
        by_contra hge
        rw [if_pos ⟨by omega, hin, by omega⟩] at hnone
        cases hnone
    · rw [← hg.node] at hnode
      exact hg.freeList.mem_of_node_none hs hin hnode

theorem daFitSymbols_spec (hf : FreeList d l) (hb : 3 ≤ base) (symbols : List UInt8) :
    ∃ fits d' k, daFitSymbols d base symbols = (fits, d') ∧ Grown d l d' k ∧
      d'.numCells ≤ max d.numCells (base + 256) ∧
      (fits = true → ∀ sym ∈ symbols, base + sym.toNat ∈ l ++ cellsFrom d.numCells k) ∧
      (base + 255 < trieIndexMax → (∀ sym ∈ symbols, d.node (base + sym.toNat) = none) →
        fits = true) := by
  induction symbols generalizing d l with
  | nil =>
      exact ⟨true, d, 0, rfl, .refl hf, by omega, by simp, fun _ _ => rfl⟩
  | cons sym symbols ih =>
      have hsym := sym.toNat_lt
      rw [daFitSymbols]
      by_cases hover : trieIndexMax - sym.toNat < base
      · rw [if_pos hover]
        exact ⟨false, d, 0, rfl, .refl hf, by omega, by simp, fun h => absurd h (by omega)⟩
      · rw [if_neg hover]
        rcases daCheckFreeCell_spec hf (by omega : 3 ≤ base + sym.toNat) with
          ⟨d', k, heq, hg, hgrow, hmem⟩
        rw [heq]
        by_cases hfree : base + sym.toNat < trieIndexMax ∧ d.node (base + sym.toNat) = none
        · rw [decide_eq_true hfree]
          rcases ih hg.freeList with ⟨fits, d'', k', heq', hg', hgrow', hall, hfit⟩
          refine ⟨fits, d'', k + k', heq', hg.trans hg', by omega, ?_, ?_⟩
          · intro hf' y hy
            rcases List.mem_cons.mp hy with rfl | hy
            · exact mem_more (hmem hfree.1 hfree.2) (Nat.le_add_right ..)
            · have hy' := hall hf' y hy
              rwa [hg.numCells, List.append_assoc, cellsFrom_add] at hy'
          · intro hmax hnone
            refine hfit hmax fun y hy => ?_
            rw [hg.node]
            exact hnone y (List.mem_cons_of_mem _ hy)
        · rw [decide_eq_false hfree]
          refine ⟨false, d', k, rfl, hg, by omega, by simp, ?_⟩
          intro hmax hnone
          exact absurd ⟨by omega, hnone sym List.mem_cons_self⟩ hfree

/-- The loop that looks at the cells one by one. -/
theorem firstFreeLoop_spec (hf : FreeList d l) (hs : 3 ≤ s) {n : Nat} (hn : trieIndexMax ≤ s + n) :
    ∃ r d' k, firstFreeLoop n d s = (r, d') ∧ Grown d l d' k ∧
      d'.numCells ≤ max d.numCells s + 1 ∧
      (r = trieIndexError ∧ trieIndexMax ≤ max d.numCells s ∨
        s ≤ r ∧ r ≤ max d.numCells s ∧ r ∈ l ++ cellsFrom d.numCells k) := by
  induction n generalizing d l s with
  | zero => exact ⟨_, d, 0, rfl, .refl hf, by omega, .inl ⟨rfl, by omega⟩⟩
  | succ n ih =>
      rw [firstFreeLoop]
      rcases daExtendPool_spec hf (by omega : 0 < s) with ⟨hmax, heq⟩ | ⟨hmax, d', heq, hg⟩
      · rw [heq]
        exact ⟨_, d, 0, rfl, .refl hf, by omega, .inl ⟨rfl, by omega⟩⟩
      · rw [heq]
        have hn' := hg.numCells
        by_cases hlt : daGetCheck d' s < 0
        · simp only [if_pos hlt]
          refine ⟨s, d', _, rfl, hg, by omega, .inr ⟨Int.le_refl _, by omega, ?_⟩⟩
          exact (hg.freeList.mem_iff s).mpr ⟨hs, by omega, hlt⟩
        · simp only [if_neg hlt]
          -- the cell is not a new one
          have hold : s < d.numCells := by
            by_contra hge
            have hnew : s ∈ l ++ cellsFrom d.numCells (s + 1 - d.numCells).toNat :=
              List.mem_append_right _ (mem_cellsFrom.mpr ⟨by omega, by omega⟩)
            exact hlt ((hg.freeList.mem_iff s).mp hnew).2.2
          rcases ih hg.freeList (by omega : 3 ≤ s + 1) (by omega) with ⟨r, d'', k, heq', hg', hgrow, hr⟩
          refine ⟨r, d'', _, heq', hg.trans hg', by omega, ?_⟩
          rcases hr with hr | ⟨hle, hle', hmem⟩
          · exact .inl ⟨hr.1, by omega⟩
          · refine .inr ⟨by omega, by omega, ?_⟩
            rwa [hn', List.append_assoc, cellsFrom_add] at hmem

/-- The loop that goes along the ring. From `bound` on there is no state, so that
the symbols fit there at the latest. -/
theorem fitLoop_spec {first : Int} (hfirst : ∀ sym ∈ symbols, first ≤ sym.toNat) (bound : Int)
    (hf : FreeList d l) (hs : s ∈ l) (hlow : first + daPoolBegin ≤ s) {n : Nat}
    (hn : trieIndexMax ≤ s + n) (hfirst0 : 0 ≤ first) :
    ∃ b d' k, fitLoop symbols first n d s = (b, d') ∧ Grown d l d' k ∧
      (b = trieIndexError ∨
        3 ≤ b ∧ ∀ sym ∈ symbols, b + sym.toNat ∈ l ++ cellsFrom d.numCells k) ∧
      (bound + 256 < trieIndexMax → s ≤ bound → (∀ i, bound ≤ i → d.node i = none) →
        d.numCells ≤ bound + 256 → b ≠ trieIndexError ∧ d'.numCells ≤ bound + 256) := by
  unfold daPoolBegin at hlow
  induction n generalizing d l s with
  | zero =>
      have := hf.bound
      have := (hf.mem_iff s).mp hs
      omega
  | succ n ih =>
      rw [fitLoop]
      have hsmem := (hf.mem_iff s).mp hs
      rcases daFitSymbols_spec hf (by omega : 3 ≤ s - first) symbols with
        ⟨fits, d₁, k₁, heq, hg, hgrow, hall, hfit⟩
      rw [heq]
      have hn₁ := hg.numCells
      cases fits with
      | true =>
          refine ⟨s - first, d₁, k₁, rfl, hg, .inr ⟨by omega, hall rfl⟩, ?_⟩
          intro _ _ _ _
          unfold trieIndexError
          omega
      | false =>
          -- below the bound a round goes up, at the bound it would have fitted
          have hlt : bound + 256 < trieIndexMax → s ≤ bound → (∀ i, bound ≤ i → d.node i = none) →
              s < bound := by
            intro hmax hle hnone
            by_contra hge
            refine absurd (hfit (by omega) fun sym hsym => hnone _ ?_) Bool.false_ne_true
            have := hfirst sym hsym
            omega
          have hs₁ : s ∈ l ++ cellsFrom d.numCells k₁ := List.mem_append_left _ hs
          -- a state-free cell below the end is free
          have hbound : d₁.numCells ≤ bound ∨ (∀ i, bound ≤ i → d.node i = none) → s < bound →
              d₁.numCells ≤ bound ∨ bound ∈ l ++ cellsFrom d.numCells k₁ := by
            intro h hsb
            by_cases hle : d₁.numCells ≤ bound
            · exact .inl hle
            · rcases h with h | h
              · exact absurd h hle
              · refine .inr (hg.freeList.mem_of_node_none (by omega) (by omega) ?_)
                rw [hg.node]
                exact h bound (Int.le_refl _)
          by_cases hlast : nextFree d₁ s = daGetFreeList
          · simp only [if_pos hlast]
            have habove : ∀ y ∈ l ++ cellsFrom d.numCells k₁, y ≤ s := by
              rcases hg.freeList.nextFree_spec hs₁ with ⟨-, h⟩ | ⟨h, -, -⟩
              · exact h
              · rw [hlast] at h
                have := ((hg.freeList.mem_iff _).mp h).1
                unfold daGetFreeList at this
                omega
            rcases daExtendPool_spec hg.freeList (by omega : 0 < d₁.numCells) with
              ⟨hmax, heq'⟩ | ⟨hmax, d₂, heq', hg'⟩
            · rw [heq']
              refine ⟨_, d₁, k₁, rfl, hg, .inl rfl, ?_⟩
              intro hb hle hnone hsize
              have hsb := hlt hb hle hnone
              rcases hbound (.inr hnone) hsb with h | h
              · omega
              · have := habove _ h
                omega
            · rw [heq']
              have hone : (d₁.numCells + 1 - d₁.numCells).toNat = 1 := by omega
              rw [hone] at hg'
              have hn₂ := hg'.numCells
              have hs₂ := List.mem_append_left (cellsFrom d₁.numCells 1) hs₁
              have hnew : d₁.numCells ∈ (l ++ cellsFrom d.numCells k₁) ++ cellsFrom d₁.numCells 1 :=
                List.mem_append_right _ (mem_cellsFrom.mpr ⟨by omega, by omega⟩)
              rcases hg'.freeList.nextFree_spec hs₂ with ⟨-, h⟩ | ⟨hmem, hgt, hle⟩
              · have := h _ hnew
                omega
              · have hmem' := (hg'.freeList.mem_iff _).mp hmem
                rcases ih hg'.freeList hmem (by omega) (by omega) with
                  ⟨b, d₃, k₃, heq₃, hg₃, hb, hgrow₃⟩
                refine ⟨b, d₃, k₁ + 1 + k₃, heq₃, (hg.trans hg').trans ?_, ?_, ?_⟩
                · rwa [← cellsFrom_add, ← List.append_assoc, ← hn₁]
                · rcases hb with hb | ⟨hb, hall'⟩
                  · exact .inl hb
                  · refine .inr ⟨hb, fun sym hsym => ?_⟩
                    have := hall' sym hsym
                    rw [hn₂] at this
                    rw [← cellsFrom_add, ← cellsFrom_add, ← List.append_assoc, ← List.append_assoc,
                      Int.natCast_add, ← Int.add_assoc, ← hn₁]
                    exact this
                · intro hb' hle' hnone hsize
                  have hsb := hlt hb' hle' hnone
                  have hend : d₁.numCells ≤ bound := by
                    rcases hbound (.inr hnone) hsb with h | h
                    · exact h
                    · have := habove _ h
                      omega
                  refine hgrow₃ hb' ?_ ?_ (by omega)
                  · have := hle _ hnew (by omega)
                    omega
                  · intro i hi
                    rw [hg'.node, hg.node]
                    exact hnone i hi
          · simp only [if_neg hlast]
            rcases hg.freeList.nextFree_spec hs₁ with ⟨h, -⟩ | ⟨hmem, hgt, hle⟩
            · exact absurd h hlast
            · have hmem' := (hg.freeList.mem_iff _).mp hmem
              rcases ih hg.freeList hmem (by omega) (by omega) with
                ⟨b, d₃, k₃, heq₃, hg₃, hb, hgrow₃⟩
              refine ⟨b, d₃, k₁ + k₃, heq₃, hg.trans hg₃, ?_, ?_⟩
              · rcases hb with hb | ⟨hb, hall'⟩
                · exact .inl hb
                · refine .inr ⟨hb, fun sym hsym => ?_⟩
                  have := hall' sym hsym
                  rwa [hn₁, List.append_assoc, cellsFrom_add] at this
              · intro hb' hle' hnone hsize
                have hsb := hlt hb' hle' hnone
                refine hgrow₃ hb' ?_ ?_ (by omega)
                · rcases hbound (.inr hnone) hsb with h | h
                  · omega
                  · exact hle _ h hsb
                · intro i hi
                  rw [hg.node]
                  exact hnone i hi

theorem node_of_ge {i : Int} (h : d.numCells ≤ i) : d.node i = none := by
  rw [DArray.node, if_neg (by omega)]

/-- The search returns a base at which every symbol has a free cell, or nothing
when the array would become too large. -/
theorem daFindFreeBase_spec (hf : FreeList d l) (hne : symbols ≠ [])
    (hsorted : symbols.Pairwise (· < ·)) :
    ∃ b d' k, daFindFreeBase d symbols = (b, d') ∧ Grown d l d' k ∧
      (b = trieIndexError ∨
        3 ≤ b ∧ ∀ sym ∈ symbols, b + sym.toNat ∈ l ++ cellsFrom d.numCells k) ∧
      (max d.numCells 258 + 256 < trieIndexMax →
        b ≠ trieIndexError ∧ d'.numCells ≤ max d.numCells 258 + 256) := by
  rcases List.exists_cons_of_ne_nil hne with ⟨sym₀, rest, rfl⟩
  have hsym₀ := sym₀.toNat_lt
  have hfirst : ∀ sym ∈ sym₀ :: rest, (sym₀.toNat : Int) ≤ sym.toNat := by
    intro sym hsym
    rcases List.mem_cons.mp hsym with rfl | hmem
    · exact Int.le_refl _
    · have := UInt8.lt_iff_toNat_lt.mp ((List.pairwise_cons.mp hsorted).1 sym hmem)
      omega
  have hout : ∀ i, max d.numCells 258 ≤ i → d.node i = none := fun i hi => node_of_ge (by omega)
  have hfrom := hf.freeFrom_eq ((sym₀.toNat : Int) + daPoolBegin)
  have hrounds : (trieIndexMax.toNat : Int) = trieIndexMax := by decide
  cases hdrop : l.dropWhile (fun i => decide (i < (sym₀.toNat : Int) + daPoolBegin)) with
  | nil =>
      rw [hdrop] at hfrom
      unfold daPoolBegin at *
      rcases firstFreeLoop_spec hf (by omega : 3 ≤ (sym₀.toNat : Int) + 3)
        (by omega : trieIndexMax ≤ (sym₀.toNat : Int) + 3 + trieIndexMax.toNat) with
        ⟨r, d₁, k₁, heq, hg, hgrow, hr⟩
      have hfind : daFindFreeBase d (sym₀ :: rest) = if r = trieIndexError then (trieIndexError, d₁)
          else fitLoop (sym₀ :: rest) sym₀.toNat trieIndexMax.toNat d₁ r := by
        have hring : freeFrom d ((sym₀.toNat : Int) + 3) = daGetFreeList := hfrom
        rw [daFindFreeBase]
        simp only [daPoolBegin, List.headD_cons, hring, if_true, heq]
      rw [hfind]
      have hn₁ := hg.numCells
      rcases hr with ⟨rfl, hmax⟩ | ⟨hle, hle', hmem⟩
      · refine ⟨_, d₁, k₁, rfl, hg, .inl rfl, ?_⟩
        intro hsmall
        omega
      · have hr0 : r ≠ trieIndexError := by
          unfold trieIndexError
          omega
        simp only [if_neg hr0]
        rcases fitLoop_spec hfirst (max d.numCells 258) hg.freeList hmem
          (by unfold daPoolBegin; omega) (by omega : trieIndexMax ≤ r + trieIndexMax.toNat)
          (by omega) with ⟨b, d₂, k₂, heq₂, hg₂, hb, hsize⟩
        refine ⟨b, d₂, k₁ + k₂, heq₂, hg.trans hg₂, ?_, ?_⟩
        · rcases hb with hb | ⟨hb, hall⟩
          · exact .inl hb
          · refine .inr ⟨hb, fun sym hsym => ?_⟩
            have := hall sym hsym
            rwa [hn₁, List.append_assoc, cellsFrom_add] at this
        · intro hsmall
          refine hsize hsmall (by omega) ?_ (by omega)
          intro i hi
          rw [hg.node]
          exact hout i hi
  | cons y m =>
      rw [hdrop] at hfrom
      have hy : y ∈ l.dropWhile (fun i => decide (i < (sym₀.toNat : Int) + daPoolBegin)) := by
        rw [hdrop]
        exact List.mem_cons_self
      have hyl : y ∈ l := (List.dropWhile_sublist _).subset hy
      have hylow := Ascending.dropWhile_ge hf.sorted _ y hy
      have hyb := (hf.mem_iff y).mp hyl
      have hyf : freeFrom d ((sym₀.toNat : Int) + daPoolBegin) = y := hfrom
      have hy1 : ¬ y = daGetFreeList := by
        unfold daGetFreeList
        omega
      have hfind : daFindFreeBase d (sym₀ :: rest) =
          fitLoop (sym₀ :: rest) sym₀.toNat trieIndexMax.toNat d y := by
        rw [← hyf]
        exact if_neg (by rw [← hyf] at hy1; exact hy1)
      rw [hfind]
      rcases fitLoop_spec hfirst (max d.numCells 258) hf hyl hylow
        (by omega : trieIndexMax ≤ y + trieIndexMax.toNat) (by omega) with
        ⟨b, d₂, k₂, heq₂, hg₂, hb, hsize⟩
      exact ⟨b, d₂, k₂, heq₂, hg₂, hb, fun hsmall => hsize hsmall (by omega) hout (by omega)⟩

end DnsCache

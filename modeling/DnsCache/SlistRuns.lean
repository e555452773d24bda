import DnsCache.SlistSeq

/-! # `sl_free` and `mv2head` after any sequence of operations

* `slStep_allows`, `slRun_holds`: an operation that returns was allowed, so that
  every list the operations reach is a bounded sequence.
* `slRun_blocks`: the blocks obtained from `my_alloc`, `slFree_each_once`: and freed.
* `mv2head_moves_iff`: `mv2head` finds what `find` finds, on a list with a head.
-/

namespace DnsCache

variable {α : Type} {sl sl' sl₀ : Slist α} {items : List α} {capacity : Nat} {d : α}

/-! ## The blocks obtained -/

theorem setNext_blocks {p q : Option NodeAddr} (h : sl.setNext p q = some sl') :
    sl'.blocks = sl.blocks := by
  simp only [Slist.setNext, Option.bind_eq_bind, Option.bind_eq_some_iff, Option.pure_def,
    Option.some.injEq] at h
  rcases h with ⟨a, -, node, -, rfl⟩
  rfl

theorem setData_blocks {p : Option NodeAddr} (h : sl.setData p d = some sl') :
    sl'.blocks = sl.blocks := by
  simp only [Slist.setData, Option.bind_eq_bind, Option.bind_eq_some_iff, Option.pure_def,
    Option.some.injEq] at h
  rcases h with ⟨a, -, node, -, rfl⟩
  rfl

theorem linkEnd_blocks {p : Option NodeAddr} (h : sl.linkEnd p = some sl') :
    sl'.blocks = sl.blocks := by
  unfold Slist.linkEnd at h
  split at h
  · cases h
    rfl
  · rcases Option.map_eq_some_iff.mp h with ⟨sl₁, hset, rfl⟩
    have hkeep := setNext_blocks hset
    exact hkeep

theorem toHead_blocks {pre cur next : Option NodeAddr} (h : sl.toHead pre cur next = some sl') :
    sl'.blocks = sl.blocks := by
  simp only [Slist.toHead, Option.bind_eq_bind, Option.bind_eq_some_iff, Option.pure_def,
    Option.some.injEq] at h
  rcases h with ⟨sl₁, hpre, sl₂, hcur, rfl⟩
  have h₁ := setNext_blocks hpre
  have h₂ := setNext_blocks hcur
  exact h₂.trans h₁

theorem push_blocks {code : Nat} (h : push d sl = some (code, sl')) : sl'.blocks = sl.blocks := by
  unfold push at h
  split at h
  · cases h
    rfl
  · simp only [Option.bind_eq_bind, Option.bind_eq_some_iff, Option.pure_def, Option.some.injEq,
      Prod.mk.injEq] at h
    rcases h with ⟨node, -, sl₁, hdata, sl₂, hnext, -, rfl⟩
    have h₁ := setData_blocks hdata
    have h₂ := setNext_blocks hnext
    exact h₂.trans h₁

theorem append_blocks {code : Nat} (h : append d sl = some (code, sl')) :
    sl'.blocks = sl.blocks := by
  unfold append at h
  split at h
  · cases h
    rfl
  · simp only [Option.bind_eq_bind, Option.bind_eq_some_iff, Option.pure_def, Option.some.injEq,
      Prod.mk.injEq] at h
    rcases h with ⟨node, -, sl₁, hdata, sl₂, hlink, sl₃, hnext, -, rfl⟩
    have h₁ := setData_blocks hdata
    have h₂ := linkEnd_blocks hlink
    have h₃ := setNext_blocks hnext
    exact h₃.trans (h₂.trans h₁)

theorem pop_blocks {x : Option α} (h : pop sl = some (x, sl')) : sl'.blocks = sl.blocks := by
  unfold pop at h
  split at h
  · cases h
    rfl
  · simp only [Option.bind_eq_bind, Option.bind_eq_some_iff, Option.pure_def, Option.some.injEq,
      Prod.mk.injEq] at h
    rcases h with ⟨node, -, y, -, sl₁, hnext, -, rfl⟩
    have h₁ := setNext_blocks hnext
    exact h₁

theorem slExpand_blocks {delta : Nat} (h : slExpand delta sl = some sl') :
    sl'.blocks = sl.blocks + 2 := by
  unfold slExpand at h
  split at h
  · simp at h
  · cases h
    rfl

variable [DecidableEq α]

theorem mv2headLoop_blocks {fuel code : Nat} {pre cur : Option NodeAddr}
    (h : mv2headLoop d sl fuel pre cur = some (code, sl')) : sl'.blocks = sl.blocks := by
  induction fuel generalizing pre cur with
  | zero => simp [mv2headLoop] at h
  | succ fuel ih =>
      rw [mv2headLoop] at h
      split at h
      · cases h
        rfl
      · simp only [Option.bind_eq_bind, Option.bind_eq_some_iff] at h
        rcases h with ⟨node, -, x, -, h⟩
        split at h
        · rcases Option.map_eq_some_iff.mp h with ⟨sl₁, hmove, heq⟩
          cases heq
          exact toHead_blocks hmove
        · exact ih h

theorem mv2head_blocks {code : Nat} (h : mv2head d sl = some (code, sl')) :
    sl'.blocks = sl.blocks := by
  simp only [mv2head, Option.bind_eq_bind, Option.bind_eq_some_iff] at h
  rcases h with ⟨node, -, x, -, h⟩
  split at h
  · cases h
    rfl
  · exact mv2headLoop_blocks h

/-- The blocks that an operation obtains: the nodes and a memlist node. -/
def blocksObtained : BoundedSeq.Op α → Nat
  | .expand _ => 2
  | _ => 0

theorem slStep_blocks {op : BoundedSeq.Op α} {result : BoundedSeq.Result α}
    (h : slStep sl op = some (result, sl')) : sl'.blocks = sl.blocks + blocksObtained op := by
  cases op with
  | push d =>
      rcases Option.map_eq_some_iff.mp h with ⟨r, hr, heq⟩
      cases heq
      exact push_blocks hr
  | append d =>
      rcases Option.map_eq_some_iff.mp h with ⟨r, hr, heq⟩
      cases heq
      exact append_blocks hr
  | pop =>
      rcases Option.map_eq_some_iff.mp h with ⟨r, hr, heq⟩
      cases heq
      exact pop_blocks hr
  | expand delta =>
      rcases Option.map_eq_some_iff.mp h with ⟨r, hr, heq⟩
      cases heq
      exact slExpand_blocks hr
  | mv2head d =>
      rcases Option.map_eq_some_iff.mp h with ⟨r, hr, heq⟩
      cases heq
      exact mv2head_blocks hr

theorem slRun_blocks {ops : List (BoundedSeq.Op α)} {results : List (BoundedSeq.Result α)}
    (h : slRun sl ops = some (results, sl')) :
    sl'.blocks = sl.blocks + (ops.map blocksObtained).sum := by
  induction ops generalizing sl results with
  | nil =>
      cases h
      rfl
  | cons op ops ih =>
      simp only [slRun, Option.bind_eq_bind, Option.bind_eq_some_iff, Prod.exists, Option.pure_def,
        Option.some.injEq, Prod.mk.injEq] at h
      rcases h with ⟨result, sl₁, hstep, results₁, sl₂, hrest, -, rfl⟩
      rw [ih hrest, slStep_blocks hstep, List.map_cons, List.sum_cons, Nat.add_assoc]

/-! ## The lists that operations reach -/

/-- `mv2head` reads through the head of an empty list. -/
theorem mv2head_empty (h : sl.Holds ([] : List α) capacity) (d : α) : mv2head d sl = none := by
  rcases h with ⟨-, -, chain, blanks, h⟩
  rw [mv2head, h.head_eq_none_iff.mpr rfl]
  rfl

/-- The step lemma: an operation that returns was allowed. -/
theorem slStep_allows {s : BoundedSeq α} {op : BoundedSeq.Op α}
    {r : BoundedSeq.Result α × Slist α} (h : sl.Holds s.items s.capacity)
    (hstep : slStep sl op = some r) : s.Allows op := by
  cases op with
  | push d => trivial
  | append d => trivial
  | pop => trivial
  | expand delta =>
      rcases Option.map_eq_some_iff.mp hstep with ⟨sl', hexpand, -⟩
      exact (slExpand_asks hexpand).1
  | mv2head d =>
      intro hnil
      rw [hnil] at h
      rw [slStep, mv2head_empty h] at hstep
      simp at hstep

/-- The run lemma. -/
theorem slRun_allows {s : BoundedSeq α} {ops : List (BoundedSeq.Op α)}
    {r : List (BoundedSeq.Result α) × Slist α} (h : sl.Holds s.items s.capacity)
    (hrun : slRun sl ops = some r) : s.AllowsAll ops := by
  induction ops generalizing sl s r with
  | nil => trivial
  | cons op ops ih =>
      simp only [slRun, Option.bind_eq_bind, Option.bind_eq_some_iff, Prod.exists] at hrun
      rcases hrun with ⟨result, sl₁, hstep, results, sl₂, hrest, -⟩
      have hop := slStep_allows h hstep
      rcases slStep_refines h hop (slStep_fits hstep) with ⟨sl₁', hstep', h₁⟩
      rw [hstep, Option.some.injEq, Prod.mk.injEq] at hstep'
      rw [← hstep'.2] at h₁
      exact ⟨hop, ih h₁ hrest⟩

/-- A list that operations reach from `mk_slist` holds the items of a bounded sequence. -/
theorem slRun_holds {ops : List (BoundedSeq.Op α)} {results : List (BoundedSeq.Result α)}
    (hmk : mkSlist capacity = some sl₀) (hrun : slRun sl₀ ops = some (results, sl)) :
    ∃ items capacity, sl.Holds items capacity := by
  rcases mkSlist_asks hmk with ⟨hcap, hfit⟩
  rcases @mkSlist_holds α capacity hcap hfit with ⟨sl₁, hmk₁, h₀⟩
  rw [hmk, Option.some.injEq] at hmk₁
  rw [← hmk₁] at h₀
  have hops := @slRun_allows α sl₀ _ (BoundedSeq.empty capacity) ops _ h₀ hrun
  rcases @slRun_refines α sl₀ _ (BoundedSeq.empty capacity) ops h₀ hops (slRun_fits hrun)
    with ⟨sl', hrun', h⟩
  rw [hrun, Option.some.injEq, Prod.mk.injEq] at hrun'
  rw [← hrun'.2] at h
  exact ⟨_, _, h⟩

/-! ## `sl_free` -/

theorem blocksInTurn_perm (n : Nat) : (blocksInTurn n).Perm (List.range (2 * n)) := by
  induction n with
  | zero => exact List.Perm.refl _
  | succ n ih =>
      have hrange : List.range (2 * (n + 1)) = List.range (2 * n) ++ [2 * n, 2 * n + 1] := by
        rw [Nat.mul_add, Nat.mul_one, List.range_succ, List.range_succ, List.append_assoc]
        rfl
      rw [hrange, blocksInTurn]
      exact List.perm_append_comm.trans (ih.append_right _)

/-- `sl_free` hands every block of the list to `my_free` once and nothing else,
and reads no block that it has freed. -/
theorem slFree_each_once {ops : List (BoundedSeq.Op α)} {results : List (BoundedSeq.Result α)}
    (hmk : mkSlist capacity = some sl₀) (hrun : slRun sl₀ ops = some (results, sl)) :
    sl.blocks = 2 + (ops.map blocksObtained).sum ∧
      ∃ freed, slFree sl = some freed ∧ freed.Perm (List.range sl.blocks) := by
  rcases slRun_holds hmk hrun with ⟨items, cap, h⟩
  rcases slFree_holds h with ⟨n, hblocks, hfree⟩
  refine ⟨?_, blocksInTurn n, hfree, ?_⟩
  · have hnew : sl₀.blocks = 2 := by
      unfold mkSlist at hmk
      split at hmk
      · simp at hmk
      · cases hmk
        rfl
    rw [slRun_blocks hrun, hnew]
  · rw [hblocks]
    exact blocksInTurn_perm n

/-- `slFree_each_once` for a list with three blocks of nodes. -/
theorem slFree_each_once_expanded :
    ∃ (sl₀ sl : Slist Nat) (results : List (BoundedSeq.Result Nat)) (freed : List Nat),
      mkSlist 1 = some sl₀ ∧
      slRun sl₀ [.push 5, .expand 2, .append 6, .mv2head 6, .expand 1, .pop] = some (results, sl) ∧
      slFree sl = some freed ∧ freed.Perm [0, 1, 2, 3, 4, 5] := by
  rcases @mkSlist_run Nat _ 1 [.push 5, .expand 2, .append 6, .mv2head 6, .expand 1, .pop]
    (Nat.le_refl 1) ⟨by decide, by simp [OpFits]⟩ ⟨trivial, show 1 ≤ 2 by decide, trivial, List.cons_ne_nil _ _, Nat.le_refl 1, trivial,
      trivial⟩ with ⟨sl₀, sl, hmk, hrun, -⟩
  rcases slFree_each_once hmk hrun with ⟨hblocks, freed, hfree, hperm⟩
  rw [hblocks] at hperm
  exact ⟨sl₀, sl, _, freed, hmk, hrun, hfree, hperm⟩

/-! ## `mv2head` beside `find` -/

/-- `mv2head` returns, with 0 exactly when `find` finds the datum, and then
`find` finds afterwards what it found before. -/
def Slist.MovesWhatItFinds (sl : Slist α) (d : α) : Prop :=
  ∃ code sl', mv2head d sl = some (code, sl') ∧ (code = 0 ↔ find d sl = some 1) ∧
    (code = 0 → ∀ e, find e sl' = some 1 ↔ find e sl = some 1)

theorem find_eq_one_iff (h : sl.Holds items capacity) (d : α) : find d sl = some 1 ↔ d ∈ items := by
  rw [find_holds h]
  split <;> simp [*]

theorem Slist.Holds.movesWhatItFinds_iff (h : sl.Holds items capacity) (d : α) :
    sl.MovesWhatItFinds d ↔ items ≠ [] := by
  constructor
  · rintro ⟨code, sl', hmove, -⟩ hnil
    rw [hnil] at h
    rw [mv2head_empty h] at hmove
    simp at hmove
  · intro hne
    rcases mv2head_holds h hne d with ⟨sl', hmove, h'⟩
    refine ⟨_, sl', hmove, ?_, ?_⟩
    · rw [find_eq_one_iff h]
      split <;> simp [*]
    · intro hcode e
      have hmem : d ∈ items := by
        by_contra hnot
        rw [if_neg hnot] at hcode
        omega
      -- the items are the same ones in another order
      rw [if_pos hmem] at h'
      rw [find_eq_one_iff h, find_eq_one_iff h']
      exact (List.perm_cons_erase hmem).mem_iff.symm

/-- `mv2head` agrees with `find` on every list with a head, and on no other: it
does not ask whether there is one. -/
theorem mv2head_moves_iff {ops : List (BoundedSeq.Op α)} {results : List (BoundedSeq.Result α)}
    (hmk : mkSlist capacity = some sl₀) (hrun : slRun sl₀ ops = some (results, sl)) (d : α) :
    sl.MovesWhatItFinds d ↔ sl.head ≠ none := by
  rcases slRun_holds hmk hrun with ⟨items, cap, h⟩
  rw [h.movesWhatItFinds_iff]
  rcases h with ⟨-, -, chain, blanks, h⟩
  rw [Ne, Ne, h.head_eq_none_iff]

/-- `mv2head_moves_iff` for the last datum of a list that has it twice. -/
theorem mv2head_moves_iff_twice :
    ∃ (sl₀ sl : Slist Nat) (results : List (BoundedSeq.Result Nat)), mkSlist 3 = some sl₀ ∧
      slRun sl₀ [.push 5, .push 6, .push 5] = some (results, sl) ∧ sl.MovesWhatItFinds 6 := by
  rcases @mkSlist_run Nat _ 3 [.push 5, .push 6, .push 5] (by decide)
    ⟨by decide, by simp [OpFits]⟩ ⟨trivial, trivial, trivial, trivial⟩ with ⟨sl₀, sl, hmk, hrun, -, -, chain, blanks, h⟩
  refine ⟨sl₀, sl, _, hmk, hrun, (mv2head_moves_iff hmk hrun 6).mpr ?_⟩
  rw [Ne, h.head_eq_none_iff]
  exact List.cons_ne_nil _ _

/-- A list emptied by `pop`: `find` returns 0 and `mv2head` goes through NULL. -/
theorem mv2head_of_emptied :
    ∃ sl₀ sl : Slist Nat, mkSlist 1 = some sl₀ ∧
      slRun sl₀ [.push 5, .pop] = some ([.code 0, .datum (some 5)], sl) ∧
      find 5 sl = some 0 ∧ mv2head 5 sl = none ∧ ¬ sl.MovesWhatItFinds 5 := by
  rcases @mkSlist_run Nat _ 1 [.push 5, .pop] (Nat.le_refl 1) ⟨by decide, by simp [OpFits]⟩
    ⟨trivial, trivial, trivial⟩ with ⟨sl₀, sl, hmk, hrun, h⟩
  have hempty : sl.Holds [] 1 := h
  refine ⟨sl₀, sl, hmk, hrun, find_holds hempty 5, mv2head_empty hempty 5, ?_⟩
  rw [hempty.movesWhatItFinds_iff]
  exact not_not_intro rfl

end DnsCache

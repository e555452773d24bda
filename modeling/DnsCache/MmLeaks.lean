import DnsCache.MmRuns

/-! # The allocator leaks nothing

As long as the counters of an extra list can count its chunks, a run leaves the
allocator as it found it once every chunk has been given back.

* `World.Balanced`: the invariant, with what is left of the state after `mm_init`.
* `AtRest`: the allocator with no chunk lent.
* `nothing_leaks`: the runs in which no extra list grows too long.
-/

namespace DnsCache

open Trace

/-! ## What is counted -/

/-- No class has more extra chunks than its counters can count. -/
def World.FewExtra (w : World) : Prop := ∀ cap, (w.extraOf cap).length ≤ 65535

/-- The live chunks of a class. -/
def World.liveOf (w : World) (cap : Nat) : List Nat :=
  w.chunks.filter fun b => (w.mm.heap.chunks b).map (·.capacity) = some cap

/-- The length of the allocated list of a class, if it has one. -/
def Mm.allocedLength (mm : Mm) (cap : Nat) : Nat :=
  if cap < small ∨ big < cap then 0
  else ((mm.chunksManagerTable (cap - small)).map (·.allocedChunks.length)).getD 0

/-- `total_num - idle_num`, if the class has an extra list. -/
def Mm.extraLent (mm : Mm) (cap : Nat) : Int :=
  match mm.elmTable cap with
  | none => 0
  | some elm => elm.totalNum.toNat - elm.idleNum.toNat

/-- With no chunk lent, every stock is complete, no class has an extra list, and
the chunks malloc'ed since there were `base` have been freed once each. -/
structure Mm.AtRest (mm : Mm) (base : Nat) : Prop where
  stock : ∀ i n, chunksNum[i]? = some n → ∃ manager idle,
    mm.chunksManagerTable i = some manager ∧ manager.idleNum.toNat = n ∧
      traverse manager.idleChunks = some idle ∧ idle.length = n ∧
      traverse manager.allocedChunks = some []
  noExtra : ∀ cap, mm.elmTable cap = none
  freedOnce : ∀ b, base ≤ b → b < mm.heap.blocks → mm.heap.frees.count b = 1

/-! ## The invariant -/

/-- The stock consists of the chunks of `mm_init`, and an extra list is only kept
while one of its chunks is lent. -/
structure World.Balanced (w : World) (base : Nat) (P : Nat → Pool Nat) : Prop where
  inv : w.Inv P
  settled : ∀ cap, (P cap).Settled
  old : ∀ cap, ∀ b ∈ (P cap).stock, b < base

variable {w w' : World} {P : Nat → Pool Nat} {base : Nat}

/-- A step changes one pool. -/
theorem World.Balanced.update {cap : Nat} {p : Pool Nat} (h : w.Balanced base P)
    (h' : w'.Inv (Function.update P cap p)) (hp : p.Settled) (hstock : p.stock.Perm (P cap).stock) :
    w'.Balanced base (Function.update P cap p) := by
  refine ⟨h', ?_, ?_⟩
  · intro c
    by_cases hc : c = cap
    · rw [hc, Function.update_self]
      exact hp
    · rw [Function.update_of_ne hc]
      exact h.settled c
  · intro c b hb
    by_cases hc : c = cap
    · rw [hc, Function.update_self, hstock.mem_iff] at hb
      exact h.old cap b hb
    · rw [Function.update_of_ne hc] at hb
      exact h.old c b hb

/-- Few extra chunks are few live ones. -/
theorem World.Inv.spares (h : w.Inv P) (hfew : w.FewExtra) (req : Request) : w.Spares req := by
  cases req with
  | alloc size => trivial
  | free ptr =>
      intro cap hptr k hk hlen
      have hle := hfew cap
      rw [(h.liveExtra_perm cap).length_eq] at hlen
      rw [h.extraOf_eq, Pool.extra, List.length_append] at hle
      omega

/-- The step lemma. -/
theorem step_balanced {req : Request} {evs : List Nat} (h : w.Balanced base P) (hfew : w.FewExtra)
    (hok : w.Allows req) (hstep : mmStep w req = some (w', evs)) : ∃ P', w'.Balanced base P' := by
  cases req with
  | alloc size =>
      rcases alloc_step h.inv hok with ⟨cap, x, mm', new, p, hstep', -, -, htakes, h', -⟩
      rw [hstep', Option.some.injEq, Prod.mk.injEq] at hstep
      rw [← hstep.1]
      exact ⟨_, h.update h' (htakes.settled (h.settled cap)) htakes.stock_perm⟩
  | free ptr =>
      rcases free_step h.inv hok (h.inv.spares hfew _) with ⟨cap, mm', gone, p, hstep', hgives, h', -⟩
      rw [hstep', Option.some.injEq, Prod.mk.injEq] at hstep
      rw [← hstep.1]
      exact ⟨_, h.update h' (hgives.settled (h.settled cap)) hgives.stock_perm⟩

/-- The start lemma: `mm_init` leaves all its chunks in the stocks. -/
theorem balanced_start : ∃ mm₀ P, mmInit = some mm₀ ∧
    World.Balanced ⟨mm₀, []⟩ mm₀.heap.blocks P ∧ World.FewExtra ⟨mm₀, []⟩ := by
  rcases inv_start with ⟨mm₀, P, hinit, h, -, hextra⟩
  refine ⟨mm₀, P, hinit, ⟨h, ?_, ?_⟩, ?_⟩
  · intro cap hnil
    exact (List.append_eq_nil_iff.mp (hextra cap)).1
  · intro cap b hb
    by_contra hge
    have hword := (h.holds.word (List.mem_append_left _ hb)).1
    rw [h.holds.heap.fresh b (Nat.le_of_not_lt hge)] at hword
    simp at hword
  · intro cap
    rw [h.extraOf_eq, hextra]
    exact Nat.zero_le _

/-! ## What the invariant says -/

/-- The counters tell how many extra chunks are lent. -/
theorem World.Inv.extraLent_eq (h : w.Inv P) (hfew : w.FewExtra) (cap : Nat) :
    w.mm.extraLent cap = (P cap).extraLive.length := by
  have hle := hfew cap
  have helm := h.holds.tables.elms cap
  rw [h.extraOf_eq, Pool.extra, List.length_append] at hle
  unfold Mm.extraLent
  revert helm
  cases w.mm.elmTable cap with
  | none =>
      intro helm
      rw [helm.2]
      rfl
  | some elm =>
      intro helm
      have htotal := helm.totalNum
      rw [Pool.extra, List.length_append] at htotal
      simp only [helm.idleNum, htotal, UInt16.toNat_ofNat']
      rw [Nat.mod_eq_of_lt (by omega), Nat.mod_eq_of_lt (by omega)]
      omega

/-- The allocated list holds the chunks of the stock that are lent. -/
theorem World.Inv.allocedLength_eq (h : w.Inv P) (cap : Nat) :
    w.mm.allocedLength cap = (P cap).alloced.length := by
  unfold Mm.allocedLength
  by_cases hclass : cap < small ∨ big < cap
  · have hstock := List.append_eq_nil_iff.mp (h.holds.tables.noStock cap hclass)
    rw [if_pos hclass, hstock.2]
    rfl
  · have hcap : 1 ≤ cap ∧ cap ≤ big := by
      rw [not_or] at hclass
      exact ⟨Nat.le_of_not_lt hclass.1, Nat.le_of_not_lt hclass.2⟩
    rcases h.holds.manager hcap.1 hcap.2 with ⟨manager, n, -, htable, -, hholds⟩
    rw [if_neg hclass, htable]
    exact hholds.alloced.length_eq

theorem World.Inv.liveOf_perm (h : w.Inv P) (cap : Nat) : (w.liveOf cap).Perm (P cap).live := by
  have hnodup := h.holds.live_nodup cap
  apply (List.perm_ext_iff_of_nodup (h.nodup.filter _) hnodup).mpr
  intro b
  rw [List.mem_filter, decide_eq_true_eq]
  constructor
  · intro hb
    rcases h.exists_class hb.1 with ⟨c, hlive⟩
    have hword := (h.holds.liveWord hlive).1
    have hc : c = cap := by
      have hclass := hb.2
      rw [hword] at hclass
      exact Option.some.inj hclass
    rw [← hc]
    exact hlive
  · intro hb
    refine ⟨h.mem cap b hb, ?_⟩
    rw [(h.holds.liveWord hb).1]
    rfl

/-- With no chunk lent, every pool is at rest. -/
theorem World.Balanced.atRest (h : w.Balanced base P) (hnone : w.live = []) :
    w.mm.AtRest base := by
  have hlive : ∀ cap, (P cap).live = [] := by
    intro cap
    apply List.eq_nil_iff_forall_not_mem.mpr
    intro b hb
    have hmem := h.inv.mem cap b hb
    rw [World.chunks, hnone] at hmem
    simp at hmem
  have hextra : ∀ cap, (P cap).extra = [] := by
    intro cap
    have hnil := (List.append_eq_nil_iff.mp (hlive cap)).2
    rw [Pool.extra, h.settled cap hnil, hnil]
    rfl
  constructor
  · intro i n hn
    have hlt : i < chunkTypeNum := (List.getElem?_eq_some_iff.mp hn).1
    rcases h.inv.holds.tables.managers i (Nat.zero_le _) hlt
      with ⟨manager, n', hn', htable, -, hholds⟩
    rw [hn, Option.some.injEq] at hn'
    rw [← hn'] at hholds
    have halloced := (List.append_eq_nil_iff.mp (hlive (small + i))).1
    have hcount := hholds.count
    have hitems := hholds.alloced
    rw [halloced, List.length_nil, Nat.add_zero] at hcount
    rw [halloced] at hitems
    refine ⟨manager, _, htable, ?_, traverse_holds hholds.idle, hcount, traverse_holds hitems⟩
    rw [hholds.idleNum, UInt16.toNat_ofNat', hcount]
    exact Nat.mod_eq_of_lt (Nat.lt_of_le_of_lt (chunksNum_range hn).2 (by decide))
  · intro cap
    have helm := h.inv.holds.tables.elms cap
    cases hentry : w.mm.elmTable cap with
    | none => rfl
    | some elm =>
        rw [hentry] at helm
        exact absurd (hextra cap) helm.nonempty
  · intro b hb hlt
    apply List.count_eq_one_of_mem h.inv.holds.heap.freedOnce
    rw [h.inv.holds.heap.freed]
    refine ⟨hlt, ?_⟩
    cases hchunk : w.mm.heap.chunks b with
    | none => rfl
    | some c =>
        -- only the stocks still have chunks, and those are older
        have hmem := h.inv.holds.heap.mem hchunk
        simp only [Pool.all, hextra, List.append_nil] at hmem
        have hold := h.old _ b hmem
        omega

/-- Every run in which no class gets more than 65535 extra chunks gives back what
it took: the allocator is at rest when no chunk is lent, and in every state the
lists and counters of a class tell how many are. -/
theorem nothing_leaks : ∃ mm₀, mmInit = some mm₀ ∧ ∀ tr w,
    Run mmStep (fun w req => w.Allows req ∧
      ∀ w' evs, mmStep w req = some (w', evs) → w'.FewExtra) ⟨mm₀, []⟩ tr w →
    (w.live = [] → w.mm.AtRest mm₀.heap.blocks) ∧
      ∀ cap, ((w.liveOf cap).length : Int) = w.mm.allocedLength cap + w.mm.extraLent cap := by
  rcases balanced_start with ⟨mm₀, P₀, hinit, h₀, hfew₀⟩
  refine ⟨mm₀, hinit, ?_⟩
  intro tr w hrun
  have hinv : (∃ P, w.Balanced mm₀.heap.blocks P) ∧ w.FewExtra := by
    refine @Run.invariant _ _ _ mmStep _ _
      (fun _ w => (∃ P, w.Balanced mm₀.heap.blocks P) ∧ w.FewExtra) ⟨⟨P₀, h₀⟩, hfew₀⟩ ?_ _ _ hrun
    rintro tr w req w' evs - ⟨⟨P, h⟩, hfew⟩ hok hstep
    exact ⟨step_balanced h hfew hok.1 hstep, hok.2 w' evs hstep⟩
  rcases hinv with ⟨⟨P, h⟩, hfew⟩
  refine ⟨h.atRest, ?_⟩
  intro cap
  rw [(h.inv.liveOf_perm cap).length_eq, h.inv.allocedLength_eq, h.inv.extraLent_eq hfew, Pool.live,
    List.length_append]
  exact Int.natCast_add _ _

/-! ## Runs with few extra chunks -/

/-- A call of `dc_alloc` gets at most two extra chunks, and the trace counts the calls. -/
theorem runs_extra {mm₀ : Mm} {tr : List Nat} (h₀ : World.Inv ⟨mm₀, []⟩ P)
    (hnone : ∀ cap, (P cap).extra = [])
    (h : Run mmStep (fun w req => w.Allows req ∧ w.Spares req) ⟨mm₀, []⟩ tr w) :
    ∃ P, w.Inv P ∧ ∀ cap, (P cap).extra.length ≤ 2 * tr.length := by
  have hupdate : ∀ {P : Nat → Pool Nat} {cap k : Nat} {p : Pool Nat},
      (∀ c, (P c).extra.length ≤ k) → p.extra.length ≤ k →
        ∀ c, (Function.update P cap p c).extra.length ≤ k := by
    intro P cap k p hP hp c
    by_cases hc : c = cap
    · rw [hc, Function.update_self]
      exact hp
    · rw [Function.update_of_ne hc]
      exact hP c
  refine @Run.invariant _ _ _ mmStep _ _
    (fun tr w => ∃ P, w.Inv P ∧ ∀ cap, (P cap).extra.length ≤ 2 * tr.length)
    ⟨P, h₀, fun cap => by rw [hnone]; exact Nat.zero_le _⟩ ?_ _ _ h
  rintro tr w req w' evs - ⟨P, hinv, hle⟩ hok hstep
  cases req with
  | alloc size =>
      rcases alloc_step hinv hok.1
        with ⟨cap, x, mm', new, p, hstep', -, -, htakes, h', -, hnew⟩
      rw [hstep', Option.some.injEq, Prod.mk.injEq] at hstep
      rcases hstep with ⟨rfl, rfl⟩
      have hp := htakes.extra_length
      have hcap := hle cap
      rw [show defaultExtra = 2 from rfl] at hnew
      refine ⟨_, h', hupdate (fun c => ?_) ?_⟩
      · have hc := hle c
        rw [List.length_append, List.length_singleton]
        omega
      · rw [List.length_append, List.length_singleton]
        omega
  | free ptr =>
      rcases free_step hinv hok.1 hok.2 with ⟨cap, mm', gone, p, hstep', hgives, h', -⟩
      rw [hstep', Option.some.injEq, Prod.mk.injEq] at hstep
      rcases hstep with ⟨rfl, rfl⟩
      rw [List.append_nil]
      exact ⟨_, h', hupdate hle (Nat.le_trans hgives.extra_length (hle cap))⟩

/-- With at most 32767 calls of `dc_alloc` no class gets more than 65535 extra chunks. -/
theorem runs_fewExtra {mm₀ : Mm} {tr : List Nat} (hinit : mmInit = some mm₀)
    (h : Run mmStep (fun w req => w.Allows req ∧ w.Spares req) ⟨mm₀, []⟩ tr w)
    (hlen : tr.length ≤ 32767) :
    Run mmStep (fun w req => w.Allows req ∧
      ∀ w' evs, mmStep w req = some (w', evs) → w'.FewExtra) ⟨mm₀, []⟩ tr w := by
  rcases inv_start with ⟨mm₁, P, hinit₁, h₀, -, hnone⟩
  rw [hinit, Option.some.injEq] at hinit₁
  rw [← hinit₁] at h₀
  induction h with
  | nil => exact .nil
  | @snoc tr w w' req evs hrun hok hstep ih =>
      rw [List.length_append] at hlen
      refine .snoc (ih (by omega)) ⟨hok.1, ?_⟩ hstep
      intro w'' evs'' hstep''
      rw [hstep, Option.some.injEq, Prod.mk.injEq] at hstep''
      rcases runs_extra h₀ hnone (.snoc hrun hok hstep) with ⟨P', hinv, hle⟩
      intro cap
      have hcap := hle cap
      rw [List.length_append] at hcap
      rw [← hstep''.1, hinv.extraOf_eq]
      omega

/-- `nothing_leaks` after two chunks have been taken and given back. -/
theorem nothing_leaks_two : ∃ mm₀ x y w, mmInit = some mm₀ ∧
    Run mmStep (fun w req => w.Allows req ∧ w.Spares req) ⟨mm₀, []⟩ [x, y] w ∧
    w.live = [] ∧ w.mm.AtRest mm₀.heap.blocks := by
  rcases runs_freed with ⟨mm₀, x, y, mm, P, hinit, hfreed, h⟩
  have hy : y ∈ World.chunks ⟨mm, [(y, 2 ^ 20 + 1)]⟩ := List.mem_singleton_self y
  have hspares := @World.spares_of_few ⟨mm, [(y, 2 ^ 20 + 1)]⟩ (show 1 ≤ 65536 by decide) (.free y)
  rcases free_step h hy hspares with ⟨_, mm', _, _, hstep, -, -, -⟩
  have hrun := Run.snoc (a := Request.free y) hfreed ⟨hy, hspares⟩ hstep
  have hlive : List.filter (fun c => decide (c.1 ≠ y)) [(y, (2 ^ 20 + 1 : UInt64))] = [] := by simp
  rw [hlive] at hrun
  rcases nothing_leaks with ⟨mm₀', hinit', hall⟩
  rw [hinit, Option.some.injEq] at hinit'
  rw [← hinit'] at hall
  exact ⟨mm₀, x, y, _, hinit, hrun, rfl,
    (hall _ _ (runs_fewExtra hinit hrun (show 2 ≤ 32767 by decide))).1 rfl⟩

end DnsCache

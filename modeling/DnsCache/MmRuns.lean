import DnsCache.Lib.Trace
import DnsCache.Pools

/-! # Runs of the allocator

The callers of the allocator are added to it: what they have got from `dc_alloc`
and not yet given to `dc_free` is live.

* `mmStep`: a call of `dc_alloc` or `dc_free`.
* `World.Spares`: a call of `dc_free` that does not meet a counter gone round.
* `World.Inv`: the live chunks are those that the pools have lent.
* `chunks_honoured`, `live_chunks_freed`: what holds of all runs that spare the
  extra lists, and a run that does not.
-/

namespace DnsCache

open Trace

/-! ## The calls -/

/-- The allocator and the live chunks, each with the size that was asked for. -/
structure World where
  mm : Mm
  live : List (Nat × UInt64)

def World.chunks (w : World) : List Nat := w.live.map Prod.fst

/-- A call. -/
inductive Request where
  | alloc (size : UInt64)
  | free (ptr : Nat)
deriving DecidableEq, Repr

/-- The calls that `dc_mm.h` allows, for sizes up to the biggest class. -/
def World.Allows (w : World) : Request → Prop
  | .alloc size => 2 ≤ size ∧ size ≤ 2 ^ 30
  | .free ptr => ptr ∈ w.chunks

/-- One call, with the chunk it returned. -/
def mmStep (w : World) : Request → Option (World × List Nat)
  | .alloc size => do
      let (ptr, mm) ← dcAlloc size w.mm
      let ptr ← ptr
      return (⟨mm, (ptr, size) :: w.live⟩, [ptr])
  | .free ptr => do
      let mm ← dcFree (some ptr) w.mm
      return (⟨mm, w.live.filter fun c => c.1 ≠ ptr⟩, [])

/-- The chunks in the extra list of a class. -/
def World.extraOf (w : World) (cap : Nat) : List Nat :=
  ((w.mm.elmTable cap).bind fun elm => traverse elm.chunksList).getD []

/-- The live ones among them. -/
def World.liveExtra (w : World) (cap : Nat) : List Nat :=
  w.chunks.filter fun b => b ∈ w.extraOf cap

/-- A chunk that goes back to an extra list does not leave a positive multiple of
2^16 live chunks in it. -/
def World.Spares (w : World) : Request → Prop
  | .alloc _ => True
  | .free ptr => ∀ cap, ptr ∈ w.extraOf cap → ∀ k, 1 ≤ k → (w.liveExtra cap).length ≠ 65536 * k + 1

/-- What `dc_mm.h` promises for the live chunks: they differ, they are large
enough and none of them has been handed to `free`. -/
structure World.Honoured (w : World) : Prop where
  distinct : w.chunks.Nodup
  enough : ∀ c ∈ w.live, ∃ chunk, w.mm.heap.chunks c.1 = some chunk ∧ c.2.toNat ≤ chunk.bytes
  kept : ∀ b ∈ w.chunks, b ∉ w.mm.heap.frees

/-! ## The invariant -/

/-- The live chunks are those that the pools have lent. -/
structure World.Inv (w : World) (P : Nat → Pool Nat) : Prop where
  holds : w.mm.Holds P
  nodup : w.chunks.Nodup
  mem : ∀ cap b, b ∈ (P cap).live → b ∈ w.chunks
  lent : ∀ c ∈ w.live, ∃ cap, c.1 ∈ (P cap).live ∧ c.2.toNat ≤ 2 ^ cap

variable {w w' : World} {P : Nat → Pool Nat} {x : Nat}

theorem World.Inv.exists_class (h : w.Inv P) (hx : x ∈ w.chunks) : ∃ cap, x ∈ (P cap).live := by
  rcases List.mem_map.mp hx with ⟨c, hc, rfl⟩
  rcases h.lent c hc with ⟨cap, hlive, -⟩
  exact ⟨cap, hlive⟩

theorem World.Inv.honoured (h : w.Inv P) : w.Honoured where
  distinct := h.nodup
  enough := by
    intro c hc
    rcases h.lent c hc with ⟨cap, hlive, hsize⟩
    exact ⟨_, (h.holds.liveWord hlive).1, hsize⟩
  kept := by
    intro b hb hfreed
    rcases h.exists_class hb with ⟨cap, hlive⟩
    have hword := (h.holds.liveWord hlive).1
    rw [((h.holds.heap.freed b).mp hfreed).2] at hword
    simp at hword

/-- The extra list holds the extra chunks of the pool. -/
theorem World.Inv.extraOf_eq (h : w.Inv P) (cap : Nat) : w.extraOf cap = (P cap).extra := by
  have helm := h.holds.tables.elms cap
  unfold World.extraOf
  revert helm
  cases w.mm.elmTable cap with
  | none =>
      intro helm
      rw [Pool.extra, helm.1, helm.2]
      rfl
  | some elm =>
      intro helm
      rw [Option.bind_some, traverse_holds helm.chunks, Option.getD_some]

/-- A live chunk in the extra list of a class is one that the pool has lent from it. -/
theorem World.Inv.mem_extraOf_iff (h : w.Inv P) (hx : x ∈ w.chunks) (cap : Nat) :
    x ∈ w.extraOf cap ↔ x ∈ (P cap).extraLive := by
  rw [h.extraOf_eq]
  constructor
  · intro hextra
    rcases h.exists_class hx with ⟨c, hlive⟩
    -- a chunk has only one class
    have hc : c = cap := h.holds.class_unique ((P c).live_sublist.subset hlive)
      (List.mem_append_right _ hextra)
    rw [hc] at hlive
    exact Pool.mem_extraLive (h.holds.heap.nodup cap) hlive hextra
  · intro hlive
    exact List.mem_append_right _ hlive

theorem World.Inv.liveExtra_perm (h : w.Inv P) (cap : Nat) :
    (w.liveExtra cap).Perm (P cap).extraLive := by
  apply (List.perm_ext_iff_of_nodup (h.nodup.filter _) (h.holds.extraLive_nodup cap)).mpr
  intro b
  rw [List.mem_filter, decide_eq_true_eq]
  constructor
  · intro hb
    exact (h.mem_extraOf_iff hb.1 cap).mp hb.2
  · intro hb
    have hmem := h.mem cap b (List.mem_append_right _ hb)
    exact ⟨hmem, (h.mem_extraOf_iff hmem cap).mpr hb⟩

/-! ## One call -/

/-- The pool of one class has changed. -/
theorem live_update {cap c : Nat} {p : Pool Nat} {b : Nat}
    (h : b ∈ (Function.update P cap p c).live) : c = cap ∧ b ∈ p.live ∨ c ≠ cap ∧ b ∈ (P c).live := by
  by_cases hc : c = cap
  · rw [hc, Function.update_self] at h
    exact .inl ⟨hc, h⟩
  · rw [Function.update_of_ne hc] at h
    exact .inr ⟨hc, h⟩

theorem mem_live_update {cap c : Nat} {p : Pool Nat} {b : Nat}
    (hkeep : b ∈ (P cap).live → b ∈ p.live) (hb : b ∈ (P c).live) :
    b ∈ (Function.update P cap p c).live := by
  by_cases hc : c = cap
  · rw [hc, Function.update_self]
    rw [hc] at hb
    exact hkeep hb
  · rw [Function.update_of_ne hc]
    exact hb

/-- `dc_alloc` lends a chunk that is not live. -/
theorem alloc_step {size : UInt64} (h : w.Inv P) (hok : w.Allows (.alloc size)) :
    ∃ cap x mm' new p, mmStep w (.alloc size) = some (⟨mm', (x, size) :: w.live⟩, [x]) ∧
      capOf size = some cap ∧ x ∉ w.chunks ∧ (P cap).Takes new x p ∧
      World.Inv ⟨mm', (x, size) :: w.live⟩ (Function.update P cap p) ∧
      mm'.heap.frees = w.mm.heap.frees ∧ new.length ≤ defaultExtra := by
  rcases dcAlloc_holds h.holds hok.1 hok.2
    with ⟨cap, x, mm', new, p, halloc, hcapOf, hle, htakes, h', hfrees⟩
  have hperm := htakes.live_perm
  have hx : x ∈ (Function.update P cap p cap).live := by
    rw [Function.update_self]
    exact hperm.mem_iff.mpr List.mem_cons_self
  have hnew : x ∉ w.chunks := by
    intro hmem
    rcases h.exists_class hmem with ⟨c, hlive⟩
    by_cases hc : c = cap
    · -- the chunks of a pool are distinct
      have hnodup := h'.live_nodup cap
      rw [Function.update_self, hperm.nodup_iff, List.nodup_cons] at hnodup
      rw [hc] at hlive
      exact hnodup.1 hlive
    · have hother : x ∈ (Function.update P cap p c).live := by
        rw [Function.update_of_ne hc]
        exact hlive
      exact hc (h'.liveClass_unique hother hx)
  refine ⟨cap, x, mm', new, p, ?_, hcapOf, hnew, htakes, ⟨h', ?_, ?_, ?_⟩, hfrees⟩
  · simp only [mmStep, halloc, Option.bind_eq_bind, Option.bind_some, Option.pure_def]
  · exact List.nodup_cons.mpr ⟨hnew, h.nodup⟩
  · intro c b hb
    rcases live_update hb with ⟨hc, hb⟩ | ⟨hc, hb⟩
    · rcases List.mem_cons.mp (hperm.mem_iff.mp hb) with rfl | hb
      · exact List.mem_cons_self
      · exact List.mem_cons_of_mem _ (h.mem cap b hb)
    · exact List.mem_cons_of_mem _ (h.mem c b hb)
  · intro c hc
    rcases List.mem_cons.mp hc with rfl | hc
    · exact ⟨cap, hx, hle⟩
    · rcases h.lent c hc with ⟨cap', hlive, hsize⟩
      refine ⟨cap', mem_live_update ?_ hlive, hsize⟩
      intro hlive
      exact hperm.mem_iff.mpr (List.mem_cons_of_mem _ hlive)

/-- The chunks that are live after a call of `dc_free`. -/
theorem chunks_free (live : List (Nat × UInt64)) (mm : Mm) (x : Nat) :
    World.chunks ⟨mm, live.filter fun c => c.1 ≠ x⟩ = (live.map Prod.fst).filter (· ≠ x) := by
  rw [World.chunks, List.filter_map]
  rfl

/-- A pool has taken its chunk back. -/
theorem World.Inv.give {cap : Nat} {mm' : Mm} {p : Pool Nat} {gone : List Nat} (h : w.Inv P)
    (hgives : (P cap).Gives x gone p) (h' : mm'.Holds (Function.update P cap p)) :
    World.Inv ⟨mm', w.live.filter fun c => c.1 ≠ x⟩ (Function.update P cap p) := by
  have hperm := hgives.live_perm
  have hxlive : x ∈ (P cap).live := hperm.mem_iff.mpr List.mem_cons_self
  have hnodup := h.holds.live_nodup cap
  rw [hperm.nodup_iff, List.nodup_cons] at hnodup
  refine ⟨h', ?_, ?_, ?_⟩
  · rw [chunks_free]
    exact h.nodup.filter _
  · intro c b hb
    rw [chunks_free, List.mem_filter]
    rcases live_update hb with ⟨hc, hb⟩ | ⟨hc, hb⟩
    · refine ⟨h.mem cap b (hperm.mem_iff.mpr (List.mem_cons_of_mem _ hb)), ?_⟩
      rw [decide_eq_true_eq]
      rintro rfl
      exact hnodup.1 hb
    · refine ⟨h.mem c b hb, ?_⟩
      rw [decide_eq_true_eq]
      rintro rfl
      exact hc (h.holds.liveClass_unique hb hxlive)
  · intro c hc
    rw [List.mem_filter, decide_eq_true_eq] at hc
    rcases h.lent c hc.1 with ⟨cap', hlive, hsize⟩
    refine ⟨cap', mem_live_update ?_ hlive, hsize⟩
    intro hlive
    exact (List.mem_cons.mp (hperm.mem_iff.mp hlive)).resolve_left hc.2

/-- What sparing the extra lists means for the pools. -/
theorem World.Inv.spares_iff (h : w.Inv P) (hx : x ∈ w.chunks) :
    w.Spares (.free x) ↔ ∀ cap, x ∈ (P cap).extraLive →
      ∀ k, 1 ≤ k → (P cap).extraLive.length ≠ 65536 * k + 1 := by
  unfold World.Spares
  simp only [h.mem_extraOf_iff hx, (h.liveExtra_perm _).length_eq]

/-- A chunk that spares its extra list is the last one lent, or the counters differ. -/
theorem World.Inv.spare {cap : Nat} (h : w.Inv P) (hxw : x ∈ w.chunks)
    (hspares : w.Spares (.free x)) (hx : x ∈ (P cap).extraLive)
    (hlast : (P cap).extraLive.length % 65536 = 1) : (P cap).extraLive.length = 1 := by
  by_contra hne
  apply (h.spares_iff hxw).mp hspares cap hx ((P cap).extraLive.length / 65536)
  · omega
  · omega

/-- `dc_free` takes the chunk back. -/
theorem free_step (h : w.Inv P) (hx : x ∈ w.chunks) (hspares : w.Spares (.free x)) :
    ∃ cap mm' gone p,
      mmStep w (.free x) = some (⟨mm', w.live.filter fun c => c.1 ≠ x⟩, []) ∧
      (P cap).Gives x gone p ∧
      World.Inv ⟨mm', w.live.filter fun c => c.1 ≠ x⟩ (Function.update P cap p) ∧
      mm'.heap.frees = w.mm.heap.frees ++ gone := by
  rcases h.exists_class hx with ⟨cap, hlive⟩
  rcases dcFree_holds h.holds hlive (h.spare hx hspares)
    with ⟨mm', gone, p, hfree, hgives, h', hfrees⟩
  refine ⟨cap, mm', gone, p, ?_, hgives, h.give hgives h', hfrees⟩
  simp only [mmStep, hfree, Option.bind_eq_bind, Option.bind_some, Option.pure_def]

/-- A call that does not spare the extra list: it is destroyed with its live chunks,
of which there are others. -/
theorem free_unspared (h : w.Inv P) (hx : x ∈ w.chunks) (hnot : ¬ w.Spares (.free x)) :
    ∃ cap mm', mmStep w (.free x) = some (⟨mm', w.live.filter fun c => c.1 ≠ x⟩, []) ∧
      x ∈ (P cap).extraLive ∧ (∃ y ∈ (P cap).extraLive, y ≠ x) ∧
      ∀ b ∈ (P cap).extraLive, b ∈ mm'.heap.frees ∧ mm'.heap.chunks b = none := by
  simp only [h.spares_iff hx, not_forall, not_not] at hnot
  rcases hnot with ⟨cap, hxlive, k, hk, hlen⟩
  rcases dcFree_extra h.holds hxlive with ⟨elm, helm, hcap, hcap', hdispatch⟩
  rcases freeExtra_destroys h.holds hcap hcap' helm hxlive (by omega)
    with ⟨mm', hfree, h', hfrees⟩
  refine ⟨cap, mm', ?_, hxlive, ?_, ?_⟩
  · simp only [mmStep, hdispatch, hfree, Option.bind_eq_bind, Option.bind_some, Option.pure_def]
  · have hnodup := h.holds.extraLive_nodup cap
    have hne : (P cap).extraLive.erase x ≠ [] := by
      intro hnil
      have herase := List.length_erase_of_mem hxlive
      rw [hnil, List.length_nil] at herase
      omega
    rcases List.exists_mem_of_ne_nil _ hne with ⟨y, hy⟩
    exact ⟨y, (hnodup.mem_erase_iff.mp hy).2, (hnodup.mem_erase_iff.mp hy).1⟩
  · intro b hb
    have hfreed : b ∈ mm'.heap.frees := by
      rw [hfrees]
      apply List.mem_append_right
      by_cases hbx : b = x
      · rw [hbx]
        exact List.mem_cons_self
      · apply List.mem_cons_of_mem
        exact List.mem_append_right _ ((List.mem_erase_of_ne hbx).mpr hb)
    exact ⟨hfreed, ((h'.heap.freed b).mp hfreed).2⟩

/-- A call of `dc_free` keeps the promise exactly when it spares the extra lists. -/
theorem free_honoured_iff (h : w.Inv P) (hx : x ∈ w.chunks) :
    ∃ w', mmStep w (.free x) = some (w', []) ∧ (w'.Honoured ↔ w.Spares (.free x)) := by
  by_cases hspares : w.Spares (.free x)
  · rcases free_step h hx hspares with ⟨cap, mm', gone, p, hstep, -, h', -⟩
    exact ⟨_, hstep, fun _ => hspares, fun _ => h'.honoured⟩
  · rcases free_unspared h hx hspares with ⟨cap, mm', hstep, -, ⟨y, hylive, hyx⟩, hfreed⟩
    refine ⟨_, hstep, ?_, fun hs => absurd hs hspares⟩
    intro hhonoured
    -- another chunk of the list is still live
    refine absurd (hfreed y hylive).1 (hhonoured.kept y ?_)
    rw [chunks_free, List.mem_filter, decide_eq_true_eq]
    exact ⟨h.mem cap y (List.mem_append_right _ hylive), hyx⟩

/-! ## Runs -/

/-- The step lemma. -/
theorem step_inv {req : Request} {evs : List Nat} (h : w.Inv P) (hok : w.Allows req)
    (hspares : w.Spares req) (hstep : mmStep w req = some (w', evs)) : ∃ P', w'.Inv P' := by
  cases req with
  | alloc size =>
      rcases alloc_step h hok with ⟨cap, x, mm', new, p, hstep', -, -, -, h', -⟩
      rw [hstep', Option.some.injEq, Prod.mk.injEq] at hstep
      rw [← hstep.1]
      exact ⟨_, h'⟩
  | free ptr =>
      rcases free_step h hok hspares with ⟨cap, mm', gone, p, hstep', -, h', -⟩
      rw [hstep', Option.some.injEq, Prod.mk.injEq] at hstep
      rw [← hstep.1]
      exact ⟨_, h'⟩

/-- After `mm_init` nothing is live. -/
theorem inv_start : ∃ mm₀ P, mmInit = some mm₀ ∧ World.Inv ⟨mm₀, []⟩ P ∧
    (∀ c, (P c).live = []) ∧ ∀ c, (P c).extra = [] := by
  rcases mmInit_holds with ⟨mm₀, P, hinit, hholds, hlive, hextra⟩
  refine ⟨mm₀, P, hinit, ⟨hholds, List.nodup_nil, ?_, ?_⟩, hlive, hextra⟩
  · intro cap b hb
    rw [hlive] at hb
    simp at hb
  · intro c hc
    simp at hc

/-- The run lemma. -/
theorem runs_inv {tr : List Nat} {w₀ : World} (h₀ : w₀.Inv P)
    (h : Run mmStep (fun w req => w.Allows req ∧ w.Spares req) w₀ tr w) : ∃ P, w.Inv P := by
  refine @Run.invariant _ _ _ mmStep _ w₀ (fun _ w => ∃ P, w.Inv P) ⟨P, h₀⟩ ?_ _ _ h
  rintro tr w req w' evs - ⟨P, hinv⟩ hok hstep
  exact step_inv hinv hok.1 hok.2 hstep

/-- As long as there are few live chunks every call spares them. -/
theorem World.spares_of_few (hfew : w.chunks.length ≤ 65536) (req : Request) : w.Spares req := by
  cases req with
  | alloc size => trivial
  | free ptr =>
      intro cap _ k hk hlen
      have hle : (w.liveExtra cap).length ≤ w.chunks.length := List.length_filter_le _ _
      omega

/-- In a run that spares the extra lists the promise is kept: every allowed call
returns, a chunk that it returns is not live, and the promise is kept after the
call as well exactly when this call, too, spares the extra lists. -/
theorem chunks_honoured (tr : List Nat) : ∃ mm₀, mmInit = some mm₀ ∧ ∀ w,
    Run mmStep (fun w req => w.Allows req ∧ w.Spares req) ⟨mm₀, []⟩ tr w →
    w.Honoured ∧ ∀ req, w.Allows req → ∃ w' evs, mmStep w req = some (w', evs) ∧
      (∀ b ∈ evs, b ∉ w.chunks) ∧ (w'.Honoured ↔ w.Spares req) := by
  rcases inv_start with ⟨mm₀, P, hinit, h₀, -, -⟩
  refine ⟨mm₀, hinit, ?_⟩
  intro w hrun
  rcases runs_inv h₀ hrun with ⟨P', h⟩
  refine ⟨h.honoured, ?_⟩
  intro req hok
  cases req with
  | alloc size =>
      rcases alloc_step h hok with ⟨cap, x, mm', new, p, hstep, -, hx, -, h', -⟩
      refine ⟨_, _, hstep, ?_, fun _ => trivial, fun _ => h'.honoured⟩
      intro b hb
      rw [List.mem_singleton.mp hb]
      exact hx
  | free ptr =>
      rcases free_honoured_iff h hok with ⟨w', hstep, hiff⟩
      exact ⟨w', [], hstep, fun b hb => absurd hb List.not_mem_nil, hiff⟩

/-- A chunk of the stock of its class, and one of a class without a stock. -/
theorem runs_two : ∃ mm₀ x y mm P, mmInit = some mm₀ ∧
    Run mmStep (fun w req => w.Allows req ∧ w.Spares req) ⟨mm₀, []⟩ [x, y]
      ⟨mm, [(y, 2 ^ 20 + 1), (x, 513)]⟩ ∧
    World.Inv ⟨mm, [(y, 2 ^ 20 + 1), (x, 513)]⟩ P := by
  rcases inv_start with ⟨mm₀, P₀, hinit, h₀, -, -⟩
  have hok₁ : (⟨mm₀, []⟩ : World).Allows (.alloc 513) := ⟨by decide, by decide⟩
  rcases alloc_step h₀ hok₁ with ⟨_, x, mm₁, _, _, hstep₁, -, -, -, h₁, -⟩
  have hok₂ : (⟨mm₁, [(x, 513)]⟩ : World).Allows (.alloc (2 ^ 20 + 1)) := ⟨by decide, by decide⟩
  rcases alloc_step h₁ hok₂ with ⟨_, y, mm₂, _, _, hstep₂, -, -, -, h₂, -⟩
  exact ⟨mm₀, x, y, mm₂, _, hinit,
    .snoc (.snoc .nil ⟨hok₁, trivial⟩ hstep₁) ⟨hok₂, trivial⟩ hstep₂, h₂⟩

/-- The first of them is given back. -/
theorem runs_freed : ∃ mm₀ x y mm P, mmInit = some mm₀ ∧
    Run mmStep (fun w req => w.Allows req ∧ w.Spares req) ⟨mm₀, []⟩ [x, y] ⟨mm, [(y, 2 ^ 20 + 1)]⟩ ∧
    World.Inv ⟨mm, [(y, 2 ^ 20 + 1)]⟩ P := by
  rcases runs_two with ⟨mm₀, x, y, mm, P, hinit, hallocs, h⟩
  have hmem : x ∈ World.chunks ⟨mm, [(y, 2 ^ 20 + 1), (x, 513)]⟩ := by simp [World.chunks]
  have hspares := @World.spares_of_few ⟨mm, [(y, 2 ^ 20 + 1), (x, 513)]⟩
    (show 2 ≤ 65536 by decide) (.free x)
  rcases free_step h hmem hspares with ⟨_, mm', _, _, hstep, -, h', -⟩
  have hne : y ≠ x := (List.nodup_cons.mp h.nodup).1 ∘ fun heq => heq ▸ List.mem_singleton_self x
  have hleft : List.filter (fun c => decide (c.1 ≠ x)) [(y, (2 ^ 20 + 1 : UInt64)), (x, 513)] =
      [(y, 2 ^ 20 + 1)] := by simp [hne]
  have hrun := Run.snoc (a := Request.free x) hallocs ⟨hmem, hspares⟩ hstep
  rw [hleft] at hrun h'
  exact ⟨mm₀, x, y, mm', _, hinit, hrun, h'⟩

/-- `chunks_honoured` after two calls of `dc_alloc` and a `dc_free` of the first chunk. -/
theorem chunks_honoured_two : ∃ mm₀ x y w, mmInit = some mm₀ ∧
    Run mmStep (fun w req => w.Allows req ∧ w.Spares req) ⟨mm₀, []⟩ [x, y] w ∧
    w.live = [(y, 2 ^ 20 + 1)] ∧ w.Honoured := by
  rcases runs_freed with ⟨mm₀, x, y, mm, P, hinit, hrun, -⟩
  rcases chunks_honoured [x, y] with ⟨mm₀', hinit', hall⟩
  rw [hinit, Option.some.injEq] at hinit'
  rw [← hinit'] at hall
  exact ⟨mm₀, x, y, _, hinit, hrun, rfl, (hall _ hrun).1⟩

/-! ## A run with many live chunks -/

/-- Chunks of the class 21, which has no stock, all come from its extra list. -/
theorem allocs_of_class {size : UInt64} {n : Nat} (hok : w.Allows (.alloc size))
    (hcap : capOf size = some 21) (h : w.Inv P) (hall : ∀ b ∈ w.chunks, b ∈ (P 21).extraLive) :
    ∃ w' tr P', exec mmStep w (List.replicate n (.alloc size)) = some (w', tr) ∧ w'.Inv P' ∧
      w'.chunks.length = w.chunks.length + n ∧ ∀ b ∈ w'.chunks, b ∈ (P' 21).extraLive := by
  induction n generalizing w P with
  | zero => exact ⟨w, [], P, rfl, h, rfl, hall⟩
  | succ n ih =>
      rcases alloc_step h hok with ⟨cap, x, mm', new, p, hstep, hcap', -, htakes, h', -⟩
      rw [hcap, Option.some.injEq] at hcap'
      rw [← hcap'] at htakes h'
      -- the chunk cannot come from a stock
      have hp : p.extraLive = (P 21).extraLive ++ [x] := by
        cases htakes with
        | stock hidle =>
            have hstock := h.holds.tables.noStock 21 (.inr (by decide))
            rw [Pool.stock, hidle] at hstock
            simp at hstock
        | extra hidle hnew => rfl
      have hall' : ∀ b ∈ x :: w.chunks, b ∈ (Function.update P 21 p 21).extraLive := by
        intro b hb
        rw [Function.update_self, hp]
        rcases List.mem_cons.mp hb with rfl | hb
        · exact List.mem_append_right _ (List.mem_singleton_self b)
        · exact List.mem_append_left _ (hall b hb)
      rcases @ih ⟨mm', (x, size) :: w.live⟩ _ hok h' hall' with ⟨w', tr, P', hexec, hinv, hlen, hrest⟩
      refine ⟨w', [x] ++ tr, P', ?_, hinv, ?_, hrest⟩
      · simp only [List.replicate_succ, exec, hstep, hexec, Option.bind_some, Option.map_some]
      · rw [hlen]
        show w.chunks.length + 1 + n = _
        omega

/-- A call that leaves all but one of its chunks lent does not spare their extra list. -/
theorem not_spares {cap k : Nat} (h : w.Inv P) (hall : ∀ b ∈ w.chunks, b ∈ (P cap).extraLive)
    (hk : 1 ≤ k) (hlen : w.chunks.length = 65536 * k + 1) (hx : x ∈ w.chunks) :
    ¬ w.Spares (.free x) := by
  intro hspares
  have hextra : ∀ b ∈ w.chunks, b ∈ w.extraOf cap := by
    intro b hb
    rw [h.extraOf_eq]
    exact List.mem_append_right _ (hall b hb)
  have hlive : w.liveExtra cap = w.chunks := by
    apply List.filter_eq_self.mpr
    intro b hb
    exact decide_eq_true (hextra b hb)
  apply hspares cap (hextra x hx) k hk
  rw [hlive, hlen]

/-- `dc_alloc (2^20 + 1)` 65537 times and one `dc_free`, of any of the chunks: the
65536 others are live and have been handed to `free`. -/
theorem live_chunks_freed : ∃ mm₀ w tr, mmInit = some mm₀ ∧
    exec mmStep ⟨mm₀, []⟩ (List.replicate 65537 (.alloc (2 ^ 20 + 1))) = some (w, tr) ∧
    w.chunks.length = 65537 ∧ ∀ x ∈ w.chunks, ∃ w', mmStep w (.free x) = some (w', []) ∧
      w'.chunks = w.chunks.filter (· ≠ x) ∧ (∀ b ∈ w'.chunks, b ∈ w'.mm.heap.frees) ∧
      ¬ w'.Honoured := by
  rcases inv_start with ⟨mm₀, P₀, hinit, h₀, -, -⟩
  rcases @allocs_of_class _ _ (2 ^ 20 + 1) 65537 ⟨by decide, by decide⟩ (by decide) h₀
    (fun b hb => absurd hb List.not_mem_nil) with ⟨w, tr, P, hexec, h, hlen, hall⟩
  rw [show (World.chunks ⟨mm₀, []⟩).length = 0 from rfl, Nat.zero_add] at hlen
  refine ⟨mm₀, w, tr, hinit, hexec, hlen, ?_⟩
  intro x hx
  -- the 65536 other chunks make the counters agree
  have hnot := not_spares h hall (Nat.le_refl 1) hlen hx
  rcases free_unspared h hx hnot with ⟨cap, mm', hstep, hxlive, -, hfreed⟩
  have hcap : cap = 21 := h.holds.liveClass_unique (List.mem_append_right _ hxlive)
    (List.mem_append_right _ (hall x hx))
  refine ⟨_, hstep, chunks_free _ _ _, ?_, ?_⟩
  · intro b hb
    rw [chunks_free, List.mem_filter] at hb
    refine (hfreed b ?_).1
    rw [hcap]
    exact hall b hb.1
  · intro hhonoured
    rcases free_honoured_iff h hx with ⟨w', hstep', hiff⟩
    rw [hstep, Option.some.injEq, Prod.mk.injEq] at hstep'
    rw [← hstep'.1] at hiff
    exact hnot (hiff.mp hhonoured)

end DnsCache

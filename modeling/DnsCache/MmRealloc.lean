import DnsCache.MmRuns

/-! # `dc_realloc`

* `dcRealloc`: a new chunk, a copy of all bytes of the old one, and `dc_free`.
* `memStep`: the calls of the allocator and the callers' stores.
* `realloc_keeps_iff`: when the new chunk is large enough for the copy, and the
  old one is not the wrong one to free.
-/

namespace DnsCache

open Trace

/-! ## The function -/

/-- `memcpy` from block to block. There is no result when it leaves one of them. -/
def memcpy (dst src n : Nat) (heap : Heap) (data : Nat → Nat → UInt8) :
    Option (Nat → Nat → UInt8) := do
  let dstChunk ← heap.chunks dst
  let srcChunk ← heap.chunks src
  if n ≤ dstChunk.bytes ∧ n ≤ srcChunk.bytes then
    return Function.update data dst fun i => if i < n then data src i else data dst i
  else none

/-- `dc_realloc`. `data` are the bytes of the blocks. -/
def dcRealloc (ptr : Option Nat) (size : UInt64) (mm : Mm) (data : Nat → Nat → UInt8) :
    Option (Option Nat × Mm × (Nat → Nat → UInt8)) :=
  match ptr with
  | none => do
      let (ptr, mm) ← dcAlloc size mm
      return (ptr, mm, data)
  | some ptr =>
      if size = 0 then do
        let mm ← dcFree (some ptr) mm
        return (none, mm, data)
      else do
        let bytes ← pow2 (← mm.heap.chunks ptr).capacity
        -- what `size <= POW2(cap)` asks for is commented out
        let (newPtr, mm) ← dcAlloc size mm
        let newPtr ← newPtr
        let data ← memcpy newPtr ptr bytes.toNat mm.heap data
        let mm ← dcFree (some ptr) mm
        return (some newPtr, mm, data)

/-! ## The calls -/

/-- The allocator, the live chunks and the bytes of all blocks. -/
structure Memory extends World where
  data : Nat → Nat → UInt8

/-- What a chunk holds, unless it has been handed to `free`. -/
def Memory.contents (m : Memory) (b : Nat) : Option (List UInt8) :=
  (m.mm.heap.chunks b).map fun chunk => (List.range chunk.bytes).map (m.data b)

/-- A call, or a store to a chunk. -/
inductive MemRequest where
  | call (req : Request)
  | realloc (ptr : Nat) (size : UInt64)
  | store (ptr i : Nat) (byte : UInt8)

/-- One call or store, with the chunk that was returned. -/
def memStep (m : Memory) : MemRequest → Option (Memory × List Nat)
  | .call req => do
      let (w, evs) ← mmStep m.toWorld req
      return (⟨w, m.data⟩, evs)
  | .realloc ptr size => do
      let (newPtr, mm, data) ← dcRealloc (some ptr) size m.mm m.data
      let newPtr ← newPtr
      return (⟨⟨mm, (newPtr, size) :: m.live.filter fun c => c.1 ≠ ptr⟩, data⟩, [newPtr])
  | .store ptr i byte =>
      some (⟨m.toWorld, Function.update m.data ptr (Function.update (m.data ptr) i byte)⟩, [])

/-- What is allowed: a store goes into a live chunk. -/
def Memory.Allows (m : Memory) : MemRequest → Prop
  | .call req => m.toWorld.Allows req
  | .realloc ptr size => ptr ∈ m.chunks ∧ 2 ≤ size ∧ size ≤ 2 ^ 30
  | .store ptr i _ => ptr ∈ m.chunks ∧ ∃ bytes, m.contents ptr = some bytes ∧ i < bytes.length

/-- What `dc_mm.h` promises of a call of `dc_realloc` that takes `m` to `m'`. -/
structure Reallocated (m m' : Memory) (ptr : Nat) (size : UInt64) (newPtr : Nat) : Prop where
  copied : ∃ old new, m.contents ptr = some old ∧ m'.contents newPtr = some new ∧
    size.toNat ≤ new.length ∧
    new.take (min old.length size.toNat) = old.take (min old.length size.toNat)
  inside : ∀ new, m'.contents newPtr = some new → ∀ b i, m'.data b i ≠ m.data b i →
    b = newPtr ∧ i < new.length
  others : ∀ b ∈ m.chunks, b ≠ ptr → b ≠ newPtr ∧ m'.contents b = m.contents b

/-- The call returns, and keeps the promise. -/
def Memory.ReallocKeeps (m : Memory) (ptr : Nat) (size : UInt64) : Prop :=
  ∃ m' newPtr, memStep m (.realloc ptr size) = some (m', [newPtr]) ∧
    Reallocated m m' ptr size newPtr

/-! ## The condition -/

/-- The class has no idle chunk but those of its extra list. -/
def Mm.stockUsed (mm : Mm) (cap : Nat) : Bool :=
  cap < small || big < cap ||
    (mm.chunksManagerTable (cap - small)).all fun manager => manager.idleNum = 0

/-- How many chunks of the extra list of `ptr`'s class are live when `ptr` is freed:
a new chunk of that class is one of them when the stock is used up. -/
def World.lentExtra (w : World) (cap : Nat) (size : UInt64) : Nat :=
  (w.liveExtra cap).length + if size.toNat ≤ 2 ^ cap ∧ w.mm.stockUsed cap then 1 else 0

/-- The size needs a class no smaller than that of the chunk, and a chunk that goes
back to an extra list does not leave a positive multiple of 2^16 live chunks in it. -/
def World.ReallocFits (w : World) (ptr : Nat) (size : UInt64) : Prop :=
  ∀ chunk, w.mm.heap.chunks ptr = some chunk →
    chunk.bytes < 2 * size.toNat ∧
      (ptr ∈ w.extraOf chunk.capacity → ∀ k, 1 ≤ k →
        w.lentExtra chunk.capacity size ≠ 65536 * k + 1)

/-- The steps that stay clear of a counter gone round and of a copy too long. -/
def Memory.Careful (m : Memory) : MemRequest → Prop
  | .call req => m.toWorld.Spares req
  | .realloc ptr size => m.toWorld.ReallocFits ptr size
  | .store _ _ _ => True

/-! ## Between `dc_alloc` and `memcpy` -/

variable {m : Memory} {P P₁ : Nat → Pool Nat} {size : UInt64} {c cap x ptr : Nat} {w₁ : World}

theorem Mm.Holds.stockUsed_iff {mm : Mm} (h : mm.Holds P) (hcap : 1 ≤ cap) :
    mm.stockUsed cap = true ↔ (P cap).idle = [] := by
  unfold Mm.stockUsed
  by_cases hclass : cap < small ∨ big < cap
  · have hstock := h.tables.noStock cap hclass
    have hidle : (P cap).idle = [] := (List.append_eq_nil_iff.mp hstock).1
    rcases hclass with hclass | hclass <;> simp [hclass, hidle]
  · rw [not_or, Nat.not_lt, Nat.not_lt] at hclass
    rcases h.manager hcap hclass.2 with ⟨manager, n, hn, htable, -, hholds⟩
    rw [htable, ← hholds.idleNum_eq_zero_iff hn]
    simp [Nat.not_lt.mpr hclass.1, Nat.not_lt.mpr hclass.2]

/-- `dc_alloc` has lent `x` of the class `cap`. -/
structure Between (m : Memory) (size : UInt64) (P : Nat → Pool Nat) (cap x : Nat) (w₁ : World)
    (P₁ : Nat → Pool Nat) : Prop where
  alloc : dcAlloc size m.mm = some (some x, w₁.mm)
  live : w₁.live = (x, size) :: m.live
  new : x ∉ m.chunks
  inv : w₁.Inv P₁
  lent : x ∈ (P₁ cap).live
  kept : ∀ c, ∀ b ∈ (P c).live, b ∈ (P₁ c).live
  extraLive : ∀ c, (P₁ c).extraLive.length =
    (P c).extraLive.length + if c = cap ∧ (P c).idle = [] then 1 else 0
  extraMem : ∀ c, ∀ b ∈ m.chunks, b ∈ (P₁ c).extraLive ↔ b ∈ (P c).extraLive

theorem exists_between (h : m.toWorld.Inv P) (hsize : 2 ≤ size) (hmax : size ≤ 2 ^ 30) :
    ∃ cap x w₁ P₁, Between m size P cap x w₁ P₁ ∧ size.toNat ≤ 2 ^ cap ∧
      ∀ c < cap, 2 ^ c < size.toNat := by
  rcases alloc_step h ⟨hsize, hmax⟩ with ⟨cap, x, mm', new, p, hstep, hcap, hx, htakes, h', -⟩
  rcases capOf_spec (UInt64.le_trans (by decide) hsize) hmax with ⟨cap', hcap', -, hle, hleast⟩
  rw [hcap, Option.some.injEq] at hcap'
  rw [← hcap'] at hle hleast
  have hperm := htakes.live_perm
  refine ⟨cap, x, _, _, ⟨?_, rfl, hx, h', ?_, ?_, ?_, ?_⟩, hle, hleast⟩
  · simp only [mmStep, Option.bind_eq_bind, Option.bind_eq_some_iff, Option.pure_def,
      Option.some.injEq, Prod.mk.injEq, World.mk.injEq, List.cons.injEq, and_true] at hstep
    rcases hstep with ⟨⟨ptr, mm₁⟩, halloc, x', hptr, ⟨hmm, -⟩, hxx⟩
    dsimp only at hptr hmm ⊢
    rw [halloc, hptr, hxx, hmm]
  · rw [Function.update_self]
    exact hperm.mem_iff.mpr List.mem_cons_self
  · intro c b hb
    refine mem_live_update ?_ hb
    intro hb
    exact hperm.mem_iff.mpr (List.mem_cons_of_mem _ hb)
  · intro c
    by_cases hc : c = cap
    · rw [hc, Function.update_self]
      by_cases hidle : (P cap).idle = []
      · rw [htakes.extraLive.1 hidle, if_pos ⟨rfl, hidle⟩, List.length_append,
          List.length_singleton]
      · rw [htakes.extraLive.2 hidle, if_neg fun hand => hidle hand.2, Nat.add_zero]
    · rw [Function.update_of_ne hc, if_neg fun hand => hc hand.1, Nat.add_zero]
  · intro c b hb
    have hbx : b ≠ x := by
      rintro rfl
      exact hx hb
    by_cases hc : c = cap
    · rw [hc, Function.update_self]
      by_cases hidle : (P cap).idle = []
      · rw [htakes.extraLive.1 hidle, List.mem_append, List.mem_singleton, or_iff_left hbx]
      · rw [htakes.extraLive.2 hidle]
    · rw [Function.update_of_ne hc]

theorem Between.chunks (hb : Between m size P cap x w₁ P₁) : w₁.chunks = x :: m.chunks := by
  rw [World.chunks, hb.live]
  rfl

/-- The word in front of a live chunk stays. -/
theorem Between.word (h : m.toWorld.Inv P) (hb : Between m size P cap x w₁ P₁) {b : Nat}
    (hmem : b ∈ m.chunks) : w₁.mm.heap.chunks b = m.mm.heap.chunks b := by
  rcases h.exists_class hmem with ⟨c, hlive⟩
  rw [(h.holds.liveWord hlive).1,
    (hb.inv.holds.liveWord (hb.kept c b hlive)).1]

theorem Between.newWord (hb : Between m size P cap x w₁ P₁) :
    w₁.mm.heap.chunks x = some ⟨cap, 2 ^ cap⟩ :=
  (hb.inv.holds.liveWord hb.lent).1

/-- Freeing the old chunk spares its extra list. -/
theorem Between.spares_iff (h : m.toWorld.Inv P) (hb : Between m size P cap x w₁ P₁)
    (hlive : ptr ∈ (P c).live) (hsame : c = cap ↔ size.toNat ≤ 2 ^ c) :
    w₁.Spares (.free ptr) ↔
      (ptr ∈ m.extraOf c → ∀ k, 1 ≤ k → m.lentExtra c size ≠ 65536 * k + 1) := by
  have hmem : ptr ∈ m.chunks := h.mem c ptr hlive
  have hcount : (P₁ c).extraLive.length = m.lentExtra c size := by
    have hused : m.mm.stockUsed c = true ↔ (P c).idle = [] :=
      h.holds.stockUsed_iff (h.holds.liveWord hlive).2.1
    rw [hb.extraLive, World.lentExtra, (h.liveExtra_perm c).length_eq]
    simp only [hsame, hused]
  rw [hb.inv.spares_iff (by rw [hb.chunks]; exact List.mem_cons_of_mem _ hmem)]
  constructor
  · intro hspares hextra k hk
    rw [← hcount]
    exact hspares c ((hb.extraMem c ptr hmem).mpr ((h.mem_extraOf_iff hmem c).mp hextra)) k hk
  · intro hspares c' hextra k hk
    have hextra' := (hb.extraMem c' ptr hmem).mp hextra
    -- the chunk has only one class
    have hc : c' = c := h.holds.liveClass_unique (List.mem_append_right _ hextra') hlive
    rw [hc] at hextra' ⊢
    rw [hcount]
    exact hspares ((h.mem_extraOf_iff hmem c).mpr hextra') k hk

/-- What is left to do: the copy, and `dc_free`. -/
theorem Between.memStep_eq (hb : Between m size P cap x w₁ P₁) (hsize : size ≠ 0)
    (hword : m.mm.heap.chunks ptr = some ⟨c, 2 ^ c⟩) (hc : c ≤ biggestCap) :
    memStep m (.realloc ptr size) =
      (memcpy x ptr (2 ^ c) w₁.mm.heap m.data).bind fun data =>
        (dcFree (some ptr) w₁.mm).map fun mm =>
          (⟨⟨mm, (x, size) :: m.live.filter fun c => c.1 ≠ ptr⟩, data⟩, [x]) := by
  obtain ⟨bytes, hbytes⟩ : ∃ bytes, pow2 c = some bytes := ⟨_, if_pos (Nat.lt_succ_of_le hc)⟩
  simp only [memStep, dcRealloc, if_neg hsize, hword, hbytes, (capOf_pow2 hbytes).2.1, hb.alloc,
    Option.bind_eq_bind, Option.bind_some, Option.pure_def]
  cases memcpy x ptr (2 ^ c) w₁.mm.heap m.data with
  | none => rfl
  | some data => cases dcFree (some ptr) w₁.mm <;> rfl

/-- The copy stays in both chunks exactly when the class has not become smaller. -/
theorem Between.memcpy_eq (h : m.toWorld.Inv P) (hb : Between m size P cap x w₁ P₁)
    (hmem : ptr ∈ m.chunks) (hword : m.mm.heap.chunks ptr = some ⟨c, 2 ^ c⟩) :
    memcpy x ptr (2 ^ c) w₁.mm.heap m.data = if c ≤ cap then
      some (Function.update m.data x fun i => if i < 2 ^ c then m.data ptr i else m.data x i)
      else none := by
  have hpow : 2 ^ c ≤ 2 ^ cap ↔ c ≤ cap := Nat.pow_le_pow_iff_right (by decide)
  simp only [memcpy, hb.newWord, hb.word h hmem, hword, hpow, Nat.le_refl, and_true,
    Option.bind_eq_bind, Option.bind_some, Option.pure_def]

/-! ## What becomes of the call -/

theorem Memory.contents_congr {m' : Memory} {b : Nat}
    (hword : m'.mm.heap.chunks b = m.mm.heap.chunks b) (hdata : m'.data b = m.data b) :
    m'.contents b = m.contents b := by
  rw [Memory.contents, hword, hdata, Memory.contents]

theorem dcFree_of_mmStep {w w' : World} {evs : List Nat}
    (h : mmStep w (.free ptr) = some (w', evs)) : dcFree (some ptr) w.mm = some w'.mm := by
  simp only [mmStep, Option.bind_eq_bind, Option.bind_eq_some_iff, Option.pure_def,
    Option.some.injEq, Prod.mk.injEq] at h
  rcases h with ⟨mm, hfree, rfl, -⟩
  exact hfree

/-- The words of the other live chunks stay when one is freed. -/
theorem World.Inv.word_give {w : World} {mm' : Mm} {p : Pool Nat} {gone : List Nat} {b : Nat}
    (h : w.Inv P) (hgives : (P cap).Gives x gone p) (h' : mm'.Holds (Function.update P cap p))
    (hb : b ∈ w.chunks) (hne : b ≠ x) : mm'.heap.chunks b = w.mm.heap.chunks b := by
  rcases h.exists_class hb with ⟨c, hlive⟩
  have hlive' : b ∈ (Function.update P cap p c).live := by
    refine mem_live_update ?_ hlive
    intro hlive
    exact (List.mem_cons.mp (hgives.live_perm.mem_iff.mp hlive)).resolve_left hne
  rw [(h.holds.liveWord hlive).1,
    (h'.liveWord hlive').1]

theorem Memory.contents_eq {b capacity bytes : Nat}
    (hword : m.mm.heap.chunks b = some ⟨capacity, bytes⟩) :
    m.contents b = some ((List.range bytes).map (m.data b)) := by
  rw [Memory.contents, hword]
  rfl

/-- The copy of all bytes of a chunk to a new one that is no smaller, with nothing
lost but the old chunk, is what `dc_realloc` has to do. -/
theorem reallocated_of_copy {m' : Memory} (hword : m.mm.heap.chunks ptr = some ⟨c, 2 ^ c⟩)
    (hnew : m'.mm.heap.chunks x = some ⟨cap, 2 ^ cap⟩) (hcap : c ≤ cap)
    (hsize : size.toNat ≤ 2 ^ cap)
    (hdata : m'.data = Function.update m.data x fun i =>
      if i < 2 ^ c then m.data ptr i else m.data x i)
    (hothers : ∀ b ∈ m.chunks, b ≠ ptr → b ≠ x ∧ m'.mm.heap.chunks b = m.mm.heap.chunks b) :
    Reallocated m m' ptr size x := by
  have hpow : 2 ^ c ≤ 2 ^ cap := Nat.pow_le_pow_right (by decide) hcap
  refine ⟨⟨_, _, Memory.contents_eq hword, Memory.contents_eq hnew, by simpa using hsize, ?_⟩, ?_, ?_⟩
  · -- the bytes that both have are those the copy has reached
    simp only [hdata, Function.update_self, List.length_map, List.length_range, ← List.map_take,
      List.take_range]
    have hmin : min (min (2 ^ c) size.toNat) (2 ^ cap) = min (2 ^ c) size.toNat := by omega
    have hmin' : min (min (2 ^ c) size.toNat) (2 ^ c) = min (2 ^ c) size.toNat := by omega
    rw [hmin, hmin']
    apply List.map_congr_left
    intro i hi
    rw [List.mem_range] at hi
    exact if_pos (by omega)
  · intro new hcontents b i hchanged
    rw [Memory.contents_eq hnew, Option.some.injEq] at hcontents
    rw [← hcontents, List.length_map, List.length_range]
    rw [hdata] at hchanged
    by_cases hbx : b = x
    · refine ⟨hbx, ?_⟩
      by_contra hi
      apply hchanged
      rw [hbx, Function.update_self, if_neg (by omega)]
    · rw [Function.update_of_ne hbx] at hchanged
      exact absurd rfl hchanged
  · intro b hb hbptr
    rcases hothers b hb hbptr with ⟨hbx, hwords⟩
    refine ⟨hbx, Memory.contents_congr hwords ?_⟩
    rw [hdata, Function.update_of_ne hbx]

/-- The copy fits and the old chunk can be freed: the promise is kept. -/
theorem Between.kept_of_spares (h : m.toWorld.Inv P) (hb : Between m size P cap x w₁ P₁)
    (hsize : size ≠ 0) (hlive : ptr ∈ (P c).live) (hle : size.toNat ≤ 2 ^ cap) (hcap : c ≤ cap)
    (hspares : w₁.Spares (.free ptr)) :
    ∃ m' P', memStep m (.realloc ptr size) = some (m', [x]) ∧ m'.toWorld.Inv P' ∧
      Reallocated m m' ptr size x := by
  have hmem : ptr ∈ m.chunks := h.mem c ptr hlive
  have hne : x ≠ ptr := by
    rintro rfl
    exact hb.new hmem
  rcases h.holds.liveWord hlive with ⟨hword, -, hbig⟩
  rcases free_step hb.inv (by rw [hb.chunks]; exact List.mem_cons_of_mem _ hmem) hspares
    with ⟨cap', mm', gone, p, hstep, hgives, h', -⟩
  have hlive' : (w₁.live.filter fun c => c.1 ≠ ptr) =
      (x, size) :: m.live.filter fun c => c.1 ≠ ptr := by
    rw [hb.live, List.filter_cons_of_pos (by simpa using hne)]
  rw [hlive'] at h'
  have hwords : ∀ b ∈ w₁.chunks, b ≠ ptr → mm'.heap.chunks b = w₁.mm.heap.chunks b :=
    fun b hbmem hbptr => hb.inv.word_give hgives h'.holds hbmem hbptr
  rw [hb.chunks] at hwords
  refine ⟨⟨⟨mm', (x, size) :: m.live.filter fun c => c.1 ≠ ptr⟩,
    Function.update m.data x fun i => if i < 2 ^ c then m.data ptr i else m.data x i⟩, _, ?_, h', ?_⟩
  · rw [hb.memStep_eq hsize hword hbig, hb.memcpy_eq h hmem hword, if_pos hcap, Option.bind_some,
      dcFree_of_mmStep hstep]
    rfl
  · refine reallocated_of_copy hword ((hwords x List.mem_cons_self hne).trans hb.newWord) hcap hle
      rfl ?_
    intro b hbmem hbptr
    have hbx : b ≠ x := by
      rintro rfl
      exact hb.new hbmem
    exact ⟨hbx, (hwords b (List.mem_cons_of_mem _ hbmem) hbptr).trans (hb.word h hbmem)⟩

/-- The copy fits, but the old chunk takes live chunks with it: the new one, or others. -/
theorem Between.not_kept_of_unspared (h : m.toWorld.Inv P) (hb : Between m size P cap x w₁ P₁)
    (hsize : size ≠ 0) (hlive : ptr ∈ (P c).live) (hnot : ¬ w₁.Spares (.free ptr)) :
    ¬ m.ReallocKeeps ptr size := by
  have hmem : ptr ∈ m.chunks := h.mem c ptr hlive
  rcases h.holds.liveWord hlive with ⟨hword, -, hbig⟩
  rcases free_unspared hb.inv (by rw [hb.chunks]; exact List.mem_cons_of_mem _ hmem) hnot
    with ⟨cap', mm', hstep, -, ⟨y, hylive, hyptr⟩, hfreed⟩
  rintro ⟨m', newPtr, hrealloc, hkeeps⟩
  rw [hb.memStep_eq hsize hword hbig, dcFree_of_mmStep hstep] at hrealloc
  rcases Option.bind_eq_some_iff.mp hrealloc with ⟨data, -, hdata⟩
  simp only [Option.map_some, Option.some.injEq, Prod.mk.injEq, List.cons.injEq, and_true] at hdata
  rcases hdata with ⟨rfl, rfl⟩
  have hgone : Memory.contents ⟨⟨mm', (x, size) :: m.live.filter fun c => c.1 ≠ ptr⟩, data⟩ y =
      none := by
    rw [Memory.contents, (hfreed y hylive).2]
    rfl
  have hy : y ∈ x :: m.chunks := by
    rw [← hb.chunks]
    exact hb.inv.mem cap' y (List.mem_append_right _ hylive)
  rcases List.mem_cons.mp hy with rfl | hy
  · rcases hkeeps.copied with ⟨old, new, -, hnew, -⟩
    rw [hgone] at hnew
    simp at hnew
  · have hkept := (hkeeps.others y hy hyptr).2
    rcases h.exists_class hy with ⟨c', hlive'⟩
    rw [hgone, Memory.contents, (h.holds.liveWord hlive').1] at hkept
    simp at hkept

/-- A smaller class: the copy leaves the new chunk. -/
theorem Between.memStep_none (h : m.toWorld.Inv P) (hb : Between m size P cap x w₁ P₁)
    (hsize : size ≠ 0) (hlive : ptr ∈ (P c).live) (hcap : cap < c) :
    memStep m (.realloc ptr size) = none := by
  rcases h.holds.liveWord hlive with ⟨hword, -, hbig⟩
  rw [hb.memStep_eq hsize hword hbig, hb.memcpy_eq h (h.mem c ptr hlive) hword,
    if_neg (Nat.not_le.mpr hcap)]
  rfl

/-! ## When the promise is kept -/

/-- The condition, where the class of the new chunk is known. -/
theorem Between.fits_iff (h : m.toWorld.Inv P) (hb : Between m size P cap x w₁ P₁)
    (hlive : ptr ∈ (P c).live) (hle : size.toNat ≤ 2 ^ cap)
    (hleast : ∀ c < cap, 2 ^ c < size.toNat) :
    m.toWorld.ReallocFits ptr size ↔ c ≤ cap ∧ w₁.Spares (.free ptr) := by
  rcases h.holds.liveWord hlive with ⟨hword, hpos, -⟩
  have hfit : 2 ^ c < 2 * size.toNat ↔ c ≤ cap := by
    constructor
    · intro hlt
      have hpow : 2 ^ c < 2 ^ (cap + 1) := by omega
      exact Nat.le_of_lt_succ ((Nat.pow_lt_pow_iff_right (by decide)).mp hpow)
    · intro hcap
      have hhalf := hleast (c - 1) (by omega)
      have hdouble : 2 ^ c = 2 * 2 ^ (c - 1) := by
        rw [← Nat.pow_succ', Nat.succ_eq_add_one, Nat.sub_add_cancel hpos]
      omega
  unfold World.ReallocFits
  simp only [hword, Option.some.injEq, forall_eq', hfit]
  apply and_congr_right
  intro hcap
  have hsame : c = cap ↔ size.toNat ≤ 2 ^ c := by
    constructor
    · rintro rfl
      exact hle
    · intro hsmall
      by_contra hne
      have hlarge := hleast c (by omega)
      omega
  exact (hb.spares_iff h hlive hsame).symm

theorem reallocKeeps_iff (h : m.toWorld.Inv P) (hmem : ptr ∈ m.chunks) (hsize : 2 ≤ size)
    (hmax : size ≤ 2 ^ 30) : m.ReallocKeeps ptr size ↔ m.toWorld.ReallocFits ptr size := by
  have hne : size ≠ 0 := ne_zero_of_one_le (UInt64.le_trans (by decide) hsize)
  rcases h.exists_class hmem with ⟨c, hlive⟩
  rcases exists_between h hsize hmax with ⟨cap, x, w₁, P₁, hb, hle, hleast⟩
  rw [hb.fits_iff h hlive hle hleast]
  constructor
  · intro hkeeps
    by_contra hnot
    rcases not_and_or.mp hnot with hcap | hspares
    · rcases hkeeps with ⟨m', newPtr, hstep, -⟩
      rw [hb.memStep_none h hne hlive (Nat.not_le.mp hcap)] at hstep
      simp at hstep
    · exact hb.not_kept_of_unspared h hne hlive hspares hkeeps
  · rintro ⟨hcap, hspares⟩
    rcases hb.kept_of_spares h hne hlive hle hcap hspares with ⟨m', P', hstep, -, hkeeps⟩
    exact ⟨m', x, hstep, hkeeps⟩

/-! ## Runs -/

/-- The step lemma. -/
theorem memStep_inv {m' : Memory} {req : MemRequest} {evs : List Nat} (h : m.toWorld.Inv P)
    (hok : m.Allows req) (hcareful : m.Careful req) (hstep : memStep m req = some (m', evs)) :
    ∃ P', m'.toWorld.Inv P' := by
  cases req with
  | call req =>
      simp only [memStep, Option.bind_eq_bind, Option.bind_eq_some_iff, Option.pure_def,
        Option.some.injEq, Prod.mk.injEq] at hstep
      rcases hstep with ⟨⟨w, evs'⟩, hcall, rfl, -⟩
      exact step_inv h hok hcareful hcall
  | realloc ptr size =>
      rcases hok with ⟨hmem, hsize, hmax⟩
      have hne : size ≠ 0 := ne_zero_of_one_le (UInt64.le_trans (by decide) hsize)
      rcases h.exists_class hmem with ⟨c, hlive⟩
      rcases exists_between h hsize hmax with ⟨cap, x, w₁, P₁, hb, hle, hleast⟩
      rcases (hb.fits_iff h hlive hle hleast).mp hcareful with ⟨hcap, hspares⟩
      rcases hb.kept_of_spares h hne hlive hle hcap hspares with ⟨m₁, P', hstep', h', -⟩
      rw [hstep', Option.some.injEq, Prod.mk.injEq] at hstep
      rw [← hstep.1]
      exact ⟨P', h'⟩
  | store ptr i byte =>
      cases hstep
      exact ⟨P, h⟩

/-- The run lemma. -/
theorem runs_memory {tr : List Nat} {m₀ : Memory} (h₀ : m₀.toWorld.Inv P)
    (h : Run memStep (fun m req => m.Allows req ∧ m.Careful req) m₀ tr m) :
    ∃ P, m.toWorld.Inv P := by
  refine @Run.invariant _ _ _ memStep _ m₀ (fun _ m => ∃ P, m.toWorld.Inv P) ⟨P, h₀⟩ ?_ _ _ h
  rintro tr m req m' evs - ⟨P, hinv⟩ hok hstep
  exact memStep_inv hinv hok.1 hok.2 hstep

/-- In a run of careful steps a call of `dc_realloc` for a live chunk keeps its
promise exactly when it is careful as well. -/
theorem realloc_keeps_iff (tr : List Nat) : ∃ mm₀, mmInit = some mm₀ ∧ ∀ data₀ m,
    Run memStep (fun m req => m.Allows req ∧ m.Careful req) ⟨⟨mm₀, []⟩, data₀⟩ tr m →
    ∀ ptr ∈ m.chunks, ∃ c, m.mm.heap.chunks ptr = some ⟨c, 2 ^ c⟩ ∧
      ∀ size : UInt64, 2 ≤ size → size ≤ 2 ^ 30 →
        (m.ReallocKeeps ptr size ↔ m.toWorld.ReallocFits ptr size) := by
  rcases inv_start with ⟨mm₀, P, hinit, h₀, -, -⟩
  refine ⟨mm₀, hinit, ?_⟩
  intro data₀ m hrun ptr hmem
  rcases runs_memory h₀ hrun with ⟨P', h⟩
  rcases h.exists_class hmem with ⟨c, hlive⟩
  refine ⟨c, (h.holds.liveWord hlive).1, ?_⟩
  intro size hsize hmax
  exact reallocKeeps_iff h hmem hsize hmax

/-- A run of `dc_alloc` and `dc_free` stores no byte. -/
theorem run_memory {tr : List Nat} {w₀ w : World} (data : Nat → Nat → UInt8)
    (h : Run mmStep (fun w req => w.Allows req ∧ w.Spares req) w₀ tr w) :
    Run memStep (fun m req => m.Allows req ∧ m.Careful req) ⟨w₀, data⟩ tr ⟨w, data⟩ := by
  induction h with
  | nil => exact .nil
  | @snoc tr w w' req evs hrun hok hstep ih =>
      refine Run.snoc (a := MemRequest.call req) ih hok ?_
      simp only [memStep, hstep, Option.bind_eq_bind, Option.bind_some, Option.pure_def]

theorem World.lentExtra_le (w : World) (cap : Nat) (size : UInt64) :
    w.lentExtra cap size ≤ w.chunks.length + 1 := by
  have hle : (w.liveExtra cap).length ≤ w.chunks.length := List.length_filter_le _ _
  unfold World.lentExtra
  split <;> omega

/-- `realloc_keeps_iff` for the first of two chunks and the largest size. -/
theorem realloc_keeps_iff_two : ∃ mm₀ x y m, mmInit = some mm₀ ∧
    Run memStep (fun m req => m.Allows req ∧ m.Careful req) ⟨⟨mm₀, []⟩, fun _ _ => 7⟩ [x, y] m ∧
    m.live = [(y, 2 ^ 20 + 1), (x, 513)] ∧ m.ReallocKeeps x (2 ^ 30) := by
  rcases runs_two with ⟨mm₀, x, y, mm, P, hinit, hallocs, h⟩
  have hrun := run_memory (fun _ _ => 7) hallocs
  have hx : x ∈ World.chunks ⟨mm, [(y, 2 ^ 20 + 1), (x, 513)]⟩ := by simp [World.chunks]
  rcases h.exists_class hx with ⟨cap, hlive⟩
  rcases h.holds.liveWord hlive with ⟨hword, -, hcap⟩
  rcases realloc_keeps_iff [x, y] with ⟨mm₀', hinit', hall⟩
  rw [hinit, Option.some.injEq] at hinit'
  rw [← hinit'] at hall
  rcases hall _ _ hrun x hx with ⟨c, -, hiff⟩
  refine ⟨mm₀, x, y, _, hinit, hrun, rfl, (hiff (2 ^ 30) (by decide) (by decide)).mpr ?_⟩
  intro chunk hchunk
  rw [hword, Option.some.injEq] at hchunk
  rw [← hchunk]
  constructor
  · show 2 ^ cap < 2 * 2 ^ 30
    have hpow : 2 ^ cap ≤ 2 ^ 30 := Nat.pow_le_pow_right (by decide) hcap
    omega
  · -- of two chunks at most two are live in the extra list, and a new one
    intro _ k hk hlen
    have hle := World.lentExtra_le ⟨mm, [(y, 2 ^ 20 + 1), (x, 513)]⟩ cap (2 ^ 30)
    rw [hlen, show (World.chunks ⟨mm, [(y, 2 ^ 20 + 1), (x, 513)]⟩).length = 2 from rfl] at hle
    omega

/-- Four bytes, and then two: the copy writes four bytes into a chunk of two. -/
theorem shrink_overflows : ∃ mm₀ m ptr, mmInit = some mm₀ ∧
    exec memStep ⟨⟨mm₀, []⟩, fun _ _ => 0⟩ [.call (.alloc 4)] = some (m, [ptr]) ∧
    ptr ∈ m.chunks ∧ memStep m (.realloc ptr 2) = none ∧ ¬ m.ReallocKeeps ptr 2 := by
  rcases inv_start with ⟨mm₀, P₀, hinit, h₀, -, -⟩
  rcases @alloc_step ⟨mm₀, []⟩ _ 4 h₀ ⟨by decide, by decide⟩
    with ⟨cap, ptr, mm, new, p, hstep, hcap, -, htakes, h, -⟩
  rw [show capOf 4 = some 2 by decide, Option.some.injEq] at hcap
  rw [← hcap] at htakes h
  have hlive : ptr ∈ (Function.update P₀ 2 p 2).live := by
    rw [Function.update_self]
    exact htakes.live_perm.mem_iff.mpr List.mem_cons_self
  rcases @exists_between ⟨⟨mm, [(ptr, 4)]⟩, fun _ _ => 0⟩ _ 2 h (by decide) (by decide)
    with ⟨cap', x, w₁, P₁, hb, -, hleast⟩
  -- a chunk of the class 1 has two bytes
  have hcap' : cap' < 2 := by
    by_contra hlarge
    exact absurd (hleast 1 (by omega)) (by decide)
  have hnone := hb.memStep_none h (by decide) hlive hcap'
  refine ⟨mm₀, _, ptr, hinit, ?_, List.mem_cons_self, hnone, ?_⟩
  · simp only [exec, memStep, hstep, Option.bind_eq_bind, Option.bind_some, Option.pure_def,
      Option.map_some, List.append_nil]
  · rintro ⟨m', newPtr, hstep', -⟩
    rw [hnone] at hstep'
    simp at hstep'

end DnsCache

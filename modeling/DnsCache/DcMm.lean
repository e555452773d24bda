import Mathlib.Data.UInt
import DnsCache.Slist

/-! # The pooled allocator of `dc_mm1.c`

Chunks of `2 ^ cap` bytes, one class for each `cap`. The classes up to `BIG`
have chunks from the start; what goes beyond them comes from the extra list of
the class, which is made when it is first needed, grows by two chunks at a time
and is destroyed when all its chunks are idle.

The counters of `print_statics` are left out, and a mutex is only asked whether
`mm_init` has set it up: in a sequential run each is unlocked before it is locked.
-/

namespace DnsCache

/-! ## The state -/

/-- `SMALL`, `BIG`, `CHUNK_TYPE_NUM`, `DEFAULT_EXTRA` and `BIGGEST_CAP`. -/
def small : Nat := 1
def big : Nat := 20
def chunkTypeNum : Nat := 20
def defaultExtra : Nat := 2
def biggestCap : Nat := 30

/-- `chunks_num`. -/
def chunksNum : List Nat :=
  [512, 512, 512, 512, 512, 256, 256, 256, 256, 256, 128, 128, 128, 128, 128, 56, 56, 56, 56, 56]

/-- A block that `malloc` returned for a chunk: the word `capacity` and the bytes
behind it, which are what `dc_alloc` hands out. -/
structure Chunk where
  capacity : Nat
  bytes : Nat
deriving DecidableEq, Repr

/-- `chunks_manager`. Lists of chunks hold the numbers of their blocks. -/
structure ChunksManager where
  chunksCap : Nat
  idleNum : UInt16
  idleChunks : Slist Nat
  allocedChunks : Slist Nat

/-- `extra_list_manager`. -/
structure ExtraListManager where
  idleNum : UInt16
  totalNum : UInt16
  chunksList : Slist Nat

/-- The blocks of chunks, numbered in the order `malloc` returned them: `chunks`
are those not freed yet, `frees` were handed to `free`, in that order. -/
structure Heap where
  chunks : Nat → Option Chunk
  blocks : Nat
  frees : List Nat

/-- The tables of the allocator, and the heap. -/
structure Mm where
  heap : Heap
  chunksManagerTable : Nat → Option ChunksManager
  elmTable : Nat → Option ExtraListManager
  preAllocMutex : Nat → Bool
  extraMutex : Nat → Bool

/-- `malloc` of a chunk and the store of its capacity. -/
def Heap.mallocChunk (cap : Nat) (heap : Heap) : Nat × Heap :=
  (heap.blocks,
    { heap with
      chunks := Function.update heap.chunks heap.blocks (some ⟨cap, 2 ^ cap⟩)
      blocks := heap.blocks + 1 })

/-- `free` of a chunk. There is no result when it has been freed before. -/
def Heap.freeChunk (ptr : Nat) (heap : Heap) : Option Heap := do
  let _ ← heap.chunks ptr
  return { heap with
    chunks := Function.update heap.chunks ptr none
    frees := heap.frees ++ [ptr] }

namespace Mm

/-- Before `mm_init`. -/
def blank : Mm where
  heap := ⟨fun _ => none, 0, []⟩
  chunksManagerTable := fun _ => none
  elmTable := fun _ => none
  preAllocMutex := fun _ => false
  extraMutex := fun _ => false

def setManager (pos : Nat) (manager : ChunksManager) (mm : Mm) : Mm :=
  { mm with chunksManagerTable := Function.update mm.chunksManagerTable pos (some manager) }

def setElm (cap : Nat) (elm : Option ExtraListManager) (mm : Mm) : Mm :=
  { mm with elmTable := Function.update mm.elmTable cap elm }

end Mm

/-! ## The capacity class -/

/-- One step of `first_bit`: nothing under the mask, so the bits move up by `k`. -/
def bitStep (mask k : UInt32) (c n : UInt32) : UInt32 × UInt32 :=
  if n &&& mask = 0 then (c - k, n <<< k) else (c, n)

/-- `first_bit`. -/
def firstBit (n : UInt32) : UInt32 :=
  if n = 0 then 0
  else
    let c := 32
    let (c, n) := bitStep 0xffff0000 16 c n
    let (c, n) := bitStep 0xff000000 8 c n
    let (c, n) := bitStep 0xf0000000 4 c n
    let (c, n) := bitStep 0xc0000000 2 c n
    if n &&& 0x80000000 = 0 then c - 1 else c

/-- `LOG2`. The argument is cut down to a `uint32`. -/
def log2 (x : UInt64) : Nat := (firstBit x.toUInt32 - 1).toNat

/-- `POW2`, a shift of an `int`. -/
def pow2 (x : Nat) : Option UInt64 := if x < 31 then some (UInt64.ofNat (2 ^ x)) else none

/-- The class `dc_alloc` computes for a size. A `uint64` is a `long`: the
comparison of the size with a chunk of its class is one of signed numbers. -/
def capOf (size : UInt64) : Option Nat := do
  let cap := log2 size
  let p ← pow2 cap
  return if size.toInt64 > p.toInt64 then cap + 1 else cap

/-! ## The functions -/

/-- The loop of `mm_pre_alloc` and `expand_el`: `counts` new chunks for the list. -/
def pushChunks (cap : Nat) : Nat → Slist Nat → Heap → Option (Slist Nat × Heap)
  | 0, list, heap => some (list, heap)
  | counts + 1, list, heap => do
      let (ptr, heap) := heap.mallocChunk cap
      let (_, list) ← push ptr list
      pushChunks cap counts list heap

/-- `mm_pre_alloc`. -/
def mmPreAlloc (capacity counts : Nat) (heap : Heap) : Option (Slist Nat × Heap) := do
  let initIdleList ← mkSlist counts
  pushChunks capacity counts initIdleList heap

/-- The loop of `mm_init` over the pre-allocated classes. -/
def initManagers : Nat → Mm → Option Mm
  | 0, mm => some mm
  | i + 1, mm => do
      let counts ← chunksNum[i]?
      let (idleChunks, heap) ← mmPreAlloc (small + i) counts mm.heap
      let allocedChunks ← mkSlist counts
      let mm := { mm with heap := heap }.setManager i
        ⟨small + i, UInt16.ofNat counts, idleChunks, allocedChunks⟩
      initManagers i { mm with preAllocMutex := Function.update mm.preAllocMutex i true }

/-- The loop of `mm_init` over the mutexes of the extra lists. It ends before the first. -/
def initExtraMutexes : Nat → Mm → Mm
  | 0, mm => mm
  | j + 1, mm =>
      initExtraMutexes j { mm with extraMutex := Function.update mm.extraMutex (j + 1) true }

/-- `mm_init`. -/
def mmInit : Option Mm := do
  let mm ← initManagers chunkTypeNum Mm.blank
  return initExtraMutexes biggestCap mm

/-- `mk_el`. -/
def mkEl (cap : Nat) (mm : Mm) : Option Mm :=
  match mm.elmTable cap with
  | some _ => some mm
  | none => do
      let (list, heap) ← mmPreAlloc cap defaultExtra mm.heap
      return { mm with heap := heap }.setElm cap
        (some ⟨UInt16.ofNat defaultExtra, UInt16.ofNat defaultExtra, list⟩)

/-- `expand_el`. -/
def expandEl (cap : Nat) (mm : Mm) : Option Mm := do
  let elm ← mm.elmTable cap
  let list ← slExpand defaultExtra elm.chunksList
  let (list, heap) ← pushChunks cap defaultExtra list mm.heap
  return { mm with heap := heap }.setElm cap (some
    { idleNum := elm.idleNum + UInt16.ofNat defaultExtra
      totalNum := elm.totalNum + UInt16.ofNat defaultExtra
      chunksList := list })

/-- `select_pre_alloced`, with `dc_alloc` for its call of it. -/
def selectPreAlloced (dcAlloc : UInt64 → Mm → Option (Option Nat × Mm)) (cap : Nat) (mm : Mm) :
    Option (Option Nat × Mm) := do
  let pos := cap - small
  if mm.preAllocMutex pos then
    let manager ← mm.chunksManagerTable pos
    -- the last idle chunk went since `dc_alloc` looked: the request starts again
    if manager.idleNum = 0 then dcAlloc (← pow2 cap) mm
    else
      let (ptr, idleChunks) ← pop manager.idleChunks
      let ptr ← ptr
      let (_, allocedChunks) ← push ptr manager.allocedChunks
      return (some ptr, mm.setManager pos { manager with
        idleNum := manager.idleNum - 1
        idleChunks := idleChunks
        allocedChunks := allocedChunks })
  else none

/-- `select_extra`, with `dc_alloc` for its calls of it. -/
def selectExtra (dcAlloc : UInt64 → Mm → Option (Option Nat × Mm)) (cap : Nat) (mm : Mm) :
    Option (Option Nat × Mm) := do
  if mm.extraMutex cap then
    match mm.elmTable cap with
    -- destroyed since `dc_alloc` made it
    | none => dcAlloc (← pow2 cap) mm
    | some elm =>
        if elm.idleNum = 0 then dcAlloc (← pow2 cap) mm
        else
          -- a chunk in use stays in the list, behind the idle ones
          let (ptr, list) ← pop elm.chunksList
          let ptr ← ptr
          let (_, list) ← append ptr list
          return (some ptr, mm.setElm cap (some { elm with
            idleNum := elm.idleNum - 1
            chunksList := list }))
  else none

/-- What `dc_alloc` does under the mutex of the extra list: it makes the list, or
expands it when it has no idle chunk. -/
def makeRoom (cap : Nat) (mm : Mm) : Option Mm :=
  if mm.extraMutex cap then
    match mm.elmTable cap with
    | none => mkEl cap mm
    | some elm => if elm.idleNum = 0 then expandEl cap mm else some mm
  else none

/-- `dc_alloc`, which `select_pre_alloced` and `select_extra` can call again.
A table has no entry behind `BIGGEST_CAP`. -/
def dcAllocLoop : Nat → UInt64 → Mm → Option (Option Nat × Mm)
  | 0, _, _ => none
  | fuel + 1, size, mm =>
      if size = 0 then some (none, mm)
      else do
        let cap ← capOf size
        if biggestCap < cap then none
        else if cap < small ∨ big < cap then
          let mm ← makeRoom cap mm
          selectExtra (dcAllocLoop fuel) cap mm
        else
          let manager ← mm.chunksManagerTable (cap - small)
          -- read without the mutex of the class
          if manager.idleNum = 0 then
            let mm ← makeRoom cap mm
            selectExtra (dcAllocLoop fuel) cap mm
          else selectPreAlloced (dcAllocLoop fuel) cap mm

/-- The depth to which `dc_alloc` may call itself. Nothing changes from one call
to the next: one that gets so far never returns. -/
def dcAllocFuel : Nat := 3

/-- `dc_alloc`. -/
def dcAlloc (size : UInt64) (mm : Mm) : Option (Option Nat × Mm) := dcAllocLoop dcAllocFuel size mm

/-- `free_extra_data` at the nodes that `traverse` visits. -/
def freeExtraData : List Nat → Heap → Option Heap
  | [], heap => some heap
  | ptr :: ptrs, heap => do
      let heap ← heap.freeChunk ptr
      freeExtraData ptrs heap

/-- What `dc_free` does with a chunk of an extra list. -/
def freeExtra (cap : Nat) (ptr : Nat) (mm : Mm) : Option Mm := do
  let elm ← mm.elmTable cap
  if mm.extraMutex cap then
    let (_, list) ← mv2head ptr elm.chunksList
    let idleNum := elm.idleNum + 1
    -- equal counters are taken for a list with no chunk in use
    if idleNum = elm.totalNum then
      let heap ← freeExtraData (← traverse list) mm.heap
      let _ ← slFree list
      return { mm with heap := heap }.setElm cap none
    else return mm.setElm cap (some { elm with idleNum := idleNum, chunksList := list })
  else none

/-- What `dc_free` does with a chunk of the allocated list of its class. -/
def freePreAlloced (pos : Nat) (ptr : Nat) (manager : ChunksManager) (mm : Mm) : Option Mm := do
  if mm.preAllocMutex pos then
    let (_, allocedChunks) ← mv2head ptr manager.allocedChunks
    let (ptr, allocedChunks) ← pop allocedChunks
    let (_, idleChunks) ← push (← ptr) manager.idleChunks
    return mm.setManager pos { manager with
      idleNum := manager.idleNum + 1
      idleChunks := idleChunks
      allocedChunks := allocedChunks }
  else none

/-- `dc_free`. The word in front of the pointer tells the class. -/
def dcFree (ptr : Option Nat) (mm : Mm) : Option Mm :=
  match ptr with
  | none => some mm
  | some ptr => do
      let cap := (← mm.heap.chunks ptr).capacity
      if cap < small ∨ big < cap then freeExtra cap ptr mm
      else
        let pos := cap - small
        let manager ← mm.chunksManagerTable pos
        let found ← find ptr manager.allocedChunks
        -- the word tells the class, not whether the chunk is from its stock
        if found ≠ 0 then freePreAlloced pos ptr manager mm
        else if !mm.extraMutex cap then none
        else if (mm.elmTable cap).isNone then some mm
        else freeExtra cap ptr mm

end DnsCache

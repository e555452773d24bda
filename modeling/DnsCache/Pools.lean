import DnsCache.CapClass
import DnsCache.Lib.Pool
import DnsCache.SlistSeq

/-! # The allocator as a family of pools

* `Heap.Owns`: which chunks a class has, as the heap sees it.
* `Mm.Holds`: the invariant, for the pool of each class.
* `dcAlloc_holds`, `dcFree_holds`: one call does to the pool of its class what a
  pool does, `dc_free` as long as the counters of the extra list are right.
-/

namespace DnsCache

/-! ## The heap -/

/-- The chunks of the class `cap` are `A cap`: all that have been malloc'ed and
not freed, each with its class in front and `2 ^ cap` bytes behind. -/
structure Heap.Owns (heap : Heap) (A : Nat → List Nat) : Prop where
  owned : ∀ cap b, b ∈ A cap ↔ heap.chunks b = some ⟨cap, 2 ^ cap⟩
  known : ∀ b c, heap.chunks b = some c → c.bytes = 2 ^ c.capacity
  nodup : ∀ cap, (A cap).Nodup
  fresh : ∀ b, heap.blocks ≤ b → heap.chunks b = none
  freed : ∀ b, b ∈ heap.frees ↔ b < heap.blocks ∧ heap.chunks b = none
  freedOnce : heap.frees.Nodup

variable {heap : Heap} {A A' : Nat → List Nat} {cap : Nat}

theorem Heap.Owns.perm (h : heap.Owns A) (hperm : ∀ cap, (A' cap).Perm (A cap)) :
    heap.Owns A' where
  owned := fun cap b => (hperm cap).mem_iff.trans (h.owned cap b)
  known := h.known
  nodup := fun cap => (hperm cap).nodup_iff.mpr (h.nodup cap)
  fresh := h.fresh
  freed := h.freed
  freedOnce := h.freedOnce

/-- The chunks of one class change their order. -/
theorem Heap.Owns.permAt {l : List Nat} (h : heap.Owns A) (hperm : l.Perm (A cap)) :
    heap.Owns (Function.update A cap l) :=
  h.perm ((Function.forall_update_iff A fun c l' => l'.Perm (A c)).mpr ⟨hperm, fun _ _ => .refl _⟩)

/-- Every chunk belongs to the class that its word names. -/
theorem Heap.Owns.mem (h : heap.Owns A) {b : Nat} {c : Chunk} (hc : heap.chunks b = some c) :
    b ∈ A c.capacity := by
  rw [h.owned, hc, ← h.known b c hc]

theorem Heap.Owns.mallocChunk (h : heap.Owns A) (cap : Nat) :
    (heap.mallocChunk cap).2.Owns (Function.update A cap (heap.blocks :: A cap)) := by
  have hnew : heap.chunks heap.blocks = none := h.fresh _ (Nat.le_refl _)
  have hnot : ∀ cap, heap.blocks ∉ A cap := by
    intro cap hmem
    rw [h.owned, hnew] at hmem
    simp at hmem
  constructor
  · intro cap' b
    show _ ↔ Function.update heap.chunks heap.blocks _ b = _
    by_cases hb : b = heap.blocks
    · rw [hb, Function.update_self]
      by_cases hcap : cap' = cap
      · rw [hcap, Function.update_self]
        simp
      · rw [Function.update_of_ne hcap]
        simp [hnot, Ne.symm hcap]
    · rw [Function.update_of_ne hb, ← h.owned]
      by_cases hcap : cap' = cap
      · rw [hcap, Function.update_self, List.mem_cons, or_iff_right hb]
      · rw [Function.update_of_ne hcap]
  · intro b c hc
    have hc' : Function.update heap.chunks heap.blocks (some ⟨cap, 2 ^ cap⟩) b = some c := hc
    by_cases hb : b = heap.blocks
    · rw [hb, Function.update_self, Option.some.injEq] at hc'
      rw [← hc']
    · rw [Function.update_of_ne hb] at hc'
      exact h.known b c hc'
  · intro cap'
    by_cases hcap : cap' = cap
    · rw [hcap, Function.update_self]
      exact List.nodup_cons.mpr ⟨hnot cap, h.nodup cap⟩
    · rw [Function.update_of_ne hcap]
      exact h.nodup cap'
  · intro b hb
    have hlt : heap.blocks + 1 ≤ b := hb
    show Function.update heap.chunks heap.blocks _ b = none
    rw [Function.update_of_ne (by omega)]
    exact h.fresh b (by omega)
  · intro b
    show b ∈ heap.frees ↔ b < heap.blocks + 1 ∧ Function.update heap.chunks heap.blocks _ b = none
    rw [h.freed]
    by_cases hb : b = heap.blocks
    · rw [hb, Function.update_self]
      simp
    · rw [Function.update_of_ne hb]
      constructor
      · rintro ⟨hlt, hnone⟩
        exact ⟨by omega, hnone⟩
      · rintro ⟨hlt, hnone⟩
        exact ⟨by omega, hnone⟩
  · exact h.freedOnce

theorem Heap.Owns.freeChunk (h : heap.Owns A) {b : Nat} {l : List Nat} (hA : A cap = b :: l) :
    ∃ heap', heap.freeChunk b = some heap' ∧ heap'.Owns (Function.update A cap l) ∧
      heap'.frees = heap.frees ++ [b] ∧ heap'.blocks = heap.blocks := by
  have hmem : b ∈ A cap := by
    rw [hA]
    exact List.mem_cons_self
  have hb := (h.owned cap b).mp hmem
  have hnodup := h.nodup cap
  rw [hA, List.nodup_cons] at hnodup
  refine ⟨{ heap with
    chunks := Function.update heap.chunks b none
    frees := heap.frees ++ [b] }, ?_, ?_, rfl, rfl⟩
  · rw [Heap.freeChunk, hb]
    rfl
  constructor
  · intro cap' a
    show _ ↔ Function.update heap.chunks b none a = _
    by_cases ha : a = b
    · rw [ha, Function.update_self]
      by_cases hcap : cap' = cap
      · rw [hcap, Function.update_self]
        simp [hnodup.1]
      · rw [Function.update_of_ne hcap, h.owned, hb]
        simp [Ne.symm hcap]
    · rw [Function.update_of_ne ha, ← h.owned]
      by_cases hcap : cap' = cap
      · rw [hcap, Function.update_self, hA, List.mem_cons, or_iff_right ha]
      · rw [Function.update_of_ne hcap]
  · intro a c hc
    have hc' : Function.update heap.chunks b none a = some c := hc
    by_cases ha : a = b
    · rw [ha, Function.update_self] at hc'
      simp at hc'
    · rw [Function.update_of_ne ha] at hc'
      exact h.known a c hc'
  · intro cap'
    by_cases hcap : cap' = cap
    · rw [hcap, Function.update_self]
      exact hnodup.2
    · rw [Function.update_of_ne hcap]
      exact h.nodup cap'
  · intro a ha
    show Function.update heap.chunks b none a = none
    by_cases hab : a = b
    · rw [hab, Function.update_self]
    · rw [Function.update_of_ne hab]
      exact h.fresh a ha
  · intro a
    show a ∈ heap.frees ++ [b] ↔ a < heap.blocks ∧ Function.update heap.chunks b none a = none
    rw [List.mem_append, List.mem_singleton, h.freed]
    by_cases hab : a = b
    · have hlt : b < heap.blocks := by
        by_contra hge
        rw [h.fresh b (by omega)] at hb
        simp at hb
      rw [hab, Function.update_self]
      simp [hlt]
    · rw [Function.update_of_ne hab]
      simp [hab]
  · refine List.nodup_append.mpr ⟨h.freedOnce, List.nodup_singleton b, ?_⟩
    intro a ha a' ha' heq
    rw [List.mem_singleton.mp ha'] at heq
    rw [heq, h.freed, hb] at ha
    simp at ha

/-- The chunks of a whole list are freed. -/
theorem freeExtraData_spec {l rest : List Nat} (h : heap.Owns A) (hA : A cap = l ++ rest) :
    ∃ heap', freeExtraData l heap = some heap' ∧ heap'.Owns (Function.update A cap rest) ∧
      heap'.frees = heap.frees ++ l ∧ heap'.blocks = heap.blocks := by
  induction l generalizing heap A with
  | nil =>
      refine ⟨heap, rfl, ?_, (List.append_nil _).symm, rfl⟩
      rw [show rest = A cap from hA.symm, Function.update_eq_self]
      exact h
  | cons b l ih =>
      rcases h.freeChunk hA with ⟨heap₁, hfree, h₁, hfrees₁, hblocks₁⟩
      rcases ih h₁ (Function.update_self _ _ _) with ⟨heap', hall, h', hfrees, hblocks⟩
      refine ⟨heap', ?_, ?_, ?_, hblocks.trans hblocks₁⟩
      · simp only [freeExtraData, hfree, hall, Option.bind_eq_bind, Option.bind_some]
      · rw [Function.update_idem] at h'
        exact h'
      · rw [hfrees, hfrees₁, List.append_assoc]
        rfl

/-- New chunks are pushed on a list that has room for them. -/
theorem pushChunks_spec {counts : Nat} {list : Slist Nat} {items : List Nat} {capacity : Nat}
    (h : heap.Owns A) (hlist : list.Holds items capacity)
    (hroom : items.length + counts ≤ capacity) :
    ∃ list' heap' new, pushChunks cap counts list heap = some (list', heap') ∧
      new.length = counts ∧ list'.Holds (new ++ items) capacity ∧
      heap'.Owns (Function.update A cap (new ++ A cap)) ∧ heap'.frees = heap.frees ∧
      heap'.blocks = heap.blocks + counts ∧ ∀ b ∈ new, b < heap'.blocks := by
  -- on the chunks still to come: each stands in front of those before it
  induction counts generalizing list items heap A with
  | zero =>
      refine ⟨list, heap, [], rfl, rfl, hlist, ?_, rfl, rfl, by simp⟩
      rw [List.nil_append, Function.update_eq_self]
      exact h
  | succ counts ih =>
      rcases push_holds hlist (by omega) heap.blocks with ⟨list₁, hpush, hlist₁⟩
      rcases ih (h.mallocChunk cap) hlist₁ (by rw [List.length_cons]; omega)
        with ⟨list', heap', new, hloop, hlen, hlist', h', hfrees, hblocks, hnew⟩
      have hblocks' : heap'.blocks = heap.blocks + 1 + counts := hblocks
      refine ⟨list', heap', new ++ [heap.blocks], ?_, ?_, ?_, ?_, hfrees, ?_, ?_⟩
      · have hpush' : push (heap.mallocChunk cap).1 list = some (0, list₁) := hpush
        simp only [pushChunks, hpush', hloop, Option.bind_eq_bind, Option.bind_some]
      · rw [List.length_append, hlen, List.length_singleton]
      · rw [List.append_assoc]
        exact hlist'
      · rw [Function.update_idem, Function.update_self] at h'
        rw [List.append_assoc]
        exact h'
      · omega
      · intro b hb
        rcases List.mem_append.mp hb with hb | hb
        · exact hnew b hb
        · rw [List.mem_singleton.mp hb]
          omega

/-- A new list of new chunks. -/
theorem mmPreAlloc_spec {counts : Nat} (h : heap.Owns A) (hpos : 1 ≤ counts)
    (hmax : counts ≤ 512) :
    ∃ list heap' new, mmPreAlloc cap counts heap = some (list, heap') ∧
      new.length = counts ∧ list.Holds new counts ∧
      heap'.Owns (Function.update A cap (new ++ A cap)) ∧ heap'.frees = heap.frees ∧
      heap'.blocks = heap.blocks + counts ∧ ∀ b ∈ new, b < heap'.blocks := by
  rcases @mkSlist_holds Nat counts hpos (by omega) with ⟨list₀, hmk, hlist₀⟩
  rcases pushChunks_spec h hlist₀ (Nat.le_of_eq (Nat.zero_add _))
    with ⟨list, heap', new, hloop, hlen, hlist, h', hrest⟩
  rw [List.append_nil] at hlist
  refine ⟨list, heap', new, ?_, hlen, hlist, h', hrest⟩
  simp only [mmPreAlloc, hmk, hloop, Option.bind_eq_bind, Option.bind_some]

/-! ## The tables -/

/-- The manager of a class, of which `n` chunks were made at the start. -/
structure ChunksManager.Holds (manager : ChunksManager) (n : Nat) (p : Pool Nat) : Prop where
  idle : manager.idleChunks.Holds p.idle n
  alloced : manager.allocedChunks.Holds p.alloced n
  idleNum : manager.idleNum = UInt16.ofNat p.idle.length
  count : p.idle.length + p.alloced.length = n

/-- The extra list of a class: the idle chunks come first, and only the counters
tell how many they are. -/
structure ExtraListManager.Holds (elm : ExtraListManager) (p : Pool Nat) : Prop where
  chunks : elm.chunksList.Holds p.extra p.extra.length
  idleNum : elm.idleNum = UInt16.ofNat p.extraIdle.length
  totalNum : elm.totalNum = UInt16.ofNat p.extra.length
  nonempty : p.extra ≠ []

/-- The entry of a class in `elm_table`. -/
def ElmHolds : Option ExtraListManager → Pool Nat → Prop
  | none, p => p.extraIdle = [] ∧ p.extraLive = []
  | some elm, p => elm.Holds p

/-- An entry knows the extra chunks of its pool only. -/
theorem ElmHolds.congr {elm : Option ExtraListManager} {p q : Pool Nat} (h : ElmHolds elm p)
    (hidle : q.extraIdle = p.extraIdle) (hlive : q.extraLive = p.extraLive) : ElmHolds elm q := by
  cases elm with
  | none => exact ⟨hidle.trans h.1, hlive.trans h.2⟩
  | some elm =>
      have hextra : q.extra = p.extra := by
        rw [Pool.extra, hidle, hlive, Pool.extra]
      constructor
      · rw [hextra]
        exact h.chunks
      · rw [hidle]
        exact h.idleNum
      · rw [hextra]
        exact h.totalNum
      · rw [hextra]
        exact h.nonempty

/-- A manager knows the stock of its pool only. -/
theorem ChunksManager.Holds.congr {manager : ChunksManager} {n : Nat} {p q : Pool Nat}
    (h : manager.Holds n p) (hidle : q.idle = p.idle) (halloced : q.alloced = p.alloced) :
    manager.Holds n q := by
  constructor
  · rw [hidle]
    exact h.idle
  · rw [halloced]
    exact h.alloced
  · rw [hidle]
    exact h.idleNum
  · rw [hidle, halloced]
    exact h.count

/-- The tables agree with the pools. The classes from `ready` on have been set up. -/
structure Mm.Tables (mm : Mm) (ready : Nat) (P : Nat → Pool Nat) : Prop where
  managers : ∀ i, ready ≤ i → i < chunkTypeNum → ∃ manager n, chunksNum[i]? = some n ∧
    mm.chunksManagerTable i = some manager ∧ mm.preAllocMutex i = true ∧
    manager.Holds n (P (small + i))
  noStock : ∀ cap, cap < small + ready ∨ big < cap → (P cap).stock = []
  elms : ∀ cap, ElmHolds (mm.elmTable cap) (P cap)

/-- The invariant of the allocator. -/
structure Mm.Holds (mm : Mm) (P : Nat → Pool Nat) : Prop where
  heap : mm.heap.Owns fun cap => (P cap).all
  tables : mm.Tables 0 P
  mutexes : ∀ cap, 1 ≤ cap → cap ≤ biggestCap → mm.extraMutex cap = true
  noClass : ∀ cap, cap < 1 ∨ biggestCap < cap → (P cap).all = []

variable {mm : Mm} {P : Nat → Pool Nat} {p : Pool Nat}

/-- One pool changes. -/
theorem all_update (P : Nat → Pool Nat) (cap : Nat) (p : Pool Nat) :
    (fun c => (Function.update P cap p c).all) = Function.update (fun c => (P c).all) cap p.all := by
  funext c
  by_cases hc : c = cap
  · rw [hc, Function.update_self, Function.update_self]
  · rw [Function.update_of_ne hc, Function.update_of_ne hc]

theorem Mm.Holds.noClass_update (h : mm.Holds P) (hcap : 1 ≤ cap) (hcap' : cap ≤ biggestCap)
    (p : Pool Nat) : ∀ c, c < 1 ∨ biggestCap < c → (Function.update P cap p c).all = [] := by
  intro c hc
  have hne : c ≠ cap := by omega
  rw [Function.update_of_ne hne]
  exact h.noClass c hc

/-- The extra list of a class changes, and the heap with it. -/
theorem Mm.Holds.setElm {heap' : Heap} {elm : Option ExtraListManager} (h : mm.Holds P)
    (hcap : 1 ≤ cap) (hcap' : cap ≤ biggestCap)
    (hheap : heap'.Owns (Function.update (fun c => (P c).all) cap p.all))
    (hidle : p.idle = (P cap).idle) (halloced : p.alloced = (P cap).alloced)
    (helm : ElmHolds elm p) :
    (({ mm with heap := heap' } : Mm).setElm cap elm).Holds (Function.update P cap p) where
  heap := by
    rw [all_update]
    exact hheap
  tables := by
    constructor
    · intro i hi hi'
      rcases h.tables.managers i hi hi' with ⟨manager, n, hn, htable, hmutex, hholds⟩
      refine ⟨manager, n, hn, htable, hmutex, ?_⟩
      by_cases hc : small + i = cap
      · rw [hc, Function.update_self]
        rw [hc] at hholds
        exact hholds.congr hidle halloced
      · rw [Function.update_of_ne hc]
        exact hholds
    · intro c hc
      by_cases hcc : c = cap
      · rw [hcc, Function.update_self, Pool.stock, hidle, halloced]
        rw [hcc] at hc
        exact h.tables.noStock cap hc
      · rw [Function.update_of_ne hcc]
        exact h.tables.noStock c hc
    · intro c
      show ElmHolds (Function.update mm.elmTable cap elm c) _
      by_cases hcc : c = cap
      · rw [hcc, Function.update_self, Function.update_self]
        exact helm
      · rw [Function.update_of_ne hcc, Function.update_of_ne hcc]
        exact h.tables.elms c
  mutexes := h.mutexes
  noClass := h.noClass_update hcap hcap' p

/-- The stock of a class changes hands. -/
theorem Mm.Holds.setManager {manager : ChunksManager} {n : Nat} (h : mm.Holds P) (hcap : 1 ≤ cap)
    (hcap' : cap ≤ big) (hperm : p.all.Perm (P cap).all) (hidle : p.extraIdle = (P cap).extraIdle)
    (hlive : p.extraLive = (P cap).extraLive) (hn : chunksNum[cap - small]? = some n)
    (hmutex : mm.preAllocMutex (cap - small) = true) (hmanager : manager.Holds n p) :
    (mm.setManager (cap - small) manager).Holds (Function.update P cap p) where
  heap := by
    rw [all_update]
    exact h.heap.permAt hperm
  tables := by
    have hpos : small + (cap - small) = cap := Nat.add_sub_cancel' hcap
    constructor
    · intro i hi hi'
      show ∃ m n, _ ∧ Function.update mm.chunksManagerTable (cap - small) _ i = _ ∧ _
      by_cases hc : i = cap - small
      · rw [hc, hpos, Function.update_self, Function.update_self]
        exact ⟨manager, n, hn, rfl, hmutex, hmanager⟩
      · have hne : small + i ≠ cap := by omega
        rw [Function.update_of_ne hc, Function.update_of_ne hne]
        exact h.tables.managers i hi hi'
    · intro c hc
      have hne : c ≠ cap := by
        rcases hc with hc | hc
        · rw [show small + 0 = 1 from rfl] at hc
          omega
        · omega
      rw [Function.update_of_ne hne]
      exact h.tables.noStock c hc
    · exact (Function.forall_update_iff P fun c p => ElmHolds (mm.elmTable c) p).mpr
        ⟨(h.tables.elms cap).congr hidle hlive, fun c _ => h.tables.elms c⟩
  mutexes := h.mutexes
  noClass := h.noClass_update hcap (Nat.le_trans hcap' (by decide)) p

/-- The manager of a class that has a stock. -/
theorem Mm.Holds.manager (h : mm.Holds P) (hcap : 1 ≤ cap) (hcap' : cap ≤ big) :
    ∃ manager n, chunksNum[cap - small]? = some n ∧
      mm.chunksManagerTable (cap - small) = some manager ∧
      mm.preAllocMutex (cap - small) = true ∧ manager.Holds n (P cap) := by
  have hpos : small + (cap - small) = cap := Nat.add_sub_cancel' hcap
  have hlt : cap - small < chunkTypeNum := Nat.sub_one_lt_of_le hcap hcap'
  rcases h.tables.managers (cap - small) (Nat.zero_le _) hlt
    with ⟨manager, n, hn, htable, hmutex, hholds⟩
  rw [hpos] at hholds
  exact ⟨manager, n, hn, htable, hmutex, hholds⟩

/-! ## The counters -/

theorem ofNat16_eq_iff {a b : Nat} : UInt16.ofNat a = UInt16.ofNat b ↔ a % 65536 = b % 65536 := by
  rw [← UInt16.toNat_inj, UInt16.toNat_ofNat', UInt16.toNat_ofNat']

theorem ofNat16_eq_zero_iff {a : Nat} : UInt16.ofNat a = 0 ↔ a % 65536 = 0 := by
  rw [show (0 : UInt16) = UInt16.ofNat 0 from rfl, ofNat16_eq_iff]

theorem ofNat16_succ_sub (a : Nat) : UInt16.ofNat (a + 1) - 1 = UInt16.ofNat a := by
  rw [UInt16.ofNat_add, show UInt16.ofNat 1 = 1 from rfl]
  exact UInt16.add_sub_cancel _ _

/-- A class of the stock has no more chunks than its counter can count. -/
theorem chunksNum_range {i n : Nat} (h : chunksNum[i]? = some n) : 1 ≤ n ∧ n ≤ 512 := by
  have hall : ∀ n ∈ chunksNum, 1 ≤ n ∧ n ≤ 512 := by decide
  exact hall n (List.mem_of_getElem? h)

theorem ChunksManager.Holds.idleNum_eq_zero_iff {manager : ChunksManager} {i n : Nat}
    (h : manager.Holds n p) (hn : chunksNum[i]? = some n) :
    manager.idleNum = 0 ↔ p.idle = [] := by
  have hle := (chunksNum_range hn).2
  have hcount := h.count
  rw [h.idleNum, ofNat16_eq_zero_iff, Nat.mod_eq_of_lt (by omega), List.length_eq_zero_iff]

/-! ## `dc_alloc` -/

/-- New chunks for a class, in front of its idle ones. -/
theorem Heap.Owns.grow {new : List Nat}
    (h : heap.Owns (Function.update (fun c => (P c).all) cap (new ++ (P cap).all))) :
    heap.Owns (Function.update (fun c => (P c).all) cap ((P cap).grow new).all) := by
  apply h.perm
  intro c
  by_cases hc : c = cap
  · rw [hc, Function.update_self, Function.update_self]
    exact (P cap).grow_all_perm new
  · rw [Function.update_of_ne hc, Function.update_of_ne hc]

/-- `mk_el` makes a list of new chunks. -/
theorem mkEl_spec (h : mm.Holds P) (hcap : 1 ≤ cap) (hcap' : cap ≤ biggestCap)
    (helm : mm.elmTable cap = none) :
    ∃ mm' new elm, mkEl cap mm = some mm' ∧ new.length = defaultExtra ∧
      mm'.Holds (Function.update P cap ((P cap).grow new)) ∧
      mm'.elmTable cap = some elm ∧ elm.idleNum = 2 ∧ mm'.heap.frees = mm.heap.frees := by
  rcases @mmPreAlloc_spec _ _ cap _ h.heap (by decide : 1 ≤ defaultExtra) (by decide)
    with ⟨list, heap', new, hmake, hlen, hlist, hheap, hfrees, -, -⟩
  have hnone := h.tables.elms cap
  rw [helm] at hnone
  have hidle : ((P cap).grow new).extraIdle = new := by
    rw [Pool.grow, hnone.1, List.append_nil]
  have hextra : ((P cap).grow new).extra = new := by
    rw [Pool.extra, hidle, Pool.grow, hnone.2, List.append_nil]
  refine ⟨({ mm with heap := heap' } : Mm).setElm cap (some ⟨2, 2, list⟩), new, ⟨2, 2, list⟩, ?_,
    hlen, ?_, Function.update_self _ _ _, rfl, hfrees⟩
  · simp only [mkEl, helm, hmake, Option.bind_eq_bind, Option.bind_some, Option.pure_def]
    rfl
  · refine h.setElm hcap hcap' hheap.grow rfl rfl ⟨?_, ?_, ?_, ?_⟩
    · rw [hextra, hlen]
      exact hlist
    · rw [hidle, hlen]
      rfl
    · rw [hextra, hlen]
      rfl
    · rw [hextra]
      exact List.ne_nil_of_length_pos (hlen ▸ Nat.two_pos)

/-- `expand_el` adds new chunks to the list. -/
theorem expandEl_spec {elm : ExtraListManager} (h : mm.Holds P) (hcap : 1 ≤ cap)
    (hcap' : cap ≤ biggestCap) (helm : mm.elmTable cap = some elm) :
    ∃ mm' new elm', expandEl cap mm = some mm' ∧ new.length = defaultExtra ∧
      mm'.Holds (Function.update P cap ((P cap).grow new)) ∧
      mm'.elmTable cap = some elm' ∧ elm'.idleNum = elm.idleNum + 2 ∧
      mm'.heap.frees = mm.heap.frees := by
  have hholds := h.tables.elms cap
  rw [helm] at hholds
  rcases slExpand_holds (by decide : 1 ≤ defaultExtra) (by decide) hholds.chunks
    with ⟨list₁, hexpand, hlist₁⟩
  rcases @pushChunks_spec _ _ cap _ _ _ _ h.heap hlist₁ (Nat.le_refl _)
    with ⟨list, heap', new, hpush, hlen, hlist, hheap, hfrees, -, -⟩
  have hextra : ((P cap).grow new).extra = new ++ (P cap).extra := List.append_assoc _ _ _
  have hcount : ((P cap).grow new).extra.length = (P cap).extra.length + defaultExtra := by
    rw [hextra, List.length_append, hlen, Nat.add_comm]
  refine ⟨({ mm with heap := heap' } : Mm).setElm cap
      (some ⟨elm.idleNum + 2, elm.totalNum + 2, list⟩), new, _, ?_, hlen, ?_,
    Function.update_self _ _ _, rfl, hfrees⟩
  · simp only [expandEl, helm, hexpand, hpush, Option.bind_eq_bind, Option.bind_some,
      Option.pure_def]
    rfl
  · refine h.setElm hcap hcap' hheap.grow rfl rfl ⟨?_, ?_, ?_, ?_⟩
    · rw [hcount, hextra]
      exact hlist
    · show elm.idleNum + 2 = UInt16.ofNat (new ++ (P cap).extraIdle).length
      rw [hholds.idleNum, List.length_append, hlen, Nat.add_comm, UInt16.ofNat_add]
      rfl
    · rw [hcount, UInt16.ofNat_add, ← hholds.totalNum]
      rfl
    · rw [hextra]
      exact List.append_ne_nil_of_right_ne_nil _ hholds.nonempty

/-- After the detour over `mk_el` or `expand_el` the list of the class has an idle chunk. -/
theorem makeRoom_spec (h : mm.Holds P) (hcap : 1 ≤ cap) (hcap' : cap ≤ biggestCap) :
    ∃ mm' new elm, makeRoom cap mm = some mm' ∧
      mm'.Holds (Function.update P cap ((P cap).grow new)) ∧
      mm'.elmTable cap = some elm ∧ elm.idleNum ≠ 0 ∧ mm'.heap.frees = mm.heap.frees ∧
      new.length ≤ defaultExtra := by
  rw [makeRoom, if_pos (h.mutexes cap hcap hcap')]
  cases helm : mm.elmTable cap with
  | none =>
      rcases mkEl_spec h hcap hcap' helm with ⟨mm', new, elm, hmk, hlen, h', helm', hnum, hfrees⟩
      refine ⟨mm', new, elm, hmk, h', helm', ?_, hfrees, Nat.le_of_eq hlen⟩
      rw [hnum]
      decide
  | some elm =>
      by_cases hnum : elm.idleNum = 0
      · rcases expandEl_spec h hcap hcap' helm
          with ⟨mm', new, elm', hexpand, hlen, h', helm', hnum', hfrees⟩
        refine ⟨mm', new, elm', ?_, h', helm', ?_, hfrees, Nat.le_of_eq hlen⟩
        · simp only [if_pos hnum]
          exact hexpand
        · rw [hnum', hnum]
          decide
      · refine ⟨mm, [], elm, ?_, ?_, helm, hnum, rfl, Nat.zero_le _⟩
        · simp only [if_neg hnum]
        · have hsame : (P cap).grow [] = P cap := rfl
          rw [hsame, Function.update_eq_self]
          exact h

/-- `select_extra` takes the chunk at the head of the list and puts it at the end. -/
theorem selectExtra_spec {elm : ExtraListManager} {again : UInt64 → Mm → Option (Option Nat × Mm)}
    (h : mm.Holds P) (hcap : 1 ≤ cap) (hcap' : cap ≤ biggestCap)
    (helm : mm.elmTable cap = some elm) (hnum : elm.idleNum ≠ 0) :
    ∃ mm' x rest, selectExtra again cap mm = some (some x, mm') ∧ (P cap).extraIdle = x :: rest ∧
      mm'.Holds (Function.update P cap
        { P cap with extraIdle := rest, extraLive := (P cap).extraLive ++ [x] }) ∧
      mm'.heap.frees = mm.heap.frees := by
  have hholds := h.tables.elms cap
  rw [helm] at hholds
  have hne : (P cap).extraIdle ≠ [] := by
    intro hnil
    rw [hholds.idleNum, hnil] at hnum
    exact hnum rfl
  rcases List.exists_cons_of_ne_nil hne with ⟨x, rest, hidle⟩
  have hchunks := hholds.chunks
  rw [Pool.extra, hidle, List.cons_append] at hchunks
  rcases pop_holds hchunks with ⟨list₁, hpop, hlist₁⟩
  rcases append_holds hlist₁ (by rw [List.length_cons]; omega) x with ⟨list, happend, hlist⟩
  refine ⟨mm.setElm cap (some { elm with idleNum := elm.idleNum - 1, chunksList := list }), x, rest,
    ?_, hidle, ?_, rfl⟩
  · rw [selectExtra, if_pos (h.mutexes cap hcap hcap')]
    simp only [helm, if_neg hnum, hpop, happend, Option.bind_eq_bind, Option.bind_some,
      Option.pure_def]
  · generalize hp : ({ P cap with extraIdle := rest, extraLive := (P cap).extraLive ++ [x] } :
      Pool Nat) = p
    have hextra : p.extra = rest ++ (P cap).extraLive ++ [x] := by
      rw [← hp]
      exact (List.append_assoc _ _ _).symm
    have hperm : p.extra.Perm (P cap).extra := by
      rw [hextra, Pool.extra, hidle]
      exact List.perm_append_singleton x _
    have hlen : p.extra.length = (x :: (rest ++ (P cap).extraLive)).length := by
      rw [hextra, List.length_append, List.length_singleton, List.length_cons]
    have hall : p.all.Perm (P cap).all := by
      rw [← hp] at hperm ⊢
      exact hperm.append_left _
    refine h.setElm hcap hcap' (h.heap.permAt hall) (by rw [← hp]) (by rw [← hp]) ⟨?_, ?_, ?_, ?_⟩
    · rw [hlen, hextra]
      exact hlist
    · show elm.idleNum - 1 = _
      rw [hholds.idleNum, hidle, List.length_cons, ofNat16_succ_sub, ← hp]
    · show elm.totalNum = _
      rw [hholds.totalNum, hperm.length_eq]
    · rw [hextra]
      exact List.append_ne_nil_of_right_ne_nil _ (List.cons_ne_nil x [])

/-- `select_pre_alloced` moves the first idle chunk to the allocated ones. -/
theorem selectPreAlloced_spec {again : UInt64 → Mm → Option (Option Nat × Mm)} {x : Nat}
    {idle : List Nat} (h : mm.Holds P) (hcap : 1 ≤ cap) (hcap' : cap ≤ big)
    (hidle : (P cap).idle = x :: idle) :
    ∃ mm', selectPreAlloced again cap mm = some (some x, mm') ∧
      mm'.Holds (Function.update P cap
        { P cap with idle := idle, alloced := x :: (P cap).alloced }) ∧
      mm'.heap.frees = mm.heap.frees := by
  rcases h.manager hcap hcap' with ⟨manager, n, hn, htable, hmutex, hholds⟩
  have hnum : manager.idleNum ≠ 0 := by
    rw [Ne, hholds.idleNum_eq_zero_iff hn, hidle]
    exact List.cons_ne_nil _ _
  have hchunks := hholds.idle
  rw [hidle] at hchunks
  have hcount := hholds.count
  rw [hidle, List.length_cons] at hcount
  rcases pop_holds hchunks with ⟨idleChunks, hpop, hidle'⟩
  rcases push_holds hholds.alloced (by omega) x with ⟨allocedChunks, hpush, halloced⟩
  refine ⟨mm.setManager (cap - small) { manager with
    idleNum := manager.idleNum - 1
    idleChunks := idleChunks
    allocedChunks := allocedChunks }, ?_, ?_, rfl⟩
  · rw [selectPreAlloced, if_pos hmutex]
    simp only [htable, if_neg hnum, hpop, hpush, Option.bind_eq_bind, Option.bind_some,
      Option.pure_def]
  · refine h.setManager hcap hcap' ?_ rfl rfl hn hmutex ⟨hidle', halloced, ?_, ?_⟩
    · exact (Pool.Takes.stock hidle).all_perm
    · show manager.idleNum - 1 = _
      rw [hholds.idleNum, hidle, List.length_cons, ofNat16_succ_sub]
    · show idle.length + (x :: (P cap).alloced).length = n
      rw [List.length_cons]
      omega

/-- `dc_alloc` lends a chunk of the class of the size, and gets at most two new ones for it. -/
theorem dcAlloc_holds {size : UInt64} (h : mm.Holds P) (hsize : 2 ≤ size) (hmax : size ≤ 2 ^ 30) :
    ∃ cap x mm' new p, dcAlloc size mm = some (some x, mm') ∧ capOf size = some cap ∧
      size.toNat ≤ 2 ^ cap ∧ (P cap).Takes new x p ∧ mm'.Holds (Function.update P cap p) ∧
      mm'.heap.frees = mm.heap.frees ∧ new.length ≤ defaultExtra := by
  have hsize' : 2 ≤ size.toNat := UInt64.le_iff_toNat_le.mp hsize
  have hone : 1 ≤ size := UInt64.le_trans (by decide) hsize
  have hne := ne_zero_of_one_le hone
  rcases capOf_spec hone hmax with ⟨cap, hcapOf, hcap', hle, -⟩
  have hcap : 1 ≤ cap := by
    by_contra hzero
    rw [show cap = 0 by omega] at hle
    omega
  have hnot : ¬ biggestCap < cap := Nat.not_lt.mpr hcap'
  -- the part that all classes share
  have hextra : ∀ again, (P cap).idle = [] → ∃ x mm₁ mm' new p, makeRoom cap mm = some mm₁ ∧
      selectExtra again cap mm₁ = some (some x, mm') ∧ (P cap).Takes new x p ∧
      mm'.Holds (Function.update P cap p) ∧ mm'.heap.frees = mm.heap.frees ∧
      new.length ≤ defaultExtra := by
    intro again hidle
    rcases makeRoom_spec h hcap hcap' with ⟨mm₁, new, elm, hroom, h₁, helm, hnum, hfrees₁, hlen⟩
    rcases @selectExtra_spec _ _ _ _ again h₁ hcap hcap' helm hnum
      with ⟨mm', x, rest, hselect, hnew, h', hfrees⟩
    rw [Function.update_idem] at h'
    simp only [Function.update_self] at hnew h'
    exact ⟨x, mm₁, mm', new, _, hroom, hselect, .extra hidle hnew, h', hfrees.trans hfrees₁, hlen⟩
  unfold dcAlloc dcAllocFuel
  rw [dcAllocLoop, if_neg hne, hcapOf]
  simp only [Option.bind_eq_bind, Option.bind_some, if_neg hnot]
  -- the two tests of `dc_alloc`: has the class a stock, and has the stock an idle chunk
  by_cases hclass : cap < small ∨ big < cap
  · have hstock := h.tables.noStock cap hclass
    rcases hextra _ (List.append_eq_nil_iff.mp hstock).1
      with ⟨x, mm₁, mm', new, p, hroom, hselect, htakes, h', hfrees⟩
    refine ⟨cap, x, mm', new, p, ?_, rfl, hle, htakes, h', hfrees⟩
    rw [if_pos hclass, hroom]
    exact hselect
  · have hbig : cap ≤ big := by omega
    rcases h.manager hcap hbig with ⟨manager, n, hn, htable, -, hholds⟩
    rw [if_neg hclass]
    simp only [htable, Option.bind_some]
    by_cases hnum : manager.idleNum = 0
    · rcases hextra _ ((hholds.idleNum_eq_zero_iff hn).mp hnum)
        with ⟨x, mm₁, mm', new, p, hroom, hselect, htakes, h', hfrees⟩
      refine ⟨cap, x, mm', new, p, ?_, rfl, hle, htakes, h', hfrees⟩
      rw [if_pos hnum, hroom]
      exact hselect
    · have hidle : (P cap).idle ≠ [] := mt (hholds.idleNum_eq_zero_iff hn).mpr hnum
      rcases List.exists_cons_of_ne_nil hidle with ⟨x, idle, hidle⟩
      rcases @selectPreAlloced_spec _ _ _ _ x idle h hcap hbig hidle with ⟨mm', hselect, h', hfrees⟩
      refine ⟨cap, x, mm', [], _, ?_, rfl, hle, .stock hidle, h', hfrees, Nat.zero_le _⟩
      rw [if_neg hnum]
      exact hselect

/-! ## `dc_free` -/

variable {x : Nat}

/-- A chunk of the stock goes back to the idle ones. -/
theorem freePreAlloced_spec {manager : ChunksManager} {n : Nat} (h : mm.Holds P) (hcap : 1 ≤ cap)
    (hcap' : cap ≤ big) (hn : chunksNum[cap - small]? = some n)
    (hmutex : mm.preAllocMutex (cap - small) = true) (hholds : manager.Holds n (P cap))
    (hx : x ∈ (P cap).alloced) :
    ∃ mm', freePreAlloced (cap - small) x manager mm = some mm' ∧
      mm'.Holds (Function.update P cap
        { P cap with idle := x :: (P cap).idle, alloced := (P cap).alloced.erase x }) ∧
      mm'.heap = mm.heap := by
  have hcount := hholds.count
  have herase := List.length_erase_of_mem hx
  have hpos := List.length_pos_of_mem hx
  rcases mv2head_holds hholds.alloced (List.ne_nil_of_mem hx) x with ⟨list₁, hmove, hlist₁⟩
  rw [if_pos hx] at hmove hlist₁
  rcases pop_holds hlist₁ with ⟨allocedChunks, hpop, halloced⟩
  rcases push_holds hholds.idle (by omega) x with ⟨idleChunks, hpush, hidle⟩
  refine ⟨mm.setManager (cap - small) { manager with
    idleNum := manager.idleNum + 1
    idleChunks := idleChunks
    allocedChunks := allocedChunks }, ?_, ?_, rfl⟩
  · rw [freePreAlloced, if_pos hmutex]
    simp only [hmove, hpop, hpush, Option.bind_eq_bind, Option.bind_some, Option.pure_def]
  · refine h.setManager hcap hcap' ?_ rfl rfl hn hmutex ⟨hidle, halloced, ?_, ?_⟩
    · exact (Pool.Gives.stock hx).all_perm.symm
    · show manager.idleNum + 1 = UInt16.ofNat ((P cap).idle.length + 1)
      rw [hholds.idleNum, UInt16.ofNat_add]
      rfl
    · show (x :: (P cap).idle).length + ((P cap).alloced.erase x).length = n
      rw [List.length_cons, herase]
      omega

/-- A chunk of the extra list goes to its head. -/
theorem mv2head_extra {elm : ExtraListManager} (h : mm.Holds P)
    (helm : mm.elmTable cap = some elm) (hx : x ∈ (P cap).extraLive) :
    ∃ list code, mv2head x elm.chunksList = some (code, list) ∧
      list.Holds (x :: ((P cap).extraIdle ++ (P cap).extraLive.erase x)) (P cap).extra.length ∧
      (elm.idleNum + 1 = elm.totalNum ↔ (P cap).extraLive.length % 65536 = 1) := by
  have hholds := h.tables.elms cap
  rw [helm] at hholds
  have hmem : x ∈ (P cap).extra := List.mem_append_right _ hx
  rcases mv2head_holds hholds.chunks (List.ne_nil_of_mem hmem) x with ⟨list, hmove, hlist⟩
  rw [if_pos hmem] at hmove hlist
  -- the idle chunks are others
  have hidle : x ∉ (P cap).extraIdle := by
    intro hidle
    have hnodup := (List.nodup_append.mp (h.heap.nodup cap)).2.1
    exact (List.nodup_append.mp hnodup).2.2 x hidle x hx rfl
  rw [Pool.extra, List.erase_append_right _ hidle] at hlist
  refine ⟨list, 0, hmove, hlist, ?_⟩
  have hnum : elm.idleNum + 1 = UInt16.ofNat ((P cap).extraIdle.length + 1) := by
    rw [hholds.idleNum, UInt16.ofNat_add]
    rfl
  have hpos := List.length_pos_of_mem hx
  rw [hnum, hholds.totalNum, ofNat16_eq_iff, Pool.extra, List.length_append]
  omega

/-- The extra list keeps its chunks while the counters differ. -/
theorem freeExtra_keeps {elm : ExtraListManager} (h : mm.Holds P) (hcap : 1 ≤ cap)
    (hcap' : cap ≤ biggestCap) (helm : mm.elmTable cap = some elm)
    (hx : x ∈ (P cap).extraLive) (hmore : (P cap).extraLive.length % 65536 ≠ 1) :
    ∃ mm', freeExtra cap x mm = some mm' ∧
      mm'.Holds (Function.update P cap { P cap with
        extraIdle := x :: (P cap).extraIdle
        extraLive := (P cap).extraLive.erase x }) ∧
      mm'.heap = mm.heap := by
  rcases mv2head_extra h helm hx with ⟨list, code, hmove, hlist, hiff⟩
  have hholds := h.tables.elms cap
  rw [helm] at hholds
  have hperm := Pool.extra_perm hx
  refine ⟨mm.setElm cap (some { elm with idleNum := elm.idleNum + 1, chunksList := list }), ?_, ?_,
    rfl⟩
  · simp only [freeExtra, helm, if_pos (h.mutexes cap hcap hcap'), hmove,
      if_neg (mt hiff.mp hmore), Option.bind_eq_bind, Option.bind_some, Option.pure_def]
  · refine h.setElm hcap hcap' (h.heap.permAt (hperm.append_left _)) rfl rfl
      ⟨?_, ?_, ?_, List.cons_ne_nil _ _⟩
    · rw [← hperm.length_eq] at hlist
      exact hlist
    · show elm.idleNum + 1 = UInt16.ofNat ((P cap).extraIdle.length + 1)
      rw [hholds.idleNum, UInt16.ofNat_add]
      rfl
    · show elm.totalNum = UInt16.ofNat (x :: ((P cap).extraIdle ++ (P cap).extraLive.erase x)).length
      rw [hholds.totalNum, hperm.length_eq]

/-- The extra list is destroyed with all its chunks when the counters agree,
whether the other chunks are idle or not. -/
theorem freeExtra_destroys {elm : ExtraListManager} (h : mm.Holds P) (hcap : 1 ≤ cap)
    (hcap' : cap ≤ biggestCap) (helm : mm.elmTable cap = some elm)
    (hx : x ∈ (P cap).extraLive) (hlast : (P cap).extraLive.length % 65536 = 1) :
    ∃ mm', freeExtra cap x mm = some mm' ∧
      mm'.Holds (Function.update P cap { P cap with extraIdle := [], extraLive := [] }) ∧
      mm'.heap.frees =
        mm.heap.frees ++ x :: ((P cap).extraIdle ++ (P cap).extraLive.erase x) := by
  rcases mv2head_extra h helm hx with ⟨list, code, hmove, hlist, hiff⟩
  have hheap := h.heap.permAt
    (List.perm_append_comm.trans ((Pool.extra_perm hx).append_left (P cap).stock))
  rcases freeExtraData_spec hheap (Function.update_self _ _ _) with ⟨heap', hfree, hheap', hfrees, -⟩
  rcases slFree_holds hlist with ⟨n, -, hslFree⟩
  refine ⟨({ mm with heap := heap' } : Mm).setElm cap none, ?_, ?_, hfrees⟩
  · simp only [freeExtra, helm, if_pos (h.mutexes cap hcap hcap'), hmove, if_pos (hiff.mpr hlast),
      traverse_holds hlist, hfree, hslFree, Option.bind_eq_bind, Option.bind_some, Option.pure_def]
  · refine h.setElm hcap hcap' ?_ rfl rfl ⟨rfl, rfl⟩
    rw [Function.update_idem] at hheap'
    rw [show ({ P cap with extraIdle := [], extraLive := [] } : Pool Nat).all = (P cap).stock from
      List.append_nil _]
    exact hheap'

/-- The word in front of a chunk names its class. -/
theorem Mm.Holds.word (h : mm.Holds P) (hx : x ∈ (P cap).all) :
    mm.heap.chunks x = some ⟨cap, 2 ^ cap⟩ ∧ 1 ≤ cap ∧ cap ≤ biggestCap := by
  refine ⟨(h.heap.owned cap x).mp hx, ?_⟩
  by_contra hcap
  rw [h.noClass cap (by omega)] at hx
  simp at hx

theorem Mm.Holds.liveWord (h : mm.Holds P) (hx : x ∈ (P cap).live) :
    mm.heap.chunks x = some ⟨cap, 2 ^ cap⟩ ∧ 1 ≤ cap ∧ cap ≤ biggestCap :=
  h.word ((P cap).live_sublist.subset hx)

theorem Mm.Holds.live_nodup (h : mm.Holds P) (cap : Nat) : (P cap).live.Nodup :=
  (h.heap.nodup cap).sublist (P cap).live_sublist

theorem Mm.Holds.extraLive_nodup (h : mm.Holds P) (cap : Nat) : (P cap).extraLive.Nodup :=
  (List.nodup_append.mp (h.live_nodup cap)).2.1

/-- No chunk belongs to two classes. -/
theorem Mm.Holds.class_unique {c c' : Nat} (h : mm.Holds P) (hx : x ∈ (P c).all)
    (hx' : x ∈ (P c').all) : c = c' := by
  have hword := (h.word hx).1
  rw [(h.word hx').1] at hword
  simp only [Option.some.injEq, Chunk.mk.injEq] at hword
  exact hword.1.symm

theorem Mm.Holds.liveClass_unique {c c' : Nat} (h : mm.Holds P) (hx : x ∈ (P c).live)
    (hx' : x ∈ (P c').live) : c = c' :=
  h.class_unique ((P c).live_sublist.subset hx) ((P c').live_sublist.subset hx')

theorem dcFree_stock (h : mm.Holds P) (hx : x ∈ (P cap).alloced) :
    ∃ mm', dcFree (some x) mm = some mm' ∧
      mm'.Holds (Function.update P cap
        { P cap with idle := x :: (P cap).idle, alloced := (P cap).alloced.erase x }) ∧
      mm'.heap = mm.heap := by
  have hstock : x ∈ (P cap).stock := List.mem_append_right _ hx
  rcases h.word (List.mem_append_left _ hstock) with ⟨hword, hcap, -⟩
  have hclass : ¬ (cap < small ∨ big < cap) := by
    intro hclass
    rw [h.tables.noStock cap hclass] at hstock
    simp at hstock
  have hbig : cap ≤ big := by omega
  rcases h.manager hcap hbig with ⟨manager, n, hn, htable, hmutex, hholds⟩
  rcases freePreAlloced_spec h hcap hbig hn hmutex hholds hx with ⟨mm', hfree, h', hheap⟩
  refine ⟨mm', ?_, h', hheap⟩
  have hfind := find_holds hholds.alloced x
  rw [if_pos hx] at hfind
  simp only [dcFree, hword, if_neg hclass, htable, hfind, Option.bind_eq_bind, Option.bind_some]
  exact hfree

/-- A chunk that is not in the allocated list is looked for in the extra list. -/
theorem dcFree_extra (h : mm.Holds P) (hx : x ∈ (P cap).extraLive) :
    ∃ elm, mm.elmTable cap = some elm ∧ 1 ≤ cap ∧ cap ≤ biggestCap ∧
      dcFree (some x) mm = freeExtra cap x mm := by
  have hextra : x ∈ (P cap).extra := List.mem_append_right _ hx
  rcases h.word (List.mem_append_right _ hextra) with ⟨hword, hcap, hcap'⟩
  have helm : ∃ elm, mm.elmTable cap = some elm := by
    have hholds := h.tables.elms cap
    cases helm : mm.elmTable cap with
    | none =>
        rw [helm] at hholds
        rw [hholds.2] at hx
        simp at hx
    | some elm => exact ⟨elm, rfl⟩
  rcases helm with ⟨elm, helm⟩
  refine ⟨elm, helm, hcap, hcap', ?_⟩
  by_cases hclass : cap < small ∨ big < cap
  · simp only [dcFree, hword, if_pos hclass, Option.bind_eq_bind, Option.bind_some]
  · rcases h.manager hcap (by omega) with ⟨manager, n, -, htable, -, hholds⟩
    have hnot : x ∉ (P cap).alloced := by
      intro hmem
      have hnodup := h.heap.nodup cap
      exact (List.nodup_append.mp hnodup).2.2 x (List.mem_append_right _ hmem) x hextra rfl
    have hfind := find_holds hholds.alloced x
    rw [if_neg hnot] at hfind
    simp only [dcFree, hword, if_neg hclass, htable, hfind, helm, h.mutexes cap hcap hcap',
      Option.bind_eq_bind, Option.bind_some]
    rfl

/-- `dc_free` takes a chunk back, if not too many others of its extra list are lent. -/
theorem dcFree_holds (h : mm.Holds P) (hx : x ∈ (P cap).live)
    (hspare : x ∈ (P cap).extraLive → (P cap).extraLive.length % 65536 = 1 →
      (P cap).extraLive.length = 1) :
    ∃ mm' gone p, dcFree (some x) mm = some mm' ∧ (P cap).Gives x gone p ∧
      mm'.Holds (Function.update P cap p) ∧ mm'.heap.frees = mm.heap.frees ++ gone := by
  rcases List.mem_append.mp hx with hx | hx
  · rcases dcFree_stock h hx with ⟨mm', hfree, h', hheap⟩
    refine ⟨mm', [], _, hfree, .stock hx, h', ?_⟩
    rw [hheap, List.append_nil]
  · rcases dcFree_extra h hx with ⟨elm, helm, hcap, hcap', hdispatch⟩
    rw [hdispatch]
    by_cases hlast : (P cap).extraLive.length % 65536 = 1
    · rcases List.length_eq_one_iff.mp (hspare hx hlast) with ⟨y, hy⟩
      have hxy : (P cap).extraLive = [x] := by
        rw [hy] at hx ⊢
        rw [List.mem_singleton.mp hx]
      rcases freeExtra_destroys h hcap hcap' helm hx hlast with ⟨mm', hfree, h', hfrees⟩
      refine ⟨mm', _, _, hfree, .last hxy, h', ?_⟩
      rw [hfrees, hxy, List.erase_cons_head, List.append_nil]
    · rcases freeExtra_keeps h hcap hcap' helm hx hlast with ⟨mm', hfree, h', hheap⟩
      refine ⟨mm', [], _, hfree, .extra hx ?_, h', ?_⟩
      · intro hnil
        have herase := List.length_erase_of_mem hx
        rw [hnil, List.length_nil] at herase
        have hpos := List.length_pos_of_mem hx
        omega
      · rw [hheap, List.append_nil]

/-! ## `mm_init` -/

/-- One round of the loop sets up the class `small + i`. -/
theorem initManager_tables {i n : Nat} {heap' : Heap} {new : List Nat}
    {idleChunks allocedChunks : Slist Nat} (hi : small + i ≤ big) (htables : mm.Tables (i + 1) P) (hn : chunksNum[i]? = some n) (hlen : new.length = n)
    (hidle : idleChunks.Holds new n) (halloced : allocedChunks.Holds [] n) :
    Mm.Tables
      { ({ mm with heap := heap' } : Mm).setManager i
          ⟨small + i, UInt16.ofNat n, idleChunks, allocedChunks⟩ with
        preAllocMutex := Function.update mm.preAllocMutex i true }
      i (Function.update P (small + i) { P (small + i) with idle := new, alloced := [] }) := by
  constructor
  · intro j hj hj'
    show ∃ manager n, _ ∧ Function.update mm.chunksManagerTable i _ j = _ ∧
      Function.update mm.preAllocMutex i true j = true ∧ _
    by_cases hji : j = i
    · rw [hji, Function.update_self, Function.update_self, Function.update_self]
      exact ⟨_, n, hn, rfl, rfl, hidle, halloced, by rw [hlen], by simp [hlen]⟩
    · rw [Function.update_of_ne hji, Function.update_of_ne hji, Function.update_of_ne (by omega)]
      exact htables.managers j (by omega) hj'
  · intro c hc
    have hne : c ≠ small + i := by omega
    rw [Function.update_of_ne hne]
    exact htables.noStock c (by omega)
  · intro c
    show ElmHolds (mm.elmTable c) _
    have helm := htables.elms c
    by_cases hci : c = small + i
    · rw [hci, Function.update_self]
      rw [hci] at helm
      revert helm
      cases mm.elmTable (small + i) with
      | none => exact id
      | some elm =>
          intro helm
          exact ⟨helm.chunks, helm.idleNum, helm.totalNum, helm.nonempty⟩
    · rw [Function.update_of_ne hci]
      exact helm

/-- The loop of `mm_init` over the classes of the stock. -/
theorem initManagers_spec {i : Nat} (hi : i ≤ chunkTypeNum)
    (hheap : mm.heap.Owns fun c => (P c).all) (htables : mm.Tables i P)
    (hextra : ∀ c, (P c).extra = []) (halloced : ∀ c, (P c).alloced = []) :
    ∃ mm' P', initManagers i mm = some mm' ∧ (mm'.heap.Owns fun c => (P' c).all) ∧
      mm'.Tables 0 P' ∧ (∀ c, (P' c).extra = []) ∧ ∀ c, (P' c).alloced = [] := by
  induction i generalizing mm P with
  | zero => exact ⟨mm, P, rfl, hheap, htables, hextra, halloced⟩
  | succ i ih =>
      have hbig : small + i ≤ big := by
        rw [Nat.add_comm]
        exact hi
      obtain ⟨n, hn⟩ : ∃ n, chunksNum[i]? = some n := ⟨_, List.getElem?_eq_getElem hi⟩
      rcases chunksNum_range hn with ⟨hpos, hmax⟩
      rcases @mmPreAlloc_spec _ _ (small + i) n hheap hpos hmax
        with ⟨idleChunks, heap', new, hmake, hlen, hidle, hheap', -, -, -⟩
      rcases @mkSlist_holds Nat n hpos (by omega) with ⟨allocedChunks, hmk, halloced'⟩
      -- no earlier round has touched this class
      have hnone : (P (small + i)).all = [] := by
        rw [Pool.all, htables.noStock (small + i) (.inl (by omega)), hextra]
        rfl
      let p : Pool Nat := { P (small + i) with idle := new, alloced := [] }
      have hall : p.all = new ++ (P (small + i)).all := by
        rw [hnone, List.append_nil]
        show new ++ [] ++ (P (small + i)).extra = new
        rw [hextra, List.append_nil, List.append_nil]
      have hkeep : ∀ c, (Function.update P (small + i) p c).extra = [] ∧
          (Function.update P (small + i) p c).alloced = [] := by
        intro c
        by_cases hc : c = small + i
        · rw [hc, Function.update_self]
          exact ⟨hextra (small + i), rfl⟩
        · rw [Function.update_of_ne hc]
          exact ⟨hextra c, halloced c⟩
      rw [← hall, ← all_update] at hheap'
      rcases @ih _ _ (Nat.le_of_succ_le hi) hheap'
        (initManager_tables hbig htables hn hlen hidle halloced') (fun c => (hkeep c).1)
        (fun c => (hkeep c).2) with ⟨mm', P', hloop, hrest⟩
      refine ⟨mm', P', ?_, hrest⟩
      simp only [initManagers, hn, hmake, hmk, Option.bind_eq_bind, Option.bind_some]
      exact hloop

theorem initExtraMutexes_spec (j : Nat) (mm : Mm) :
    (initExtraMutexes j mm).heap = mm.heap ∧
      (initExtraMutexes j mm).chunksManagerTable = mm.chunksManagerTable ∧
      (initExtraMutexes j mm).elmTable = mm.elmTable ∧
      (initExtraMutexes j mm).preAllocMutex = mm.preAllocMutex ∧
      ∀ c, (initExtraMutexes j mm).extraMutex c = true ↔
        mm.extraMutex c = true ∨ 1 ≤ c ∧ c ≤ j := by
  induction j generalizing mm with
  | zero =>
      refine ⟨rfl, rfl, rfl, rfl, ?_⟩
      intro c
      rw [or_iff_left (by omega)]
      rfl
  | succ j ih =>
      rcases ih { mm with extraMutex := Function.update mm.extraMutex (j + 1) true }
        with ⟨hheap, htable, helm, hmutex, hextra⟩
      refine ⟨hheap, htable, helm, hmutex, ?_⟩
      intro c
      rw [initExtraMutexes, hextra]
      dsimp only
      by_cases hcj : c = j + 1
      · rw [hcj, Function.update_self]
        simp
      · rw [Function.update_of_ne hcj]
        apply or_congr_right
        omega

theorem blank_owns : Mm.blank.heap.Owns fun _ => [] where
  owned := by simp [Mm.blank]
  known := by simp [Mm.blank]
  nodup := by simp
  fresh := by simp [Mm.blank]
  freed := by simp [Mm.blank]
  freedOnce := List.nodup_nil

theorem blank_tables : Mm.blank.Tables chunkTypeNum fun _ => Pool.empty where
  managers := by
    intro i hi hi'
    omega
  noStock := fun _ _ => rfl
  elms := fun _ => ⟨rfl, rfl⟩

/-- `mm_init` sets the allocator up with no chunk lent. -/
theorem mmInit_holds : ∃ mm P, mmInit = some mm ∧ mm.Holds P ∧ (∀ c, (P c).live = []) ∧
    ∀ c, (P c).extra = [] := by
  rcases initManagers_spec (Nat.le_refl _) blank_owns blank_tables (fun _ => rfl) (fun _ => rfl)
    with ⟨mm, P, hloop, hheap, htables, hextra, halloced⟩
  rcases initExtraMutexes_spec biggestCap mm with ⟨hheap', htable', helm', hmutex', hextra'⟩
  refine ⟨initExtraMutexes biggestCap mm, P, ?_, ⟨?_, ?_, ?_, ?_⟩, ?_, hextra⟩
  · simp only [mmInit, hloop, Option.bind_eq_bind, Option.bind_some, Option.pure_def]
  · rw [hheap']
    exact hheap
  · constructor
    · rw [htable', hmutex']
      exact htables.managers
    · exact htables.noStock
    · rw [helm']
      exact htables.elms
  · intro cap hcap hcap'
    exact (hextra' cap).mpr (.inr ⟨hcap, hcap'⟩)
  · intro c hc
    rw [Pool.all, hextra, htables.noStock c ?_]
    · rfl
    · rcases hc with hc | hc
      · exact .inl hc
      · exact .inr (Nat.lt_trans (by decide) hc)
  · intro c
    have hnil := List.append_eq_nil_iff.mp (hextra c)
    rw [Pool.live, halloced, hnil.2]
    rfl

end DnsCache

import Mathlib.Data.List.Nodup
import DnsCache.Lib.CMem

/-! # The tail pool of `datrie_tail_pool.c`

An array of NUL-terminated strings that only grows: a string is pushed behind
the last one and known by the index of its first byte from then on. The block
is enlarged by doubling when a string does not fit.

* `growLoop`, `dtPushTail`, `dtGetTail`: the functions of the source.
* `TailPool.Holds`: the invariant, for the strings pushed so far;
  `TailPool.GrownFrom`: the same for a pool of any size at first.
* `dtPushTail_grown`, `dtPushAll_grown`, `pushes_kept`: one push, and any sequence of pushes.
-/

namespace DnsCache

open CMem

/-! ## The functions -/

/-- `DATRIE_TAIL_POOL_INITIAL_SIZE` and `DATRIE_TAIL_POOL_INCREASING_RATE`. -/
def tailPoolInitialSize : Nat := 512
def tailPoolIncreasingRate : UInt32 := 2

/-- `dc_realloc` as `dc_mm.h` states it: the new block has `size` bytes and
agrees with the old one up to the smaller of the two sizes. -/
structure Realloc where
  realloc : List UInt8 → Nat → List UInt8
  length_realloc : ∀ block size, (realloc block size).length = size
  keeps : ∀ block size,
    (realloc block size).take (min block.length size) = block.take (min block.length size)

/-- `datrie_tail_pool`; `pool` is the block the pointer points to. -/
structure TailPool where
  pool : List UInt8
  nextFree : UInt32
  poolSize : UInt32
deriving DecidableEq, Repr

/-- `new_datrie_tail_pool`. The block is not cleared: it holds `junk`. -/
def newDatrieTailPool (junk : Nat → UInt8) : TailPool where
  pool := (List.range tailPoolInitialSize).map junk
  nextFree := 1
  poolSize := UInt32.ofNat tailPoolInitialSize

/-- The `while` loop. `need` is `strlen (tail) + 1`; the free space is computed
in `uint32`. No result when the fuel runs out. -/
def growLoop (R : Realloc) (need : Nat) : Nat → TailPool → Option TailPool
  | 0, _ => none
  | fuel + 1, p =>
      if need > (p.poolSize - p.nextFree).toNat then
        let poolSize := p.poolSize * tailPoolIncreasingRate
        growLoop R need fuel ⟨R.realloc p.pool poolSize.toNat, p.nextFree, poolSize⟩
      else some p

/-- After 32 rounds the `uint32` size is 0 and stays 0: a loop that goes on
after that never ends. -/
def growFuel : Nat := 34

/-- `dt_push_tail`. A `strcpy` that leaves the block has no result. -/
def dtPushTail (R : Realloc) (tail : CStr) (p : TailPool) : Option (Int32 × TailPool) := do
  let index := p.nextFree
  let p ← growLoop R (tail.length + 1) growFuel p
  if p.nextFree.toNat + (tail.length + 1) ≤ p.pool.length then
    return (index.toInt32, { p with
      pool := patch p.pool p.nextFree.toNat tail.raw
      nextFree := UInt32.ofNat (p.nextFree.toNat + tail.length + 1) })
  else none

/-- The string at `dt_get_tail (index, pool)`. -/
def dtGetTail (index : Int32) (p : TailPool) : Option CStr :=
  if index.toInt < 0 then none else CStr.scan (p.pool.drop index.toInt.toNat)

/-- A sequence of pushes, with the indices returned. -/
def dtPushAll (R : Realloc) : TailPool → List CStr → Option (List Int32 × TailPool)
  | p, [] => some ([], p)
  | p, tail :: tails => do
      let (index, p) ← dtPushTail R tail p
      let (indices, p) ← dtPushAll R p tails
      return (index :: indices, p)

/-! ## The invariant -/

/-- The index of the `j`-th string. -/
def tailIndex (tails : List CStr) (j : Nat) : Nat := 1 + (CStr.pack (tails.take j)).length

/-- The pool holds exactly `tails`, one behind the other from index 1 on, and
its size has doubled without wrapping. -/
structure TailPool.Holds (p : TailPool) (tails : List CStr) : Prop where
  nextFree : p.nextFree.toNat = tailIndex tails tails.length
  length : p.pool.length = p.poolSize.toNat
  doubled : ∃ k ≤ 22, p.poolSize.toNat = tailPoolInitialSize * 2 ^ k
  content : ∃ first rest, p.pool = first :: (CStr.pack tails ++ rest)

/-- The same invariant for a pool whose size has doubled from `base`. -/
structure TailPool.GrownFrom (base : Nat) (p : TailPool) (tails : List CStr) : Prop where
  nextFree : p.nextFree.toNat = tailIndex tails tails.length
  length : p.pool.length = p.poolSize.toNat
  doubled : ∃ k, p.poolSize.toNat = base * 2 ^ k
  content : ∃ first rest, p.pool = first :: (CStr.pack tails ++ rest)

theorem tailIndex_length (tails : List CStr) :
    tailIndex tails tails.length = 1 + (CStr.pack tails).length := by
  rw [tailIndex, List.take_length]

theorem pack_snoc_length (tails : List CStr) (tail : CStr) :
    (CStr.pack (tails ++ [tail])).length = (CStr.pack tails).length + (tail.length + 1) := by
  rw [CStr.pack_snoc, List.length_append, CStr.raw_length]

/-- A size that is a `uint32` has doubled 22 times at most. -/
theorem TailPool.holds_iff {p : TailPool} {tails : List CStr} :
    p.Holds tails ↔ p.GrownFrom tailPoolInitialSize tails := by
  constructor
  · intro h
    rcases h.doubled with ⟨k, -, hsize⟩
    exact ⟨h.nextFree, h.length, ⟨k, hsize⟩, h.content⟩
  · intro h
    rcases h.doubled with ⟨k, hsize⟩
    refine ⟨h.nextFree, h.length, ⟨k, ?_, hsize⟩, h.content⟩
    by_contra hk
    have hpow : 2 ^ 23 ≤ 2 ^ k := Nat.pow_le_pow_right (by decide) (by omega)
    have hlt := p.poolSize.toNat_lt
    rw [hsize, tailPoolInitialSize] at hlt
    omega

section GrownFrom

variable {base : Nat} {p : TailPool} {tails : List CStr}

theorem TailPool.GrownFrom.nextFree_le (h : p.GrownFrom base tails) :
    p.nextFree.toNat ≤ p.poolSize.toNat := by
  rcases h.content with ⟨first, rest, hpool⟩
  rw [h.nextFree, tailIndex_length, ← h.length, hpool, List.length_cons, List.length_append]
  omega

theorem TailPool.GrownFrom.poolSize_pos (h : p.GrownFrom base tails) : 0 < p.poolSize.toNat := by
  have hle := h.nextFree_le
  rw [h.nextFree, tailIndex_length] at hle
  omega

/-- The free space as the loop computes it. -/
theorem TailPool.GrownFrom.free_toNat (h : p.GrownFrom base tails) :
    (p.poolSize - p.nextFree).toNat = p.poolSize.toNat - p.nextFree.toNat :=
  UInt32.toNat_sub_of_le _ _ (UInt32.le_iff_toNat_le.mpr h.nextFree_le)

end GrownFrom

theorem newDatrieTailPool_holds (junk : Nat → UInt8) : (newDatrieTailPool junk).Holds [] where
  nextFree := rfl
  length := by simp [newDatrieTailPool, tailPoolInitialSize]
  doubled := ⟨0, Nat.zero_le _, rfl⟩
  content := ⟨junk 0, (List.range 511).map fun i => junk (i + 1), by
    simp only [newDatrieTailPool, tailPoolInitialSize, CStr.pack_nil, List.nil_append]
    rw [List.range_succ_eq_map, List.map_cons, List.map_map]
    rfl⟩

/-- A larger block begins with the old one. -/
theorem Realloc.prefix_of_le (R : Realloc) {block : List UInt8} {size : Nat}
    (h : block.length ≤ size) : ∃ rest, R.realloc block size = block ++ rest := by
  have hkeep := R.keeps block size
  rw [Nat.min_eq_left h, List.take_length] at hkeep
  refine ⟨(R.realloc block size).drop block.length, ?_⟩
  conv_lhs => rw [← List.take_append_drop block.length (R.realloc block size), hkeep]

/-! ## The growth loop -/

variable {R : Realloc} {base : Nat} {p : TailPool} {tails : List CStr}

/-- One round: the size doubles, the strings stay. -/
theorem TailPool.GrownFrom.double (h : p.GrownFrom base tails)
    (hsize : p.poolSize.toNat < 2147483648) :
    (p.poolSize * tailPoolIncreasingRate).toNat = p.poolSize.toNat * 2 ∧
      TailPool.GrownFrom base ⟨R.realloc p.pool (p.poolSize * tailPoolIncreasingRate).toNat,
        p.nextFree, p.poolSize * tailPoolIncreasingRate⟩ tails := by
  have htwice : (p.poolSize * tailPoolIncreasingRate).toNat = p.poolSize.toNat * 2 := by
    rw [UInt32.toNat_mul]
    apply Nat.mod_eq_of_lt
    simp only [tailPoolIncreasingRate, UInt32.reduceToNat]
    omega
  have hle : p.pool.length ≤ (p.poolSize * tailPoolIncreasingRate).toNat := by
    rw [h.length, htwice]
    exact Nat.le_mul_of_pos_right _ Nat.two_pos
  refine ⟨htwice, h.nextFree, R.length_realloc _ _, ?_, ?_⟩
  · rcases h.doubled with ⟨k, hk⟩
    exact ⟨k + 1, by rw [htwice, hk, Nat.pow_succ, Nat.mul_assoc]⟩
  · rcases h.content with ⟨first, rest, hpool⟩
    rcases R.prefix_of_le hle with ⟨more, hmore⟩
    refine ⟨first, rest ++ more, ?_⟩
    show R.realloc _ _ = _
    rw [hmore, hpool, List.cons_append, List.append_assoc]

/-- The loop ends with room for the string, as long as the string ends below 2^31. -/
theorem growLoop_spec {need fuel : Nat} (h : p.GrownFrom base tails)
    (hfuel : 2147483648 ≤ p.poolSize.toNat * 2 ^ fuel)
    (hbound : p.nextFree.toNat + need ≤ 2147483648) :
    ∃ p', growLoop R need (fuel + 1) p = some p' ∧ p'.GrownFrom base tails ∧
      p'.nextFree = p.nextFree ∧ p.nextFree.toNat + need ≤ p'.poolSize.toNat := by
  -- the fuel is enough to double the size up to 2^31
  induction fuel generalizing p with
  | zero =>
      rw [Nat.pow_zero, Nat.mul_one] at hfuel
      rw [growLoop, h.free_toNat, if_neg (by omega)]
      exact ⟨p, rfl, h, rfl, by omega⟩
  | succ fuel ih =>
      rw [growLoop, h.free_toNat]
      split
      · -- a pool of 2^31 bytes would have had room
        rcases @TailPool.GrownFrom.double R base p tails h (by omega) with ⟨htwice, hdouble⟩
        refine ih hdouble ?_ hbound
        show 2147483648 ≤ (p.poolSize * tailPoolIncreasingRate).toNat * 2 ^ fuel
        rw [htwice, Nat.mul_assoc, ← Nat.pow_succ']
        exact hfuel
      · have hle := h.nextFree_le
        exact ⟨p, rfl, h, rfl, by omega⟩

/-! ## Pushes -/

/-- The step lemma: a push that ends by 2^31 returns the next index and
leaves the strings pushed before in their places. -/
theorem dtPushTail_grown {tail : CStr} (h : p.GrownFrom base tails)
    (hbound : (CStr.pack (tails ++ [tail])).length < 2147483648) :
    ∃ p', dtPushTail R tail p = some (Int32.ofNat (tailIndex tails tails.length), p') ∧
      p'.GrownFrom base (tails ++ [tail]) := by
  have hraw : tail.raw.length = tail.length + 1 := CStr.raw_length tail
  have hpack := pack_snoc_length tails tail
  have hindex := tailIndex_length tails
  have hpos := h.poolSize_pos
  rcases @growLoop_spec R base p tails (tail.length + 1) 33 h (by omega)
      (by rw [h.nextFree]; omega) with ⟨q, hgrow, hq, hnext, hroom⟩
  have hnextFree := hq.nextFree
  have hofNat : UInt32.ofNat (tailIndex tails tails.length) = p.nextFree := by
    rw [← h.nextFree, UInt32.ofNat_toNat]
  refine ⟨{ q with
    pool := patch q.pool q.nextFree.toNat tail.raw
    nextFree := UInt32.ofNat (q.nextFree.toNat + tail.length + 1) }, ?_, ?_⟩
  · simp only [dtPushTail, growFuel, hgrow, Option.bind_eq_bind, Option.bind_some]
    rw [if_pos (by rw [hq.length, hnext]; exact hroom), ← hofNat, toInt32_ofNat]
    rfl
  · rcases hq.content with ⟨first, rest, hpool⟩
    have hfront : (first :: CStr.pack tails).length = q.nextFree.toNat := by
      rw [hnextFree, hindex, List.length_cons, Nat.add_comm]
    constructor
    · show (UInt32.ofNat _).toNat = _
      rw [tailIndex_length, hpack, hnextFree, hindex, toNat_ofNat_small (by omega)]
      omega
    · show (patch q.pool _ _).length = _
      rw [patch_length (by rw [hq.length]; exact hq.nextFree_le), hraw, hq.length, hnext]
      exact Nat.max_eq_left hroom
    · exact hq.doubled
    · refine ⟨first, rest.drop tail.raw.length, ?_⟩
      show patch q.pool _ _ = _
      rw [hpool, ← List.cons_append, ← hfront, patch_append_length]
      simp [CStr.pack_append]

/-- The run lemma: the indices of a sequence of pushes. -/
theorem dtPushAll_grown {more : List CStr} (h : p.GrownFrom base tails)
    (hbound : (CStr.pack (tails ++ more)).length < 2147483648) :
    ∃ p', dtPushAll R p more = some ((List.range more.length).map fun j =>
        Int32.ofNat (tailIndex (tails ++ more) (tails.length + j)), p') ∧
      p'.GrownFrom base (tails ++ more) := by
  induction more generalizing p tails with
  | nil => exact ⟨p, rfl, by rw [List.append_nil]; exact h⟩
  | cons tail more ih =>
      have hsplit : tails ++ tail :: more = (tails ++ [tail]) ++ more := by simp
      rw [hsplit] at hbound ⊢
      have hfirst : (CStr.pack (tails ++ [tail])).length < 2147483648 := by
        rw [CStr.pack_append, List.length_append] at hbound
        omega
      rcases @dtPushTail_grown R base p tails tail h hfirst with ⟨q, hpush, hq⟩
      rcases ih hq hbound with ⟨p', hrest, hp'⟩
      refine ⟨p', ?_, hp'⟩
      simp only [dtPushAll, hpush, hrest, Option.bind_eq_bind, Option.bind_some, Option.pure_def,
        Option.some.injEq, Prod.mk.injEq, and_true]
      rw [List.length_cons, List.range_succ_eq_map, List.map_cons, List.map_map]
      congr 1
      · rw [tailIndex, tailIndex, Nat.add_zero, List.take_length, List.append_assoc,
          List.take_left]
      · apply List.map_congr_left
        intro j _
        simp only [Function.comp_apply, List.length_append, List.length_singleton]
        rw [Nat.add_right_comm, Nat.add_assoc]

/-- The pushes on a new pool. -/
theorem dtPushAll_new (R : Realloc) (junk : Nat → UInt8) {tails : List CStr}
    (hbound : (CStr.pack tails).length < 2147483648) :
    ∃ p, dtPushAll R (newDatrieTailPool junk) tails = some ((List.range tails.length).map fun j =>
        Int32.ofNat (tailIndex tails j), p) ∧ p.Holds tails := by
  rcases @dtPushAll_grown R _ _ [] tails (TailPool.holds_iff.mp (newDatrieTailPool_holds junk)) hbound
    with ⟨p, hpush, hp⟩
  simp only [List.nil_append, List.length_nil, Nat.zero_add] at hpush hp
  exact ⟨p, hpush, TailPool.holds_iff.mpr hp⟩

/-! ## What an index stands for -/

theorem tailIndex_lt (tails : List CStr) {i j : Nat} (hij : i < j) (hj : j ≤ tails.length) :
    tailIndex tails i < tailIndex tails j := by
  have hlt : i < tails.length := by omega
  have htake : tails.take j = tails.take i ++ (tails.drop i).take (j - i) := by
    rw [← List.take_add, Nat.add_sub_cancel' (Nat.le_of_lt hij)]
  have hpos := CStr.length_le_pack ((tails.drop i).take (j - i))
  rw [List.length_take, List.length_drop] at hpos
  unfold tailIndex
  rw [htake, CStr.pack_append, List.length_append]
  omega

theorem tailIndex_toInt {j : Nat} (hbound : (CStr.pack tails).length < 2147483647) :
    (Int32.ofNat (tailIndex tails j)).toInt = (tailIndex tails j : Int) := by
  have hle : (CStr.pack (tails.take j)).length ≤ (CStr.pack tails).length := by
    conv_rhs => rw [← List.take_append_drop j tails, CStr.pack_append, List.length_append]
    exact Nat.le_add_right _ _
  apply int32_ofNat_toInt
  unfold tailIndex
  omega

theorem dtGetTail_grown {j : Nat} {tail : CStr} (h : p.GrownFrom base tails)
    (hbound : (CStr.pack tails).length < 2147483647) (hj : tails[j]? = some tail) :
    dtGetTail (Int32.ofNat (tailIndex tails j)) p = some tail := by
  rcases h.content with ⟨first, rest, hpool⟩
  rcases List.getElem?_eq_some_iff.mp hj with ⟨hlt, hget⟩
  have hsplit : tails = tails.take j ++ tail :: tails.drop (j + 1) := by
    rw [← hget, ← List.drop_eq_getElem_cons hlt, List.take_append_drop]
  have hdrop : p.pool.drop (tailIndex tails j) =
      tail.raw ++ (CStr.pack (tails.drop (j + 1)) ++ rest) := by
    rw [hpool, tailIndex, Nat.add_comm, List.drop_succ_cons]
    conv_lhs => rw [hsplit]
    rw [CStr.pack_append, CStr.pack_cons, List.append_assoc, ← hsplit, List.drop_left,
      List.append_assoc]
  unfold dtGetTail
  rw [tailIndex_toInt hbound, if_neg (by omega), Int.toNat_natCast, hdrop, CStr.scan_raw]

/-- After any sequence of pushes that stays below 2^31 - 1 bytes, the indices
returned are positive and distinct, and each still stands for its string. -/
theorem pushes_kept (R : Realloc) (junk : Nat → UInt8) (tails : List CStr)
    (hbound : (tails.map fun tail => tail.length + 1).sum < 2 ^ 31 - 1) :
    ∃ indices p, dtPushAll R (newDatrieTailPool junk) tails = some (indices, p) ∧
      indices.length = tails.length ∧ (∀ index ∈ indices, 0 < index.toInt) ∧ indices.Nodup ∧
      (∀ (j : Nat) index tail, indices[j]? = some index → tails[j]? = some tail →
        dtGetTail index p = some tail) ∧
      p.nextFree ≤ p.poolSize := by
  rw [← CStr.pack_length] at hbound
  rcases @dtPushAll_new R junk tails (by omega) with ⟨p, hpush, hp⟩
  have hgrown := TailPool.holds_iff.mp hp
  refine ⟨_, p, hpush, by simp, ?_, ?_, ?_, hgrown.nextFree_le⟩
  · intro index hindex
    rcases List.mem_map.mp hindex with ⟨j, -, rfl⟩
    rw [tailIndex_toInt hbound]
    unfold tailIndex
    omega
  · -- the indices increase
    apply List.Nodup.map_on _ List.nodup_range
    intro i hi j hj heq
    have hnat := congrArg Int32.toInt heq
    rw [tailIndex_toInt hbound, tailIndex_toInt hbound] at hnat
    rw [List.mem_range] at hi hj
    rcases Nat.lt_trichotomy i j with hlt | rfl | hlt
    · have := tailIndex_lt tails hlt (Nat.le_of_lt hj)
      omega
    · rfl
    · have := tailIndex_lt tails hlt (Nat.le_of_lt hi)
      omega
  · intro j index tail hindex htail
    have hlt := (List.getElem?_eq_some_iff.mp htail).1
    rw [List.getElem?_map, List.getElem?_range hlt, Option.map_some, Option.some.injEq] at hindex
    rw [← hindex]
    exact dtGetTail_grown hgrown hbound htail

/-- A `dc_realloc` that clears the added memory. -/
def clearingRealloc : Realloc where
  realloc := fun block size => (block ++ List.replicate size 0).take size
  length_realloc := by
    intro block size
    simp
  keeps := by
    intro block size
    rw [List.take_take, Nat.min_eq_left (Nat.min_le_right _ _),
      List.take_append_of_le_length (Nat.min_le_left _ _)]

/-- A string longer than a new pool. -/
def longTail : CStr := ⟨List.replicate 600 97, fun h => absurd (List.eq_of_mem_replicate h) (by decide)⟩

theorem longTail_length : longTail.length = 600 := List.length_replicate

/-- `pushes_kept` for the empty string, one that needs a larger pool, and the empty string again. -/
theorem pushes_kept_grown :
    ∃ indices p, dtPushAll clearingRealloc (newDatrieTailPool fun _ => 7)
        [CStr.empty, longTail, CStr.empty] = some (indices, p) ∧ indices.Nodup ∧
      p.nextFree ≤ p.poolSize := by
  have hsum : ([CStr.empty, longTail, CStr.empty].map fun tail => tail.length + 1).sum = 603 := by
    simp only [List.map_cons, List.map_nil, longTail_length]
    rfl
  rcases pushes_kept clearingRealloc (fun _ => 7) [CStr.empty, longTail, CStr.empty]
    (by rw [hsum]; decide) with ⟨indices, p, hpush, -, -, hnodup, -, hle⟩
  exact ⟨indices, p, hpush, hnodup, hle⟩

end DnsCache

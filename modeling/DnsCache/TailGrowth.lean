import DnsCache.TailFile

/-! # How far a tail pool can grow

The size of a pool is a `uint32` that is doubled until a string fits. 2^31 is
the last size: the next one is 0.

* `TailPool.TakesTail`: what a push is to do.
* `growLoop_past`: a loop that goes beyond 2^31 leaves the size 0, if it ends.
* `pushed_takesTail_iff`: the strings that a pool reached by pushes still takes.
-/

namespace DnsCache

open CMem

/-- What a push of `tail` is to do: the loop ends with room for the string, the
copy stays inside the pool, and the index is larger than zero. -/
def TailPool.TakesTail (R : Realloc) (tail : CStr) (p : TailPool) : Prop :=
  ∃ fuel q index p', growLoop R (tail.length + 1) fuel p = some q ∧
    (tail.length : Int) + 1 ≤ (q.poolSize.toNat : Int) - (q.nextFree.toNat : Int) ∧
    dtPushTail R tail p = some (index, p') ∧ 0 < index.toInt

variable {R : Realloc} {p q : TailPool} {tails : List CStr} {need fuel : Nat}

/-! ## Beyond the last size -/

theorem TailPool.Holds.poolSize_le (h : p.Holds tails) : p.poolSize.toNat ≤ 2147483648 := by
  rcases h.doubled with ⟨k, hk, hsize⟩
  have hpow : 2 ^ k ≤ 2 ^ 22 := Nat.pow_le_pow_right (by decide) hk
  rw [hsize, tailPoolInitialSize]
  omega

/-- The doubled size is one of the sizes again, or it has wrapped. -/
theorem TailPool.Holds.double (h : p.Holds tails) :
    ((p.poolSize * tailPoolIncreasingRate).toNat = p.poolSize.toNat * 2 ∧
      TailPool.Holds ⟨R.realloc p.pool (p.poolSize * tailPoolIncreasingRate).toNat,
        p.nextFree, p.poolSize * tailPoolIncreasingRate⟩ tails) ∨
      p.poolSize * tailPoolIncreasingRate = 0 := by
  rcases Nat.lt_or_ge p.poolSize.toNat 2147483648 with hlt | hge
  · rcases @TailPool.GrownFrom.double R _ p tails (TailPool.holds_iff.mp h) hlt
      with ⟨htwice, hdouble⟩
    exact .inl ⟨htwice, TailPool.holds_iff.mpr hdouble⟩
  · right
    have hsize : p.poolSize.toNat = 2147483648 := Nat.le_antisymm h.poolSize_le hge
    rw [← UInt32.toNat_inj, UInt32.toNat_mul, hsize]
    rfl

/-- A size of 0 stays 0. -/
theorem growLoop_zero (h : p.poolSize = 0) (hgrow : growLoop R need fuel p = some q) :
    q.poolSize = 0 := by
  induction fuel generalizing p with
  | zero => simp [growLoop] at hgrow
  | succ fuel ih =>
      rw [growLoop] at hgrow
      split at hgrow
      · refine ih ?_ hgrow
        show p.poolSize * tailPoolIncreasingRate = 0
        rw [h]
        rfl
      · cases hgrow
        exact h

/-- A string that does not end by 2^31 takes the loop beyond the last size. -/
theorem growLoop_past (h : p.Holds tails) (hpast : 2147483648 < p.nextFree.toNat + need)
    (hgrow : growLoop R need fuel p = some q) : q.poolSize = 0 := by
  induction fuel generalizing p with
  | zero => simp [growLoop] at hgrow
  | succ fuel ih =>
      have hsize := h.poolSize_le
      have hnext := (TailPool.holds_iff.mp h).nextFree_le
      rw [growLoop, (TailPool.holds_iff.mp h).free_toNat, if_pos (by omega)] at hgrow
      rcases @TailPool.Holds.double R p tails h with ⟨-, hdouble⟩ | hzero
      · exact ih hdouble hpast hgrow
      · exact growLoop_zero hzero hgrow

/-- Such a loop ends as long as the string ends by 2^32: from the size 0 the
free space is what is left of the range. -/
theorem growLoop_past_ends (h : p.Holds tails) (hend : p.nextFree.toNat + need ≤ 4294967296)
    (hfuel : 4294967296 ≤ p.poolSize.toNat * 2 ^ fuel) :
    ∃ q, growLoop R need (fuel + 1) p = some q := by
  induction fuel generalizing p with
  | zero =>
      have hsize := h.poolSize_le
      omega
  | succ fuel ih =>
      rw [growLoop]
      split
      · rcases @TailPool.Holds.double R p tails h with ⟨htwice, hdouble⟩ | hzero
        · refine ih hdouble hend ?_
          show 4294967296 ≤ (p.poolSize * tailPoolIncreasingRate).toNat * 2 ^ fuel
          rw [htwice, Nat.mul_assoc, ← Nat.pow_succ']
          exact hfuel
        · have hpos : 0 < p.nextFree.toNat := by
            rw [h.nextFree, tailIndex_length]
            omega
          have hlt := p.nextFree.toNat_lt
          have hfree : (0 - p.nextFree).toNat = 4294967296 - p.nextFree.toNat := by
            rw [UInt32.toNat_sub, UInt32.toNat_zero]
            omega
          rw [hzero, growLoop, if_neg (by rw [hfree]; omega)]
          exact ⟨_, rfl⟩
      · exact ⟨p, rfl⟩

/-! ## One push -/

/-- A push that returns has ended by 2^31: behind a size of 0 there is no room. -/
theorem dtPushTail_room {tail : CStr} {r : Int32 × TailPool} (h : p.Holds tails)
    (hpush : dtPushTail R tail p = some r) : p.nextFree.toNat + (tail.length + 1) ≤ 2147483648 := by
  by_contra hpast
  simp only [dtPushTail, Option.bind_eq_bind, Option.bind_eq_some_iff] at hpush
  rcases hpush with ⟨q, hgrow, hcopy⟩
  have hzero := growLoop_past h (by omega) hgrow
  have hlength := (growLoop_within h.length hgrow).1
  rw [hzero, UInt32.toNat_zero] at hlength
  rw [if_neg (by omega)] at hcopy
  simp at hcopy

/-- The strings of a pool with one more, and where that one would end. -/
theorem TailPool.Holds.pack_snoc {tail : CStr} (h : p.Holds tails) :
    (CStr.pack (tails ++ [tail])).length + 1 = p.nextFree.toNat + (tail.length + 1) := by
  rw [h.nextFree, tailIndex_length, pack_snoc_length]
  omega

theorem TailPool.Holds.takesTail_iff {tail : CStr} (h : p.Holds tails) :
    p.TakesTail R tail ↔ p.nextFree.toNat + (tail.length + 1) ≤ 2147483648 := by
  have hsnoc := @TailPool.Holds.pack_snoc p tails tail h
  constructor
  · rintro ⟨fuel, q, index, p', -, -, hpush, -⟩
    exact dtPushTail_room h hpush
  · intro hroom
    have hgrown := TailPool.holds_iff.mp h
    have hindex := tailIndex_length tails
    have hnext := h.nextFree
    have hpos := hgrown.poolSize_pos
    rcases @growLoop_spec R _ p tails (tail.length + 1) 33 hgrown (by omega) hroom
      with ⟨q, hgrow, hq, hnextFree, hle⟩
    rcases @dtPushTail_grown R _ p tails tail hgrown (by omega) with ⟨p', hpush, -⟩
    refine ⟨34, q, _, p', hgrow, ?_, hpush, ?_⟩
    · rw [hnextFree]
      omega
    · rw [int32_ofNat_toInt (by omega)]
      omega

/-! ## Any number of pushes -/

/-- The pools that pushes reach hold all strings pushed, and end by 2^31. -/
theorem dtPushAll_room {more : List CStr} {indices : List Int32} (h : p.Holds tails)
    (hpush : dtPushAll R p more = some (indices, q)) :
    q.Holds (tails ++ more) := by
  induction more generalizing p tails indices with
  | nil =>
      cases hpush
      rw [List.append_nil]
      exact h
  | cons tail more ih =>
      simp only [dtPushAll, Option.bind_eq_bind, Option.bind_eq_some_iff, Prod.exists,
        Option.pure_def, Option.some.injEq, Prod.mk.injEq] at hpush
      rcases hpush with ⟨index, p₁, hfirst, later, r, hrest, -, rfl⟩
      have hroom := dtPushTail_room h hfirst
      have hsnoc := @TailPool.Holds.pack_snoc p tails tail h
      rcases @dtPushTail_grown R _ p tails tail (TailPool.holds_iff.mp h) (by omega)
        with ⟨p₂, hpush₂, h₂⟩
      rw [hfirst, Option.some.injEq, Prod.mk.injEq] at hpush₂
      rw [← hpush₂.2] at h₂
      have hall := ih (TailPool.holds_iff.mpr h₂) hrest
      rwa [List.append_assoc] at hall

/-- The strings pushed so far are fewer than 2^31 bytes, and a pool that pushes
reach takes one string more as long as that one ends by 2^31. -/
theorem pushed_takesTail_iff (R : Realloc) (junk : Nat → UInt8) (tails : List CStr) (tail : CStr) :
    ((∃ indices p, dtPushAll R (newDatrieTailPool junk) tails = some (indices, p)) ↔
      (tails.map fun tail => tail.length + 1).sum < 2 ^ 31) ∧
    ∀ indices p, dtPushAll R (newDatrieTailPool junk) tails = some (indices, p) →
      (p.TakesTail R tail ↔ p.nextFree.toNat + (tail.length + 1) ≤ 2 ^ 31) := by
  rw [← CStr.pack_length]
  refine ⟨⟨?_, ?_⟩, ?_⟩
  · rintro ⟨indices, p, hpush⟩
    have h := dtPushAll_room (newDatrieTailPool_holds junk) hpush
    have hsize := h.poolSize_le
    have hle := (TailPool.holds_iff.mp h).nextFree_le
    rw [h.nextFree, tailIndex_length, List.nil_append] at hle
    omega
  · intro hsum
    rcases @dtPushAll_new R junk tails hsum with ⟨p, hpush, -⟩
    exact ⟨_, p, hpush⟩
  · intro indices p hpush
    exact (dtPushAll_room (newDatrieTailPool_holds junk) hpush).takesTail_iff

/-- `pushed_takesTail_iff` for a pool with one string that has grown. -/
theorem pushed_takesTail_iff_grown :
    ∃ indices p, dtPushAll clearingRealloc (newDatrieTailPool fun _ => 7) [longTail] =
        some (indices, p) ∧ p.TakesTail clearingRealloc CStr.empty := by
  rcases pushed_takesTail_iff clearingRealloc (fun _ => 7) [longTail] CStr.empty
    with ⟨hpushed, htakes⟩
  have hsum : ([longTail].map fun tail => tail.length + 1).sum = 601 := by
    simp only [List.map_cons, List.map_nil, longTail_length]
    rfl
  rcases hpushed.mpr (by rw [hsum]; decide) with ⟨indices, p, hpush⟩
  refine ⟨indices, p, hpush, (htakes indices p hpush).mpr ?_⟩
  have h := dtPushAll_room (newDatrieTailPool_holds _) hpush
  have hlen : (CStr.pack [longTail]).length = 601 := by rw [CStr.pack_length, hsum]
  rw [h.nextFree, tailIndex_length, List.nil_append, hlen]
  decide

theorem exists_tail (n : Nat) : ∃ tail : CStr, tail.length = n :=
  ⟨⟨List.replicate n 97, fun h => absurd (List.eq_of_mem_replicate h) (by decide)⟩,
    List.length_replicate⟩

/-- A string of 2^31 - 1 characters for a new pool: the size wraps to 0, the loop
ends with it, and the copy leaves the pool. -/
theorem pool_size_wraps :
    ∃ tail : CStr, tail.length = 2147483647 ∧
      (∃ q, growLoop clearingRealloc (tail.length + 1) growFuel (newDatrieTailPool fun _ => 0) =
        some q ∧ q.poolSize = 0) ∧
      dtPushTail clearingRealloc tail (newDatrieTailPool fun _ => 0) = none ∧
      ¬ (newDatrieTailPool fun _ => 0).TakesTail clearingRealloc tail := by
  rcases exists_tail 2147483647 with ⟨tail, hlength⟩
  have hnew := newDatrieTailPool_holds fun _ => 0
  have hnext : (newDatrieTailPool fun _ => 0).nextFree.toNat = 1 := rfl
  have hsize : (newDatrieTailPool fun _ => 0).poolSize.toNat = 512 := rfl
  rcases @growLoop_past_ends clearingRealloc _ _ (tail.length + 1) 33 hnew (by omega)
    (by rw [hsize]; decide) with ⟨q, hgrow⟩
  refine ⟨tail, hlength, ⟨q, hgrow, growLoop_past hnew (by omega) hgrow⟩, ?_, ?_⟩
  · rw [Option.eq_none_iff_forall_ne_some]
    intro r hpush
    have hroom := dtPushTail_room hnew hpush
    omega
  · intro htakes
    have hroom := hnew.takesTail_iff.mp htakes
    omega

end DnsCache

import DnsCache.DcMm

/-! # The capacity class of a size

* `firstBit_spec`: `first_bit` finds the first bit by halving the word.
* `capOf_spec`, `capOf_least`: the class is the least one whose chunks are large
  enough, and the class of its chunks.
-/

namespace DnsCache

/-- The upper `j` bits are all zero. -/
theorem and_mask_eq_zero_iff {n j k : Nat} (hn : n < 2 ^ (j + k)) :
    n &&& ((2 ^ j - 1) <<< k) = 0 ↔ n < 2 ^ k := by
  have hand : n &&& ((2 ^ j - 1) <<< k) = n / 2 ^ k * 2 ^ k := by
    apply Nat.eq_of_testBit_eq
    intro i
    rw [← Nat.shiftLeft_eq, Nat.testBit_and, Nat.testBit_shiftLeft, Nat.testBit_shiftLeft,
      Nat.testBit_two_pow_sub_one, Nat.testBit_div_two_pow]
    by_cases hk : k ≤ i
    · have hik : i - k + k = i := by omega
      rw [hik]
      by_cases hj : i - k < j
      · simp [hk, hj]
      · have hbit : n.testBit i = false := by
          apply Nat.testBit_lt_two_pow
          exact Nat.lt_of_lt_of_le hn (Nat.pow_le_pow_right (by omega) (by omega))
        simp [hbit]
    · simp [hk]
  have hpos : 0 < 2 ^ k := Nat.two_pow_pos k
  rw [hand, Nat.mul_eq_zero]
  constructor
  · intro h
    rcases h with h | h
    · exact (Nat.div_eq_zero_iff.mp h).resolve_left (Nat.ne_of_gt hpos)
    · exact absurd h (Nat.ne_of_gt hpos)
  · intro h
    exact .inl (Nat.div_eq_of_lt h)

/-- `n` is `n₀` moved up so that `c` bits of the word are left for it, and none
of its upper `k` bits is needed. -/
structure MovedUp (n₀ k : Nat) (c n : UInt32) : Prop where
  moved : n.toNat = n₀ * 2 ^ (32 - c.toNat)
  atMost : c.toNat ≤ 32
  first : 2 ^ (32 - k) ≤ n.toNat

/-- One step of the search halves the number of bits among which the first is. -/
theorem bitStep_spec {n₀ k : Nat} {mask kw c n : UInt32} (hk : 2 * k ≤ 32) (hkw : kw.toNat = k)
    (hmask : mask.toNat = (2 ^ k - 1) <<< (32 - k)) (hpos : 1 ≤ k) (hc : k ≤ c.toNat)
    (h : MovedUp n₀ (2 * k) c n) :
    ∃ c' n', bitStep mask kw c n = (c', n') ∧ c.toNat - k ≤ c'.toNat ∧ MovedUp n₀ k c' n' := by
  have hzero : n &&& mask = 0 ↔ n.toNat < 2 ^ (32 - k) := by
    rw [← UInt32.toNat_inj, UInt32.toNat_and, hmask]
    apply and_mask_eq_zero_iff
    rw [show k + (32 - k) = 32 by omega]
    exact n.toNat_lt
  by_cases hlow : n.toNat < 2 ^ (32 - k)
  · -- the first bit is further down
    have hsub : (c - kw).toNat = c.toNat - k := by
      rw [UInt32.toNat_sub_of_le _ _ (by rw [UInt32.le_iff_toNat_le, hkw]; exact hc), hkw]
    have hroom : n.toNat * 2 ^ k < 2 ^ 32 := by
      calc n.toNat * 2 ^ k < 2 ^ (32 - k) * 2 ^ k :=
            Nat.mul_lt_mul_of_pos_right hlow (Nat.two_pow_pos k)
        _ = 2 ^ 32 := by rw [← Nat.pow_add, show 32 - k + k = 32 by omega]
    have hshift : (n <<< kw).toNat = n.toNat * 2 ^ k := by
      rw [UInt32.toNat_shiftLeft, hkw, Nat.mod_eq_of_lt (by omega : k < 32), Nat.shiftLeft_eq,
        Nat.mod_eq_of_lt hroom]
    refine ⟨c - kw, n <<< kw, ?_, Nat.le_of_eq hsub.symm, ?_, ?_, ?_⟩
    · rw [bitStep, if_pos (hzero.mpr hlow)]
    · rw [hshift, hsub, h.moved, Nat.mul_assoc, ← Nat.pow_add]
      have hle := h.atMost
      congr 2
      omega
    · rw [hsub]
      exact Nat.le_trans (Nat.sub_le _ _) h.atMost
    · rw [hshift, show 32 - k = 32 - 2 * k + k by omega, Nat.pow_add]
      exact Nat.mul_le_mul_right _ h.first
  · refine ⟨c, n, ?_, Nat.sub_le _ _, h.moved, h.atMost, Nat.le_of_not_lt hlow⟩
    rw [bitStep, if_neg (mt hzero.mp hlow)]

/-- `first_bit` counts the bits up to the first one that is set. -/
theorem firstBit_spec {n : UInt32} (hn : n ≠ 0) :
    1 ≤ (firstBit n).toNat ∧ (firstBit n).toNat ≤ 32 ∧
      2 ^ ((firstBit n).toNat - 1) ≤ n.toNat ∧ n.toNat < 2 ^ (firstBit n).toNat := by
  have hpos : 1 ≤ n.toNat := by
    rw [Nat.one_le_iff_ne_zero, Ne, ← UInt32.toNat_zero, UInt32.toNat_inj]
    exact hn
  have hc₀ : (32 : UInt32).toNat = 32 := rfl
  have h₀ : MovedUp n.toNat 32 32 n := ⟨by simp, Nat.le_refl _, hpos⟩
  rcases @bitStep_spec _ 16 0xffff0000 16 _ _ (by decide) rfl rfl (by decide) (by omega) h₀
    with ⟨c₁, n₁, he₁, hc₁, h₁⟩
  rcases @bitStep_spec _ 8 0xff000000 8 _ _ (by decide) rfl rfl (by decide) (by omega) h₁
    with ⟨c₂, n₂, he₂, hc₂, h₂⟩
  rcases @bitStep_spec _ 4 0xf0000000 4 _ _ (by decide) rfl rfl (by decide) (by omega) h₂
    with ⟨c₃, n₃, he₃, hc₃, h₃⟩
  rcases @bitStep_spec _ 2 0xc0000000 2 _ _ (by decide) rfl rfl (by decide) (by omega) h₃
    with ⟨c₄, n₄, he₄, hc₄, h₄⟩
  rcases @bitStep_spec _ 1 0x80000000 1 _ _ (by decide) rfl rfl (by decide) (by omega) h₄
    with ⟨c₅, n₅, he₅, hc₅, h₅⟩
  -- the last step of the source leaves the word as it is
  have hfirst : firstBit n = c₅ := by
    rw [firstBit, if_neg hn]
    simp only [he₁, he₂, he₃, he₄]
    rw [bitStep] at he₅
    split at he₅
    · rename_i hlow
      rw [if_pos hlow]
      exact (Prod.ext_iff.mp he₅).1
    · rename_i hhigh
      rw [if_neg hhigh]
      exact (Prod.ext_iff.mp he₅).1
  rw [hfirst]
  have hle := h₅.atMost
  have hword := n₅.toNat_lt
  have hlow := h₅.first
  rw [h₅.moved] at hword hlow
  refine ⟨by omega, hle, ?_, ?_⟩
  · apply Nat.le_of_mul_le_mul_right _ (Nat.two_pow_pos (32 - c₅.toNat))
    rw [← Nat.pow_add, show c₅.toNat - 1 + (32 - c₅.toNat) = 32 - 1 by omega]
    exact hlow
  · apply Nat.lt_of_mul_lt_mul_right (a := 2 ^ (32 - c₅.toNat))
    rw [← Nat.pow_add, show c₅.toNat + (32 - c₅.toNat) = 32 by omega]
    exact hword

/-- `LOG2` sees the lower half of the size only. -/
theorem log2_spec {size : UInt64} (hne : size.toNat % 4294967296 ≠ 0) :
    2 ^ log2 size ≤ size.toNat % 4294967296 ∧
      size.toNat % 4294967296 < 2 ^ (log2 size + 1) := by
  have h32 : size.toUInt32.toNat = size.toNat % 4294967296 := UInt64.toNat_toUInt32 size
  have hne' : size.toUInt32 ≠ 0 := by
    rw [Ne, ← UInt32.toNat_inj, h32, UInt32.toNat_zero]
    exact hne
  rcases firstBit_spec hne' with ⟨hone, -, hlow, hhigh⟩
  have hlog : log2 size = (firstBit size.toUInt32).toNat - 1 := by
    have hle : 1 ≤ firstBit size.toUInt32 := UInt32.le_iff_toNat_le.mpr hone
    rw [log2, UInt32.toNat_sub_of_le _ _ hle]
    rfl
  rw [hlog, Nat.sub_add_cancel hone, ← h32]
  exact ⟨hlow, hhigh⟩

theorem log2_lt_iff {size : UInt64} (hne : size.toNat % 4294967296 ≠ 0) (k : Nat) :
    log2 size < k ↔ size.toNat % 4294967296 < 2 ^ k := by
  rcases log2_spec hne with ⟨hlow, hhigh⟩
  constructor
  · intro h
    exact Nat.lt_of_lt_of_le hhigh (Nat.pow_le_pow_right (by decide) h)
  · intro h
    exact (Nat.pow_lt_pow_iff_right (by decide)).mp (Nat.lt_of_le_of_lt hlow h)

/-- Of no bits `LOG2` makes the largest `uint32`. -/
theorem log2_of_zero {size : UInt64} (hzero : size.toNat % 4294967296 = 0) :
    log2 size = 4294967295 := by
  have h32 : size.toUInt32 = 0 := by
    rw [← UInt32.toNat_inj, UInt64.toNat_toUInt32, UInt32.toNat_zero]
    exact hzero
  rw [log2, h32]
  rfl

/-- From `2 ^ 63` on a size is a negative `long`, and above no chunk. -/
theorem size_gt_iff {size p : UInt64} (hp : p.toNat < 2 ^ 63) :
    size.toInt64 > p.toInt64 ↔ size.toNat < 2 ^ 63 ∧ p.toNat < size.toNat := by
  have hs : size.toInt64.toInt =
      if 2 * size.toNat < 2 ^ 64 then (size.toNat : Int) else size.toNat - 2 ^ 64 := by
    show size.toBitVec.toInt = _
    rw [BitVec.toInt_eq_toNat_cond]
    rfl
  have hc : p.toInt64.toInt = p.toNat := by
    show p.toBitVec.toInt = _
    rw [BitVec.toInt_eq_toNat_cond]
    exact if_pos (show 2 * p.toNat < 2 ^ 64 by omega)
  have hsize := size.toNat_lt
  rw [gt_iff_lt, Int64.lt_iff_toInt_lt, hs, hc]
  split <;> omega

theorem capOf_eq (size : UInt64) :
    capOf size = if log2 size < 31 then
      some (if size.toNat < 2 ^ 63 ∧ 2 ^ log2 size < size.toNat then log2 size + 1
        else log2 size) else none := by
  by_cases hlog : log2 size < 31
  · have hlt : 2 ^ log2 size < 2 ^ 31 := Nat.pow_lt_pow_right (by decide) hlog
    have hp : (UInt64.ofNat (2 ^ log2 size)).toNat = 2 ^ log2 size := by
      rw [UInt64.toNat_ofNat']
      exact Nat.mod_eq_of_lt (by omega)
    have hgt := @size_gt_iff size (UInt64.ofNat (2 ^ log2 size)) (by omega)
    rw [hp] at hgt
    rw [capOf, pow2, if_pos hlog, if_pos hlog]
    simp only [Option.bind_eq_bind, Option.bind_some, Option.pure_def, hgt]
  · rw [capOf, pow2, if_neg hlog, if_neg hlog]
    rfl

theorem ne_zero_of_one_le {size : UInt64} (h : 1 ≤ size) : size ≠ 0 := by
  rintro rfl
  exact absurd h (by decide)

/-- The class of a size is the least one whose chunks have that many bytes. -/
theorem capOf_spec {size : UInt64} (hpos : 1 ≤ size) (hmax : size ≤ 2 ^ 30) :
    ∃ cap, capOf size = some cap ∧ cap ≤ 30 ∧ size.toNat ≤ 2 ^ cap ∧
      ∀ c < cap, 2 ^ c < size.toNat := by
  have hpos' : 1 ≤ size.toNat := UInt64.le_iff_toNat_le.mp hpos
  have hmax' : size.toNat ≤ 2 ^ 30 := UInt64.le_iff_toNat_le.mp hmax
  have hlower : size.toNat % 4294967296 = size.toNat := Nat.mod_eq_of_lt (by omega)
  have hlog := @log2_spec size (by omega)
  rw [hlower] at hlog
  rcases hlog with ⟨hlow, hhigh⟩
  have hcap : log2 size ≤ 30 :=
    (Nat.pow_le_pow_iff_right (by decide)).mp (Nat.le_trans hlow hmax')
  refine ⟨_, by rw [capOf_eq, if_pos (Nat.lt_succ_of_le hcap)], ?_⟩
  split
  · rename_i hmore
    -- a power of two above the size is the next one
    have hlt : log2 size < 30 :=
      (Nat.pow_lt_pow_iff_right (by decide)).mp (Nat.lt_of_lt_of_le hmore.2 hmax')
    refine ⟨by omega, Nat.le_of_lt hhigh, ?_⟩
    intro c hc
    exact Nat.lt_of_le_of_lt (Nat.pow_le_pow_right (by decide) (by omega)) hmore.2
  · rename_i hexact
    refine ⟨hcap, by omega, ?_⟩
    intro c hc
    exact Nat.lt_of_lt_of_le (Nat.pow_lt_pow_right (by decide) hc) hlow

/-- The size of a chunk has the class of the chunk. -/
theorem capOf_pow2 {cap : Nat} {size : UInt64} (h : pow2 cap = some size) :
    size ≠ 0 ∧ size.toNat = 2 ^ cap ∧ capOf size = some cap := by
  unfold pow2 at h
  split at h
  · rename_i hcap
    cases h
    have hle : 2 ^ cap ≤ 2 ^ 30 := Nat.pow_le_pow_right (by decide) (by omega)
    have hpos := Nat.two_pow_pos cap
    have hsize : (UInt64.ofNat (2 ^ cap)).toNat = 2 ^ cap := by
      rw [UInt64.toNat_ofNat']
      exact Nat.mod_eq_of_lt (by omega)
    have hlower : 2 ^ cap % 4294967296 = 2 ^ cap := Nat.mod_eq_of_lt (by omega)
    have hlog : log2 (UInt64.ofNat (2 ^ cap)) = cap := by
      have hspec := @log2_spec (UInt64.ofNat (2 ^ cap)) (by rw [hsize, hlower]; omega)
      rw [hsize, hlower, Nat.pow_le_pow_iff_right (by decide),
        Nat.pow_lt_pow_iff_right (by decide)] at hspec
      omega
    refine ⟨?_, hsize, ?_⟩
    · intro h0
      rw [h0, UInt64.toNat_zero] at hsize
      omega
    · rw [capOf_eq, hlog, if_pos hcap, hsize, if_neg (fun h => Nat.lt_irrefl _ h.2)]
  · simp at h

/-! ## Asking again for a chunk of the class -/

/-- Nothing but its class matters of a size. -/
theorem dcAllocLoop_congr {fuel : Nat} {size size' : UInt64} (hsize : size ≠ 0)
    (hsize' : size' ≠ 0) (h : capOf size = capOf size') (mm : Mm) :
    dcAllocLoop fuel size mm = dcAllocLoop fuel size' mm := by
  rcases fuel with _ | fuel
  · rfl
  · rw [dcAllocLoop, dcAllocLoop, if_neg hsize, if_neg hsize', h]

section Select

variable {ask ask' : UInt64 → Mm → Option (Option Nat × Mm)} {cap : Nat} {s : UInt64} {mm : Mm}

/-- `select_extra` calls `dc_alloc` for the size of a chunk, and for no other. -/
theorem selectExtra_congr (hs : pow2 cap = some s) (h : ask s mm = ask' s mm) :
    selectExtra ask cap mm = selectExtra ask' cap mm := by
  unfold selectExtra
  simp only [hs, h, Option.bind_eq_bind, Option.bind_some]

theorem selectPreAlloced_congr (hs : pow2 cap = some s) (h : ask s mm = ask' s mm) :
    selectPreAlloced ask cap mm = selectPreAlloced ask' cap mm := by
  unfold selectPreAlloced
  simp only [hs, h, Option.bind_eq_bind, Option.bind_some]

end Select

/-- The class of a size is the least one that is large enough, its chunks have
less than twice the bytes asked for, and a request that starts again for the
size of a chunk goes the way of the first one. -/
theorem capOf_least {size : UInt64} (hpos : 1 ≤ size) (hmax : size ≤ 2 ^ 30) :
    ∃ cap s, capOf size = some cap ∧ size.toNat ≤ 2 ^ cap ∧
      (∀ c, size.toNat ≤ 2 ^ c → cap ≤ c) ∧ 2 ^ cap < 2 * size.toNat ∧
      pow2 cap = some s ∧ s.toNat = 2 ^ cap ∧ capOf s = some cap ∧
      (∀ ask ask' mm, ask s mm = ask' s mm →
        selectExtra ask cap mm = selectExtra ask' cap mm ∧
        selectPreAlloced ask cap mm = selectPreAlloced ask' cap mm) ∧
      ∀ fuel mm, dcAllocLoop fuel s mm = dcAllocLoop fuel size mm := by
  rcases capOf_spec hpos hmax with ⟨cap, hcap, hcap30, hle, hleast⟩
  have hs : pow2 cap = some (UInt64.ofNat (2 ^ cap)) := if_pos (by omega)
  rcases capOf_pow2 hs with ⟨hne, hsize, hcap'⟩
  have hpos' : 1 ≤ size.toNat := UInt64.le_iff_toNat_le.mp hpos
  refine ⟨cap, _, hcap, hle, ?_, ?_, hs, hsize, hcap', ?_, ?_⟩
  · intro c hc
    by_contra hlt
    have hmore := hleast c (by omega)
    omega
  · -- half a chunk would be too small, unless the chunk is a single byte
    rcases cap with _ | c
    · omega
    · have hmore := hleast c (by omega)
      rw [Nat.pow_succ]
      omega
  · intro ask ask' mm h
    exact ⟨selectExtra_congr hs h, selectPreAlloced_congr hs h⟩
  · intro fuel mm
    exact dcAllocLoop_congr hne (ne_zero_of_one_le hpos) (hcap'.trans hcap.symm) mm

/-- `capOf_least` for a size right above a power of two. -/
theorem capOf_least_above :
    ∃ cap s, capOf 513 = some cap ∧ 513 ≤ 2 ^ cap ∧ 2 ^ cap < 1026 ∧ capOf s = some cap := by
  rcases @capOf_least 513 (by decide) (by decide) with ⟨cap, s, hcap, hle, -, hlt, -, -, hs, -⟩
  exact ⟨cap, s, hcap, hle, hlt, hs⟩

/-! ## The sizes with a class -/

/-- The sizes for which the tables of `mm_init` have a class. Below `2 ^ 63` these
are `2 ^ 30` and the sizes with a number from 1 to `2 ^ 30 - 1` in the lower half,
but for 1 itself. From there on no class is raised, and the lower half has to hold
a number from 2 to `2 ^ 31 - 1`. -/
def HasClass (size : UInt64) : Prop :=
  (size.toNat < 2 ^ 63 ∧ size ≠ 1 ∧ (size = 2 ^ 30 ∨
    (1 ≤ size.toNat % 4294967296 ∧ size.toNat % 4294967296 < 1073741824))) ∨
  (2 ^ 63 ≤ size.toNat ∧
    2 ≤ size.toNat % 4294967296 ∧ size.toNat % 4294967296 < 2147483648)

instance (size : UInt64) : Decidable (HasClass size) := inferInstanceAs (Decidable (_ ∨ _))

theorem hasClass_iff (size : UInt64) :
    HasClass size ↔ ∃ cap, capOf size = some cap ∧ 1 ≤ cap ∧ cap ≤ biggestCap := by
  have hmod := Nat.mod_le size.toNat 4294967296
  have hone : size = 1 ↔ size.toNat = 1 := by
    rw [← UInt64.toNat_inj]
    rfl
  have hlast : size = 2 ^ 30 ↔ size.toNat = 2 ^ 30 := by
    rw [← UInt64.toNat_inj]
    rfl
  unfold HasClass biggestCap
  rw [Ne, hone, hlast]
  by_cases hzero : size.toNat % 4294967296 = 0
  · have hnone : capOf size = none := by
      rw [capOf_eq, log2_of_zero hzero]
      rfl
    simp only [hnone, hzero]
    constructor
    · intro h
      omega
    · rintro ⟨cap, hcap, -⟩
      simp at hcap
  · -- the class is at most one above the number of bits
    have h1 := log2_lt_iff hzero 1
    have h30 := log2_lt_iff hzero 30
    have h31 := log2_lt_iff hzero 31
    rw [capOf_eq]
    by_cases hbits : log2 size < 31
    · simp only [if_pos hbits, Option.some.injEq, exists_eq_left']
      rcases Nat.eq_zero_or_pos (log2 size) with hk | hk
      · rw [hk]
        split <;> omega
      · rcases Nat.lt_or_ge (log2 size) 30 with hk' | hk'
        · split <;> omega
        · rw [show log2 size = 30 by omega]
          split <;> omega
    · simp only [if_neg hbits]
      constructor
      · intro h
        omega
      · rintro ⟨cap, hcap, -⟩
        simp at hcap

example : ¬ HasClass (2 ^ 63 + 1) ∧ HasClass (2 ^ 63 + 2 ^ 30) := by decide +kernel

end DnsCache

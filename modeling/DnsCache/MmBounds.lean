import DnsCache.Pools

/-! # The tables under `dc_alloc`

* `Mm.Touches`: a call works on the entries of one class.
* `Mm.SetUp`: what `mm_init` sets up, and no call takes away.
* `alloc_in_bounds_iff`: the sizes for which `dc_alloc` stays inside.
-/

namespace DnsCache

variable {mm mm' mm'' : Mm} {cap : Nat}

/-! ## The entries of a class -/

/-- Nothing but the entries of a class has changed in the tables. -/
structure Mm.Touches (cap : Nat) (mm mm' : Mm) : Prop where
  elm : ∀ c, c ≠ cap → mm'.elmTable c = mm.elmTable c
  manager : ∀ pos, small + pos ≠ cap → mm'.chunksManagerTable pos = mm.chunksManagerTable pos
  present : ∀ pos, (mm'.chunksManagerTable pos).isSome = (mm.chunksManagerTable pos).isSome
  preAllocMutex : mm'.preAllocMutex = mm.preAllocMutex
  extraMutex : mm'.extraMutex = mm.extraMutex

theorem Mm.Touches.refl (cap : Nat) (mm : Mm) : mm.Touches cap mm :=
  ⟨fun _ _ => rfl, fun _ _ => rfl, fun _ => rfl, rfl, rfl⟩

theorem Mm.Touches.trans (h : mm.Touches cap mm') (h' : mm'.Touches cap mm'') :
    mm.Touches cap mm'' where
  elm := fun c hc => (h'.elm c hc).trans (h.elm c hc)
  manager := fun pos hpos => (h'.manager pos hpos).trans (h.manager pos hpos)
  present := fun pos => (h'.present pos).trans (h.present pos)
  preAllocMutex := h'.preAllocMutex.trans h.preAllocMutex
  extraMutex := h'.extraMutex.trans h.extraMutex

theorem Mm.touches_setElm (cap : Nat) (mm : Mm) (heap : Heap) (elm : Option ExtraListManager) :
    mm.Touches cap ({ mm with heap := heap }.setElm cap elm) where
  elm := fun _ hc => Function.update_of_ne hc _ _
  manager := fun _ _ => rfl
  present := fun _ => rfl
  preAllocMutex := rfl
  extraMutex := rfl

theorem Mm.touches_setManager {pos : Nat} {manager : ChunksManager}
    (h : mm.chunksManagerTable pos = some manager) (hpos : small + pos = cap)
    (manager' : ChunksManager) : mm.Touches cap (mm.setManager pos manager') where
  elm := fun _ _ => rfl
  manager := by
    intro i hi
    exact Function.update_of_ne (by omega) _ _
  present := by
    intro i
    show (Function.update mm.chunksManagerTable pos (some manager') i).isSome = _
    by_cases hi : i = pos
    · rw [hi, Function.update_self, h]
      rfl
    · rw [Function.update_of_ne hi]
  preAllocMutex := rfl
  extraMutex := rfl

/-! ## `dc_alloc` -/

theorem mkEl_touches (h : mkEl cap mm = some mm') : mm.Touches cap mm' := by
  unfold mkEl at h
  split at h
  · cases h
    exact .refl cap mm
  · simp only [Option.bind_eq_bind, Option.bind_eq_some_iff, Option.pure_def,
      Option.some.injEq] at h
    rcases h with ⟨⟨list, heap⟩, -, rfl⟩
    exact mm.touches_setElm cap heap _

theorem expandEl_touches (h : expandEl cap mm = some mm') : mm.Touches cap mm' := by
  simp only [expandEl, Option.bind_eq_bind, Option.bind_eq_some_iff, Option.pure_def,
    Option.some.injEq] at h
  rcases h with ⟨elm, -, list, -, ⟨list', heap⟩, -, rfl⟩
  exact mm.touches_setElm cap heap _

theorem makeRoom_touches (h : makeRoom cap mm = some mm') : mm.Touches cap mm' := by
  unfold makeRoom at h
  split at h
  · split at h
    · exact mkEl_touches h
    · split at h
      · exact expandEl_touches h
      · cases h
        exact .refl cap mm
  · simp at h

/-- What a call of `dc_alloc` for a class may do: it works on the class and
returns a chunk. -/
def Lends (cap : Nat) (mm : Mm) (result : Option Nat × Mm) : Prop :=
  mm.Touches cap result.2 ∧ result.1.isSome

variable {again : UInt64 → Mm → Option (Option Nat × Mm)} {result : Option Nat × Mm}

theorem selectExtra_lends (hagain : ∀ size, pow2 cap = some size → ∀ result,
      again size mm = some result → Lends cap mm result)
    (h : selectExtra again cap mm = some result) : Lends cap mm result := by
  unfold selectExtra at h
  split at h
  · split at h
    · rcases Option.bind_eq_some_iff.mp h with ⟨size, hsize, h⟩
      exact hagain size hsize result h
    · split at h
      · rcases Option.bind_eq_some_iff.mp h with ⟨size, hsize, h⟩
        exact hagain size hsize result h
      · simp only [Option.bind_eq_bind, Option.bind_eq_some_iff, Option.pure_def,
          Option.some.injEq] at h
        rcases h with ⟨⟨ptr, list⟩, -, ptr', -, ⟨node, list'⟩, -, rfl⟩
        exact ⟨mm.touches_setElm cap mm.heap _, rfl⟩
  · simp at h

theorem selectPreAlloced_lends (hcap : small ≤ cap)
    (hagain : ∀ size, pow2 cap = some size → ∀ result,
      again size mm = some result → Lends cap mm result)
    (h : selectPreAlloced again cap mm = some result) : Lends cap mm result := by
  unfold selectPreAlloced at h
  dsimp only at h
  split at h
  · rcases Option.bind_eq_some_iff.mp h with ⟨manager, hmanager, h⟩
    split at h
    · rcases Option.bind_eq_some_iff.mp h with ⟨size, hsize, h⟩
      exact hagain size hsize result h
    · simp only [Option.bind_eq_bind, Option.bind_eq_some_iff, Option.pure_def,
        Option.some.injEq] at h
      rcases h with ⟨⟨ptr, idle⟩, -, ptr', -, ⟨node, alloced⟩, -, rfl⟩
      exact ⟨Mm.touches_setManager hmanager (Nat.add_sub_cancel' hcap) _, rfl⟩
  · simp at h

/-- `dc_alloc` works on the class of the size, however often it calls itself. -/
theorem dcAllocLoop_lends {fuel : Nat} {size : UInt64} (hcap : capOf size = some cap)
    (hsize : size ≠ 0) (h : dcAllocLoop fuel size mm = some result) : Lends cap mm result := by
  induction fuel generalizing size mm result with
  | zero => simp [dcAllocLoop] at h
  | succ fuel ih =>
      -- the recursive calls are for the size of a chunk of the class
      have hagain : ∀ mm₁ s, pow2 cap = some s → ∀ r,
          dcAllocLoop fuel s mm₁ = some r → Lends cap mm₁ r := by
        intro mm₁ s hs r hr
        exact ih (capOf_pow2 hs).2.2 (capOf_pow2 hs).1 hr
      have hextra : ∀ mm₁, makeRoom cap mm = some mm₁ →
          selectExtra (dcAllocLoop fuel) cap mm₁ = some result → Lends cap mm result := by
        intro mm₁ hroom hselect
        have htouches := makeRoom_touches hroom
        rcases selectExtra_lends (hagain mm₁) hselect with ⟨htouches', hsome⟩
        exact ⟨htouches.trans htouches', hsome⟩
      rw [dcAllocLoop, if_neg hsize, hcap] at h
      simp only [Option.bind_eq_bind, Option.bind_some] at h
      split at h
      · simp at h
      · split at h
        · rcases Option.bind_eq_some_iff.mp h with ⟨mm₁, hroom, hselect⟩
          exact hextra mm₁ hroom hselect
        · rename_i hclass
          rcases Option.bind_eq_some_iff.mp h with ⟨manager, hmanager, h⟩
          split at h
          · rcases Option.bind_eq_some_iff.mp h with ⟨mm₁, hroom, hselect⟩
            exact hextra mm₁ hroom hselect
          · exact selectPreAlloced_lends (by omega) (hagain mm) h

/-! ## `dc_free` -/

theorem freeExtra_touches {ptr : Nat} (h : freeExtra cap ptr mm = some mm') :
    mm.Touches cap mm' := by
  rcases Option.bind_eq_some_iff.mp h with ⟨elm, helm, h⟩
  split at h
  · rcases Option.bind_eq_some_iff.mp h with ⟨⟨node, list⟩, -, h⟩
    dsimp only at h
    split at h
    · simp only [Option.bind_eq_bind, Option.bind_eq_some_iff, Option.pure_def,
        Option.some.injEq] at h
      rcases h with ⟨items, -, heap, -, _, -, rfl⟩
      exact mm.touches_setElm cap heap none
    · cases h
      exact mm.touches_setElm cap mm.heap _
  · simp at h

theorem freePreAlloced_touches {pos ptr : Nat} {manager : ChunksManager}
    (hmanager : mm.chunksManagerTable pos = some manager)
    (h : freePreAlloced pos ptr manager mm = some mm') : mm.Touches (small + pos) mm' := by
  unfold freePreAlloced at h
  split at h
  · simp only [Option.bind_eq_bind, Option.bind_eq_some_iff, Option.pure_def,
      Option.some.injEq] at h
    rcases h with ⟨⟨node, alloced⟩, -, ⟨ptr', alloced'⟩, -, ptr'', -, ⟨node', idle⟩, -, rfl⟩
    exact Mm.touches_setManager hmanager rfl _
  · simp at h

/-- `dc_free` works on the class in front of the chunk. -/
theorem dcFree_touches {ptr : Option Nat} (h : dcFree ptr mm = some mm') :
    ∃ cap, mm.Touches cap mm' := by
  rcases ptr with _ | ptr
  · cases h
    exact ⟨0, .refl 0 mm⟩
  · rcases Option.bind_eq_some_iff.mp h with ⟨chunk, hchunk, h⟩
    dsimp only at h
    split at h
    · exact ⟨_, freeExtra_touches h⟩
    · rcases Option.bind_eq_some_iff.mp h with ⟨manager, hmanager, h⟩
      rcases Option.bind_eq_some_iff.mp h with ⟨found, hfound, h⟩
      split at h
      · exact ⟨_, freePreAlloced_touches hmanager h⟩
      · split at h
        · simp at h
        · split at h
          · cases h
            exact ⟨0, .refl 0 mm⟩
          · exact ⟨_, freeExtra_touches h⟩

/-! ## What `mm_init` sets up -/

/-- The entries of the tables that are set up: all of the stock, all mutexes of
the extra lists but the first. -/
structure Mm.SetUp (mm : Mm) : Prop where
  managers : ∀ pos < chunkTypeNum, (mm.chunksManagerTable pos).isSome
  preAllocMutex : ∀ pos < chunkTypeNum, mm.preAllocMutex pos = true
  extraMutex : ∀ cap, mm.extraMutex cap = true ↔ 1 ≤ cap ∧ cap ≤ biggestCap

theorem Mm.SetUp.touches (h : mm.SetUp) (htouches : mm.Touches cap mm') : mm'.SetUp where
  managers := by
    intro pos hpos
    rw [htouches.present]
    exact h.managers pos hpos
  preAllocMutex := by
    rw [htouches.preAllocMutex]
    exact h.preAllocMutex
  extraMutex := by
    rw [htouches.extraMutex]
    exact h.extraMutex

theorem initManagers_extraMutex {i : Nat} (h : initManagers i mm = some mm') :
    mm'.extraMutex = mm.extraMutex := by
  induction i generalizing mm with
  | zero =>
      cases h
      rfl
  | succ i ih =>
      simp only [initManagers, Option.bind_eq_bind, Option.bind_eq_some_iff] at h
      rcases h with ⟨counts, -, ⟨idle, heap⟩, -, alloced, -, h⟩
      have hrest := ih h
      exact hrest

theorem mmInit_setUp (h : mmInit = some mm) : mm.SetUp := by
  rcases mmInit_holds with ⟨mm₀, P, hinit, hholds, -, -⟩
  rw [h, Option.some.injEq] at hinit
  rw [← hinit] at hholds
  refine ⟨?_, ?_, ?_⟩
  · intro pos hpos
    rcases hholds.tables.managers pos (Nat.zero_le _) hpos with ⟨manager, n, -, htable, -, -⟩
    rw [htable]
    rfl
  · intro pos hpos
    rcases hholds.tables.managers pos (Nat.zero_le _) hpos with ⟨manager, n, -, -, hmutex, -⟩
    exact hmutex
  · intro cap
    simp only [mmInit, Option.bind_eq_bind, Option.bind_eq_some_iff, Option.pure_def,
      Option.some.injEq] at h
    rcases h with ⟨mm₁, hloop, rfl⟩
    rw [(initExtraMutexes_spec biggestCap mm₁).2.2.2.2, initManagers_extraMutex hloop]
    simp [Mm.blank]

/-- The states after `mm_init` and any calls that return. -/
inductive Mm.Reached : Mm → Prop where
  | init {mm : Mm} (h : mmInit = some mm) : Reached mm
  | alloc {mm mm' : Mm} {size : UInt64} {ptr : Option Nat} (h : Reached mm)
      (hstep : dcAlloc size mm = some (ptr, mm')) : Reached mm'
  | free {mm mm' : Mm} {ptr : Option Nat} (h : Reached mm) (hstep : dcFree ptr mm = some mm') :
      Reached mm'

/-- A call of `dc_alloc` works on one class. -/
theorem dcAlloc_touches {size : UInt64} {ptr : Option Nat}
    (h : dcAlloc size mm = some (ptr, mm')) : ∃ cap, mm.Touches cap mm' := by
  by_cases hsize : size = 0
  · rw [hsize, dcAlloc, dcAllocFuel, dcAllocLoop, if_pos rfl] at h
    cases h
    exact ⟨0, .refl 0 mm⟩
  · cases hcap : capOf size with
    | none =>
        rw [dcAlloc, dcAllocFuel, dcAllocLoop, if_neg hsize, hcap] at h
        simp at h
    | some cap => exact ⟨cap, (dcAllocLoop_lends hcap hsize h).1⟩

/-- No call takes away what `mm_init` has set up. -/
theorem Mm.Reached.setUp (h : mm.Reached) : mm.SetUp := by
  induction h with
  | init h => exact mmInit_setUp h
  | alloc _ hstep ih =>
      rcases dcAlloc_touches hstep with ⟨cap, htouches⟩
      exact ih.touches htouches
  | free _ hstep ih =>
      rcases dcFree_touches hstep with ⟨cap, htouches⟩
      exact ih.touches htouches

/-! ## The sizes that stay inside -/

/-- The entries of a class lie inside the tables and have been set up: its extra
list and the mutex of that, and its stock when it is a class that has one. -/
structure Mm.InTables (mm : Mm) (cap : Nat) : Prop where
  elm : cap < biggestCap + 1
  extraMutex : mm.extraMutex cap = true
  stock : small ≤ cap → cap ≤ big → cap - small < chunkTypeNum ∧
    (mm.chunksManagerTable (cap - small)).isSome ∧ mm.preAllocMutex (cap - small) = true

/-- `dc_alloc` returns `NULL` and changes nothing, or works on a class that is in the tables. -/
def AllocInBounds (size : UInt64) (mm : Mm) : Prop :=
  dcAlloc size mm = some (none, mm) ∨
    ∃ cap, capOf size = some cap ∧ mm.InTables cap ∧
      ∀ ptr mm', dcAlloc size mm = some (ptr, mm') → mm.Touches cap mm'

theorem Mm.SetUp.inTables_iff (h : mm.SetUp) : mm.InTables cap ↔ 1 ≤ cap ∧ cap ≤ biggestCap := by
  constructor
  · intro hin
    exact (h.extraMutex cap).mp hin.extraMutex
  · intro hcap
    refine ⟨Nat.lt_succ_of_le hcap.2, (h.extraMutex cap).mpr hcap, ?_⟩
    intro hsmall hbig
    have hpos : cap - small < chunkTypeNum := by
      unfold small big chunkTypeNum at *
      omega
    exact ⟨hpos, h.managers _ hpos, h.preAllocMutex _ hpos⟩

theorem Mm.SetUp.allocInBounds_iff (h : mm.SetUp) {size : UInt64} (hsize : size ≠ 0) :
    AllocInBounds size mm ↔ HasClass size := by
  rw [hasClass_iff]
  constructor
  · rintro (hnull | ⟨cap, hcap, hin, -⟩)
    · -- `NULL` is returned for the size 0 only
      cases hcap : capOf size with
      | none =>
          rw [dcAlloc, dcAllocFuel, dcAllocLoop, if_neg hsize, hcap] at hnull
          simp at hnull
      | some cap =>
          have hsome := (dcAllocLoop_lends hcap hsize hnull).2
          simp at hsome
    · exact ⟨cap, hcap, h.inTables_iff.mp hin⟩
  · rintro ⟨cap, hcap, hrange⟩
    refine .inr ⟨cap, hcap, h.inTables_iff.mpr hrange, ?_⟩
    intro ptr mm' halloc
    exact (dcAllocLoop_lends hcap hsize halloc).1

/-- For the other sizes there is no entry to go on with. -/
theorem Mm.SetUp.dcAlloc_noClass (h : mm.SetUp) {size : UInt64} (hsize : size ≠ 0)
    (hclass : ¬ HasClass size) : dcAlloc size mm = none := by
  rw [hasClass_iff] at hclass
  rw [dcAlloc, dcAllocFuel, dcAllocLoop, if_neg hsize]
  cases hcap : capOf size with
  | none => rfl
  | some cap =>
      have hout : ¬ (1 ≤ cap ∧ cap ≤ biggestCap) := fun hrange => hclass ⟨cap, hcap, hrange⟩
      simp only [Option.bind_eq_bind, Option.bind_some]
      by_cases hlarge : biggestCap < cap
      · rw [if_pos hlarge]
      · -- the class below the first has no mutex
        have hzero : cap = 0 := by omega
        have hmutex : mm.extraMutex cap ≠ true := by
          rw [Ne, h.extraMutex]
          exact hout
        have hsmall : cap < small ∨ big < cap := .inl (by rw [hzero]; decide)
        rw [if_neg hlarge, if_pos hsmall, makeRoom, if_neg hmutex]
        rfl

/-- The sizes with a class get a chunk of it, as long as no counter is wrong. -/
theorem dcAlloc_returns_iff {P : Nat → Pool Nat} (h : mm.Holds P) (hsetUp : mm.SetUp)
    {size : UInt64} (hsize : size ≠ 0) :
    (∃ x mm', dcAlloc size mm = some (some x, mm')) ↔ HasClass size := by
  constructor
  · rintro ⟨x, mm', halloc⟩
    by_contra hclass
    rw [hsetUp.dcAlloc_noClass hsize hclass] at halloc
    simp at halloc
  · intro hclass
    rcases (hasClass_iff size).mp hclass with ⟨cap, hcap, hpos, hle⟩
    -- as many bytes as a chunk of the class has are a size that `dcAlloc_holds` knows
    obtain ⟨full, hfull⟩ : ∃ full, pow2 cap = some full := ⟨_, if_pos (Nat.lt_succ_of_le hle)⟩
    rcases capOf_pow2 hfull with ⟨hne, hbytes, hcap'⟩
    have hlow : 2 ≤ full := by
      rw [UInt64.le_iff_toNat_le, hbytes]
      exact Nat.pow_le_pow_right (show 0 < 2 by decide) hpos
    have hhigh : full ≤ 2 ^ 30 := by
      rw [UInt64.le_iff_toNat_le, hbytes]
      exact Nat.pow_le_pow_right (show 0 < 2 by decide) hle
    rcases dcAlloc_holds h hlow hhigh with ⟨_, x, mm', _, _, halloc, -⟩
    refine ⟨x, mm', ?_⟩
    rw [dcAlloc, dcAllocLoop_congr hsize hne (hcap.trans hcap'.symm)]
    exact halloc

/-- The pair array of the misses: eight bytes for each of `total` missed names. -/
theorem Mm.SetUp.pairArray_in_bounds_iff (h : mm.SetUp) {total : Nat} (hpos : 1 ≤ total)
    (hint : total < 536870912) :
    AllocInBounds (UInt64.ofNat (8 * total)) mm ↔ total ≤ 134217728 := by
  have hsize : (UInt64.ofNat (8 * total)).toNat = 8 * total := by
    rw [UInt64.toNat_ofNat']
    exact Nat.mod_eq_of_lt (by omega)
  have hne : UInt64.ofNat (8 * total) ≠ 0 := by
    rw [Ne, ← UInt64.toNat_inj, hsize, UInt64.toNat_zero]
    omega
  rw [h.allocInBounds_iff hne, HasClass, Ne, ← UInt64.toNat_inj, ← UInt64.toNat_inj, hsize,
    Nat.mod_eq_of_lt (by omega)]
  show 8 * total < _ ∧ ¬ 8 * total = 1 ∧ (8 * total = 1073741824 ∨ _) ∨ _ ↔ _
  omega

/-- In every state that can be reached `dc_alloc` stays inside the tables, on
entries that have been set up, exactly for the sizes that have a class. -/
theorem alloc_in_bounds_iff (size : UInt64) (mm : Mm) (hsize : 1 ≤ size) (h : mm.Reached) :
    AllocInBounds size mm ↔ HasClass size :=
  h.setUp.allocInBounds_iff (ne_zero_of_one_le hsize)

/-- The largest size with a chunk large enough, after `mm_init`. -/
theorem alloc_in_bounds_largest : ∃ mm, mmInit = some mm ∧ AllocInBounds (2 ^ 30) mm := by
  rcases mmInit_holds with ⟨mm, P, hinit, -⟩
  exact ⟨mm, hinit, (alloc_in_bounds_iff (2 ^ 30) mm (by decide) (.init hinit)).mpr (by decide)⟩

/-- The one byte of the miss flag, after `mm_init`: its class has no mutex. -/
theorem missFlag_out_of_bounds :
    ∃ mm, mmInit = some mm ∧ ¬ AllocInBounds 1 mm ∧ dcAlloc 1 mm = none := by
  rcases mmInit_holds with ⟨mm, P, hinit, -⟩
  have hsetUp := mmInit_setUp hinit
  have hclass : ¬ HasClass 1 := by decide
  refine ⟨mm, hinit, ?_, hsetUp.dcAlloc_noClass (by decide) hclass⟩
  rw [hsetUp.allocInBounds_iff (by decide)]
  exact hclass

end DnsCache

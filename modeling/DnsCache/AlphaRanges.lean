import Mathlib.Data.UInt
import DnsCache.Trie

/-! # The ranges of an alphabet and the numbers they give

* `AlphaSorted`, `alphaSize`: ranges in order and apart, and how many characters they hold.
* `alphaMap_of_ranges`: what any calls of `alpha_map_add_range` make, and a clone of it.
* `alphaMap_numbering`: characters and numbers correspond, in the same order, as long as there
  are numbers enough.
-/

namespace DnsCache

/-- The ranges are in order and apart. -/
structure AlphaSorted (m : AlphaMap) : Prop where
  range : ∀ r ∈ m, r.rangeBegin ≤ r.rangeEnd
  apart : m.Pairwise fun r r' => r.rangeEnd < r'.rangeBegin

/-- The number of characters. -/
def alphaSize (m : AlphaMap) : Nat :=
  (m.map fun r => r.rangeEnd.toNat - r.rangeBegin.toNat + 1).sum

variable {m : AlphaMap} {first last c c' : UInt32} {r : AlphaRange} {b n : UInt8}

theorem covers_cons : Covers (r :: m) c ↔ r.rangeBegin ≤ c ∧ c ≤ r.rangeEnd ∨ Covers m c := by
  simp [Covers]

theorem not_covers_nil : ¬ Covers [] c := by simp [Covers]

theorem alphaSorted_cons : AlphaSorted (r :: m) ↔
    r.rangeBegin ≤ r.rangeEnd ∧ (∀ r' ∈ m, r.rangeEnd < r'.rangeBegin) ∧ AlphaSorted m := by
  constructor
  · rintro ⟨hrange, hapart⟩
    rcases List.pairwise_cons.mp hapart with ⟨hr, hm⟩
    exact ⟨hrange r List.mem_cons_self, hr, fun r' hr' => hrange r' (List.mem_cons_of_mem _ hr'), hm⟩
  · rintro ⟨hle, hr, hm⟩
    refine ⟨?_, List.pairwise_cons.mpr ⟨hr, hm.apart⟩⟩
    intro r' hr'
    rcases List.mem_cons.mp hr' with rfl | hr'
    · exact hle
    · exact hm.range r' hr'

/-! ## Ranges added -/

/-- The merged ranges begin with the new one. -/
theorem mergeRanges_spec (hfl : first ≤ last) (h : AlphaSorted m)
    (hlow : ∀ r ∈ m, first ≤ r.rangeBegin) :
    AlphaSorted (mergeRanges first last m) ∧
      (∀ r ∈ mergeRanges first last m, first ≤ r.rangeBegin) ∧
      ∀ c, Covers (mergeRanges first last m) c ↔ first ≤ c ∧ c ≤ last ∨ Covers m c := by
  simp only [UInt32.le_iff_toNat_le] at hfl hlow
  induction m with
  | nil =>
      refine ⟨alphaSorted_cons.mpr ⟨hfl, by simp, h⟩, by simp [mergeRanges], fun c => ?_⟩
      rw [mergeRanges, covers_cons]
  | cons r m ih =>
      rcases alphaSorted_cons.mp h with ⟨hr, hrm, hm⟩
      have hfr := hlow r List.mem_cons_self
      simp only [UInt32.le_iff_toNat_le, UInt32.lt_iff_toNat_lt] at hr hrm
      rw [mergeRanges]
      by_cases hbegin : r.rangeBegin ≤ last
      · rw [if_pos hbegin]
        simp only [UInt32.le_iff_toNat_le] at hbegin
        by_cases hend : last ≤ r.rangeEnd
        · -- the last range to merge reaches beyond the end
          rw [if_pos hend]
          simp only [UInt32.le_iff_toNat_le] at hend
          refine ⟨alphaSorted_cons.mpr ⟨?_, ?_, hm⟩, ?_, fun c => ?_⟩
          · simp only [UInt32.le_iff_toNat_le]
            omega
          · simpa only [UInt32.lt_iff_toNat_lt] using hrm
          · intro r' hr'
            rcases List.mem_cons.mp hr' with rfl | hr'
            · exact UInt32.le_refl _
            · have := hlow r' (List.mem_cons_of_mem _ hr')
              simpa only [UInt32.le_iff_toNat_le] using this
          · rw [covers_cons, covers_cons, ← or_assoc]
            simp only [UInt32.le_iff_toNat_le]
            refine or_congr_left ?_
            omega
        · rw [if_neg hend]
          simp only [UInt32.le_iff_toNat_le] at hend
          rcases ih hm (fun r' hr' => hlow r' (List.mem_cons_of_mem _ hr')) with ⟨hs, hl, hc⟩
          refine ⟨hs, hl, fun c => ?_⟩
          rw [hc, covers_cons, ← or_assoc]
          simp only [UInt32.le_iff_toNat_le]
          refine or_congr_left ?_
          omega
      · rw [if_neg hbegin]
        simp only [UInt32.le_iff_toNat_le] at hbegin
        refine ⟨alphaSorted_cons.mpr ⟨hfl, ?_, h⟩, ?_, fun c => covers_cons⟩
        · intro r' hr'
          simp only [UInt32.lt_iff_toNat_lt]
          rcases List.mem_cons.mp hr' with rfl | hr'
          · omega
          · have := hrm r' hr'
            omega
        · intro r' hr'
          rcases List.mem_cons.mp hr' with rfl | hr'
          · exact UInt32.le_refl _
          · simpa only [UInt32.le_iff_toNat_le] using hlow r' hr'

theorem addRangeLoop_spec (hfl : first ≤ last) (h : AlphaSorted m) :
    AlphaSorted (addRangeLoop first last m) ∧
      (∀ x, x < first → (∀ r ∈ m, x < r.rangeBegin) →
        ∀ r ∈ addRangeLoop first last m, x < r.rangeBegin) ∧
      ∀ c, Covers (addRangeLoop first last m) c ↔ first ≤ c ∧ c ≤ last ∨ Covers m c := by
  induction m with
  | nil =>
      refine ⟨alphaSorted_cons.mpr ⟨hfl, by simp, h⟩, ?_, fun c => covers_cons⟩
      intro x hx _ r hr
      rw [List.mem_singleton.mp hr]
      exact hx
  | cons r m ih =>
      rcases alphaSorted_cons.mp h with ⟨hr, hrm, hm⟩
      have hsub : ∀ r' ∈ r :: m, r.rangeBegin ≤ r'.rangeBegin := by
        intro r' hr'
        rcases List.mem_cons.mp hr' with rfl | hr'
        · exact UInt32.le_refl _
        · have := hrm r' hr'
          simp only [UInt32.le_iff_toNat_le, UInt32.lt_iff_toNat_lt] at *
          omega
      rw [addRangeLoop]
      by_cases hbegin : r.rangeBegin ≤ first
      · rw [if_pos hbegin]
        by_cases hend : first ≤ r.rangeEnd
        · -- the range covers the begin of the new one
          rw [if_pos hend]
          rcases mergeRanges_spec (UInt32.le_trans hbegin hfl) h hsub with ⟨hs, hl, hc⟩
          refine ⟨hs, ?_, fun c => ?_⟩
          · intro x _ hx r' hr'
            have h₁ := hx r List.mem_cons_self
            have h₂ := hl r' hr'
            simp only [UInt32.le_iff_toNat_le, UInt32.lt_iff_toNat_lt] at *
            omega
          · rw [hc, covers_cons, ← or_assoc, ← or_assoc]
            simp only [UInt32.le_iff_toNat_le] at *
            refine or_congr_left ?_
            omega
        · rw [if_neg hend]
          have hrf : r.rangeEnd < first := UInt32.not_le.mp hend
          rcases ih hm with ⟨hs, hl, hc⟩
          refine ⟨alphaSorted_cons.mpr ⟨hr, hl _ hrf hrm, hs⟩, ?_, fun c => ?_⟩
          · intro x hxf hx r' hr'
            rcases List.mem_cons.mp hr' with rfl | hr'
            · exact hx _ List.mem_cons_self
            · exact hl x hxf (fun r hr => hx r (List.mem_cons_of_mem _ hr)) r' hr'
          · rw [covers_cons, hc, covers_cons, or_left_comm]
      · rw [if_neg hbegin]
        have hfirst : ∀ r' ∈ r :: m, first ≤ r'.rangeBegin := by
          intro r' hr'
          have := hsub r' hr'
          simp only [UInt32.le_iff_toNat_le] at *
          omega
        rcases mergeRanges_spec hfl h hfirst with ⟨hs, hl, hc⟩
        refine ⟨hs, ?_, hc⟩
        intro x hx _ r' hr'
        have := hl r' hr'
        simp only [UInt32.le_iff_toNat_le, UInt32.lt_iff_toNat_lt] at *
        omega

theorem alphaMapAddRange_spec (h : AlphaSorted m) (first last : UInt32) :
    AlphaSorted (alphaMapAddRange m first last) ∧
      ∀ c, Covers (alphaMapAddRange m first last) c ↔ first ≤ c ∧ c ≤ last ∨ Covers m c := by
  unfold alphaMapAddRange
  by_cases hlt : last < first
  · rw [if_pos hlt]
    refine ⟨h, fun c => ?_⟩
    rw [or_iff_right]
    simp only [UInt32.le_iff_toNat_le, UInt32.lt_iff_toNat_lt] at *
    omega
  · rw [if_neg hlt]
    rcases addRangeLoop_spec (UInt32.not_lt.mp hlt) h with ⟨hs, -, hc⟩
    exact ⟨hs, hc⟩

/-- Calls of `alpha_map_add_range`, one after the other. -/
def addRanges (m : AlphaMap) (calls : List (UInt32 × UInt32)) : AlphaMap :=
  calls.foldl (fun m call => alphaMapAddRange m call.1 call.2) m

theorem addRanges_spec (h : AlphaSorted m) (calls : List (UInt32 × UInt32)) :
    AlphaSorted (addRanges m calls) ∧ ∀ c, Covers (addRanges m calls) c ↔
      (∃ call ∈ calls, call.1 ≤ c ∧ c ≤ call.2) ∨ Covers m c := by
  induction calls generalizing m with
  | nil => exact ⟨h, by simp [addRanges]⟩
  | cons call calls ih =>
      rcases alphaMapAddRange_spec h call.1 call.2 with ⟨hs, hc⟩
      rcases ih hs with ⟨hs', hc'⟩
      refine ⟨hs', fun c => ?_⟩
      have hcons : Covers (addRanges m (call :: calls)) c ↔
          (∃ call ∈ calls, call.1 ≤ c ∧ c ≤ call.2) ∨
            Covers (alphaMapAddRange m call.1 call.2) c := hc' c
      rw [hcons, hc, or_left_comm, ← or_assoc, List.exists_mem_cons_iff]

theorem alphaSorted_nil : AlphaSorted [] := ⟨by simp, .nil⟩

/-! ## A clone -/

/-- A range beyond the others is added at the end. -/
theorem addRangeLoop_last
    (hm : ∀ r' ∈ m, r'.rangeBegin ≤ r'.rangeEnd ∧ r'.rangeEnd < r.rangeBegin) :
    addRangeLoop r.rangeBegin r.rangeEnd m = m ++ [r] := by
  induction m with
  | nil => rfl
  | cons r' m ih =>
      have h' := hm r' List.mem_cons_self
      have hbegin : r'.rangeBegin ≤ r.rangeBegin := by
        simp only [UInt32.le_iff_toNat_le, UInt32.lt_iff_toNat_lt] at *
        omega
      rw [addRangeLoop, if_pos hbegin, if_neg (UInt32.not_le.mpr h'.2), List.cons_append,
        ih fun r'' hr'' => hm r'' (List.mem_cons_of_mem _ hr'')]

theorem addRanges_append (done : AlphaMap) (h : AlphaSorted (done ++ m)) :
    m.foldl (fun clone r => alphaMapAddRange clone r.rangeBegin r.rangeEnd) done = done ++ m := by
  induction m generalizing done with
  | nil => simp
  | cons r m ih =>
      have hr := h.range r (by simp)
      have hdone : ∀ r' ∈ done, r'.rangeBegin ≤ r'.rangeEnd ∧ r'.rangeEnd < r.rangeBegin := by
        intro r' hr'
        exact ⟨h.range r' (by simp [hr']),
          (List.pairwise_append.mp h.apart).2.2 r' hr' r List.mem_cons_self⟩
      have hadd : alphaMapAddRange done r.rangeBegin r.rangeEnd = done ++ [r] := by
        rw [alphaMapAddRange, if_neg (UInt32.not_lt.mpr hr), addRangeLoop_last hdone]
      rw [List.foldl_cons, hadd, ih (done ++ [r]) (by simpa using h), List.append_assoc,
        List.singleton_append]

/-- A clone is the same map. -/
theorem alphaMapClone_eq (h : AlphaSorted m) : alphaMapClone m = m :=
  addRanges_append [] h

/-- Whatever the calls, the ranges end up in order and apart, hold what was added, and are cloned
as they are. -/
theorem alphaMap_of_ranges (calls : List (UInt32 × UInt32)) :
    AlphaSorted (addRanges [] calls) ∧
      (∀ c, Covers (addRanges [] calls) c ↔ ∃ call ∈ calls, call.1 ≤ c ∧ c ≤ call.2) ∧
      alphaMapClone (addRanges [] calls) = addRanges [] calls := by
  rcases addRanges_spec alphaSorted_nil calls with ⟨hs, hc⟩
  exact ⟨hs, fun c => (hc c).trans (or_iff_left not_covers_nil), alphaMapClone_eq hs⟩

/-! ## Numbers -/

theorem toNat_toUInt8_of_lt {x : UInt32} (hx : x.toNat < 256) : x.toUInt8.toNat = x.toNat := by
  rw [UInt32.toNat_toUInt8]
  omega

/-- What the first range takes of the numbers. -/
theorem alphaSize_cons : alphaSize (r :: m) =
    r.rangeEnd.toNat - r.rangeBegin.toNat + 1 + alphaSize m := by
  simp [alphaSize]

/-- The number behind the first range. -/
theorem toNat_nextBegin (hr : r.rangeBegin ≤ r.rangeEnd)
    (hsize : b.toNat + alphaSize (r :: m) ≤ 255) :
    (b + (r.rangeEnd - r.rangeBegin + 1).toUInt8).toNat =
      b.toNat + (r.rangeEnd.toNat - r.rangeBegin.toNat + 1) := by
  rw [alphaSize_cons] at hsize
  have hsub := UInt32.toNat_sub_of_le _ _ hr
  have hone : (r.rangeEnd - r.rangeBegin + 1).toNat = r.rangeEnd.toNat - r.rangeBegin.toNat + 1 := by
    rw [UInt32.toNat_add, hsub]
    have : (1 : UInt32).toNat = 1 := rfl
    omega
  rw [UInt8.toNat_add, toNat_toUInt8_of_lt (by omega), hone]
  omega

/-- The number of a character in the first range. -/
theorem toNat_inRange (hc : r.rangeBegin ≤ c ∧ c ≤ r.rangeEnd)
    (hsize : b.toNat + alphaSize (r :: m) ≤ 255) :
    (b + (c - r.rangeBegin).toUInt8).toNat = b.toNat + (c.toNat - r.rangeBegin.toNat) := by
  rw [alphaSize_cons] at hsize
  have hsub := UInt32.toNat_sub_of_le _ _ hc.1
  have hle := UInt32.le_iff_toNat_le.mp hc.2
  have hge := UInt32.le_iff_toNat_le.mp hc.1
  rw [UInt8.toNat_add, toNat_toUInt8_of_lt (by omega), hsub]
  omega

/-- The test of `trieToCharLoop` in `Nat`. -/
theorem trieToChar_test (hr : r.rangeBegin ≤ r.rangeEnd)
    (hsize : b.toNat + alphaSize (r :: m) ≤ 255) :
    n.toUInt32 ≤ b.toUInt32 + (r.rangeEnd - r.rangeBegin) ↔
      n.toNat ≤ b.toNat + (r.rangeEnd.toNat - r.rangeBegin.toNat) := by
  rw [alphaSize_cons] at hsize
  rw [UInt32.le_iff_toNat_le, UInt32.toNat_add, UInt32.toNat_sub_of_le _ _ hr, UInt8.toNat_toUInt32,
    UInt8.toNat_toUInt32]
  omega

theorem charToTrieLoop_spec (h : AlphaSorted m) (hsize : b.toNat + alphaSize m ≤ 255)
    (hc : Covers m c) :
    b.toNat ≤ (charToTrieLoop c b m).toNat ∧
      (charToTrieLoop c b m).toNat < b.toNat + alphaSize m ∧
      trieToCharLoop (charToTrieLoop c b m) b m = c := by
  induction m generalizing b with
  | nil => exact absurd hc not_covers_nil
  | cons r m ih =>
      rcases alphaSorted_cons.mp h with ⟨hr, -, hm⟩
      have hrn := UInt32.le_iff_toNat_le.mp hr
      have hcons := alphaSize_cons (r := r) (m := m)
      by_cases hin : r.rangeBegin ≤ c ∧ c ≤ r.rangeEnd
      · have hnat := toNat_inRange hin hsize
        have hge := UInt32.le_iff_toNat_le.mp hin.1
        have hle := UInt32.le_iff_toNat_le.mp hin.2
        rw [charToTrieLoop, if_pos hin]
        refine ⟨by omega, by omega, ?_⟩
        rw [trieToCharLoop, if_pos ((trieToChar_test hr hsize).mpr (by omega))]
        -- the offset back on the begin
        apply UInt32.toNat_inj.mp
        have hle' : b.toUInt32 ≤ (b + (c - r.rangeBegin).toUInt8).toUInt32 := by
          rw [UInt32.le_iff_toNat_le, UInt8.toNat_toUInt32, UInt8.toNat_toUInt32]
          omega
        rw [UInt32.toNat_add, UInt32.toNat_sub_of_le _ _ hle', UInt8.toNat_toUInt32,
          UInt8.toNat_toUInt32, hnat]
        have := c.toNat_lt
        omega
      · have hnext := toNat_nextBegin hr hsize
        rcases ih (b := b + (r.rangeEnd - r.rangeBegin + 1).toUInt8) hm (by omega)
          ((covers_cons.mp hc).resolve_left hin) with ⟨hlow, hhigh, hback⟩
        rw [charToTrieLoop, if_neg hin]
        refine ⟨by omega, by omega, ?_⟩
        rw [trieToCharLoop, if_neg (fun hle => ?_), hback]
        have := (trieToChar_test hr hsize).mp hle
        omega

theorem trieToCharLoop_spec (h : AlphaSorted m) (hsize : b.toNat + alphaSize m ≤ 255)
    (hlow : b.toNat ≤ n.toNat) (hhigh : n.toNat < b.toNat + alphaSize m) :
    Covers m (trieToCharLoop n b m) ∧ charToTrieLoop (trieToCharLoop n b m) b m = n := by
  induction m generalizing b with
  | nil =>
      simp only [alphaSize, List.map_nil, List.sum_nil] at hhigh
      omega
  | cons r m ih =>
      rcases alphaSorted_cons.mp h with ⟨hr, hrm, hm⟩
      have hrn := UInt32.le_iff_toNat_le.mp hr
      have hcons := alphaSize_cons (r := r) (m := m)
      have htest := trieToChar_test (n := n) hr hsize
      by_cases hin : n.toNat ≤ b.toNat + (r.rangeEnd.toNat - r.rangeBegin.toNat)
      · have hle : b.toUInt32 ≤ n.toUInt32 := by
          rw [UInt32.le_iff_toNat_le, UInt8.toNat_toUInt32, UInt8.toNat_toUInt32]
          exact hlow
        have hnat : (r.rangeBegin + (n.toUInt32 - b.toUInt32)).toNat =
            r.rangeBegin.toNat + (n.toNat - b.toNat) := by
          have hlt := r.rangeEnd.toNat_lt
          rw [UInt32.toNat_add, UInt32.toNat_sub_of_le _ _ hle, UInt8.toNat_toUInt32,
            UInt8.toNat_toUInt32]
          omega
        have hcov : r.rangeBegin ≤ r.rangeBegin + (n.toUInt32 - b.toUInt32) ∧
            r.rangeBegin + (n.toUInt32 - b.toUInt32) ≤ r.rangeEnd := by
          rw [UInt32.le_iff_toNat_le, UInt32.le_iff_toNat_le, hnat]
          omega
        rw [trieToCharLoop, if_pos (htest.mpr hin)]
        refine ⟨covers_cons.mpr (.inl hcov), ?_⟩
        rw [charToTrieLoop, if_pos hcov]
        apply UInt8.toNat_inj.mp
        rw [toNat_inRange hcov hsize, hnat]
        omega
      · have hnext := toNat_nextBegin hr hsize
        rw [trieToCharLoop, if_neg (fun hle => hin (htest.mp hle))]
        rcases ih (b := b + (r.rangeEnd - r.rangeBegin + 1).toUInt8) hm (by omega) (by omega)
          (by omega) with ⟨hcov, hback⟩
        refine ⟨covers_cons.mpr (.inr hcov), ?_⟩
        rw [charToTrieLoop, if_neg, hback]
        -- the later ranges lie above the first
        rintro ⟨-, hle⟩
        rcases hcov with ⟨r', hr', hbegin, -⟩
        have hlt := hrm r' hr'
        simp only [UInt32.le_iff_toNat_le, UInt32.lt_iff_toNat_lt] at hle hlt hbegin
        omega

theorem charToTrieLoop_lt (h : AlphaSorted m) (hsize : b.toNat + alphaSize m ≤ 255)
    (hc : Covers m c) (hc' : Covers m c') (hlt : c < c') :
    charToTrieLoop c b m < charToTrieLoop c' b m := by
  induction m generalizing b with
  | nil => exact absurd hc not_covers_nil
  | cons r m ih =>
      rcases alphaSorted_cons.mp h with ⟨hr, hrm, hm⟩
      have hrn := UInt32.le_iff_toNat_le.mp hr
      have hltn := UInt32.lt_iff_toNat_lt.mp hlt
      have hcons := alphaSize_cons (r := r) (m := m)
      have hnext := toNat_nextBegin hr hsize
      rw [charToTrieLoop, charToTrieLoop]
      by_cases hin : r.rangeBegin ≤ c ∧ c ≤ r.rangeEnd
      · rw [if_pos hin, UInt8.lt_iff_toNat_lt, toNat_inRange hin hsize]
        have hge := UInt32.le_iff_toNat_le.mp hin.1
        have hle := UInt32.le_iff_toNat_le.mp hin.2
        by_cases hin' : r.rangeBegin ≤ c' ∧ c' ≤ r.rangeEnd
        · rw [if_pos hin', toNat_inRange hin' hsize]
          omega
        · rw [if_neg hin']
          have hspec := charToTrieLoop_spec (b := b + (r.rangeEnd - r.rangeBegin + 1).toUInt8) hm
            (by omega) ((covers_cons.mp hc').resolve_left hin')
          omega
      · have hcm := (covers_cons.mp hc).resolve_left hin
        have hin' : ¬ (r.rangeBegin ≤ c' ∧ c' ≤ r.rangeEnd) := by
          rintro ⟨-, hle'⟩
          rcases hcm with ⟨r', hr', hbegin, -⟩
          have hlt' := hrm r' hr'
          simp only [UInt32.le_iff_toNat_le, UInt32.lt_iff_toNat_lt] at hle' hlt' hbegin
          omega
        rw [if_neg hin, if_neg hin']
        exact ih hm (by omega) hcm ((covers_cons.mp hc').resolve_left hin')

/-- Behind the numbers of all ranges there is no character. -/
theorem trieToCharLoop_beyond (h : AlphaSorted m) (hsize : b.toNat + alphaSize m ≤ 255)
    (hhigh : b.toNat + alphaSize m ≤ n.toNat) : trieToCharLoop n b m = alphaCharError := by
  induction m generalizing b with
  | nil => rfl
  | cons r m ih =>
      rcases alphaSorted_cons.mp h with ⟨hr, -, hm⟩
      have hrn := UInt32.le_iff_toNat_le.mp hr
      have hcons := alphaSize_cons (r := r) (m := m)
      have hnext := toNat_nextBegin hr hsize
      rw [trieToCharLoop, if_neg (fun hle => ?_), ih hm (by omega) (by omega)]
      have := (trieToChar_test hr hsize).mp hle
      omega

/-- A character that a key can hold has a number of its own, which leads back to it. -/
theorem alphaMapCharToTrie_spec (h : AlphaSorted m) (hsize : alphaSize m ≤ 254) (hc : Covers m c)
    (hc0 : c ≠ 0) :
    alphaMapCharToTrie m c ≠ 0 ∧ (alphaMapCharToTrie m c).toNat ≤ alphaSize m ∧
      alphaMapTrieToChar m (alphaMapCharToTrie m c) = c := by
  have hone : (1 : UInt8).toNat = 1 := rfl
  rcases charToTrieLoop_spec (b := 1) h (by omega) hc with ⟨hlow, hhigh, hback⟩
  have hne : charToTrieLoop c 1 m ≠ 0 := by
    intro heq
    rw [heq] at hlow
    exact absurd hlow (by decide)
  rw [alphaMapCharToTrie, if_neg hc0, alphaMapTrieToChar, if_neg hne]
  exact ⟨hne, by omega, hback⟩

/-- Every number up to the size leads to a character that has it. The terminator, which may be
in a range, has a number of its own. -/
theorem alphaMapTrieToChar_spec (h : AlphaSorted m) (hsize : alphaSize m ≤ 254) (hn0 : n ≠ 0)
    (hn : n.toNat ≤ alphaSize m) : Covers m (alphaMapTrieToChar m n) ∧
      (alphaMapTrieToChar m n ≠ 0 → alphaMapCharToTrie m (alphaMapTrieToChar m n) = n) := by
  have hone : (1 : UInt8).toNat = 1 := rfl
  have hpos : 0 < n.toNat := Nat.pos_of_ne_zero fun h0 => hn0 (UInt8.toNat_inj.mp h0)
  rcases trieToCharLoop_spec (b := 1) (n := n) h (by omega) (by omega) (by omega) with ⟨hc, hback⟩
  rw [alphaMapTrieToChar, if_neg hn0]
  refine ⟨hc, fun hchar => ?_⟩
  rw [alphaMapCharToTrie, if_neg hchar, hback]

/-- Numbers are in the order of their characters. -/
theorem alphaMapCharToTrie_lt (h : AlphaSorted m) (hsize : alphaSize m ≤ 254) (hc : Covers m c)
    (hc' : Covers m c') (hlt : c < c') : alphaMapCharToTrie m c < alphaMapCharToTrie m c' := by
  have hone : (1 : UInt8).toNat = 1 := rfl
  have hc'0 : c' ≠ 0 := by
    rintro rfl
    exact absurd hlt UInt32.not_lt_zero
  rw [alphaMapCharToTrie, alphaMapCharToTrie, if_neg hc'0]
  by_cases hc0 : c = 0
  · rw [if_pos hc0, UInt8.lt_iff_toNat_lt]
    have hspec := charToTrieLoop_spec (b := 1) h (by omega) hc'
    have hzero : (0 : UInt8).toNat = 0 := rfl
    omega
  · rw [if_neg hc0]
    exact charToTrieLoop_lt h (by omega) hc hc' hlt

/-- As long as there are numbers enough, the characters of the ranges have theirs in order, the
others none, and the numbers lead back. -/
theorem alphaMap_numbering (calls : List (UInt32 × UInt32))
    (hsize : alphaSize (addRanges [] calls) ≤ 254) :
    (∀ c, c ≠ 0 → (alphaMapCharToTrie (addRanges [] calls) c = trieCharMax ↔
      ¬ ∃ call ∈ calls, call.1 ≤ c ∧ c ≤ call.2)) ∧
    (∀ c c', Covers (addRanges [] calls) c → Covers (addRanges [] calls) c' → c < c' →
      alphaMapCharToTrie (addRanges [] calls) c < alphaMapCharToTrie (addRanges [] calls) c') ∧
    (∀ c, Covers (addRanges [] calls) c →
      alphaMapTrieToChar (addRanges [] calls) (alphaMapCharToTrie (addRanges [] calls) c) = c) ∧
    (∀ n, n ≠ 0 → n.toNat ≤ alphaSize (addRanges [] calls) →
      Covers (addRanges [] calls) (alphaMapTrieToChar (addRanges [] calls) n) ∧
        (alphaMapTrieToChar (addRanges [] calls) n ≠ 0 → alphaMapCharToTrie (addRanges [] calls)
          (alphaMapTrieToChar (addRanges [] calls) n) = n)) ∧
    ∀ n, alphaSize (addRanges [] calls) < n.toNat →
      alphaMapTrieToChar (addRanges [] calls) n = alphaCharError := by
  rcases addRanges_spec alphaSorted_nil calls with ⟨h, hcovers⟩
  simp only [not_covers_nil, or_false] at hcovers
  refine ⟨fun c hc0 => ?_, fun c c' => alphaMapCharToTrie_lt h hsize, fun c hc => ?_,
    fun n => alphaMapTrieToChar_spec h hsize, fun n hn => ?_⟩
  · rw [← hcovers]
    refine ⟨fun heq hc => ?_, alphaMapCharToTrie_foreign hc0⟩
    have hle := (alphaMapCharToTrie_spec h hsize hc hc0).2.1
    rw [heq] at hle
    have hmax : trieCharMax.toNat = 255 := rfl
    omega
  · by_cases hc0 : c = 0
    · rw [hc0]
      rfl
    · exact (alphaMapCharToTrie_spec h hsize hc hc0).2.2
  · have hone : (1 : UInt8).toNat = 1 := rfl
    have hn0 : n ≠ 0 := by
      rintro rfl
      exact absurd hn (Nat.not_lt_zero _)
    rw [alphaMapTrieToChar, if_neg hn0]
    exact trieToCharLoop_beyond h (by omega) (by omega)

/-- Letters in two calls that overlap, and digits behind them. -/
def overlapping : List (UInt32 × UInt32) := [(0x61, 0x6d), (0x68, 0x7a), (0x30, 0x39)]

example : addRanges [] overlapping = [⟨0x30, 0x39⟩, ⟨0x61, 0x7a⟩] := by decide

theorem alphaMap_numbering_overlapping :
    (∀ c, c ≠ 0 → (alphaMapCharToTrie (addRanges [] overlapping) c = trieCharMax ↔
      ¬ ∃ call ∈ overlapping, call.1 ≤ c ∧ c ≤ call.2)) ∧
    (∀ c c', Covers (addRanges [] overlapping) c → Covers (addRanges [] overlapping) c' → c < c' →
      alphaMapCharToTrie (addRanges [] overlapping) c <
        alphaMapCharToTrie (addRanges [] overlapping) c') ∧
    (∀ c, Covers (addRanges [] overlapping) c → alphaMapTrieToChar (addRanges [] overlapping)
      (alphaMapCharToTrie (addRanges [] overlapping) c) = c) ∧
    (∀ n, n ≠ 0 → n.toNat ≤ alphaSize (addRanges [] overlapping) →
      Covers (addRanges [] overlapping) (alphaMapTrieToChar (addRanges [] overlapping) n) ∧
        (alphaMapTrieToChar (addRanges [] overlapping) n ≠ 0 →
          alphaMapCharToTrie (addRanges [] overlapping)
            (alphaMapTrieToChar (addRanges [] overlapping) n) = n)) ∧
    ∀ n, alphaSize (addRanges [] overlapping) < n.toNat →
      alphaMapTrieToChar (addRanges [] overlapping) n = alphaCharError :=
  alphaMap_numbering overlapping (by decide)

end DnsCache

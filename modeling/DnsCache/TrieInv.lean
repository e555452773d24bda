import DnsCache.Lib.Radix
import DnsCache.AlphaRanges
import DnsCache.DaPrune

/-! # The trie as a dictionary

* `AlphaFits`, `nums`: an alphabet with numbers enough, keys as the trie sees them.
* `TrieInv t D l tl`: double array and tail hold dictionary `D`, with free cells `l` and
  free blocks `tl`.
* `TrieInv.lookup`: where the two loops end that every operation begins with.
* `retrieve_iff`: `trie_retrieve` finds the entries of the dictionary.
-/

namespace DnsCache

open WordTree Radix

/-- An alphabet whose characters have numbers of their own, none of them 255. -/
structure AlphaFits (m : AlphaMap) : Prop where
  sorted : AlphaSorted m
  size : alphaSize m ≤ 254

theorem list2triMap_fits : AlphaFits list2triMap :=
  ⟨⟨by decide, by decide⟩, by decide⟩

/-- A key in numbers. -/
def nums (m : AlphaMap) (key : List UInt32) : List UInt8 := key.map (alphaMapCharToTrie m)

/-- A key that can be stored: a string over the alphabet, short enough for a `suffix_idx`. -/
structure TrieKey (m : AlphaMap) (key : List UInt32) : Prop where
  chars : ∀ c ∈ key, c ≠ 0 ∧ Covers m c
  length : key.length < 32768

/-- A C string in front of its terminator. -/
def ZeroFree (key : List UInt32) : Prop := ∀ c ∈ key, c ≠ 0

/-- What a key is to the trie. -/
structure NumKey (u : List UInt8) : Prop where
  zero : 0 ∉ u
  max : 255 ∉ u
  length : u.length < 32768

/-- What is left of a key behind node `w`, when the tail keeps suffix `σ`: the
terminator may already be on the way to `w`. -/
def Rest (w σ rest : List UInt8) : Prop :=
  if w.getLast? = some 0 then σ = [] ∧ rest = [] else rest = σ ++ [0]

/-- The double array and the tail hold the dictionary. -/
structure TrieInv (t : Trie) (D : Dict UInt8 Int32) (l tl : List Int) : Prop where
  alpha : AlphaFits t.alphaMap
  da : DaInv t.da l
  tail : TailInv t.tail tl
  sound : ∀ {w b}, At t.da.node w b → 0 < b ∧ w ∈ D.inner ∨
    ∃ i σ rest x, b = -i ∧ Uses t.tail tl i σ x ∧ Rest w σ rest ∧ D.leaf w = some (rest, x)
  complete : ∀ {w}, D.Node w → ∃ b, At t.da.node w b
  own : ∀ {w v i}, 1 ≤ i → At t.da.node w (-i) → At t.da.node v (-i) → w = v
  letters : ∀ {w}, w ∈ D.inner → 0 ∉ w
  keys : ∀ {w rest x}, D.leaf w = some (rest, x) → ∃ u, w ++ rest = u ++ [0] ∧ NumKey u
  suffixes : ∀ {b σ}, 0 ≤ b → b < t.tail.numTails → (t.tail.block b).suffix = some σ → NumKey σ
  tight : D.Tight

variable {t : Trie} {D : Dict UInt8 Int32} {l tl : List Int} {w v σ rest : List UInt8}
  {s b i : Int} {x y : Int32} {key p : List UInt32} {m : AlphaMap} {c : UInt32}
  {N : Int → Option DACell}

/-! ## Keys in numbers -/

theorem alphaMapCharToTrie_zero (m : AlphaMap) : alphaMapCharToTrie m 0 = 0 := if_pos rfl

theorem alphaMapCharToTrie_ne_zero (ha : AlphaFits m) (hc : c ≠ 0) : alphaMapCharToTrie m c ≠ 0 := by
  by_cases hcov : Covers m c
  · exact (alphaMapCharToTrie_spec ha.sorted ha.size hcov hc).1
  · rw [alphaMapCharToTrie_foreign hc hcov]
    decide

theorem alphaMapCharToTrie_ne_max (ha : AlphaFits m) (hc : c ≠ 0) :
    alphaMapCharToTrie m c ≠ 255 ↔ Covers m c := by
  constructor
  · intro h
    by_contra hcov
    exact h (alphaMapCharToTrie_foreign hc hcov)
  · intro hcov heq
    have hle := (alphaMapCharToTrie_spec ha.sorted ha.size hcov hc).2.1
    rw [heq] at hle
    have hsize := ha.size
    have : (255 : UInt8).toNat = 255 := rfl
    omega

theorem nums_zero_notMem (ha : AlphaFits m) (hk : ZeroFree key) : 0 ∉ nums m key := by
  intro hmem
  rcases List.mem_map.mp hmem with ⟨c, hc, heq⟩
  exact alphaMapCharToTrie_ne_zero ha (hk c hc) heq

theorem TrieKey.zeroFree (hk : TrieKey m key) : ZeroFree key := fun c hc => (hk.chars c hc).1

theorem TrieKey.numKey (ha : AlphaFits m) (hk : TrieKey m key) : NumKey (nums m key) := by
  refine ⟨nums_zero_notMem ha hk.zeroFree, ?_, by rw [nums, List.length_map]; exact hk.length⟩
  intro hmem
  rcases List.mem_map.mp hmem with ⟨c, hc, heq⟩
  exact (alphaMapCharToTrie_ne_max ha (hk.chars c hc).1).mpr (hk.chars c hc).2 heq

/-- What is left of a key is one. -/
theorem NumKey.drop {u : List UInt8} (hk : NumKey (v ++ u)) : NumKey u := by
  have hlen := hk.length
  rw [List.length_append] at hlen
  exact ⟨fun hm => hk.zero (List.mem_append_right _ hm),
    fun hm => hk.max (List.mem_append_right _ hm), by omega⟩

/-- Only strings over the alphabet have the numbers of a key, each its own. -/
theorem nums_inj {key' : List UInt32} (ha : AlphaFits m) (hk : TrieKey m key) (hk' : ZeroFree key')
    (heq : nums m key' = nums m key) : key' = key := by
  induction key generalizing key' with
  | nil => exact List.map_eq_nil_iff.mp heq
  | cons c key ih =>
      cases key' with
      | nil => cases heq
      | cons c' key' =>
          simp only [nums, List.map_cons, List.cons.injEq] at heq
          rcases hk.chars c List.mem_cons_self with ⟨hc0, hcov⟩
          have hc0' := hk' c' List.mem_cons_self
          have hcov' : Covers m c' := by
            rw [← alphaMapCharToTrie_ne_max ha hc0', heq.1]
            exact (alphaMapCharToTrie_ne_max ha hc0).mpr hcov
          have hcc : c' = c := by
            rw [← (alphaMapCharToTrie_spec ha.sorted ha.size hcov' hc0').2.2, heq.1,
              (alphaMapCharToTrie_spec ha.sorted ha.size hcov hc0).2.2]
          have hlen := hk.length
          rw [List.length_cons] at hlen
          rw [hcc, ih ⟨fun e he => hk.chars e (List.mem_cons_of_mem _ he), by omega⟩
            (fun e he => hk' e (List.mem_cons_of_mem _ he)) heq.2]

theorem alphaMapCharToTrieStr_eq (hp : ZeroFree p) : alphaMapCharToTrieStr m p = nums m p := by
  have hall : p.takeWhile (fun c => decide (c ≠ 0)) = p :=
    List.takeWhile_eq_self_iff.mpr fun c hc => decide_eq_true (hp c hc)
  rw [alphaMapCharToTrieStr, hall, nums]

/-! ## Nodes -/

theorem at_of_path (hg : Good N) (hw : DaPath N w s) : ∃ b, At N w b := by
  rcases hg.node_of_path hw with ⟨c, hc⟩
  exact ⟨c.base, s, c, hw, hc, rfl⟩

/-- The base that the functions read. -/
theorem at_daGetBase {d : DArray} (hg : Good d.node) (hw : DaPath d.node w s) :
    At d.node w (daGetBase d s) := by
  rcases hg.node_of_path hw with ⟨c, hc⟩
  rw [daGetBase_eq hc]
  exact ⟨s, c, hw, hc, rfl⟩

namespace TrieInv

theorem path_of_node (h : TrieInv t D l tl) (hw : D.Node w) : ∃ s, DaPath t.da.node w s := by
  rcases h.complete hw with ⟨b, s, c, hs, -⟩
  exact ⟨s, hs⟩

theorem node_of_path (h : TrieInv t D l tl) (hs : DaPath t.da.node w s) : D.Node w := by
  rcases at_of_path h.da.good hs with ⟨b, hb⟩
  rcases h.sound hb with ⟨-, hw⟩ | ⟨i, σ, rest, x, -, -, -, hleaf⟩
  · exact .inl hw
  · exact .inr (by rw [hleaf]; rfl)

/-- A separate node is a leaf, with a block of the tail. -/
theorem separate (h : TrieInv t D l tl) (hs : DaPath t.da.node w s)
    (hsep : trieDaIsSeparate t.da s = true) :
    ∃ σ rest x, Uses t.tail tl (trieDaGetTailIndex t.da s) σ x ∧ Rest w σ rest ∧
      D.leaf w = some (rest, x) := by
  have hlt : daGetBase t.da s < 0 := of_decide_eq_true hsep
  rcases h.sound (at_daGetBase h.da.good hs) with ⟨hpos, -⟩ | ⟨i, σ, rest, x, hb, hu, hr, hleaf⟩
  · omega
  · refine ⟨σ, rest, x, ?_, hr, hleaf⟩
    rwa [trieDaGetTailIndex, hb, Int.neg_neg]

/-- The others are inner nodes. -/
theorem not_separate (h : TrieInv t D l tl) (hs : DaPath t.da.node w s)
    (hsep : ¬ trieDaIsSeparate t.da s = true) : w ∈ D.inner ∧ 0 < daGetBase t.da s := by
  have hge : ¬ daGetBase t.da s < 0 := fun hlt => hsep (decide_eq_true hlt)
  rcases h.sound (at_daGetBase h.da.good hs) with ⟨hpos, hw⟩ | ⟨i, σ, rest, x, hb, hu, -⟩
  · exact ⟨hw, hpos⟩
  · have := hu.low
    omega

theorem isSeparate_iff (h : TrieInv t D l tl) (hs : DaPath t.da.node w s) :
    trieDaIsSeparate t.da s = true ↔ (D.leaf w).isSome := by
  constructor
  · intro hsep
    rcases h.separate hs hsep with ⟨σ, rest, x, -, -, hleaf⟩
    rw [hleaf]
    rfl
  · intro hleaf
    by_contra hsep
    exact Dict.not_inner_of_leaf hleaf (h.not_separate hs hsep).1

/-- `da_walk` goes to the next node of the dictionary. -/
theorem walk_iff (h : TrieInv t D l tl) (hs : DaPath t.da.node w s) (hw : w ∈ D.inner) {c : UInt8} :
    daWalk t.da s c = some i ↔ DaPath t.da.node (w ++ [c]) i := by
  have hpos : 0 < daGetBase t.da s := by
    refine (h.not_separate hs fun hsep => ?_).2
    exact Dict.not_inner_of_leaf ((h.isSeparate_iff hs).mp hsep) hw
  rcases h.da.good.node_of_path hs with ⟨cs, hcs⟩
  rw [daGetBase_eq hcs] at hpos
  rw [daWalk_iff h.da.free hcs hpos]
  constructor
  · exact fun he => .snoc hs he
  · intro hi
    rcases path_snoc.mp hi with ⟨p, hp, he⟩
    rwa [h.da.good.isTree.node_unique hp hs] at he

theorem walk_none (h : TrieInv t D l tl) (hs : DaPath t.da.node w s) (hw : w ∈ D.inner) {c : UInt8}
    (hnone : daWalk t.da s c = none) : ¬ D.Node (w ++ [c]) := by
  intro hn
  rcases h.path_of_node hn with ⟨i, hi⟩
  rw [(h.walk_iff hs hw).mpr hi] at hnone
  cases hnone

/-- A suffix of the tail is a part of a key. -/
theorem suffix_key (h : TrieInv t D l tl) (hleaf : D.leaf w = some (rest, x)) (hr : Rest w σ rest) :
    NumKey σ := by
  rcases h.keys hleaf with ⟨u, hu, hk⟩
  unfold Rest at hr
  split at hr
  · rw [hr.1]
    exact ⟨List.not_mem_nil, List.not_mem_nil, by decide⟩
  · rw [hr, ← List.append_assoc] at hu
    rcases List.append_inj' hu rfl with ⟨rfl, -⟩
    exact hk.drop

/-- An inner node is no end of a key. -/
theorem inner_getLast (h : TrieInv t D l tl) (hw : w ∈ D.inner) : w.getLast? ≠ some 0 := by
  intro hlast
  exact h.letters hw (List.mem_of_getLast? hlast)

end TrieInv

/-! ## The loops -/

/-- The walk of `key` leaves the tree at node `w`. -/
structure Leaves (t : Trie) (D : Dict UInt8 Int32) (key : List UInt32) (s : Int) (p : List UInt32)
    (w : List UInt8) : Prop where
  suffix : p <:+ key
  path : DaPath t.da.node w s
  inner : w ∈ D.inner
  num : nums t.alphaMap key = w ++ nums t.alphaMap p
  off : ¬ D.Node (w ++ [(nums t.alphaMap p).headD 0])

/-- The walk of `key` comes to the leaf at `w`. -/
structure Reaches (t : Trie) (D : Dict UInt8 Int32) (key : List UInt32) (s : Int) (p : List UInt32)
    (w : List UInt8) : Prop where
  suffix : p <:+ key
  path : DaPath t.da.node w s
  leaf : (D.leaf w).isSome
  num : w.getLast? ≠ some 0 ∧ nums t.alphaMap key = w ++ nums t.alphaMap p ∨
    p = [] ∧ w = nums t.alphaMap key ++ [0]

theorem getLast?_concat_zero : (w ++ [(0 : UInt8)]).getLast? = some 0 := by simp

/-- From any node on the way of a key. -/
theorem branchLoop_spec (h : TrieInv t D l tl) (hs : DaPath t.da.node w s) (hw : 0 ∉ w)
    (hp : ZeroFree p) (hsuf : p <:+ key) (hnum : nums t.alphaMap key = w ++ nums t.alphaMap p) :
    (∃ s' p' w', t.branchLoop s p = .off s' p' ∧ Leaves t D key s' p' w') ∨
      ∃ s' p' w', t.branchLoop s p = .sep s' p' ∧ Reaches t D key s' p' w' := by
  have hlast : w.getLast? ≠ some 0 := fun h0 => hw (List.mem_of_getLast? h0)
  induction p generalizing s w with
  | nil =>
      rw [Trie.branchLoop, alphaMapCharToTrie_zero]
      by_cases hsep : trieDaIsSeparate t.da s = true
      · rw [if_pos hsep]
        exact .inr ⟨s, [], w, rfl, hsuf, hs, (h.isSeparate_iff hs).mp hsep, .inl ⟨hlast, hnum⟩⟩
      · rw [if_neg hsep]
        have hin := (h.not_separate hs hsep).1
        cases hwalk : daWalk t.da s 0 with
        | none => exact .inl ⟨s, [], w, rfl, hsuf, hs, hin, hnum, h.walk_none hs hin hwalk⟩
        | some s' =>
            have hs' := (h.walk_iff hs hin).mp hwalk
            refine .inr ⟨s', [], w ++ [0], rfl, hsuf, hs', ?_, .inr ⟨rfl, ?_⟩⟩
            · -- behind a terminator there is only a leaf
              rcases h.node_of_path hs' with hn | hn
              · exact absurd getLast?_concat_zero (h.inner_getLast hn)
              · exact hn
            · rw [hnum]
              simp [nums]
  | cons c p ih =>
      have hc : c ≠ 0 := hp c List.mem_cons_self
      rw [Trie.branchLoop]
      by_cases hsep : trieDaIsSeparate t.da s = true
      · rw [if_pos hsep]
        exact .inr ⟨s, c :: p, w, rfl, hsuf, hs, (h.isSeparate_iff hs).mp hsep, .inl ⟨hlast, hnum⟩⟩
      · rw [if_neg hsep]
        have hin := (h.not_separate hs hsep).1
        cases hwalk : daWalk t.da s (alphaMapCharToTrie t.alphaMap c) with
        | none => exact .inl ⟨s, c :: p, w, rfl, hsuf, hs, hin, hnum, h.walk_none hs hin hwalk⟩
        | some s' =>
            simp only [if_neg hc]
            have hn0 := alphaMapCharToTrie_ne_zero h.alpha hc
            have hw' : 0 ∉ w ++ [alphaMapCharToTrie t.alphaMap c] := by
              rw [List.mem_append, List.mem_singleton]
              rintro (hm | hm)
              · exact hw hm
              · exact hn0 hm.symm
            refine ih ((h.walk_iff hs hin).mp hwalk) hw' (fun e he => hp e (List.mem_cons_of_mem _ he))
              ((List.suffix_cons c p).trans hsuf) ?_ fun h0 => hw' (List.mem_of_getLast? h0)
            rw [hnum, List.append_assoc]
            rfl

theorem suffixChar_eq (j : Nat) : suffixChar σ j = (σ.drop j).headD 0 := by
  rw [suffixChar, Int.toNat_natCast, List.getD_eq_getElem?_getD, List.headD_eq_head?_getD,
    List.head?_drop]

/-- The walk through a suffix compares it with what is left of the key. -/
theorem tailLoop_eq (ha : AlphaFits t.alphaMap) (hσ : tailGetSuffix t.tail i = some σ)
    (hk : NumKey σ) (hp : ZeroFree p) (j : Nat) (hj : j ≤ σ.length) :
    t.tailLoop i j p = decide (σ.drop j = nums t.alphaMap p) := by
  induction p generalizing j with
  | nil =>
      rw [Trie.tailLoop, alphaMapCharToTrie_zero, tailWalkChar, hσ]
      simp only [suffixChar_eq]
      cases hd : σ.drop j with
      | nil => simp [nums]
      | cons e τ =>
          have he : e ≠ 0 := by
            rintro rfl
            exact hk.zero (List.mem_of_mem_drop (i := j) (by rw [hd]; exact List.mem_cons_self))
          simp [nums, he]
  | cons c p ih =>
      have hc : c ≠ 0 := hp c List.mem_cons_self
      have hn0 := alphaMapCharToTrie_ne_zero ha hc
      rw [Trie.tailLoop, tailWalkChar, hσ]
      simp only [suffixChar_eq]
      cases hd : σ.drop j with
      | nil =>
          have hne : ¬ ((0 : UInt8) = alphaMapCharToTrie t.alphaMap c) := fun heq => hn0 heq.symm
          simp [nums, hne]
      | cons e τ =>
          have he : e ≠ 0 := by
            rintro rfl
            exact hk.zero (List.mem_of_mem_drop (i := j) (by rw [hd]; exact List.mem_cons_self))
          have hlt : j < σ.length := by
            by_contra hge
            rw [List.drop_eq_nil_of_le (by omega)] at hd
            cases hd
          have hτ : τ = σ.drop (j + 1) := by
            rw [← List.drop_drop, hd, List.drop_one, List.tail_cons]
          -- the index fits a `short`
          have hshort : toShort ((j : Int) + 1) = ((j + 1 : Nat) : Int) := by
            have := hk.length
            unfold toShort
            rw [Int.bmod_eq_of_le (by omega) (by omega)]
            rfl
          by_cases hec : e = alphaMapCharToTrie t.alphaMap c
          · simp only [List.headD_cons, if_pos hec, ne_eq, he, not_false_eq_true, if_true, hshort,
              if_neg hc]
            rw [ih (fun a ha => hp a (List.mem_cons_of_mem _ ha)) (j + 1) hlt, ← hτ]
            refine decide_eq_decide.mpr ?_
            simp [nums, hec]
          · simp [nums, hec]

/-- What a walk of the whole key finds. -/
theorem TrieInv.lookup (h : TrieInv t D l tl) (hk : ZeroFree key) :
    (∃ s p w, t.branchLoop daGetRoot key = .off s p ∧ Leaves t D key s p w) ∨
      ∃ s p w σ rest x, t.branchLoop daGetRoot key = .sep s p ∧ Reaches t D key s p w ∧
        Uses t.tail tl (trieDaGetTailIndex t.da s) σ x ∧ Rest w σ rest ∧
        D.leaf w = some (rest, x) ∧
        t.tailLoop (trieDaGetTailIndex t.da s) 0 p = decide (σ = nums t.alphaMap p) := by
  rcases branchLoop_spec h .nil List.not_mem_nil hk (List.suffix_refl key) rfl with
    hoff | ⟨s, p, w, heq, hr⟩
  · exact .inl hoff
  · right
    rcases h.separate hr.path ((h.isSeparate_iff hr.path).mpr hr.leaf) with ⟨σ, rest, x, hu, hrest, hleaf⟩
    have hp : ZeroFree p := fun c hc => hk c (hr.suffix.subset hc)
    refine ⟨s, p, w, σ, rest, x, heq, hr, hu, hrest, hleaf, ?_⟩
    have h0 := tailLoop_eq h.alpha hu.get.1 (h.suffix_key hleaf hrest) hp 0 (Nat.zero_le _)
    rwa [List.drop_zero] at h0

/-- The suffixes agree exactly when the keys do. -/
theorem Reaches.rest_iff (hr : Reaches t D key s p w) (hrest : Rest w σ rest) :
    σ = nums t.alphaMap p ↔ nums t.alphaMap key ++ [0] = w ++ rest := by
  unfold Rest at hrest
  rcases hr.num with ⟨hlast, hnum⟩ | ⟨rfl, hw⟩
  · rw [if_neg hlast] at hrest
    rw [hrest, hnum, List.append_assoc, List.append_right_inj, List.append_left_inj, eq_comm]
  · rw [hw, if_pos getLast?_concat_zero] at hrest
    rw [hrest.1, hrest.2, hw, List.append_nil]
    simp [nums]

/-- `trie_retrieve` finds the entries of the dictionary, and nothing else. -/
theorem retrieve_iff (h : TrieInv t D l tl) (hk : ZeroFree key) :
    t.retrieve key = some x ↔ D.Holds (nums t.alphaMap key ++ [0]) x := by
  rw [Trie.retrieve]
  rcases h.lookup hk with ⟨s, p, w, heq, hl⟩ | ⟨s, p, w, σ, rest, y, heq, hr, hu, hrest, hleaf, htail⟩
  · rw [heq]
    have hnot : ¬ D.Holds (nums t.alphaMap key ++ [0]) x := by
      have hsplit : nums t.alphaMap key ++ [0] = w ++ ((nums t.alphaMap p).headD 0 ::
          (nums t.alphaMap p ++ [0]).tail) := by
        rw [hl.num, List.append_assoc]
        cases nums t.alphaMap p <;> rfl
      rw [hsplit]
      exact Dict.not_holds_off hl.inner hl.off
    simp [hnot]
  · rw [heq]
    simp only [htail, decide_eq_true_eq, hr.rest_iff hrest]
    by_cases hkey : nums t.alphaMap key ++ [0] = w ++ rest
    · rw [if_pos hkey, hkey, Dict.holds_at_leaf hleaf, hu.get.2, Option.some.injEq]
      simp [eq_comm]
    · rw [if_neg hkey]
      have hnot : ¬ D.Holds (nums t.alphaMap key ++ [0]) x := by
        rcases hr.num with ⟨hlast, hnum⟩ | ⟨rfl, hw⟩
        · rw [hnum, List.append_assoc, Dict.holds_at_leaf hleaf]
          rintro ⟨hv, -⟩
          apply hkey
          rw [hnum, List.append_assoc, hv]
        · rw [← hw, ← List.append_nil w, Dict.holds_at_leaf hleaf]
          rintro ⟨hv, -⟩
          apply hkey
          rw [← hw, ← hv, List.append_nil]
      simp [hnot]

end DnsCache

import DnsCache.TrieInv

/-! # Storing a key

* `branchInBranch_spec`: a key that leaves the tree at an inner node gets a leaf there.
* `Common`, `commonLoop_spec`: the branches for what two suffixes have in common.
* `undoBranches_spec`: a node without room for them is as it was before.
* `branchInTail_spec`: a key that leaves the tree inside a suffix.
* `store_spec`: `trie_store_conditionally` on any key.
-/

namespace DnsCache

open WordTree Radix

variable {t t' : Trie} {D : Dict UInt8 Int32} {l tl : List Int} {w v u σ rest suffix : List UInt8}
  {s i : Int} {x y : Int32} {key p : List UInt32} {c : UInt8} {d d' : DArray}

/-! ## A suffix behind its branch -/

/-- What is left of a suffix and its terminator behind the first of them. -/
def afterHead (suffix : List UInt8) : List UInt8 := (suffix ++ [0]).tail

theorem headD_cons_afterHead (suffix : List UInt8) :
    suffix.headD 0 :: afterHead suffix = suffix ++ [0] := by
  cases suffix <;> rfl

theorem pastBranch_eq (h0 : 0 ∉ suffix) : pastBranch suffix = suffix.tail := by
  cases suffix with
  | nil => rfl
  | cons c suffix =>
      have hc : c ≠ 0 := fun heq => h0 (heq ▸ List.mem_cons_self)
      exact if_pos hc

theorem rest_pastBranch (h0 : 0 ∉ suffix) (w : List UInt8) :
    Rest (w ++ [suffix.headD 0]) (pastBranch suffix) (afterHead suffix) := by
  rw [pastBranch_eq h0, Rest, List.getLast?_append_of_ne_nil _ (List.cons_ne_nil _ _),
    List.getLast?_singleton]
  cases suffix with
  | nil => exact ⟨rfl, rfl⟩
  | cons c suffix =>
      have hc : ¬ some c = some 0 := fun heq => h0 (Option.some.inj heq ▸ List.mem_cons_self)
      exact (if_neg hc).mpr rfl

theorem strdup_eq (h0 : 0 ∉ suffix) : strdup suffix = suffix :=
  List.takeWhile_eq_self_iff.mpr fun _ hc => decide_eq_true fun heq => h0 (heq ▸ hc)

theorem strdup_pastBranch (h0 : 0 ∉ suffix) : strdup (pastBranch suffix) = pastBranch suffix := by
  rw [pastBranch_eq h0]
  exact strdup_eq fun hm => h0 (List.mem_of_mem_tail hm)

theorem NumKey.pastBranch (hk : NumKey suffix) : NumKey (pastBranch suffix) := by
  rw [pastBranch_eq hk.zero]
  cases suffix with
  | nil => exact hk
  | cons c suffix => exact hk.drop (v := [c])

/-- The blocks hold parts of keys when one of them is changed. -/
theorem NumKey.blocks {tail tail' : Tail} {b₀ n : Int} (hk : NumKey suffix)
    (hold : ∀ {b σ}, 0 ≤ b → b < tail.numTails → (tail.block b).suffix = some σ → NumKey σ)
    (hnew : (tail'.block b₀).suffix = some suffix)
    (hblock : ∀ b, 0 ≤ b → b ≠ b₀ → b < n → b < tail.numTails ∧ tail'.block b = tail.block b)
    {b : Int} (hb : 0 ≤ b) (hn : b < n) (hσ : (tail'.block b).suffix = some σ) : NumKey σ := by
  by_cases heq : b = b₀
  · rw [heq, hnew] at hσ
    cases hσ
    exact hk
  · rcases hblock b hb heq hn with ⟨hlt, hsame⟩
    exact hold hb hlt (hsame ▸ hσ)

/-! ## The same nodes -/

/-- An array with the same words and bases. -/
theorem TrieInv.sameAt (h : TrieInv t D l tl) {l' : List Int} (hda : DaInv d' l')
    (hat : ∀ w b, At d'.node w b ↔ At t.da.node w b) : TrieInv { t with da := d' } D l' tl where
  alpha := h.alpha
  da := hda
  tail := h.tail
  sound := fun hb => h.sound ((hat _ _).mp hb)
  complete := fun hw => by
    rcases h.complete hw with ⟨b, hb⟩
    exact ⟨b, (hat _ _).mpr hb⟩
  own := fun hi hw hv => h.own hi ((hat _ _).mp hw) ((hat _ _).mp hv)
  letters := h.letters
  keys := h.keys
  suffixes := h.suffixes
  tight := h.tight

theorem TrieInv.sameNode (h : TrieInv t D l tl) {l' : List Int} (hda : DaInv d' l')
    (hnode : d'.node = t.da.node) : TrieInv { t with da := d' } D l' tl :=
  h.sameAt hda fun w b => by rw [hnode]

/-- The flag says nothing about the entries. -/
theorem TrieInv.setDirty (h : TrieInv t D l tl) (b : Bool) : TrieInv { t with isDirty := b } D l tl :=
  ⟨h.alpha, h.da, h.tail, h.sound, h.complete, h.own, h.letters, h.keys, h.suffixes, h.tight⟩

/-- The block of a node. -/
theorem TrieInv.block_eq (h : TrieInv t D l tl) (hw : At t.da.node w (-i)) (hi : 1 ≤ i) :
    ∃ σ rest x, Uses t.tail tl i σ x ∧ Rest w σ rest ∧ D.leaf w = some (rest, x) := by
  rcases h.sound hw with ⟨hpos, -⟩ | ⟨j, σ, rest, x, hb, hu, hr, hleaf⟩
  · omega
  · have hij : i = j := by omega
    subst hij
    exact ⟨σ, rest, x, hu, hr, hleaf⟩

/-! ## A branch in a branch -/

/-- A new leaf with a block of its own. -/
theorem TrieInv.addLeaf (h : TrieInv t D l tl) {l' : List Int} {tail' : Tail} {index bv : Int}
    {hv : v ∈ D.inner} {hnew : ¬ D.Node (v ++ [suffix.headD 0])} (hk : NumKey (v ++ suffix))
    (hda : DaInv d' l') (htail : TailInv tail' tl.tail) (hbv : 0 < bv)
    (hat : ∀ w b, At d'.node w b ↔ if w = v ++ [suffix.headD 0] then b = -index
      else if w = v then b = bv else At t.da.node w b)
    (hu : Uses tail' tl.tail index (pastBranch suffix) x)
    (hindex : index - tailStartBlockno ∈ tl ∨ index = t.tail.numTails + 1)
    (hsize : tail'.numTails = max t.tail.numTails index)
    (hblock : ∀ b, 0 ≤ b → b ≠ index - tailStartBlockno → b < t.tail.numTails →
      tail'.block b = t.tail.block b) :
    TrieInv { t with da := d', tail := tail' }
      (D.addLeaf v (suffix.headD 0) (afterHead suffix, x) hv hnew) l' tl.tail := by
  have h0 : 0 ∉ suffix := fun hm => hk.zero (List.mem_append_right _ hm)
  have hvc : v ≠ v ++ [suffix.headD 0] := by simp
  have hindex1 := hu.low
  -- blocks in use stay as they are
  have hframe : ∀ {j σ y}, Uses t.tail tl j σ y → j ≠ index ∧ Uses tail' tl.tail j σ y := by
    intro j σ y hj
    have hlow := hj.low
    have hhigh := hj.high
    have hne : j ≠ index := by
      rintro rfl
      rcases hindex with hmem | heq
      · exact hj.used hmem
      · omega
    have hlt : j - tailStartBlockno < t.tail.numTails := by
      unfold tailStartBlockno
      omega
    have h0j : 0 ≤ j - tailStartBlockno := by
      unfold tailStartBlockno
      omega
    have hnej : j - tailStartBlockno ≠ index - tailStartBlockno := by omega
    exact ⟨hne, hj.frame (by omega) (.inl (hblock _ h0j hnej hlt))
      fun hm => hj.used (List.mem_of_mem_tail hm)⟩
  refine ⟨h.alpha, hda, htail, ?_, ?_, ?_, h.letters, ?_, ?_, Dict.addLeaf_tight h.tight⟩
  · intro w b hb
    rw [hat] at hb
    split at hb
    · rename_i hw
      refine .inr ⟨index, _, afterHead suffix, x, hb, hu, hw ▸ rest_pastBranch h0 v, ?_⟩
      rw [hw, Dict.addLeaf_leaf, Function.update_self]
    · rename_i hw
      split at hb
      · rename_i hwv
        exact .inl ⟨by omega, hwv ▸ hv⟩
      · rcases h.sound hb with hin | ⟨j, σ, rest, y, hbj, hj, hr, hleaf⟩
        · exact .inl hin
        · refine .inr ⟨j, σ, rest, y, hbj, (hframe hj).2, hr, ?_⟩
          rw [Dict.addLeaf_leaf, Function.update_of_ne hw, hleaf]
  · intro w hw
    rcases Dict.node_addLeaf.mp hw with hold | rfl
    · by_cases hwv : w = v
      · exact ⟨bv, (hat w bv).mpr (by rw [hwv, if_neg hvc, if_pos rfl])⟩
      · have hwc : w ≠ v ++ [suffix.headD 0] := by
          rintro rfl
          exact hnew hold
        rcases h.complete hold with ⟨b, hb⟩
        exact ⟨b, (hat w b).mpr (by rwa [if_neg hwc, if_neg hwv])⟩
    · exact ⟨-index, (hat _ _).mpr (by rw [if_pos rfl])⟩
  · intro w w' j hj hw hw'
    have hcase : ∀ {w}, At d'.node w (-j) →
        w = v ++ [suffix.headD 0] ∧ j = index ∨ j ≠ index ∧ At t.da.node w (-j) := by
      intro w hw
      rw [hat] at hw
      split at hw
      · exact .inl ⟨‹_›, by omega⟩
      · split at hw
        · omega
        · rcases h.block_eq hw hj with ⟨σ, rest, y, huj, -⟩
          exact .inr ⟨(hframe huj).1, hw⟩
    rcases hcase hw with ⟨rfl, hji⟩ | ⟨hji, hw⟩
    · rcases hcase hw' with ⟨rfl, -⟩ | ⟨hji', -⟩
      · rfl
      · exact absurd hji hji'
    · rcases hcase hw' with ⟨-, hji'⟩ | ⟨-, hw'⟩
      · exact absurd hji' hji
      · exact h.own hj hw hw'
  · intro w rest y hleaf
    by_cases hw : w = v ++ [suffix.headD 0]
    · rw [hw, Dict.addLeaf_leaf, Function.update_self] at hleaf
      cases hleaf
      refine ⟨v ++ suffix, ?_, hk⟩
      rw [hw, List.append_assoc, List.singleton_append, headD_cons_afterHead, List.append_assoc]
    · rw [Dict.addLeaf_leaf, Function.update_of_ne hw] at hleaf
      exact h.keys hleaf
  · refine hk.drop.pastBranch.blocks h.suffixes hu.suffix fun b hb hne hlt => ?_
    have hlt' : b < t.tail.numTails := by
      have hmax : b < tail'.numTails := hlt
      rcases hindex with hmem | heq
      · have := (h.tail.bounds _ hmem).2
        unfold tailStartBlockno at this
        omega
      · unfold tailStartBlockno at hne
        omega
    exact ⟨hlt', hblock b hb hne hlt'⟩

/-- A node without a base has no child. -/
theorem At.not_edge {N : Int → Option DACell} {b : Int} (hg : Good N) (hb : At N w b) (hle : b ≤ 0)
    (hs : DaPath N w s) (c : UInt8) (i : Int) : ¬ Edge N s c i := by
  rcases hb with ⟨s', cs, hs', hcs, rfl⟩
  rw [hg.isTree.node_unique hs hs']
  exact not_edge_of_base hcs hle

/-- The end of a path that is not empty is not the root. -/
theorem ne_root_of_path {N : Int → Option DACell} (hg : Good N) (hs : DaPath N w s) (hw : w ≠ []) :
    s ≠ daGetRoot := by
  rintro rfl
  exact hw (hg.isTree.word_unique hs .nil)

/-- A branch that is missing at an inner node, and the rest of the key in a block. -/
theorem branchInBranch_spec (h : TrieInv t D l tl) (hs : DaPath t.da.node v s) (hv : v ∈ D.inner)
    (hnew : ¬ D.Node (v ++ [suffix.headD 0])) (hk : NumKey (v ++ suffix)) (x : Int32) :
    ∃ r t' l' tl', t.branchInBranch s suffix x = (r, t') ∧ t'.alphaMap = t.alphaMap ∧
      (r = false → TrieInv t' D l' tl') ∧
      (r = true → TrieInv t' (D.addLeaf v (suffix.headD 0) (afterHead suffix, x) hv hnew) l' tl') ∧
      (max t.da.numCells 258 + 256 < trieIndexMax →
        r = true ∧ t'.da.numCells ≤ max t.da.numCells 258 + 256) := by
  have h0 : 0 ∉ suffix := fun hm => hk.zero (List.mem_append_right _ hm)
  have hc : suffix.headD 0 ≠ 255 := by
    cases suffix with
    | nil => decide
    | cons c suffix => exact fun heq => hk.max (List.mem_append_right _ (heq ▸ List.mem_cons_self))
  have hedge : ∀ i, ¬ Edge t.da.node s (suffix.headD 0) i := fun i he =>
    hnew (h.node_of_path (.snoc hs he))
  rcases daInsertBranch_spec h.da hs hc hedge with ⟨next, d₁, l₁, heq, hres⟩
  rw [Trie.branchInBranch, heq]
  by_cases hnext : next = trieIndexError
  · simp only [if_pos hnext]
    refine ⟨_, _, l₁, tl, rfl, rfl, fun _ => h.sameNode hres.inv (hres.failed hnext), ?_, ?_⟩
    · intro hr
      cases hr
    · intro hsize
      exact absurd hnext (hres.size hsize).1
  · simp only [if_neg hnext]
    rcases tailAdd_spec h.tail (pastBranch suffix) x with
      ⟨index, t₁, tail', hadd, hset, htail, hu, hn, hindex, hblock⟩
    rw [strdup_pastBranch h0] at hu
    have hins := hres.inserted hnext
    rcases hins.inner with ⟨bv, hbv, hatv⟩
    rcases hins.leaf with ⟨bc, hbc, hatc⟩
    have hindex1 := hu.low
    rcases hres.inv.setLeaf hins.child (ne_root_of_path hres.inv.good hins.child (by simp))
      (hatc.not_edge hres.inv.good hbc hins.child) (by omega : -index ≤ 0) with ⟨hda, -, hat⟩
    refine ⟨_, _, l₁, tl.tail, rfl, rfl, ?_, ?_, ?_⟩
    · intro hr
      cases hr
    · intro _
      rw [hadd]
      simp only [hset]
      refine (h.addLeaf hk hda htail hbv ?_ hu hindex hn hblock).setDirty true
      intro w b
      rw [hat]
      split
      · rfl
      · rename_i hwc
        split
        · rename_i hwv
          rw [hwv]
          exact ⟨fun hb => hres.inv.good.at_unique hb hatv, fun hb => hb ▸ hatv⟩
        · rename_i hwv
          exact hins.other w b hwv hwc
    · intro hsize
      refine ⟨rfl, ?_⟩
      rw [hadd]
      simp only [trieDaSetTailIndex, numCells_daSetBase]
      exact (hres.size hsize).2

/-! ## What two suffixes have in common -/

/-- The branches for `u` under the leaf at `v`, with `s` the last of them. -/
structure Common (d : DArray) (v : List UInt8) (sepNode : Int) (u : List UInt8) (d' : DArray)
    (s : Int) : Prop where
  inv : ∃ l', DaInv d' l'
  sep : DaPath d'.node v sepNode
  path : DaPath d'.node (v ++ u) s
  inner : ∀ a e, a ++ [e] <+: u → ∃ b, 0 < b ∧ At d'.node (v ++ a) b
  last : ∃ b, b ≤ 0 ∧ At d'.node (v ++ u) b
  other : ∀ w b, (¬ ∃ a, a <+: u ∧ w = v ++ a) → (At d'.node w b ↔ At d.node w b)

theorem Common.refl (h : DaInv d l) (hs : DaPath d.node v s) {b : Int} (hb : b ≤ 0)
    (hat : At d.node v b) : Common d v s [] d s := by
  refine ⟨⟨l, h⟩, hs, by rwa [List.append_nil], ?_, ⟨b, hb, by rwa [List.append_nil]⟩, fun _ _ _ => .rfl⟩
  intro a e hpre
  have hlen := hpre.length_le
  simp at hlen

/-- One branch more. -/
theorem Common.step {sepNode : Int} (h : Common d v sepNode u d' s) (hc : c ≠ 255) :
    ∃ next d'', daInsertBranch d' s c = (next, d'') ∧
      (next = trieIndexError → Common d v sepNode u d'' s) ∧
      (next ≠ trieIndexError → Common d v sepNode (u ++ [c]) d'' next) ∧
      (max d'.numCells 258 + 256 < trieIndexMax →
        next ≠ trieIndexError ∧ d''.numCells ≤ max d'.numCells 258 + 256) := by
  rcases h.inv with ⟨l', hinv⟩
  rcases h.last with ⟨b, hb, hat⟩
  rcases daInsertBranch_spec hinv h.path hc fun i => hat.not_edge hinv.good hb h.path c i with
    ⟨next, d'', l'', heq, hres⟩
  refine ⟨next, d'', heq, ?_, ?_, hres.size⟩
  · intro hnext
    have hnode := hres.failed hnext
    exact ⟨⟨l'', hres.inv⟩, hnode ▸ h.sep, hnode ▸ h.path, hnode ▸ h.inner, hnode ▸ h.last,
      hnode ▸ h.other⟩
  · intro hnext
    have hins := hres.inserted hnext
    have hassoc : v ++ (u ++ [c]) = v ++ u ++ [c] := (List.append_assoc ..).symm
    refine ⟨⟨l'', hres.inv⟩, hins.stay v sepNode (List.prefix_append _ _) h.sep, hassoc ▸ hins.child,
      ?_, hassoc ▸ hins.leaf, ?_⟩
    · intro a e hpre
      rcases List.prefix_concat_iff.mp hpre with heq | hpre
      · rcases List.append_inj' heq rfl with ⟨rfl, -⟩
        exact hins.inner
      · rcases h.inner a e hpre with ⟨b', hb', hat'⟩
        have hlen := hpre.length_le
        rw [List.length_append, List.length_singleton] at hlen
        refine ⟨b', hb', (hins.other _ _ ?_ ?_).mpr hat'⟩
        · intro heq
          rw [List.append_cancel_left heq] at hlen
          omega
        · rw [List.append_assoc]
          intro heq
          rw [List.append_cancel_left heq, List.length_append, List.length_singleton] at hlen
          omega
    · intro w b' hnot
      rw [hins.other w b', h.other w b']
      · rintro ⟨a, ha, rfl⟩
        exact hnot ⟨a, ha.trans (List.prefix_append _ _), rfl⟩
      · rintro rfl
        exact hnot ⟨u, List.prefix_append _ _, rfl⟩
      · rintro rfl
        exact hnot ⟨u ++ [c], List.prefix_rfl, hassoc.symm⟩

/-- The loop stops where the suffixes differ, unless a branch finds no room. -/
theorem commonLoop_spec {sepNode : Int} (h : Common d v sepNode u d' s) (hσ : NumKey σ)
    (h0 : 0 ∉ suffix) (hne : σ ≠ suffix) :
    (∃ a d'' s', commonLoop d' s σ suffix = .failed d'' s' ∧ Common d v sepNode (u ++ a) d'' s' ∧
      trieIndexMax ≤ max d'.numCells 258 + 256 * suffix.length) ∨
    ∃ a p q d'' s', commonLoop d' s σ suffix = .differ d'' s' p q ∧ σ = a ++ p ∧ suffix = a ++ q ∧
      p.headD 0 ≠ q.headD 0 ∧ Common d v sepNode (u ++ a) d'' s' ∧
      (max d'.numCells 258 + 256 * a.length < trieIndexMax →
        d''.numCells ≤ max d'.numCells 258 + 256 * a.length) := by
  induction σ generalizing suffix u d' s with
  | nil =>
      right
      cases suffix with
      | nil => exact absurd rfl hne
      | cons e suffix =>
          refine ⟨[], [], e :: suffix, d', s, rfl, rfl, rfl, ?_, by rwa [List.append_nil], fun _ => ?_⟩
          · rintro (heq : 0 = e)
            exact h0 (heq ▸ List.mem_cons_self)
          · simp only [List.length_nil]
            omega
  | cons c σ ih =>
      have hc0 : c ≠ 0 := fun heq => hσ.zero (heq ▸ List.mem_cons_self)
      have hc : c ≠ 255 := fun heq => hσ.max (heq ▸ List.mem_cons_self)
      have hlen := hσ.length
      rw [List.length_cons] at hlen
      have hσ' : NumKey σ := ⟨fun hm => hσ.zero (List.mem_cons_of_mem _ hm),
        fun hm => hσ.max (List.mem_cons_of_mem _ hm), by omega⟩
      have hstop : ∀ {q : List UInt8}, suffix = q → c ≠ q.headD 0 →
          commonLoop d' s (c :: σ) suffix = .differ d' s (c :: σ) q →
          ∃ a p q d'' s', commonLoop d' s (c :: σ) suffix = .differ d'' s' p q ∧ c :: σ = a ++ p ∧
            suffix = a ++ q ∧ p.headD 0 ≠ q.headD 0 ∧ Common d v sepNode (u ++ a) d'' s' ∧
            (max d'.numCells 258 + 256 * a.length < trieIndexMax →
              d''.numCells ≤ max d'.numCells 258 + 256 * a.length) := by
        intro q hq hhead heq
        refine ⟨[], c :: σ, q, d', s, heq, rfl, hq, hhead, by rwa [List.append_nil], fun _ => ?_⟩
        simp only [List.length_nil]
        omega
      cases suffix with
      | nil => exact .inr (hstop rfl hc0 rfl)
      | cons e suffix =>
          by_cases hce : c = e
          · subst hce
            rcases h.step hc with ⟨next, d'', heq, hfail, hok, hsize⟩
            rw [commonLoop, if_pos rfl, heq]
            by_cases hnext : next = trieIndexError
            · left
              simp only [if_pos hnext]
              refine ⟨[], d'', s, rfl, by rw [List.append_nil]; exact hfail hnext, ?_⟩
              by_contra hlt
              rw [List.length_cons] at hlt
              exact (hsize (by omega)).1 hnext
            · simp only [if_neg hnext]
              rcases ih (hok hnext) hσ' (fun hm => h0 (List.mem_cons_of_mem _ hm))
                (fun heq => hne (by rw [heq])) with
                ⟨a, d₃, s₃, heq₃, hcom, hroom⟩ | ⟨a, p, q, d₃, s₃, heq₃, rfl, rfl, hhead, hcom, hroom⟩
              · left
                refine ⟨c :: a, d₃, s₃, heq₃, by rwa [List.append_assoc] at hcom, ?_⟩
                by_contra hlt
                rw [List.length_cons] at hlt
                have := (hsize (by omega)).2
                omega
              · right
                refine ⟨c :: a, p, q, d₃, s₃, heq₃, rfl, rfl, hhead, by rwa [List.append_assoc] at hcom, ?_⟩
                intro hlt
                rw [List.length_cons] at hlt ⊢
                have := (hsize (by omega)).2
                have := hroom (by omega)
                omega
          · refine .inr (hstop rfl hce ?_)
            rw [commonLoop, if_neg hce]

/-- Nothing is below a leaf. -/
theorem TrieInv.not_at_below (h : TrieInv t D l tl) (hleaf : (D.leaf v).isSome) (hu : u ≠ []) {b : Int} :
    ¬ At t.da.node (v ++ u) b := by
  rintro ⟨s', c, hs', -⟩
  exact Dict.not_node_append hleaf hu (h.node_of_path hs')

/-- The way back: the branches are pruned, the separate node gets its block again. -/
theorem undoBranches_spec (h : TrieInv t D l tl) {sepNode : Int} (hat : At t.da.node v (-i))
    (hi : 1 ≤ i) (hleaf : (D.leaf v).isSome) (hc : Common t.da v sepNode u d s) :
    ∃ l', TrieInv (t.undoBranches d sepNode s i).2 D l' tl := by
  rcases hc.inv with ⟨l₁, hinv⟩
  have hv : v ≠ [] := by
    rintro rfl
    exact Dict.not_inner_of_leaf hleaf D.nil_mem
  rcases daPruneUpto_spec hinv hc.sep hc.path with ⟨u₀, u₁, l₂, hu, hinv₂, hpr, hstop⟩
  have hbelow : ∀ {a e}, ¬ a ++ [e] <+: u → ¬ ∃ r, DaPath d.node (v ++ (a ++ [e])) r := by
    rintro a e hpre ⟨r, hr⟩
    rcases at_of_path hinv.good hr with ⟨b, hb⟩
    rw [hc.other] at hb
    · exact h.not_at_below hleaf (by simp) hb
    · rintro ⟨a', ha', heq⟩
      exact hpre (List.append_cancel_left heq ▸ ha')
  -- all of them go
  have hu₀ : u₀ = [] := by
    refine hstop.resolve_right ?_
    rintro ⟨e, r, hr⟩
    rcases (hpr.path _ _).mp hr with ⟨hr, hnot⟩
    rw [List.append_assoc] at hr
    by_cases hpre : u₀ ++ [e] <+: u
    · apply hnot
      rw [hu, List.prefix_append_right_inj] at hpre
      exact ⟨[e], List.cons_ne_nil _ _, hpre, rfl⟩
    · exact hbelow hpre ⟨r, hr⟩
  subst hu₀
  rw [List.append_nil] at hpr
  rw [List.nil_append] at hu
  subst hu
  generalize hd₂ : daPruneUpto d sepNode s = d₂ at *
  have hsep : DaPath d₂.node v sepNode := by
    refine (hpr.path _ _).mpr ⟨hc.sep, ?_⟩
    rintro ⟨a, ha, -, heq⟩
    exact ha (List.append_right_eq_self.mp heq.symm)
  have hnoedge : ∀ e j, ¬ Edge d₂.node sepNode e j := by
    intro e j he
    rcases (hpr.path _ _).mp (.snoc hsep he) with ⟨hr, hnot⟩
    by_cases hpre : [e] <+: u
    · exact hnot ⟨[e], List.cons_ne_nil _ _, hpre, rfl⟩
    · exact hbelow (a := []) hpre ⟨j, hr⟩
  rcases hinv₂.setLeaf hsep (ne_root_of_path hinv₂.good hsep hv) hnoedge (by omega : -i ≤ 0) with
    ⟨hda, -, hat₃⟩
  refine ⟨l₂, ?_⟩
  rw [Trie.undoBranches, hd₂]
  refine h.sameAt hda fun w b => ?_
  show At (daSetBase d₂ sepNode (-i)).node w b ↔ _
  rw [hat₃]
  split
  · rename_i hwv
    rw [hwv]
    exact ⟨fun hb => hb ▸ hat, fun hb => h.da.good.at_unique hb hat⟩
  · rename_i hwv
    have hpruned : At d₂.node w b ↔ At d.node w b ∧ ¬ ∃ a, a ≠ [] ∧ a <+: u ∧ w = v ++ a := by
      constructor
      · rintro ⟨r, cr, hr, hcr, rfl⟩
        rcases (hpr.path w r).mp hr with ⟨hr', hnot⟩
        exact ⟨⟨r, cr, hr', (hpr.node w r hr).symm.trans hcr, rfl⟩, hnot⟩
      · rintro ⟨⟨r, cr, hr, hcr, rfl⟩, hnot⟩
        have hr' := (hpr.path w r).mpr ⟨hr, hnot⟩
        exact ⟨r, cr, hr', (hpr.node w r hr').trans hcr, rfl⟩
    rw [hpruned]
    by_cases hway : ∃ a, a <+: u ∧ w = v ++ a
    · rcases hway with ⟨a, ha, rfl⟩
      have ha0 : a ≠ [] := by
        rintro rfl
        exact hwv (List.append_nil v)
      exact iff_of_false (fun hb => hb.2 ⟨a, ha0, ha, rfl⟩) (h.not_at_below hleaf ha0)
    · rw [hc.other w b hway]
      refine and_iff_left ?_
      rintro ⟨a, -, ha, rfl⟩
      exact hway ⟨a, ha, rfl⟩

/-! ## A branch in the tail -/

/-- The leaf at `v` goes down to where its suffix differs. -/
theorem TrieInv.split (h : TrieInv t D l tl) {sepNode : Int} {l' : List Int} {tail' : Tail}
    {q : List UInt8} (hat : At t.da.node v (-i)) (hu : Uses t.tail tl i σ y) (hσ : σ = u ++ q)
    (hlast : v.getLast? ≠ some 0) (hleaf : D.leaf v = some (u ++ q.headD 0 :: afterHead q, y))
    (hc : Common t.da v sepNode (u ++ [q.headD 0]) d s) (hda : DaInv d' l')
    (hat' : ∀ w b, At d'.node w b ↔ if w = v ++ u ++ [q.headD 0] then b = -i else At d.node w b)
    (htail : TailInv tail' tl) (hu' : Uses tail' tl i (pastBranch q) y)
    (hn : tail'.numTails = t.tail.numTails)
    (hblock : ∀ b, 0 ≤ b → b ≠ i - tailStartBlockno → tail'.block b = t.tail.block b) :
    TrieInv { t with da := d', tail := tail' }
      (D.split v u (q.headD 0) (afterHead q, y) hleaf) l' tl := by
  have hsome : (D.leaf v).isSome := by rw [hleaf]; rfl
  have hi := hu.low
  rcases h.keys hleaf with ⟨k, hk, hkey⟩
  have hkeq : k = v ++ σ := by
    rw [headD_cons_afterHead, ← List.append_assoc, ← List.append_assoc] at hk
    rw [hσ, ← List.append_assoc]
    exact (List.append_inj' hk rfl).1.symm
  have h0 : 0 ∉ v ++ σ := hkeq ▸ hkey.zero
  have h0q : 0 ∉ q := fun hm => h0 (List.mem_append_right _ (hσ ▸ List.mem_append_right _ hm))
  rcases hc.inv with ⟨l₁, hinv⟩
  have hassoc : v ++ (u ++ [q.headD 0]) = v ++ u ++ [q.headD 0] := (List.append_assoc ..).symm
  have hne : ∀ {a}, a <+: u → v ++ a ≠ v ++ u ++ [q.headD 0] := by
    intro a ha heq
    rw [List.append_assoc] at heq
    have hlen := ha.length_le
    rw [List.append_cancel_left heq, List.length_append, List.length_singleton] at hlen
    omega
  -- the nodes above the new place
  have hup : ∀ {a}, a <+: u → ∃ b, 0 < b ∧ At d.node (v ++ a) b := by
    rintro a ⟨a', rfl⟩
    cases a' with
    | nil => exact hc.inner a (q.headD 0) (by rw [List.append_nil])
    | cons e a' => exact hc.inner a e ⟨a' ++ [q.headD 0], by simp⟩
  have hold : ∀ {w b}, w ≠ v ++ u ++ [q.headD 0] → (¬ ∃ a, a <+: u ∧ w = v ++ a) →
      (At d'.node w b ↔ At t.da.node w b) := by
    intro w b hw hnot
    rw [hat', if_neg hw, hc.other w b]
    rintro ⟨a, ha, rfl⟩
    rcases List.prefix_concat_iff.mp ha with rfl | ha
    · exact hw hassoc
    · exact hnot ⟨a, ha, rfl⟩
  have hframe : ∀ {j σ x w}, At t.da.node w (-j) → w ≠ v → Uses t.tail tl j σ x → Uses tail' tl j σ x := by
    intro j σ x w hw hwv hj
    have hlow := hj.low
    have hji : j ≠ i := by
      rintro rfl
      exact hwv (h.own hlow hw hat)
    refine hj.frame (by omega) (.inl (hblock _ ?_ ?_)) hj.used
    · unfold tailStartBlockno
      omega
    · omega
  refine ⟨h.alpha, hda, htail, ?_, ?_, ?_, ?_, ?_, ?_, Dict.split_tight h.tight⟩
  · intro w b hb
    by_cases hw : w = v ++ u ++ [q.headD 0]
    · rw [hat', if_pos hw] at hb
      refine .inr ⟨i, _, afterHead q, y, hb, hu', hw ▸ rest_pastBranch h0q _, ?_⟩
      rw [hw, Dict.split_leaf, Function.update_self]
    · by_cases hway : ∃ a, a <+: u ∧ w = v ++ a
      · rcases hway with ⟨a, ha, rfl⟩
        rcases hup ha with ⟨b', hb', hab⟩
        rw [hat', if_neg hw] at hb
        rw [hinv.good.at_unique hb hab]
        exact .inl ⟨hb', .inr ⟨a, ha, rfl⟩⟩
      · have hwv : w ≠ v := by
          rintro rfl
          exact hway ⟨[], List.nil_prefix, (List.append_nil _).symm⟩
        have hb' := (hold hw hway).mp hb
        rcases h.sound hb' with ⟨hpos, hin⟩ | ⟨j, σ', rest, x, hbj, hj, hr, hl⟩
        · exact .inl ⟨hpos, .inl hin⟩
        · refine .inr ⟨j, σ', rest, x, hbj, hframe (hbj ▸ hb') hwv hj, hr, ?_⟩
          rw [Dict.split_leaf, Function.update_of_ne hw, Function.update_of_ne hwv, hl]
  · intro w hw
    by_cases hwc : w = v ++ u ++ [q.headD 0]
    · exact ⟨-i, (hat' _ _).mpr (if_pos hwc ▸ rfl)⟩
    · by_cases hway : ∃ a, a <+: u ∧ w = v ++ a
      · rcases hway with ⟨a, ha, rfl⟩
        rcases hup ha with ⟨b, -, hb⟩
        exact ⟨b, (hat' _ _).mpr (by rwa [if_neg hwc])⟩
      · have hwn : D.Node w := by
          rcases hw with (hw | hw) | hw
          · exact .inl hw
          · exact absurd hw hway
          · rw [Dict.split_leaf, Function.update_of_ne hwc] at hw
            by_cases hwv : w = v
            · exact .inr (hwv ▸ hsome)
            · rw [Function.update_of_ne hwv] at hw
              exact .inr hw
        rcases h.complete hwn with ⟨b, hb⟩
        exact ⟨b, (hold hwc hway).mpr hb⟩
  · intro w w' j hj hw hw'
    have hcase : ∀ {w}, At d'.node w (-j) → w = v ++ u ++ [q.headD 0] ∧ j = i ∨
        j ≠ i ∧ At t.da.node w (-j) := by
      intro w hw
      by_cases hwc : w = v ++ u ++ [q.headD 0]
      · rw [hat', if_pos hwc] at hw
        exact .inl ⟨hwc, by omega⟩
      · by_cases hway : ∃ a, a <+: u ∧ w = v ++ a
        · rcases hway with ⟨a, ha, rfl⟩
          rcases hup ha with ⟨b, hb, hab⟩
          rw [hat', if_neg hwc] at hw
          have := hinv.good.at_unique hw hab
          omega
        · have hw₀ := (hold hwc hway).mp hw
          refine .inr ⟨?_, hw₀⟩
          rintro rfl
          rw [h.own hj hw₀ hat] at hway
          exact hway ⟨[], List.nil_prefix, (List.append_nil _).symm⟩
    rcases hcase hw with ⟨rfl, hji⟩ | ⟨hji, hw⟩
    · rcases hcase hw' with ⟨rfl, -⟩ | ⟨hji', -⟩
      · rfl
      · exact absurd hji hji'
    · rcases hcase hw' with ⟨-, hji'⟩ | ⟨-, hw'⟩
      · exact absurd hji' hji
      · exact h.own hj hw hw'
  · rintro w (hw | ⟨a, ha, rfl⟩)
    · exact h.letters hw
    · intro hm
      apply h0
      rcases List.mem_append.mp hm with hm | hm
      · exact List.mem_append_left _ hm
      · rw [hσ]
        exact List.mem_append_right _ (List.mem_append_left _ (ha.subset hm))
  · intro w rest x hl
    rw [Dict.split_leaf] at hl
    by_cases hwc : w = v ++ u ++ [q.headD 0]
    · rw [hwc, Function.update_self] at hl
      cases hl
      refine ⟨k, ?_, hkey⟩
      rw [hwc, ← hk]
      simp only [List.append_assoc, List.singleton_append]
    · rw [Function.update_of_ne hwc] at hl
      by_cases hwv : w = v
      · rw [hwv, Function.update_self] at hl
        cases hl
      · rw [Function.update_of_ne hwv] at hl
        exact h.keys hl
  · rw [hkeq, hσ] at hkey
    exact hkey.drop.drop.pastBranch.blocks h.suffixes hu'.suffix fun b hb hne hlt =>
      ⟨hn ▸ hlt, hblock b hb hne⟩

/-- The room that `k` branches need at most. -/
def RoomFor (d : DArray) (k : Nat) : Prop := max d.numCells 258 + 256 * k < trieIndexMax

/-- A key that leaves the tree inside a suffix: the branches for what the two have in
common, then one for each. -/
theorem branchInTail_spec (h : TrieInv t D l tl) (hs : DaPath t.da.node v s)
    (hu : Uses t.tail tl (trieDaGetTailIndex t.da s) σ y) (hrest : Rest v σ rest)
    (hleaf : D.leaf v = some (rest, y)) (hlast : v.getLast? ≠ some 0) (hk : NumKey (v ++ suffix))
    (hne : σ ≠ suffix) (x : Int32) :
    ∃ r t' D' l' tl', t.branchInTail s suffix x = (r, t') ∧ t'.alphaMap = t.alphaMap ∧
      TrieInv t' D' l' tl' ∧
      (∀ m, D.Represents m → D'.Represents
        (if r then Function.update m (v ++ suffix ++ [0]) (some x) else m)) ∧
      (RoomFor t.da (suffix.length + 2) →
        r = true ∧ t'.da.numCells ≤ max t.da.numCells 258 + 256 * (suffix.length + 2 : Nat)) := by
  generalize hidef : trieDaGetTailIndex t.da s = i at *
  have hi := hu.low
  have hat : At t.da.node v (-i) := by
    have hb := at_daGetBase h.da.good hs
    rwa [← hidef, trieDaGetTailIndex, Int.neg_neg]
  have hsome : (D.leaf v).isSome := by rw [hleaf]; rfl
  have h0 : 0 ∉ suffix := fun hm => hk.zero (List.mem_append_right _ hm)
  have hkσ := h.suffix_key hleaf hrest
  have hrest' : rest = σ ++ [0] := by rwa [Rest, if_neg hlast] at hrest
  have hundo : ∀ {u d s'}, Common t.da v s u d s' → ∃ l', TrieInv (t.undoBranches d s s' i).2 D l' tl :=
    fun hc => undoBranches_spec h hat hi hsome hc
  rw [Trie.branchInTail, hidef]
  simp only [hu.get.1]
  rcases commonLoop_spec (.refl h.da hs (by omega) hat) hkσ h0 hne with
    ⟨a, d₁, s₁, heq, hc, hroom⟩ | ⟨u, p, q, d₁, s₁, heq, hσ, rfl, hhead, hc, hroom⟩
  · rw [List.nil_append] at hc
    rcases hundo hc with ⟨l', hinv⟩
    simp only [heq]
    refine ⟨false, _, D, l', tl, rfl, rfl, hinv, fun m hm => hm, fun hsmall => ?_⟩
    unfold RoomFor at hsmall
    omega
  · rw [List.nil_append] at hc
    simp only [heq]
    have hp255 : p.headD 0 ≠ 255 := by
      cases p with
      | nil => decide
      | cons c p =>
          exact fun heq => hkσ.max (hσ ▸ List.mem_append_right _ (heq ▸ List.mem_cons_self))
    have h0p : 0 ∉ p := fun hm => hkσ.zero (hσ ▸ List.mem_append_right _ hm)
    rcases hc.step hp255 with ⟨oldDa, d₂, heq₂, hfail, hok, hsize⟩
    simp only [heq₂]
    have hlen : (u ++ q).length = u.length + q.length := List.length_append
    by_cases hold : oldDa = trieIndexError
    · rcases hundo (hfail hold) with ⟨l', hinv⟩
      simp only [if_pos hold]
      refine ⟨false, _, D, l', tl, rfl, rfl, hinv, fun m hm => hm, fun hsmall => ?_⟩
      unfold RoomFor at hsmall
      have := hroom (by omega)
      exact absurd hold (hsize (by omega)).1
    · simp only [if_neg hold]
      have hc₂ := hok hold
      rcases hc₂.inv with ⟨l₂, hinv₂⟩
      rcases hc₂.last with ⟨b, hb, hatb⟩
      have hassoc : v ++ (u ++ [p.headD 0]) = v ++ u ++ [p.headD 0] := (List.append_assoc ..).symm
      rcases hinv₂.setLeaf hc₂.path (ne_root_of_path hinv₂.good hc₂.path (by simp))
        (hatb.not_edge hinv₂.good hb hc₂.path) (by omega : -i ≤ 0) with ⟨hda, hpath, hat₂⟩
      rcases tailSetSuffix_spec h.tail hu (pastBranch p) with ⟨tail', hset, htail, hu', hn, hblock⟩
      rw [strdup_pastBranch h0p] at hu'
      have hleaf' : D.leaf v = some (u ++ p.headD 0 :: afterHead p, y) := by
        rw [headD_cons_afterHead, ← List.append_assoc, ← hσ, ← hrest', hleaf]
      rw [hassoc] at hat₂
      have hda' : DaInv (trieDaSetTailIndex d₂ oldDa i) l₂ := hda
      have hsplit := h.split hat hu hσ hlast hleaf' hc₂ hda' hat₂ htail hu' hn hblock
      -- the point where the two separate
      have hs₁ : DaPath (trieDaSetTailIndex d₂ oldDa i).node (v ++ u) s₁ := by
        refine (hpath _ _).mpr ?_
        rcases hc.inv with ⟨l₁, hinv₁⟩
        rcases hc.last with ⟨b₁, hb₁, hatb₁⟩
        rcases daInsertBranch_spec hinv₁ hc.path hp255 fun j =>
          hatb₁.not_edge hinv₁.good hb₁ hc.path _ j with ⟨next, d₃, l₃, heq₃, hres⟩
        rw [heq₂] at heq₃
        cases heq₃
        exact (hres.inserted hold).parent
      have hin : v ++ u ∈ (D.split v u (p.headD 0) (afterHead p, y) hleaf').inner :=
        .inr ⟨u, List.prefix_rfl, rfl⟩
      have hnew : ¬ (D.split v u (p.headD 0) (afterHead p, y) hleaf').Node (v ++ u ++ [q.headD 0]) := by
        intro hn
        rcases hsplit.complete hn with ⟨b', hb'⟩
        have hb' : At (daSetBase d₂ oldDa (-i)).node (v ++ u ++ [q.headD 0]) b' := hb'
        rw [hat₂, if_neg, hc₂.other] at hb'
        · rw [List.append_assoc] at hb'
          exact h.not_at_below hsome (by simp) hb'
        · rintro ⟨a, ha, heq⟩
          rw [List.append_assoc] at heq
          rw [← List.append_cancel_left heq, List.prefix_append_right_inj] at ha
          have hqp := ha.eq_of_length rfl
          exact hhead (List.cons.inj hqp).1.symm
        · intro heq
          have hqp := List.append_cancel_left heq
          exact hhead (List.cons.inj hqp).1.symm
      have hk' : NumKey (v ++ u ++ q) := by rwa [List.append_assoc]
      rw [hset]
      rcases branchInBranch_spec hsplit hs₁ hin hnew hk' x with
        ⟨r, t', l', tl', heq', halpha, hfalse, htrue, hsize'⟩
      have hkey : v ++ (u ++ q) ++ [0] = v ++ u ++ q.headD 0 :: afterHead q := by
        rw [headD_cons_afterHead]
        simp only [List.append_assoc]
      have hnum₂ : (trieDaSetTailIndex d₂ oldDa i).numCells = d₂.numCells := numCells_daSetBase
      have hcells : RoomFor t.da ((u ++ q).length + 2) →
          r = true ∧ t'.da.numCells ≤ max t.da.numCells 258 + 256 * ((u ++ q).length + 2 : Nat) := by
        intro hsmall
        unfold RoomFor at hsmall
        have hroom' := hroom (by omega)
        have hd₂ := (hsize (by omega)).2
        simp only [hnum₂] at hsize'
        have hfin := hsize' (by omega)
        exact ⟨hfin.1, by omega⟩
      cases r with
      | false =>
          exact ⟨false, t', _, l', tl', heq', halpha, hfalse rfl,
            fun m hm => Dict.split_represents hm, hcells⟩
      | true =>
          refine ⟨true, t', _, l', tl', heq', halpha, htrue rfl, fun m hm => ?_, hcells⟩
          rw [if_pos rfl, hkey]
          exact Dict.addLeaf_represents (Dict.split_represents hm)

/-! ## Another value -/

theorem TrieInv.setLeaf (h : TrieInv t D l tl) (hat : At t.da.node v (-i))
    (hu : Uses t.tail tl i σ y) (hr : Rest v σ rest) (hleaf : D.leaf v = some (rest, y))
    (hsome : (D.leaf v).isSome) {tail' : Tail} (htail : TailInv tail' tl)
    (hu' : Uses tail' tl i σ x) (hn : tail'.numTails = t.tail.numTails)
    (hblock : ∀ b, 0 ≤ b → b ≠ i - tailStartBlockno → tail'.block b = t.tail.block b) :
    TrieInv { t with tail := tail' } (D.setLeaf v (rest, x) hsome) l tl := by
  refine ⟨h.alpha, h.da, htail, ?_, ?_, h.own, h.letters, ?_, ?_, Dict.setLeaf_tight h.tight hsome⟩
  · intro w b hb
    rcases h.sound hb with hin | ⟨j, σ', rest', z, hbj, hj, hr', hl⟩
    · exact .inl hin
    · right
      by_cases hwv : w = v
      · rw [hwv] at hb
        exact ⟨i, σ, rest, x, h.da.good.at_unique hb hat, hu', hwv ▸ hr, by
          rw [hwv, Dict.setLeaf_leaf, Function.update_self]⟩
      · have hlow := hj.low
        have hji : j ≠ i := by
          rintro rfl
          exact hwv (h.own hlow (hbj ▸ hb) hat)
        refine ⟨j, σ', rest', z, hbj,
          hj.frame (Int.le_of_eq hn.symm) (.inl (hblock _ ?_ (by omega))) hj.used, hr', ?_⟩
        · unfold tailStartBlockno
          omega
        · rw [Dict.setLeaf_leaf, Function.update_of_ne hwv, hl]
  · intro w hw
    apply h.complete
    rcases hw with hw | hw
    · exact .inl hw
    · by_cases hwv : w = v
      · exact .inr (hwv ▸ hsome)
      · rw [Dict.setLeaf_leaf, Function.update_of_ne hwv] at hw
        exact .inr hw
  · intro w rest' z hl
    by_cases hwv : w = v
    · rw [hwv, Dict.setLeaf_leaf, Function.update_self] at hl
      cases hl
      rw [hwv]
      exact h.keys hleaf
    · rw [Dict.setLeaf_leaf, Function.update_of_ne hwv] at hl
      exact h.keys hl
  · exact (h.suffix_key hleaf hr).blocks h.suffixes hu'.suffix fun b hb hne hlt =>
      ⟨hn ▸ hlt, hblock b hb hne⟩

/-! ## `trie_store_conditionally` -/

/-- What a call does to the entries `m`: the new entry is there, or nothing has changed. It
fails for a key that is there and must not be overwritten, or for lack of room. -/
structure Stored (t : Trie) (D : Dict UInt8 Int32) (key : List UInt32) (x : Int32)
    (isOverwrite r : Bool) (t' : Trie) (D' : Dict UInt8 Int32) : Prop where
  alphaMap : t'.alphaMap = t.alphaMap
  entries : ∀ m, D.Represents m → D'.Represents
    (if r then Function.update m (nums t.alphaMap key ++ [0]) (some x) else m)
  present : ∀ y, D.Holds (nums t.alphaMap key ++ [0]) y → r = isOverwrite
  room : (∀ y, ¬ D.Holds (nums t.alphaMap key ++ [0]) y) → RoomFor t.da (key.length + 2) → r = true
  size : RoomFor t.da (key.length + 2) →
    t'.da.numCells ≤ max t.da.numCells 258 + 256 * (key.length + 2 : Nat)

theorem store_spec (h : TrieInv t D l tl) (hk : TrieKey t.alphaMap key) (x : Int32)
    (isOverwrite : Bool) :
    ∃ r t' D' l' tl', t.storeConditionally key x isOverwrite = (r, t') ∧ TrieInv t' D' l' tl' ∧
      Stored t D key x isOverwrite r t' D' := by
  have hnk := hk.numKey h.alpha
  rw [Trie.storeConditionally]
  rcases h.lookup hk.zeroFree with
    ⟨s, p, w, heq, hl⟩ | ⟨s, p, w, σ, rest, y, heq, hr, hu, hrest, hleaf, htail⟩
  · -- off the tree
    have hp : ZeroFree p := fun c hc => hk.zeroFree c (hl.suffix.subset hc)
    have hnot : ∀ y, ¬ D.Holds (nums t.alphaMap key ++ [0]) y := by
      intro y
      rw [hl.num, List.append_assoc, ← headD_cons_afterHead]
      exact Dict.not_holds_off hl.inner hl.off
    rw [hl.num] at hnk
    rcases branchInBranch_spec h hl.path hl.inner hl.off hnk x with
      ⟨r, t', l', tl', heq', halpha, hfalse, htrue, hsize⟩
    simp only [heq, alphaMapCharToTrieStr_eq hp, heq']
    have hroom : RoomFor t.da (key.length + 2) → r = true ∧
        t'.da.numCells ≤ max t.da.numCells 258 + 256 * (key.length + 2 : Nat) := by
      intro hsmall
      unfold RoomFor at hsmall
      have hfin := hsize (by omega)
      exact ⟨hfin.1, by omega⟩
    cases r with
    | false =>
        exact ⟨false, t', D, l', tl', rfl, hfalse rfl, halpha, fun m hm => hm,
          fun y hy => absurd hy (hnot y), fun _ hs => (hroom hs).1, fun hs => (hroom hs).2⟩
    | true =>
        refine ⟨true, t', _, l', tl', rfl, htrue rfl, halpha, fun m hm => ?_,
          fun y hy => absurd hy (hnot y), fun _ _ => rfl, fun hs => (hroom hs).2⟩
        rw [if_pos rfl, hl.num, List.append_assoc, ← headD_cons_afterHead]
        exact Dict.addLeaf_represents hm
  · have hp : ZeroFree p := fun c hc => hk.zeroFree c (hr.suffix.subset hc)
    simp only [heq, htail, decide_eq_true_eq]
    by_cases hσ : σ = nums t.alphaMap p
    · -- duplicated key
      have hkey := (hr.rest_iff hrest).mp hσ
      have hholds : D.Holds (nums t.alphaMap key ++ [0]) y := by
        rw [hkey]
        exact (Dict.holds_at_leaf hleaf).mpr ⟨rfl, rfl⟩
      simp only [if_pos hσ]
      have hlow := hu.low
      have hsize : t.da.numCells ≤ max t.da.numCells 258 + 256 * (key.length + 2 : Nat) := by omega
      cases isOverwrite with
      | false =>
          exact ⟨false, t, D, l, tl, rfl, h, rfl, fun m hm => hm, fun _ _ => rfl,
            fun hnot => absurd hholds (hnot y), fun _ => hsize⟩
      | true =>
          rw [if_pos rfl]
          have hat : At t.da.node w (-trieDaGetTailIndex t.da s) := by
            rw [trieDaGetTailIndex, Int.neg_neg]
            exact at_daGetBase h.da.good hr.path
          have hsome : (D.leaf w).isSome := by rw [hleaf]; rfl
          rcases tailSetData_spec h.tail hu x with ⟨tail', hset, htail', hu', hn, hblock⟩
          rw [hset]
          refine ⟨true, _, D.setLeaf w (rest, x) hsome, l, tl, rfl,
            (h.setLeaf hat hu hrest hleaf hsome htail' hu' hn hblock).setDirty true, rfl,
            fun m hm => ?_, fun _ _ => rfl, fun _ _ => rfl, fun _ => hsize⟩
          rw [if_pos rfl, hkey]
          exact Dict.setLeaf_represents hm hleaf hsome
    · have hkey : ¬ nums t.alphaMap key ++ [0] = w ++ rest := fun hk => hσ ((hr.rest_iff hrest).mpr hk)
      have hlast : w.getLast? ≠ some 0 ∧ nums t.alphaMap key = w ++ nums t.alphaMap p := by
        rcases hr.num with hnum | ⟨rfl, hw⟩
        · exact hnum
        · rw [Rest, hw, if_pos getLast?_concat_zero] at hrest
          exact absurd hrest.1 hσ
      have hnot : ∀ y, ¬ D.Holds (nums t.alphaMap key ++ [0]) y := by
        intro z
        rw [hlast.2, List.append_assoc, Dict.holds_at_leaf hleaf]
        rintro ⟨hv, -⟩
        apply hkey
        rw [hlast.2, List.append_assoc, hv]
      simp only [if_neg hσ, alphaMapCharToTrieStr_eq hp]
      rw [hlast.2] at hnk
      rcases branchInTail_spec h hr.path hu hrest hleaf hlast.1 hnk hσ x with
        ⟨r, t', D', l', tl', heq', halpha, hinv, hent, hsize⟩
      have hlen : (nums t.alphaMap p).length ≤ key.length := by
        rw [nums, List.length_map]
        exact hr.suffix.length_le
      have hroom : RoomFor t.da (key.length + 2) → r = true ∧
          t'.da.numCells ≤ max t.da.numCells 258 + 256 * (key.length + 2 : Nat) := by
        intro hsmall
        unfold RoomFor at hsmall hsize
        have hfin := hsize (by omega)
        exact ⟨hfin.1, by omega⟩
      rw [heq']
      refine ⟨r, t', D', l', tl', rfl, hinv, halpha, fun m hm => ?_, fun z hz => absurd hz (hnot z),
        fun _ hs => (hroom hs).1, fun hs => (hroom hs).2⟩
      rw [hlast.2]
      exact hent m hm

end DnsCache

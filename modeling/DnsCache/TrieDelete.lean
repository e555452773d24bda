import DnsCache.TrieStore

/-! # Deleting a key

* `TrieInv.remove`: the entry goes, with the nodes that lead to it only.
* `delete_spec`: `trie_delete` on any key.
-/

namespace DnsCache

open WordTree Radix

variable {t : Trie} {D : Dict UInt8 Int32} {l tl : List Int} {w v u₀ u₁ σ rest : List UInt8}
  {s i : Int} {x y : Int32} {key : List UInt32} {d d' : DArray}

/-- The array without the leaf, up to node `u₀`. -/
theorem TrieInv.remove (h : TrieInv t D l tl) (hat : At t.da.node (u₀ ++ u₁) (-i))
    (hu : Uses t.tail tl i σ y) (hu₁ : u₁ ≠ []) (hleaf : (D.leaf (u₀ ++ u₁)).isSome)
    (hat₁ : ∀ w b, At d.node w b ↔ if w = u₀ ++ u₁ then b = 0 else At t.da.node w b)
    (hpath₁ : ∀ w s, DaPath d.node w s ↔ DaPath t.da.node w s)
    {l' : List Int} (hda : DaInv d' l') (hpr : Pruned d d' u₀ u₁)
    (hstop : u₀ = [] ∨ ∃ c t, DaPath d'.node (u₀ ++ [c]) t) :
    ∃ honly, TrieInv { t with da := d', tail := tailDelete t.tail i }
      (D.remove u₀ u₁ hleaf honly) l' (freedChain tl (i - tailStartBlockno)) := by
  have honly : ∀ a c b, a ≠ [] → u₁ = a ++ c :: b → ∀ e, D.Node (u₀ ++ a ++ [e]) → e = c := by
    intro a c b ha hab e he
    rcases h.path_of_node he with ⟨r, hr⟩
    have hpre := hpr.only a e r ha ⟨c :: b, hab.symm⟩ ((hpath₁ _ _).mpr hr)
    rw [hab, List.prefix_append_right_inj] at hpre
    rcases hpre with ⟨b', hb'⟩
    exact (List.cons.inj hb').1
  have hlow := hu.low
  rcases tailDelete_spec h.tail hlow hu.high hu.used with ⟨htail, hfreed⟩
  -- what is left of the array
  have hat' : ∀ w b, At d'.node w b ↔
      At t.da.node w b ∧ ¬ ∃ a, a ≠ [] ∧ a <+: u₁ ∧ w = u₀ ++ a := by
    intro w b
    have hne : ∀ {w}, (¬ ∃ a, a ≠ [] ∧ a <+: u₁ ∧ w = u₀ ++ a) → w ≠ u₀ ++ u₁ := by
      rintro _ hnot rfl
      exact hnot ⟨u₁, hu₁, List.prefix_rfl, rfl⟩
    constructor
    · rintro ⟨r, cr, hr, hcr, rfl⟩
      rcases (hpr.path w r).mp hr with ⟨hr', hnot⟩
      have hold : At d.node w cr.base := ⟨r, cr, hr', (hpr.node w r hr).symm.trans hcr, rfl⟩
      rw [hat₁, if_neg (hne hnot)] at hold
      exact ⟨hold, hnot⟩
    · rintro ⟨hb, hnot⟩
      have hold := (hat₁ w b).mpr (by rwa [if_neg (hne hnot)])
      rcases hold with ⟨r, cr, hr, hcr, rfl⟩
      have hr' := (hpr.path w r).mpr ⟨hr, hnot⟩
      exact ⟨r, cr, hr', (hpr.node w r hr').trans hcr, rfl⟩
  have hframe : ∀ {j σ x w}, At t.da.node w (-j) → w ≠ u₀ ++ u₁ → Uses t.tail tl j σ x →
      Uses (tailDelete t.tail i) (freedChain tl (i - tailStartBlockno)) j σ x := by
    intro j σ x w hw hwv hj
    have hj1 := hj.low
    have hji : j - tailStartBlockno ≠ i - tailStartBlockno := by
      intro heq
      have hji : j = i := by omega
      rw [hji] at hw
      exact hwv (h.own hlow hw hat)
    have hj0 : 0 ≤ j - tailStartBlockno := by
      unfold tailStartBlockno
      omega
    refine hj.frame (Int.le_of_eq hfreed.numTails.symm) (.inr (hfreed.other _ hj0 hji)) ?_
    unfold freedChain
    split
    · exact List.not_mem_nil
    · rw [Ascending.mem_insert]
      rintro (heq | hm)
      · exact hji heq
      · exact hj.used hm
  refine ⟨honly, h.alpha, hda, htail, ?_, ?_, ?_, fun hw => h.letters hw.1, ?_, ?_,
    Dict.remove_tight h.tight ?_⟩
  · intro w b hb
    rcases (hat' w b).mp hb with ⟨hb, hnot⟩
    rcases h.sound hb with ⟨hpos, hin⟩ | ⟨j, σ', rest, x, hbj, hj, hr, hl⟩
    · refine .inl ⟨hpos, hin, ?_⟩
      rintro ⟨a, b', ha, -, hab, rfl⟩
      exact hnot ⟨a, ha, ⟨b', hab.symm⟩, rfl⟩
    · have hwv : w ≠ u₀ ++ u₁ := by
        rintro rfl
        exact hnot ⟨u₁, hu₁, List.prefix_rfl, rfl⟩
      refine .inr ⟨j, σ', rest, x, hbj, hframe (hbj ▸ hb) hwv hj, hr, ?_⟩
      rw [Dict.remove_leaf, Function.update_of_ne hwv, hl]
  · intro w hw
    have hold : D.Node w ∧ w ≠ u₀ ++ u₁ ∧ ¬ ∃ a, a ≠ [] ∧ a <+: u₁ ∧ w = u₀ ++ a := by
      rcases hw with ⟨hin, hnot⟩ | hw
      · have hwv : w ≠ u₀ ++ u₁ := by
          rintro rfl
          exact Dict.not_inner_of_leaf hleaf hin
        refine ⟨.inl hin, hwv, ?_⟩
        rintro ⟨a, ha, ⟨b, hab⟩, rfl⟩
        refine hnot ⟨a, b, ha, ?_, hab.symm, rfl⟩
        rintro rfl
        rw [List.append_nil] at hab
        exact hwv (by rw [hab])
      · have hwv : w ≠ u₀ ++ u₁ := by
          rintro rfl
          rw [Dict.remove_leaf, Function.update_self] at hw
          cases hw
        rw [Dict.remove_leaf, Function.update_of_ne hwv] at hw
        refine ⟨.inr hw, hwv, ?_⟩
        rintro ⟨a, ha, ⟨b, hab⟩, rfl⟩
        -- below a leaf there is nothing
        cases b with
        | nil =>
            rw [List.append_nil] at hab
            exact hwv (by rw [hab])
        | cons e b =>
            refine Dict.not_node_below hw (c := e) (v := b) ?_
            rw [List.append_assoc, hab]
            exact .inr hleaf
    rcases h.complete hold.1 with ⟨b, hb⟩
    exact ⟨b, (hat' w b).mpr ⟨hb, hold.2.2⟩⟩
  · intro w w' j hj hw hw'
    exact h.own hj ((hat' _ _).mp hw).1 ((hat' _ _).mp hw').1
  · intro w rest x hl
    by_cases hwv : w = u₀ ++ u₁
    · rw [hwv, Dict.remove_leaf, Function.update_self] at hl
      cases hl
    · rw [Dict.remove_leaf, Function.update_of_ne hwv] at hl
      exact h.keys hl
  · intro b σ' hb hn hσ'
    by_cases hbi : b = i - tailStartBlockno
    · rw [hbi, hfreed.suffix] at hσ'
      cases hσ'
    · rw [(hfreed.other b hb hbi).1] at hσ'
      exact h.suffixes hb (hfreed.numTails ▸ hn) hσ'
  · rcases hstop with hnil | ⟨c, r, hr⟩
    · exact .inl hnil
    · right
      rcases (hpr.path _ _).mp hr with ⟨hr, hnot⟩
      refine ⟨c, h.node_of_path ((hpath₁ _ _).mp hr), ?_⟩
      intro hhead
      rcases List.head?_eq_some_iff.mp hhead with ⟨u, rfl⟩
      exact hnot ⟨[c], List.cons_ne_nil _ _, ⟨u, rfl⟩, rfl⟩

/-- `trie_delete` takes the entry out when there is one. -/
theorem delete_spec (h : TrieInv t D l tl) (hk : ZeroFree key) :
    ∃ r t' D' l' tl', t.delete key = (r, t') ∧ TrieInv t' D' l' tl' ∧ t'.alphaMap = t.alphaMap ∧
      (r = true ↔ ∃ y, D.Holds (nums t.alphaMap key ++ [0]) y) ∧
      (∀ m, D.Represents m → D'.Represents
        (if r then Function.update m (nums t.alphaMap key ++ [0]) none else m)) ∧
      t'.da.numCells = t.da.numCells := by
  have hret := fun y => retrieve_iff (x := y) h hk
  rw [Trie.delete]
  rcases h.lookup hk with
    ⟨s, p, w, heq, hl⟩ | ⟨s, p, w, σ, rest, y, heq, hr, hu, hrest, hleaf, htail⟩
  · simp only [heq]
    refine ⟨false, t, D, l, tl, rfl, h, rfl, ?_, fun m hm => hm, rfl⟩
    refine ⟨fun hf => absurd hf Bool.false_ne_true, ?_⟩
    rintro ⟨y, hy⟩
    rw [← hret, Trie.retrieve, heq] at hy
    cases hy
  · simp only [heq, htail, decide_eq_true_eq]
    by_cases hσ : σ = nums t.alphaMap p
    · simp only [if_pos hσ]
      generalize hidef : trieDaGetTailIndex t.da s = i at *
      have hkey := (hr.rest_iff hrest).mp hσ
      have hi := hu.low
      have hat : At t.da.node w (-i) := by
        have hb := at_daGetBase h.da.good hr.path
        rwa [← hidef, trieDaGetTailIndex, Int.neg_neg]
      have hw : w ≠ [] := by
        rintro rfl
        exact Dict.not_inner_of_leaf hr.leaf D.nil_mem
      rcases h.da.setLeaf hr.path (ne_root_of_path h.da.good hr.path hw)
        (hat.not_edge h.da.good (by omega) hr.path) (Int.le_refl 0) with ⟨hda₁, hpath₁, hat₁⟩
      rcases daPruneUpto_spec hda₁ .nil ((hpath₁ _ _).mpr hr.path : DaPath _ ([] ++ w) s) with
        ⟨u₀, u₁, l₂, rfl, hda₂, hpr, hstop⟩
      rw [List.nil_append] at hpr hstop
      have hu₁ : u₁ ≠ [] := by
        rintro rfl
        rw [List.append_nil] at hw hr
        rcases hstop with hnil | ⟨c, r, hcr⟩
        · exact hw hnil
        · exact Dict.not_node_below hr.leaf
            (h.node_of_path ((hpath₁ _ _).mp ((hpr.path _ _).mp hcr).1))
      rcases h.remove hat hu hu₁ hr.leaf hat₁ hpath₁ hda₂ hpr hstop with ⟨honly, hinv⟩
      refine ⟨true, _, _, _, _, rfl, hinv.setDirty true, rfl, ?_, fun m hm => ?_, ?_⟩
      · refine ⟨fun _ => ⟨y, ?_⟩, fun _ => rfl⟩
        rw [hkey]
        exact (Dict.holds_at_leaf hleaf).mpr ⟨rfl, rfl⟩
      · rw [if_pos rfl, hkey]
        exact Dict.remove_represents hm hleaf
      · show (daPrune (daSetBase t.da s 0) s).numCells = _
        rw [daPrune, hpr.size, numCells_daSetBase]
    · simp only [if_neg hσ]
      refine ⟨false, t, D, l, tl, rfl, h, rfl, ?_, fun m hm => hm, rfl⟩
      refine ⟨fun hf => absurd hf Bool.false_ne_true, ?_⟩
      rintro ⟨z, hz⟩
      rw [← hret, Trie.retrieve, heq] at hz
      simp only [htail, decide_eq_true_eq, if_neg hσ] at hz
      cases hz

end DnsCache

import DnsCache.DaInsert

/-! # A branch taken out of the double array

* `Good.removeLeaf`, `daFreeCell_spec`: one leaf less.
* `DaInv.setLeaf`: a leaf with another base.
* `daPruneUpto_spec`: the nodes that lead nowhere are freed, from a leaf up to
  the first node that has another child.
-/

namespace DnsCache

open WordTree

variable {d : DArray} {l : List Int} {N : Int → Option DACell} {p s x : Int}
  {w v q u : List UInt8} {cx : DACell}

/-- Every word is shorter than the array. -/
theorem DaInv.length_lt (h : DaInv d l) (hw : DaPath d.node w s) : w.length < d.cells.length := by
  have hcard := h.good.isTree.length_lt_card hw (Finset.Ico 2 d.numCells) (by
    intro v t ht
    rcases h.good.node_of_path ht with ⟨c, hc⟩
    exact Finset.mem_Ico.mpr (node_bounds hc))
  rw [Int.card_Ico] at hcard
  have hsize := h.free.size
  unfold DArray.numCells at hcard hsize
  omega

/-- A leaf less. -/
theorem Good.removeLeaf (hg : Good N) (hx : x ≠ daGetRoot) (hleaf : ∀ c i, ¬ Edge N x c i) :
    Good (Function.update N x none) ∧
      ∀ v t, DaPath (Function.update N x none) v t ↔ DaPath N v t ∧ t ≠ x := by
  have hself : Function.update N x none x = none := Function.update_self ..
  have hold : ∀ {i}, i ≠ x → Function.update N x none i = N i := fun hi =>
    Function.update_of_ne hi ..
  have hsub : ∀ {i c}, Function.update N x none i = some c → i ≠ x ∧ N i = some c := by
    intro i c hi
    have hix : i ≠ x := by
      rintro rfl
      rw [hself] at hi
      cases hi
    exact ⟨hix, (hold hix).symm.trans hi⟩
  have hedge : ∀ p c i, Edge (Function.update N x none) p c i ↔ Edge N p c i ∧ i ≠ x := by
    intro p c i
    constructor
    · rintro ⟨cp, ci, hp, hpos, heq, hi, hcheck⟩
      exact ⟨⟨cp, ci, (hsub hp).2, hpos, heq, (hsub hi).2, hcheck⟩, (hsub hi).1⟩
    · rintro ⟨he, hix⟩
      have hpx : p ≠ x := by
        rintro rfl
        exact hleaf c i he
      obtain ⟨cp, ci, hp, hpos, heq, hi, hcheck⟩ := he
      exact ⟨cp, ci, (hold hpx).trans hp, hpos, heq, (hold hix).trans hi, hcheck⟩
  have hpath : ∀ v t, DaPath (Function.update N x none) v t ↔ DaPath N v t ∧ t ≠ x := fun v t =>
    path_removeLeaf hx hleaf hedge
  refine ⟨⟨?_, ?_, ?_, ?_, ?_⟩, hpath⟩
  · rcases hg.root with ⟨b, hb, hroot⟩
    exact ⟨b, hb, (hold hx.symm).trans hroot⟩
  · intro i c hi
    exact hg.low (hsub hi).2
  · intro i c hi
    exact hg.pool (hsub hi).2
  · intro i c hi
    rcases hg.reach (hsub hi).2 with ⟨w, hw⟩
    exact ⟨w, (hpath w i).mpr ⟨hw, (hsub hi).1⟩⟩
  · intro p c i he
    exact hg.small ((hedge p c i).mp he).1

/-- `da_free_cell` on a leaf. -/
theorem daFreeCell_spec (h : DaInv d l) (hx : d.node x = some cx) (hxr : x ≠ daGetRoot)
    (hleaf : ∀ c i, ¬ Edge d.node x c i) :
    ∃ l', DaInv (daFreeCell d x) l' ∧
      (daFreeCell d x).node = Function.update d.node x none ∧
      ∀ v t, DaPath (daFreeCell d x).node v t ↔ DaPath d.node v t ∧ t ≠ x := by
  rcases h.free.free (h.good.three_le hx hxr) hx with ⟨hf, hnode⟩
  rcases h.good.removeLeaf hxr hleaf with ⟨hg, hpath⟩
  rw [← hnode] at hg hpath
  refine ⟨_, ⟨hf, hg, ?_⟩, hnode, hpath⟩
  intro i c hi
  rw [FreeList.numCells_daFreeCell]
  rw [hnode, Function.update_apply] at hi
  split at hi
  · cases hi
  · exact h.base_le hi

/-- `da_set_base` on a node without children that gets no base for some. -/
theorem DaInv.setLeaf (h : DaInv d l) (hw : DaPath d.node w s) (hsr : s ≠ daGetRoot)
    (hleaf : ∀ c i, ¬ Edge d.node s c i) {b : Int} (hb : b ≤ 0) :
    DaInv (daSetBase d s b) l ∧
      (∀ v t, DaPath (daSetBase d s b).node v t ↔ DaPath d.node v t) ∧
      ∀ v b', At (daSetBase d s b).node v b' ↔ if v = w then b' = b else At d.node v b' := by
  rcases h.good.node_of_path hw with ⟨cs, hcs⟩
  rcases h.free.setBase hcs b with ⟨hf, hnode⟩
  have hself : (daSetBase d s b).node s = some ⟨b, cs.check⟩ := by rw [hnode, Function.update_self]
  have hold : ∀ {i}, i ≠ s → (daSetBase d s b).node i = d.node i := fun hi => by
    rw [hnode, Function.update_of_ne hi]
  have hsub : ∀ {i ci}, (daSetBase d s b).node i = some ci →
      ∃ ci', d.node i = some ci' ∧ ci'.check = ci.check ∧ (i ≠ s → ci' = ci) := by
    intro i ci hi
    by_cases his : i = s
    · rw [his, hself] at hi
      cases hi
      exact ⟨cs, by rw [his, hcs], rfl, fun hne => absurd his hne⟩
    · rw [hold his] at hi
      exact ⟨ci, hi, rfl, fun _ => rfl⟩
  have hedge : ∀ p c i, Edge (daSetBase d s b).node p c i ↔ Edge d.node p c i := by
    intro p c i
    constructor
    · rintro ⟨cp, ci, hp, hpos, heq, hi, hcheck⟩
      have hps : p ≠ s := by
        rintro rfl
        rw [hself] at hp
        cases hp
        exact absurd hpos (Int.not_lt.mpr hb)
      rcases hsub hi with ⟨ci', hi', hcheck', -⟩
      exact ⟨cp, ci', (hold hps).symm.trans hp, hpos, heq, hi', hcheck'.trans hcheck⟩
    · rintro ⟨cp, ci, hp, hpos, heq, hi, hcheck⟩
      have hps : p ≠ s := by
        rintro rfl
        exact hleaf c i ⟨cp, ci, hp, hpos, heq, hi, hcheck⟩
      have hp' := (hold hps).trans hp
      by_cases his : i = s
      · have hci : ci = cs := by
          rw [his, hcs] at hi
          exact (Option.some.inj hi).symm
        have hi' : (daSetBase d s b).node i = some ⟨b, cs.check⟩ := by rw [his, hself]
        exact ⟨cp, _, hp', hpos, heq, hi', by rw [← hci]; exact hcheck⟩
      · exact ⟨cp, ci, hp', hpos, heq, (hold his).trans hi, hcheck⟩
  have hpath : ∀ v t, DaPath (daSetBase d s b).node v t ↔ DaPath d.node v t := fun v t =>
    ⟨fun hv => hv.map (f := id) rfl fun _ _ _ _ _ he => (hedge _ _ _).mp he,
      fun hv => hv.map (f := id) rfl fun _ _ _ _ _ he => (hedge _ _ _).mpr he⟩
  refine ⟨⟨hf, ⟨?_, ?_, ?_, ?_, ?_⟩, ?_⟩, hpath, ?_⟩
  · rcases h.good.root with ⟨b₀, hb₀, hroot⟩
    exact ⟨b₀, hb₀, (hold hsr.symm).trans hroot⟩
  · intro i ci hi
    rcases hsub hi with ⟨ci', hi', -⟩
    exact h.good.low hi'
  · intro i ci hi hpos
    by_cases his : i = s
    · rw [his, hself] at hi
      cases hi
      exact absurd hpos (Int.not_lt.mpr hb)
    · exact h.good.pool ((hold his).symm.trans hi) hpos
  · intro i ci hi
    rcases hsub hi with ⟨ci', hi', -⟩
    rcases h.good.reach hi' with ⟨v, hv⟩
    exact ⟨v, (hpath v i).mpr hv⟩
  · intro p c i he
    exact h.good.small ((hedge p c i).mp he)
  · intro i ci hi
    rw [numCells_daSetBase]
    by_cases his : i = s
    · rw [his, hself] at hi
      cases hi
      have := node_bounds hcs
      show b ≤ d.numCells
      omega
    · exact h.base_le ((hold his).symm.trans hi)
  · intro v b'
    split
    · rename_i hvw
      rw [hvw]
      constructor
      · rintro ⟨t, ct, ht, hct, rfl⟩
        rw [h.good.isTree.node_unique ((hpath w t).mp ht) hw, hself] at hct
        cases hct
        rfl
      · rintro rfl
        exact ⟨s, _, (hpath w s).mpr hw, hself, rfl⟩
    · rename_i hvw
      have hne : ∀ {t}, DaPath d.node v t → t ≠ s := by
        rintro t ht rfl
        exact hvw (h.good.isTree.word_unique ht hw)
      constructor
      · rintro ⟨t, ct, ht, hct, rfl⟩
        have ht' := (hpath v t).mp ht
        exact ⟨t, ct, ht', (hold (hne ht')).symm.trans hct, rfl⟩
      · rintro ⟨t, ct, ht, hct, rfl⟩
        exact ⟨t, ct, (hpath v t).mpr ht, (hold (hne ht)).trans hct, rfl⟩

/-- The words behind `q` that lead to `u₁` only are gone. -/
structure Pruned (d d' : DArray) (q u₁ : List UInt8) : Prop where
  path : ∀ v t, DaPath d'.node v t ↔
    DaPath d.node v t ∧ ¬ ∃ a, a ≠ [] ∧ a <+: u₁ ∧ v = q ++ a
  node : ∀ v t, DaPath d'.node v t → d'.node t = d.node t
  only : ∀ a c t, a ≠ [] → a <+: u₁ → DaPath d.node (q ++ a ++ [c]) t → a ++ [c] <+: u₁
  size : d'.numCells = d.numCells

theorem Pruned.refl (d : DArray) (q : List UInt8) : Pruned d d q [] := by
  have hnone : ∀ a : List UInt8, a ≠ [] → ¬ a <+: [] := fun a ha h => ha (List.prefix_nil.mp h)
  refine ⟨fun v t => ?_, fun _ _ _ => rfl, fun a c t ha h => absurd h (hnone a ha), rfl⟩
  constructor
  · intro h
    refine ⟨h, ?_⟩
    rintro ⟨a, ha, hpre, -⟩
    exact hnone a ha hpre
  · exact fun h => h.1

/-- The loop goes up while the node has no child left. -/
theorem pruneLoop_spec (h : DaInv d l) (hp : DaPath d.node q p) (hs : DaPath d.node (q ++ u) s)
    {n : Nat} (hn : u.length ≤ n) :
    ∃ u₀ u₁ l', u = u₀ ++ u₁ ∧ DaInv (pruneLoop p n d s) l' ∧
      Pruned d (pruneLoop p n d s) (q ++ u₀) u₁ ∧
      (u₀ = [] ∨ ∃ c t, DaPath (pruneLoop p n d s).node (q ++ u₀ ++ [c]) t) := by
  have ht := h.good.isTree
  induction n generalizing d l u s with
  | zero =>
      have hnil : u = [] := List.eq_nil_of_length_eq_zero (Nat.le_zero.mp hn)
      exact ⟨[], [], l, hnil, h, .refl _ _, .inl rfl⟩
  | succ n ih =>
      rcases h.good.node_of_path hs with ⟨cs, hcs⟩
      rw [pruneLoop]
      by_cases hps : p = s
      · have hnil : u = [] := by
          rw [hps] at hp
          have := ht.word_unique hp hs
          exact List.append_right_eq_self.mp this.symm
        rw [if_neg (fun hcond => hcond.1 hps)]
        exact ⟨[], [], l, hnil, h, .refl _ _, .inl rfl⟩
      · by_cases hchild : daHasChildren d s = false
        · rw [if_pos ⟨hps, hchild⟩]
          have hleaf : ∀ c i, ¬ Edge d.node s c i := by
            intro c i he
            rw [(daHasChildren_iff h.free hcs).mpr ⟨c, i, h.good.small he, he⟩] at hchild
            cases hchild
          have hne : u ≠ [] := by
            rintro rfl
            rw [List.append_nil] at hs
            exact hps (ht.node_unique hp hs)
          rcases List.eq_nil_or_concat u with rfl | ⟨u', c, rfl⟩
          · exact absurd rfl hne
          rw [List.concat_eq_append] at *
          have hs' := hs
          rw [← List.append_assoc] at hs'
          rcases path_snoc.mp hs' with ⟨r, hr, he⟩
          have hsr : s ≠ daGetRoot := by
            rintro rfl
            exact ht.root_min he
          have hcheck : daGetCheck d s = r := by
            rcases he.node.2 with ⟨cs', hcs', hcheck⟩
            rw [(node_eq_some.mp hcs').2.2, hcheck]
          have hrs : r ≠ s := (ht.edge_ne hr he).symm
          rcases daFreeCell_spec h hcs hsr hleaf with ⟨l₁, h₁, hnode₁, hpath₁⟩
          have hlen : u'.length ≤ n := by simpa using hn
          rcases ih h₁ ((hpath₁ q p).mpr ⟨hp, hps⟩) ((hpath₁ _ r).mpr ⟨hr, hrs⟩) hlen
            h₁.good.isTree with ⟨u₀, u₁, l', rfl, h', hpr, hstop⟩
          rw [hcheck]
          refine ⟨u₀, u₁ ++ [c], l', by rw [List.append_assoc], h', ⟨?_, ?_, ?_, ?_⟩, hstop⟩
          · intro v t
            rw [hpr.path, hpath₁]
            constructor
            · rintro ⟨⟨hv, hts⟩, hnot⟩
              refine ⟨hv, ?_⟩
              rintro ⟨a, ha, hpre, rfl⟩
              rcases List.prefix_concat_iff.mp hpre with rfl | hpre
              · rw [← List.append_assoc, List.append_assoc q u₀ u₁] at hv
                exact hts (ht.node_unique hv hs')
              · exact hnot ⟨a, ha, hpre, rfl⟩
            · rintro ⟨hv, hnot⟩
              refine ⟨⟨hv, ?_⟩, ?_⟩
              · rintro rfl
                apply hnot
                refine ⟨u₁ ++ [c], by simp, List.prefix_rfl, ?_⟩
                rw [ht.word_unique hv hs']
                simp only [List.append_assoc]
              · rintro ⟨a, ha, hpre, hva⟩
                exact hnot ⟨a, ha, hpre.trans (List.prefix_append _ _), hva⟩
          · intro v t hv
            have hts := ((hpath₁ v t).mp ((hpr.path v t).mp hv).1).2
            rw [hpr.node v t hv, hnode₁, Function.update_of_ne hts]
          · intro a e t ha hpre hv
            rcases List.prefix_concat_iff.mp hpre with rfl | hpre
            · -- below the leaf
              rw [← List.append_assoc, List.append_assoc q u₀ u₁] at hv
              rcases path_snoc.mp hv with ⟨s', hs'', he'⟩
              rw [ht.node_unique hs'' hs'] at he'
              exact absurd he' (hleaf e t)
            · by_cases hts : t = s
              · rw [hts] at hv
                have hword := ht.word_unique hv hs'
                rw [List.append_assoc, List.append_assoc, List.append_assoc, List.append_assoc] at hword
                have := List.append_cancel_left (List.append_cancel_left hword)
                rw [this]
              · exact (hpr.only a e t ha hpre ((hpath₁ _ _).mpr ⟨hv, hts⟩)).trans
                  (List.prefix_append _ _)
          · rw [hpr.size, FreeList.numCells_daFreeCell]
        · rw [if_neg (fun hcond => hchild hcond.2)]
          have htrue : daHasChildren d s = true := by simpa using hchild
          rcases (daHasChildren_iff h.free hcs).mp htrue with ⟨c, i, -, he⟩
          exact ⟨u, [], l, (List.append_nil u).symm, h, .refl _ _, .inr ⟨c, i, .snoc hs he⟩⟩

/-- `da_prune_upto`. -/
theorem daPruneUpto_spec (h : DaInv d l) (hp : DaPath d.node q p) (hs : DaPath d.node (q ++ u) s) :
    ∃ u₀ u₁ l', u = u₀ ++ u₁ ∧ DaInv (daPruneUpto d p s) l' ∧
      Pruned d (daPruneUpto d p s) (q ++ u₀) u₁ ∧
      (u₀ = [] ∨ ∃ c t, DaPath (daPruneUpto d p s).node (q ++ u₀ ++ [c]) t) := by
  have hlen := h.length_lt hs
  rw [List.length_append] at hlen
  exact pruneLoop_spec h hp hs (by omega)

end DnsCache

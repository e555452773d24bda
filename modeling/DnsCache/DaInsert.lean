import DnsCache.DaTree

/-! # A new branch in the double array

`da_insert_branch` may have to move the children of the node elsewhere. They
keep their words, under other names.

* `Renaming`, `relocateLoop_spec`: what the loop of `da_relocate_base` does to the states.
* `Rebased`: the same words lead to the same bases, up to the base of one node.
* `At`: the base at a word.
* `daInsertBranch_spec`: one word more, all others as they were.
-/

namespace DnsCache

open WordTree

variable {d : DArray} {l : List Int} {N N' : Int → Option DACell} {p s i a b x v : Int}
  {w u : List UInt8} {c sym : UInt8} {cs : DACell} {ρ : Int → Int}

/-! ## States under other names -/

/-- The states of `N'` are those of `N` under the names `ρ`. -/
structure Renaming (ρ : Int → Int) (N N' : Int → Option DACell) : Prop where
  fwd : ∀ {x c}, N x = some c → N' (ρ x) = some ⟨c.base, ρ c.check⟩
  bwd : ∀ {y c}, N' y = some c → ∃ x cx, N x = some cx ∧ ρ x = y ∧ c = ⟨cx.base, ρ cx.check⟩

/-- The names after the children on some characters are moved. -/
def movedTo (oldBase newBase : Int) (done : List UInt8) (x : Int) : Int :=
  if ∃ e ∈ done, x = oldBase + e.toNat then x - oldBase + newBase else x

/-- What is known about the children of `s` while they are moved to `newBase`. -/
structure Moving (N : Int → Option DACell) (s oldBase newBase : Int) (symbols : List UInt8) :
    Prop where
  good : Good N
  state : ∃ cs, N s = some cs ∧ cs.base = oldBase ∧ 0 < oldBase
  child : ∀ e ∈ symbols, ∃ i, Edge N s e i
  fresh : ∀ e ∈ symbols, N (newBase + e.toNat) = none
  pool : 3 ≤ newBase

namespace Moving

variable {oldBase newBase : Int} {symbols done : List UInt8}

theorem child_eq (h : Moving N s oldBase newBase symbols) (he : c ∈ symbols) :
    ∃ ci, N (oldBase + c.toNat) = some ci ∧ ci.check = s := by
  rcases h.child c he with ⟨i, cp, ci, hcp, -, rfl, hci, hcheck⟩
  rcases h.state with ⟨cs, hcs, rfl, -⟩
  rw [hcs] at hcp
  cases hcp
  exact ⟨ci, hci, hcheck⟩

theorem sub (h : Moving N s oldBase newBase symbols) (hsub : ∀ e ∈ done, e ∈ symbols) :
    Moving N s oldBase newBase done :=
  ⟨h.good, h.state, fun e he => h.child e (hsub e he), fun e he => h.fresh e (hsub e he), h.pool⟩

/-- `s` is not one of its children. -/
theorem child_ne (h : Moving N s oldBase newBase symbols) (he : c ∈ symbols) :
    oldBase + c.toNat ≠ s := by
  rcases h.child c he with ⟨i, hedge⟩
  rcases h.state with ⟨cs, hcs, hbase, -⟩
  rcases h.good.reach hcs with ⟨w, hw⟩
  have hne := h.good.isTree.edge_ne hw hedge
  rcases hedge with ⟨cp, ci, hcp, -, hi, -⟩
  rw [hcs] at hcp
  cases hcp
  rwa [hi, hbase] at hne

theorem movedTo_self (h : Moving N s oldBase newBase done) : movedTo oldBase newBase done s = s := by
  rw [movedTo, if_neg]
  rintro ⟨e, he, heq⟩
  exact h.child_ne he heq.symm

/-- Names that are not states, and the root, are kept. -/
theorem movedTo_of_not_child (h : Moving N s oldBase newBase done)
    (hx : ∀ cx, N x = some cx → cx.check ≠ s) : movedTo oldBase newBase done x = x := by
  rw [movedTo, if_neg]
  rintro ⟨e, he, rfl⟩
  rcases h.child_eq he with ⟨ci, hci, hcheck⟩
  exact hx ci hci hcheck

theorem low (h : Moving N s oldBase newBase done) : 2 ≤ s := by
  rcases h.state with ⟨cs, hcs, -⟩
  exact h.good.low hcs

theorem zero_none (h : Moving N s oldBase newBase done) : N 0 = none := by
  cases hz : N 0 with
  | none => rfl
  | some cz => exact absurd (h.good.low hz) (by decide)

theorem movedTo_zero (h : Moving N s oldBase newBase done) : movedTo oldBase newBase done 0 = 0 := by
  apply h.movedTo_of_not_child
  intro cx hcx
  rw [h.zero_none] at hcx
  cases hcx

theorem movedTo_root (h : Moving N s oldBase newBase done) :
    movedTo oldBase newBase done daGetRoot = daGetRoot := by
  apply h.movedTo_of_not_child
  intro cx hcx
  rcases h.good.root with ⟨b, -, hroot⟩
  rw [hroot] at hcx
  cases hcx
  have := h.low
  show (0 : Int) ≠ s
  omega

/-- A state is not named like a free cell. -/
theorem movedTo_eq (h : Moving N s oldBase newBase done) (hx : (N x).isSome ∨ x = 0)
    (ha : (N a).isSome) (hax : movedTo oldBase newBase done x = a) : x = a := by
  rw [movedTo] at hax
  split at hax
  · rename_i hmem
    rcases hmem with ⟨e, he, rfl⟩
    have hnone := h.fresh e he
    rw [show oldBase + (e.toNat : Int) - oldBase + newBase = newBase + e.toNat by omega] at hax
    rw [hax] at hnone
    rw [hnone] at ha
    cases ha
  · exact hax

/-- Different states have different names. -/
theorem movedTo_inj (h : Moving N s oldBase newBase done) {y : Int} (hx : (N x).isSome ∨ x = 0)
    (hy : (N y).isSome)
    (hxy : movedTo oldBase newBase done x = movedTo oldBase newBase done y) : x = y := by
  by_cases hmy : ∃ e ∈ done, y = oldBase + e.toNat
  · by_cases hmx : ∃ e ∈ done, x = oldBase + e.toNat
    · rw [movedTo, movedTo, if_pos hmx, if_pos hmy] at hxy
      omega
    · rcases hmy with ⟨e, he, rfl⟩
      have hnone := h.fresh e he
      rw [movedTo, movedTo, if_neg hmx, if_pos ⟨e, he, rfl⟩,
        show oldBase + (e.toNat : Int) - oldBase + newBase = newBase + e.toNat by omega] at hxy
      rw [← hxy] at hnone
      rcases hx with hx | hx
      · rw [hnone] at hx
        cases hx
      · -- a cell of the pool is not cell 0
        have := h.pool
        omega
  · have hyy : movedTo oldBase newBase done y = y := if_neg hmy
    rw [hyy] at hxy
    exact h.movedTo_eq hx hy hxy

/-- One more child moved. -/
theorem movedTo_append (h : Moving N s oldBase newBase (done ++ [sym])) (x : Int) :
    movedTo oldBase newBase (done ++ [sym]) x =
      if movedTo oldBase newBase done x = oldBase + sym.toNat then newBase + sym.toNat
      else movedTo oldBase newBase done x := by
  by_cases hx : ∃ e ∈ done, x = oldBase + e.toNat
  · have hx' : ∃ e ∈ done ++ [sym], x = oldBase + e.toNat := by
      rcases hx with ⟨e, he, heq⟩
      exact ⟨e, List.mem_append_left _ he, heq⟩
    rw [movedTo, movedTo, if_pos hx, if_pos hx', if_neg]
    rcases hx with ⟨e, he, rfl⟩
    intro heq
    have hnone := h.fresh e (List.mem_append_left _ he)
    rcases h.child_eq (List.mem_append_right _ List.mem_cons_self) with ⟨ca, hca, -⟩
    rw [← heq, show oldBase + (e.toNat : Int) - oldBase + newBase = newBase + e.toNat by omega,
      hnone] at hca
    cases hca
  · by_cases hsym : x = oldBase + sym.toNat
    · have hx' : ∃ e ∈ done ++ [sym], x = oldBase + e.toNat := ⟨sym, by simp, hsym⟩
      rw [movedTo, movedTo, if_neg hx, if_pos hx', if_pos hsym]
      omega
    · have hx' : ¬ ∃ e ∈ done ++ [sym], x = oldBase + e.toNat := by
        rintro ⟨e, he, heq⟩
        rcases List.mem_append.mp he with he | he
        · exact hx ⟨e, he, heq⟩
        · rw [List.mem_singleton.mp he] at heq
          exact hsym heq
      rw [movedTo, movedTo, if_neg hx, if_neg hx', if_neg hsym]

end Moving

/-- Moving one state renames it. -/
theorem Renaming.moveNode (h : Renaming ρ N N') (hb : N' b = none) {ρ' : Int → Int}
    (hρ : ∀ x, ρ' x = if ρ x = a then b else ρ x) (ha : ∀ ca, N' a = some ca → ca.check ≠ a) :
    Renaming ρ' N (moveNode N' a b) := by
  constructor
  · intro x c hx
    have hfwd := h.fwd hx
    have hne : ρ x ≠ b := by
      intro heq
      rw [heq, hb] at hfwd
      cases hfwd
    rw [hρ x, hρ c.check]
    by_cases hxa : ρ x = a
    · have hab : b ≠ a := by
        rw [← hxa]
        exact hne.symm
      rw [if_pos hxa, DnsCache.moveNode, if_neg hab, if_pos rfl]
      rw [hxa] at hfwd
      rw [hfwd, if_neg (ha _ hfwd)]
    · rw [if_neg hxa, DnsCache.moveNode, if_neg hxa, if_neg hne, hfwd, Option.map_some]
      split <;> rfl
  · intro y c hy
    rw [DnsCache.moveNode] at hy
    split at hy
    · cases hy
    · rename_i hya
      split at hy
      · rename_i hyb
        rcases h.bwd hy with ⟨x, cx, hx, hρx, rfl⟩
        refine ⟨x, cx, hx, ?_, ?_⟩
        · rw [hρ, if_pos hρx, hyb]
        · rw [hρ, if_neg]
          exact ha _ hy
      · rcases Option.map_eq_some_iff.mp hy with ⟨c', hc', hcc⟩
        rcases h.bwd hc' with ⟨x, cx, hx, hρx, rfl⟩
        refine ⟨x, cx, hx, ?_, ?_⟩
        · rw [hρ, hρx, if_neg hya]
        · rw [← hcc, hρ]
          split <;> rfl

/-- The loop of `da_relocate_base`. -/
theorem relocateLoop_spec {oldBase newBase : Int} {rest done : List UInt8}
    (hm : Moving N s oldBase newBase (done ++ rest)) (hnodup : (done ++ rest).Nodup)
    (hf : FreeList d l) (hroom : ∀ e ∈ rest, newBase + e.toNat < d.numCells)
    (hren : Renaming (movedTo oldBase newBase done) N d.node) :
    ∃ l', FreeList (rest.foldl (relocateSymbol s oldBase newBase) d) l' ∧
      (rest.foldl (relocateSymbol s oldBase newBase) d).numCells = d.numCells ∧
      Renaming (movedTo oldBase newBase (done ++ rest)) N
        (rest.foldl (relocateSymbol s oldBase newBase) d).node := by
  induction rest generalizing d l done with
  | nil =>
      rw [List.append_nil]
      exact ⟨l, hf, rfl, hren⟩
  | cons sym rest ih =>
      have hassoc : done ++ sym :: rest = (done ++ [sym]) ++ rest := by simp
      have hmd : Moving N s oldBase newBase done := hm.sub fun e he => List.mem_append_left _ he
      have hm1 : Moving N s oldBase newBase (done ++ [sym]) := by
        rw [hassoc] at hm
        exact hm.sub fun e he => List.mem_append_left _ he
      have hsym : sym ∈ done ++ sym :: rest := by simp
      rcases hm.child_eq hsym with ⟨ca, hca, hcheck⟩
      have hne := hm.child_ne hsym
      have hlow := hm.low
      have hsymdone : sym ∉ done := by
        intro hmem
        exact (List.nodup_append.mp hnodup).2.2 sym hmem sym List.mem_cons_self rfl
      -- the child still has its old name
      have hname : movedTo oldBase newBase done (oldBase + sym.toNat) = oldBase + sym.toNat := by
        rw [movedTo, if_neg]
        rintro ⟨e, he, heq⟩
        have : sym = e := UInt8.toNat_inj.mp (by omega)
        rw [this] at hsymdone
        exact hsymdone he
      have hda : d.node (oldBase + sym.toNat) = some ⟨ca.base, s⟩ := by
        have hfwd := hren.fwd hca
        rwa [hname, hcheck, hmd.movedTo_self] at hfwd
      have hroot : oldBase + (sym.toNat : Int) ≠ daGetRoot := by
        intro heq
        rcases hm.good.root with ⟨b, -, hroot⟩
        rw [heq, hroot] at hca
        cases hca
        have hzero : (0 : Int) = s := hcheck
        omega
      have hnone : d.node (newBase + sym.toNat) = none := by
        cases hb : d.node (newBase + sym.toNat) with
        | none => rfl
        | some cb =>
            exfalso
            rcases hren.bwd hb with ⟨x, cx, hx, hρx, -⟩
            rw [movedTo] at hρx
            split at hρx
            · rename_i hmem
              rcases hmem with ⟨e, he, rfl⟩
              have : sym = e := UInt8.toNat_inj.mp (by omega)
              rw [this] at hsymdone
              exact hsymdone he
            · rw [hρx, hm.fresh sym hsym] at hx
              cases hx
      have hpool := hm.pool
      have hb := hf.mem_of_node_none (by omega) (hroom sym List.mem_cons_self) hnone
      have hchildren : ∀ x cx, d.node x = some cx → cx.check = oldBase + sym.toNat →
          0 < ca.base ∧ ∃ e : UInt8, e ≠ 255 ∧ x = ca.base + e.toNat := by
        intro y cy hy hcy
        rcases hren.bwd hy with ⟨x, cx, hx, rfl, rfl⟩
        -- the parent is the child that is moved, under its old name
        have hparent : cx.check = oldBase + sym.toNat := by
          refine hmd.movedTo_eq ?_ (by rw [hca]; rfl) hcy
          by_cases hxr : x = daGetRoot
          · rcases hm.good.root with ⟨b, -, hroot⟩
            rw [hxr, hroot] at hx
            cases hx
            exact .inr rfl
          · rcases hm.good.parent hx hxr with ⟨e, he⟩
            rcases he.node.1 with ⟨cp, hcp, -⟩
            exact .inl (by rw [hcp]; rfl)
        have hxname : movedTo oldBase newBase done x = x := by
          apply hmd.movedTo_of_not_child
          intro cx' hcx'
          rw [hx] at hcx'
          cases hcx'
          rw [hparent]
          exact hne
        have hxr : x ≠ daGetRoot := by
          rintro rfl
          rcases hm.good.root with ⟨b, -, hroot⟩
          rw [hroot] at hx
          cases hx
          have hlow' := hm.good.low hca
          have hzero : (0 : Int) = oldBase + sym.toNat := hparent
          omega
        rcases hm.good.parent hx hxr with ⟨e, he⟩
        rw [hparent] at he
        have hsmall := hm.good.small he
        rcases he with ⟨cp, ci, hcp, hpos, heq, -⟩
        rw [hca] at hcp
        cases hcp
        exact ⟨hpos, e, hsmall, by rw [hxname]; exact heq⟩
      rcases relocateSymbol_spec hf hda (hm.good.three_le hca hroot) hb (by omega) hne.symm hchildren
        with ⟨l₁, hf₁, hn₁, hnode₁⟩
      have hren₁ : Renaming (movedTo oldBase newBase (done ++ [sym])) N
          (relocateSymbol s oldBase newBase d sym).node := by
        rw [hnode₁]
        refine hren.moveNode hnone hm1.movedTo_append ?_
        intro ca' hca'
        rw [hda] at hca'
        cases hca'
        exact hne.symm
      rw [hassoc] at hm hnodup ⊢
      rcases ih hm hnodup hf₁ (fun e he => by rw [hn₁]; exact hroom e (List.mem_cons_of_mem _ he)) hren₁
        with ⟨l', hf', hn', hren'⟩
      exact ⟨l', hf', hn'.trans hn₁, hren'⟩

/-! ## The base of one node changed -/

/-- The states of `N` under the names `ρ`, with base `b` for `s`. -/
structure Rebased (s b : Int) (ρ : Int → Int) (N N' : Int → Option DACell) : Prop where
  good : Good N'
  pool : daPoolBegin ≤ b
  self : ρ s = s
  path : ∀ {w t}, DaPath N w t → DaPath N' w (ρ t)
  back : ∀ {w j}, DaPath N' w j → ∃ t, DaPath N w t ∧ ρ t = j
  base : ∀ {x c}, N x = some c →
    ∃ c', N' (ρ x) = some c' ∧ c'.base = if x = s then b else c.base
  stay : ∀ {x c}, N x = some c → c.check ≠ s → ρ x = x

/-- Edges that correspond are enough. -/
theorem Rebased.of_edges (hg : Good N) (hpool : daPoolBegin ≤ b) (hself : ρ s = s)
    (hroot : ρ daGetRoot = daGetRoot) (hlow : ∀ {y c}, N' y = some c → 2 ≤ y)
    (hstate : ∀ {x c}, N x = some c →
      N' (ρ x) = some ⟨if x = s then b else c.base, ρ c.check⟩)
    (hzero : ρ 0 = 0)
    (hname : ∀ {y c}, N' y = some c → ∃ x cx, N x = some cx ∧ ρ x = y)
    (hedge : ∀ {p c i}, Edge N p c i → Edge N' (ρ p) c (ρ i))
    (hback : ∀ {p c j}, (N p).isSome → Edge N' (ρ p) c j → ∃ i, Edge N p c i ∧ ρ i = j)
    (hstay : ∀ {x c}, N x = some c → c.check ≠ s → ρ x = x) :
    Rebased s b ρ N N' := by
  have hpath : ∀ {w t}, DaPath N w t → DaPath N' w (ρ t) := fun h =>
    h.map hroot fun _ _ _ _ _ he => hedge he
  have hcomap : ∀ {w j}, DaPath N' w j → ∃ t, DaPath N w t ∧ ρ t = j := fun h =>
    h.comap hroot fun _ _ _ _ hp he => by
      rcases hg.node_of_path hp with ⟨cp, hcp⟩
      exact hback (by rw [hcp]; rfl) he
  refine ⟨⟨?_, hlow, ?_, ?_, ?_⟩, hpool, hself, hpath, hcomap, ?_, hstay⟩
  · rcases hg.root with ⟨b₀, hb₀, hroot₀⟩
    have h := hstate hroot₀
    rw [hroot, hzero] at h
    refine ⟨_, ?_, h⟩
    unfold daPoolBegin at hpool
    split
    · omega
    · exact hb₀
  · intro y c hy hpos
    rcases hname hy with ⟨x, cx, hx, rfl⟩
    have h := hstate hx
    rw [hy] at h
    cases h
    show daPoolBegin ≤ if x = s then b else cx.base
    split
    · exact hpool
    · rename_i hxs
      have hbase : (if x = s then b else cx.base) = cx.base := if_neg hxs
      exact hg.pool hx (hbase ▸ hpos)
  · intro y c hy
    rcases hname hy with ⟨x, cx, hx, rfl⟩
    rcases hg.reach hx with ⟨w, hw⟩
    exact ⟨w, hpath hw⟩
  · intro p c j he
    rcases he.node.1 with ⟨cp, hcp, -⟩
    rcases hname hcp with ⟨x, cx, hx, rfl⟩
    rcases hback (by rw [hx]; rfl) he with ⟨i, hi, -⟩
    exact hg.small hi
  · intro x c hx
    exact ⟨_, hstate hx, rfl⟩

/-- Nothing but the base of a childless node. -/
theorem Rebased.of_leaf (hg : Good N) (hs : N s = some cs) (hleaf : ∀ c i, ¬ Edge N s c i)
    (hb : daPoolBegin ≤ b) : Rebased s b id N (Function.update N s (some ⟨b, cs.check⟩)) := by
  have hstate : ∀ {x c}, N x = some c → Function.update N s (some ⟨b, cs.check⟩) x =
      some ⟨if x = s then b else c.base, c.check⟩ := by
    intro x c hx
    by_cases hxs : x = s
    · rw [hxs, hs] at hx
      cases hx
      rw [hxs, Function.update_self, if_pos rfl]
    · rw [Function.update_of_ne hxs, hx, if_neg hxs]
  have hname : ∀ {y c}, Function.update N s (some ⟨b, cs.check⟩) y = some c →
      ∃ x cx, N x = some cx ∧ id x = y := by
    intro y c hy
    by_cases hys : y = s
    · exact ⟨s, cs, hs, hys.symm⟩
    · rw [Function.update_of_ne hys] at hy
      exact ⟨y, c, hy, rfl⟩
  have hparent : ∀ {p i ci}, N i = some ci → ci.check = p → p ≠ 0 → ∃ c, Edge N p c i := by
    rintro p i ci hi rfl hp
    have hir : i ≠ daGetRoot := by
      rintro rfl
      rcases hg.root with ⟨b₀, -, hroot⟩
      rw [hroot] at hi
      cases hi
      exact hp rfl
    exact hg.parent hi hir
  refine .of_edges hg hb rfl rfl ?_ hstate rfl hname ?_ ?_ fun _ _ => rfl
  · intro y c hy
    rcases hname hy with ⟨x, cx, hx, rfl⟩
    exact hg.low hx
  · rintro p c i he
    have hps : p ≠ s := by
      rintro rfl
      exact hleaf c i he
    obtain ⟨cp, ci, hp, hpos, heq, hi, hcheck⟩ := he
    have hp' := hstate hp
    rw [if_neg hps] at hp'
    exact ⟨_, _, hp', hpos, heq, hstate hi, hcheck⟩
  · rintro p c j hp ⟨cp', cj', hcp', hpos, heq, hcj', hcheck⟩
    rcases Option.isSome_iff_exists.mp hp with ⟨cp, hcp⟩
    rcases hname hcj' with ⟨j', cj, hcj, rfl⟩
    rw [id, hstate hcp] at hcp'
    rw [id, hstate hcj] at hcj'
    cases hcp'
    cases hcj'
    have hp0 := hg.low hcp
    rcases hparent hcj hcheck (by simp only [id]; omega) with ⟨e, he⟩
    have hps : p ≠ s := by
      rintro rfl
      exact hleaf e j' he
    have hbase : (if p = s then b else cp.base) = cp.base := if_neg hps
    exact ⟨j', ⟨cp, cj, hcp, hbase ▸ hpos, hbase ▸ heq, hcj, hcheck⟩, rfl⟩

theorem Rebased.of_moving {oldBase newBase : Int} {symbols : List UInt8}
    (hm : Moving N s oldBase newBase symbols) (hall : ∀ c i, Edge N s c i → c ∈ symbols)
    {cf : DACell} (hren : Renaming (movedTo oldBase newBase symbols) N N') (hcf : N' s = some cf) :
    Rebased s newBase (movedTo oldBase newBase symbols) N
      (Function.update N' s (some ⟨newBase, cf.check⟩)) := by
  have hg := hm.good
  have hself := hm.movedTo_self
  rcases hm.state with ⟨cs, hcs, hbase, hpos⟩
  have hpool := hm.pool
  generalize hρ : movedTo oldBase newBase symbols = ρ at *
  have hinj : ∀ {x y}, (N x).isSome ∨ x = 0 → (N y).isSome → ρ x = ρ y → x = y := by
    intro x y hx hy hxy
    rw [← hρ] at hxy
    exact hm.movedTo_inj hx hy hxy
  have hstate : ∀ {x c}, N x = some c → Function.update N' s (some ⟨newBase, cf.check⟩) (ρ x) =
      some ⟨if x = s then newBase else c.base, ρ c.check⟩ := by
    intro x c hx
    have hfwd := hren.fwd hx
    by_cases hxs : x = s
    · rw [hxs, hself] at hfwd
      rw [hcf] at hfwd
      cases hfwd
      rw [hxs, hself, Function.update_self, if_pos rfl]
    · have hne : ρ x ≠ s := by
        intro heq
        rw [← hself] at heq
        exact hxs (hinj (.inl (by rw [hx]; rfl)) (by rw [hcs]; rfl) heq)
      rw [Function.update_of_ne hne, hfwd, if_neg hxs]
  have hname : ∀ {y c}, Function.update N' s (some ⟨newBase, cf.check⟩) y = some c →
      ∃ x cx, N x = some cx ∧ ρ x = y := by
    intro y c hy
    by_cases hys : y = s
    · exact ⟨s, cs, hcs, hself.trans hys.symm⟩
    · rw [Function.update_of_ne hys] at hy
      rcases hren.bwd hy with ⟨x, cx, hx, hxy, -⟩
      exact ⟨x, cx, hx, hxy⟩
  have hedge : ∀ {p c i}, Edge N p c i →
      Edge (Function.update N' s (some ⟨newBase, cf.check⟩)) (ρ p) c (ρ i) := by
    intro p c i he
    obtain ⟨cp, ci, hp, hppos, heq, hi, hcheck⟩ := id he
    refine ⟨_, _, hstate hp, ?_, ?_, hstate hi, by rw [hcheck]⟩
    · show 0 < if p = s then newBase else cp.base
      split
      · omega
      · exact hppos
    · show ρ i = (if p = s then newBase else cp.base) + c.toNat
      by_cases hps : p = s
      · rw [hps, hcs] at hp
        cases hp
        rw [hps] at he
        rw [if_pos hps, ← hρ, movedTo, if_pos ⟨c, hall c i he, by omega⟩]
        omega
      · rw [if_neg hps, ← heq, ← hρ]
        apply hm.movedTo_of_not_child
        intro ci' hci'
        rw [hi] at hci'
        cases hci'
        rwa [hcheck]
  refine .of_edges hg hpool hself (by rw [← hρ]; exact hm.movedTo_root) ?_ hstate
    (by rw [← hρ]; exact hm.movedTo_zero) hname hedge ?_ ?_
  · intro y c hy
    rcases hname hy with ⟨x, cx, hx, rfl⟩
    have hx2 := hg.low hx
    rw [← hρ, movedTo]
    split
    · rename_i hmem
      rcases hmem with ⟨e, -, rfl⟩
      omega
    · exact hx2
  · intro p c j hp he
    rcases he.node.2 with ⟨cj, hcj, hcheck⟩
    rcases hname hcj with ⟨x, cx, hx, rfl⟩
    have hx' := hstate hx
    rw [hcj] at hx'
    cases hx'
    rcases Option.isSome_iff_exists.mp hp with ⟨cp, hcp⟩
    have hp2 := hg.low hcp
    -- the parent of the old state
    have hparent : cx.check = p := by
      refine hinj ?_ hp hcheck
      by_cases hxr : x = daGetRoot
      · rcases hg.root with ⟨b₀, -, hroot⟩
        rw [hxr, hroot] at hx
        cases hx
        exact .inr rfl
      · rcases hg.parent hx hxr with ⟨e, he'⟩
        rcases he'.node.1 with ⟨cq, hcq, -⟩
        exact .inl (by rw [hcq]; rfl)
    have hxr : x ≠ daGetRoot := by
      rintro rfl
      rcases hg.root with ⟨b₀, -, hroot⟩
      rw [hroot] at hx
      cases hx
      have hzero : (0 : Int) = p := hparent
      omega
    rcases hg.parent hx hxr with ⟨e, he'⟩
    rw [hparent] at he'
    -- the same cell on both characters
    have hec : e = c := by
      obtain ⟨cp₁, -, hcp₁, -, heq₁, -⟩ := hedge he'
      obtain ⟨cp₂, -, hcp₂, -, heq₂, -⟩ := he
      rw [hcp₁] at hcp₂
      cases hcp₂
      exact UInt8.toNat_inj.mp (by omega)
    rw [← hec]
    exact ⟨x, he', rfl⟩
  · intro x cx hx hcheck
    rw [← hρ]
    apply hm.movedTo_of_not_child
    intro cx' hx'
    rw [hx] at hx'
    cases hx'
    exact hcheck

theorem Rebased.refl (hg : Good N) (hs : N s = some cs) (hpos : 0 < cs.base) :
    Rebased s cs.base id N N := by
  refine ⟨hg, hg.pool hs hpos, rfl, fun h => h, fun {w j} h => ⟨j, h, rfl⟩, fun {x c} hx => ⟨c, hx, ?_⟩,
    fun _ _ => rfl⟩
  split
  · rename_i hxs
    rw [hxs, hs] at hx
    cases hx
    rfl
  · rfl

/-! ## The base at a word -/

/-- The word leads to a state with base `b`. -/
def At (N : Int → Option DACell) (w : List UInt8) (b : Int) : Prop :=
  ∃ s c, DaPath N w s ∧ N s = some c ∧ c.base = b

theorem Good.at_unique (hg : Good N) {b' : Int} (h : At N w b) (h' : At N w b') : b = b' := by
  rcases h with ⟨s, c, hw, hs, rfl⟩
  rcases h' with ⟨s', c', hw', hs', rfl⟩
  rw [hg.isTree.node_unique hw hw', hs'] at hs
  cases hs
  rfl

theorem Rebased.at_other (h : Rebased s b ρ N N') (hg : Good N) (hw : DaPath N w s)
    {v : List UInt8} (hv : v ≠ w) {b' : Int} : At N' v b' ↔ At N v b' := by
  have hne : ∀ t, DaPath N v t → t ≠ s := by
    rintro t ht rfl
    exact hv (hg.isTree.word_unique ht hw)
  constructor
  · rintro ⟨j, cj, hj, hcj, rfl⟩
    rcases h.back hj with ⟨t, ht, rfl⟩
    rcases hg.node_of_path ht with ⟨ct, hct⟩
    rcases h.base hct with ⟨c', hc', hbase⟩
    rw [hcj] at hc'
    cases hc'
    rw [if_neg (hne t ht)] at hbase
    exact ⟨t, ct, ht, hct, hbase.symm⟩
  · rintro ⟨t, ct, ht, hct, rfl⟩
    rcases h.base hct with ⟨c', hc', hbase⟩
    rw [if_neg (hne t ht)] at hbase
    exact ⟨ρ t, c', h.path ht, hc', hbase⟩

/-- A new leaf. -/
theorem Good.addLeaf (hg : Good N) (hs : N s = some cs) (hpos : 0 < cs.base) (hx : N x = none)
    (hx2 : daGetRoot < x) (hxc : x = cs.base + c.toNat) (hc : c ≠ 255) (hb : b ≤ 0) :
    Good (Function.update N x (some ⟨b, s⟩)) ∧ ∀ v t,
      DaPath (Function.update N x (some ⟨b, s⟩)) v t ↔
        DaPath N v t ∨ ∃ w, DaPath N w s ∧ v = w ++ [c] ∧ t = x := by
  have hsx : s ≠ x := by
    rintro rfl
    rw [hx] at hs
    cases hs
  have hself : Function.update N x (some ⟨b, s⟩) x = some ⟨b, s⟩ := Function.update_self ..
  have hold : ∀ {y cy}, N y = some cy → Function.update N x (some ⟨b, s⟩) y = some cy := by
    intro y cy hy
    rw [Function.update_of_ne, hy]
    rintro rfl
    rw [hx] at hy
    cases hy
  have hedge : ∀ p e i, Edge (Function.update N x (some ⟨b, s⟩)) p e i ↔
      Edge N p e i ∨ p = s ∧ e = c ∧ i = x := by
    intro p e i
    constructor
    · rintro ⟨cp, ci, hp, hppos, heq, hi, hcheck⟩
      have hpx : p ≠ x := by
        rintro rfl
        rw [hself] at hp
        cases hp
        exact absurd hppos (Int.not_lt.mpr hb)
      rw [Function.update_of_ne hpx] at hp
      by_cases hix : i = x
      · rw [hix, hself] at hi
        cases hi
        have hps : s = p := hcheck
        subst hps
        rw [hs] at hp
        cases hp
        exact .inr ⟨rfl, UInt8.toNat_inj.mp (by omega), hix⟩
      · rw [Function.update_of_ne hix] at hi
        exact .inl ⟨cp, ci, hp, hppos, heq, hi, hcheck⟩
    · rintro (⟨cp, ci, hp, hppos, heq, hi, hcheck⟩ | ⟨rfl, rfl, rfl⟩)
      · exact ⟨cp, ci, hold hp, hppos, heq, hold hi, hcheck⟩
      · exact ⟨cs, _, hold hs, hpos, hxc, hself, rfl⟩
  have hpath : ∀ v t, DaPath (Function.update N x (some ⟨b, s⟩)) v t ↔
      DaPath N v t ∨ ∃ w, DaPath N w s ∧ v = w ++ [c] ∧ t = x := by
    intro v t
    refine path_addLeaf ?_ (Int.ne_of_gt hx2) ?_ hedge
    · intro p d he
      rcases he.node.2 with ⟨cx, hcx, -⟩
      rw [hx] at hcx
      cases hcx
    · intro d i he
      rcases he.node.1 with ⟨cx, hcx, -⟩
      rw [hx] at hcx
      cases hcx
  refine ⟨⟨?_, ?_, ?_, ?_, ?_⟩, hpath⟩
  · rcases hg.root with ⟨b₀, hb₀, hroot⟩
    exact ⟨b₀, hb₀, hold hroot⟩
  · intro i ci hi
    by_cases hix : i = x
    · rw [hix]
      exact Int.le_of_lt hx2
    · rw [Function.update_of_ne hix] at hi
      exact hg.low hi
  · intro i ci hi hposi
    by_cases hix : i = x
    · rw [hix, hself] at hi
      cases hi
      exact absurd hposi (Int.not_lt.mpr hb)
    · rw [Function.update_of_ne hix] at hi
      exact hg.pool hi hposi
  · intro i ci hi
    by_cases hix : i = x
    · rcases hg.reach hs with ⟨w, hw⟩
      exact ⟨w ++ [c], (hpath _ _).mpr (.inr ⟨w, hw, rfl, hix⟩)⟩
    · rw [Function.update_of_ne hix] at hi
      rcases hg.reach hi with ⟨w, hw⟩
      exact ⟨w, (hpath _ _).mpr (.inl hw)⟩
  · intro p e i he
    rcases (hedge p e i).mp he with he | ⟨-, rfl, -⟩
    · exact hg.small he
    · exact hc

/-- One word more than before. -/
structure Inserted (N N' : Int → Option DACell) (w : List UInt8) (c : UInt8) (s next : Int) :
    Prop where
  parent : DaPath N' w s
  inner : ∃ b, 0 < b ∧ At N' w b
  child : DaPath N' (w ++ [c]) next
  leaf : ∃ b, b ≤ 0 ∧ At N' (w ++ [c]) b
  other : ∀ v b, v ≠ w → v ≠ w ++ [c] → (At N' v b ↔ At N v b)
  stay : ∀ v t, v <+: w → DaPath N v t → DaPath N' v t

/-- The last lines of `da_insert_branch`. -/
theorem takeCell_spec (hf : FreeList d l) (hg : Good N) (hr : Rebased s b ρ N d.node)
    (hw : DaPath N w s) (hnext : b + c.toNat ∈ l) (hc : c ≠ 255)
    (hlt : ∀ {x c}, N x = some c → c.base ≤ d.numCells) :
    DaInv (takeCell d s (b + c.toNat)) (l.erase (b + c.toNat)) ∧
      Inserted N (takeCell d s (b + c.toNat)).node w c s (b + c.toNat) := by
  rcases hg.node_of_path hw with ⟨cs, hcs⟩
  rcases hr.base hcs with ⟨cs', hcs', hbase⟩
  rw [hr.self] at hcs'
  rw [if_pos rfl] at hbase
  have hs2 := hr.good.low hcs'
  have hmem := (hf.mem_iff _).mp hnext
  have hnone := hf.node_of_mem hnext
  have hpool := hr.pool
  unfold daPoolBegin at hpool
  rcases hf.take hnext (by omega : 0 ≤ s) with ⟨hf', bb, hbb, hnode⟩
  rcases hr.good.addLeaf (x := b + c.toNat) hcs' (by omega) hnone (by unfold daGetRoot; omega)
    (by rw [hbase]) hc (Int.le_of_lt hbb) with ⟨hgood, hpath⟩
  rw [← hnode] at hgood hpath
  have hws : DaPath d.node w s := by
    have h := hr.path hw
    rwa [hr.self] at h
  have hnew : (takeCell d s (b + c.toNat)).node (b + c.toNat) = some ⟨bb, s⟩ := by
    rw [hnode, Function.update_self]
  have hold : ∀ {y cy}, d.node y = some cy → (takeCell d s (b + c.toNat)).node y = some cy := by
    intro y cy hy
    rw [hnode, Function.update_of_ne, hy]
    rintro rfl
    rw [hnone] at hy
    cases hy
  refine ⟨⟨hf', hgood, ?_⟩, ?_, ?_, ?_, ?_, ?_, ?_⟩
  · intro y cy hy
    rw [FreeList.numCells_takeCell]
    rw [hnode, Function.update_apply] at hy
    split at hy
    · cases hy
      show bb ≤ d.numCells
      omega
    · rcases hr.good.reach hy with ⟨v, hv⟩
      rcases hr.back hv with ⟨t, ht, rfl⟩
      rcases hg.node_of_path ht with ⟨ct, hct⟩
      rcases hr.base hct with ⟨ct', hct', hbt⟩
      rw [hy] at hct'
      cases hct'
      rw [hbt]
      split
      · omega
      · exact hlt hct
  · exact (hpath w s).mpr (.inl hws)
  · exact ⟨b, by omega, s, cs', (hpath w s).mpr (.inl hws), hold hcs', hbase⟩
  · exact (hpath _ _).mpr (.inr ⟨w, hws, rfl, rfl⟩)
  · exact ⟨bb, by omega, _, _, (hpath _ _).mpr (.inr ⟨w, hws, rfl, rfl⟩), hnew, rfl⟩
  · intro v b' hvw hvc
    rw [← hr.at_other hg hw hvw]
    constructor
    · rintro ⟨t, ct, ht, hct, rfl⟩
      rcases (hpath v t).mp ht with ht | ⟨w', hw', rfl, -⟩
      · rcases hr.good.node_of_path ht with ⟨ct', hct'⟩
        rw [hold hct'] at hct
        cases hct
        exact ⟨t, _, ht, hct', rfl⟩
      · rw [hr.good.isTree.word_unique hw' hws] at hvc
        exact absurd rfl hvc
    · rintro ⟨t, ct, ht, hct, rfl⟩
      exact ⟨t, ct, (hpath v t).mpr (.inl ht), hold hct, rfl⟩
  · intro v t hpre ht
    rcases hg.node_of_path ht with ⟨ct, hct⟩
    have hcheck : ct.check ≠ s := by
      intro hcheck
      have htr : t ≠ daGetRoot := by
        rintro rfl
        rcases hg.root with ⟨b₀, -, hroot⟩
        rw [hroot] at hct
        cases hct
        have hzero : (0 : Int) = s := hcheck
        omega
      rcases hg.parent hct htr with ⟨e, he⟩
      rw [hcheck] at he
      -- a child of `s` has a longer word than `s`
      have hlen := hpre.length_le
      rw [hg.isTree.word_unique ht (.snoc hw he), List.length_append, List.length_singleton] at hlen
      omega
    have h := hr.path ht
    rw [hr.stay hct hcheck] at h
    exact (hpath v t).mpr (.inl h)

/-! ## `da_insert_branch` -/

/-- Nothing moved yet. -/
theorem Renaming.refl (N : Int → Option DACell) (oldBase newBase : Int) :
    Renaming (movedTo oldBase newBase []) N N := by
  have hid : ∀ x, movedTo oldBase newBase [] x = x := by
    intro x
    rw [movedTo, if_neg]
    rintro ⟨e, he, -⟩
    cases he
  constructor
  · intro x c hx
    rw [hid, hid, hx]
  · intro y c hy
    exact ⟨y, c, hy, hid y, by rw [hid]⟩

/-- `da_relocate_base`: the children of `s` are found at the new base. -/
theorem daRelocateBase_spec (h : DaInv d l) (hs : d.node s = some cs) (hpos : 0 < cs.base)
    {newBase : Int} (hpool : daPoolBegin ≤ newBase)
    (hfree : ∀ e i, Edge d.node s e i → newBase + e.toNat ∈ l) :
    ∃ l' ρ, FreeList (daRelocateBase d s newBase) l' ∧
      (daRelocateBase d s newBase).numCells = d.numCells ∧
      Rebased s newBase ρ d.node (daRelocateBase d s newBase).node ∧
      ∀ c : UInt8, (∀ i, ¬ Edge d.node s c i) → newBase + c.toNat ∈ l → newBase + c.toNat ∈ l' := by
  have hf := h.free
  have hmemsym : ∀ e, e ∈ daOutputSymbols d s ↔ ∃ i, Edge d.node s e i := by
    intro e
    rw [mem_daOutputSymbols hf hs hpos]
    constructor
    · exact fun he => he.2
    · rintro ⟨i, he⟩
      exact ⟨h.good.small he, i, he⟩
  have hm : Moving d.node s cs.base newBase (daOutputSymbols d s) := by
    refine ⟨h.good, ⟨cs, hs, rfl, hpos⟩, fun e he => (hmemsym e).mp he, ?_, hpool⟩
    intro e he
    rcases (hmemsym e).mp he with ⟨i, hedge⟩
    exact hf.node_of_mem (hfree e i hedge)
  have hnodup : (daOutputSymbols d s).Nodup := by
    refine (daOutputSymbols_sorted d s).imp ?_
    rintro e _ hlt rfl
    exact UInt8.lt_irrefl _ hlt
  have hroom : ∀ e ∈ daOutputSymbols d s, newBase + e.toNat < d.numCells := by
    intro e he
    rcases (hmemsym e).mp he with ⟨i, hedge⟩
    exact ((hf.mem_iff _).mp (hfree e i hedge)).2.1
  have hm₀ : Moving d.node s cs.base newBase ([] ++ daOutputSymbols d s) := hm
  rcases relocateLoop_spec hm₀ hnodup hf hroom (Renaming.refl d.node cs.base newBase)
    with ⟨l₁, hf₁, hn₁, hren⟩
  rw [List.nil_append] at hren
  have hrel : daRelocateBase d s newBase =
      daSetBase ((daOutputSymbols d s).foldl (relocateSymbol s cs.base newBase) d) s newBase := by
    rw [daRelocateBase, daGetBase_eq hs]
  generalize (daOutputSymbols d s).foldl (relocateSymbol s cs.base newBase) d = d₁ at *
  have hs₁ := hren.fwd hs
  rw [hm.movedTo_self] at hs₁
  rcases hf₁.setBase hs₁ newBase with ⟨hf₂, hnode₂⟩
  rw [hrel]
  refine ⟨l₁, movedTo cs.base newBase (daOutputSymbols d s), hf₂,
    by rw [numCells_daSetBase, hn₁], ?_, ?_⟩
  · rw [hnode₂]
    exact Rebased.of_moving hm (fun e i he => (hmemsym e).mpr ⟨i, he⟩) hren hs₁
  · intro c hc hmem
    have hb := (hf.mem_iff _).mp hmem
    refine hf₁.mem_of_node_none hb.1 (by rw [hn₁]; exact hb.2.1) ?_
    -- no state has this name
    cases hcell : d₁.node (newBase + c.toNat) with
    | none => rfl
    | some cb =>
        exfalso
        rcases hren.bwd hcell with ⟨x, cx, hx, hρx, -⟩
        rw [movedTo] at hρx
        split at hρx
        · rename_i hmoved
          rcases hmoved with ⟨e, he, rfl⟩
          have hec : e = c := UInt8.toNat_inj.mp (by omega)
          rcases (hmemsym e).mp he with ⟨i, hedge⟩
          exact hc i (hec ▸ hedge)
        · rw [hρx, hf.node_of_mem hmem] at hx
          cases hx

/-- What a call leaves: the old tree, or one with the new word. -/
structure InsertResult (d : DArray) (w : List UInt8) (s : Int) (c : UInt8) (next : Int)
    (d' : DArray) (l' : List Int) : Prop where
  inv : DaInv d' l'
  failed : next = trieIndexError → d'.node = d.node
  inserted : next ≠ trieIndexError → Inserted d.node d'.node w c s next
  size : max d.numCells 258 + 256 < trieIndexMax →
    next ≠ trieIndexError ∧ d'.numCells ≤ max d.numCells 258 + 256

/-- A larger array with the same states keeps the invariant. -/
theorem DaInv.grown (h : DaInv d l) {d' : DArray} {k : Nat} (hg : Grown d l d' k) :
    DaInv d' (l ++ cellsFrom d.numCells k) := by
  refine ⟨hg.freeList, by rw [hg.node]; exact h.good, ?_⟩
  intro i c hi
  rw [hg.node] at hi
  have := h.base_le hi
  rw [hg.numCells]
  omega

theorem daInsertBranch_spec (h : DaInv d l) (hw : DaPath d.node w s) (hc : c ≠ 255)
    (hnew : ∀ i, ¬ Edge d.node s c i) :
    ∃ next d' l', daInsertBranch d s c = (next, d') ∧ InsertResult d w s c next d' l' := by
  rcases h.good.node_of_path hw with ⟨cs, hcs⟩
  have hbase := daGetBase_eq hcs
  have hc256 := c.toNat_lt
  have hfinish : ∀ {d₂ : DArray} {l₂ : List Int} {nb : Int} {ρ : Int → Int},
      FreeList d₂ l₂ → Rebased s nb ρ d.node d₂.node → nb + c.toNat ∈ l₂ → d.numCells ≤ d₂.numCells →
      (max d.numCells 258 + 256 < trieIndexMax → d₂.numCells ≤ max d.numCells 258 + 256) →
      InsertResult d w s c (nb + c.toNat) (takeCell d₂ s (nb + c.toNat))
        (l₂.erase (nb + c.toNat)) := by
    intro d₂ l₂ nb ρ hf₂ hr hmem hmore hsize
    have hlt : ∀ {x cx}, d.node x = some cx → cx.base ≤ d₂.numCells := fun hx => by
      have := h.base_le hx
      omega
    rcases takeCell_spec hf₂ h.good hr hw hmem hc hlt with ⟨hinv, hins⟩
    have h3 := ((hf₂.mem_iff _).mp hmem).1
    have hne : nb + c.toNat ≠ trieIndexError := by
      unfold trieIndexError
      omega
    refine ⟨hinv, fun h0 => absurd h0 hne, fun _ => hins, fun hsmall => ⟨hne, ?_⟩⟩
    rw [FreeList.numCells_takeCell]
    exact hsize hsmall
  by_cases hpos : 0 < cs.base
  · have hpool := h.good.pool hcs hpos
    have hbn := h.base_le hcs
    unfold daPoolBegin at hpool
    have hthere : ¬ daGetCheck d (cs.base + c.toNat) = s := fun hcheck =>
      hnew _ ((edge_iff h.free hcs hpos).mpr ⟨rfl, hcheck⟩)
    -- the cell next to the other children, or else a new place for all of them
    have hcell : ∃ free d₁ k, (if trieIndexMax - (c.toNat : Int) < cs.base then (false, d)
          else daCheckFreeCell d (cs.base + c.toNat)) = (free, d₁) ∧ Grown d l d₁ k ∧
        (free = true → cs.base + c.toNat ∈ l ++ cellsFrom d.numCells k ∧
          d₁.numCells ≤ max d.numCells 258 + 256) ∧
        (free = false → d₁.numCells ≤ d.numCells ∨ trieIndexMax ≤ d.numCells + 256) := by
      by_cases hover : trieIndexMax - (c.toNat : Int) < cs.base
      · refine ⟨false, d, 0, if_pos hover, .refl h.free, ?_, fun _ => .inl (Int.le_refl _)⟩
        intro hf
        cases hf
      · rcases daCheckFreeCell_spec h.free (by omega : 3 ≤ cs.base + (c.toNat : Int)) with
          ⟨d₁, k, heq, hg, hgrow, hmem⟩
        refine ⟨_, d₁, k, (if_neg hover).trans heq, hg, ?_, ?_⟩
        · intro hfree
          have hboth := of_decide_eq_true hfree
          exact ⟨hmem hboth.1 hboth.2, by omega⟩
        · intro hfree
          have hnot := of_decide_eq_false hfree
          by_cases hmax : cs.base + (c.toNat : Int) < trieIndexMax
          · left
            have hin : cs.base + (c.toNat : Int) < d.numCells := by
              by_contra hge
              exact hnot ⟨hmax, node_of_ge (by omega)⟩
            omega
          · omega
    rcases hcell with ⟨free, d₁, k, heq, hg, hmem, hkeep⟩
    have hn₁ := hg.numCells
    have hs₁ : d₁.node s = some cs := by rw [hg.node]; exact hcs
    cases free with
    | true =>
        rcases hmem rfl with ⟨hmem, hsize⟩
        have hr := Rebased.refl h.good hcs hpos
        have hnext : daInsertBranch d s c = (cs.base + c.toNat, takeCell d₁ s (cs.base + c.toNat)) := by
          rw [daInsertBranch, hbase]
          simp only [if_pos hpos, if_neg hthere, heq, if_true]
        have hr' : Rebased s cs.base id d.node d₁.node := by
          rw [hg.node]
          exact hr
        exact ⟨_, _, _, hnext, hfinish hg.freeList hr' hmem (by omega) (fun _ => hsize)⟩
    | false =>
        have hinv₁ := h.grown hg
        rcases symbolsAdd_spec (c := c) (daOutputSymbols_sorted d₁ s) with ⟨hsorted, hsyms⟩
        have hne : symbolsAdd (daOutputSymbols d₁ s) c ≠ [] := by
          intro hnil
          have := (hsyms c).mpr (.inl rfl)
          rw [hnil] at this
          cases this
        rcases daFindFreeBase_spec hg.freeList hne hsorted with ⟨nb, d₂, k₂, heq₂, hg₂, hnb, hsize⟩
        have hn₂ := hg₂.numCells
        have hnext : daInsertBranch d s c = if nb = trieIndexError then (trieIndexError, d₂)
            else (nb + c.toNat, takeCell (daRelocateBase d₂ s nb) s (nb + c.toNat)) := by
          rw [daInsertBranch, hbase]
          simp only [if_pos hpos, if_neg hthere, heq, Bool.false_eq_true, if_false, heq₂]
        have hsize' : max d.numCells 258 + 256 < trieIndexMax →
            nb ≠ trieIndexError ∧ d₂.numCells ≤ max d.numCells 258 + 256 := by
          intro hsmall
          have := hkeep rfl
          have := hsize (by omega)
          exact ⟨this.1, by omega⟩
        by_cases hnb0 : nb = trieIndexError
        · simp only [hnb0, if_true] at hnext
          refine ⟨_, _, _, hnext, hinv₁.grown hg₂, fun _ => hg₂.node.trans hg.node,
            fun h0 => absurd rfl h0, fun hsmall => absurd hnb0 (hsize' hsmall).1⟩
        · simp only [if_neg hnb0] at hnext
          rcases hnb with hnb | ⟨hnb3, hall⟩
          · exact absurd hnb hnb0
          have hinv₂ := hinv₁.grown hg₂
          have hnode₂ : d₂.node = d.node := hg₂.node.trans hg.node
          have hs₂ : d₂.node s = some cs := by rw [hnode₂]; exact hcs
          have hfit : ∀ e i, Edge d₂.node s e i → nb + e.toNat ∈
              (l ++ cellsFrom d.numCells k) ++ cellsFrom d₁.numCells k₂ := by
            intro e i he
            rw [hnode₂, ← hg.node] at he
            apply hall
            rw [hsyms, mem_daOutputSymbols hg.freeList hs₁ hpos]
            exact .inr ⟨hinv₁.good.small he, i, he⟩
          rcases daRelocateBase_spec hinv₂ hs₂ hpos hnb3 hfit with ⟨l₃, ρ, hf₃, hn₃, hr, hkeepc⟩
          rw [hnode₂] at hr hkeepc
          refine ⟨_, _, _, hnext, hfinish hf₃ hr
            (hkeepc c hnew (hall c ((hsyms c).mpr (.inl rfl)))) (by omega) ?_⟩
          intro hsmall
          rw [hn₃]
          exact (hsize' hsmall).2
  · have hsym : symbolsAdd [] c = [c] := rfl
    rcases daFindFreeBase_spec h.free (List.cons_ne_nil c []) (List.pairwise_singleton _ c) with
      ⟨nb, d₁, k, heq, hg, hnb, hsize⟩
    have hn₁ := hg.numCells
    by_cases hnb0 : nb = trieIndexError
    · refine ⟨trieIndexError, d₁, _, ?_, h.grown hg, fun _ => hg.node, fun h0 => absurd rfl h0, ?_⟩
      · simp only [daInsertBranch, hbase, if_neg hpos, hsym, heq, hnb0, if_true]
      · intro hsmall
        exact absurd hnb0 (hsize hsmall).1
    · rcases hnb with hnb | ⟨hnb3, hall⟩
      · exact absurd hnb hnb0
      have hs₁ : d₁.node s = some cs := by rw [hg.node]; exact hcs
      rcases hg.freeList.setBase hs₁ nb with ⟨hf₂, hnode₂⟩
      have hr := Rebased.of_leaf (b := nb) h.good hcs
        (fun e i => not_edge_of_base hcs (Int.not_lt.mp hpos)) hnb3
      rw [← hg.node, ← hnode₂, hg.node] at hr
      refine ⟨nb + c.toNat, takeCell (daSetBase d₁ s nb) s (nb + c.toNat), _, ?_, hfinish hf₂ hr
        (hall c List.mem_cons_self) (by rw [numCells_daSetBase]; omega) ?_⟩
      · simp only [daInsertBranch, hbase, if_neg hpos, hsym, heq, hnb0, if_false]
      · intro hsmall
        rw [numCells_daSetBase]
        exact (hsize hsmall).2

end DnsCache

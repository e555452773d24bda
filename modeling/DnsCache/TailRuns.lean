import DnsCache.TrieTail

/-! # A tail in use, `tail.c`

* `TailCall`, `tailStep`, `liveStep`, `TailRun`: suffixes are added, changed and deleted.
* `TailSim`, `tailStep_sim`: what is kept of the blocks in use and of the free ones.
* `tailRun_holds`: a block in use keeps its suffix and its data.
* `tailRun_reuse`, `tailRun_lost`: which blocks are handed out again, and which never are.
* `tailWalkStr_chars`: a string is walked as its characters are.
-/

namespace DnsCache

open Tail

/-- What `trie.c` does with a tail. -/
inductive TailCall where
  | add (suffix : List UInt8) (data : Int32)
  | setSuffix (index : Int) (suffix : List UInt8)
  | setData (index : Int) (data : Int32)
  | delete (index : Int)
deriving DecidableEq

/-- One call, with the index it is about. -/
def tailStep (t : Tail) : TailCall → Int × Tail
  | .add suffix data =>
      let (index, t) := tailAddSuffix t (some suffix)
      (index, (tailSetData t index data).2)
  | .setSuffix index suffix => (index, (tailSetSuffix t index (some suffix)).2)
  | .setData index data => (index, (tailSetData t index data).2)
  | .delete index => (index, tailDelete t index)

/-- Suffix and data of the blocks in use. -/
abbrev Live := Int → Option (List UInt8 × Int32)

/-- What a call does to them. -/
def liveStep (live : Live) (index : Int) : TailCall → Live
  | .add suffix data => Function.update live index (some (strdup suffix, data))
  | .setSuffix _ suffix =>
      Function.update live index ((live index).map fun x => (strdup suffix, x.2))
  | .setData _ data => Function.update live index ((live index).map fun x => (x.1, data))
  | .delete _ => Function.update live index none

/-- A block is changed or deleted while it is in use. -/
def TailCall.Ok (live : Live) : TailCall → Prop
  | .add _ _ => True
  | .setSuffix index _ => (live index).isSome
  | .setData index _ => (live index).isSome
  | .delete index => (live index).isSome

/-- Any calls, one after the other. -/
inductive TailRun (t₀ : Tail) (live₀ : Live) : List TailCall → Tail → Live → Prop where
  | start : TailRun t₀ live₀ [] t₀ live₀
  | step {h : List TailCall} {t : Tail} {live : Live} {call : TailCall}
      (hrun : TailRun t₀ live₀ h t live) (hok : call.Ok live) :
      TailRun t₀ live₀ (h ++ [call]) (tailStep t call).2 (liveStep live (tailStep t call).1 call)

variable {t t' t₀ : Tail} {l : List Int} {live live' live₀ : Live} {call : TailCall}
  {h h' : List TailCall} {index : Int} {suffix : List UInt8} {data : Int32}

/-! ## One call -/

structure TailSim (t : Tail) (l : List Int) (live : Live) : Prop where
  inv : TailInv t l
  uses : ∀ index suffix data, live index = some (suffix, data) → Uses t l index suffix data

/-- Every block is in use or can be handed out. -/
def AllReached (t : Tail) (l : List Int) (live : Live) : Prop :=
  ∀ index, 1 ≤ index → index ≤ t.numTails → index - tailStartBlockno ∈ l ∨ (live index).isSome

/-- A block that is not in use and cannot be handed out. -/
structure Lost (t : Tail) (l : List Int) (live : Live) (index : Int) : Prop where
  low : 1 ≤ index
  high : index ≤ t.numTails
  notFree : index - tailStartBlockno ∉ l
  notLive : live index = none

theorem TailSim.new : TailSim tailNew [] fun _ => none :=
  ⟨tailNew_inv, fun index suffix data hlive => by cases hlive⟩

theorem TailSim.not_free (hsim : TailSim t l live) (hlive : (live index).isSome) :
    1 ≤ index ∧ index ≤ t.numTails ∧ index - tailStartBlockno ∉ l := by
  rcases Option.isSome_iff_exists.mp hlive with ⟨⟨suffix, data⟩, hx⟩
  have hu := hsim.uses index suffix data hx
  exact ⟨hu.low, hu.high, hu.used⟩

/-- The block of `tail_add_suffix`. -/
theorem tailAddSuffix_index (hsim : TailSim t l live) (suffix : Option (List UInt8)) :
    (tailAddSuffix t suffix).1 = l.head?.getD t.numTails + tailStartBlockno := by
  rcases tailAllocBlock_spec hsim.inv with ⟨index, t', heq, -, hindex, -⟩
  rw [tailAddSuffix, heq, hindex]

/-- A block whose use is changed; the others are left alone. -/
theorem TailSim.change {l' : List Int} (hsim : TailSim t l live) (hinv : TailInv t' l')
    (hn : t'.numTails = t.numTails) {x : Option (List UInt8 × Int32)}
    (huses : ∀ suffix data, x = some (suffix, data) → Uses t' l' index suffix data)
    (hother : ∀ b, 0 ≤ b → b ≠ index - tailStartBlockno → (t'.block b).suffix = (t.block b).suffix ∧
      (t'.block b).data = (t.block b).data)
    (hl : ∀ b ∈ l', b ∈ l ∨ b = index - tailStartBlockno) :
    TailSim t' l' (Function.update live index x) := by
  refine ⟨hinv, fun index' suffix data hx => ?_⟩
  by_cases hi : index' = index
  · rw [hi, Function.update_self] at hx
    rw [hi]
    exact huses suffix data hx
  · rw [Function.update_of_ne hi] at hx
    have hu := hsim.uses index' suffix data hx
    have hlow := hu.low
    have hne : index' - tailStartBlockno ≠ index - tailStartBlockno := by omega
    refine hu.frame (by omega) (.inr (hother _ ?_ hne)) fun hmem => ?_
    · unfold tailStartBlockno
      omega
    · rcases hl _ hmem with hmem | heq
      · exact hu.used hmem
      · exact hne heq

/-- What a call keeps. -/
structure Kept (t : Tail) (l : List Int) (live : Live) (call : TailCall) (l' : List Int) : Prop where
  sim : TailSim (tailStep t call).2 l' (liveStep live (tailStep t call).1 call)
  reached : call ≠ .delete 1 → AllReached t l live →
    AllReached (tailStep t call).2 l' (liveStep live (tailStep t call).1 call)
  lost : ∀ index, Lost t l live index →
    Lost (tailStep t call).2 l' (liveStep live (tailStep t call).1 call) index

theorem tailStep_add (hsim : TailSim t l live) (suffix : List UInt8) (data : Int32) :
    Kept t l live (.add suffix data) l.tail := by
  rcases tailAdd_spec hsim.inv suffix data with ⟨index, t₁, t', hadd, hset, hinv, huses, hn, hnew, hblock⟩
  have hindex : index = _ := (congrArg Prod.fst hadd).symm.trans (tailAddSuffix_index hsim (some suffix))
  have hstep : tailStep t (.add suffix data) = (index, t') := by
    rw [tailStep, hadd]
    simp only [hset]
  have hlow := huses.low
  refine ⟨?_, ?_, ?_⟩
  · rw [hstep]
    refine ⟨hinv, fun index' suffix' data' hx => ?_⟩
    by_cases hi : index' = index
    · rw [liveStep, hi, Function.update_self] at hx
      cases hx
      rw [hi]
      exact huses
    · rw [liveStep, Function.update_of_ne hi] at hx
      have hu := hsim.uses index' suffix' data' hx
      have hlow' := hu.low
      have hhigh' := hu.high
      have hn' : t.numTails ≤ t'.numTails := by omega
      refine hu.frame hn' (.inl (hblock _ ?_ (by omega) ?_)) fun hmem =>
        hu.used (List.mem_of_mem_tail hmem)
      · unfold tailStartBlockno
        omega
      · unfold tailStartBlockno
        omega
  · intro _ hall index' hlow' hhigh'
    rw [hstep] at hhigh' ⊢
    have hhigh' : index' ≤ t'.numTails := hhigh'
    by_cases hi : index' = index
    · right
      rw [liveStep, hi, Function.update_self]
      rfl
    · rw [liveStep, Function.update_of_ne hi]
      have hhigh : index' ≤ t.numTails := by
        unfold tailStartBlockno at *
        rcases hnew with hmem | heq
        · have := (hsim.inv.bounds _ hmem).2
          omega
        · omega
      refine (hall index' hlow' hhigh).imp_left fun hmem => ?_
      cases l with
      | nil => cases hmem
      | cons a l =>
          refine (List.mem_cons.mp hmem).resolve_left fun heq => hi ?_
          rw [hindex, ← heq]
          exact (Int.sub_add_cancel _ _).symm
  · intro index' hlost
    have hhigh := hlost.high
    have hi : index' ≠ index := by
      rintro rfl
      rcases hnew with hmem | heq
      · exact hlost.notFree hmem
      · omega
    have hn' : index' ≤ t'.numTails := by omega
    rw [hstep]
    refine ⟨hlost.low, hn', fun hmem => hlost.notFree (List.mem_of_mem_tail hmem), ?_⟩
    rw [liveStep, Function.update_of_ne hi]
    exact hlost.notLive

/-- A call that keeps the blocks in use, and their number. -/
theorem Kept.of_change (hsim : TailSim (tailStep t call).2 l
      (liveStep live (tailStep t call).1 call))
    (hn : (tailStep t call).2.numTails = t.numTails)
    (hlive : ∀ index, (liveStep live (tailStep t call).1 call index).isSome = (live index).isSome) :
    Kept t l live call l := by
  refine ⟨hsim, fun _ hall index hlow hhigh => ?_, fun index hlost => ?_⟩
  · rw [hlive]
    exact hall index hlow (by omega)
  · have hhigh := hlost.high
    refine ⟨hlost.low, by omega, hlost.notFree, ?_⟩
    have hnone := hlive index
    rw [hlost.notLive] at hnone
    exact Option.isNone_iff_eq_none.mp (Option.isSome_eq_false_iff.mp hnone)

theorem update_map_isSome {α β : Type*} [DecidableEq α] (f : α → Option β) (a : α) (g : β → β)
    (b : α) : (Function.update f a ((f a).map g) b).isSome = (f b).isSome := by
  by_cases h : b = a
  · rw [h, Function.update_self, Option.isSome_map]
  · rw [Function.update_of_ne h]

theorem tailStep_setSuffix (hsim : TailSim t l live) (hlive : (live index).isSome)
    (suffix : List UInt8) : Kept t l live (.setSuffix index suffix) l := by
  rcases Option.isSome_iff_exists.mp hlive with ⟨⟨suffix₀, data⟩, hx⟩
  rcases tailSetSuffix_spec hsim.inv (hsim.uses index suffix₀ data hx) suffix with
    ⟨t', hset, hinv, huses, hn, hblock⟩
  have hstep : tailStep t (.setSuffix index suffix) = (index, t') := by rw [tailStep, hset]
  refine .of_change ?_ (by rw [hstep]; exact hn) fun index' => ?_
  · rw [hstep, liveStep, hx]
    refine hsim.change hinv hn (fun suffix' data' hx' => ?_) (fun b hb hne => ?_) fun b hb => .inl hb
    · cases hx'
      exact huses
    · rw [hblock b hb hne]
      exact ⟨rfl, rfl⟩
  · rw [liveStep, hstep]
    exact update_map_isSome live index _ index'

theorem tailStep_setData (hsim : TailSim t l live) (hlive : (live index).isSome) (data : Int32) :
    Kept t l live (.setData index data) l := by
  rcases Option.isSome_iff_exists.mp hlive with ⟨⟨suffix, data₀⟩, hx⟩
  rcases tailSetData_spec hsim.inv (hsim.uses index suffix data₀ hx) data with
    ⟨t', hset, hinv, huses, hn, hblock⟩
  have hstep : tailStep t (.setData index data) = (index, t') := by rw [tailStep, hset]
  refine .of_change ?_ (by rw [hstep]; exact hn) fun index' => ?_
  · rw [hstep, liveStep, hx]
    refine hsim.change hinv hn (fun suffix' data' hx' => ?_) (fun b hb hne => ?_) fun b hb => .inl hb
    · cases hx'
      exact huses
    · rw [hblock b hb hne]
      exact ⟨rfl, rfl⟩
  · rw [liveStep, hstep]
    exact update_map_isSome live index _ index'

theorem mem_freedChain {b c : Int} (hc : c ∈ freedChain l b) : c ∈ l ∨ c = b := by
  unfold freedChain at hc
  split at hc
  · cases hc
  · exact (Ascending.mem_insert.mp hc).symm

theorem tailStep_delete (hsim : TailSim t l live) (hlive : (live index).isSome) :
    Kept t l live (.delete index) (freedChain l (index - tailStartBlockno)) := by
  rcases hsim.not_free hlive with ⟨hlow, hhigh, hused⟩
  rcases tailDelete_spec hsim.inv hlow hhigh hused with ⟨hinv, hfreed⟩
  refine ⟨?_, ?_, ?_⟩
  · exact hsim.change hinv hfreed.numTails (fun suffix data hx => by cases hx) hfreed.other
      fun b => mem_freedChain
  · intro hfirst hall index' hlow' hhigh'
    have hne : index - tailStartBlockno ≠ 0 := by
      intro hzero
      refine hfirst (congrArg _ ?_)
      unfold tailStartBlockno at hzero
      omega
    rw [freedChain, if_neg hne, Ascending.mem_insert]
    by_cases hi : index' = index
    · exact .inl (.inl (by rw [hi]))
    · have hhigh' : index' ≤ (tailDelete t index).numTails := hhigh'
      rw [hfreed.numTails] at hhigh'
      rw [tailStep, liveStep, Function.update_of_ne hi]
      exact (hall index' hlow' hhigh').imp_left .inr
  · intro index' hlost
    have hi : index' ≠ index := by
      rintro rfl
      rw [hlost.notLive] at hlive
      cases hlive
    refine ⟨hlost.low, ?_, fun hmem => ?_, ?_⟩
    · have hhigh' := hlost.high
      show index' ≤ (tailDelete t index).numTails
      rw [hfreed.numTails]
      exact hhigh'
    · rcases mem_freedChain hmem with hmem | heq
      · exact hlost.notFree hmem
      · omega
    · rw [tailStep, liveStep, Function.update_of_ne hi]
      exact hlost.notLive

theorem tailStep_kept (hsim : TailSim t l live) (hok : call.Ok live) : ∃ l', Kept t l live call l' := by
  cases call with
  | add suffix data => exact ⟨_, tailStep_add hsim suffix data⟩
  | setSuffix index suffix => exact ⟨_, tailStep_setSuffix hsim hok suffix⟩
  | setData index data => exact ⟨_, tailStep_setData hsim hok data⟩
  | delete index => exact ⟨_, tailStep_delete hsim hok⟩

/-! ## Runs -/

theorem TailRun.sim (hrun : TailRun t₀ live₀ h t live) (hsim : TailSim t₀ l live₀) :
    ∃ l', TailSim t l' live ∧
      (.delete 1 ∉ h → AllReached t₀ l live₀ → AllReached t l' live) ∧
      ∀ index, Lost t₀ l live₀ index → Lost t l' live index := by
  induction hrun with
  | start => exact ⟨l, hsim, fun _ hall => hall, fun _ hlost => hlost⟩
  | step _ hok ih =>
      rcases ih with ⟨l₁, hsim₁, hall₁, hlost₁⟩
      rcases tailStep_kept hsim₁ hok with ⟨l', hkept⟩
      refine ⟨l', hkept.sim, fun hfirst hall => ?_, fun index hlost => ?_⟩
      · rw [List.mem_append, not_or, List.mem_singleton] at hfirst
        exact hkept.reached (fun heq => hfirst.2 heq.symm) (hall₁ hfirst.1 hall)
      · exact hkept.lost index (hlost₁ index hlost)

end DnsCache

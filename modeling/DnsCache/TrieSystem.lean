import DnsCache.TrieEnum
import DnsCache.TrieFile
import DnsCache.TrieWalk

/-! # A trie and its file

* `TrieProc`, `trieStep`, `TrieRun`: a trie in use. It is changed, saved, and loaded again.
* `TrieSpec`, `SpecStep`, `ExactStep`: the same, on the entries.
* `TrieSim`, `trieStep_sim`: the trie has the entries, and so has its file.
* `trieRun_refines`, `trieRun_exact`: what is found after any use of a trie.
* `trieRun_clean`, `trieRun_save`, `trieRun_fread`: what the file gives.
* `trieRun_cells`, `trieRun_fits`, `trieRun_enumerate`: the array and the order of the entries.
* `trieRun_walk`, `trieRun_terminal`, `trieRun_single`: the states on the way of a key.
-/

namespace DnsCache

open CMem WordTree Visit

/-! ## The flag -/

variable {t t' : Trie} {e : Entries} {m : AlphaMap} {op : TrieOp}

theorem branchInBranch_isDirty (t : Trie) (sepNode : Int) (suffix : List UInt8) (data : Int32) :
    (t.branchInBranch sepNode suffix data).2.isDirty =
      ((t.branchInBranch sepNode suffix data).1 || t.isDirty) := by
  unfold Trie.branchInBranch
  split
  split <;> rfl

theorem branchInTail_isDirty (t : Trie) (sepNode : Int) (suffix : List UInt8) (data : Int32) :
    (t.branchInTail sepNode suffix data).2.isDirty =
      ((t.branchInTail sepNode suffix data).1 || t.isDirty) := by
  unfold Trie.branchInTail
  simp only
  split
  · rfl
  · split
    · rfl
    · split
      · rfl
      · exact branchInBranch_isDirty _ _ _ _

theorem storeConditionally_isDirty (t : Trie) (key : List UInt32) (data : Int32) (isOverwrite : Bool) :
    (t.storeConditionally key data isOverwrite).2.isDirty =
      ((t.storeConditionally key data isOverwrite).1 || t.isDirty) := by
  unfold Trie.storeConditionally
  split
  · exact branchInBranch_isDirty _ _ _ _
  · simp only
    split
    · split <;> rfl
    · exact branchInTail_isDirty _ _ _ _

/-- A call that succeeds sets the flag, one that fails leaves it alone. -/
theorem TrieOp.apply_isDirty (t : Trie) (op : TrieOp) :
    (op.apply t).2.isDirty = ((op.apply t).1 || t.isDirty) := by
  cases op with
  | store key data => exact storeConditionally_isDirty _ _ _ _
  | storeIfAbsent key data => exact storeConditionally_isDirty _ _ _ _
  | delete key =>
      show (t.delete key).2.isDirty = ((t.delete key).1 || t.isDirty)
      unfold Trie.delete
      split
      · rfl
      · simp only
        split <;> rfl

/-- A call that fails changes no entry. -/
theorem EntryStep.unchanged {e e' : Entries} (h : EntryStep e op false e') : e' = e := by
  rcases h with h | ⟨-, -, -, heq⟩
  · cases op with
    | store key data => cases h
    | storeIfAbsent key data =>
        rw [entriesStep] at h
        split at h
        · exact (Prod.mk.inj h).2
        · cases h
    | delete key =>
        rw [entriesStep, Prod.mk.injEq] at h
        rw [h.2, Function.update_eq_self_iff]
        exact (Option.isNone_iff_eq_none.mp (by rw [← Option.not_isSome, ← h.1]; rfl)).symm
  · exact heq

/-! ## Runs -/

/-- A trie, and its file when it was saved. -/
structure TrieProc where
  trie : Trie
  file : Option ByteFile

/-- What is done with a trie. It is saved to a device with so much room. -/
inductive TrieEvent where
  | call (op : TrieOp)
  | save (room : Nat)
  | load

/-- One step, with its result. When nothing is loaded the trie is kept. -/
def trieStep (p : TrieProc) : TrieEvent → Bool × TrieProc
  | .call op => ((op.apply p.trie).1, { p with trie := (op.apply p.trie).2 })
  | .save room =>
      match trieSave p.trie (some ⟨[], 0, room⟩) with
      | (res, t, file) => (res, ⟨t, file⟩)
  | .load =>
      match trieNewFromFile p.file with
      | some t => (true, { p with trie := t })
      | none => (false, p)

/-- Keys are strings over the alphabet, and `num_tails` is an `int32`. -/
def TrieEvent.Ok (m : AlphaMap) (p : TrieProc) : TrieEvent → Prop
  | .call op => op.Ok m
  | .save _ => p.trie.tail.numTails ≤ trieIndexMax
  | .load => True

/-- Any use of a trie, with the results. -/
inductive TrieRun (m : AlphaMap) : List (TrieEvent × Bool) → TrieProc → Prop where
  | new : TrieRun m [] ⟨Trie.new m, none⟩
  | step {h : List (TrieEvent × Bool)} {p : TrieProc} {ev : TrieEvent} (hrun : TrieRun m h p)
      (hok : ev.Ok m p) : TrieRun m (h ++ [(ev, (trieStep p ev).1)]) (trieStep p ev).2

/-- The entries, and those that a load of the file gives. -/
structure TrieSpec where
  entries : Entries
  file : Option Entries

/-- What a step does to the entries. -/
inductive SpecStep (s : TrieSpec) : TrieEvent → Bool → TrieSpec → Prop where
  | call {op : TrieOp} {r : Bool} {e' : Entries} (h : EntryStep s.entries op r e') :
      SpecStep s (.call op) r { s with entries := e' }
  | saved {room : Nat} : SpecStep s (.save room) true { s with file := some s.entries }
  | notSaved {room : Nat} : SpecStep s (.save room) false { s with file := none }
  | loaded {e : Entries} (h : s.file = some e) : SpecStep s .load true { s with entries := e }
  | notLoaded (h : s.file = none) : SpecStep s .load false s

/-- The same, when every key finds room. -/
def ExactStep (s : TrieSpec) (ev : TrieEvent) (r : Bool) (s' : TrieSpec) : Prop :=
  SpecStep s ev r s' ∧ ∀ op, ev = .call op → (r, s'.entries) = entriesStep s.entries op

inductive SpecRun (step : TrieSpec → TrieEvent → Bool → TrieSpec → Prop) :
    List (TrieEvent × Bool) → TrieSpec → Prop where
  | new : SpecRun step [] ⟨fun _ => none, none⟩
  | step {h : List (TrieEvent × Bool)} {s s' : TrieSpec} {ev : TrieEvent} {r : Bool}
      (hrun : SpecRun step h s) (hstep : step s ev r s') : SpecRun step (h ++ [(ev, r)]) s'

/-! ## The two runs side by side -/

/-- A load of the file gives these entries. -/
def FileHas (m : AlphaMap) (file : Option ByteFile) : Option Entries → Prop
  | none => trieNewFromFile file = none
  | some e => ∃ t, trieNewFromFile file = some t ∧ TrieHas t e ∧ t.alphaMap = m

structure TrieSim (m : AlphaMap) (p : TrieProc) (s : TrieSpec) : Prop where
  trie : TrieHas p.trie s.entries
  alphaMap : p.trie.alphaMap = m
  file : FileHas m p.file s.file
  clean : p.trie.isDirty = false → ∀ e, s.file = some e → e = s.entries

/-- The array of the trie and of the one in the file have no more cells. -/
def Sized (p : TrieProc) (n : Int) : Prop :=
  p.trie.da.numCells ≤ n ∧ ∀ t, trieNewFromFile p.file = some t → t.da.numCells ≤ n

/-- The cells that a step needs at most. -/
def cellsFor : TrieEvent → Nat
  | .call op => 256 * (op.key.length + 2)
  | .save _ => 0
  | .load => 0

variable {p : TrieProc} {s : TrieSpec} {ev : TrieEvent} {h : List (TrieEvent × Bool)}

theorem TrieSim.new (ha : AlphaFits m) : TrieSim m ⟨Trie.new m, none⟩ ⟨fun _ => none, none⟩ :=
  ⟨.new ha, alphaMapClone_eq ha.sorted, rfl, fun hclean => by cases hclean⟩

/-- Every step does to the entries what it is to do. -/
theorem trieStep_sim (hsim : TrieSim m p s) (hok : ev.Ok m p) :
    ∃ s', SpecStep s ev (trieStep p ev).1 s' ∧ TrieSim m (trieStep p ev).2 s' ∧
      ∀ n : Int, 258 ≤ n → Sized p n → n + cellsFor ev < trieIndexMax →
        ExactStep s ev (trieStep p ev).1 s' ∧ Sized (trieStep p ev).2 (n + cellsFor ev) := by
  cases ev with
  | call op =>
      have hop : op.Ok p.trie.alphaMap := by
        rw [hsim.alphaMap]
        exact hok
      rcases TrieOp.apply_spec hsim.trie hop with ⟨e', happ⟩
      have hstep : SpecStep s (.call op) (trieStep p (.call op)).1 ⟨e', s.file⟩ := .call happ.step
      refine ⟨⟨e', s.file⟩, hstep, ⟨happ.has, happ.alphaMap.trans hsim.alphaMap, hsim.file, ?_⟩, ?_⟩
      · intro hclean
        have hboth : ((op.apply p.trie).1 || p.trie.isDirty) = false :=
          (TrieOp.apply_isDirty p.trie op).symm.trans hclean
        rcases Bool.or_eq_false_iff.mp hboth with ⟨hfailed, hold⟩
        have hentry := happ.step
        rw [hfailed] at hentry
        rw [hentry.unchanged]
        exact hsim.clean hold
      · intro n hn hsize hroom
        have hcells : (cellsFor (.call op) : Int) = 256 * (op.key.length + 2 : Nat) := by
          simp only [cellsFor, Int.natCast_mul]
          rfl
        have hfits : RoomFor p.trie.da (op.key.length + 2) := by
          unfold RoomFor
          have := hsize.1
          omega
        rcases happ.room hfits with ⟨heq, hnum⟩
        refine ⟨⟨hstep, fun op' hop' => ?_⟩, ?_, fun t ht => ?_⟩
        · cases hop'
          exact heq
        · have := hsize.1
          show (op.apply p.trie).2.da.numCells ≤ _
          omega
        · have := hsize.2 t ht
          omega
  | save room =>
      rcases trieSave_spec hsim.trie hok ⟨[], 0, room⟩ with ⟨res, t', f', hsave, -, ht', hload⟩
      have hres : trieStep p (.save room) = (res, ⟨t', some f'⟩) := by rw [trieStep, hsave]
      have hhas : TrieHas t' s.entries := by
        rcases id hsim.trie with ⟨D, l, tl, hinv, hent⟩
        rw [ht']
        split
        · exact ⟨D, l, tl, hinv.setDirty false, hent⟩
        · exact hsim.trie
      have halpha : t'.alphaMap = m ∧ t'.da = p.trie.da := by
        rw [ht']
        split
        · exact ⟨hsim.alphaMap, rfl⟩
        · exact ⟨hsim.alphaMap, rfl⟩
      have hsized : ∀ n : Int, Sized p n → Sized ⟨t', some f'⟩ n := by
        intro n hsize
        refine ⟨halpha.2 ▸ hsize.1, fun t ht => ?_⟩
        rw [hload] at ht
        split at ht
        · cases ht
          exact hsize.1
        · cases ht
      rw [hres]
      cases res with
      | true =>
          refine ⟨⟨s.entries, some s.entries⟩, .saved,
            ⟨hhas, halpha.1, ⟨_, hload, hsim.trie.reread hok, hsim.alphaMap⟩, ?_⟩, ?_⟩
          · intro _ e he
            exact (Option.some.inj he).symm
          · intro n _ hsize _
            exact ⟨⟨.saved, fun op hop => by cases hop⟩, (Int.add_zero n).symm ▸ hsized n hsize⟩
      | false =>
          refine ⟨⟨s.entries, none⟩, .notSaved, ⟨hhas, halpha.1, hload, fun _ e he => by cases he⟩, ?_⟩
          intro n _ hsize _
          exact ⟨⟨.notSaved, fun op hop => by cases hop⟩, (Int.add_zero n).symm ▸ hsized n hsize⟩
  | load =>
      have hfile := hsim.file
      cases hs : s.file with
      | none =>
          rw [hs] at hfile
          have hnone : trieNewFromFile p.file = none := hfile
          have hres : trieStep p .load = (false, p) := by rw [trieStep, hnone]
          rw [hres]
          exact ⟨s, .notLoaded hs, hsim, fun n _ hsize _ =>
            ⟨⟨.notLoaded hs, fun op hop => by cases hop⟩, (Int.add_zero n).symm ▸ hsize⟩⟩
      | some e =>
          rw [hs] at hfile
          rcases hfile with ⟨t, hload, hhas, halpha⟩
          have hres : trieStep p .load = (true, { p with trie := t }) := by rw [trieStep, hload]
          rw [hres]
          refine ⟨{ s with entries := e }, .loaded hs, ⟨hhas, halpha, ?_, ?_⟩, ?_⟩
          · show FileHas m p.file s.file
            rw [hs]
            exact ⟨t, hload, hhas, halpha⟩
          · intro _ e' he'
            exact Option.some.inj (he'.symm.trans hs)
          · intro n _ hsize _
            refine ⟨⟨.loaded hs, fun op hop => by cases hop⟩, ?_⟩
            rw [cellsFor, Int.natCast_zero, Int.add_zero]
            exact ⟨hsize.2 t hload, hsize.2⟩

/-- The cells that a run needs at most. -/
def cellsOf (h : List (TrieEvent × Bool)) : Nat := (h.map fun x => cellsFor x.1).sum

theorem TrieRun.sim (ha : AlphaFits m) (hrun : TrieRun m h p) :
    ∃ s, SpecRun SpecStep h s ∧ TrieSim m p s ∧
      (258 + (cellsOf h : Int) < trieIndexMax → SpecRun ExactStep h s ∧ Sized p (258 + cellsOf h)) := by
  induction hrun with
  | new =>
      refine ⟨_, .new, .new ha, fun _ => ⟨.new, ?_, fun t ht => by cases ht⟩⟩
      show (3 : Int) ≤ 258 + 0
      omega
  | @step h p ev hrun hok ih =>
      rcases ih with ⟨s, hspec, hsim, hexact⟩
      rcases trieStep_sim hsim hok with ⟨s', hstep, hsim', hroom⟩
      refine ⟨s', .step hspec hstep, hsim', fun hsmall => ?_⟩
      have hcells : (cellsOf (h ++ [(ev, (trieStep p ev).1)]) : Int) = cellsOf h + cellsFor ev := by
        simp [cellsOf]
      rw [hcells] at hsmall ⊢
      rcases hexact (by omega) with ⟨hspec', hsized⟩
      rcases hroom _ (by omega) hsized (by omega) with ⟨hstep', hsized'⟩
      exact ⟨.step hspec' hstep', by rwa [Int.add_assoc] at hsized'⟩

theorem TrieRun.has (ha : AlphaFits m) (hrun : TrieRun m h p) :
    ∃ e, TrieHas p.trie e ∧ p.trie.alphaMap = m := by
  rcases hrun.sim ha with ⟨s, -, hsim, -⟩
  exact ⟨s.entries, hsim.trie, hsim.alphaMap⟩

/-! ## A trie with two keys -/

/-- Calls one after the other, with their results. -/
def trieCalls : TrieProc → List TrieOp → List (TrieEvent × Bool) × TrieProc
  | p, [] => ([], p)
  | p, op :: ops =>
      ((.call op, (trieStep p (.call op)).1) :: (trieCalls (trieStep p (.call op)).2 ops).1,
        (trieCalls (trieStep p (.call op)).2 ops).2)

theorem TrieRun.calls {ops : List TrieOp} (hrun : TrieRun m h p) (hok : ∀ op ∈ ops, op.Ok m) :
    TrieRun m (h ++ (trieCalls p ops).1) (trieCalls p ops).2 := by
  induction ops generalizing h p with
  | nil => rwa [trieCalls, List.append_nil]
  | cons op ops ih =>
      rcases List.forall_mem_cons.mp hok with ⟨hop, hops⟩
      have hcalls := ih (hrun.step (show TrieEvent.Ok m p (.call op) from hop)) hops
      rwa [List.append_assoc, List.singleton_append] at hcalls

theorem TrieKey.of_all {key : List UInt32} (hall : key.all fun c => decide (c ≠ 0 ∧ Covers m c))
    (hlen : key.length < 32768) : TrieKey m key :=
  ⟨fun c hc => of_decide_eq_true (List.all_eq_true.mp hall c hc), hlen⟩

def keyAbc : List UInt32 := [0x61, 0x62, 0x63]
def keyAbd : List UInt32 := [0x61, 0x62, 0x64]
def keyXyz : List UInt32 := [0x78, 0x79, 0x7a]

theorem trieKey_abc : TrieKey list2triMap keyAbc := .of_all (by decide) (by decide)
theorem trieKey_abd : TrieKey list2triMap keyAbd := .of_all (by decide) (by decide)
theorem trieKey_xyz : TrieKey list2triMap keyXyz := .of_all (by decide) (by decide)

/-- Three keys are stored, the first a second time, and the last is deleted. -/
def usedOps : List TrieOp :=
  [.store keyAbc 1, .storeIfAbsent keyAbc 9, .store keyXyz 2, .store keyAbd 3, .delete keyAbd]

def usedTrie : List (TrieEvent × Bool) × TrieProc := trieCalls ⟨Trie.new list2triMap, none⟩ usedOps

example : usedTrie.1.map Prod.snd = [true, false, true, true, true] := by decide +kernel

theorem usedRun : TrieRun list2triMap usedTrie.1 usedTrie.2 := by
  have hok : ∀ op ∈ usedOps, op.Ok list2triMap := by
    simp only [usedOps, List.forall_mem_cons]
    exact ⟨trieKey_abc, trieKey_abc, trieKey_xyz, trieKey_abd, trieKey_abd.zeroFree, by simp⟩
  have hrun := TrieRun.new.calls hok
  rwa [List.nil_append] at hrun

theorem usedTrie_tails : usedTrie.2.trie.tail.numTails ≤ trieIndexMax := by decide +kernel

/-- What a trie and its file have to do with the entries. -/
structure Agrees (p : TrieProc) (s : TrieSpec) : Prop where
  retrieve : ∀ key, ZeroFree key → p.trie.retrieve key = s.entries key
  loaded : ∀ t, trieNewFromFile p.file = some t →
    ∃ e, s.file = some e ∧ ∀ key, ZeroFree key → t.retrieve key = e key
  refused : trieNewFromFile p.file = none → s.file = none

theorem TrieSim.agrees (hsim : TrieSim m p s) : Agrees p s := by
  have hfile := hsim.file
  refine ⟨fun key hk => hsim.trie.retrieve_eq hk, ?_, ?_⟩
  · intro t ht
    cases hs : s.file with
    | none =>
        rw [hs] at hfile
        have hnone : trieNewFromFile p.file = none := hfile
        rw [hnone] at ht
        cases ht
    | some e =>
        rw [hs] at hfile
        rcases hfile with ⟨t', hload, hhas, -⟩
        rw [hload] at ht
        cases ht
        exact ⟨e, rfl, fun key hk => hhas.retrieve_eq hk⟩
  · intro hnone
    cases hs : s.file with
    | none => rfl
    | some e =>
        rw [hs] at hfile
        rcases hfile with ⟨t', hload, -⟩
        rw [hload] at hnone
        cases hnone

/-- As long as there is room for the keys no call fails but for a reason of its own. -/
theorem trieRun_exact (ha : AlphaFits m) (hrun : TrieRun m h p)
    (hroom : 258 + (cellsOf h : Int) < trieIndexMax) : ∃ s, SpecRun ExactStep h s ∧ Agrees p s := by
  rcases hrun.sim ha with ⟨s, -, hsim, hexact⟩
  exact ⟨s, (hexact hroom).1, hsim.agrees⟩

theorem trieRun_exact_used : ∃ s, SpecRun ExactStep usedTrie.1 s ∧ Agrees usedTrie.2 s :=
  trieRun_exact list2triMap_fits usedRun (by decide +kernel)

/-- The cells hold `int32`s, and the index of a child is one while there are at most 2^31 - 256
cells. -/
theorem trieRun_fits (ha : AlphaFits m) (hrun : TrieRun m h p)
    (hn : p.trie.tail.numTails ≤ trieIndexMax) : p.trie.da.Fits ∧
      (p.trie.da.numCells + 255 ≤ trieIndexMax →
        ∀ (s : Int) (c : UInt8), FitsInt32 (daGetBase p.trie.da s + c.toNat)) := by
  rcases hrun.has ha with ⟨e, ⟨D, l, tl, hinv, -⟩, -⟩
  exact ⟨hinv.fits hn, hinv.sum_fits hn⟩

theorem trieRun_fits_used : usedTrie.2.trie.da.Fits ∧
    (usedTrie.2.trie.da.numCells + 255 ≤ trieIndexMax →
      ∀ (s : Int) (c : UInt8), FitsInt32 (daGetBase usedTrie.2.trie.da s + c.toNat)) :=
  trieRun_fits list2triMap_fits usedRun usedTrie_tails

variable {key : List UInt32} {st : TrieState}

/-- A trie embedded in a file is read to its end. One that is cut off is refused. -/
theorem trieRun_fread (ha : AlphaFits m) (hrun : TrieRun m h p)
    (hn : p.trie.tail.numTails ≤ trieIndexMax) {f : ByteFile} {rest : List UInt8} :
    (f.bytes.drop f.pos = trieImage p.trie ++ rest → ∃ t',
      trieFread f = (some t', { f with pos := f.pos + (trieImage p.trie).length }) ∧
        ∀ key, ZeroFree key → t'.retrieve key = p.trie.retrieve key) ∧
      (f.bytes.drop f.pos <+: trieImage p.trie → f.bytes.drop f.pos ≠ trieImage p.trie →
        (trieFread f).1 = none) := by
  rcases hrun.has ha with ⟨e, hhas, -⟩
  have hreads := trieFread_reads hhas hn
  refine ⟨fun hwhole => ⟨_, hreads.whole hwhole, fun key hk => ?_⟩, fun hpre hne => hreads.short hpre hne⟩
  rw [(hhas.reread hn).retrieve_eq hk, hhas.retrieve_eq hk]

/-- Behind three bytes of something else. -/
def embedded : ByteFile := ⟨[1, 2, 3] ++ trieImage usedTrie.2.trie ++ [4], 3, 0⟩

theorem trieRun_fread_used :
    (embedded.bytes.drop embedded.pos = trieImage usedTrie.2.trie ++ [4] → ∃ t',
      trieFread embedded =
        (some t', { embedded with pos := embedded.pos + (trieImage usedTrie.2.trie).length }) ∧
        ∀ key, ZeroFree key → t'.retrieve key = usedTrie.2.trie.retrieve key) ∧
      (embedded.bytes.drop embedded.pos <+: trieImage usedTrie.2.trie →
        embedded.bytes.drop embedded.pos ≠ trieImage usedTrie.2.trie →
        (trieFread embedded).1 = none) :=
  trieRun_fread list2triMap_fits usedRun usedTrie_tails

end DnsCache

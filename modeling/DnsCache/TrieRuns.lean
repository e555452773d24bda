import DnsCache.TrieDelete

/-! # The entries of a trie

* `TrieOp`: calls of `trie_store`, `trie_store_if_absent` and `trie_delete`.
* `entriesStep`, `EntryStep`: what they are to do to the entries, and what a full
  array makes of it.
* `TrieHas`: the trie has exactly these entries.
* `TrieHas.new`, `TrieOp.apply_spec`: a new trie, and a trie after a call.
* `TrieHas.cell`: no cell is in use for nothing.
-/

namespace DnsCache

open WordTree Radix

/-- A call that changes a trie. -/
inductive TrieOp where
  | store (key : List UInt32) (data : Int32)
  | storeIfAbsent (key : List UInt32) (data : Int32)
  | delete (key : List UInt32)
deriving DecidableEq, Repr

namespace TrieOp

def key : TrieOp → List UInt32
  | store key _ => key
  | storeIfAbsent key _ => key
  | delete key => key

/-- The call, with its result. -/
def apply (t : Trie) : TrieOp → Bool × Trie
  | store key data => t.store key data
  | storeIfAbsent key data => t.storeIfAbsent key data
  | delete key => t.delete key

/-- Only strings over the alphabet are stored. -/
def Ok (m : AlphaMap) : TrieOp → Prop
  | store key _ => TrieKey m key
  | storeIfAbsent key _ => TrieKey m key
  | delete key => ZeroFree key

def Stores : TrieOp → Prop
  | store _ _ => True
  | storeIfAbsent _ _ => True
  | delete _ => False

end TrieOp

/-- The entries of a trie. -/
abbrev Entries := List UInt32 → Option Int32

/-- What a call is to do. -/
def entriesStep (e : Entries) : TrieOp → Bool × Entries
  | .store key data => (true, Function.update e key (some data))
  | .storeIfAbsent key data =>
      if (e key).isSome then (false, e) else (true, Function.update e key (some data))
  | .delete key => ((e key).isSome, Function.update e key none)

/-- What a call may do: that, or nothing when a new key finds no room. -/
def EntryStep (e : Entries) (op : TrieOp) (r : Bool) (e' : Entries) : Prop :=
  (r, e') = entriesStep e op ∨ op.Stores ∧ e op.key = none ∧ r = false ∧ e' = e

/-- The dictionary has the entries, in numbers. -/
structure Holding (D : Dict UInt8 Int32) (m : AlphaMap) (e : Entries) : Prop where
  entry : ∀ {key}, ZeroFree key → ∀ x, D.Holds (nums m key ++ [0]) x ↔ e key = some x
  only : ∀ {k x}, D.Holds k x → ∃ key, TrieKey m key ∧ k = nums m key ++ [0]

/-- The trie has these entries and no others. -/
def TrieHas (t : Trie) (e : Entries) : Prop :=
  ∃ D l tl, TrieInv t D l tl ∧ Holding D t.alphaMap e

variable {t : Trie} {D D' : Dict UInt8 Int32} {e : Entries} {m : AlphaMap} {key : List UInt32}
  {op : TrieOp}

/-! ## A new trie -/

theorem daNew_node {i : Int} {c : DACell} :
    daNew.node i = some c ↔ i = daGetRoot ∧ c = ⟨daPoolBegin, 0⟩ := by
  rw [node_eq_some]
  constructor
  · rintro ⟨⟨hlow, hhigh, -⟩, hbase, hcheck⟩
    have hi : i = daGetRoot := by
      have : daNew.numCells = 3 := rfl
      unfold daGetRoot
      omega
    subst hi
    refine ⟨rfl, ?_⟩
    cases c
    rw [DACell.mk.injEq]
    exact ⟨hbase.symm, hcheck.symm⟩
  · rintro ⟨rfl, rfl⟩
    decide

theorem daNew_edge {p i : Int} {c : UInt8} : ¬ Edge daNew.node p c i := by
  rintro ⟨cp, ci, hp, -, hi, hci, -⟩
  rcases daNew_node.mp hp with ⟨-, rfl⟩
  rcases daNew_node.mp hci with ⟨hroot, -⟩
  have hi' : i = 3 + (c.toNat : Int) := hi
  unfold daGetRoot at hroot
  omega

theorem daNew_inv : DaInv daNew [] := by
  refine ⟨⟨by decide, by decide, rfl, rfl, ⟨by decide, by decide⟩, .nil, ?_⟩, ?_, ?_⟩
  · intro i
    refine iff_of_false List.not_mem_nil ?_
    rintro ⟨hlow, hhigh, -⟩
    have : daNew.numCells = 3 := rfl
    omega
  · refine ⟨⟨daPoolBegin, by decide, rfl⟩, ?_, ?_, ?_, fun he => absurd he daNew_edge⟩
    · intro i c hi
      rw [(daNew_node.mp hi).1]
      decide
    · intro i c hi _
      rw [(daNew_node.mp hi).2]
    · intro i c hi
      exact ⟨[], (daNew_node.mp hi).1 ▸ .nil⟩
  · intro i c hi
    rw [(daNew_node.mp hi).2]
    decide

theorem TrieInv.new (ha : AlphaFits m) : TrieInv (Trie.new m) Dict.empty [] [] := by
  have hm : (Trie.new m).alphaMap = m := alphaMapClone_eq ha.sorted
  have hpath : ∀ {w s}, DaPath daNew.node w s → w = [] ∧ s = daGetRoot := by
    intro w s hs
    cases hs with
    | nil => exact ⟨rfl, rfl⟩
    | snoc hp he => exact absurd he daNew_edge
  have hat : ∀ {w b}, At daNew.node w b → w = [] ∧ b = daPoolBegin := by
    rintro w b ⟨s, c, hs, hc, rfl⟩
    rw [(daNew_node.mp hc).2]
    exact ⟨(hpath hs).1, rfl⟩
  refine ⟨by rwa [hm], daNew_inv, tailNew_inv, ?_, ?_, ?_, ?_, ?_, ?_, Dict.empty_tight⟩
  · intro w b hb
    rcases hat hb with ⟨rfl, rfl⟩
    exact .inl ⟨by decide, rfl⟩
  · rintro w (hw | hw)
    · have hnil : w = [] := hw
      subst hnil
      exact ⟨daPoolBegin, daGetRoot, ⟨daPoolBegin, 0⟩, .nil, rfl, rfl⟩
    · cases hw
  · intro w v i _ hw hv
    rw [(hat hw).1, (hat hv).1]
  · intro w hw
    have hnil : w = [] := hw
    rw [hnil]
    exact List.not_mem_nil
  · intro w rest x hleaf
    cases hleaf
  · intro b σ hb hn
    have hzero : (Trie.new m).tail.numTails = 0 := rfl
    omega

theorem TrieHas.new (ha : AlphaFits m) : TrieHas (Trie.new m) fun _ => none := by
  have hnot : ∀ {k : List UInt8} {x : Int32}, ¬ Dict.empty.Holds k x := fun {k x} h => by
    have h' := (Dict.empty_represents k x).mp h
    cases h'
  exact ⟨_, _, _, TrieInv.new ha, fun _ _ => iff_of_false hnot (by simp), fun h => absurd h hnot⟩

/-! ## One call -/

theorem TrieHas.retrieve_eq (h : TrieHas t e) (hk : ZeroFree key) : t.retrieve key = e key := by
  rcases h with ⟨D, l, tl, hinv, hent⟩
  apply Option.ext
  intro x
  rw [retrieve_iff hinv hk, hent.entry hk]

/-- The entry of one key is another, or none. -/
theorem Holding.update (h : Holding D m e) (ha : AlphaFits m) (hk : TrieKey m key)
    (o : Option Int32)
    (hD : ∀ f, D.Represents f → D'.Represents (Function.update f (nums m key ++ [0]) o)) :
    Holding D' m (Function.update e key o) := by
  rcases Dict.exists_represents D with ⟨f, hf⟩
  have hD' := hD f hf
  refine ⟨fun {key'} hk' x => ?_, fun {k x} hx => ?_⟩
  · rw [hD']
    by_cases hkey : key' = key
    · rw [hkey, Function.update_self, Function.update_self]
    · have hne : nums m key' ++ [0] ≠ nums m key ++ [0] := fun heq =>
        hkey (nums_inj ha hk hk' (List.append_cancel_right heq))
      rw [Function.update_of_ne hkey, Function.update_of_ne hne, ← hf, h.entry hk']
  · rw [hD'] at hx
    by_cases hkey : k = nums m key ++ [0]
    · exact ⟨key, hk, hkey⟩
    · rw [Function.update_of_ne hkey, ← hf] at hx
      exact h.only hx

theorem Holding.same (h : Holding D m e) (hD : ∀ f, D.Represents f → D'.Represents f) :
    Holding D' m e := by
  rcases Dict.exists_represents D with ⟨f, hf⟩
  have hiff : ∀ k x, D'.Holds k x ↔ D.Holds k x := fun k x => by rw [hD f hf k x, hf k x]
  exact ⟨fun hk x => (hiff _ _).trans (h.entry hk x), fun hx => h.only ((hiff _ _).mp hx)⟩

/-- What a call leaves. -/
structure Applied (t : Trie) (e : Entries) (op : TrieOp) (r : Bool) (t' : Trie) (e' : Entries) :
    Prop where
  step : EntryStep e op r e'
  has : TrieHas t' e'
  alphaMap : t'.alphaMap = t.alphaMap
  room : RoomFor t.da (op.key.length + 2) → (r, e') = entriesStep e op ∧
    t'.da.numCells ≤ max t.da.numCells 258 + 256 * (op.key.length + 2 : Nat)

/-- `trie_store` and `trie_store_if_absent`. -/
theorem storeConditionally_applied (h : TrieHas t e) (hk : TrieKey t.alphaMap key) (x : Int32)
    (isOverwrite : Bool) (hop : op.key = key) (hstores : op.Stores)
    (hstep : entriesStep e op = if (e key).isSome ∧ isOverwrite = false then (false, e)
      else (true, Function.update e key (some x))) :
    ∃ e', Applied t e op (t.storeConditionally key x isOverwrite).1
      (t.storeConditionally key x isOverwrite).2 e' := by
  rcases h with ⟨D, l, tl, hinv, hent⟩
  rcases store_spec hinv hk x isOverwrite with ⟨r, t', D', l', tl', heq, hinv', hst⟩
  rw [heq]
  have halpha := hst.alphaMap
  have hpresent : (e key).isSome → r = isOverwrite := by
    intro hsome
    rcases Option.isSome_iff_exists.mp hsome with ⟨y, hy⟩
    exact hst.present y ((hent.entry hk.zeroFree y).mpr hy)
  have habsent : e key = none → RoomFor t.da (key.length + 2) → r = true := by
    intro hnone
    refine hst.room fun y hy => ?_
    rw [hent.entry hk.zeroFree, hnone] at hy
    cases hy
  subst hop
  cases hr : r with
  | true =>
      subst hr
      refine ⟨Function.update e op.key (some x), ?_, ⟨D', l', tl', hinv', ?_⟩, halpha, fun hroom => ?_⟩
      · left
        rw [hstep, if_neg]
        rintro ⟨hsome, hno⟩
        exact absurd ((hpresent hsome).trans hno) (by decide)
      · rw [halpha]
        exact hent.update hinv.alpha hk (some x) fun f hf => hst.entries f hf
      · refine ⟨?_, hst.size hroom⟩
        rw [hstep, if_neg]
        rintro ⟨hsome, hno⟩
        exact absurd ((hpresent hsome).trans hno) (by decide)
  | false =>
      subst hr
      have hkeep : TrieHas t' e := ⟨D', l', tl', hinv', by
        rw [halpha]
        exact hent.same fun f hf => hst.entries f hf⟩
      cases hkey : e op.key with
      | some y =>
          have hno : isOverwrite = false := (hpresent (by rw [hkey]; rfl)).symm
          have heq' : (false, e) = entriesStep e op := by
            rw [hstep, hkey, if_pos ⟨rfl, hno⟩]
          exact ⟨e, .inl heq', hkeep, halpha, fun hroom => ⟨heq', hst.size hroom⟩⟩
      | none =>
          refine ⟨e, .inr ⟨hstores, hkey, rfl, rfl⟩, hkeep, halpha, fun hroom => ?_⟩
          exact absurd (habsent hkey hroom) Bool.false_ne_true

theorem TrieOp.apply_spec (h : TrieHas t e) (hok : op.Ok t.alphaMap) :
    ∃ e', Applied t e op (op.apply t).1 (op.apply t).2 e' := by
  cases op with
  | store key x =>
      refine storeConditionally_applied h hok x true rfl trivial ?_
      rw [entriesStep, if_neg]
      rintro ⟨-, hno⟩
      cases hno
  | storeIfAbsent key x =>
      refine storeConditionally_applied h hok x false rfl trivial ?_
      simp only [entriesStep, and_true]
  | delete key =>
      rcases h with ⟨D, l, tl, hinv, hent⟩
      have hz : ZeroFree key := hok
      rcases delete_spec hinv hz with ⟨r, t', D', l', tl', heq, hinv', halpha, hr, hD, hn⟩
      have hdel : TrieOp.apply t (.delete key) = (r, t') := heq
      rw [hdel]
      have hsome : r = (e key).isSome := by
        rw [Bool.eq_iff_iff, hr, Option.isSome_iff_exists]
        exact exists_congr fun y => hent.entry hz y
      have hstep : (r, Function.update e key none) = entriesStep e (.delete key) := by
        rw [hsome]
        rfl
      refine ⟨Function.update e key none, .inl hstep, ⟨D', l', tl', hinv', ?_⟩, halpha,
        fun _ => ⟨hstep, by simp only [hn]; omega⟩⟩
      rw [halpha]
      cases hkey : e key with
      | none =>
          rw [hkey] at hsome
          subst hsome
          rw [Function.update_eq_self_iff.mpr hkey.symm]
          exact hent.same fun f hf => hD f hf
      | some y =>
          rw [hkey] at hsome
          subst hsome
          have hfound := hent.only ((hent.entry hz y).mpr hkey)
          rcases hfound with ⟨key', hk', heq'⟩
          have hkk : key = key' := nums_inj hinv.alpha hk' hz (List.append_cancel_right heq')
          subst hkk
          exact hent.update hinv.alpha hk' none fun f hf => hD f hf

/-! ## No cell for nothing -/

/-- Every node but the root is on the way to an entry. -/
theorem TrieInv.exists_holds (h : TrieInv t D l tl) {w : List UInt8} (hw : D.Node w) (hne : w ≠ []) :
    ∃ k x, D.Holds k x ∧ w <+: k := by
  refine h.tight.exists_holds (n := t.da.cells.length) ?_ hw hne
  intro v hv
  rcases h.path_of_node (.inl hv) with ⟨s, hs⟩
  exact Nat.le_of_lt (h.da.length_lt hs)

theorem TrieHas.cell (h : TrieHas t e) {i : Int} {c : DACell} (hi : t.da.node i = some c)
    (hroot : i ≠ daGetRoot) : ∃ w key x, DaPath t.da.node w i ∧ TrieKey t.alphaMap key ∧
      e key = some x ∧ w <+: nums t.alphaMap key ++ [0] := by
  rcases h with ⟨D, l, tl, hinv, hent⟩
  rcases hinv.da.good.reach hi with ⟨w, hw⟩
  have hne : w ≠ [] := by
    rintro rfl
    exact hroot (path_nil.mp hw)
  rcases hinv.exists_holds (hinv.node_of_path hw) hne with ⟨k, x, hx, hpre⟩
  rcases hent.only hx with ⟨key, hk, rfl⟩
  exact ⟨w, key, x, hw, hk, (hent.entry hk.zeroFree x).mp hx, hpre⟩

end DnsCache

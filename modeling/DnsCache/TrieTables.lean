import DnsCache.MainTable
import DnsCache.TrieFile

/-! # The trie of `list2tri` and `kache_init`

`list2tri` stores the names of `out.list` and saves the trie, `kache_init` loads it.

* `list2triMain`: the program, on the trie of `trie.c`.
* `storeConditionally_numTails`: a name takes one block of the tail at most.
* `Mirrors`, `list2triMain_loaded`: the trie holds what an exact map would.
* `list2triTrie_stored`: when every name finds room.
-/

namespace DnsCache

open CMem TextFile

/-! ## Blocks -/

variable {tail : Tail} {t tr : Trie} {e : Entries}

/-- The loop of `list2tri`, and whether every `trie_store` succeeded: the program does not
look at what they return. -/
def list2triTrieLoop (buff file : List UInt8) (var : Int32) (tr : Trie) : Bool × Trie :=
  match h : fgets lineLength buff file with
  | none => (true, tr)
  | some (buff, rest) =>
      let buff := replaceN buff
      let first := tr.store ((list2triChars buff).takeWhile (· ≠ 0)) var
      let others := list2triTrieLoop buff rest (var + 1) first.2
      (first.1 && others.1, others.2)
termination_by file.length
decreasing_by exact fgets_lt (by decide) h

/-- `main` of `list2tri`, up to `trie_save`. -/
def list2triTrie (outList : List UInt8) : Bool × Trie :=
  list2triTrieLoop (List.replicate lineLength 0) outList 1 (Trie.new list2triMap)

variable {T : Type} {trie : ExactTrie T} {x : T} {buff buff' file rest : List UInt8} {n : Nat}

theorem list2triTrieLoop_none (h : fgets lineLength buff file = none) (var : Int32) (tr : Trie) :
    list2triTrieLoop buff file var tr = (true, tr) := by
  rw [list2triTrieLoop]
  split
  · rfl
  · rename_i hsome
    rw [h] at hsome
    cases hsome

/-- The key of a round. -/
def lineKey (buff : List UInt8) : List UInt32 := (list2triChars (replaceN buff)).takeWhile (· ≠ 0)

theorem list2triTrieLoop_some (h : fgets lineLength buff file = some (buff', rest)) (var : Int32)
    (tr : Trie) : list2triTrieLoop buff file var tr =
      ((tr.store (lineKey buff') var).1 &&
        (list2triTrieLoop (replaceN buff') rest (var + 1) (tr.store (lineKey buff') var).2).1,
        (list2triTrieLoop (replaceN buff') rest (var + 1) (tr.store (lineKey buff') var).2).2) := by
  rw [list2triTrieLoop]
  split
  · rename_i hnone
    rw [h] at hnone
    cases hnone
  · rename_i hsome
    rw [h] at hsome
    cases hsome
    rfl

/-- A line of the file, with or without its newline. -/
theorem readLine_shape (n : Nat) (file : List UInt8) : ∃ line, newline ∉ line ∧ line.length ≤ n ∧
    ((readLine n file).1 = line ++ [newline] ∧ line.length < n ∨ (readLine n file).1 = line) := by
  induction n generalizing file with
  | zero => exact ⟨[], List.not_mem_nil, Nat.le_refl 0, .inr rfl⟩
  | succ n ih =>
      cases file with
      | nil => exact ⟨[], List.not_mem_nil, Nat.zero_le _, .inr rfl⟩
      | cons b file =>
          rw [readLine]
          by_cases hb : b = newline
          · rw [if_pos hb, hb]
            exact ⟨[], List.not_mem_nil, Nat.zero_le _, .inl ⟨rfl, Nat.succ_pos n⟩⟩
          · rw [if_neg hb]
            rcases ih file with ⟨line, hline, hlen, hread⟩
            refine ⟨b :: line, ?_, Nat.succ_le_succ hlen, ?_⟩
            · rw [List.mem_cons]
              rintro (heq | hmem)
              · exact hb heq.symm
              · exact hline hmem
            · rcases hread with ⟨hread, hlt⟩ | hread
              · exact .inl ⟨congrArg (b :: ·) hread, Nat.succ_lt_succ hlt⟩
              · exact .inr (congrArg (b :: ·) hread)

/-- The characters in front of the first NUL. -/
theorem takeWhile_list2triChars {line : List UInt8} (hnul : 0 ∉ line) (u : List UInt8) :
    (list2triChars (line ++ 0 :: u)).takeWhile (· ≠ 0) = line.map charOfSigned := by
  have htext : ∀ ac ∈ line.map charOfSigned, decide (ac ≠ 0) = true := by
    intro ac hac
    rcases List.mem_map.mp hac with ⟨b, hb, rfl⟩
    exact decide_eq_true fun h0 => hnul ((charOfSigned_eq_zero_iff b).mp h0 ▸ hb)
  have hend : ((0 :: u).map charOfSigned).takeWhile (· ≠ 0) = [] := rfl
  rw [list2triChars, List.map_append, List.takeWhile_append_of_pos htext, hend, List.append_nil]

/-- What a call of `fgets` makes the next key. -/
structure NextKey (file rest line : List UInt8) (key : List UInt32) : Prop where
  key : key = line.map charOfSigned
  mem : ∀ b ∈ line, b ∈ file ∧ b ≠ newline
  left : ∀ b ∈ rest, b ∈ file
  short : line.length < lineLength
  length : line.length + rest.length ≤ file.length
  lt : rest.length < file.length

theorem fgets_key (h : fgets lineLength buff file = some (buff', rest)) (hnul : 0 ∉ file) :
    ∃ line, NextKey file rest line (lineKey buff') := by
  have hlt := fgets_lt (by decide) h
  unfold fgets at h
  split at h
  · cases h
  · rw [Option.some.injEq, Prod.mk.injEq] at h
    rcases h with ⟨rfl, rfl⟩
    have happend := readLine_append (lineLength - 1) file
    rcases readLine_shape (lineLength - 1) file with ⟨line, hline, hlen, hread⟩
    generalize hrest : (readLine (lineLength - 1) file).2 = rest at *
    have hsub : ∀ b ∈ line, b ∈ file := by
      intro b hb
      rw [← happend]
      rcases hread with ⟨hread, -⟩ | hread
      · rw [hread, List.append_assoc]
        exact List.mem_append_left _ hb
      · rw [hread]
        exact List.mem_append_left _ hb
    have hnul' : 0 ∉ line := fun hm => hnul (hsub 0 hm)
    refine ⟨line, ?_, fun b hb => ⟨hsub b hb, fun heq => hline (heq ▸ hb)⟩,
      fun b hb => happend ▸ List.mem_append_right _ hb, Nat.lt_of_le_of_lt hlen (by decide), ?_, hlt⟩
    · rw [patch_zero]
      rcases hread with ⟨hread, hlt⟩ | hread
      · have hfirst : ∀ u, replaceFirst (line ++ newline :: u) = line ++ 0 :: u :=
          fun u => replaceFirst_append hline _
        rw [lineKey, hread, List.append_assoc, List.append_assoc, List.singleton_append, replaceN,
          hfirst]
        generalize ([0] : List UInt8) ++ _ = u
        rcases set_nul hlen u with ⟨u', hset⟩
        rw [hset]
        exact takeWhile_list2triChars hnul' u'
      · rw [lineKey, hread, List.append_assoc, List.singleton_append, replaceN, replaceFirst_append hline]
        rcases set_nul hlen (replaceFirst (buff.drop (line ++ [0]).length)) with ⟨u', hset⟩
        have hzero : ∀ u, replaceFirst (0 :: u) = 0 :: replaceFirst u := fun u => if_neg (by decide)
        rw [hzero, hset]
        exact takeWhile_list2triChars hnul' u'
    · have hlen' := congrArg List.length happend
      rw [List.length_append] at hlen'
      rcases hread with ⟨hread, -⟩ | hread
      · rw [hread, List.length_append, List.length_singleton] at hlen'
        omega
      · rw [hread] at hlen'
        omega

/-! ## The trie holds what an exact map would -/

/-- A byte of the alphabet is a character of it. -/
theorem covers_charOfSigned {b : UInt8} (h : InAlphabet b) :
    charOfSigned b ≠ 0 ∧ Covers list2triMap (charOfSigned b) := by
  revert b
  apply forall_byte
  decide +kernel

/-- The two find the same. -/
structure Mirrors (trie : ExactTrie T) (tr : Trie) (x : T) (e : Entries) : Prop where
  has : TrieHas tr e
  alphaMap : tr.alphaMap = list2triMap
  retrieve : ∀ key, ZeroFree key → trie.retrieve x (nums list2triMap key) = e key

/-- The key of a line over the alphabet. -/
theorem NextKey.trieKey {line : List UInt8} {key : List UInt32} (h : NextKey file rest line key)
    (hfile : ∀ b ∈ file, b = newline ∨ InAlphabet b) :
    TrieKey list2triMap key ∧ key.length = line.length := by
  have hlen : key.length = line.length := by rw [h.key, List.length_map]
  refine ⟨⟨?_, by rw [hlen]; exact Nat.lt_trans h.short (by decide)⟩, hlen⟩
  intro c hc
  rw [h.key] at hc
  rcases List.mem_map.mp hc with ⟨b, hb, rfl⟩
  rcases h.mem b hb with ⟨hbf, hbn⟩
  exact covers_charOfSigned ((hfile b hbf).resolve_left hbn)

theorem zero_notMem (hfile : ∀ b ∈ file, b = newline ∨ InAlphabet b) : 0 ∉ file := by
  intro hm
  rcases hfile 0 hm with heq | hin
  · cases heq
  · exact (trieToChar_charToTrie hin).2.2 rfl

theorem Mirrors.store (h : Mirrors trie tr x e) {key : List UInt32} (hk : TrieKey list2triMap key)
    {data : Int32} (hstored : (tr.store key data).1 = true) :
    ∃ e', Mirrors trie (tr.store key data).2 (trie.store x (nums list2triMap key) data) e' := by
  have hok : (TrieOp.store key data).Ok tr.alphaMap := by
    rw [h.alphaMap]
    exact hk
  rcases TrieOp.apply_spec h.has hok with ⟨e', happ⟩
  have he' : e' = Function.update e key (some data) := by
    rcases happ.step with hstep | ⟨-, -, hfailed, -⟩
    · exact (Prod.mk.inj hstep).2
    · exact absurd (hstored.symm.trans hfailed) (by decide)
  refine ⟨e', happ.has, happ.alphaMap.trans h.alphaMap, fun key' hk' => ?_⟩
  rw [trie.retrieve_store, he', Function.update_apply]
  by_cases hkey : key' = key
  · rw [if_pos hkey, hkey, if_pos rfl]
  · have hne : nums list2triMap key' ≠ nums list2triMap key := fun heq =>
      hkey (nums_inj list2triMap_fits hk hk' heq)
    rw [if_neg hkey, if_neg hne, h.retrieve key' hk']

/-- They do when every character of the file may take three blocks of cells. -/
theorem list2triTrieLoop_room (h : TrieHas tr e) (ha : tr.alphaMap = list2triMap)
    (hfile : ∀ b ∈ file, b = newline ∨ InAlphabet b) (var : Int32)
    (hroom : max tr.da.numCells 258 + 768 * (file.length : Int) < trieIndexMax) :
    (list2triTrieLoop buff file var tr).1 = true := by
  induction hlength : file.length using Nat.strong_induction_on generalizing file buff var tr e with
  | h length ih =>
      subst hlength
      cases hgets : fgets lineLength buff file with
      | none => rw [list2triTrieLoop_none hgets]
      | some out =>
          rcases out with ⟨buff', rest⟩
          rcases fgets_key hgets (zero_notMem hfile) with ⟨line, hnext⟩
          rcases hnext.trieKey hfile with ⟨hk, hlen⟩
          have hlt := hnext.lt
          have hlength := hnext.length
          have hok : (TrieOp.store (lineKey buff') var).Ok tr.alphaMap := by
            rw [ha]
            exact hk
          rcases TrieOp.apply_spec h hok with ⟨e', happ⟩
          have hfits : RoomFor tr.da ((lineKey buff').length + 2) := by
            unfold RoomFor
            omega
          rcases happ.room hfits with ⟨hstep, hsize⟩
          have hsize : (tr.store (lineKey buff') var).2.da.numCells ≤
            max tr.da.numCells 258 + 256 * ((lineKey buff').length + 2 : Nat) := hsize
          rw [list2triTrieLoop_some hgets, Bool.and_eq_true]
          refine ⟨(Prod.mk.inj hstep).1, ih rest.length hlt happ.has (happ.alphaMap.trans ha)
            (fun b hb => hfile b (hnext.left b hb)) (var + 1) ?_ rfl⟩
          show max (tr.store (lineKey buff') var).2.da.numCells 258 + 768 * (rest.length : Int) < _
          omega

/-- The names `abc` and `xyz`. -/
def twoNames : List UInt8 := [97, 98, 99, 10, 120, 121, 122, 10]

theorem twoNames_alphabet : ∀ b ∈ twoNames, b = newline ∨ InAlphabet b := by
  have hall : twoNames.all fun b => decide (b = newline ∨ InAlphabet b) := by decide +kernel
  exact fun b hb => of_decide_eq_true (List.all_eq_true.mp hall b hb)

/-- Every name of a file that is not too long finds room. -/
theorem list2triTrie_stored {outList : List UInt8} (hfile : ∀ b ∈ outList, b = newline ∨ InAlphabet b)
    (hroom : 258 + 768 * (outList.length : Int) < trieIndexMax) : (list2triTrie outList).1 = true :=
  list2triTrieLoop_room (.new list2triMap_fits) (alphaMapClone_eq list2triMap_fits.sorted) hfile 1 hroom

theorem list2triTrie_stored_two : (list2triTrie twoNames).1 = true :=
  list2triTrie_stored twoNames_alphabet (by decide)

end DnsCache

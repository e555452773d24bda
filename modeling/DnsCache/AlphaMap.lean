import DnsCache.Lib.CMem

/-! # The alphabet of the trie, `alpha-map.c`

Characters are numbered through the ranges of a map; the trie sees the numbers.

* `alphaMapAddRange`, `alphaMapCharToTrie`, `alphaMapTrieToChar`: the functions.
* `list2triMap`: the map `list2tri` makes, with the bytes it covers.
* `charToTrie_eq_iff`: which bytes get one number.
* `ExactTrie`: a trie as a map on numbered keys.
-/

namespace DnsCache

/-- `AlphaRange`: the characters from `begin` to `end`. -/
structure AlphaRange where
  rangeBegin : UInt32
  rangeEnd : UInt32
deriving DecidableEq, Repr

/-- `AlphaMap`: the linked list of the ranges, in order and without an overlap. -/
abbrev AlphaMap := List AlphaRange

/-- `TRIE_CHAR_MAX` and `ALPHA_CHAR_ERROR`. -/
def trieCharMax : UInt8 := 255
def alphaCharError : UInt32 := 4294967295

/-- The second half of `alpha_map_add_range`: the ranges that begin inside the
new one are merged into it, the last of them may reach beyond its end. -/
def mergeRanges (first last : UInt32) : AlphaMap → AlphaMap
  | [] => [⟨first, last⟩]
  | r :: ranges =>
      if r.rangeBegin ≤ last then
        if last ≤ r.rangeEnd then ⟨first, r.rangeEnd⟩ :: ranges else mergeRanges first last ranges
      else ⟨first, last⟩ :: r :: ranges

/-- The ranges that end before the new one are kept, the next one may begin before it. -/
def addRangeLoop (first last : UInt32) : AlphaMap → AlphaMap
  | [] => [⟨first, last⟩]
  | r :: ranges =>
      if r.rangeBegin ≤ first then
        if first ≤ r.rangeEnd then mergeRanges r.rangeBegin last (r :: ranges)
        else r :: addRangeLoop first last ranges
      else mergeRanges first last (r :: ranges)

/-- `alpha_map_add_range`. A range whose end lies before its begin is refused. -/
def alphaMapAddRange (alphaMap : AlphaMap) (first last : UInt32) : AlphaMap :=
  if last < first then alphaMap else addRangeLoop first last alphaMap

/-- The loop of `alpha_map_char_to_trie`. `alpha_begin` is a `TrieChar` and wraps. -/
def charToTrieLoop (ac : UInt32) : UInt8 → AlphaMap → UInt8
  | _, [] => trieCharMax
  | alphaBegin, r :: ranges =>
      if r.rangeBegin ≤ ac ∧ ac ≤ r.rangeEnd then alphaBegin + (ac - r.rangeBegin).toUInt8
      else charToTrieLoop ac (alphaBegin + (r.rangeEnd - r.rangeBegin + 1).toUInt8) ranges

/-- `alpha_map_char_to_trie`. -/
def alphaMapCharToTrie (alphaMap : AlphaMap) (ac : UInt32) : UInt8 :=
  if ac = 0 then 0 else charToTrieLoop ac 1 alphaMap

/-- The loop of `alpha_map_trie_to_char`. -/
def trieToCharLoop (tc : UInt8) : UInt8 → AlphaMap → UInt32
  | _, [] => alphaCharError
  | alphaBegin, r :: ranges =>
      if tc.toUInt32 ≤ alphaBegin.toUInt32 + (r.rangeEnd - r.rangeBegin) then
        r.rangeBegin + (tc.toUInt32 - alphaBegin.toUInt32)
      else trieToCharLoop tc (alphaBegin + (r.rangeEnd - r.rangeBegin + 1).toUInt8) ranges

/-- `alpha_map_trie_to_char`. -/
def alphaMapTrieToChar (alphaMap : AlphaMap) (tc : UInt8) : UInt32 :=
  if tc = 0 then 0 else trieToCharLoop tc 1 alphaMap

/-- A range of the map holds the character. -/
def Covers (alphaMap : AlphaMap) (ac : UInt32) : Prop :=
  ∃ r ∈ alphaMap, r.rangeBegin ≤ ac ∧ ac ≤ r.rangeEnd

instance (alphaMap : AlphaMap) (ac : UInt32) : Decidable (Covers alphaMap ac) :=
  inferInstanceAs (Decidable (∃ r ∈ alphaMap, _))

/-- What no range holds is `TRIE_CHAR_MAX`, whatever it is. -/
theorem charToTrieLoop_foreign {alphaMap : AlphaMap} {ac : UInt32} (h : ¬ Covers alphaMap ac)
    (alphaBegin : UInt8) : charToTrieLoop ac alphaBegin alphaMap = trieCharMax := by
  induction alphaMap generalizing alphaBegin with
  | nil => rfl
  | cons r ranges ih =>
      have hr : ¬ (r.rangeBegin ≤ ac ∧ ac ≤ r.rangeEnd) := fun hr => h ⟨r, List.mem_cons_self, hr⟩
      have hranges : ¬ Covers ranges ac := by
        rintro ⟨r', hmem, hr'⟩
        exact h ⟨r', List.mem_cons_of_mem _ hmem, hr'⟩
      rw [charToTrieLoop, if_neg hr]
      exact ih hranges _

theorem alphaMapCharToTrie_foreign {alphaMap : AlphaMap} {ac : UInt32} (h0 : ac ≠ 0)
    (h : ¬ Covers alphaMap ac) : alphaMapCharToTrie alphaMap ac = trieCharMax := by
  rw [alphaMapCharToTrie, if_neg h0]
  exact charToTrieLoop_foreign h 1

/-! ## The map of `list2tri` -/

/-- The four calls of `alpha_map_add_range` in `list2tri`. -/
def list2triMap : AlphaMap :=
  let am := alphaMapAddRange [] 0x2d 0x2e
  let am := alphaMapAddRange am 0x30 0x39
  let am := alphaMapAddRange am 0x61 0x7a
  alphaMapAddRange am 0x5f 0x5f

-- the list is kept in order
example : list2triMap = [⟨0x2d, 0x2e⟩, ⟨0x30, 0x39⟩, ⟨0x5f, 0x5f⟩, ⟨0x61, 0x7a⟩] := by decide

/-- A `char` of `list2tri` as an `AlphaChar`: it is signed, and its sign is extended. -/
def charOfSigned (b : UInt8) : UInt32 := if b < 128 then b.toUInt32 else b.toUInt32 + 0xffffff00

/-- A byte of `dl_kache.c` is not. -/
def charOfUnsigned (b : UInt8) : UInt32 := b.toUInt32

/-- '-', '.', a digit, '_' or a small letter. -/
def InAlphabet (b : UInt8) : Prop := Covers list2triMap (charOfUnsigned b)

instance (b : UInt8) : Decidable (InAlphabet b) :=
  inferInstanceAs (Decidable (Covers _ _))

/-- The number of a byte in the trie. -/
def charToTrie (b : UInt8) : UInt8 := alphaMapCharToTrie list2triMap (charOfUnsigned b)

/-- The two programs number a byte alike: what the sign changes is in no range. -/
theorem charToTrie_signed (b : UInt8) :
    alphaMapCharToTrie list2triMap (charOfSigned b) = charToTrie b := by
  revert b
  apply CMem.forall_byte
  decide +kernel

/-- The end of a key is the end of its numbers. -/
theorem charOfSigned_eq_zero_iff (b : UInt8) : charOfSigned b = 0 ↔ b = 0 := by
  revert b
  apply CMem.forall_byte
  decide +kernel

/-- Inside the alphabet the number gives the byte back. -/
theorem trieToChar_charToTrie {b : UInt8} (h : InAlphabet b) :
    alphaMapTrieToChar list2triMap (charToTrie b) = charOfUnsigned b ∧
      charToTrie b ≠ trieCharMax ∧ b ≠ 0 := by
  revert b
  apply CMem.forall_byte
  decide +kernel

theorem charToTrie_foreign {b : UInt8} (h0 : b ≠ 0) (h : ¬ InAlphabet b) :
    charToTrie b = trieCharMax := by
  apply alphaMapCharToTrie_foreign _ h
  intro hzero
  apply h0
  exact UInt8.toNat_inj.mp (congrArg UInt32.toNat hzero)

/-- Bytes of the alphabet have a number of their own, all others share one. -/
theorem charToTrie_eq_iff {b b' : UInt8} (h : b ≠ 0) (h' : b' ≠ 0) :
    charToTrie b = charToTrie b' ↔ b = b' ∨ ¬ InAlphabet b ∧ ¬ InAlphabet b' := by
  constructor
  · intro heq
    by_cases hb : InAlphabet b
    · by_cases hb' : InAlphabet b'
      · left
        have hchar := (trieToChar_charToTrie hb).1
        rw [heq, (trieToChar_charToTrie hb').1] at hchar
        exact UInt8.toNat_inj.mp (congrArg UInt32.toNat hchar.symm)
      · rw [charToTrie_foreign h' hb'] at heq
        exact absurd heq (trieToChar_charToTrie hb).2.1
    · by_cases hb' : InAlphabet b'
      · rw [charToTrie_foreign h hb] at heq
        exact absurd heq.symm (trieToChar_charToTrie hb').2.1
      · exact .inr ⟨hb, hb'⟩
  · rintro (rfl | ⟨hb, hb'⟩)
    · rfl
    · rw [charToTrie_foreign h hb, charToTrie_foreign h' hb']

/-- A key all of whose bytes are in the alphabet shares its numbers with no other. -/
theorem map_charToTrie_inj {key key' : List UInt8} (h : ∀ b ∈ key, InAlphabet b)
    (h0 : 0 ∉ key') (heq : key'.map charToTrie = key.map charToTrie) : key' = key := by
  induction key generalizing key' with
  | nil => exact List.map_eq_nil_iff.mp heq
  | cons b key ih =>
      cases key' with
      | nil => simp at heq
      | cons b' key' =>
          rw [List.map_cons, List.map_cons, List.cons.injEq] at heq
          have hb := h b List.mem_cons_self
          have hb0 : b' ≠ 0 := (List.ne_of_not_mem_cons h0).symm
          have hrest := ih (fun c hc => h c (List.mem_cons_of_mem _ hc))
            (List.not_mem_of_not_mem_cons h0) heq.2
          rcases (charToTrie_eq_iff hb0 (trieToChar_charToTrie hb).2.2).mp heq.1 with
            hsame | ⟨-, hforeign⟩
          · rw [hsame, hrest]
          · exact absurd hb hforeign

/-! ## The trie -/

/-- A trie as the rest of the library is taken to implement it: an exact map on
numbered keys, which `trie_save` and `trie_new_from_file` do not change. -/
structure ExactTrie (T : Type) where
  new : T
  store : T → List UInt8 → Int32 → T
  retrieve : T → List UInt8 → Option Int32
  reload : T → T
  retrieve_new : ∀ key, retrieve new key = none
  retrieve_store : ∀ tr key data key',
    retrieve (store tr key data) key' = if key' = key then some data else retrieve tr key'
  retrieve_reload : ∀ tr key, retrieve (reload tr) key = retrieve tr key

/-- The numbers of a key: the characters through the terminator, numbered. -/
def trieKey (key : List UInt32) : List UInt8 :=
  (key.takeWhile (· ≠ 0)).map (alphaMapCharToTrie list2triMap)

variable {T : Type}

/-- `trie_store` and `trie_retrieve`. -/
def trieStore (trie : ExactTrie T) (tr : T) (key : List UInt32) (data : Int32) : T :=
  trie.store tr (trieKey key) data

def trieRetrieve (trie : ExactTrie T) (tr : T) (key : List UInt32) : Option Int32 :=
  trie.retrieve tr (trieKey key)

/-- Such a trie, as a function. -/
def functionTrie : ExactTrie (List UInt8 → Option Int32) where
  new := fun _ => none
  store := fun tr key data key' => if key' = key then some data else tr key'
  retrieve := fun tr key => tr key
  reload := fun tr => tr
  retrieve_new := fun _ => rfl
  retrieve_store := fun _ _ _ _ => rfl
  retrieve_reload := fun _ _ => rfl

end DnsCache

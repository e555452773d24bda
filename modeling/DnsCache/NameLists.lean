import Mathlib.Data.Nat.Digits.Lemmas
import DnsCache.MainTable

/-! # The names of `out.list` and their addresses

When the table that `kache_init` loads holds the names that `list2tri` was
given, each with the address on the same line.

* `Lists`: the two files; `Tables.Agree`: what is expected of the table.
* `agree_iff`: the names have to fit the buffer and be of the alphabet.
* `kache_of_lists`: the table as the main trie of the cache.
-/

namespace DnsCache

open CMem TextFile

variable {T : Type} (trie : ExactTrie T)

/-- The main table holds exactly the names, and each with the address of its line. -/
structure Tables.Agree (t : Tables T) (names : List CStr) (addresses : List UInt32) : Prop where
  found : ∀ key, (t.mainEntry trie key).isSome ↔ key ∈ names
  address : ∀ (i : Nat) key, names[i]? = some key → ∃ index data,
    t.mainEntry trie key = some index ∧ t.mainTrData index = some data ∧
      addresses[i]? = some data.ip

/-! ## The two files -/

/-- The names of `out.list` and the lines of `ip.list`, one of each for every
entry of the table. -/
structure Lists where
  names : List CStr
  lines : List (List UInt8)
  namesNumber : names.length = trieSize - 1
  linesNumber : lines.length = trieSize - 1
  nodup : names.Nodup
  nonempty : CStr.empty ∉ names
  noNewline : ∀ name ∈ names, newline ∉ name.bytes
  decimal : ∀ line ∈ lines, ShortDecimal line

/-- The files as `list2tri` and `kache_init` read them. -/
def Lists.outList (lists : Lists) : List UInt8 := unlines (lists.names.map (·.bytes))
def Lists.ipList (lists : Lists) : List UInt8 := unlines lists.lines

/-- A name of the alphabet that fits the buffer with its newline. -/
def Plain (name : CStr) : Prop := name.length < lineLength - 1 ∧ ∀ b ∈ name.bytes, InAlphabet b

instance (name : CStr) : Decidable (Plain name) :=
  inferInstanceAs (Decidable (_ ∧ _))

/-! ## The table loaded -/

/-- The keys of the trie. -/
def Lists.keys (lists : Lists) : List (List UInt8) :=
  (lists.names.map (·.bytes)).flatMap (pieces (lineLength - 1))

/-- The table made of the two files. -/
def Lists.loaded (lists : Lists) (now : Int) : Tables T where
  mainTr := list2tri trie lists.outList
  mainTrData := fun i =>
    if i = 0 then none else (lists.lines[i - 1]?.map lineAddress).map (⟨·, now⟩)

variable {lists : Lists} {now : Int} {name key : CStr}

theorem kacheLoad_lists (lists : Lists) (buff : List UInt8) (now : Int) :
    kacheLoad (list2tri trie lists.outList) buff lists.ipList now = some (lists.loaded trie now) :=
  kacheLoad_eq lists.decimal lists.linesNumber _ buff now

theorem retrieve_loaded (lists : Lists) (now : Int) (key : CStr) :
    (lists.loaded trie now).mainEntry trie key =
      (trie.retrieve (lists.keys.foldl (storeKey trie) (1, trie.new)).2
        (key.bytes.map charToTrie)).map fun index => index.toUInt32.toNat := by
  have hlines : ∀ line ∈ lists.names.map (·.bytes), newline ∉ line ∧ 0 ∉ line := by
    intro line hline
    rcases List.mem_map.mp hline with ⟨name, hname, rfl⟩
    exact ⟨lists.noNewline name hname, name.noNul⟩
  have hloop := @list2triLoop_eq T trie _ hlines (List.replicate lineLength 0) (1, trie.new)
  rw [Tables.mainEntry, trieRetrieve, trieKey_kacheChars]
  show (trie.retrieve (trie.reload _) _).map _ = _
  rw [trie.retrieve_reload]
  exact congrArg (fun tr => (trie.retrieve tr _).map _) hloop

/-- What has been stored is found. -/
theorem found_of_mem {line : List UInt8} (h : line ∈ lists.keys)
    (hkey : key.bytes.map charToTrie = line.map charToTrie) :
    ((lists.loaded trie now).mainEntry trie key).isSome := by
  rw [retrieve_loaded, hkey, Option.isSome_map]
  exact storeKeys_mem _ h

/-- What is found has been stored. -/
theorem mem_of_found (h : ((lists.loaded trie now).mainEntry trie key).isSome) :
    ∃ line ∈ lists.keys, line.map charToTrie = key.bytes.map charToTrie := by
  by_contra hnone
  push Not at hnone
  rw [retrieve_loaded, Option.isSome_map, storeKeys_other _ hnone, trie.retrieve_new] at h
  cases h

/-- The number of the line with index `i`. -/
theorem lineNumber_toNat {i : Nat} (h : i < 2147483647) :
    ((1 : Int32) + Int32.ofNat i).toUInt32.toNat = i + 1 := by
  have hadd : (1 : Int32) + Int32.ofNat i = Int32.ofNat (1 + i) := (Int32.ofNat_add 1 i).symm
  rw [hadd, Nat.add_comm 1 i]
  exact toNat_ofNat_small (by omega)

/-! ## Names that fit -/

theorem keys_of_short (h : ∀ name ∈ lists.names, name.length < lineLength - 1) :
    lists.keys = lists.names.map (·.bytes) := by
  have hone : ∀ line ∈ lists.names.map (·.bytes), pieces (lineLength - 1) line = [line] := by
    intro line hline
    rcases List.mem_map.mp hline with ⟨name, hname, rfl⟩
    exact pieces_short (h name hname)
  rw [Lists.keys, List.flatMap_congr hone]
  exact List.flatMap_singleton' _

/-- A name is found under the number of its line. -/
theorem mainEntry_plain (hplain : ∀ name ∈ lists.names, Plain name) {i : Nat}
    (hget : lists.names[i]? = some key) :
    (lists.loaded trie now).mainEntry trie key = some (i + 1) := by
  have hkeys := keys_of_short fun name hname => (hplain name hname).1
  have hi : i < lists.names.length := (List.getElem?_eq_some_iff.mp hget).1
  have hsize : lists.names.length = 1843314 := lists.namesNumber
  have hdistinct : (lists.keys.map (·.map charToTrie)).Nodup := by
    rw [hkeys, List.map_map]
    apply lists.nodup.map_on
    intro x hx y hy heq
    exact CStr.ext (map_charToTrie_inj (hplain y hy).2 x.noNul heq)
  have hkey : lists.keys[i]? = some key.bytes := by
    rw [hkeys, List.getElem?_map, hget]
    rfl
  rw [retrieve_loaded, storeKeys_get _ hdistinct hkey, Option.map_some]
  exact congrArg some (lineNumber_toNat (by omega))

/-- Nothing but the names is found. -/
theorem mainEntry_isSome_iff (hplain : ∀ name ∈ lists.names, Plain name) (key : CStr) :
    ((lists.loaded trie now).mainEntry trie key).isSome ↔ key ∈ lists.names := by
  constructor
  · intro h
    rcases mem_of_found trie h with ⟨line, hline, heq⟩
    rw [keys_of_short fun name hname => (hplain name hname).1] at hline
    rcases List.mem_map.mp hline with ⟨name, hname, rfl⟩
    have hsame := map_charToTrie_inj (hplain name hname).2 key.noNul heq.symm
    rwa [CStr.ext hsame]
  · intro h
    rcases List.getElem?_of_mem h with ⟨i, hget⟩
    rw [mainEntry_plain trie hplain hget]
    rfl

/-- Every name has its line in `ip.list`. -/
theorem Lists.exists_line (lists : Lists) {i : Nat} (h : lists.names[i]? = some key) :
    ∃ line, lists.lines[i]? = some line := by
  have hi : i < lists.lines.length := by
    rw [lists.linesNumber, ← lists.namesNumber]
    exact (List.getElem?_eq_some_iff.mp h).1
  exact ⟨_, List.getElem?_eq_getElem hi⟩

theorem agree_of_plain (hplain : ∀ name ∈ lists.names, Plain name) :
    (lists.loaded trie now).Agree trie lists.names (lists.lines.map lineAddress) := by
  constructor
  · exact mainEntry_isSome_iff trie hplain
  · intro i key hget
    rcases lists.exists_line hget with ⟨line, hline⟩
    refine ⟨i + 1, ⟨lineAddress line, now⟩, mainEntry_plain trie hplain hget, ?_, ?_⟩
    · simp only [Lists.loaded, if_neg (Nat.succ_ne_zero i), Nat.add_sub_cancel, hline,
        Option.map_some]
    · rw [List.getElem?_map, hline]
      rfl

/-- The table is a main trie of the cache, and `kache_retrieve` answers for every
name with the address of its line. -/
theorem kache_of_lists (hplain : ∀ name ∈ lists.names, Plain name) :
    ∃ tr : MainTrie, tr.Injective ∧
      (∀ key, tr.retrieve key = (lists.loaded trie now).mainEntry trie key) ∧
      ∀ (i : Nat) key line, lists.names[i]? = some key → lists.lines[i]? = some line →
        kacheRetrieve (kacheInit tr (fun j => (lists.lines[j - 1]?.map lineAddress).getD 0) now) key =
          some ⟨lineAddress line, now⟩ := by
  have hentry : ∀ key index, (lists.loaded trie now).mainEntry trie key = some index →
      ∃ i : Nat, lists.names[i]? = some key ∧ index = i + 1 := by
    intro key index h
    have hfound := (mainEntry_isSome_iff trie hplain key).mp (Option.isSome_of_eq_some h)
    rcases List.getElem?_of_mem hfound with ⟨i, hget⟩
    rw [mainEntry_plain trie hplain hget, Option.some.injEq] at h
    exact ⟨i, hget, h.symm⟩
  have hsize : lists.names.length = trieSize - 1 := lists.namesNumber
  let tr : MainTrie := ⟨(lists.loaded trie now).mainEntry trie, by
    intro key index h
    rcases hentry key index h with ⟨i, hget, rfl⟩
    have hi := (List.getElem?_eq_some_iff.mp hget).1
    omega⟩
  refine ⟨tr, ?_, fun _ => rfl, ?_⟩
  · intro key key' index h h'
    rcases hentry key index h with ⟨i, hget, hi⟩
    rcases hentry key' index h' with ⟨i', hget', hi'⟩
    have hsame : i = i' := Nat.succ.inj (hi.symm.trans hi')
    rw [← hsame, hget, Option.some.injEq] at hget'
    exact hget'
  · intro i key line hget hline
    have hretrieve : tr.retrieve key = some (i + 1) := mainEntry_plain trie hplain hget
    have hi := (List.getElem?_eq_some_iff.mp hget).1
    have hrange : 1 ≤ i + 1 ∧ i + 1 ≤ trieSize - 1 := by omega
    rw [kacheRetrieve_main hretrieve]
    simp only [kacheInit, if_pos hrange, Nat.add_sub_cancel, hline, Option.map_some,
      Option.getD_some]

/-! ## Names that do not -/

/-- A name that fills the buffer is cut. The piece is found; were it a name
itself, the empty rest of its line would be found, which is none. -/
theorem not_agree_of_long {addresses : List UInt32} (hname : name ∈ lists.names)
    (hlong : lineLength - 1 ≤ name.length) :
    ¬ (lists.loaded trie now).Agree trie lists.names addresses := by
  have hpos : 0 < lineLength - 1 := by decide
  have hkeys : ∀ name ∈ lists.names, ∀ line ∈ pieces (lineLength - 1) name.bytes,
      line ∈ lists.keys := by
    intro name hname line hline
    exact List.mem_flatMap.mpr ⟨name.bytes, List.mem_map_of_mem hname, hline⟩
  let piece : CStr := ⟨name.bytes.take (lineLength - 1), fun h => name.noNul (List.mem_of_mem_take h)⟩
  have hpiece : piece.bytes ∈ lists.keys := by
    apply hkeys name hname
    rw [pieces_long hpos hlong]
    exact List.mem_cons_self
  intro hagree
  have hmem := (hagree.found piece).mp (found_of_mem trie hpiece rfl)
  have hempty : [] ∈ lists.keys := by
    apply hkeys piece hmem
    rw [pieces_exact hpos (List.length_take_of_le hlong)]
    exact List.mem_cons_of_mem _ List.mem_cons_self
  have hfound := @found_of_mem T trie lists now CStr.empty _ hempty rfl
  exact lists.nonempty ((hagree.found CStr.empty).mp hfound)

/-- A byte outside the alphabet could be any other such byte, a newline even. -/
theorem not_agree_of_foreign {addresses : List UInt32} {b : UInt8} (hname : name ∈ lists.names)
    (hshort : name.length < lineLength - 1) (hb : b ∈ name.bytes) (hforeign : ¬ InAlphabet b) :
    ¬ (lists.loaded trie now).Agree trie lists.names addresses := by
  rcases List.append_of_mem hb with ⟨before, after, hsplit⟩
  have hnul := name.noNul
  rw [hsplit] at hnul
  have hb0 : b ≠ 0 := by
    rintro rfl
    exact name.noNul hb
  have hother : 0 ∉ before ++ newline :: after := by
    intro h
    apply hnul
    rcases List.mem_append.mp h with h | h
    · exact List.mem_append_left _ h
    · rcases List.mem_cons.mp h with h | h
      · exact absurd h (by decide)
      · exact List.mem_append_right _ (List.mem_cons_of_mem _ h)
  have hnumbers : (before ++ newline :: after).map charToTrie = name.bytes.map charToTrie := by
    have hsame : charToTrie newline = charToTrie b :=
      (charToTrie_eq_iff (by decide) hb0).mpr (.inr ⟨by decide, hforeign⟩)
    rw [hsplit, List.map_append, List.map_append, List.map_cons, List.map_cons, hsame]
  have hstored : name.bytes ∈ lists.keys := by
    refine List.mem_flatMap.mpr ⟨name.bytes, List.mem_map_of_mem hname, ?_⟩
    rw [pieces_short hshort]
    exact List.mem_cons_self
  intro hagree
  let other : CStr := ⟨before ++ newline :: after, hother⟩
  have hmem := (hagree.found other).mp (found_of_mem trie hstored hnumbers)
  exact lists.noNewline other hmem (List.mem_append_right _ List.mem_cons_self)

/-- The table agrees with the two files exactly when every name fits the buffer
with its newline and is of the alphabet. -/
theorem agree_iff (lists : Lists) (now : Int) :
    (lists.loaded trie now).Agree trie lists.names (lists.lines.map lineAddress) ↔
      ∀ name ∈ lists.names, Plain name := by
  constructor
  · intro hagree name hname
    by_cases hshort : name.length < lineLength - 1
    · refine ⟨hshort, ?_⟩
      intro b hb
      by_contra hforeign
      exact not_agree_of_foreign trie hname hshort hb hforeign hagree
    · exact absurd hagree (not_agree_of_long trie hname (Nat.le_of_not_lt hshort))
  · exact agree_of_plain trie

/-! ## The files of a server -/

/-- Every name of the alphabet that fits the buffer is found with the address of
its line, and nothing else is found. -/
theorem lists_agree (lists : Lists) (buff : List UInt8) (now : Int)
    (hplain : ∀ name ∈ lists.names, Plain name) :
    ∃ t, kacheLoad (list2tri trie lists.outList) buff lists.ipList now = some t ∧
      t.Agree trie lists.names (lists.lines.map lineAddress) :=
  ⟨_, kacheLoad_lists trie lists buff now, agree_of_plain trie hplain⟩

/-- The byte of a decimal digit, and the name made of the digits of a number. -/
def digitByte (d : Nat) : UInt8 := UInt8.ofNat (48 + d)

theorem digitByte_spec {d : Nat} (h : d < 10) : (digitByte d).toNat - 48 = d ∧
    isDigit (digitByte d) = true ∧ InAlphabet (digitByte d) ∧ digitByte d ≠ 0 := by
  revert d
  decide +kernel

theorem digits_spec {n : Nat} {b : UInt8} (h : b ∈ (Nat.digits 10 n).map digitByte) :
    isDigit b = true ∧ InAlphabet b ∧ b ≠ 0 := by
  rcases List.mem_map.mp h with ⟨d, hd, rfl⟩
  exact (digitByte_spec (Nat.digits_lt_base (by decide) hd)).2

def numberName (n : Nat) : CStr where
  bytes := (Nat.digits 10 n).map digitByte
  noNul := fun h => (digits_spec h).2.2 rfl

theorem numberName_injective : Function.Injective numberName := by
  have hleft : Function.LeftInverse
      (fun name : CStr => Nat.ofDigits 10 (name.bytes.map fun b => b.toNat - 48)) numberName := by
    intro n
    have hdigits : ((Nat.digits 10 n).map digitByte).map (fun b => b.toNat - 48) =
        Nat.digits 10 n := by
      rw [List.map_map]
      calc (Nat.digits 10 n).map _ = (Nat.digits 10 n).map id :=
            List.map_congr_left fun d hd =>
              (digitByte_spec (Nat.digits_lt_base (by decide) hd)).1
        _ = Nat.digits 10 n := List.map_id _
    show Nat.ofDigits 10 (List.map _ ((Nat.digits 10 n).map digitByte)) = n
    rw [hdigits, Nat.ofDigits_digits]
  exact hleft.injective

/-- Files of the right size: a name that is no number, and then numbers. -/
def numberedLists (first : CStr) (hline : newline ∉ first.bytes)
    (hother : ∃ b ∈ first.bytes, isDigit b = false) : Lists where
  names := first :: (List.range' 1 (trieSize - 2)).map numberName
  lines := List.replicate (trieSize - 1) [49]
  namesNumber := by
    rw [List.length_cons, List.length_map, List.length_range']
    rfl
  linesNumber := List.length_replicate
  nodup := by
    refine List.nodup_cons.mpr ⟨?_, List.Nodup.map numberName_injective List.nodup_range'⟩
    intro h
    rcases List.mem_map.mp h with ⟨n, -, rfl⟩
    rcases hother with ⟨b, hb, hnot⟩
    rw [(digits_spec hb).1] at hnot
    cases hnot
  nonempty := by
    intro h
    rcases List.mem_cons.mp h with h | h
    · rcases hother with ⟨b, hb, -⟩
      rw [← h] at hb
      cases hb
    · rcases List.mem_map.mp h with ⟨n, hn, hempty⟩
      have hnil : Nat.digits 10 n = [] := List.map_eq_nil_iff.mp (congrArg CStr.bytes hempty)
      rw [Nat.digits_eq_nil_iff_eq_zero.mp hnil] at hn
      have hone := (List.mem_range'_1.mp hn).1
      omega
  noNewline := by
    intro name hname
    rcases List.mem_cons.mp hname with rfl | hname
    · exact hline
    · rcases List.mem_map.mp hname with ⟨n, -, rfl⟩
      intro hb
      exact (isDigit_spec (digits_spec hb).1).2.2.2.1 rfl
  decimal := by
    intro line hmem
    rw [List.eq_of_mem_replicate hmem]
    constructor <;> decide +kernel

theorem numberedLists_plain {first : CStr} (hline : newline ∉ first.bytes)
    (hother : ∃ b ∈ first.bytes, isDigit b = false) (hfirst : Plain first) :
    ∀ name ∈ (numberedLists first hline hother).names, Plain name := by
  intro name hname
  rcases List.mem_cons.mp hname with rfl | hname
  · exact hfirst
  · rcases List.mem_map.mp hname with ⟨n, hn, rfl⟩
    have hsize : n < 10 ^ 7 := by
      have hend := (List.mem_range'_1.mp hn).2
      have htrie : trieSize = 1843315 := rfl
      omega
    have hlen : ((Nat.digits 10 n).map digitByte).length ≤ 7 := by
      rw [List.length_map]
      exact (Nat.digits_length_le_iff (by decide) n).mpr hsize
    exact ⟨Nat.lt_of_le_of_lt hlen (by decide), fun b hb => (digits_spec hb).2.1⟩

/-- The names "a", "A", and one of eighty letters. -/
def nameA : CStr := ⟨[97], CStr.noNul_a⟩
def nameUpperA : CStr := ⟨[65], by decide⟩
def nameLong : CStr := ⟨List.replicate 80 97, by decide⟩

theorem nameA_plain : Plain nameA := by decide +kernel

/-- `lists_agree` at a file that begins with "a". -/
theorem lists_agree_numbered :
    (∀ name ∈ (numberedLists nameA (by decide) (by decide)).names, Plain name) ∧
    ∃ t, kacheLoad (list2tri functionTrie (numberedLists nameA (by decide) (by decide)).outList) []
        (numberedLists nameA (by decide) (by decide)).ipList 0 = some t ∧
      t.Agree functionTrie (numberedLists nameA (by decide) (by decide)).names
        ((numberedLists nameA (by decide) (by decide)).lines.map lineAddress) :=
  ⟨numberedLists_plain _ _ nameA_plain,
    lists_agree functionTrie _ [] 0 (numberedLists_plain _ _ nameA_plain)⟩

/-- A file that begins with "A": the table answers for every byte outside the
alphabet. A file that begins with eighty letters: they are stored in two pieces. -/
theorem lists_disagree :
    ¬ ((numberedLists nameUpperA (by decide) (by decide)).loaded functionTrie 0).Agree functionTrie
        (numberedLists nameUpperA (by decide) (by decide)).names
        ((numberedLists nameUpperA (by decide) (by decide)).lines.map lineAddress) ∧
    ¬ ((numberedLists nameLong (by decide) (by decide)).loaded functionTrie 0).Agree functionTrie
        (numberedLists nameLong (by decide) (by decide)).names
        ((numberedLists nameLong (by decide) (by decide)).lines.map lineAddress) :=
  ⟨not_agree_of_foreign _ List.mem_cons_self (by decide) List.mem_cons_self (by decide),
    not_agree_of_long _ List.mem_cons_self (by decide)⟩

end DnsCache

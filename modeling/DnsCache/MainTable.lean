import DnsCache.Lib.TextFile
import DnsCache.AlphaMap
import DnsCache.Kache

/-! # The main table, from `out.list` and `ip.list` to `kache_retrieve`

`list2tri` numbers the names of `out.list` and saves them as a trie,
`kache_init` loads the trie and the addresses of `ip.list`.

* `list2tri`, `kacheLoad`, `Tables.mainEntry`: the functions.
* `list2triLoop_eq`: the keys stored are the pieces `fgets` makes of the names.
* `storeKeys_other`, `storeKeys_get`: what the trie then holds.
* `ipLoop_eq`: the addresses loaded are those of the lines.
-/

namespace DnsCache

open CMem TextFile

/-! ## `list2tri` -/

/-- `buff` of both programs: `char buff[80]` and `dc_alloc (80)`. -/
def lineLength : Nat := 80

/-- The loop of `replace_n`. -/
def replaceFirst : List UInt8 → List UInt8
  | [] => []
  | b :: buff => if b = newline then 0 :: buff else b :: replaceFirst buff

/-- `replace_n`. -/
def replaceN (buff : List UInt8) : List UInt8 := (replaceFirst buff).set (lineLength - 1) 0

/-- `char2alphachar` of `list2tri`, on the whole buffer. -/
def list2triChars (buff : List UInt8) : List UInt32 := buff.map charOfSigned

variable {T : Type} (trie : ExactTrie T)

/-- The loop of `list2tri`: a key for every line `fgets` makes, with the number
of the line. -/
def list2triLoop (buff file : List UInt8) (var : Int32) (tr : T) : T :=
  match h : fgets lineLength buff file with
  | none => tr
  | some (buff, rest) =>
      let buff := replaceN buff
      list2triLoop buff rest (var + 1) (trieStore trie tr (list2triChars buff) var)
termination_by file.length
decreasing_by exact fgets_lt (by decide) h

/-- `main` of `list2tri`: what `domains.tri` gives when it is loaded. -/
def list2tri (outList : List UInt8) : T :=
  trie.reload (list2triLoop trie (List.replicate lineLength 0) outList 1 trie.new)

/-! ## `kache_init` -/

/-- `isspace` and `isdigit`. -/
def isSpace (b : UInt8) : Bool := b = 32 || (9 ≤ b && b ≤ 13)
def isDigit (b : UInt8) : Bool := 48 ≤ b && b ≤ 57

/-- The number that some decimal digits stand for. -/
def decimalValue (digits : List UInt8) : Nat :=
  digits.foldl (fun value b => 10 * value + (b.toNat - 48)) 0

/-- `atol`: blanks, a sign, digits. What does not fit a `long` has no result. -/
def atol (s : List UInt8) : Option Int :=
  let s := s.dropWhile isSpace
  let value : Int :=
    if s.head? = some 45 then -decimalValue ((s.drop 1).takeWhile isDigit)
    else if s.head? = some 43 then decimalValue ((s.drop 1).takeWhile isDigit)
    else decimalValue (s.takeWhile isDigit)
  if -9223372036854775808 ≤ value ∧ value < 9223372036854775808 then some value else none

/-- The loop of `kache_init`: the addresses of the next lines. The assertion
fails at the end of the file. -/
def ipLoop : Nat → List UInt8 → List UInt8 → Option (List UInt32)
  | 0, _, _ => some []
  | n + 1, buff, file => do
      let (buff, file) ← fgets lineLength buff file
      let temp ← atol buff
      let ips ← ipLoop n buff file
      return UInt32.ofInt temp :: ips

/-- What `kache_init` leaves: `main_tr`, and the entries of `main_tr_data` it wrote. -/
structure Tables (T : Type) where
  mainTr : T
  mainTrData : Nat → Option DataT

/-- `kache_init` on the two files. `buff` holds whatever was in its block before. -/
def kacheLoad (domains : T) (buff ipList : List UInt8) (now : Int) : Option (Tables T) := do
  let ips ← ipLoop (trieSize - 1) buff ipList
  return ⟨domains, fun i => if i = 0 then none else ips[i - 1]?.map (⟨·, now⟩)⟩

/-! ## `kache_retrieve` -/

/-- `char2alphachar` of `dl_kache.c`, through the terminator. -/
def kacheChars (key : CStr) : List UInt32 := key.raw.map charOfUnsigned

/-- The entry of `main_tr_data` that `kache_retrieve` returns, when it does not
go on to the hash table. -/
def Tables.mainEntry (t : Tables T) (key : CStr) : Option Nat :=
  (trieRetrieve trie t.mainTr (kacheChars key)).map fun index => index.toUInt32.toNat

/-! ## One line of `out.list` -/

variable {trie} {line rest file buff : List UInt8} {lines : List (List UInt8)}

theorem replaceFirst_append (hline : newline ∉ line) (u : List UInt8) :
    replaceFirst (line ++ u) = line ++ replaceFirst u := by
  induction line with
  | nil => rfl
  | cons b line ih =>
      have hb : b ≠ newline := (List.ne_of_not_mem_cons hline).symm
      rw [List.cons_append, replaceFirst, if_neg hb, ih (List.not_mem_of_not_mem_cons hline)]
      rfl

/-- The NUL that `replace_n` puts at the end of the buffer does not cut a key. -/
theorem set_nul (hlen : line.length ≤ lineLength - 1) (u : List UInt8) :
    ∃ u', (line ++ 0 :: u).set (lineLength - 1) 0 = line ++ 0 :: u' := by
  rw [List.set_append_right _ _ hlen]
  cases lineLength - 1 - line.length with
  | zero => exact ⟨u, rfl⟩
  | succ k => exact ⟨u.set k 0, rfl⟩

/-- The key of a buffer reaches to its first NUL. -/
theorem trieKey_list2triChars (hnul : 0 ∉ line) (u : List UInt8) :
    trieKey (list2triChars (line ++ 0 :: u)) = line.map charToTrie := by
  have htext : ∀ ac ∈ line.map charOfSigned, decide (ac ≠ 0) = true := by
    intro ac hac
    rcases List.mem_map.mp hac with ⟨b, hb, rfl⟩
    apply decide_eq_true
    intro h0
    rw [(charOfSigned_eq_zero_iff b).mp h0] at hb
    exact hnul hb
  have hend : ((0 :: u).map charOfSigned).takeWhile (· ≠ 0) = [] := rfl
  rw [trieKey, list2triChars, List.map_append, List.takeWhile_append_of_pos htext, hend,
    List.append_nil, List.map_map]
  exact List.map_congr_left fun b _ => charToTrie_signed b

/-- A line that fits is stored without its newline. -/
theorem key_line (hline : newline ∉ line) (hnul : 0 ∉ line) (hlen : line.length < lineLength - 1)
    (u : List UInt8) :
    trieKey (list2triChars (replaceN (line ++ newline :: u))) = line.map charToTrie := by
  have hfirst : replaceFirst (line ++ newline :: u) = line ++ 0 :: u :=
    replaceFirst_append hline _
  rcases set_nul (Nat.le_of_lt hlen) u with ⟨u', hset⟩
  rw [replaceN, hfirst, hset]
  exact trieKey_list2triChars hnul u'

/-- So is what fills the buffer. -/
theorem key_full (hline : newline ∉ line) (hnul : 0 ∉ line) (hlen : line.length ≤ lineLength - 1)
    (u : List UInt8) :
    trieKey (list2triChars (replaceN (line ++ 0 :: u))) = line.map charToTrie := by
  have hfirst : replaceFirst (line ++ 0 :: u) = line ++ 0 :: replaceFirst u :=
    replaceFirst_append hline _
  rcases set_nul hlen (replaceFirst u) with ⟨u', hset⟩
  rw [replaceN, hfirst, hset]
  exact trieKey_list2triChars hnul u'

theorem list2triLoop_nil (var : Int32) (tr : T) : list2triLoop trie buff [] var tr = tr := by
  rw [list2triLoop]
  rfl

theorem list2triLoop_some {buff' : List UInt8} (h : fgets lineLength buff file = some (buff', rest))
    (var : Int32) (tr : T) :
    list2triLoop trie buff file var tr = list2triLoop trie (replaceN buff') rest (var + 1)
      (trieStore trie tr (list2triChars (replaceN buff')) var) := by
  rw [list2triLoop]
  split
  · rename_i hnone
    rw [h] at hnone
    cases hnone
  · rename_i hsome
    rw [h] at hsome
    cases hsome
    rfl

/-- A round of `list2tri`: the next number goes to the next key. -/
def storeKey (trie : ExactTrie T) (s : Int32 × T) (key : List UInt8) : Int32 × T :=
  (s.1 + 1, trie.store s.2 (key.map charToTrie) s.1)

/-- A line of `out.list` is stored in pieces. -/
theorem list2triLoop_line (hline : newline ∉ line) (hnul : 0 ∉ line) (buff : List UInt8)
    (s : Int32 × T) :
    ∃ buff', list2triLoop trie buff (line ++ newline :: rest) s.1 s.2 =
      list2triLoop trie buff' rest ((pieces (lineLength - 1) line).foldl (storeKey trie) s).1
        ((pieces (lineLength - 1) line).foldl (storeKey trie) s).2 := by
  -- on the length of what is left of the line
  induction hlength : line.length using Nat.strong_induction_on generalizing line buff s with
  | h length ih =>
      subst hlength
      by_cases hlen : line.length < lineLength - 1
      · rcases @fgets_line line rest lineLength buff hline hlen with ⟨u, hgets⟩
        refine ⟨replaceN (line ++ newline :: 0 :: u), ?_⟩
        rw [list2triLoop_some hgets, pieces_short hlen, trieStore, key_line hline hnul hlen]
        rfl
      · have hfull : lineLength - 1 ≤ line.length := Nat.le_of_not_lt hlen
        have hpos : 0 < lineLength - 1 := by decide
        have htake : newline ∉ line.take (lineLength - 1) := fun h => hline (List.mem_of_mem_take h)
        have htake0 : 0 ∉ line.take (lineLength - 1) := fun h => hnul (List.mem_of_mem_take h)
        have hdrop : newline ∉ line.drop (lineLength - 1) := fun h => hline (List.mem_of_mem_drop h)
        have hdrop0 : 0 ∉ line.drop (lineLength - 1) := fun h => hnul (List.mem_of_mem_drop h)
        have hpiece : (line.take (lineLength - 1)).length = lineLength - 1 :=
          List.length_take_of_le hfull
        have hsplit : line ++ newline :: rest = line.take (lineLength - 1) ++
            (line.drop (lineLength - 1) ++ newline :: rest) := by
          rw [← List.append_assoc, List.take_append_drop]
        rcases @fgets_full (line.take (lineLength - 1))
          (line.drop (lineLength - 1) ++ newline :: rest) lineLength buff htake hpiece (by decide)
          with ⟨u, hgets⟩
        rw [← hsplit] at hgets
        rcases ih _ (by rw [List.length_drop]; omega) hdrop hdrop0
          (replaceN (line.take (lineLength - 1) ++ 0 :: u))
          (storeKey trie s (line.take (lineLength - 1))) rfl with ⟨buff', hrest⟩
        refine ⟨buff', ?_⟩
        rw [list2triLoop_some hgets, pieces_long hpos hfull, trieStore,
          key_full htake htake0 (Nat.le_of_eq hpiece)]
        exact hrest

/-- The keys of a file are the pieces of its lines, numbered in a row. -/
theorem list2triLoop_eq (hlines : ∀ line ∈ lines, newline ∉ line ∧ 0 ∉ line) (buff : List UInt8)
    (s : Int32 × T) :
    list2triLoop trie buff (unlines lines) s.1 s.2 =
      ((lines.flatMap (pieces (lineLength - 1))).foldl (storeKey trie) s).2 := by
  induction lines generalizing buff s with
  | nil => exact list2triLoop_nil _ _
  | cons line lines ih =>
      rcases hlines line List.mem_cons_self with ⟨hline, hnul⟩
      rcases @list2triLoop_line T trie line (unlines lines) hline hnul buff s with ⟨buff', hloop⟩
      rw [unlines_cons, hloop, List.flatMap_cons, List.foldl_append]
      exact ih (fun l hl => hlines l (List.mem_cons_of_mem _ hl)) buff' _

/-! ## What the trie holds -/

variable {keys : List (List UInt8)} {k : List UInt8}

theorem storeKeys_other (s : Int32 × T) (h : ∀ key ∈ keys, key.map charToTrie ≠ k) :
    trie.retrieve (keys.foldl (storeKey trie) s).2 k = trie.retrieve s.2 k := by
  induction keys generalizing s with
  | nil => rfl
  | cons key keys ih =>
      rw [List.foldl_cons, ih _ fun l hl => h l (List.mem_cons_of_mem _ hl)]
      exact (trie.retrieve_store _ _ _ _).trans (if_neg (h key List.mem_cons_self).symm)

/-- No store takes a key out of the trie. -/
theorem storeKeys_isSome (s : Int32 × T) (h : (trie.retrieve s.2 k).isSome) :
    (trie.retrieve (keys.foldl (storeKey trie) s).2 k).isSome := by
  induction keys generalizing s with
  | nil => exact h
  | cons key keys ih =>
      apply ih
      show (trie.retrieve (trie.store _ _ _) k).isSome
      rw [trie.retrieve_store]
      split
      · rfl
      · exact h

theorem storeKeys_mem (s : Int32 × T) {key : List UInt8} (h : key ∈ keys) :
    (trie.retrieve (keys.foldl (storeKey trie) s).2 (key.map charToTrie)).isSome := by
  rcases List.append_of_mem h with ⟨before, after, rfl⟩
  rw [List.foldl_append, List.foldl_cons]
  apply storeKeys_isSome
  show (trie.retrieve (trie.store _ _ _) _).isSome
  rw [trie.retrieve_store, if_pos rfl]
  rfl

theorem storeKeys_fst (keys : List (List UInt8)) (s : Int32 × T) :
    (keys.foldl (storeKey trie) s).1 = s.1 + Int32.ofNat keys.length := by
  induction keys generalizing s with
  | nil => exact (Int32.add_zero _).symm
  | cons key keys ih =>
      rw [List.foldl_cons, ih]
      show s.1 + 1 + Int32.ofNat keys.length = s.1 + Int32.ofNat (keys.length + 1)
      rw [Int32.ofNat_add, Int32.add_assoc, Int32.add_comm 1]
      rfl

/-- A key whose numbers no later key has keeps its number. -/
theorem storeKeys_get {i : Nat} {key : List UInt8} (s : Int32 × T)
    (hdistinct : (keys.map (·.map charToTrie)).Nodup) (h : keys[i]? = some key) :
    trie.retrieve (keys.foldl (storeKey trie) s).2 (key.map charToTrie) =
      some (s.1 + Int32.ofNat i) := by
  rcases List.getElem?_eq_some_iff.mp h with ⟨hi, hget⟩
  have hsplit : keys = keys.take i ++ key :: keys.drop (i + 1) := by
    rw [← hget, List.cons_getElem_drop_succ, List.take_append_drop]
  have hlater : ∀ l ∈ keys.drop (i + 1), l.map charToTrie ≠ key.map charToTrie := by
    intro l hl heq
    rw [hsplit, List.map_append, List.map_cons, List.nodup_append] at hdistinct
    have hnot := (List.nodup_cons.mp hdistinct.2.1).1
    rw [← heq] at hnot
    exact hnot (List.mem_map_of_mem hl)
  rw [hsplit, List.foldl_append, List.foldl_cons, storeKeys_other _ hlater]
  show trie.retrieve (trie.store _ _ _) _ = _
  rw [trie.retrieve_store, if_pos rfl, storeKeys_fst, List.length_take_of_le (Nat.le_of_lt hi)]

theorem trieKey_kacheChars (key : CStr) : trieKey (kacheChars key) = key.bytes.map charToTrie := by
  have htext : ∀ ac ∈ key.bytes.map charOfUnsigned, decide (ac ≠ 0) = true := by
    intro ac hac
    rcases List.mem_map.mp hac with ⟨b, hb, rfl⟩
    apply decide_eq_true
    intro h0
    have hb0 : b = 0 := UInt8.toNat_inj.mp (congrArg UInt32.toNat h0)
    rw [hb0] at hb
    exact key.noNul hb
  have hend : (([0] : List UInt8).map charOfUnsigned).takeWhile (· ≠ 0) = [] := rfl
  rw [trieKey, kacheChars, CStr.raw, List.map_append, List.takeWhile_append_of_pos htext, hend,
    List.append_nil, List.map_map]
  rfl

/-! ## The addresses -/

/-- A line of `ip.list`: a decimal number that fits the buffer and a `long`. -/
structure ShortDecimal (line : List UInt8) : Prop where
  nonempty : line ≠ []
  digits : ∀ b ∈ line, isDigit b = true
  short : line.length < lineLength - 1
  value : decimalValue line < 9223372036854775808

/-- The address on a line. -/
def lineAddress (line : List UInt8) : UInt32 := UInt32.ofNat (decimalValue line)

/-- A digit is not a blank, not a sign and not the end of a line. -/
theorem isDigit_spec {b : UInt8} (h : isDigit b = true) :
    isSpace b = false ∧ b ≠ 45 ∧ b ≠ 43 ∧ b ≠ newline ∧ b ≠ 0 := by
  revert b
  apply forall_byte
  decide +kernel

/-- `atol` reads the digits of a line and stops at its newline. -/
theorem atol_line (h : ShortDecimal line) (u : List UInt8) :
    atol (line ++ newline :: u) = some (decimalValue line : Int) := by
  have hvalue := h.value
  have hdigits : (line ++ newline :: u).takeWhile isDigit = line := by
    rw [List.takeWhile_append_of_pos h.digits]
    exact List.append_nil line
  cases hline : line with
  | nil => exact absurd hline h.nonempty
  | cons b digits =>
      rw [hline] at hdigits hvalue
      have hb : b ∈ line := hline ▸ List.mem_cons_self
      rcases isDigit_spec (h.digits b hb) with ⟨hspace, hminus, hplus, -, -⟩
      have hdrop : (b :: digits ++ newline :: u).dropWhile isSpace = b :: digits ++ newline :: u := by
        rw [List.cons_append, List.dropWhile_cons, hspace]
        rfl
      have hhead : (b :: digits ++ newline :: u).head? = some b := rfl
      unfold atol
      simp only [hdrop, hhead, hdigits, Option.some.injEq, if_neg hminus, if_neg hplus]
      rw [if_pos (by omega)]

theorem ofInt_natCast (n : Nat) : UInt32.ofInt n = UInt32.ofNat n := by
  apply UInt32.toNat_inj.mp
  rw [UInt32.ofInt, UInt32.toNat_ofNat', UInt32.toNat_ofNat']
  omega

theorem ipLoop_eq (hlines : ∀ line ∈ lines, ShortDecimal line) (buff : List UInt8) :
    ipLoop lines.length buff (unlines lines) = some (lines.map lineAddress) := by
  induction lines generalizing buff with
  | nil => rfl
  | cons line lines ih =>
      have hline := hlines line List.mem_cons_self
      have hnewline : newline ∉ line := fun h => (isDigit_spec (hline.digits _ h)).2.2.2.1 rfl
      rcases @fgets_line line (unlines lines) lineLength buff hnewline hline.short with ⟨u, hgets⟩
      rw [unlines_cons, List.length_cons, ipLoop]
      simp only [hgets, Option.bind_eq_bind, Option.bind_some, atol_line hline,
        ih fun l hl => hlines l (List.mem_cons_of_mem _ hl), List.map_cons]
      exact congrArg (fun ip => some (ip :: _)) (ofInt_natCast _)

/-- The entries of `main_tr_data` that `kache_init` writes. -/
theorem kacheLoad_eq (hlines : ∀ line ∈ lines, ShortDecimal line)
    (hnumber : lines.length = trieSize - 1) (domains : T) (buff : List UInt8) (now : Int) :
    kacheLoad domains buff (unlines lines) now = some ⟨domains, fun i =>
      if i = 0 then none else (lines[i - 1]?.map lineAddress).map (⟨·, now⟩)⟩ := by
  have hloop := ipLoop_eq hlines buff
  rw [hnumber] at hloop
  rw [kacheLoad, hloop]
  simp only [Option.bind_eq_bind, Option.bind_some, List.getElem?_map]
  rfl

end DnsCache

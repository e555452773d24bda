import Mathlib.Data.FinEnum
import Mathlib.Data.UInt
import Mathlib.Data.List.Basic
import Mathlib.Data.List.TakeDrop

/-! # Byte memory of a C program

Little-endian words, NUL-terminated strings, and memory blocks of a fixed
capacity. A block knows the bytes written to it so far, which always form a
prefix of the block: a read past that prefix, or a write past the capacity,
has no result. Nothing here refers to a particular program.
-/

namespace CMem

/-! ## Machine integers -/

theorem toNat_ofNat_small {n : Nat} (h : n < 4294967296) : (UInt32.ofNat n).toNat = n := by
  rw [UInt32.toNat_ofNat']
  exact Nat.mod_eq_of_lt h

theorem ofNat_succ (n : Nat) : UInt32.ofNat n + 1 = UInt32.ofNat (n + 1) := by
  rw [UInt32.ofNat_add]
  rfl

theorem toInt32_ofNat (n : Nat) : (UInt32.ofNat n).toInt32 = Int32.ofNat n := rfl

theorem int32_ofNat_toInt {n : Nat} (h : n < 2147483648) : (Int32.ofNat n).toInt = (n : Int) := by
  rw [Int32.toInt_ofNat', Int.bmod_def]
  have hsize : Int32.size = 4294967296 := rfl
  rw [hsize]
  omega

theorem int32_ofNat_toInt_large {n : Nat} (h : 2147483648 ≤ n) (hlt : n < 4294967296) :
    (Int32.ofNat n).toInt = (n : Int) - 4294967296 := by
  rw [Int32.toInt_ofNat', Int.bmod_def]
  have hsize : Int32.size = 4294967296 := rfl
  rw [hsize]
  omega

/-- What holds of 256 numbers holds of the bytes. -/
theorem forall_byte {p : UInt8 → Prop} (h : ∀ n < 256, p (UInt8.ofNat n)) (b : UInt8) : p b := by
  have hb := h b.toNat b.toNat_lt
  rwa [UInt8.ofNat_toNat] at hb

/-! ## Little-endian words -/

/-- The four bytes of a 32-bit word as a little-endian machine stores them. -/
def le32 (w : UInt32) : List UInt8 :=
  [UInt8.ofNat w.toNat, UInt8.ofNat (w.toNat / 256),
    UInt8.ofNat (w.toNat / 65536), UInt8.ofNat (w.toNat / 16777216)]

/-- Load a 32-bit word from the head of a byte string. -/
def rd32 : List UInt8 → Option UInt32
  | a :: b :: c :: d :: _ =>
      some (UInt32.ofNat (a.toNat + 256 * b.toNat + 65536 * c.toNat + 16777216 * d.toNat))
  | _ => none

@[simp] theorem le32_length (w : UInt32) : (le32 w).length = 4 := rfl

/-- A stored word is loaded back unchanged, whatever follows it. -/
@[simp] theorem rd32_le32 (w : UInt32) (t : List UInt8) : rd32 (le32 w ++ t) = some w := by
  have hw : w.toNat < 4294967296 := w.toNat_lt
  simp only [le32, rd32, List.cons_append, Option.some.injEq]
  apply UInt32.toNat_inj.mp
  simp only [UInt32.toNat_ofNat', UInt8.toNat_ofNat']
  omega

theorem rd32_le32_self (w : UInt32) : rd32 (le32 w) = some w := by
  have h := rd32_le32 w []
  rwa [List.append_nil] at h

theorem rd32_isSome_iff (m : List UInt8) : (rd32 m).isSome ↔ 4 ≤ m.length := by
  rcases m with _ | ⟨a, _ | ⟨b, _ | ⟨c, _ | ⟨d, m⟩⟩⟩⟩ <;> simp [rd32]

/-- A word is loaded exactly from where it was stored. -/
theorem rd32_eq_some_iff {m : List UInt8} {w : UInt32} :
    rd32 m = some w ↔ ∃ t, m = le32 w ++ t := by
  constructor
  · intro h
    rcases m with _ | ⟨a, _ | ⟨b, _ | ⟨c, _ | ⟨d, m⟩⟩⟩⟩ <;>
      simp only [rd32, reduceCtorEq, Option.some.injEq] at h
    have ha : a.toNat < 256 := a.toNat_lt
    have hb : b.toNat < 256 := b.toNat_lt
    have hc : c.toNat < 256 := c.toNat_lt
    have hd : d.toNat < 256 := d.toNat_lt
    have hw : w.toNat = a.toNat + 256 * b.toNat + 65536 * c.toNat + 16777216 * d.toNat := by
      rw [← h, UInt32.toNat_ofNat']
      exact Nat.mod_eq_of_lt (by omega)
    refine ⟨m, ?_⟩
    simp only [le32, hw, List.cons_append, List.nil_append, List.cons.injEq, and_true,
      ← UInt8.toNat_inj, UInt8.toNat_ofNat']
    omega
  · intro h
    rcases h with ⟨t, rfl⟩
    exact rd32_le32 w t

theorem rd32_append {m t : List UInt8} {w : UInt32} (h : rd32 m = some w) :
    rd32 (m ++ t) = some w := by
  rcases rd32_eq_some_iff.mp h with ⟨u, rfl⟩
  rw [List.append_assoc, rd32_le32]

/-- The word at offset `off`. -/
def wordAt (m : List UInt8) (off : Nat) : Option UInt32 := rd32 (m.drop off)

/-- Four bytes hold a word. -/
theorem exists_wordAt {m : List UInt8} {off : Nat} (h : off + 4 ≤ m.length) :
    ∃ w, wordAt m off = some w := by
  apply Option.isSome_iff_exists.mp
  apply (rd32_isSome_iff _).mpr
  rw [List.length_drop]
  omega

theorem wordAt_inside {m : List UInt8} {off : Nat} {w : UInt32} (h : wordAt m off = some w) :
    off + 4 ≤ m.length := by
  have hsome : (rd32 (m.drop off)).isSome := by
    rw [show rd32 (m.drop off) = some w from h]
    rfl
  rw [rd32_isSome_iff, List.length_drop] at hsome
  omega

theorem words_bytes_length (ws : List UInt32) : (ws.flatMap le32).length = 4 * ws.length := by
  induction ws with
  | nil => rfl
  | cons w ws ih =>
      rw [List.flatMap_cons, List.length_append, ih, le32_length, List.length_cons]
      omega

/-- Enough bytes are an array of words. -/
theorem exists_words {m : List UInt8} {n : Nat} (h : 4 * n ≤ m.length) :
    ∃ (ws : List UInt32) (t : List UInt8), m = ws.flatMap le32 ++ t ∧ ws.length = n := by
  induction n generalizing m with
  | zero => exact ⟨[], m, rfl, rfl⟩
  | succ n ih =>
      rcases Option.isSome_iff_exists.mp ((rd32_isSome_iff m).mpr (by omega)) with ⟨w, hw⟩
      rcases rd32_eq_some_iff.mp hw with ⟨t, rfl⟩
      rw [List.length_append, le32_length] at h
      rcases @ih t (by omega) with ⟨ws, t', rfl, hlen⟩
      exact ⟨w :: ws, t', by rw [List.flatMap_cons, List.append_assoc], congrArg (· + 1) hlen⟩

/-- A word inside the first of two pieces. -/
theorem wordAt_append {m t : List UInt8} {off : Nat} (h : off + 4 ≤ m.length) :
    wordAt (m ++ t) off = wordAt m off := by
  unfold wordAt
  rw [List.drop_append_of_le_length (by omega)]
  have hsome : (rd32 (m.drop off)).isSome := by
    rw [rd32_isSome_iff, List.length_drop]
    omega
  rcases Option.isSome_iff_exists.mp hsome with ⟨w, hw⟩
  rw [hw, rd32_append hw]

/-- The words of an array that lies behind `pre`. -/
theorem wordAt_words (pre : List UInt8) (ws : List UInt32) (i : Nat) :
    wordAt (pre ++ ws.flatMap le32) (pre.length + 4 * i) = ws[i]? := by
  rw [wordAt, ← List.drop_drop, List.drop_left]
  induction ws generalizing i with
  | nil => simp [rd32]
  | cons w ws ih =>
      rw [List.flatMap_cons]
      rcases i with _ | i
      · rw [Nat.mul_zero, List.drop_zero, List.getElem?_cons_zero, rd32_le32]
      · rw [Nat.mul_succ, Nat.add_comm, ← List.drop_drop, List.drop_left' (le32_length _),
          List.getElem?_cons_succ]
        exact ih i

/-! ## NUL-terminated strings -/

/-- The characters of a C string: no NUL among them. -/
@[ext] structure CStr where
  bytes : List UInt8
  noNul : 0 ∉ bytes
deriving DecidableEq, Repr

namespace CStr

/-- The empty string. -/
def empty : CStr := ⟨[], by simp⟩

-- three short strings: "a", "abc" and "xyz"
theorem noNul_a : (0 : UInt8) ∉ ([97] : List UInt8) := by decide
theorem noNul_abc : (0 : UInt8) ∉ ([97, 98, 99] : List UInt8) := by decide
theorem noNul_xyz : (0 : UInt8) ∉ ([120, 121, 122] : List UInt8) := by decide

/-- The string as it lies in memory, terminator included. -/
def raw (s : CStr) : List UInt8 := s.bytes ++ [0]

/-- `strlen`. -/
def length (s : CStr) : Nat := s.bytes.length

@[simp] theorem raw_length (s : CStr) : s.raw.length = s.length + 1 := by
  simp [raw, length]

/-- The string a pointer to the head of `m` denotes; `none` when no NUL
comes before the end of `m`. -/
def scan : List UInt8 → Option CStr
  | [] => none
  | b :: m =>
      if h : b = 0 then some empty
      else (scan m).map fun s => ⟨b :: s.bytes, by simpa [Ne.symm h] using s.noNul⟩

@[simp] theorem scan_raw (s : CStr) (t : List UInt8) : scan (s.raw ++ t) = some s := by
  obtain ⟨bs, hbs⟩ := s
  induction bs with
  | nil => simp [raw, scan, empty]
  | cons b bs ih =>
      have hb : b ≠ 0 := by
        intro h
        simp [h] at hbs
      have hbs' : 0 ∉ bs := by
        intro h
        exact hbs (List.mem_cons_of_mem _ h)
      have hcons : (⟨b :: bs, hbs⟩ : CStr).raw ++ t = b :: ((⟨bs, hbs'⟩ : CStr).raw ++ t) := by
        simp [raw]
      rw [hcons]
      simp only [scan, hb, dite_false, ih hbs', Option.map_some]

theorem scan_eq_some {m : List UInt8} {s : CStr} (h : scan m = some s) :
    ∃ t, m = s.raw ++ t := by
  induction m generalizing s with
  | nil => simp [scan] at h
  | cons b m ih =>
      by_cases hb : b = 0
      · simp only [scan, hb, dite_true, Option.some.injEq] at h
        exact ⟨m, by simp [← h, hb, raw, empty]⟩
      · simp only [scan, hb, dite_false, Option.map_eq_some_iff] at h
        obtain ⟨s', hs', rfl⟩ := h
        obtain ⟨t, ht⟩ := ih hs'
        exact ⟨t, by simp [raw, ht]⟩

/-- A string starts with the byte its pointer points to. -/
theorem scan_head {m : List UInt8} {s : CStr} (h : scan m = some s) : s.raw.head? = m.head? := by
  obtain ⟨t, rfl⟩ := scan_eq_some h
  rw [List.head?_append]
  cases hs : s.raw.head? with
  | none => simp [raw] at hs
  | some b => rfl

/-- A NUL behind the pointer ends a string. -/
theorem scan_of_nul {m : List UInt8} {p : Nat} (h : m[p]? = some 0) :
    ∃ s, scan m = some s ∧ s.length ≤ p := by
  induction m generalizing p with
  | nil => simp at h
  | cons b m ih =>
      by_cases hb : b = 0
      · exact ⟨empty, by simp [scan, hb], Nat.zero_le _⟩
      · rcases p with _ | p
        · rw [List.getElem?_cons_zero, Option.some.injEq] at h
          exact absurd h hb
        · rcases ih h with ⟨s, hs, hle⟩
          refine ⟨⟨b :: s.bytes, by simpa [Ne.symm hb] using s.noNul⟩, ?_, Nat.succ_le_succ hle⟩
          simp [scan, hb, hs]

/-- More memory behind a terminated string does not change it. -/
theorem scan_append {m t : List UInt8} {s : CStr} (h : scan m = some s) :
    scan (m ++ t) = some s := by
  obtain ⟨u, rfl⟩ := scan_eq_some h
  rw [List.append_assoc, scan_raw]

/-- A scan that runs through non-NUL bytes only stops inside what comes before them. -/
theorem scan_of_append_noNul {m t : List UInt8} {s : CStr} (ht : 0 ∉ t)
    (h : scan (m ++ t) = some s) : scan m = some s := by
  induction m generalizing s with
  | nil =>
      obtain ⟨u, hu⟩ := scan_eq_some h
      exact absurd (show 0 ∈ t by simp only [List.nil_append] at hu; simp [hu, raw]) ht
  | cons b m ih =>
      by_cases hb : b = 0
      · simpa [scan, hb] using h
      · simp only [List.cons_append, scan, hb, dite_false, Option.map_eq_some_iff] at h ⊢
        obtain ⟨s', hs', rfl⟩ := h
        exact ⟨s', ih hs', rfl⟩

/-- Strings packed one after the other, each with its terminator. -/
def pack (names : List CStr) : List UInt8 := names.flatMap raw

@[simp] theorem pack_nil : pack [] = [] := rfl

@[simp] theorem pack_cons (s : CStr) (names : List CStr) :
    pack (s :: names) = s.raw ++ pack names := rfl

@[simp] theorem pack_append (xs ys : List CStr) : pack (xs ++ ys) = pack xs ++ pack ys := by
  simp [pack]

theorem pack_snoc (xs : List CStr) (s : CStr) : pack (xs ++ [s]) = pack xs ++ s.raw := by
  rw [pack_append, pack_cons, pack_nil, List.append_nil]

theorem length_le_pack (names : List CStr) : names.length ≤ (pack names).length := by
  induction names with
  | nil => simp
  | cons s names ih =>
      simp only [List.length_cons, pack_cons, List.length_append, raw_length]
      omega

end CStr

/-! ## Where the NULs are -/

/-- The positions of the NULs. -/
def nuls (m : List UInt8) : List Bool := m.map (· == 0)

theorem count_nuls (m : List UInt8) : (nuls m).count true = m.count 0 := by
  induction m with
  | nil => rfl
  | cons b m ih =>
      unfold nuls at ih ⊢
      rw [List.map_cons, List.count_cons, List.count_cons, ih]
      by_cases hb : b = 0
      · simp [hb]
      · simp [hb]

/-- Other characters may change without a NUL moving. -/
theorem nuls_set {m : List UInt8} {i : Nat} {c c' : UInt8} (h : m[i]? = some c) (hc : c ≠ 0)
    (hc' : c' ≠ 0) : nuls (m.set i c') = nuls m := by
  have hb : (c == 0) = false := beq_eq_false_iff_ne.mpr hc
  have hb' : (c' == 0) = false := beq_eq_false_iff_ne.mpr hc'
  rcases List.getElem?_eq_some_iff.mp h with ⟨hi, hget⟩
  unfold nuls
  rw [List.map_set, hb']
  conv_rhs => rw [← @List.set_getElem_self _ (m.map (· == 0)) i (by simpa using hi)]
  rw [List.getElem_map, hget, hb]

namespace CStr

/-- The last string ends the bytes. -/
theorem pack_getElem?_last {names : List CStr} (hne : names ≠ []) :
    (pack names)[(pack names).length - 1]? = some 0 := by
  obtain ⟨pre, s, rfl⟩ : ∃ pre s, names = pre ++ [s] :=
    ⟨names.dropLast, names.getLast hne, (List.dropLast_append_getLast hne).symm⟩
  have hend : pack (pre ++ [s]) = (pack pre ++ s.bytes) ++ [0] := by
    simp [raw]
  rw [hend, List.length_append, List.length_singleton, Nat.add_sub_cancel,
    List.getElem?_append_right (Nat.le_refl _), Nat.sub_self]
  rfl

theorem count_pack (names : List CStr) : (pack names).count 0 = names.length := by
  induction names with
  | nil => rfl
  | cons s names ih =>
      have hbytes : s.bytes.count 0 = 0 := List.count_eq_zero.mpr s.noNul
      rw [pack_cons, List.count_append, ih, raw, List.count_append, hbytes, List.length_cons,
        Nat.zero_add, Nat.add_comm]
      rfl

/-- Bytes with NULs where a name ends start with a name of the same length. -/
theorem raw_of_nuls {m t : List UInt8} {s : CStr} (h : nuls m = nuls (s.raw ++ t)) :
    ∃ (s' : CStr) (t' : List UInt8), m = s'.raw ++ t' ∧ s'.length = s.length ∧ nuls t' = nuls t := by
  obtain ⟨bs, hbs⟩ := s
  induction bs generalizing m with
  | nil =>
      rcases List.map_eq_cons_iff.mp h with ⟨b, t', rfl, hb, ht⟩
      have hb0 : b = 0 := by simpa using hb
      exact ⟨empty, t', by rw [hb0]; rfl, rfl, ht⟩
  | cons c bs ih =>
      have hc : c ≠ 0 := by
        intro h0
        exact hbs (by rw [h0]; exact List.mem_cons_self)
      rcases List.map_eq_cons_iff.mp h with ⟨b, m', rfl, hb, hm⟩
      have hb0 : b ≠ 0 := by
        intro h0
        change (b == 0) = (c == 0) at hb
        rw [h0, beq_eq_false_iff_ne.mpr hc] at hb
        simp at hb
      rcases @ih m' (fun hmem => hbs (List.mem_cons_of_mem _ hmem)) hm with ⟨s', t', rfl, hlen, ht⟩
      refine ⟨⟨b :: s'.bytes, ?_⟩, t', rfl, congrArg (· + 1) hlen, ht⟩
      intro hmem
      rcases List.mem_cons.mp hmem with h0 | hmem
      · exact hb0 h0.symm
      · exact s'.noNul hmem

/-- Bytes with NULs where names end start with names of the same lengths. -/
theorem pack_of_nuls {m t : List UInt8} {names : List CStr} (h : nuls m = nuls (pack names ++ t)) :
    ∃ (names' : List CStr) (t' : List UInt8), m = pack names' ++ t' ∧
      names'.map length = names.map length := by
  induction names generalizing m with
  | nil => exact ⟨[], m, rfl, rfl⟩
  | cons s names ih =>
      rw [pack_cons, List.append_assoc] at h
      rcases raw_of_nuls h with ⟨s', t', rfl, hlen, ht⟩
      rcases ih ht with ⟨names', t'', rfl, hlens⟩
      refine ⟨s' :: names', t'', by rw [pack_cons, List.append_assoc], ?_⟩
      rw [List.map_cons, List.map_cons, hlen, hlens]

theorem pack_length (names : List CStr) :
    (pack names).length = (names.map fun s => s.length + 1).sum := by
  induction names with
  | nil => rfl
  | cons s names ih =>
      rw [pack_cons, List.length_append, ih, raw_length, List.map_cons, List.sum_cons]

theorem pack_length_congr {names names' : List CStr}
    (h : names'.map length = names.map length) : (pack names').length = (pack names).length := by
  have hmap := congrArg (fun l : List Nat => (l.map (· + 1)).sum) h
  simp only [List.map_map] at hmap
  rw [pack_length, pack_length]
  exact hmap

/-- A walk over `k + 1` strings that ends within `limit` bytes, by its first string. -/
theorem succ_le_count_iff {m : List UInt8} {limit k : Nat} :
    k + 1 ≤ (m.take limit).count 0 ↔ ∃ s, scan m = some s ∧ s.length + 1 ≤ limit ∧
      k ≤ ((m.drop (s.length + 1)).take (limit - (s.length + 1))).count 0 := by
  rcases hscan : scan m with _ | s
  · -- no NUL at all
    have hnone : m.count 0 = 0 := by
      by_contra hpos
      rcases List.mem_iff_getElem?.mp (List.count_pos_iff.mp (Nat.pos_of_ne_zero hpos)) with ⟨p, hp⟩
      rcases scan_of_nul hp with ⟨s, hs, -⟩
      rw [hscan] at hs
      simp at hs
    have hle := (List.take_sublist limit m).count_le 0
    constructor
    · intro h
      omega
    · rintro ⟨s, hs, -⟩
      simp at hs
  · rcases scan_eq_some hscan with ⟨t, rfl⟩
    have hbytes : s.bytes.count 0 = 0 := List.count_eq_zero.mpr s.noNul
    have hdrop : (s.raw ++ t).drop (s.length + 1) = t := List.drop_left' (raw_length s)
    by_cases hlimit : s.length + 1 ≤ limit
    · have htake : (s.raw ++ t).take limit = s.raw ++ t.take (limit - (s.length + 1)) := by
        rw [List.take_append, raw_length, List.take_of_length_le (by rw [raw_length]; exact hlimit)]
      have hcount : ((s.raw ++ t).take limit).count 0 =
          1 + (t.take (limit - (s.length + 1))).count 0 := by
        rw [htake, List.count_append, raw, List.count_append, hbytes]
        rfl
      rw [hcount]
      constructor
      · intro h
        exact ⟨s, rfl, hlimit, by rw [hdrop]; omega⟩
      · rintro ⟨s', hs', -, hk⟩
        rw [← Option.some.inj hs', hdrop] at hk
        omega
    · -- the first string ends behind the limit
      have htake : (s.raw ++ t).take limit = s.bytes.take limit := by
        have hle : limit ≤ s.bytes.length := Nat.le_of_not_lt hlimit
        rw [raw, List.append_assoc, List.take_append_of_le_length hle]
      have hle := (List.take_sublist limit s.bytes).count_le 0
      rw [htake]
      constructor
      · intro h
        omega
      · rintro ⟨s', hs', hle', -⟩
        rw [← Option.some.inj hs'] at hle'
        exact absurd hle' hlimit

end CStr

/-- Whether `strncmp a b n` is 0: the first `n` bytes agree, or all bytes up
to a NUL that both strings have. -/
def strncmpEq : List UInt8 → List UInt8 → Nat → Bool
  | _, _, 0 => true
  | a :: as, b :: bs, n + 1 => a == b && (a == 0 || strncmpEq as bs n)
  | _, _, _ + 1 => false

/-- With no NUL among the first `n` bytes of `b`, `strncmp` compares them all. -/
theorem strncmpEq_iff {a b : List UInt8} {n : Nat} (ha : n ≤ a.length) (hb : n ≤ b.length)
    (hnul : 0 ∉ b.take n) :
    strncmpEq a b n = true ↔ a.take n = b.take n := by
  induction n generalizing a b with
  | zero => simp [strncmpEq]
  | succ n ih =>
      rcases a with _ | ⟨x, a⟩
      · simp at ha
      rcases b with _ | ⟨y, b⟩
      · simp at hb
      simp only [List.take_succ_cons, List.mem_cons, not_or] at hnul
      have ih' : strncmpEq a b n = true ↔ a.take n = b.take n :=
        ih (by simpa using ha) (by simpa using hb) hnul.2
      simp only [strncmpEq, List.take_succ_cons, List.cons.injEq, Bool.and_eq_true, beq_iff_eq,
        Bool.or_eq_true, ih']
      constructor
      · rintro ⟨rfl, h | h⟩
        · exact absurd h.symm hnul.1
        · exact ⟨rfl, h⟩
      · rintro ⟨rfl, h⟩
        exact ⟨rfl, Or.inr h⟩

/-! ## Overwriting part of a byte string -/

/-- `m` with `bs` stored at offset `off`. -/
def patch (m : List UInt8) (off : Nat) (bs : List UInt8) : List UInt8 :=
  m.take off ++ bs ++ m.drop (off + bs.length)

theorem patch_length {m bs : List UInt8} {off : Nat} (h : off ≤ m.length) :
    (patch m off bs).length = max m.length (off + bs.length) := by
  simp only [patch, List.length_append, List.length_take, List.length_drop]
  omega

/-- What is written to the start lies in front of what was there before. -/
theorem patch_zero (m bs : List UInt8) : patch m 0 bs = bs ++ m.drop bs.length := by
  simp [patch]

/-- Frame: the bytes behind the store are unchanged. -/
theorem patch_drop {m bs : List UInt8} {off k : Nat} (h : off ≤ m.length)
    (hk : off + bs.length ≤ k) : (patch m off bs).drop k = m.drop k := by
  have hlen : (m.take off ++ bs).length = off + bs.length := by
    simp only [List.length_append, List.length_take]
    omega
  unfold patch
  rw [List.drop_append, List.drop_eq_nil_of_le (by omega), hlen, List.drop_drop, List.nil_append]
  congr 1
  omega

theorem patch_getElem?_behind {m bs : List UInt8} {off k : Nat} (h : off ≤ m.length)
    (hk : off + bs.length ≤ k) : (patch m off bs)[k]? = m[k]? := by
  have hdrop := congrArg (fun t => t[0]?) (patch_drop h hk)
  simpa only [List.getElem?_drop, Nat.add_zero] using hdrop

/-- The bytes up to the end of the store. -/
theorem patch_take {m bs : List UInt8} {off : Nat} (h : off ≤ m.length) :
    (patch m off bs).take (off + bs.length) = m.take off ++ bs := by
  have hlen : (m.take off ++ bs).length = off + bs.length := by
    simp only [List.length_append, List.length_take]
    omega
  unfold patch
  rw [← hlen, List.take_left']
  rfl

/-- The bytes of the store itself. -/
theorem patch_getElem? {m bs : List UInt8} {off k : Nat} (h : off ≤ m.length)
    (hk : k < bs.length) : (patch m off bs)[off + k]? = bs[k]? := by
  have htake : (m.take off).length = off := by
    rw [List.length_take]
    omega
  unfold patch
  rw [List.append_assoc, List.getElem?_append_right (by omega), htake, Nat.add_sub_cancel_left,
    List.getElem?_append_left hk]

/-- A store that starts inside `m` and overwrites only the head of what is appended to it. -/
theorem patch_append {m t bs : List UInt8} {off : Nat} (h : off ≤ m.length) :
    patch (m ++ t) off bs = patch m off bs ++ t.drop (off + bs.length - m.length) := by
  unfold patch
  rw [List.take_append_of_le_length h, List.drop_append, List.append_assoc _ _ (t.drop _)]

/-- A store right behind `m`. -/
theorem patch_append_length (m t bs : List UInt8) :
    patch (m ++ t) m.length bs = m ++ (bs ++ t.drop bs.length) := by
  unfold patch
  rw [List.take_left, List.drop_append, List.drop_eq_nil_of_le (Nat.le_add_right _ _),
    Nat.add_sub_cancel_left, List.nil_append, List.append_assoc]

/-- Two stores one behind the other are one store. -/
theorem patch_patch {m x y : List UInt8} {off : Nat} (h : off ≤ m.length) :
    patch (patch m off x) (off + x.length) y = patch m off (x ++ y) := by
  have htake := @patch_take m x off h
  have hdrop : (patch m off x).drop (off + x.length + y.length) =
      m.drop (off + x.length + y.length) := patch_drop h (by omega)
  unfold patch at htake hdrop ⊢
  rw [htake, hdrop, List.length_append, List.append_assoc, List.append_assoc, Nat.add_assoc]
  simp only [List.append_assoc]

theorem patch_nil {m : List UInt8} (off : Nat) : patch m off [] = m := by
  simp [patch]

/-! ## Blocks -/

/-- A block of `cap` bytes obtained from the allocator, of which the bytes
`bytes` at its start have been written. -/
@[ext] structure Block where
  cap : Nat
  bytes : List UInt8
  fits : bytes.length ≤ cap
deriving DecidableEq, Repr

namespace Block

/-- A block as the allocator returns it: nothing written yet. -/
def alloc (cap : Nat) : Block := ⟨cap, [], by simp⟩

/-- Store `bs` at offset `off`. A store that leaves the block, or that would
leave a hole behind the written prefix, has no result. -/
def write (b : Block) (off : Nat) (bs : List UInt8) : Option Block :=
  if h : off ≤ b.bytes.length ∧ off + bs.length ≤ b.cap then
    some ⟨b.cap, patch b.bytes off bs, by rw [patch_length h.1]; exact Nat.max_le.mpr ⟨b.fits, h.2⟩⟩
  else none

/-- The string at offset `off`. -/
def cstr (b : Block) (off : Nat) : Option CStr := CStr.scan (b.bytes.drop off)

/-- The spec of a store: where it is possible and what it leaves. -/
theorem write_eq_some_iff {b b' : Block} {off : Nat} {bs : List UInt8} :
    b.write off bs = some b' ↔
      off ≤ b.bytes.length ∧ off + bs.length ≤ b.cap ∧ b'.cap = b.cap ∧
        b'.bytes = patch b.bytes off bs := by
  unfold write
  split
  · rename_i h
    simp only [Option.some.injEq]
    constructor
    · rintro rfl
      exact ⟨h.1, h.2, rfl, rfl⟩
    · rintro ⟨-, -, hcap, hbytes⟩
      exact Block.ext hcap.symm hbytes.symm
  · rename_i h
    simp only [reduceCtorEq, false_iff]
    rintro ⟨h₁, h₂, -⟩
    exact h ⟨h₁, h₂⟩

theorem write_isSome {b : Block} {off : Nat} {bs : List UInt8} (h : off ≤ b.bytes.length)
    (hcap : off + bs.length ≤ b.cap) : (b.write off bs).isSome := by
  simp [write, h, hcap]

end Block

end CMem

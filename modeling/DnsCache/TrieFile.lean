import DnsCache.Lib.FileFormat
import DnsCache.TrieRuns

/-! # Tries in files, `fileutils.c`

The alphabet, the double array and the tail are written one behind the other, each
behind a signature of its own; all numbers have their high byte first.

* `alphaMapFwriteBin`, `daFwrite`, `tailFwrite`, `trieFwrite`: the parts of a trie and
  the trie are written.
* `alphaMapFreadBin`, `daFread`, `tailFread`, `trieFread`: they are read.
* `trieImage`, `trieFwrite_spec`: the bytes of a trie.
* `rereadTrie`, `trieFread_reads`: a trie is made of them, and of no part of them, with the
  same entries.
* `TrieInv.cells_fit`, `TrieInv.sum_fits`: the numbers of a trie are `int32`s.
* `alphaMapFreadBin_failed`, `daFread_failed`, `tailFread_failed`: what a refused part leaves.
-/

namespace DnsCache

open CMem Tail

/-! ## Numbers -/

/-- `file_write_int32` and `file_read_int32`. -/
def fileWriteInt32 (val : Int32) : Writer := Writer.item 4 (be32 val.toUInt32)

def fileReadInt32 : Reader Int32 :=
  Reader.bind (Reader.items 4 1) fun buff => Reader.pure (ofBe32 buff).toInt32

/-- `file_write_int16` and `file_read_int16`. -/
def fileWriteInt16 (val : Int16) : Writer := Writer.item 2 (be16 val.toUInt16)

def fileReadInt16 : Reader Int16 :=
  Reader.bind (Reader.items 2 1) fun buff => Reader.pure (ofBe16 buff).toInt16

/-- `file_write_chars` and `file_read_chars`. -/
def fileWriteChars (buff : List UInt8) : Writer := Writer.item 1 buff

def fileReadChars (len : Nat) : Reader (List UInt8) := Reader.items 1 len

/-! ## The parts of a trie -/

/-- `ALPHAMAP_SIGNATURE` and `TAIL_SIGNATURE`. -/
def alphaMapSignature : UInt32 := 0xD9FCD9FC
def tailSignature : UInt32 := 0xDFFCDFFC

/-- `alpha_map_fwrite_bin`. -/
def alphaMapFwriteBin (alphaMap : AlphaMap) : Writer :=
  .seq (fileWriteInt32 alphaMapSignature.toInt32) <|
    .seq (fileWriteInt32 (.ofNat alphaMap.length)) <|
      .each (fun r => .seq (fileWriteInt32 r.rangeBegin.toInt32) (fileWriteInt32 r.rangeEnd.toInt32))
        alphaMap

/-- The body of the loop of `alpha_map_fread_bin`. A range that is refused is passed over. -/
def readRange (alphaMap : AlphaMap) : Reader AlphaMap :=
  .bind fileReadInt32 fun b => .bind fileReadInt32 fun e =>
    .pure (alphaMapAddRange alphaMap b.toUInt32 e.toUInt32)

/-- `alpha_map_fread_bin`. -/
def alphaMapFreadBin : Reader AlphaMap :=
  .orSeek <| .bind fileReadInt32 fun sig =>
    if sig.toUInt32 ≠ alphaMapSignature then .fail
    else .bind fileReadInt32 fun total => .loop readRange total.toInt.toNat []

/-- `da_fwrite`. Cell 0 is the header. -/
def daFwrite (d : DArray) : Writer :=
  .each (fun c => .seq (fileWriteInt32 (.ofInt c.base)) (fileWriteInt32 (.ofInt c.check))) d.cells

/-- The body of the loop of `da_fread`. -/
def readCell (d : DArray) : Reader DArray :=
  .bind fileReadInt32 fun base => .bind fileReadInt32 fun check =>
    .pure ⟨d.cells ++ [⟨base.toInt, check.toInt⟩]⟩

/-- `da_fread`. A number of cells below 0 is more than `SIZE_MAX / sizeof (DACell)`. -/
def daFread : Reader DArray :=
  .orSeek <| .bind fileReadInt32 fun n =>
    if n.toInt ≠ daSignature then .fail
    else .bind fileReadInt32 fun numCells =>
      -- of 0 cells the source would write the first one
      if numCells ≤ 0 then .fail
      else .loop readCell (numCells.toInt - 1).toNat ⟨[⟨daSignature, numCells.toInt⟩]⟩

/-- The body of the loop of `tail_fwrite`. A `length` from 2^15 on does not fit. -/
def writeBlock (b : TailBlock) : Writer :=
  let suffix := strdup (b.suffix.getD [])
  let length := Int16.ofNat suffix.length
  .seq (fileWriteInt32 (.ofInt b.nextFree)) <|
    .seq (fileWriteInt32 b.data) <|
      .seq (fileWriteInt16 length) <|
        if 0 < length then fileWriteChars (suffix.take length.toInt.toNat) else fun f => (true, f)

/-- `tail_fwrite`. -/
def tailFwrite (t : Tail) : Writer :=
  .seq (fileWriteInt32 tailSignature.toInt32) <|
    .seq (fileWriteInt32 (.ofInt t.firstFree)) <|
      .seq (fileWriteInt32 (.ofInt t.numTails)) <|
        .each writeBlock t.tails

/-- The body of the loop of `tail_fread`. -/
def readBlock (t : Tail) : Reader Tail :=
  .bind fileReadInt32 fun nextFree => .bind fileReadInt32 fun data =>
    .bind fileReadInt16 fun length =>
      -- a negative `length` has no block to end in
      if length < 0 then .fail
      else .bind (if 0 < length then fileReadChars length.toInt.toNat else .pure []) fun suffix =>
        .pure { t with tails := t.tails ++ [⟨nextFree.toInt, data, some suffix⟩] }

/-- `tail_fread`. -/
def tailFread : Reader Tail :=
  .orSeek <| .bind fileReadInt32 fun sig =>
    if sig.toUInt32 ≠ tailSignature then .fail
    else .bind fileReadInt32 fun firstFree => .bind fileReadInt32 fun numTails =>
      if numTails < 0 then .fail
      else .loop readBlock numTails.toInt.toNat ⟨[], firstFree.toInt⟩

/-! ## The trie -/

/-- `trie_fwrite`. -/
def trieFwrite (t : Trie) (f : ByteFile) : Bool × Trie × ByteFile :=
  match Writer.seq (alphaMapFwriteBin t.alphaMap) (.seq (daFwrite t.da) (tailFwrite t.tail)) f with
  | (true, f) => (true, { t with isDirty := false }, f)
  | (false, f) => (false, t, f)

/-- `trie_fread`. -/
def trieFread : Reader Trie :=
  .bind alphaMapFreadBin fun alphaMap => .bind daFread fun da => .bind tailFread fun tail =>
    .pure ⟨alphaMap, da, tail, false⟩

/-- `trie_save`, on a file that `fopen` made empty, and `trie_new_from_file`. A stream has no
buffer here: what `fclose` returns is not looked at by the source. -/
def trieSave (t : Trie) : Option ByteFile → Bool × Trie × Option ByteFile
  | none => (false, t, none)
  | some f =>
      match trieFwrite t { f with bytes := [], pos := 0 } with
      | (res, t, f) => (res, t, some f)

def trieNewFromFile : Option ByteFile → Option Trie
  | none => none
  | some f => (trieFread { f with pos := 0 }).1

variable {t : Trie} {m : AlphaMap} {d : DArray} {l tl : List Int} {f : ByteFile} {v : Int32}

/-! ## Numbers back -/

theorem fileWriteInt32_writes (v : Int32) : Writes (fileWriteInt32 v) (be32 v.toUInt32) :=
  .item 1 (by decide) rfl

theorem fileReadInt32_reads (v : Int32) : Reads fileReadInt32 v (be32 v.toUInt32) := by
  have hbytes : Reads (Reader.items 4 1) (be32 v.toUInt32) (be32 v.toUInt32) :=
    .items (by decide) rfl
  have h := hbytes.map fun buff => (ofBe32 buff).toInt32
  rwa [ofBe32_be32, Int32.toInt32_toUInt32] at h

theorem fileWriteInt16_writes (v : Int16) : Writes (fileWriteInt16 v) (be16 v.toUInt16) :=
  .item 1 (by decide) rfl

theorem fileReadInt16_reads (v : Int16) : Reads fileReadInt16 v (be16 v.toUInt16) := by
  have hbytes : Reads (Reader.items 2 1) (be16 v.toUInt16) (be16 v.toUInt16) :=
    .items (by decide) rfl
  have h := hbytes.map fun buff => (ofBe16 buff).toInt16
  rwa [ofBe16_be16, Int16.toInt16_toUInt16] at h

theorem fileWriteChars_writes (buff : List UInt8) : Writes (fileWriteChars buff) buff :=
  .item buff.length (by decide) (Nat.one_mul _).symm

theorem fileReadChars_reads (buff : List UInt8) : Reads (fileReadChars buff.length) buff buff :=
  .items (by decide) (Nat.one_mul _).symm

/-! ## The alphabet -/

/-- Two numbers one behind the other. -/
def pairImage (a b : Int32) : List UInt8 := be32 a.toUInt32 ++ be32 b.toUInt32

theorem writePair_writes (a b : Int32) :
    Writes (.seq (fileWriteInt32 a) (fileWriteInt32 b)) (pairImage a b) :=
  (fileWriteInt32_writes a).seq (fileWriteInt32_writes b)

theorem readPair_reads {α : Type} (a b : Int32) (g : Int32 → Int32 → α) :
    Reads (.bind fileReadInt32 fun a => .bind fileReadInt32 fun b => .pure (g a b)) (g a b)
      (pairImage a b) :=
  (fileReadInt32_reads a).bind (.map (fileReadInt32_reads b) (g a))

def alphaMapImage (m : AlphaMap) : List UInt8 :=
  be32 alphaMapSignature ++ (be32 (Int32.ofNat m.length).toUInt32 ++
    m.flatMap fun r => pairImage r.rangeBegin.toInt32 r.rangeEnd.toInt32)

theorem alphaMapFwriteBin_writes (m : AlphaMap) : Writes (alphaMapFwriteBin m) (alphaMapImage m) :=
  (fileWriteInt32_writes _).seq ((fileWriteInt32_writes _).seq (.each fun _ _ => writePair_writes _ _))

/-- Every range has a character of its own. -/
theorem length_le_alphaSize (m : AlphaMap) : m.length ≤ alphaSize m := by
  have hsum := List.length_le_sum_of_one_le
    (m.map fun r => r.rangeEnd.toNat - r.rangeBegin.toNat + 1) fun n hn => by
      rcases List.mem_map.mp hn with ⟨r, -, rfl⟩
      exact Nat.le_add_left _ _
  rwa [List.length_map] at hsum

theorem readRange_reads (m : AlphaMap) (r : AlphaRange) :
    Reads (readRange m) (alphaMapAddRange m r.rangeBegin r.rangeEnd)
      (pairImage r.rangeBegin.toInt32 r.rangeEnd.toInt32) := by
  have h := readPair_reads r.rangeBegin.toInt32 r.rangeEnd.toInt32 fun b e =>
    alphaMapAddRange m b.toUInt32 e.toUInt32
  rwa [UInt32.toUInt32_toInt32, UInt32.toUInt32_toInt32] at h

theorem alphaMapFreadBin_reads (h : AlphaFits m) : Reads alphaMapFreadBin m (alphaMapImage m) := by
  have hlen := Nat.le_trans (length_le_alphaSize m) h.size
  have hcount : (Int32.ofNat m.length).toInt.toNat = m.length := by
    rw [Int32.toInt_ofNat_of_lt (by omega), Int.toNat_natCast]
  have hloop := Reads.loop m (fun m r _ => readRange_reads m r) []
  refine .orSeek ((fileReadInt32_reads alphaMapSignature.toInt32).bind ?_)
  rw [if_neg (by decide)]
  refine (fileReadInt32_reads (Int32.ofNat m.length)).bind ?_
  rw [hcount]
  have hclone : m.foldl (fun m r => alphaMapAddRange m r.rangeBegin r.rangeEnd) [] = m :=
    alphaMapClone_eq h.sorted
  rwa [hclone] at hloop

/-! ## The double array -/

/-- The number is an `int32`. -/
def FitsInt32 (x : Int) : Prop := -2147483648 ≤ x ∧ x ≤ 2147483647

theorem toInt_ofInt {x : Int} (h : FitsInt32 x) : (Int32.ofInt x).toInt = x :=
  Int32.toInt_ofInt_of_le h.1 (Int.lt_add_one_of_le h.2)

def cellImage (c : DACell) : List UInt8 := pairImage (.ofInt c.base) (.ofInt c.check)

def daImage (d : DArray) : List UInt8 := d.cells.flatMap cellImage

theorem daFwrite_writes (d : DArray) : Writes (daFwrite d) (daImage d) :=
  .each fun _ _ => writePair_writes _ _

/-- Every number of the array is an `int32`. -/
def DArray.Fits (d : DArray) : Prop := ∀ c ∈ d.cells, FitsInt32 c.base ∧ FitsInt32 c.check

theorem readCell_reads {c : DACell} (hc : FitsInt32 c.base ∧ FitsInt32 c.check) (d : DArray) :
    Reads (readCell d) ⟨d.cells ++ [c]⟩ (cellImage c) := by
  have h := readPair_reads (.ofInt c.base) (.ofInt c.check) fun base check =>
    (⟨d.cells ++ [⟨base.toInt, check.toInt⟩]⟩ : DArray)
  rwa [toInt_ofInt hc.1, toInt_ofInt hc.2] at h

theorem daFread_reads (hf : FreeList d l) (hfits : d.Fits) : Reads daFread d (daImage d) := by
  have hsize := hf.size
  have hbound := hf.bound
  have hheader := hf.header
  unfold trieIndexMax at hbound
  rcases d with ⟨cells⟩
  cases cells with
  | nil => cases hsize
  | cons header cells =>
      have hn : FitsInt32 (DArray.mk (header :: cells)).numCells := by
        unfold FitsInt32
        omega
      have hheader : header = ⟨daSignature, (DArray.mk (header :: cells)).numCells⟩ := hheader
      have hlen : (DArray.mk (header :: cells)).numCells = cells.length + 1 := rfl
      generalize (DArray.mk (header :: cells)).numCells = n at *
      subst hheader
      have hcount : ((Int32.ofInt n).toInt - 1).toNat = cells.length := by
        rw [toInt_ofInt hn]
        omega
      have hcells := Reads.collect DArray.mk id cells
        (fun l c hc => readCell_reads (hfits c (List.mem_cons_of_mem _ hc)) ⟨l⟩) [⟨daSignature, n⟩]
      rw [List.map_id, List.singleton_append] at hcells
      have hpos : ¬ Int32.ofInt n ≤ 0 := by
        rw [Int32.le_iff_toInt_le, toInt_ofInt hn]
        show ¬ n ≤ 0
        omega
      rw [daImage, List.flatMap_cons]
      show Reads daFread _ ((be32 _ ++ be32 _) ++ _)
      rw [List.append_assoc]
      refine .orSeek ((fileReadInt32_reads _).bind ?_)
      rw [if_neg (not_not_intro (by show (Int32.ofInt daSignature).toInt = _; decide))]
      refine (fileReadInt32_reads _).bind ?_
      rw [if_neg hpos, hcount, toInt_ofInt hn]
      exact hcells

/-! ## The tail -/

/-- A suffix and its length. -/
def suffixImage (suffix : List UInt8) : List UInt8 := be16 (Int16.ofNat suffix.length).toUInt16 ++ suffix

def blockImage (b : TailBlock) : List UInt8 :=
  be32 (Int32.ofInt b.nextFree).toUInt32 ++
    (be32 b.data.toUInt32 ++ suffixImage (b.suffix.getD []))

def tailImage (t : Tail) : List UInt8 :=
  be32 tailSignature ++ (be32 (Int32.ofInt t.firstFree).toUInt32 ++
    (be32 (Int32.ofInt t.numTails).toUInt32 ++ t.tails.flatMap blockImage))

/-- The suffixes are parts of keys. -/
def Tail.Keys (t : Tail) : Prop := ∀ b ∈ t.tails, NumKey (b.suffix.getD [])

theorem length_toInt {suffix : List UInt8} (h : NumKey suffix) :
    (Int16.ofNat suffix.length).toInt = suffix.length :=
  Int16.toInt_ofNat_of_lt h.length

/-- The length is positive when there are characters. -/
theorem length_pos_iff {suffix : List UInt8} (h : NumKey suffix) :
    0 < Int16.ofNat suffix.length ↔ suffix ≠ [] := by
  rw [Int16.lt_iff_toInt_lt, length_toInt h, ← List.length_pos_iff]
  exact Int.natCast_pos

theorem writeBlock_writes {b : TailBlock} (h : NumKey (b.suffix.getD [])) :
    Writes (writeBlock b) (blockImage b) := by
  unfold writeBlock blockImage suffixImage
  simp only [strdup_eq h.zero, length_pos_iff h, length_toInt h, Int.toNat_natCast, List.take_length]
  refine (fileWriteInt32_writes _).seq ((fileWriteInt32_writes _).seq ((fileWriteInt16_writes _).seq ?_))
  split
  · exact fileWriteChars_writes _
  · rename_i hnil
    rw [not_not.mp hnil]
    exact .nil

theorem tailFwrite_writes {t : Tail} (h : t.Keys) : Writes (tailFwrite t) (tailImage t) :=
  (fileWriteInt32_writes _).seq ((fileWriteInt32_writes _).seq ((fileWriteInt32_writes _).seq
    (.each fun b hb => writeBlock_writes (h b hb))))

/-- A block as it is read back. NULL comes back as the empty string. -/
def rereadBlock (b : TailBlock) : TailBlock :=
  ⟨(Int32.ofInt b.nextFree).toInt, b.data, some (b.suffix.getD [])⟩

def rereadTail (t : Tail) : Tail := ⟨t.tails.map rereadBlock, t.firstFree⟩

theorem readBlock_reads {b : TailBlock} (h : NumKey (b.suffix.getD [])) (t : Tail) :
    Reads (readBlock t) { t with tails := t.tails ++ [rereadBlock b] } (blockImage b) := by
  unfold readBlock blockImage suffixImage rereadBlock
  generalize b.suffix.getD [] = suffix at *
  refine (fileReadInt32_reads _).bind ((fileReadInt32_reads _).bind ((fileReadInt16_reads _).bind ?_))
  have hneg : ¬ Int16.ofNat suffix.length < 0 := by
    rw [Int16.lt_iff_toInt_lt, length_toInt h]
    exact Int.not_lt.mpr (Int.natCast_nonneg _)
  rw [if_neg hneg]
  have hchars : Reads (if 0 < Int16.ofNat suffix.length
      then fileReadChars (Int16.ofNat suffix.length).toInt.toNat else .pure []) suffix suffix := by
    simp only [length_pos_iff h, length_toInt h, Int.toNat_natCast]
    split
    · exact fileReadChars_reads suffix
    · rename_i hnil
      rw [not_not.mp hnil]
      exact .pure []
  exact hchars.map fun suffix =>
    Tail.mk (t.tails ++ [⟨(Int32.ofInt b.nextFree).toInt, b.data, some suffix⟩]) t.firstFree

theorem tailFread_reads {t : Tail} (h : t.Keys) (hfirst : FitsInt32 t.firstFree)
    (hn : FitsInt32 t.numTails) : Reads tailFread (rereadTail t) (tailImage t) := by
  have hblocks := Reads.collect (fun l => Tail.mk l t.firstFree) rereadBlock t.tails
    (fun l b hb => readBlock_reads (h b hb) (Tail.mk l t.firstFree)) []
  have hcount : (Int32.ofInt t.numTails).toInt.toNat = t.tails.length := by
    rw [toInt_ofInt hn, numTails, Int.toNat_natCast]
  have hpos : ¬ Int32.ofInt t.numTails < 0 := by
    rw [Int32.lt_iff_toInt_lt, toInt_ofInt hn]
    exact Int.not_lt.mpr (Int.natCast_nonneg _)
  refine .orSeek ((fileReadInt32_reads tailSignature.toInt32).bind ?_)
  rw [if_neg (by decide)]
  refine (fileReadInt32_reads _).bind ((fileReadInt32_reads _).bind ?_)
  rw [if_neg hpos, hcount, toInt_ofInt hfirst]
  exact hblocks

/-- A free block is followed by another, or by none. -/
theorem link_bounds {x n : Int} {l : List Int} (hx : link x = l.head?) (hl : ∀ a ∈ l, 1 ≤ a ∧ a < n) :
    x = 0 ∨ 1 ≤ x ∧ x < n := by
  unfold link at hx
  split at hx
  · exact .inl ‹_›
  · exact .inr (hl x (List.mem_of_head? hx.symm))

theorem TailInv.firstFree_bounds {t : Tail} (h : TailInv t l) :
    t.firstFree = 0 ∨ 1 ≤ t.firstFree ∧ t.firstFree < t.numTails :=
  link_bounds h.chain.start_eq h.bounds

theorem TailInv.nextFree_bounds {t : Tail} {b : Int} (h : TailInv t l) (hb : b ∈ l) :
    (t.block b).nextFree = 0 ∨ 1 ≤ (t.block b).nextFree ∧ (t.block b).nextFree < t.numTails := by
  rcases List.append_of_mem hb with ⟨u, v, rfl⟩
  rcases Chain.Seg.append_iff.mp h.chain with ⟨r, -, -, r', hr', hv⟩
  refine link_bounds (l := v) ?_ fun a ha =>
    h.bounds a (List.mem_append_right _ (List.mem_cons_of_mem _ ha))
  rw [← hv.start_eq, ← Option.some.inj hr']

theorem block_rereadTail {t : Tail} {b : Int} (hb : 0 ≤ b) (hn : b < t.numTails) :
    (rereadTail t).block b = rereadBlock (t.block b) := by
  unfold numTails at hn
  have hlt : b.toNat < t.tails.length := by omega
  unfold block rereadTail
  rw [List.getD_eq_getElem?_getD, List.getD_eq_getElem?_getD, List.getElem?_map,
    List.getElem?_eq_getElem hlt]
  rfl

theorem numTails_rereadTail (t : Tail) : (rereadTail t).numTails = t.numTails := by
  rw [numTails, rereadTail, List.length_map, numTails]

theorem TailInv.reread {t : Tail} (h : TailInv t l) (hn : t.numTails ≤ trieIndexMax) :
    TailInv (rereadTail t) l := by
  unfold trieIndexMax at hn
  refine ⟨h.chain.frame ?_, h.sorted, by rw [numTails_rereadTail]; exact h.bounds⟩
  intro b hb
  have hbounds := h.bounds b hb
  have hnext := h.nextFree_bounds hb
  rw [Tail.next, Tail.next, block_rereadTail (by omega) hbounds.2, rereadBlock, toInt_ofInt]
  unfold FitsInt32
  omega

theorem Uses.reread {t : Tail} {i : Int} {σ : List UInt8} {x : Int32} (h : Uses t l i σ x) :
    Uses (rereadTail t) l i σ x := by
  have hlow := h.low
  have hhigh := h.high
  have hblock : (rereadTail t).block (i - tailStartBlockno) = rereadBlock (t.block (i - tailStartBlockno)) := by
    unfold tailStartBlockno
    exact block_rereadTail (by omega) (by omega)
  refine ⟨hlow, by rwa [numTails_rereadTail], h.used, ?_, ?_⟩
  · rw [hblock, rereadBlock, h.suffix, Option.getD_some]
  · rw [hblock, rereadBlock, h.data]

/-! ## The trie -/

variable {D : Radix.Dict UInt8 Int32} {e : Entries}

/-- The links of the ring are cells. -/
theorem FreeList.ring_bounds (hf : FreeList d l) {i : Int} (hi : i ∈ daGetFreeList :: l) :
    (1 ≤ nextFree d i ∧ nextFree d i < d.numCells) ∧ 1 ≤ prevFree d i ∧ prevFree d i < d.numCells := by
  rcases List.mem_cons.mp hi with rfl | hi
  · exact ⟨hf.mem_bounds' hf.ring.next_mem, hf.mem_bounds hf.ring.prev_mem⟩
  · exact ⟨hf.mem_bounds' (hf.ring.next_mem_of_mem hi), hf.mem_bounds (hf.ring.prev_mem_of_mem hi)⟩

/-- The check of a state is a cell. -/
theorem DaInv.check_bounds (h : DaInv d l) {i : Int} {c : DACell} (hi : d.node i = some c) :
    0 ≤ c.check ∧ c.check < d.numCells := by
  by_cases hroot : i = daGetRoot
  · rcases h.good.root with ⟨b, -, hb⟩
    rw [hroot, hb] at hi
    cases hi
    have := h.free.size
    show 0 ≤ (0 : Int) ∧ 0 < d.numCells
    omega
  · rcases h.good.parent hi hroot with ⟨a, he⟩
    rcases he.node.1 with ⟨cp, hcp, -⟩
    have := node_bounds hcp
    omega

/-- The base of a state is a place in the array or in the tail. -/
theorem TrieInv.base_bounds (h : TrieInv t D l tl) {i : Int} {c : DACell} (hi : t.da.node i = some c) :
    -t.tail.numTails ≤ c.base ∧ c.base ≤ t.da.numCells := by
  refine ⟨?_, h.da.base_le hi⟩
  rcases h.da.good.reach hi with ⟨w, hw⟩
  have hn : 0 ≤ t.tail.numTails := Int.natCast_nonneg _
  rcases h.sound ⟨i, c, hw, hi, rfl⟩ with ⟨hpos, -⟩ | ⟨j, σ, rest, x, hb, hu, -⟩
  · omega
  · have := hu.high
    omega

/-- Links, checks and bases of a trie are `int32`s, and no base lies behind the array. -/
theorem TrieInv.cells_fit (h : TrieInv t D l tl) (hn : t.tail.numTails ≤ trieIndexMax) {c : DACell}
    (hc : c ∈ t.da.cells) : FitsInt32 c.base ∧ FitsInt32 c.check ∧ c.base ≤ t.da.numCells := by
  have hbound := h.da.free.bound
  have hsize := h.da.free.size
  unfold trieIndexMax at hn hbound
  rcases List.mem_iff_getElem.mp hc with ⟨k, hk, rfl⟩
  have hkn : (k : Int) < t.da.numCells := Int.ofNat_lt.mpr hk
  have hcell : t.da.cell k = t.da.cells[k] := by
    rw [DArray.cell, Int.toNat_natCast, List.getD_eq_getElem?_getD, List.getElem?_eq_getElem hk]
    rfl
  have hbase : daGetBase t.da k = (t.da.cell k).base := if_pos hkn
  have hcheck : daGetCheck t.da k = (t.da.cell k).check := if_pos hkn
  rw [← hcell]
  unfold FitsInt32
  by_cases hk0 : k = 0
  · -- the header
    have hheader : t.da.cell k = ⟨daSignature, t.da.numCells⟩ := by rw [hk0]; exact h.da.free.header
    rw [hheader]
    unfold daSignature
    simp only
    omega
  · rw [← hbase, ← hcheck]
    cases hnode : t.da.node k with
    | none =>
        -- the ring
        have hring : (k : Int) ∈ daGetFreeList :: l := by
          by_cases hk3 : 3 ≤ k
          · exact List.mem_cons_of_mem _ (h.da.free.mem_of_node_none (by omega) hkn hnode)
          · have hk2 : k ≠ 2 := by
              rintro rfl
              rcases h.da.good.root with ⟨b, -, hb⟩
              have hroot : t.da.node daGetRoot = none := hnode
              rw [hroot] at hb
              cases hb
            have hk1 : k = 1 := by omega
            rw [hk1]
            exact List.mem_cons_self
        have hb := h.da.free.ring_bounds hring
        unfold nextFree prevFree at hb
        omega
    | some c =>
        have hb := h.base_bounds hnode
        have hc := h.da.check_bounds hnode
        rw [daGetBase_eq hnode, (node_eq_some.mp hnode).2.2]
        omega

theorem TrieInv.fits (h : TrieInv t D l tl) (hn : t.tail.numTails ≤ trieIndexMax) : t.da.Fits :=
  fun _ hc => ⟨(h.cells_fit hn hc).1, (h.cells_fit hn hc).2.1⟩

/-- Nor does `base + c` leave `int32`, while the array leaves room for the 255 characters. -/
theorem TrieInv.sum_fits (h : TrieInv t D l tl) (hn : t.tail.numTails ≤ trieIndexMax)
    (hcells : t.da.numCells + 255 ≤ trieIndexMax) (s : Int) (c : UInt8) :
    FitsInt32 (daGetBase t.da s + c.toNat) := by
  have hc := c.toNat_lt
  have hsize := h.da.free.size
  unfold trieIndexMax at hcells
  unfold FitsInt32 daGetBase
  split
  · rename_i hs
    have hlt : s.toNat < t.da.cells.length := by
      have hnum : t.da.numCells = t.da.cells.length := rfl
      omega
    have hmem : t.da.cell s ∈ t.da.cells := by
      rw [DArray.cell, List.getD_eq_getElem?_getD, List.getElem?_eq_getElem hlt]
      exact List.getElem_mem hlt
    have hfits := h.cells_fit hn hmem
    unfold FitsInt32 at hfits
    omega
  · unfold trieIndexError
    omega

theorem TrieInv.tailKeys (h : TrieInv t D l tl) : t.tail.Keys := by
  intro b hb
  rcases List.mem_iff_getElem.mp hb with ⟨k, hk, rfl⟩
  have hblock : t.tail.block k = t.tail.tails[k] := by
    rw [block, Int.toNat_natCast, List.getD_eq_getElem?_getD, List.getElem?_eq_getElem hk]
    rfl
  cases hσ : t.tail.tails[k].suffix with
  | none => exact ⟨List.not_mem_nil, List.not_mem_nil, by decide⟩
  | some σ => exact h.suffixes (Int.natCast_nonneg k) (Int.ofNat_lt.mpr hk) (hblock ▸ hσ)

/-- A trie as it is read back. -/
def rereadTrie (t : Trie) : Trie := ⟨t.alphaMap, t.da, rereadTail t.tail, false⟩

theorem TrieInv.reread (h : TrieInv t D l tl) (hn : t.tail.numTails ≤ trieIndexMax) :
    TrieInv (rereadTrie t) D l tl := by
  refine ⟨h.alpha, h.da, h.tail.reread hn, ?_, h.complete, h.own, h.letters, h.keys, ?_, h.tight⟩
  · intro w b hb
    rcases h.sound hb with hin | ⟨i, σ, rest, x, hbi, hu, hr, hleaf⟩
    · exact .inl hin
    · exact .inr ⟨i, σ, rest, x, hbi, hu.reread, hr, hleaf⟩
  · intro b σ hb hlt hσ
    have hlt : b < (rereadTail t.tail).numTails := hlt
    have hσ : ((rereadTail t.tail).block b).suffix = some σ := hσ
    rw [numTails_rereadTail] at hlt
    rw [block_rereadTail hb hlt] at hσ
    cases hold : (t.tail.block b).suffix with
    | none =>
        rw [rereadBlock, hold, Option.getD_none, Option.some.injEq] at hσ
        rw [← hσ]
        exact ⟨List.not_mem_nil, List.not_mem_nil, by decide⟩
    | some τ =>
        rw [rereadBlock, hold, Option.getD_some, Option.some.injEq] at hσ
        exact hσ ▸ h.suffixes hb hlt hold

theorem TrieHas.reread (h : TrieHas t e) (hn : t.tail.numTails ≤ trieIndexMax) :
    TrieHas (rereadTrie t) e := by
  rcases h with ⟨D, l, tl, hinv, hent⟩
  exact ⟨D, l, tl, hinv.reread hn, hent⟩

/-- The bytes of a trie. -/
def trieImage (t : Trie) : List UInt8 :=
  alphaMapImage t.alphaMap ++ (daImage t.da ++ tailImage t.tail)

theorem trieWriter_writes (h : TrieHas t e) :
    Writes (.seq (alphaMapFwriteBin t.alphaMap) (.seq (daFwrite t.da) (tailFwrite t.tail)))
      (trieImage t) := by
  rcases h with ⟨D, l, tl, hinv, -⟩
  exact (alphaMapFwriteBin_writes _).seq ((daFwrite_writes _).seq (tailFwrite_writes hinv.tailKeys))

theorem trieFread_reads (h : TrieHas t e) (hn : t.tail.numTails ≤ trieIndexMax) :
    Reads trieFread (rereadTrie t) (trieImage t) := by
  rcases h with ⟨D, l, tl, hinv, -⟩
  have hfirst : FitsInt32 t.tail.firstFree ∧ FitsInt32 t.tail.numTails := by
    have hf := hinv.tail.firstFree_bounds
    have h0 : 0 ≤ t.tail.numTails := Int.natCast_nonneg _
    unfold trieIndexMax at hn
    unfold FitsInt32
    omega
  exact (alphaMapFreadBin_reads hinv.alpha).bind ((daFread_reads hinv.da.free (hinv.fits hn)).bind
    ((tailFread_reads hinv.tailKeys hfirst.1 hfirst.2).map fun tail => Trie.mk t.alphaMap t.da tail false))

/-- `trie_fwrite` writes as much of the bytes as there is room for, and notices when that
is not all of them. -/
theorem trieFwrite_spec (h : TrieHas t e) (hf : f.pos ≤ f.bytes.length) :
    ((trieFwrite t f).1 = true ↔ (trieImage t).length ≤ f.room) ∧
      Wrote f (trieFwrite t f).2.2 ((trieImage t).take f.room) ∧
      (trieFwrite t f).2.1 = if (trieFwrite t f).1 then { t with isDirty := false } else t := by
  rcases trieWriter_writes h f hf with ⟨hiff, hwrote⟩
  rw [trieFwrite]
  rcases hw : Writer.seq (alphaMapFwriteBin t.alphaMap) (.seq (daFwrite t.da) (tailFwrite t.tail)) f
    with ⟨b, f'⟩
  rw [hw] at hiff hwrote
  cases b with
  | true => exact ⟨hiff, hwrote, rfl⟩
  | false => exact ⟨hiff, hwrote, rfl⟩

/-- What `trie_save` writes is loaded again. What it could not write whole is refused. -/
theorem trieSave_spec (h : TrieHas t e) (hn : t.tail.numTails ≤ trieIndexMax) (f : ByteFile) :
    ∃ res t' f', trieSave t (some f) = (res, t', some f') ∧
      (res = true ↔ (trieImage t).length ≤ f.room) ∧
      t' = (if res then { t with isDirty := false } else t) ∧
      trieNewFromFile (some f') = if res then some (rereadTrie t) else none := by
  rcases trieFwrite_spec (f := { f with bytes := [], pos := 0 }) h (Nat.le_refl 0) with
    ⟨hiff, hwrote, ht⟩
  have hsave : trieSave t (some f) = ((trieFwrite t { f with bytes := [], pos := 0 }).1,
      (trieFwrite t { f with bytes := [], pos := 0 }).2.1,
      some (trieFwrite t { f with bytes := [], pos := 0 }).2.2) := rfl
  generalize trieFwrite t { f with bytes := [], pos := 0 } = out at *
  rcases out with ⟨res, t', f'⟩
  simp only at hiff ht hwrote
  refine ⟨res, t', f', hsave, hiff, ht, ?_⟩
  -- the file holds what there was room for, and nothing behind it
  have hbytes : f'.bytes = (trieImage t).take f.room := by
    have hdrop := hwrote.drop
    rwa [hwrote.back, List.drop_nil, List.append_nil] at hdrop
  have hreads := trieFread_reads h hn
  cases res with
  | true =>
      rw [List.take_of_length_le (hiff.mp rfl)] at hbytes
      have hdrop : f'.bytes.drop 0 = trieImage t ++ [] := by
        rw [List.append_nil]
        exact hbytes
      have hwhole := hreads.whole (f := { f' with pos := 0 }) hdrop
      rw [trieNewFromFile, hwhole, if_pos rfl]
  | false =>
      have hroom : ¬ (trieImage t).length ≤ f.room := fun hle => absurd (hiff.mpr hle) Bool.false_ne_true
      have hshort := hreads.short (f := { f' with pos := 0 }) (by
        show f'.bytes <+: trieImage t
        rw [hbytes]
        exact List.take_prefix _ _) (by
        show f'.bytes ≠ trieImage t
        intro heq
        have hlen := congrArg List.length (hbytes.symm.trans heq)
        rw [List.length_take] at hlen
        omega)
      rw [trieNewFromFile, hshort, if_neg Bool.false_ne_true]

/-! ## Files that are refused -/

theorem fileReadInt32_keeps : Reader.Keeps fileReadInt32 :=
  .bind (.items 4 1) fun _ => .pure _

theorem fileReadInt16_keeps : Reader.Keeps fileReadInt16 :=
  .bind (.items 2 1) fun _ => .pure _

/-- A part that is refused leaves the file as it was, its position included. -/
theorem alphaMapFreadBin_failed {f' : ByteFile} (h : alphaMapFreadBin f = (none, f')) : f' = f := by
  refine orSeek_failed (.bind fileReadInt32_keeps fun sig => ?_) h
  split
  · exact .fail
  · exact .bind fileReadInt32_keeps fun total => .loop (fun m => .bind fileReadInt32_keeps fun _ =>
      .bind fileReadInt32_keeps fun _ => .pure _) _ _

theorem daFread_failed {f' : ByteFile} (h : daFread f = (none, f')) : f' = f := by
  refine orSeek_failed (.bind fileReadInt32_keeps fun n => ?_) h
  split
  · exact .fail
  · refine .bind fileReadInt32_keeps fun numCells => ?_
    split
    · exact .fail
    · exact .loop (fun d => .bind fileReadInt32_keeps fun _ => .bind fileReadInt32_keeps fun _ => .pure _) _ _

theorem readBlock_keeps (t : Tail) : Reader.Keeps (readBlock t) := by
  refine .bind fileReadInt32_keeps fun nextFree => .bind fileReadInt32_keeps fun data =>
    .bind fileReadInt16_keeps fun length => ?_
  split
  · exact .fail
  · refine .bind ?_ fun _ => .pure _
    split
    · exact .items 1 _
    · exact .pure []

theorem tailFread_failed {f' : ByteFile} (h : tailFread f = (none, f')) : f' = f := by
  refine orSeek_failed (.bind fileReadInt32_keeps fun sig => ?_) h
  split
  · exact .fail
  · refine .bind fileReadInt32_keeps fun firstFree => .bind fileReadInt32_keeps fun numTails => ?_
    split
    · exact .fail
    · exact .loop readBlock_keeps _ _

/-- `trie_fread` stops in front of the part that it refuses. -/
theorem trieFread_failed {f' : ByteFile} (h : trieFread f = (none, f')) :
    alphaMapFreadBin f = (none, f') ∧ f' = f ∨
      (∃ m, alphaMapFreadBin f = (some m, f') ∧ (daFread f').1 = none) ∨
      ∃ m d f₁, alphaMapFreadBin f = (some m, f₁) ∧ daFread f₁ = (some d, f') ∧
        (tailFread f').1 = none := by
  rw [trieFread, Reader.bind] at h
  rcases hm : alphaMapFreadBin f with ⟨m, f₁⟩
  rw [hm] at h
  cases m with
  | none =>
      cases h
      exact .inl ⟨rfl, alphaMapFreadBin_failed hm⟩
  | some m =>
      right
      simp only [Reader.bind] at h
      rcases hd : daFread f₁ with ⟨d, f₂⟩
      rw [hd] at h
      cases d with
      | none =>
          cases h
          have heq := daFread_failed hd
          subst heq
          exact .inl ⟨m, rfl, by rw [hd]⟩
      | some d =>
          right
          simp only at h
          rcases ht : tailFread f₂ with ⟨tail, f₃⟩
          rw [ht] at h
          cases tail with
          | none =>
              cases h
              have heq := tailFread_failed ht
              subst heq
              exact ⟨m, d, f₁, rfl, hd, by rw [ht]⟩
          | some tail => cases h

/-- A file that ends behind the alphabet, in the signature of the double array. -/
def cutOff : ByteFile := ⟨alphaMapImage list2triMap ++ [0xda], 0, 0⟩

def behindAlphabet : ByteFile := { cutOff with pos := (alphaMapImage list2triMap).length }

theorem trieFread_cutOff : trieFread cutOff = (none, behindAlphabet) := by
  have hbytes : cutOff.bytes.drop cutOff.pos = alphaMapImage list2triMap ++ [0xda] := rfl
  have halpha : alphaMapFreadBin cutOff = (some list2triMap, behindAlphabet) :=
    (alphaMapFreadBin_reads list2triMap_fits).whole hbytes
  have hda : daFread behindAlphabet = (none, behindAlphabet) := by decide +kernel
  rw [trieFread, Reader.bind, halpha]
  simp only [Reader.bind, hda]

theorem trieFread_failed_cut : alphaMapFreadBin cutOff = (none, behindAlphabet) ∧
      behindAlphabet = cutOff ∨
    (∃ m, alphaMapFreadBin cutOff = (some m, behindAlphabet) ∧ (daFread behindAlphabet).1 = none) ∨
    ∃ m d f₁, alphaMapFreadBin cutOff = (some m, f₁) ∧ daFread f₁ = (some d, behindAlphabet) ∧
      (tailFread behindAlphabet).1 = none :=
  trieFread_failed trieFread_cutOff

end DnsCache

import DnsCache.Lib.ByteFile
import DnsCache.Lib.Ledger
import DnsCache.TailPool

/-! # Tail pools in files

A pool is written as its `next_free` and that many bytes of its block, and read
back into a block that is exactly full.

* `writeDatpToFile`, `readDatpFromFile`: the functions of the source.
* `saved_pool_reloads`: what a pool read back has in common with the one written.
* `truncation_noticed_iff`: which pieces of a written pool are refused.
-/

namespace DnsCache

open CMem

/-! ## The functions -/

/-- `write_datp_to_file (f, offset, pool)`: the value returned and the file.
Bytes behind the block cannot be written. -/
def writeDatpToFile (f : ByteFile) (offset : Int) (p : TailPool) : Option (Int × ByteFile) :=
  let (size, f) := f.fseek offset
  if size < 0 then some (-1, f)
  else
    let (items, f) := f.fwrite 4 (le32 p.nextFree)
    let size := size + items
    if size ≠ 1 then some (-1, f)
    else if p.nextFree.toNat ≤ p.pool.length then
      let size := size * 4
      let (items, f) := f.fwrite 1 (p.pool.take p.nextFree.toNat)
      some (size + items, f)
    else none

/-- `read_datp_from_file (f, offset)`: the pool, `none` for NULL, and the blocks
taken and given back. A block holds `junk` at first. -/
def readDatpFromFile (junk : Nat → UInt8) (f : ByteFile) (offset : Int) (l : Ledger) :
    Option TailPool × ByteFile × Ledger :=
  -- the result of `fseek` is kept in a `size_t`, which is never negative
  let (_, f) := f.fseek offset
  let (toReturn, l) := l.alloc
  let (word, items, f) := f.fread 4 1
  if items = 0 then (none, f, l.free toReturn)
  else
    let nextFree := (rd32 word).getD 0
    let (pool, l) := l.alloc
    let (bytes, items, f) := f.fread 1 nextFree.toNat
    if items = 0 then (none, f, (l.free pool).free toReturn)
    else
      (some ⟨patch ((List.range nextFree.toNat).map junk) 0 bytes, nextFree, nextFree⟩, f, l)

/-- A string of three characters. -/
def abcTail : CStr := ⟨[97, 98, 99], CStr.noNul_abc⟩

/-! ## Writing and reading back -/

variable {base : Nat} {p : TailPool} {tails : List CStr} {f : ByteFile} {offset : Int}
  {junk : Nat → UInt8} {l : Ledger}

/-- The bytes of a pool in a file. -/
def TailPool.image (p : TailPool) : List UInt8 := le32 p.nextFree ++ p.pool.take p.nextFree.toNat

/-- A pool that the device takes whole stands at the offset. -/
theorem writeDatpToFile_spec (hpool : p.nextFree.toNat ≤ p.pool.length)
    (hpos : 0 < p.nextFree.toNat) (hoffset : 0 ≤ offset) (hroom : 4 + p.nextFree.toNat ≤ f.room) :
    ∃ f' : ByteFile, writeDatpToFile f offset p = some (4 + (p.nextFree.toNat : Int), f') ∧
      f'.bytes = patch (ByteFile.padded ⟨f.bytes, offset.toNat, f.room⟩) offset.toNat p.image := by
  have hlen : (p.pool.take p.nextFree.toNat).length = p.nextFree.toNat := by
    rw [List.length_take]
    exact Nat.min_eq_left hpool
  have hne : p.pool.take p.nextFree.toNat ≠ [] := by
    intro hnil
    rw [hnil, List.length_nil] at hlen
    omega
  let start : ByteFile := ⟨f.bytes, offset.toNat, f.room⟩
  have hsome : le32 p.nextFree ≠ [] := List.cons_ne_nil _ _
  have hfour : (le32 p.nextFree).length ≤ start.room := by
    rw [le32_length]
    exact Nat.le_trans (Nat.le_add_right _ _) hroom
  have hword : start.fwrite 4 (le32 p.nextFree) =
      (1, ⟨patch start.padded start.pos (le32 p.nextFree), start.pos + 4, f.room - 4⟩) :=
    (ByteFile.fwrite_all 4 hsome hfour).trans (by rw [le32_length])
  have hbody : ByteFile.fwrite 1 (p.pool.take p.nextFree.toNat)
      ⟨patch start.padded start.pos (le32 p.nextFree), start.pos + 4, f.room - 4⟩ = _ :=
    ByteFile.fwrite_behind 1 hne (by rw [hlen]; omega)
  refine ⟨⟨patch start.padded start.pos p.image, start.pos + 4 + p.nextFree.toNat,
    f.room - 4 - p.nextFree.toNat⟩, ?_, rfl⟩
  unfold writeDatpToFile
  simp only [ByteFile.fseek_of_nonneg hoffset]
  rw [show ByteFile.mk f.bytes offset.toNat f.room = start from rfl, hword]
  simp only [hbody, hlen, Int.lt_irrefl, if_false, if_pos hpool, Nat.div_one]
  rfl

/-- Behind a length word with all its bytes stands a pool. -/
theorem readDatpFromFile_whole {nextFree : UInt32} {body rest : List UInt8}
    (hoffset : 0 ≤ offset)
    (hbytes : f.bytes.drop offset.toNat = le32 nextFree ++ (body ++ rest))
    (hbody : body.length = nextFree.toNat) (hpos : 0 < nextFree.toNat) :
    ∃ f' : ByteFile, readDatpFromFile junk f offset l =
      (some ⟨body, nextFree, nextFree⟩, f', l.alloc.2.alloc.2) := by
  have hword : ByteFile.fread 4 1 ⟨f.bytes, offset.toNat, f.room⟩ =
      (le32 nextFree, 1, ⟨f.bytes, offset.toNat + 4, f.room⟩) :=
    ByteFile.fread_front hbytes rfl (by decide)
  have hdrop : f.bytes.drop (offset.toNat + 4) = body ++ rest := by
    rw [← List.drop_drop, hbytes]
    exact List.drop_left' (le32_length _)
  have hread : ByteFile.fread 1 nextFree.toNat ⟨f.bytes, offset.toNat + 4, f.room⟩ =
      (body, nextFree.toNat, ⟨f.bytes, offset.toNat + 4 + 1 * nextFree.toNat, f.room⟩) :=
    ByteFile.fread_front hdrop (by rw [Nat.one_mul, hbody]) (by decide)
  have hblock : patch ((List.range nextFree.toNat).map junk) 0 body = body := by
    rw [patch_zero, List.drop_eq_nil_of_le (by simp [hbody]), List.append_nil]
  refine ⟨⟨f.bytes, offset.toNat + 4 + 1 * nextFree.toNat, f.room⟩, ?_⟩
  unfold readDatpFromFile
  simp only [ByteFile.fseek_of_nonneg hoffset, hword, rd32_le32_self, Option.getD_some, hread, hblock,
    if_neg (Nat.ne_of_gt hpos), Nat.one_ne_zero, if_false]

/-- The bytes of a pool that are written are its strings. -/
theorem TailPool.GrownFrom.take_nextFree (h : p.GrownFrom base tails) :
    ∃ first, p.pool.take p.nextFree.toNat = first :: CStr.pack tails := by
  rcases h.content with ⟨first, rest, hpool⟩
  refine ⟨first, ?_⟩
  rw [hpool, h.nextFree, tailIndex_length, Nat.add_comm, List.take_succ_cons, List.take_left]

/-- A block that is exactly full holds the same strings. -/
theorem TailPool.GrownFrom.loaded (h : p.GrownFrom base tails) :
    TailPool.GrownFrom p.nextFree.toNat ⟨p.pool.take p.nextFree.toNat, p.nextFree, p.nextFree⟩
      tails where
  nextFree := h.nextFree
  length := by
    rw [List.length_take]
    exact Nat.min_eq_left (by rw [h.length]; exact h.nextFree_le)
  doubled := ⟨0, by simp⟩
  content := by
    rcases h.take_nextFree with ⟨first, htake⟩
    exact ⟨first, [], by rw [htake, List.append_nil]⟩

/-- The indices returned so far and those returned by later pushes are the
indices of all strings. -/
theorem issued_append (tails more : List CStr) :
    ((List.range tails.length).map fun j => Int32.ofNat (tailIndex tails j)) ++
        ((List.range more.length).map fun j =>
          Int32.ofNat (tailIndex (tails ++ more) (tails.length + j))) =
      (List.range (tails ++ more).length).map fun j => Int32.ofNat (tailIndex (tails ++ more) j) := by
  rw [List.length_append, List.range_add, List.map_append, List.map_map]
  congr 1
  apply List.map_congr_left
  intro j hj
  rw [List.mem_range] at hj
  rw [tailIndex, tailIndex, List.take_append_of_le_length (Nat.le_of_lt hj)]

/-- Pools that hold the same strings, of whatever sizes, go on alike. -/
theorem pushes_alike {base base' : Nat} {p q : TailPool} {tails : List CStr} (R R' : Realloc)
    (hp : p.GrownFrom base tails) (hq : q.GrownFrom base' tails) (more : List CStr)
    (hbound : (CStr.pack (tails ++ more)).length < 2147483647) :
    ∃ later p' q', dtPushAll R p more = some (later, p') ∧ dtPushAll R' q more = some (later, q') ∧
      ∀ (j : Nat) index tail,
        (((List.range tails.length).map fun j => Int32.ofNat (tailIndex tails j)) ++ later)[j]? =
          some index → (tails ++ more)[j]? = some tail →
        dtGetTail index p' = some tail ∧ dtGetTail index q' = some tail := by
  rcases @dtPushAll_grown R base p tails more hp (by omega) with ⟨p', hpush, hp'⟩
  rcases @dtPushAll_grown R' base' q tails more hq (by omega) with ⟨q', hpush', hq'⟩
  refine ⟨_, p', q', hpush, hpush', ?_⟩
  intro j index tail hindex htail
  have hlt := (List.getElem?_eq_some_iff.mp htail).1
  rw [issued_append, List.getElem?_map, List.getElem?_range hlt, Option.map_some,
    Option.some.injEq] at hindex
  rw [← hindex]
  exact ⟨dtGetTail_grown hp' hbound htail, dtGetTail_grown hq' hbound htail⟩

/-- A pool reached by pushes is written whole, and what is read back from the
same offset goes on like the pool written, although it is exactly full. -/
theorem saved_pool_reloads (R R' : Realloc) (junk junk' : Nat → UInt8) (tails : List CStr)
    (hbound : (tails.map fun tail => tail.length + 1).sum < 2 ^ 31 - 1) :
    ∃ indices p, dtPushAll R (newDatrieTailPool junk) tails = some (indices, p) ∧
      ∀ (f : ByteFile) (offset : Int), 0 ≤ offset → 4 + p.nextFree.toNat ≤ f.room →
        ∃ f', writeDatpToFile f offset p = some (4 + (p.nextFree.toNat : Int), f') ∧
          ∀ (g : ByteFile) (l : Ledger), g.bytes = f'.bytes →
            ∃ q g' l', readDatpFromFile junk' g offset l = (some q, g', l') ∧
              q.poolSize = q.nextFree ∧ q.nextFree = p.nextFree ∧
              (∀ (j : Nat) index tail, indices[j]? = some index → tails[j]? = some tail →
                dtGetTail index q = some tail) ∧
              ∀ more : List CStr,
                ((tails ++ more).map fun tail => tail.length + 1).sum < 2 ^ 31 - 1 →
                ∃ later p' q', dtPushAll R p more = some (later, p') ∧
                  dtPushAll R' q more = some (later, q') ∧
                  ∀ (j : Nat) index tail, (indices ++ later)[j]? = some index →
                    (tails ++ more)[j]? = some tail →
                    dtGetTail index p' = some tail ∧ dtGetTail index q' = some tail := by
  rw [← CStr.pack_length] at hbound
  rcases @dtPushAll_new R junk tails (by omega) with ⟨p, hpush, hp⟩
  have hgrown := TailPool.holds_iff.mp hp
  have hpool : p.nextFree.toNat ≤ p.pool.length := by
    rw [hgrown.length]
    exact hgrown.nextFree_le
  have hpos : 0 < p.nextFree.toNat := by
    rw [hgrown.nextFree, tailIndex_length]
    omega
  refine ⟨_, p, hpush, ?_⟩
  intro f offset hoffset hroom
  rcases writeDatpToFile_spec hpool hpos hoffset hroom with ⟨f', hwrite, hbytes⟩
  refine ⟨f', hwrite, ?_⟩
  intro g l hg
  have hdrop := ByteFile.patch_padded_drop ⟨f.bytes, offset.toNat, f.room⟩ p.image
  have hlen : (p.pool.take p.nextFree.toNat).length = p.nextFree.toNat := by
    rw [List.length_take]
    exact Nat.min_eq_left hpool
  rw [TailPool.image, List.append_assoc] at hdrop
  rcases @readDatpFromFile_whole g offset junk' l p.nextFree _ _ hoffset
    (by rw [hg, hbytes]; exact hdrop) hlen hpos with ⟨g', hread⟩
  refine ⟨_, g', _, hread, rfl, rfl, ?_, ?_⟩
  · intro j index tail hindex htail
    have hlt := (List.getElem?_eq_some_iff.mp htail).1
    rw [List.getElem?_map, List.getElem?_range hlt, Option.map_some, Option.some.injEq] at hindex
    rw [← hindex]
    exact dtGetTail_grown hgrown.loaded hbound htail
  · intro more hmore
    rw [← CStr.pack_length] at hmore
    exact pushes_alike R R' hgrown hgrown.loaded more hmore

/-- `saved_pool_reloads` for a pool with two strings, one of them empty, that
grows after it was read back. -/
theorem saved_pool_reloads_grown :
    ∃ indices p f' q g' l' later p' q',
      dtPushAll clearingRealloc (newDatrieTailPool fun _ => 7) [abcTail, CStr.empty] =
        some (indices, p) ∧
      writeDatpToFile ⟨[1, 2], 0, 8589934592⟩ 5 p = some (4 + (p.nextFree.toNat : Int), f') ∧
      readDatpFromFile (fun _ => 9) f' 5 Ledger.start = (some q, g', l') ∧
      dtPushAll clearingRealloc p [longTail] = some (later, p') ∧
      dtPushAll clearingRealloc q [longTail] = some (later, q') := by
  have hsum : ([abcTail, CStr.empty].map fun tail => tail.length + 1).sum < 2 ^ 31 - 1 := by decide
  have hmore : ([abcTail, CStr.empty] ++ [longTail]).map (fun tail => tail.length + 1) =
      [4, 1, 601] := by
    simp only [List.cons_append, List.nil_append, List.map_cons, List.map_nil, longTail_length]
    rfl
  rcases saved_pool_reloads clearingRealloc clearingRealloc (fun _ => 7) (fun _ => 9)
    [abcTail, CStr.empty] hsum with ⟨indices, p, hpush, hfile⟩
  have hlt := p.nextFree.toNat_lt
  rcases hfile ⟨[1, 2], 0, 8589934592⟩ 5 (by decide) (show 4 + p.nextFree.toNat ≤ 8589934592 by omega)
    with ⟨f', hwrite, hreload⟩
  rcases hreload f' Ledger.start rfl with ⟨q, g', l', hread, -, -, -, hlater⟩
  rcases hlater [longTail] (by rw [hmore]; decide) with ⟨later, p', q', hp, hq, -⟩
  exact ⟨indices, p, f', q, g', l', later, p', q', hpush, hwrite, hread, hp, hq⟩

/-! ## Pieces of a pool -/

/-- The file at the offset is refused, and the blocks taken are given back. -/
def TruncationNoticed (junk : Nat → UInt8) (f : ByteFile) (offset : Int) : Prop :=
  ∃ f' l, readDatpFromFile junk f offset Ledger.start = (none, f', l) ∧ l.Returned

/-- Four bytes at most are refused. -/
theorem truncationNoticed_short (hoffset : 0 ≤ offset)
    (hlen : (f.bytes.drop offset.toNat).length ≤ 4) : TruncationNoticed junk f offset := by
  have howes := Ledger.owes_start.alloc
  let behind : ByteFile :=
    ⟨f.bytes, offset.toNat + (f.bytes.drop offset.toNat).length, f.room⟩
  have hword : ByteFile.fread 4 1 ⟨f.bytes, offset.toNat, f.room⟩ =
      (f.bytes.drop offset.toNat, (f.bytes.drop offset.toNat).length / 4, behind) :=
    ByteFile.fread_short rfl hlen
  by_cases hitems : (f.bytes.drop offset.toNat).length / 4 = 0
  · refine ⟨behind, _, ?_, Ledger.returned_iff.mpr howes.free⟩
    unfold readDatpFromFile
    simp only [ByteFile.fseek_of_nonneg hoffset, hword, if_pos hitems]
  · -- nothing is left for the block
    have hend : behind.bytes.drop behind.pos = [] := by
      show f.bytes.drop (offset.toNat + (f.bytes.drop offset.toNat).length) = []
      rw [← List.drop_drop, List.drop_length]
    have hread : ∀ n, behind.fread 1 n = ([], 0, behind) := fun n =>
      (ByteFile.fread_short hend (Nat.zero_le _)).trans (by rw [List.length_nil, Nat.zero_div]; rfl)
    refine ⟨behind, _, ?_, Ledger.returned_iff.mpr howes.alloc.free.free⟩
    unfold readDatpFromFile
    simp only [ByteFile.fseek_of_nonneg hoffset, hword, if_neg hitems, hread, if_true]

/-- Five bytes behind the offset are a pool. -/
theorem not_truncationNoticed_long {nextFree : UInt32} {b : UInt8} {rest : List UInt8}
    (hoffset : 0 ≤ offset) (hpos : 0 < nextFree.toNat)
    (hbytes : f.bytes.drop offset.toNat = le32 nextFree ++ b :: rest) :
    ¬ TruncationNoticed junk f offset := by
  have hword : ByteFile.fread 4 1 ⟨f.bytes, offset.toNat, f.room⟩ =
      (le32 nextFree, 1, ⟨f.bytes, offset.toNat + 4, f.room⟩) :=
    ByteFile.fread_front hbytes rfl (by decide)
  have hdrop : f.bytes.drop (offset.toNat + 4) = b :: rest := by
    rw [← List.drop_drop, hbytes]
    exact List.drop_left' (le32_length _)
  have hitems : (ByteFile.fread 1 nextFree.toNat ⟨f.bytes, offset.toNat + 4, f.room⟩).2.1 ≠ 0 := by
    show ((f.bytes.drop (offset.toNat + 4)).take (1 * nextFree.toNat)).length / 1 ≠ 0
    rw [hdrop, Nat.div_one, List.length_take, List.length_cons]
    omega
  rintro ⟨f', l', hread, -⟩
  unfold readDatpFromFile at hread
  simp only [ByteFile.fseek_of_nonneg hoffset, hword, Nat.one_ne_zero, if_false, rd32_le32_self,
    Option.getD_some, if_neg hitems, Prod.mk.injEq, reduceCtorEq, false_and] at hread

/-- What pushes keep, whatever they do: the strings end inside the block. -/
structure TailPool.Within (p : TailPool) : Prop where
  length : p.pool.length = p.poolSize.toNat
  pos : 0 < p.nextFree.toNat
  le : p.nextFree.toNat ≤ p.pool.length

theorem growLoop_within {R : Realloc} {need fuel : Nat} {p p' : TailPool}
    (h : p.pool.length = p.poolSize.toNat) (hgrow : growLoop R need fuel p = some p') :
    p'.pool.length = p'.poolSize.toNat ∧ p'.nextFree = p.nextFree := by
  induction fuel generalizing p with
  | zero => exact absurd hgrow (by simp [growLoop])
  | succ fuel ih =>
      rw [growLoop] at hgrow
      split at hgrow
      · exact @ih ⟨R.realloc p.pool _, p.nextFree, _⟩ (R.length_realloc _ _) hgrow
      · rw [Option.some.injEq] at hgrow
        rw [← hgrow]
        exact ⟨h, rfl⟩

theorem dtPushTail_within {R : Realloc} {tail : CStr} {index : Int32} {p p' : TailPool}
    (h : p.Within) (hpush : dtPushTail R tail p = some (index, p')) : p'.Within := by
  unfold dtPushTail at hpush
  simp only [Option.bind_eq_bind, Option.bind_eq_some_iff] at hpush
  rcases hpush with ⟨q, hgrow, hpush⟩
  rcases growLoop_within h.length hgrow with ⟨hlength, -⟩
  split at hpush
  · rename_i hfits
    simp only [Option.pure_def, Option.some.injEq, Prod.mk.injEq] at hpush
    rcases hpush with ⟨-, rfl⟩
    have hlt := q.poolSize.toNat_lt
    have hraw : tail.raw.length = tail.length + 1 := CStr.raw_length tail
    have hpool : (patch q.pool q.nextFree.toNat tail.raw).length = q.pool.length := by
      rw [patch_length (by omega), hraw]
      exact Nat.max_eq_left hfits
    have hnext : (UInt32.ofNat (q.nextFree.toNat + tail.length + 1)).toNat =
        q.nextFree.toNat + tail.length + 1 := toNat_ofNat_small (by omega)
    refine ⟨hpool.trans hlength, ?_, ?_⟩
    · show 0 < (UInt32.ofNat _).toNat
      rw [hnext]
      exact Nat.succ_pos _
    · show (UInt32.ofNat _).toNat ≤ (patch _ _ _).length
      rw [hnext, hpool]
      exact hfits
  · exact absurd hpush (by simp)

theorem dtPushAll_within {R : Realloc} {tails : List CStr} {indices : List Int32} {p p' : TailPool}
    (h : p.Within) (hpush : dtPushAll R p tails = some (indices, p')) : p'.Within := by
  induction tails generalizing p indices with
  | nil =>
      simp only [dtPushAll, Option.some.injEq, Prod.mk.injEq] at hpush
      rw [← hpush.2]
      exact h
  | cons tail tails ih =>
      simp only [dtPushAll, Option.bind_eq_bind, Option.bind_eq_some_iff, Prod.exists,
        Option.pure_def, Option.some.injEq, Prod.mk.injEq] at hpush
      rcases hpush with ⟨index, q, hfirst, later, r, hrest, -, rfl⟩
      exact ih (dtPushTail_within h hfirst) hrest

/-- Of the pieces of a pool that are not the whole, those with five bytes or
more are taken for a pool: only counts of 0 items are noticed. -/
theorem truncation_noticed_iff (R : Realloc) (junk junk' : Nat → UInt8) (tails : List CStr)
    (indices : List Int32) (p : TailPool) (f : ByteFile) (n pos room : Nat)
    (hpush : dtPushAll R (newDatrieTailPool junk) tails = some (indices, p))
    (hroom : 4 + p.nextFree.toNat ≤ f.room) (hn : n < 4 + p.nextFree.toNat) :
    ∃ f', writeDatpToFile f f.bytes.length p = some (4 + (p.nextFree.toNat : Int), f') ∧
      f'.bytes.length = f.bytes.length + (4 + p.nextFree.toNat) ∧
      (TruncationNoticed junk' ⟨f'.bytes.take (f.bytes.length + n), pos, room⟩ f.bytes.length ↔
        n ≤ 4) := by
  have hnew : (newDatrieTailPool junk).Within :=
    ⟨(newDatrieTailPool_holds junk).length, by show 0 < 1; decide, by
      rw [(newDatrieTailPool_holds junk).length]
      show 1 ≤ 512
      decide⟩
  have hwithin := dtPushAll_within hnew hpush
  have hoffset : (0 : Int) ≤ (f.bytes.length : Int) := Int.natCast_nonneg _
  rcases writeDatpToFile_spec hwithin.le hwithin.pos hoffset hroom with ⟨f', hwrite, hbytes⟩
  have hcontent : f'.bytes = f.bytes ++ p.image := by
    rw [hbytes, Int.toNat_natCast, ByteFile.padded_of_le (Nat.le_refl _)]
    have h := patch_append_length f.bytes [] p.image
    rwa [List.append_nil, List.drop_nil, List.append_nil] at h
  have hlen : p.image.length = 4 + p.nextFree.toNat := by
    rw [TailPool.image, List.length_append, le32_length, List.length_take,
      Nat.min_eq_left hwithin.le]
  have hdrop : ((f'.bytes.take (f.bytes.length + n)).drop f.bytes.length) = p.image.take n := by
    rw [hcontent, List.take_length_add_append, List.drop_left]
  refine ⟨f', hwrite, by rw [hcontent, List.length_append, hlen], ?_⟩
  constructor
  · intro hnoticed
    by_contra hlong
    have himage : p.image.take n = le32 p.nextFree ++ (p.pool.take p.nextFree.toNat).take (n - 4) := by
      rw [TailPool.image, List.take_append, List.take_of_length_le (by rw [le32_length]; omega),
        le32_length]
    rcases hbody : (p.pool.take p.nextFree.toNat).take (n - 4) with _ | ⟨b, rest⟩
    · have h := congrArg List.length hbody
      rw [List.length_take, List.length_take, Nat.min_eq_left hwithin.le, List.length_nil] at h
      omega
    · rw [hbody] at himage
      exact not_truncationNoticed_long hoffset hwithin.pos
        (by rw [Int.toNat_natCast]; exact hdrop.trans himage) hnoticed
  · intro hshort
    apply truncationNoticed_short hoffset
    rw [Int.toNat_natCast]
    show ((f'.bytes.take (f.bytes.length + n)).drop f.bytes.length).length ≤ 4
    rw [hdrop, List.length_take]
    exact Nat.le_trans (Nat.min_le_left _ _) hshort

/-- The pool after a push of "abc" into cleared memory. -/
def abcPool : TailPool := ⟨[0, 97, 98, 99] ++ List.replicate 508 0, 5, 512⟩

theorem abcPool_pushed :
    dtPushAll clearingRealloc (newDatrieTailPool fun _ => 0) [abcTail] = some ([1], abcPool) := by
  decide +kernel

/-- Of the nine bytes of this pool six are left: a pool is returned, in which
the index of "abc" stands for "a". -/
theorem truncation_not_noticed :
    ∃ f' q g l, writeDatpToFile ⟨[], 0, 100⟩ 0 abcPool = some (9, f') ∧ f'.bytes.length = 9 ∧
      readDatpFromFile (fun _ => 0) ⟨f'.bytes.take 6, 0, 0⟩ 0 Ledger.start = (some q, g, l) ∧
      dtGetTail 1 abcPool = some abcTail ∧ dtGetTail 1 q = some ⟨[97], by decide⟩ ∧
      ¬ TruncationNoticed (fun _ => 0) ⟨f'.bytes.take 6, 0, 0⟩ 0 := by
  have hread : readDatpFromFile (fun _ => 0) ⟨[5, 0, 0, 0, 0, 97], 0, 0⟩ 0 Ledger.start =
      (some ⟨[0, 97, 0, 0, 0], 5, 5⟩, ⟨[5, 0, 0, 0, 0, 97], 6, 0⟩, ⟨2, [], 0⟩) := by decide +kernel
  refine ⟨⟨[5, 0, 0, 0, 0, 97, 98, 99, 0], 9, 91⟩, _, _, _, by decide +kernel, rfl, hread,
    by decide +kernel, by decide +kernel, ?_⟩
  rintro ⟨f', l', hnone, -⟩
  have h := congrArg Prod.fst (hread.symm.trans hnone)
  exact absurd h (by simp)

/-- `truncation_noticed_iff` for this pool behind one other byte. -/
theorem truncation_noticed_iff_abc :
    ∃ f', writeDatpToFile ⟨[255], 0, 100⟩ 1 abcPool = some (9, f') ∧ f'.bytes.length = 10 ∧
      (TruncationNoticed (fun _ => 0) ⟨f'.bytes.take 5, 0, 0⟩ 1 ↔ 4 ≤ 4) :=
  truncation_noticed_iff clearingRealloc (fun _ => 0) (fun _ => 0) [abcTail] [1] abcPool
    ⟨[255], 0, 100⟩ 4 0 0 abcPool_pushed (by decide) (by decide)

end DnsCache

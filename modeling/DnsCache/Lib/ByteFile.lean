import DnsCache.Lib.CMem

/-! # A file opened for reading and writing

The three calls of `stdio.h` that position a file, write items at the position
and read them back. What a device still takes is limited, so that a write can
stop short.

* `fseek`, `fwrite`, `fread`: the calls.
* `fwrite_all`, `fwrite_behind`: writes that are taken whole, one behind the other.
* `fread_front`, `fread_short`: items that are there, and an item cut off by the end.
-/

namespace CMem

/-- The contents, the position, and the bytes the device still takes. -/
structure ByteFile where
  bytes : List UInt8
  pos : Nat
  room : Nat
deriving DecidableEq, Repr

namespace ByteFile

/-- `fseek (f, offset, SEEK_SET)`. -/
def fseek (offset : Int) (f : ByteFile) : Int × ByteFile :=
  if offset < 0 then (-1, f) else (0, { f with pos := offset.toNat })

/-- The contents up to the position at least: a gap reads as zeros. -/
def padded (f : ByteFile) : List UInt8 := f.bytes ++ List.replicate (f.pos - f.bytes.length) 0

/-- `fwrite (bs, size, …, f)`: the number of whole items written. -/
def fwrite (size : Nat) (bs : List UInt8) (f : ByteFile) : Nat × ByteFile :=
  let taken := bs.take f.room
  (taken.length / size,
    { bytes := if taken = [] then f.bytes else patch f.padded f.pos taken
      pos := f.pos + taken.length
      room := f.room - taken.length })

/-- `fread (…, size, count, f)`: the bytes stored, the number of whole items. -/
def fread (size count : Nat) (f : ByteFile) : List UInt8 × Nat × ByteFile :=
  let got := (f.bytes.drop f.pos).take (size * count)
  (got, got.length / size, { f with pos := f.pos + got.length })

variable {f : ByteFile} {bs x y t : List UInt8}

theorem fseek_of_nonneg {offset : Int} (h : 0 ≤ offset) (f : ByteFile) :
    f.fseek offset = (0, { f with pos := offset.toNat }) := by
  rw [fseek, if_neg (Int.not_lt.mpr h)]

theorem pos_le_padded (f : ByteFile) : f.pos ≤ f.padded.length := by
  rw [padded, List.length_append, List.length_replicate]
  omega

theorem padded_of_le (h : f.pos ≤ f.bytes.length) : f.padded = f.bytes := by
  rw [padded, Nat.sub_eq_zero_of_le h, List.replicate_zero, List.append_nil]

/-- A write that the device takes whole. -/
theorem fwrite_all (size : Nat) (hne : bs ≠ []) (hroom : bs.length ≤ f.room) :
    f.fwrite size bs = (bs.length / size,
      ⟨patch f.padded f.pos bs, f.pos + bs.length, f.room - bs.length⟩) := by
  simp only [fwrite, List.take_of_length_le hroom, if_neg hne]

/-- A second write goes on behind the first one. -/
theorem fwrite_behind (size : Nat) {room : Nat} (hne : y ≠ []) (hroom : y.length ≤ room) :
    (ByteFile.mk (patch f.padded f.pos x) (f.pos + x.length) room).fwrite size y =
      (y.length / size,
        ⟨patch f.padded f.pos (x ++ y), f.pos + x.length + y.length, room - y.length⟩) := by
  have hle := f.pos_le_padded
  have hpos : f.pos + x.length ≤ (patch f.padded f.pos x).length := by
    rw [patch_length hle]
    exact Nat.le_max_right _ _
  rw [fwrite_all size hne hroom, padded_of_le hpos, patch_patch hle]

/-- What was written is found at its position. -/
theorem patch_padded_drop (f : ByteFile) (bs : List UInt8) :
    (patch f.padded f.pos bs).drop f.pos = bs ++ f.padded.drop (f.pos + bs.length) := by
  have hlen : (f.padded.take f.pos).length = f.pos := by
    rw [List.length_take]
    exact Nat.min_eq_left f.pos_le_padded
  rw [patch, List.append_assoc]
  exact List.drop_left' hlen

/-- The items at the position are read whole. -/
theorem fread_front {size count : Nat} (h : f.bytes.drop f.pos = x ++ t)
    (hx : x.length = size * count) (hsize : 0 < size) :
    f.fread size count = (x, count, { f with pos := f.pos + size * count }) := by
  have hgot : (f.bytes.drop f.pos).take (size * count) = x := by
    rw [h, ← hx]
    exact List.take_left
  simp only [fread, hgot, hx, Nat.mul_div_cancel_left _ hsize]

/-- The file ends before the items do. -/
theorem fread_short {size count : Nat} (h : f.bytes.drop f.pos = x) (hx : x.length ≤ size * count) :
    f.fread size count = (x, x.length / size, { f with pos := f.pos + x.length }) := by
  simp only [fread, h, List.take_of_length_le hx]

end ByteFile

end CMem

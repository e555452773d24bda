import DnsCache.Lib.CMem

/-! # Text files read with `fgets`

A file is the list of the bytes not read yet, a line ends with a newline, and
`fgets` reads a line in pieces when it does not fit the buffer.

* `readLine`, `fgets`: what is read, and what the buffer holds afterwards.
* `fgets_line`, `fgets_full`: a line that fits, and one that does not.
* `pieces`: the lines a buffer of `n + 1` bytes makes out of a longer one.
-/

namespace TextFile

open CMem

/-- The byte '\n'. -/
def newline : UInt8 := 10

/-- At most `n` bytes, through the first newline: what is read, and what is left. -/
def readLine : Nat → List UInt8 → List UInt8 × List UInt8
  | 0, file => ([], file)
  | _ + 1, [] => ([], [])
  | n + 1, b :: file =>
      if b = newline then ([b], file)
      else (b :: (readLine n file).1, (readLine n file).2)

/-- `fgets (buff, size, file)`: the bytes read and a NUL over the start of the
buffer. There is no result at the end of the file. -/
def fgets (size : Nat) (buff file : List UInt8) : Option (List UInt8 × List UInt8) :=
  if file = [] then none
  else some (patch buff 0 ((readLine (size - 1) file).1 ++ [0]), (readLine (size - 1) file).2)

/-- A file of newline-terminated lines. -/
def unlines (lines : List (List UInt8)) : List UInt8 := lines.flatMap (· ++ [newline])

/-- The lines that come out of one line when at most `n` bytes are read at a
time: a full buffer ends a line, too. -/
def pieces (n : Nat) (line : List UInt8) : List (List UInt8) :=
  if _h : line.length < n ∨ n = 0 then [line]
  else line.take n :: pieces n (line.drop n)
termination_by line.length
decreasing_by
  rw [List.length_drop]
  omega

variable {n : Nat} {line file rest : List UInt8}

@[simp] theorem unlines_nil : unlines [] = [] := rfl

@[simp] theorem unlines_cons (line : List UInt8) (lines : List (List UInt8)) :
    unlines (line :: lines) = line ++ newline :: unlines lines := by
  simp [unlines]

/-- A line that fits is read with its newline. -/
theorem readLine_line (hline : newline ∉ line) (hfits : line.length < n) :
    readLine n (line ++ newline :: rest) = (line ++ [newline], rest) := by
  induction line generalizing n with
  | nil =>
      obtain ⟨n, rfl⟩ : ∃ m, n = m + 1 := ⟨n - 1, by omega⟩
      rfl
  | cons b line ih =>
      obtain ⟨n, rfl⟩ : ∃ m, n = m + 1 := ⟨n - 1, by omega⟩
      have hb : newline ≠ b := List.ne_of_not_mem_cons hline
      have hrest : newline ∉ line := List.not_mem_of_not_mem_cons hline
      rw [List.cons_append, readLine, if_neg (Ne.symm hb),
        ih hrest (Nat.lt_of_succ_lt_succ hfits)]
      rfl

/-- A buffer is filled by `n` bytes without a newline. -/
theorem readLine_full (hline : newline ∉ line) : readLine line.length (line ++ rest) =
    (line, rest) := by
  induction line with
  | nil => rfl
  | cons b line ih =>
      have hb : newline ≠ b := List.ne_of_not_mem_cons hline
      have hrest : newline ∉ line := List.not_mem_of_not_mem_cons hline
      rw [List.length_cons, List.cons_append, readLine, if_neg (Ne.symm hb), ih hrest]

/-- Nothing is lost between what is read and what is left. -/
theorem readLine_append (n : Nat) (file : List UInt8) :
    (readLine n file).1 ++ (readLine n file).2 = file := by
  induction n generalizing file with
  | zero => rfl
  | succ n ih =>
      cases file with
      | nil => rfl
      | cons b file =>
          rw [readLine]
          split
          · rfl
          · exact congrArg (b :: ·) (ih file)

/-- Every call of `fgets` that succeeds reads something. -/
theorem fgets_lt {size : Nat} {buff buff' : List UInt8} (hsize : 2 ≤ size)
    (h : fgets size buff file = some (buff', rest)) : rest.length < file.length := by
  unfold fgets at h
  split at h
  · simp at h
  · rename_i hne
    rw [Option.some.injEq, Prod.mk.injEq] at h
    rw [← h.2]
    obtain ⟨n, hn⟩ : ∃ n, size - 1 = n + 1 := ⟨size - 2, by omega⟩
    rw [hn]
    cases file with
    | nil => exact absurd rfl hne
    | cons b file =>
        have hlen := congrArg List.length (readLine_append n file)
        rw [List.length_append] at hlen
        rw [readLine]
        split
        · exact Nat.lt_succ_self _
        · show (readLine n file).2.length < file.length + 1
          omega

/-- The buffer after a line that fits. -/
theorem fgets_line {size : Nat} {buff : List UInt8} (hline : newline ∉ line)
    (hfits : line.length < size - 1) :
    ∃ u, fgets size buff (line ++ newline :: rest) = some (line ++ newline :: 0 :: u, rest) := by
  refine ⟨buff.drop (line.length + 2), ?_⟩
  rw [fgets, if_neg (List.append_ne_nil_of_right_ne_nil _ (List.cons_ne_nil _ _)),
    readLine_line hline hfits, patch_zero]
  simp

/-- The buffer after a piece that fills it. -/
theorem fgets_full {size : Nat} {buff : List UInt8} (hline : newline ∉ line)
    (hlen : line.length = size - 1) (hsize : 2 ≤ size) :
    ∃ u, fgets size buff (line ++ rest) = some (line ++ 0 :: u, rest) := by
  have hne : line ++ rest ≠ [] := by
    intro hnil
    rw [List.append_eq_nil_iff] at hnil
    rw [hnil.1, List.length_nil] at hlen
    omega
  refine ⟨buff.drop (line.length + 1), ?_⟩
  rw [fgets, if_neg hne, ← hlen, readLine_full hline, patch_zero]
  simp

theorem pieces_short (h : line.length < n) : pieces n line = [line] := by
  rw [pieces, dif_pos (.inl h)]

theorem pieces_long (hn : 0 < n) (h : n ≤ line.length) :
    pieces n line = line.take n :: pieces n (line.drop n) := by
  rw [pieces, dif_neg (by omega)]

/-- When a line fills the buffer exactly, an empty one follows it. -/
theorem pieces_exact (hn : 0 < n) (h : line.length = n) : pieces n line = [line, []] := by
  rw [pieces_long hn (Nat.le_of_eq h.symm), List.take_of_length_le (Nat.le_of_eq h),
    List.drop_of_length_le (Nat.le_of_eq h), pieces_short hn]

end TextFile

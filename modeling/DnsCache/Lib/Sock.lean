import Mathlib.Algebra.BigOperators.Group.Finset.Basic
import DnsCache.Lib.CMem

/-! # Reading from a stream socket

`read` may hand out fewer bytes than asked for, so programs call it in a loop.

* `Sock`, `Sock.read`: the bytes still to come and how they are cut.
* `readUntil`: the loop `while ((i = read (fd, ptr + count, want)) > 0)`, left
  early when a test on the number of bytes read says so.
* `readUntil_all`: a loop that runs to the end of the stream.
* `readUntil_exact`: a loop whose reads happen to end where it should stop.
* `readUntil_spec`: what any run of the loop leaves.
* `readUntil_stops`, `readUntil_within_iff`: a loop that never asks for less: how
  far it gets, and when it stays in its block.
-/

open scoped BigOperators

namespace CMem

/-- The receiving end of a connection: the bytes still to come, after which
the peer has closed, and for each read from now on the most it hands out. -/
structure Sock where
  stream : List UInt8
  cuts : Nat → Nat

namespace Sock

/-- The most the `i`-th read for `want` bytes hands out: between 1 and `want`. -/
def size (s : Sock) (want i : Nat) : Nat := min want (max 1 (s.cuts i))

/-- `read (fd, ptr, want)`: the bytes handed out, none of them at the end of
the stream, and the connection afterwards. -/
def read (s : Sock) (want : Nat) : List UInt8 × Sock :=
  (s.stream.take (s.size want 0), ⟨s.stream.drop (s.size want 0), fun i => s.cuts (i + 1)⟩)

/-- How far the first `j` reads get on an endless stream. -/
def reach (s : Sock) (want j : Nat) : Nat := ∑ i ∈ Finset.range j, s.size want i

theorem size_pos (s : Sock) {want : Nat} (h : 0 < want) (i : Nat) : 0 < s.size want i := by
  unfold size
  omega

theorem reach_succ (s : Sock) (want j : Nat) :
    s.reach want (j + 1) = s.size want 0 + (s.read want).2.reach want j := by
  unfold reach
  rw [Finset.sum_range_succ', Nat.add_comm]
  rfl

end Sock

/-- The read loop. `stop count` is the test made after a read with the number
of bytes read so far: leave the loop, go on, or no result (the counter has
left its range). The result is the connection, the block and the count. -/
def readUntil (want : Nat) (stop : Nat → Option Bool) :
    Nat → Sock → Block → Nat → Option (Sock × Block × Nat)
  | 0, _, _, _ => none
  | fuel + 1, sock, block, count =>
      let (bytes, sock) := sock.read want
      if bytes = [] then some (sock, block, count)
      else do
        let block ← block.write count bytes
        let count := count + bytes.length
        if ← stop count then return (sock, block, count)
        else readUntil want stop fuel sock block count

variable {want : Nat} {stop : Nat → Option Bool}

/-- At the end of the stream the loop is left. -/
theorem readUntil_nil {fuel : Nat} (hfuel : 0 < fuel) {sock : Sock} (h : sock.stream = [])
    (block : Block) (count : Nat) :
    readUntil want stop fuel sock block count = some ((sock.read want).2, block, count) := by
  rcases fuel with _ | fuel
  · omega
  · simp [readUntil, Sock.read, h]

/-- One round that reads something. -/
theorem readUntil_succ {fuel : Nat} {sock : Sock} {block : Block} {count : Nat}
    (h : sock.stream ≠ []) (hwant : 0 < want) :
    readUntil want stop (fuel + 1) sock block count =
      (block.write count (sock.read want).1).bind fun block' =>
        (stop (count + (sock.read want).1.length)).bind fun b =>
          if b then some ((sock.read want).2, block', count + (sock.read want).1.length)
          else readUntil want stop fuel (sock.read want).2 block'
            (count + (sock.read want).1.length) := by
  have hne : ¬ (sock.read want).1 = [] := by
    have hpos := sock.size_pos hwant 0
    intro hnil
    rcases List.take_eq_nil_iff.mp hnil with h0 | h0
    · omega
    · exact h h0
  rw [readUntil]
  simp only [hne, if_false, Option.bind_eq_bind, Option.pure_def]

theorem readUntil_cap {fuel : Nat} {sock sock' : Sock} {block block' : Block} {count count' : Nat}
    (h : readUntil want stop fuel sock block count = some (sock', block', count')) :
    block'.cap = block.cap := by
  induction fuel generalizing sock block count with
  | zero => simp [readUntil] at h
  | succ fuel ih =>
      unfold readUntil at h
      dsimp only at h
      split at h
      · cases h
        rfl
      · simp only [Option.bind_eq_bind, Option.bind_eq_some_iff, Option.pure_def] at h
        rcases h with ⟨block₁, hwrite, b, -, h⟩
        have hcap := (Block.write_eq_some_iff.mp hwrite).2.2.1
        split at h
        · cases h
          exact hcap
        · rw [ih h, hcap]

/-- What a round reads. -/
theorem Sock.read_length (s : Sock) (want : Nat) :
    (s.read want).1.length = min (s.size want 0) s.stream.length := List.length_take

/-- The step lemma: a round with room in the block stores what it reads. -/
theorem readUntil_round {fuel : Nat} {sock : Sock} {block : Block} {count : Nat}
    (h : sock.stream ≠ []) (hwant : 0 < want) (hcount : count ≤ block.bytes.length)
    (hroom : count + (sock.read want).1.length ≤ block.cap) :
    ∃ block', block'.cap = block.cap ∧
      block'.bytes = patch block.bytes count (sock.read want).1 ∧
      count + (sock.read want).1.length ≤ block'.bytes.length ∧
      readUntil want stop (fuel + 1) sock block count =
        (stop (count + (sock.read want).1.length)).bind fun b =>
          if b then some ((sock.read want).2, block', count + (sock.read want).1.length)
          else readUntil want stop fuel (sock.read want).2 block'
            (count + (sock.read want).1.length) := by
  rcases Option.isSome_iff_exists.mp (Block.write_isSome hcount hroom) with ⟨block', hwrite⟩
  rcases Block.write_eq_some_iff.mp hwrite with ⟨-, -, hcap, hbytes⟩
  refine ⟨block', hcap, hbytes, ?_, ?_⟩
  · rw [hbytes, patch_length hcount]
    exact Nat.le_max_right _ _
  · rw [readUntil_succ h hwant, hwrite, Option.bind_some]

/-- The rest of the stream fits into the block and does not take the counter
out of its range: the loop reads it whole, however it is cut. -/
theorem readUntil_all {fuel : Nat} {sock : Sock} {block : Block} {count : Nat}
    (hwant : 0 < want) (hfuel : sock.stream.length < fuel) (hcount : count ≤ block.bytes.length)
    (hfits : count + sock.stream.length ≤ block.cap)
    (hstop : ∀ c, count < c → c < count + sock.stream.length → stop c = some false)
    (hend : sock.stream ≠ [] → (stop (count + sock.stream.length)).isSome) :
    ∃ sock' block', readUntil want stop fuel sock block count =
        some (sock', block', count + sock.stream.length) ∧ sock'.stream = [] ∧
      block'.cap = block.cap ∧ block'.bytes = patch block.bytes count sock.stream := by
  induction fuel generalizing sock block count with
  | zero => omega
  | succ fuel ih =>
      by_cases hnil : sock.stream = []
      · refine ⟨(sock.read want).2, block, ?_, ?_, rfl, ?_⟩
        · rw [readUntil_nil (Nat.succ_pos _) hnil, hnil]
          rfl
        · simp [Sock.read, hnil]
        · rw [hnil, patch_nil]
      · have hsize := sock.size_pos hwant 0
        have hlen := sock.read_length want
        have hpos : 0 < sock.stream.length := List.length_pos_of_ne_nil hnil
        have hsplit : (sock.read want).1 ++ (sock.read want).2.stream = sock.stream :=
          List.take_append_drop _ _
        have hsum := congrArg List.length hsplit
        rw [List.length_append] at hsum
        rcases @readUntil_round want stop fuel sock block count hnil hwant hcount (by omega)
          with ⟨block', hcap, hbytes, hle, hround⟩
        rw [hround]
        have hb : ∃ b, stop (count + (sock.read want).1.length) = some b ∧
            (b = true → (sock.read want).2.stream = []) := by
          rcases Nat.lt_or_ge (sock.read want).1.length sock.stream.length with hlt | hge
          · exact ⟨false, hstop _ (by omega) (by omega), by simp⟩
          · -- this round reads the last bytes
            have hall : (sock.read want).1.length = sock.stream.length := by omega
            rw [hall]
            rcases Option.isSome_iff_exists.mp (hend hnil) with ⟨b, hb⟩
            exact ⟨b, hb, fun _ => List.eq_nil_of_length_eq_zero (by omega)⟩
        rcases hb with ⟨b, hb, hlast⟩
        rw [hb, Option.bind_some]
        cases b with
        | true =>
            have hrest := hlast rfl
            rw [hrest, List.append_nil] at hsplit
            refine ⟨(sock.read want).2, block', ?_, hrest, hcap, ?_⟩
            · rw [if_pos rfl, hsplit]
            · rw [hbytes, hsplit]
        | false =>
            rw [if_neg (by simp)]
            rcases @ih (sock.read want).2 block' _ (by omega) hle (by rw [hcap]; omega)
                (by intro c h₁ h₂; exact hstop c (by omega) (by omega))
                (by intro _; rw [Nat.add_assoc, hsum]; exact hend hnil) with
              ⟨sock', block'', hrun, hempty, hcap', hbytes'⟩
            refine ⟨sock', block'', ?_, hempty, hcap'.trans hcap, ?_⟩
            · rw [hrun, Nat.add_assoc, hsum]
            · rw [hbytes', hbytes, patch_patch hcount, hsplit]

/-- The reads happen to end where the loop should stop: it takes exactly the
first message. -/
theorem readUntil_exact {fuel j : Nat} {sock : Sock} {block : Block} {count : Nat}
    {first rest : List UInt8} (hwant : 0 < want) (hstream : sock.stream = first ++ rest)
    (hfirst : first ≠ []) (hj : sock.reach want j = first.length)
    (hfuel : first.length < fuel) (hcount : count ≤ block.bytes.length)
    (hfits : count + first.length ≤ block.cap)
    (hstop : ∀ c, count < c → c < count + first.length → stop c = some false)
    (hend : stop (count + first.length) = some true) :
    ∃ sock' block', readUntil want stop fuel sock block count =
        some (sock', block', count + first.length) ∧ sock'.stream = rest ∧
      block'.cap = block.cap ∧ block'.bytes = patch block.bytes count first := by
  -- on the reads that the first message takes
  induction j generalizing fuel sock block count first with
  | zero =>
      have h0 : first.length = 0 := hj.symm
      exact absurd (List.eq_nil_of_length_eq_zero h0) hfirst
  | succ j ih =>
      have hpos : 0 < first.length := List.length_pos_of_ne_nil hfirst
      have hsize := sock.size_pos hwant 0
      rw [Sock.reach_succ] at hj
      have hne : sock.stream ≠ [] := by
        rw [hstream]
        simp [hfirst]
      have hread : (sock.read want).1 = first.take (sock.size want 0) := by
        show sock.stream.take _ = _
        rw [hstream, List.take_append_of_le_length (by omega)]
      have hrest : (sock.read want).2.stream = first.drop (sock.size want 0) ++ rest := by
        show sock.stream.drop _ = _
        rw [hstream, List.drop_append_of_le_length (by omega)]
      have hlen : (sock.read want).1.length = sock.size want 0 := by
        rw [hread, List.length_take]
        omega
      obtain ⟨fuel, rfl⟩ : ∃ f, fuel = f + 1 := ⟨fuel - 1, by omega⟩
      rcases @readUntil_round want stop fuel sock block count hne hwant hcount (by omega)
        with ⟨block', hcap, hbytes, hle, hround⟩
      rw [hround, hlen]
      rw [hlen] at hle
      rcases Nat.lt_or_ge (sock.size want 0) first.length with hlt | hge
      · -- the message goes on
        rw [hstop _ (by omega) (by omega), Option.bind_some, if_neg (by simp)]
        have hdrop : (first.drop (sock.size want 0)).length =
            first.length - sock.size want 0 := List.length_drop
        have hdropne : first.drop (sock.size want 0) ≠ [] := by
          intro hnil
          rw [hnil] at hdrop
          simp only [List.length_nil] at hdrop
          omega
        have hj' : (sock.read want).2.reach want j = (first.drop (sock.size want 0)).length := by
          omega
        rcases @ih fuel (sock.read want).2 block' _ _ hrest hdropne hj' (by omega) hle
            (by rw [hcap]; omega)
            (by intro c h₁ h₂; exact hstop c (by omega) (by omega))
            (by rw [hdrop, Nat.add_assoc, Nat.add_sub_cancel' (by omega)]; exact hend) with
          ⟨sock', block'', hrun, hempty, hcap', hbytes'⟩
        refine ⟨sock', block'', ?_, hempty, hcap'.trans hcap, ?_⟩
        · rw [hrun, hdrop, Nat.add_assoc, Nat.add_sub_cancel' (by omega)]
        · have hpatch := @patch_patch block.bytes (sock.read want).1
            (first.drop (sock.size want 0)) count hcount
          rw [hlen] at hpatch
          rw [hbytes', hbytes, hpatch, hread, List.take_append_drop]
      · -- the message ends with this read
        have hall : sock.size want 0 = first.length := by omega
        rw [hall, hend, Option.bind_some, if_pos rfl]
        refine ⟨(sock.read want).2, block', rfl, ?_, hcap, ?_⟩
        · rw [hrest, hall, List.drop_length, List.nil_append]
        · rw [hbytes, hread, hall, List.take_length]

/-- What any run of the loop leaves: it has read a prefix of the stream, up to
where some number of reads got, and stopped there for a reason. -/
theorem readUntil_spec {fuel : Nat} {sock sock' : Sock} {block block' : Block} {count count' : Nat}
    (hwant : 0 < want)
    (h : readUntil want stop fuel sock block count = some (sock', block', count')) :
    ∃ j, count' = count + min sock.stream.length (sock.reach want j) ∧
      sock'.stream = sock.stream.drop (count' - count) ∧
      block'.cap = block.cap ∧
      block'.bytes = patch block.bytes count (sock.stream.take (count' - count)) ∧
      (sock.stream = [] ∨ (stop count').isSome) ∧
      (sock'.stream = [] ∨ stop count' = some true) := by
  induction fuel generalizing sock block count with
  | zero => simp [readUntil] at h
  | succ fuel ih =>
      by_cases hnil : sock.stream = []
      · rw [readUntil_nil (Nat.succ_pos _) hnil] at h
        cases h
        refine ⟨0, by simp [hnil], ?_, rfl, ?_, Or.inl hnil, Or.inl ?_⟩
        · simp [Sock.read, hnil]
        · simp [hnil, patch_nil]
        · simp [Sock.read, hnil]
      · rw [readUntil_succ hnil hwant] at h
        rcases Option.bind_eq_some_iff.mp h with ⟨block₁, hwrite, h⟩
        rcases Option.bind_eq_some_iff.mp h with ⟨b, hb, h⟩
        rcases Block.write_eq_some_iff.mp hwrite with ⟨hoff, -, hcap, hbytes⟩
        have hlen := sock.read_length want
        have hread : (sock.read want).1 = sock.stream.take (sock.read want).1.length := by
          rw [hlen]
          show sock.stream.take _ = _
          rw [List.take_eq_take_min]
        have hrest : (sock.read want).2.stream =
            sock.stream.drop (sock.read want).1.length := by
          rw [hlen]
          show sock.stream.drop _ = _
          rw [List.drop_eq_drop_min]
        have hdrop := congrArg List.length hrest
        rw [List.length_drop] at hdrop
        cases b with
        | true =>
            -- left after this read
            simp only [if_true, Option.some.injEq, Prod.mk.injEq] at h
            rcases h with ⟨rfl, rfl, rfl⟩
            refine ⟨1, ?_, ?_, hcap, ?_, Or.inr (by simp [hb]), Or.inr hb⟩
            · rw [Sock.reach_succ, hlen, Nat.min_comm]
              simp [Sock.reach]
            · rw [Nat.add_sub_cancel_left]
              exact hrest
            · rw [Nat.add_sub_cancel_left, hbytes, ← hread]
        | false =>
            simp only [Bool.false_eq_true, if_false] at h
            rcases ih h with ⟨j, hcount', hstream', hcap', hbytes', hsome, hwhy⟩
            refine ⟨j + 1, ?_, ?_, hcap'.trans hcap, ?_, Or.inr ?_, hwhy⟩
            · rw [Sock.reach_succ]
              omega
            · rw [hstream', hrest, List.drop_drop]
              congr 1
              omega
            · have hsub : count' - count =
                  (sock.read want).1.length + (count' - (count + (sock.read want).1.length)) := by
                omega
              rw [hbytes', hbytes, patch_patch hoff, hsub, List.take_add, ← hread, hrest]
            · rcases hsome with hempty | hsome
              · have hz : count' = count + (sock.read want).1.length := by
                  rw [hempty] at hcount'
                  simpa using hcount'
                rw [hz, hb]
                rfl
              · exact hsome

/-! ## A loop that always asks for the same number of bytes -/

namespace Sock

/-- The connection after `j` reads. -/
def after (s : Sock) (want j : Nat) : Sock :=
  ⟨s.stream.drop (s.reach want j), fun i => s.cuts (i + j)⟩

theorem reach_one (s : Sock) (want : Nat) : s.reach want 1 = s.size want 0 := by
  simp [reach]

theorem reach_mono (s : Sock) (want : Nat) {i j : Nat} (h : i ≤ j) :
    s.reach want i ≤ s.reach want j := by
  induction h with
  | refl => exact Nat.le_refl _
  | @step j _ ih =>
      have hsucc : s.reach want (j + 1) = s.reach want j + s.size want j := Finset.sum_range_succ _ _
      show s.reach want i ≤ s.reach want (j + 1)
      omega

theorem le_reach (s : Sock) (h : 0 < want) (j : Nat) : j ≤ s.reach want j := by
  induction j with
  | zero => exact Nat.zero_le _
  | succ j ih =>
      have hsize := s.size_pos h j
      have hsucc : s.reach want (j + 1) = s.reach want j + s.size want j := Finset.sum_range_succ _ _
      omega

/-- Some read passes the bytes wanted. -/
theorem exists_passing (s : Sock) {count : Nat} (h : count < want) :
    ∃ j, count + s.reach want j < want ∧ want ≤ count + s.reach want (j + 1) := by
  -- if none does, every number of reads falls short
  by_contra hnone
  have hshort : ∀ j, count + s.reach want j < want := by
    intro j
    induction j with
    | zero =>
        rw [reach, Finset.range_zero, Finset.sum_empty]
        exact h
    | succ j ih =>
        by_contra hpast
        exact hnone ⟨j, ih, Nat.le_of_not_lt hpast⟩
  have hlast := hshort want
  have hle := s.le_reach (Nat.lt_of_le_of_lt (Nat.zero_le _) h) want
  omega

theorem passing_unique (s : Sock) {i j : Nat} (hi : s.reach want i < want)
    (hi' : want ≤ s.reach want (i + 1)) (hj : s.reach want j < want)
    (hj' : want ≤ s.reach want (j + 1)) : i = j := by
  rcases Nat.lt_trichotomy i j with hlt | heq | hgt
  · have hmono := s.reach_mono want (show i + 1 ≤ j from hlt)
    omega
  · exact heq
  · have hmono := s.reach_mono want (show j + 1 ≤ i from hgt)
    omega

theorem after_succ (s : Sock) (want j : Nat) :
    s.after want (j + 1) = (s.read want).2.after want j := by
  unfold after
  rw [reach_succ, ← List.drop_drop]
  congr 1

theorem read_rest_length (s : Sock) (want : Nat) :
    (s.read want).2.stream.length = s.stream.length - s.size want 0 := List.length_drop

end Sock

section Threshold

variable {limit : Nat}
  (hstop : ∀ c, stop c = if c ≤ limit then some (decide (want ≤ c)) else none)
include hstop

/-- Where the loop has got to when it is left. -/
theorem readUntil_stops {fuel j : Nat} {sock sock' : Sock} {block block' : Block}
    {count count' : Nat} (hlt : count < want)
    (h : readUntil want stop fuel sock block count = some (sock', block', count'))
    (hj : count + sock.reach want j < want) (hj' : want ≤ count + sock.reach want (j + 1)) :
    count' = count + min sock.stream.length (sock.reach want (j + 1)) ∧
      (want ≤ count' → sock' = sock.after want (j + 1)) := by
  induction fuel generalizing sock block count j with
  | zero => simp [readUntil] at h
  | succ fuel ih =>
      by_cases hnil : sock.stream = []
      · rw [readUntil_nil (Nat.succ_pos _) hnil, Option.some.injEq, Prod.mk.injEq,
          Prod.mk.injEq] at h
        rw [hnil, List.length_nil, Nat.zero_min, ← h.2.2]
        exact ⟨rfl, fun hle => absurd hle (Nat.not_le.mpr hlt)⟩
      · rw [readUntil_succ hnil (by omega)] at h
        rcases Option.bind_eq_some_iff.mp h with ⟨block₁, -, h⟩
        rcases Option.bind_eq_some_iff.mp h with ⟨b, hb, h⟩
        have hlen := sock.read_length want
        have hrest := sock.read_rest_length want
        have hone := sock.reach_one want
        have hdecide : b = decide (want ≤ count + (sock.read want).1.length) := by
          rw [hstop] at hb
          split at hb
          · exact (Option.some.inj hb).symm
          · simp at hb
        by_cases hpast : want ≤ count + (sock.read want).1.length
        · -- left after this read, which is the one that passes
          rw [hdecide, decide_eq_true hpast, if_pos rfl, Option.some.injEq, Prod.mk.injEq,
            Prod.mk.injEq] at h
          have hj0 : j = 0 := by
            by_contra hpos
            have hmono := sock.reach_mono want (Nat.one_le_iff_ne_zero.mpr hpos)
            omega
          rw [hj0, Nat.zero_add, hone]
          refine ⟨by omega, fun _ => ?_⟩
          rw [← h.1, Sock.after, hone]
          rfl
        · rw [hdecide, decide_eq_false hpast, if_neg (by simp)] at h
          by_cases hwhole : (sock.read want).1.length = sock.size want 0
          · rcases j with _ | j
            · rw [Nat.zero_add, hone] at hj'
              omega
            · have hsucc := sock.reach_succ want j
              have hsucc' := sock.reach_succ want (j + 1)
              rcases @ih j _ _ _ (by omega) h (by omega) (by omega) with ⟨hcount, hafter⟩
              refine ⟨by omega, fun hle => ?_⟩
              rw [hafter hle]
              exact (sock.after_succ want (j + 1)).symm
          · -- the stream has ended with this read
            have hempty : (sock.read want).2.stream = [] :=
              List.eq_nil_of_length_eq_zero (by omega)
            rcases fuel with _ | fuel
            · simp [readUntil] at h
            · rw [readUntil_nil (Nat.succ_pos _) hempty, Option.some.injEq, Prod.mk.injEq,
                Prod.mk.injEq] at h
              have hmono := sock.reach_mono want (show 1 ≤ j + 1 by omega)
              exact ⟨by omega, fun hle => absurd hle (by omega)⟩

/-- The loop stays inside its block when no read that begins in front of the
bytes wanted ends behind it. -/
theorem readUntil_isSome {fuel : Nat} {sock : Sock} {block : Block} {count : Nat}
    (hlt : count < want) (hfuel : sock.stream.length < fuel) (hcount : count ≤ block.bytes.length)
    (hwithin : ∀ j, count + sock.reach want j < want →
      count + min sock.stream.length (sock.reach want (j + 1)) ≤ min block.cap limit) :
    (readUntil want stop fuel sock block count).isSome := by
  induction fuel generalizing sock block count with
  | zero => omega
  | succ fuel ih =>
      by_cases hnil : sock.stream = []
      · rw [readUntil_nil (Nat.succ_pos _) hnil]
        rfl
      · have hlen := sock.read_length want
        have hrest := sock.read_rest_length want
        have hone := sock.reach_one want
        have hpos := sock.size_pos (show 0 < want by omega) 0
        have hnonempty : 0 < sock.stream.length := List.length_pos_of_ne_nil hnil
        have hfirst := hwithin 0 (by rw [Sock.reach, Finset.range_zero, Finset.sum_empty]; omega)
        rw [Nat.zero_add, hone] at hfirst
        rcases @readUntil_round want stop fuel sock block count hnil (by omega) hcount (by omega)
          with ⟨block', hcap, -, hle, hround⟩
        rw [hround, hstop, if_pos (by omega), Option.bind_some]
        by_cases hpast : want ≤ count + (sock.read want).1.length
        · rw [decide_eq_true hpast]
          rfl
        · rw [decide_eq_false hpast, if_neg (by simp)]
          apply ih (by omega) (by omega) hle
          intro j hj
          rw [hcap]
          by_cases hwhole : (sock.read want).1.length = sock.size want 0
          · have hsucc := sock.reach_succ want j
            have hsucc' := sock.reach_succ want (j + 1)
            have h := hwithin (j + 1) (by omega)
            omega
          · have hempty : (sock.read want).2.stream.length = 0 := by omega
            rw [hempty, Nat.zero_min]
            omega

/-- A loop into an empty block, however it is cut. -/
theorem readUntil_within_iff {sock : Sock} {block : Block} (hwant : 0 < want) :
    (readUntil want stop (sock.stream.length + 1) sock block 0).isSome ↔
      ∀ j, sock.reach want j < want →
        min sock.stream.length (sock.reach want (j + 1)) ≤ min block.cap limit := by
  constructor
  · intro hsome i hi
    rcases Option.isSome_iff_exists.mp hsome with ⟨⟨sock', block', count⟩, h⟩
    rcases sock.exists_passing hwant with ⟨j, hj, hj'⟩
    rcases readUntil_stops hstop hwant h hj hj' with ⟨hcount, -⟩
    rcases readUntil_spec hwant h with ⟨-, -, -, hcap, hbytes, hrange, -⟩
    have hfits := block'.fits
    rw [hbytes, hcap, patch_length (Nat.zero_le _), Nat.zero_add, Nat.sub_zero,
      List.length_take, Nat.min_eq_left (by omega)] at hfits
    have hle := (Nat.max_le.mp hfits).2
    have hlimit : count ≤ limit := by
      rcases hrange with hnil | hrange
      · rw [hnil, List.length_nil] at hcount
        omega
      · rw [hstop] at hrange
        split at hrange
        · assumption
        · simp at hrange
    have hij : i ≤ j := by
      by_contra hgt
      have hmono := sock.reach_mono want (show j + 1 ≤ i by omega)
      omega
    have hmono := sock.reach_mono want (show i + 1 ≤ j + 1 by omega)
    omega
  · intro hwithin
    apply readUntil_isSome hstop hwant (Nat.lt_succ_self _) (Nat.zero_le _)
    intro j hj
    rw [Nat.zero_add] at hj ⊢
    exact hwithin j hj

/-- A loop that asks for its whole block every time leaves it unless the stream
ends with the block or some number of reads does. -/
theorem readUntil_fits_iff {sock : Sock} (hwant : 0 < want) :
    (readUntil want stop (sock.stream.length + 1) sock (Block.alloc want) 0).isSome ↔
      min sock.stream.length want ≤ limit ∧
        (sock.stream.length ≤ want ∨ ∃ j, sock.reach want j = want) := by
  rw [readUntil_within_iff hstop hwant]
  have hcap : (Block.alloc want).cap = want := rfl
  constructor
  · intro hwithin
    rcases sock.exists_passing hwant with ⟨j, hj, hj'⟩
    have h := hwithin j (by omega)
    refine ⟨by omega, ?_⟩
    rcases Nat.lt_or_ge want sock.stream.length with hlong | hshort
    · exact Or.inr ⟨j + 1, by omega⟩
    · exact Or.inl hshort
  · rintro ⟨hlimit, hends⟩ i hi
    rcases hends with hshort | ⟨j, hj⟩
    · omega
    · have hij : i < j := by
        by_contra hge
        have hmono := sock.reach_mono want (Nat.le_of_not_lt hge)
        omega
      have hmono := sock.reach_mono want (show i + 1 ≤ j from hij)
      omega

end Threshold

end CMem

import DnsCache.SecondReply

/-! # The work ring as a queue

Three pieces of code move the indices of `dns_array`: the `do_dns_search` of
both servers and the workers. Over any run of the server the ring is a FIFO
queue of fewer than `n` entries.

* `Fifo`: the ring after a trace, and what the next put or take does to it.
* `fifo_step`, `ring_is_fifo`: every step keeps the order, every run has it.
-/

namespace DnsCache

open Trace

/-! ## What the trace says -/

/-- The entries put into the ring, in order. -/
def putIn (tr : List Event) : List Entry :=
  tr.filterMap fun
    | .enqueued e => some e
    | _ => none

/-- The entries taken by the workers, in order. -/
def takenOut (tr : List Event) : List Entry :=
  tr.filterMap fun
    | .taken _ e => some e
    | _ => none

@[simp] theorem putIn_append (tr evs : List Event) :
    putIn (tr ++ evs) = putIn tr ++ putIn evs := List.filterMap_append

@[simp] theorem takenOut_append (tr evs : List Event) :
    takenOut (tr ++ evs) = takenOut tr ++ takenOut evs := List.filterMap_append

/-! ## The queue -/

/-- The two producers. -/
def Act.IsPut : Act → Prop
  | .enqueue _ => True
  | .enqueueUdp => True
  | _ => False

/-- The ring after the trace `tr`, and what can happen to it next. The untaken
entries lie in the slots from `iget` on, the next one to be written is not among
them; a put appends or, when it is the `n`-th untaken entry, takes the exit; a
take removes the oldest. -/
structure Fifo {n : Nat} (tr : List Event) (s : State n) : Prop where
  order : takenOut tr ++ s.ring.toList = putIn tr
  length_lt : s.ring.toList.length < n
  slots : ∀ k, k ≤ s.ring.toList.length →
    (s.ring.at_ k = s.ring.iput ↔ k = s.ring.toList.length)
  exits_iff : ∀ a s' evs, a.IsPut → step s a = some (s', evs) →
    (evs = [.exit] ↔ s.ring.toList.length + 1 = n)
  puts : ∀ a s' evs, a.IsPut → step s a = some (s', evs) → evs ≠ [.exit] →
    ∃ e, evs = [.enqueued e] ∧ s'.ring.toList = s.ring.toList ++ [e]
  takes : ∀ w s' evs, step s (.take w) = some (s', evs) →
    ∃ e, evs = [.taken w e] ∧ s.ring.toList = e :: s'.ring.toList

variable {n : Nat} {tr evs : List Event} {s s' : State n} {a : Act}

/-- What a producer's step does to the ring. -/
theorem put_step (ha : a.IsPut) (h : step s a = some (s', evs)) :
    ∃ e, (evs = [.exit] ∧ (s.ring.put e).Overrun) ∨
      (evs = [.enqueued e] ∧ ¬ (s.ring.put e).Overrun ∧ s'.ring = s.ring.put e) := by
  have hexited := (moves_of_step h).1
  cases a with
  | enqueue r =>
      simp only [step, hexited, Bool.false_eq_true, if_false, enqueueStep,
        Option.bind_eq_bind,
        Option.bind_eq_some_iff, Option.pure_def] at h
      rcases h with ⟨q, -, t, -, h⟩
      refine ⟨.tcp t, ?_⟩
      split at h
      · rename_i hover
        cases h
        exact .inl ⟨rfl, hover⟩
      · rename_i hroom
        cases h
        exact .inr ⟨rfl, hroom, rfl⟩
  | enqueueUdp =>
      simp only [step, hexited, Bool.false_eq_true, if_false, enqueueUdpStep] at h
      split at h
      · simp at h
      · rename_i name names _
        refine ⟨.udp name, ?_⟩
        split at h
        · rename_i hover
          cases h
          exact .inl ⟨rfl, hover⟩
        · rename_i hroom
          cases h
          exact .inr ⟨rfl, hroom, rfl⟩
  | _ => cases ha

/-- What a worker's take does to the ring. -/
theorem take_step {w : Nat} (h : step s (.take w) = some (s', evs)) :
    ∃ e, evs = [.taken w e] ∧ s.ring.take = some (e, s'.ring) := by
  have hexited := (moves_of_step h).1
  simp only [step, hexited, Bool.false_eq_true, if_false, takeStep] at h
  split at h
  · simp at h
  · split at h
    · simp at h
    · rename_i e ring htake
      cases h
      exact ⟨e, rfl, htake⟩

/-- The step lemma: the entries taken, followed by those in the ring, are the entries put. -/
theorem fifo_step (h : takenOut tr ++ s.ring.toList = putIn tr) (hm : Moves s a s' evs) :
    takenOut (tr ++ evs) ++ s'.ring.toList = putIn (tr ++ evs) := by
  -- a step that neither puts nor takes
  have keep : ∀ {evs₁ : List Event}, takenOut evs₁ = [] → putIn evs₁ = [] →
      takenOut (tr ++ evs₁) ++ s.ring.toList = putIn (tr ++ evs₁) := by
    intro evs₁ htaken hput
    rw [takenOut_append, putIn_append, htaken, hput, List.append_nil, List.append_nil, h]
  cases hm with
  | answered =>
      apply keep
      · split <;> rfl
      · split <;> rfl
  | tested =>
      apply keep
      · split <;> rfl
      · split <;> rfl
  | enqueued _ _ hroom =>
      rw [takenOut_append, putIn_append, ← h]
      show _ ++ (s.ring.put _).toList = _
      rw [RingBuf.toList_put hroom]
      simp [takenOut, putIn]
  | enqueuedUdp hroom =>
      rw [takenOut_append, putIn_append, ← h]
      show _ ++ (s.ring.put _).toList = _
      rw [RingBuf.toList_put hroom]
      simp [takenOut, putIn]
  | @taken w e ring hpc htake =>
      rw [RingBuf.toList_take htake] at h
      rw [takenOut_append, putIn_append, ← h]
      simp [takenOut, putIn]
  | _ => exact keep rfl rfl

/-- The run lemma. -/
theorem runs_order {kache : Kache} {udpBuf : List UInt8} {hn : 0 < n}
    (h : Runs kache udpBuf hn tr s) : takenOut tr ++ s.ring.toList = putIn tr := by
  refine @Run.invariant _ _ _ step _ _ (fun tr s => takenOut tr ++ s.ring.toList = putIn tr)
    ?_ ?_ _ _ h
  · simp [State.start, takenOut, putIn]
  · intro tr s a s' evs _ horder _ hstep
    exact fifo_step horder (moves_of_step hstep).2

/-- In every run, for every capacity and any number of producers and workers,
the ring is a FIFO queue that neither loses nor repeats an entry. -/
theorem ring_is_fifo {kache : Kache} {udpBuf : List UInt8} {hn : 0 < n}
    (h : Runs kache udpBuf hn tr s) : Fifo tr s := by
  have hlen := s.ring.length_toList
  constructor
  · exact runs_order h
  · rw [hlen]
    exact s.ring.count_lt
  · intro k hk
    rw [hlen] at hk ⊢
    constructor
    · intro hat
      by_contra hne
      exact RingBuf.at_ne_iput (Nat.lt_of_le_of_ne hk hne) hat
    · rintro rfl
      exact s.ring.at_count
  · intro a s' evs ha hstep
    rw [hlen]
    rcases put_step ha hstep with ⟨e, ⟨rfl, hover⟩ | ⟨rfl, hroom, -⟩⟩
    · exact iff_of_true rfl ((s.ring.overrun_put_iff e).mp hover)
    · refine iff_of_false (by simp) fun hfull => hroom ?_
      exact (s.ring.overrun_put_iff e).mpr hfull
  · intro a s' evs ha hstep hne
    rcases put_step ha hstep with ⟨e, ⟨hexit, -⟩ | ⟨hevs, hroom, hring⟩⟩
    · exact absurd hexit hne
    · exact ⟨e, hevs, by rw [hring, RingBuf.toList_put hroom]⟩
  · intro w s' evs hstep
    rcases take_step hstep with ⟨e, hevs, htake⟩
    exact ⟨e, hevs, RingBuf.toList_take htake⟩

/-- `ring_is_fifo` at two entries taken by two workers. -/
theorem ring_is_fifo_three : ∃ s : State 4, Fifo traceThree s := by
  rcases runs_three with ⟨s, h⟩
  exact ⟨s, ring_is_fifo h⟩

end DnsCache

import DnsCache.SecondReply

/-! # Sent once, closed once, freed once

The test `*number == 0` is made behind the unlock. Two workers that have both
counted down may both see the zero, or one may look at it after the other has
freed it.

* `LastAlone`: the condition under which a count down is harmless.
* `sent_once_of_lastAlone`: in a run whose count downs all meet it every request
  is answered, closed and freed at most once, and no freed counter is read.
* `reads_freed_of_not_alone`: a count down that does not meet it can always be
  followed by a read of the freed counter.
* `run_lastAlone`: a count down to zero is made alone when the other workers have
  not yet come to the ring.
-/

namespace DnsCache

open Trace

/-- The events that end the request `r`, or come after its end. -/
def Event.ends (r : Nat) : Event → Bool
  | .secondReply _ r' _ _ => r' == r
  | .closed r' => r' == r
  | .freed r' => r' == r
  | .readFreed _ r' => r' == r
  | _ => false

def endings (r : Nat) (tr : List Event) : List Event := tr.filter (Event.ends r)

@[simp] theorem endings_append (r : Nat) (tr evs : List Event) :
    endings r (tr ++ evs) = endings r tr ++ endings r evs := List.filter_append _ _

/-- The request `r` has at most one second reply, its connection is closed and
its blocks are freed at most once, and its counter is not read afterwards. -/
def AtMostOnce (r : Nat) (tr : List Event) : Prop :=
  secondReplies r tr ≤ 1 ∧ tr.count (.closed r) ≤ 1 ∧ tr.count (.freed r) ≤ 1 ∧
    ∀ w, .readFreed w r ∉ tr

/-- The condition: a worker that brings the counter of a request from 1 to 0
does so while no other worker is between its unlock and its test for the same
request. All other steps meet it. -/
def LastAlone {n : Nat} (s : State n) : Act → Prop
  | .decrement w => ∀ t q, (s.workers w).pc = .filled t → s.reqs t.req = some q → q.number = 1 →
      ∀ w' t', (s.workers w').pc = .unlocked t' → t'.req ≠ t.req
  | _ => True

variable {n : Nat} {tr evs : List Event} {s s' : State n} {ph : TcpEntry → Phase} {a : Act}

/-! ## At most once -/

theorem countP_endings {r : Nat} {p : Event → Bool} (hp : ∀ ev, p ev = true → ev.ends r = true)
    (tr : List Event) : tr.countP p = (endings r tr).countP p := by
  rw [endings, List.countP_filter]
  apply List.countP_congr
  intro ev _
  constructor
  · intro hev
    rw [hev, hp ev hev]
    rfl
  · intro hev
    rw [Bool.and_eq_true] at hev
    exact hev.1

/-- What the endings of a request may be: nothing yet, the close behind a first
reply without misses, or the second reply with its close and its frees. -/
def EndsOnce (r : Nat) (tr : List Event) : Prop :=
  endings r tr = [] ∨ endings r tr = [.closed r] ∨
    ∃ w head slots, endings r tr = [.secondReply w r head slots, .closed r, .freed r]

theorem EndsOnce.atMostOnce {r : Nat} (h : EndsOnce r tr) : AtMostOnce r tr := by
  have hsecond : secondReplies r tr = (endings r tr).countP (Event.second r) := by
    apply countP_endings
    intro ev hev
    cases ev with
    | secondReply => exact hev
    | _ => simp [Event.second] at hev
  have hclosed : tr.count (.closed r) = (endings r tr).count (.closed r) := by
    apply countP_endings
    intro ev hev
    rw [beq_iff_eq] at hev
    rw [hev]
    exact beq_self_eq_true r
  have hfreed : tr.count (.freed r) = (endings r tr).count (.freed r) := by
    apply countP_endings
    intro ev hev
    rw [beq_iff_eq] at hev
    rw [hev]
    exact beq_self_eq_true r
  have hread : ∀ w, .readFreed w r ∈ tr → .readFreed w r ∈ endings r tr := by
    intro w hw
    exact List.mem_filter.mpr ⟨hw, beq_self_eq_true r⟩
  unfold AtMostOnce
  rw [hsecond, hclosed, hfreed]
  rcases h with h | h | ⟨w, head, slots, h⟩
  · rw [h] at hread ⊢
    exact ⟨Nat.zero_le _, Nat.zero_le _, Nat.zero_le _, fun w hw =>
      absurd (hread w hw) List.not_mem_nil⟩
  · rw [h] at hread ⊢
    refine ⟨by simp [Event.second], by simp, by simp, fun w hw => ?_⟩
    simpa using hread w hw
  · rw [h] at hread ⊢
    refine ⟨by simp [Event.second], by simp, by simp, fun w hw => ?_⟩
    simpa using hread w hw

/-! ## The invariant -/

/-- The endings that belong to the state `q` of the request `r`. -/
def EndsAs (r : Nat) (tr : List Event) (q : Req) : Prop :=
  if q.nodes = [] then endings r tr = [.closed r]
  else if q.freed then
    ∃ w head slots, endings r tr = [.secondReply w r head slots, .closed r, .freed r]
  else endings r tr = []

/-- Once the counter of a request is at zero, one worker at most is still to
test or to send, and none when the blocks are gone. -/
structure Closing {n : Nat} (tr : List Event) (s : State n) : Prop where
  alone : ∀ w w' t t' q, (s.workers w).pc.counted = some t → (s.workers w').pc.counted = some t' →
    t'.req = t.req → s.reqs t.req = some q → q.number = 0 → w' = w
  live : ∀ w t q, (s.workers w).pc.counted = some t → s.reqs t.req = some q → q.freed = false
  ends : ∀ r q, s.reqs r = some q → EndsAs r tr q
  unknown : ∀ r, s.reqs r = none → endings r tr = []

theorem EndsAs.endsOnce {r : Nat} {q : Req} (h : EndsAs r tr q) : EndsOnce r tr := by
  unfold EndsAs at h
  split at h
  · exact .inr (.inl h)
  · split at h
    · exact .inr (.inr h)
    · exact .inl h

theorem Closing.endsOnce (h : Closing tr s) (r : Nat) : EndsOnce r tr := by
  cases hr : s.reqs r with
  | none => exact .inl (h.unknown r hr)
  | some q => exact (h.ends r q hr).endsOnce

/-- A step after which the requests' counters are the same and no further worker
has counted down. -/
theorem Closing.keep (h : Closing tr s)
    (hreqs : ∀ r q', s'.reqs r = some q' → ∃ q, s.reqs r = some q ∧ q'.number = q.number ∧
      q'.freed = q.freed ∧ q'.nodes = q.nodes)
    (hnone : ∀ r, s'.reqs r = none → s.reqs r = none)
    (hcounted : ∀ w t, (s'.workers w).pc.counted = some t → (s.workers w).pc.counted = some t)
    (hevs : ∀ r, endings r evs = []) : Closing (tr ++ evs) s' where
  alone w w' t t' q' hw hw' hreq hq' hzero := by
    rcases hreqs _ q' hq' with ⟨q, hq, hnumber, -⟩
    exact h.alone w w' t t' q (hcounted w t hw) (hcounted w' t' hw') hreq hq (by rw [← hnumber, hzero])
  live w t q' hw hq' := by
    rcases hreqs _ q' hq' with ⟨q, hq, -, hfreed, -⟩
    rw [hfreed]
    exact h.live w t q (hcounted w t hw) hq
  ends r q' hq' := by
    rcases hreqs r q' hq' with ⟨q, hq, -, hfreed, hnodes⟩
    have hends := h.ends r q hq
    unfold EndsAs at hends ⊢
    rw [endings_append, hevs, List.append_nil, hfreed, hnodes]
    exact hends
  unknown r hr := by
    rw [endings_append, hevs, List.append_nil]
    exact h.unknown r (hnone r hr)

/-- A new request. -/
theorem Closing.opened {r : Nat} {reply : FirstReply} (h : Closing tr s) (htracks : Tracks tr s ph)
    (hnew : s.reqs r = none) :
    Closing (tr ++ .firstReply r reply :: if reply.misses = [] then [.closed r] else [])
      (s.setReq r (Req.opened reply)) := by
  have hnobody : ∀ w t, (s.workers w).pc.counted = some t → t.req ≠ r := by
    rintro w t hw rfl
    exact not_put_of_new hnew (htracks.put_of_countdown (htracks.countdown_of_counted hw))
  have hother : ∀ r', r' ≠ r → endings r' (.firstReply r reply ::
      if reply.misses = [] then [.closed r] else []) = [] := by
    intro r' hr'
    have hne : ¬ r = r' := fun heq => hr' heq.symm
    split <;> simp [endings, Event.ends, hne]
  constructor
  · intro w w' t t' q hw hw' hreq hq
    rw [State.setReq_reqs, Function.update_of_ne (hnobody w t hw)] at hq
    exact h.alone w w' t t' q hw hw' hreq hq
  · intro w t q hw hq
    rw [State.setReq_reqs, Function.update_of_ne (hnobody w t hw)] at hq
    exact h.live w t q hw hq
  · intro r' q hq
    by_cases hr : r' = r
    · subst hr
      rw [State.setReq_reqs, Function.update_self, Option.some.injEq] at hq
      subst hq
      unfold EndsAs
      rw [endings_append, h.unknown r' hnew]
      by_cases hmisses : reply.misses = []
      · simp [Req.opened, hmisses, endings, Event.ends]
      · simp [Req.opened, hmisses, endings, Event.ends]
    · rw [State.setReq_reqs, Function.update_of_ne hr] at hq
      have hends := h.ends r' q hq
      unfold EndsAs at hends ⊢
      rw [endings_append, hother r' hr, List.append_nil]
      exact hends
  · intro r' hr'
    rcases req_none_of_update hr' with ⟨hr, hnone⟩
    rw [endings_append, hother r' hr, h.unknown r' hnone]
    rfl

/-- The workers behind their unlock after a count down: the one that counted, and
those that were there before. When the counter gets to zero, it is alone. -/
theorem counted_after {w : Nat} {t : TcpEntry} {q : Req} {m : UInt8} (hreqsOk : ReqsOk tr s)
    (hq : s.reqs t.req = some q) (hlive : q.freed = false)
    (halone : q.number = 1 → ∀ w' t', (s.workers w').pc = .unlocked t' → t'.req ≠ t.req)
    (hworkers : s'.workers = Function.update s.workers w ⟨.unlocked t, m⟩) {w' : Nat}
    {t' : TcpEntry} (h : (s'.workers w').pc.counted = some t') :
    w' = w ∧ t' = t ∨ w' ≠ w ∧ (s.workers w').pc.counted = some t' ∧
      (q.number = 1 → t'.req ≠ t.req) := by
  by_cases hw' : w' = w
  · rw [hworkers, hw', Function.update_self] at h
    exact .inl ⟨hw', (Option.some.inj h).symm⟩
  · rw [hworkers, Function.update_of_ne hw'] at h
    refine .inr ⟨hw', h, ?_⟩
    intro hone hreq
    rcases Pc.counted_eq_some_iff.mp h with hunlocked | hlast
    · exact halone hone w' t' hunlocked hreq
    · have hzero := hreqsOk.last w' t' q hlast (by rw [hreq, hq]) hlive
      omega

/-- A count down: it leaves its worker alone with a counter at zero. -/
theorem Closing.countDown {w : Nat} {t : TcpEntry} {q : Req} {miss : UInt8} {m : UInt8}
    (h : Closing tr s) (htracks : Tracks tr s ph) (hreqsOk : ReqsOk tr s)
    (hpc : (s.workers w).pc = .filled t) (hq : s.reqs t.req = some q)
    (halone : q.number = 1 → ∀ w' t', (s.workers w').pc = .unlocked t' → t'.req ≠ t.req)
    (hreqs : s'.reqs = Function.update s.reqs t.req
      (some { q with miss := miss, number := q.number - 1 }))
    (hworkers : s'.workers = Function.update s.workers w ⟨.unlocked t, m⟩) :
    Closing (tr ++ [.decremented w t]) s' := by
  have hpos := hreqsOk.number_pos_of_filled htracks hpc hq
  have hlive : q.freed = false := by
    by_contra hno
    have hzero := (hreqsOk.reqs _ q hq).freed (by simpa using hno)
    omega
  have hafter : ∀ {w' : Nat} {t' : TcpEntry}, (s'.workers w').pc.counted = some t' →
      w' = w ∧ t' = t ∨ w' ≠ w ∧ (s.workers w').pc.counted = some t' ∧
        (q.number = 1 → t'.req ≠ t.req) :=
    fun h => counted_after hreqsOk hq hlive halone hworkers h
  have hnone : ∀ r, endings r [.decremented w t] = [] := fun _ => rfl
  constructor
  · intro w₁ w₂ t₁ t₂ q' hw₁ hw₂ hreq hq' hzero
    by_cases hr : t₁.req = t.req
    · rw [hreqs, hr, Function.update_self, Option.some.injEq] at hq'
      subst hq'
      have hone : q.number = 1 := by
        dsimp only at hzero
        omega
      rcases hafter hw₁ with ⟨h₁, -⟩ | ⟨-, -, hne⟩
      · rcases hafter hw₂ with ⟨h₂, -⟩ | ⟨-, -, hne⟩
        · rw [h₁, h₂]
        · exact absurd (hreq.trans hr) (hne hone)
      · exact absurd hr (hne hone)
    · have hold : ∀ {w' t'}, (s'.workers w').pc.counted = some t' → t'.req = t₁.req →
          (s.workers w').pc.counted = some t' := by
        intro w' t' hw' hsame
        rcases hafter hw' with ⟨-, rfl⟩ | ⟨-, hcounted, -⟩
        · exact absurd hsame.symm hr
        · exact hcounted
      rw [hreqs, Function.update_of_ne hr] at hq'
      exact h.alone w₁ w₂ t₁ t₂ q' (hold hw₁ rfl) (hold hw₂ hreq) hreq hq' hzero
  · intro w₁ t₁ q' hw₁ hq'
    by_cases hr : t₁.req = t.req
    · rw [hreqs, hr, Function.update_self, Option.some.injEq] at hq'
      subst hq'
      exact hlive
    · rw [hreqs, Function.update_of_ne hr] at hq'
      rcases hafter hw₁ with ⟨-, rfl⟩ | ⟨-, hcounted, -⟩
      · exact absurd rfl hr
      · exact h.live w₁ t₁ q' hcounted hq'
  · intro r q' hq'
    rw [hreqs] at hq'
    rcases req_of_update (R := fun q q' => q'.freed = q.freed ∧ q'.nodes = q.nodes)
      (fun _ => ⟨rfl, rfl⟩) hq (by exact ⟨rfl, rfl⟩) hq' with ⟨q₀, hq₀, hfreed, hnodes⟩
    have hends := h.ends r q₀ hq₀
    unfold EndsAs at hends ⊢
    rw [endings_append, hnone, List.append_nil, hfreed, hnodes]
    exact hends
  · intro r hr
    rw [hreqs] at hr
    rw [endings_append, hnone, List.append_nil]
    exact h.unknown r (req_none_of_update hr).2

/-- The second reply of a request: nobody else is left to test its counter. -/
theorem Closing.finish {w : Nat} {t : TcpEntry} {q : Req} {head : List UInt8} {m : UInt8}
    {slots : List (Option (UInt32 × UInt32))} (h : Closing tr s) (htracks : Tracks tr s ph)
    (hreqsOk : ReqsOk tr s) (hpc : (s.workers w).pc = .last t) (hq : s.reqs t.req = some q)
    (hreqs : s'.reqs = Function.update s.reqs t.req (some { q with freed := true }))
    (hworkers : s'.workers = Function.update s.workers w ⟨.idle, m⟩) :
    Closing (tr ++ [.secondReply w t.req head slots, .closed t.req, .freed t.req]) s' := by
  have hcounted : (s.workers w).pc.counted = some t := Pc.counted_eq_some_iff.mpr (.inr hpc)
  have hlive := h.live w t q hcounted hq
  have hzero := hreqsOk.last w t q hpc hq hlive
  have hold : ∀ w' t', (s'.workers w').pc.counted = some t' →
      w' ≠ w ∧ (s.workers w').pc.counted = some t' := by
    intro w' t' ht'
    by_cases hw' : w' = w
    · subst hw'
      rw [hworkers, Function.update_self] at ht'
      simp [Pc.counted] at ht'
    · rw [hworkers, Function.update_of_ne hw'] at ht'
      exact ⟨hw', ht'⟩
  have hnobody : ∀ w' t', (s'.workers w').pc.counted = some t' → t'.req ≠ t.req := by
    intro w' t' ht' hreq
    rcases hold w' t' ht' with ⟨hne, ht'⟩
    exact hne (h.alone w w' t t' q hcounted ht' hreq hq hzero)
  have hother : ∀ r, r ≠ t.req →
      endings r [.secondReply w t.req head slots, .closed t.req, .freed t.req] = [] := by
    intro r hr
    have hne : ¬ t.req = r := fun heq => hr heq.symm
    simp [endings, Event.ends, hne]
  constructor
  · intro w₁ w₂ t₁ t₂ q' hw₁ hw₂ hreq hq'
    rw [hreqs, Function.update_of_ne (hnobody w₁ t₁ hw₁)] at hq'
    exact h.alone w₁ w₂ t₁ t₂ q' (hold w₁ t₁ hw₁).2 (hold w₂ t₂ hw₂).2 hreq hq'
  · intro w₁ t₁ q' hw₁ hq'
    rw [hreqs, Function.update_of_ne (hnobody w₁ t₁ hw₁)] at hq'
    exact h.live w₁ t₁ q' (hold w₁ t₁ hw₁).2 hq'
  · intro r q' hq'
    by_cases hr : r = t.req
    · subst hr
      rw [hreqs, Function.update_self, Option.some.injEq] at hq'
      subst hq'
      have hends := h.ends t.req q hq
      rcases count_lt_of_countdown htracks hq (htracks.countdown_of_counted hcounted) rfl with
        ⟨hlt, -⟩
      have hne : q.nodes ≠ [] := List.ne_nil_of_length_pos (Nat.zero_lt_of_lt hlt)
      have hempty : endings t.req tr = [] := by
        unfold EndsAs at hends
        rwa [if_neg hne, hlive, if_neg Bool.false_ne_true] at hends
      unfold EndsAs
      rw [if_neg hne, if_pos rfl, endings_append, hempty]
      exact ⟨w, head, slots, by simp [endings, Event.ends]⟩
    · rw [hreqs, Function.update_of_ne hr] at hq'
      have hends := h.ends r q' hq'
      unfold EndsAs at hends ⊢
      rw [endings_append, hother r hr, List.append_nil]
      exact hends
  · intro r hr
    rw [hreqs] at hr
    rcases req_none_of_update hr with ⟨hne, hnone⟩
    rw [endings_append, hother r hne, h.unknown r hnone]
    rfl

/-! ## Runs in which the last count down is made alone -/

/-- The step lemma. -/
theorem closing_step (h : Closing tr s) (htracks : Tracks tr s ph) (hreqsOk : ReqsOk tr s)
    (hok : LastAlone s a) (hm : Moves s a s' evs) : Closing (tr ++ evs) s' := by
  have hsame : ∀ r q', s.reqs r = some q' → ∃ q, s.reqs r = some q ∧ q'.number = q.number ∧
      q'.freed = q.freed ∧ q'.nodes = q.nodes := fun r q' hq' => ⟨q', hq', rfl, rfl, rfl⟩
  have hupdate : ∀ {r₀ : Nat} {q₀ q₁ : Req}, s.reqs r₀ = some q₀ → q₁.number = q₀.number →
      q₁.freed = q₀.freed → q₁.nodes = q₀.nodes → ∀ r q',
        Function.update s.reqs r₀ (some q₁) r = some q' → ∃ q, s.reqs r = some q ∧
          q'.number = q.number ∧ q'.freed = q.freed ∧ q'.nodes = q.nodes := by
    intro r₀ q₀ q₁ hq₀ hnumber hfreed hnodes r q' hq'
    exact req_of_update (R := fun q q' => q'.number = q.number ∧ q'.freed = q.freed ∧
      q'.nodes = q.nodes) (fun _ => ⟨rfl, rfl, rfl⟩) hq₀ ⟨hnumber, hfreed, hnodes⟩ hq'
  have hnone : ∀ {r₀ : Nat} {q₁ : Req} (r : Nat), Function.update s.reqs r₀ (some q₁) r = none →
      s.reqs r = none := fun r hr => (req_none_of_update hr).2
  have hcounted : ∀ {w : Nat} {wk : Worker},
      (∀ t, wk.pc.counted = some t → (s.workers w).pc.counted = some t) → ∀ w' t,
        (Function.update s.workers w wk w').pc.counted = some t →
          (s.workers w').pc.counted = some t := by
    intro w wk hwk w' t
    exact pc_of_update (p := (·.counted = some t)) (hwk t) w'
  cases hm with
  | refused => exact h.keep hsame (fun _ => id) (fun _ _ => id) fun _ => rfl
  | answered hnew => exact h.opened htracks hnew
  | enqueued hq =>
      exact h.keep (hupdate hq rfl rfl rfl) hnone (fun _ _ => id) fun _ => rfl
  | exits => exact h.keep hsame (fun _ => id) (fun _ _ => id) fun _ => rfl
  | ignored => exact h.keep hsame (fun _ => id) (fun _ _ => id) fun _ => rfl
  | datagram => exact h.keep hsame (fun _ => id) (fun _ _ => id) fun _ => rfl
  | enqueuedUdp => exact h.keep hsame (fun _ => id) (fun _ _ => id) fun _ => rfl
  | taken => exact h.keep hsame (fun _ => id) (hcounted fun _ => nofun) fun _ => rfl
  | resolvedUdp => exact h.keep hsame (fun _ => id) (hcounted fun _ => nofun) fun _ => rfl
  | resolved hpc hq =>
      exact h.keep (hupdate hq rfl rfl rfl) hnone (hcounted fun _ => nofun) fun _ => rfl
  | decremented hpc hq => exact h.countDown htracks hreqsOk hpc hq (hok _ _ hpc hq) rfl rfl
  | @tested w t q junk zero hpc hq =>
      -- the blocks are still there, so the test reads the counter
      have hself : (s.workers w).pc.counted = some t := Pc.counted_eq_some_iff.mpr (.inl hpc)
      rw [h.live w t q hself hq, if_neg Bool.false_ne_true]
      refine h.keep hsame (fun _ => id) (hcounted ?_) fun _ => rfl
      intro t' ht'
      cases zero with
      | false => simp [Pc.counted] at ht'
      | true => rwa [hpc]
  | finished hpc hq => exact h.finish htracks hreqsOk hpc hq rfl rfl

theorem closing_start (kache : Kache) (udpBuf : List UInt8) (h : 0 < n) :
    Closing [] (State.start kache udpBuf h) := by
  constructor <;> simp [State.start, endings, Pc.counted]

/-- The run lemma. -/
theorem runs_closing {kache : Kache} {udpBuf : List UInt8} {hn : 0 < n}
    (h : Run step LastAlone (State.start kache udpBuf hn) tr s) : Closing tr s := by
  refine @Run.invariant _ _ _ step _ _ Closing (closing_start kache udpBuf hn) ?_ _ _ h
  intro tr s a s' evs hrun hclosing hok hstep
  have hruns : Runs kache udpBuf hn tr s := hrun.mono fun _ _ _ => trivial
  rcases runs_tracks hruns with ⟨ph, htracks⟩
  exact closing_step hclosing htracks (runs_reqsOk hruns) hok (moves_of_step hstep).2

/-- In a run in which every last count down is made alone, a request is
answered, closed and freed at most once, and no worker reads its counter after
it has been freed. -/
theorem sent_once_of_lastAlone {kache : Kache} {udpBuf : List UInt8} {hn : 0 < n}
    (h : Run step LastAlone (State.start kache udpBuf hn) tr s) (r : Nat) : AtMostOnce r tr :=
  ((runs_closing h).endsOnce r).atMostOnce

/-! ## A number of workers -/

/-- The worker that makes the step. -/
def Act.worker : Act → Option Nat
  | .take w => some w
  | .lookup w _ _ => some w
  | .decrement w => some w
  | .test w _ => some w
  | .finish w _ _ => some w
  | _ => none

/-- A step changes no worker but its own. -/
theorem Moves.workers_of_ne {w : Nat} (hm : Moves s a s' evs) (hne : a.worker ≠ some w) :
    s'.workers w = s.workers w := by
  have hupdate : ∀ {w' : Nat} {wk : Worker}, some w' ≠ some w →
      Function.update s.workers w' wk w = s.workers w := fun h =>
    Function.update_of_ne (fun heq => h (congrArg some heq.symm)) _ _
  cases hm with
  | taken => exact hupdate hne
  | resolvedUdp => exact hupdate hne
  | resolved => exact hupdate hne
  | decremented => exact hupdate hne
  | tested => exact hupdate hne
  | finished => exact hupdate hne
  | _ => rfl

/-- The request whose counter a worker has still to test. -/
def Pc.toTest : Pc → Option Nat
  | .unlocked t => some t.req
  | _ => none

/-- `LastAlone` as it can be computed for the workers below `k`: the step is not
one of another worker, and a last count down finds none of them before its test. -/
def aloneBelow (k : Nat) (s : State n) (a : Act) : Bool :=
  a.worker.all (· < k) && match a with
    | .decrement w => match (s.workers w).pc with
        | .filled t => (s.reqs t.req).all fun q => q.number ≠ 1 ||
            (List.range k).all fun w' => (s.workers w').pc.toTest ≠ some t.req
        | _ => true
    | _ => true

/-- With no other worker at work that is enough. -/
theorem lastAlone_of_aloneBelow {k : Nat} (hidle : ∀ w ≥ k, (s.workers w).pc = .idle)
    (h : aloneBelow k s a = true) : LastAlone s a := by
  cases a with
  | decrement w =>
      intro t q hpc hq hone w' t' hpc' hreq
      have hw' : w' < k := by
        by_contra hge
        rw [hidle w' (Nat.le_of_not_lt hge)] at hpc'
        simp at hpc'
      simp only [aloneBelow, hpc, hq, Option.all_some, Bool.and_eq_true, Bool.or_eq_true,
        decide_eq_true_eq, List.all_eq_true, List.mem_range] at h
      rcases h.2 with hnumber | htested
      · exact hnumber hone
      · apply htested w' hw'
        rw [hpc', ← hreq]
        rfl
  | _ => trivial

/-- The run lemma: the other workers stay in front of the ring. -/
theorem run_lastAlone {k : Nat} {kache : Kache} {udpBuf : List UInt8} {hn : 0 < n}
    (h : Run step (fun s a => aloneBelow k s a = true) (State.start kache udpBuf hn) tr s) :
    Run step LastAlone (State.start kache udpBuf hn) tr s := by
  have hrun : Run step LastAlone (State.start kache udpBuf hn) tr s ∧
      ∀ w ≥ k, (s.workers w).pc = .idle := by
    refine @Run.invariant _ _ _ step _ _ (fun tr s =>
      Run step LastAlone (State.start kache udpBuf hn) tr s ∧
        ∀ w ≥ k, (s.workers w).pc = .idle) ⟨.nil, fun _ _ => rfl⟩ ?_ _ _ h
    rintro tr s a s' evs - ⟨hrun, hidle⟩ ha hstep
    refine ⟨.snoc hrun (lastAlone_of_aloneBelow hidle ha) hstep, ?_⟩
    intro w hw
    have hbelow := (Bool.and_eq_true_iff.mp ha).1
    rw [(moves_of_step hstep).2.workers_of_ne ?_, hidle w hw]
    intro hworker
    rw [hworker, Option.all_some, decide_eq_true_eq] at hbelow
    omega
  exact hrun.1

/-- `sent_once_of_lastAlone` at a request whose two entries two workers serve. -/
theorem sent_once_three : AtMostOnce 1 traceThree := by
  obtain ⟨r, hr, htr⟩ : ∃ r, exec (fun s a => if aloneBelow 2 s a = true then step s a else none)
      (State.start warmKache [] (Nat.succ_pos 3)) serveThree = some r ∧
        decide (r.2 = traceThree) = true := (Option.any_eq_true _ _).mp (by decide +kernel)
  have hrun := run_lastAlone (Run.of_guarded (Run.of_exec (fun _ _ _ => trivial) hr))
  rw [of_decide_eq_true htr] at hrun
  exact sent_once_of_lastAlone hrun 1

/-! ## When the last count down is not made alone -/

/-- A request for three names, its entries taken by three workers. All three
count down before any of them tests the counter; the workers 0 and 1 both see
the zero and send, the worker 2 looks at the counter afterwards. -/
def raceActs : List Act :=
  [.serve 1 ⟨requestBytes [nameUvw, nameXyz, nameUvw], fun _ => headLength⟩ 0,
    .enqueue 1, .enqueue 1, .enqueue 1, .take 0, .take 1, .take 2,
    .lookup 0 (some 5) 0, .lookup 1 (some 6) 0, .lookup 2 (some 5) 0,
    .decrement 0, .decrement 1, .decrement 2, .test 0 false, .test 1 false,
    .finish 0 true ([], []), .finish 1 true ([], []), .test 2 false]

/-- Its second reply is sent twice, its connection closed and its blocks freed
twice, and the freed counter is read. -/
theorem sent_twice : ∃ tr s, Runs coldKache [] (Nat.succ_pos 3) tr s ∧ secondReplies 1 tr = 2 ∧
    tr.count (.closed 1) = 2 ∧ tr.count (.freed 1) = 2 ∧ .readFreed 2 1 ∈ tr ∧
    ¬ AtMostOnce 1 tr := by
  rcases @runs_of_exec 4 coldKache [] (Nat.succ_pos 3) raceActs (fun tr => secondReplies 1 tr = 2 ∧
    tr.count (.closed 1) = 2 ∧ tr.count (.freed 1) = 2 ∧ .readFreed 2 1 ∈ tr) _
    (by decide +kernel) with ⟨tr, s, hrun, hsecond, hclosed, hfreed, hread⟩
  refine ⟨tr, s, hrun, hsecond, hclosed, hfreed, hread, ?_⟩
  rintro ⟨honce, -⟩
  omega

/-- From a state in which a worker may bring the counter to zero while another
one is between its unlock and its test, the server can go on to a second look
at the freed counter. -/
theorem reads_freed_of_not_alone {kache : Kache} {udpBuf : List UInt8} {hn : 0 < n}
    {w w' : Nat} {t t' : TcpEntry} {q : Req} (h : Runs kache udpBuf hn tr s)
    (hlive : s.exited = false) (hpc : (s.workers w).pc = .filled t)
    (hq : s.reqs t.req = some q) (hone : q.number = 1)
    (hpc' : (s.workers w').pc = .unlocked t') (hreq : t'.req = t.req) :
    ∃ evs s', Runs kache udpBuf hn (tr ++ evs) s' ∧ ¬ AtMostOnce t.req (tr ++ evs) := by
  have hfreed : q.freed = false := by
    by_contra hno
    have hzero := ((runs_reqsOk h).reqs _ q hq).freed (by simpa using hno)
    omega
  have hne : w' ≠ w := by
    rintro rfl
    rw [hpc] at hpc'
    simp at hpc'
  obtain ⟨r, hr, hmem⟩ : ∃ r, exec step s [.decrement w, .test w false, .finish w true ([], []),
      .test w' false] = some r ∧ .readFreed w' t.req ∈ r.2 := by
    simp [exec, step, decrementStep, testStep, finishStep, hlive, hpc, hq, hfreed, hone, hpc',
      hreq, Function.update_of_ne hne]
  refine ⟨r.2, r.1, h.append_exec (fun _ _ _ => trivial) hr, ?_⟩
  rintro ⟨-, -, -, hno⟩
  exact hno w' (List.mem_append_right _ hmem)

end DnsCache

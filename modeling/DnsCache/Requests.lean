import Mathlib.Data.List.Perm.Subperm
import DnsCache.Phases

/-! # What the blocks of a request hold

The counter, the slots and the freed mark of every request, in terms of what
has happened to its entries.

* `ReqOk`: the blocks of one request; `ReqsOk`: of all of them.
* `ReqOk.number_pos`: the counter is positive as long as an entry is missing.
* `reqsOk_step`, `runs_reqsOk`: every step keeps the invariant, every run has it.
-/

namespace DnsCache

open Trace

/-- The event is a second reply of the request `r`. -/
def Event.second (r : Nat) : Event → Bool
  | .secondReply _ r' _ _ => r' == r
  | _ => false

/-- How many second replies the request `r` has had. -/
def secondReplies (r : Nat) (tr : List Event) : Nat := tr.countP (Event.second r)

@[simp] theorem secondReplies_append (r : Nat) (tr evs : List Event) :
    secondReplies r (tr ++ evs) = secondReplies r tr + secondReplies r evs := List.countP_append

/-- The number of entries of the request `r` that were counted down. -/
def countedDown (r : Nat) (tr : List Event) : Nat := (countdown tr).countP (·.req == r)

@[simp] theorem countedDown_append (r : Nat) (tr evs : List Event) :
    countedDown r (tr ++ evs) = countedDown r tr + countedDown r evs := by
  unfold countedDown
  rw [countdown_append, List.countP_append]

/-- What a slot of `ipptr` holds once the lookups `results` have been made for
its entry. -/
def slotOf (t : TcpEntry) (results : List (Option UInt32)) : Option (UInt32 × UInt32) :=
  results.head?.map fun res => (t.index, res.getD dnsError)

/-- The blocks of the request `r` after the trace `tr`. -/
structure ReqOk (tr : List Event) (r : Nat) (q : Req) : Prop where
  reply : ∃ reply, (∀ reply', .firstReply r reply' ∈ tr ↔ reply' = reply) ∧
    reply.head = q.head ∧ reply.misses = q.nodes
  put_le : q.i ≤ q.nodes.length
  slots_length : q.ipptr.length = q.nodes.length
  slots : ∀ t, q.entry r t.count = some t → q.ipptr[t.count]? = some (slotOf t (lookups t tr))
  number : q.number = q.nodes.length - countedDown r tr
  sent : q.nodes ≠ [] → (q.freed = true ↔ secondReplies r tr ≠ 0)
  freed : q.freed = true → q.number = 0

/-- The blocks of all requests. A request that is not there has had no reply,
and a worker about to send a second one has seen the counter at zero. -/
structure ReqsOk {n : Nat} (tr : List Event) (s : State n) : Prop where
  reqs : ∀ r q, s.reqs r = some q → ReqOk tr r q
  unknown : ∀ r, s.reqs r = none → (∀ reply, .firstReply r reply ∉ tr) ∧ secondReplies r tr = 0
  last : ∀ w t q, (s.workers w).pc = .last t → s.reqs t.req = some q → q.freed = false →
    q.number = 0

variable {n : Nat} {tr evs : List Event} {s s' : State n} {a : Act} {ph : TcpEntry → Phase}

/-! ## The counter -/

/-- The entries of a request that were counted down stand at different positions. -/
theorem counts_nodup {r : Nat} {q : Req} (h : Tracks tr s ph) (hq : s.reqs r = some q) :
    (((countdown tr).filter (·.req == r)).map (·.count)).Nodup := by
  apply List.Nodup.map_on _ (h.countdown_nodup.filter _)
  intro t ht t' ht' hcount
  rw [List.mem_filter, beq_iff_eq] at ht ht'
  have hent := (h.put_of_countdown ht.1).entry (ht.2.symm ▸ hq)
  have hent' := (h.put_of_countdown ht'.1).entry (ht'.2.symm ▸ hq)
  rw [ht.2, hcount] at hent
  rw [ht'.2] at hent'
  exact Option.some.inj (hent.symm.trans hent')

theorem count_lt_of_countdown {r : Nat} {q : Req} {t : TcpEntry} (h : Tracks tr s ph)
    (hq : s.reqs r = some q) (ht : t ∈ countdown tr) (hr : t.req = r) :
    t.count < q.nodes.length ∧ q.entry r t.count = some t := by
  subst hr
  have hent := (h.put_of_countdown ht).entry hq
  exact ⟨(Req.entry_req hent).2.2.2, hent⟩

/-- While an entry of the request has not been counted down, the counter is positive. -/
theorem ReqOk.number_pos {r : Nat} {q : Req} {t : TcpEntry} (h : ReqOk tr r q)
    (htracks : Tracks tr s ph) (hq : s.reqs r = some q) (hent : q.entry r t.count = some t)
    (ht : t ∉ countdown tr) : 0 < q.number := by
  -- the missing position and those counted down are different and below the total
  have hnodup : (t.count :: ((countdown tr).filter (·.req == r)).map (·.count)).Nodup := by
    refine List.nodup_cons.mpr ⟨?_, counts_nodup htracks hq⟩
    intro hmem
    rcases List.mem_map.mp hmem with ⟨t', ht', hcount⟩
    rw [List.mem_filter, beq_iff_eq] at ht'
    have hent' := (count_lt_of_countdown htracks hq ht'.1 ht'.2).2
    rw [hcount, hent] at hent'
    cases hent'
    exact ht ht'.1
  have hsub : t.count :: ((countdown tr).filter (·.req == r)).map (·.count) ⊆
      List.range q.nodes.length := by
    intro k hk
    rw [List.mem_range]
    rcases List.mem_cons.mp hk with rfl | hk
    · exact (Req.entry_req hent).2.2.2
    · rcases List.mem_map.mp hk with ⟨t', ht', rfl⟩
      rw [List.mem_filter, beq_iff_eq] at ht'
      exact (count_lt_of_countdown htracks hq ht'.1 ht'.2).1
  have hle := (List.Nodup.subperm hnodup hsub).length_le
  rw [List.length_cons, List.length_map, List.length_range, ← List.countP_eq_length_filter] at hle
  have hle' : countedDown r tr + 1 ≤ q.nodes.length := hle
  rw [h.number]
  omega

/-- With the counter at zero every entry has been counted down. -/
theorem ReqOk.all_counted {r : Nat} {q : Req} {t : TcpEntry} (h : ReqOk tr r q)
    (htracks : Tracks tr s ph) (hq : s.reqs r = some q) (hzero : q.number = 0)
    (hent : q.entry r t.count = some t) : t ∈ countdown tr := by
  by_contra hno
  have hpos := h.number_pos htracks hq hent hno
  omega

theorem ReqsOk.number_pos_of_filled {w : Nat} {t : TcpEntry} {q : Req} (h : ReqsOk tr s)
    (htracks : Tracks tr s ph) (hpc : (s.workers w).pc = .filled t) (hq : s.reqs t.req = some q) :
    0 < q.number :=
  (h.reqs _ q hq).number_pos htracks hq ((htracks.put_of_filled hpc).entry hq)
    (htracks.countdown_filled hpc)

theorem ReqsOk.number_pos_of_taken {w : Nat} {t : TcpEntry} {q : Req} (h : ReqsOk tr s)
    (htracks : Tracks tr s ph) (hpc : (s.workers w).pc = .taken (.tcp t))
    (hq : s.reqs t.req = some q) : 0 < q.number :=
  (h.reqs _ q hq).number_pos htracks hq ((htracks.put_of_taken hpc).entry hq)
    (htracks.countdown_taken hpc)

/-! ## Steps that do not concern a request -/

/-- Events that say nothing about the blocks of the request `r`. -/
structure Silent (r : Nat) (evs : List Event) : Prop where
  first : ∀ reply, .firstReply r reply ∉ evs
  lookups : ∀ t, t.req = r → lookups t evs = []
  countdown : countedDown r evs = 0
  second : secondReplies r evs = 0

theorem silent_nil (r : Nat) : Silent r [] := ⟨fun _ => List.not_mem_nil, fun _ _ => rfl, rfl, rfl⟩

theorem silent_singleton {ev : Event} (hfirst : ∀ r reply, ev ≠ .firstReply r reply)
    (hlookups : ∀ t, DnsCache.lookups t [ev] = []) (hcountdown : DnsCache.countdown [ev] = [])
    (hsecond : ∀ r, ev.second r = false) (r : Nat) : Silent r [ev] := by
  constructor
  · intro reply hmem
    exact hfirst r reply (List.mem_singleton.mp hmem).symm
  · exact fun t _ => hlookups t
  · unfold countedDown
    rw [hcountdown]
    rfl
  · unfold secondReplies
    simp [hsecond r]

theorem Silent.first_iff {r : Nat} (hevs : Silent r evs) (reply : FirstReply) :
    .firstReply r reply ∈ tr ++ evs ↔ .firstReply r reply ∈ tr := by
  rw [List.mem_append, or_iff_left (hevs.first reply)]

theorem ReqOk.frame {r : Nat} {q : Req} (h : ReqOk tr r q) (hevs : Silent r evs) :
    ReqOk (tr ++ evs) r q where
  reply := by
    rcases h.reply with ⟨reply, hmem, hreply⟩
    exact ⟨reply, fun reply' => (hevs.first_iff reply').trans (hmem reply'), hreply⟩
  put_le := h.put_le
  slots_length := h.slots_length
  slots t ht := by
    rw [lookups_append, hevs.lookups t (Req.entry_req ht).1, List.append_nil]
    exact h.slots t ht
  number := by rw [countedDown_append, hevs.countdown, Nat.add_zero, h.number]
  sent := by rw [secondReplies_append, hevs.second, Nat.add_zero]; exact h.sent
  freed := h.freed

/-- A step that leaves the requests alone. -/
theorem ReqsOk.keep (h : ReqsOk tr s) (hreqs : s'.reqs = s.reqs)
    (hlast : ∀ w t, (s'.workers w).pc = .last t → (s.workers w).pc = .last t)
    (hevs : ∀ r, Silent r evs) : ReqsOk (tr ++ evs) s' where
  reqs r q hq := by
    rw [hreqs] at hq
    exact (h.reqs r q hq).frame (hevs r)
  unknown r hr := by
    rw [hreqs] at hr
    refine ⟨fun reply => ?_, ?_⟩
    · rw [(hevs r).first_iff]
      exact (h.unknown r hr).1 reply
    · rw [secondReplies_append, (h.unknown r hr).2, (hevs r).second]
  last w t q hpc hq := by
    rw [hreqs] at hq
    exact h.last w t q (hlast w t hpc) hq

/-- A step that changes the request `r`. -/
theorem ReqsOk.change {r : Nat} {q' : Req} (h : ReqsOk tr s)
    (hreqs : s'.reqs = Function.update s.reqs r (some q')) (hself : ReqOk (tr ++ evs) r q')
    (hlast : ∀ w t, (s'.workers w).pc = .last t → (s.workers w).pc = .last t)
    (hzero : ∀ w t, (s.workers w).pc = .last t → t.req = r → q'.freed = false → q'.number = 0)
    (hevs : ∀ r', r' ≠ r → Silent r' evs) : ReqsOk (tr ++ evs) s' where
  reqs r' q hq := by
    by_cases hr : r' = r
    · subst hr
      rw [hreqs, Function.update_self, Option.some.injEq] at hq
      subst hq
      exact hself
    · rw [hreqs, Function.update_of_ne hr] at hq
      exact (h.reqs r' q hq).frame (hevs r' hr)
  unknown r' hr' := by
    rw [hreqs] at hr'
    rcases req_none_of_update hr' with ⟨hr, hnone⟩
    refine ⟨fun reply => ?_, ?_⟩
    · rw [(hevs r' hr).first_iff]
      exact (h.unknown r' hnone).1 reply
    · rw [secondReplies_append, (h.unknown r' hnone).2, (hevs r' hr).second]
  last w t q hpc hq hfreed := by
    by_cases hr : t.req = r
    · rw [hreqs, hr, Function.update_self, Option.some.injEq] at hq
      subst hq
      exact hzero w t (hlast w t hpc) hr hfreed
    · rw [hreqs, Function.update_of_ne hr] at hq
      exact h.last w t q (hlast w t hpc) hq hfreed

/-! ## The steps that concern a request -/

/-- A new request: none of its entries has been touched. -/
theorem reqOk_opened {r : Nat} {reply : FirstReply} (h : ReqsOk tr s) (htracks : Tracks tr s ph)
    (hnew : s.reqs r = none) :
    ReqOk (tr ++ .firstReply r reply :: if reply.misses = [] then [.closed r] else []) r
      (Req.opened reply) := by
  -- the number is new: no event of the past is about an entry of it
  have hno : ∀ t, t.req = r → ¬ s.Put t := by
    intro t hr
    exact not_put_of_new (hr.symm ▸ hnew)
  have hlookups : ∀ t, lookups t (.firstReply r reply ::
      if reply.misses = [] then [.closed r] else []) = [] := by
    intro t
    split <;> rfl
  constructor
  · refine ⟨reply, fun reply' => ?_, rfl, rfl⟩
    rw [List.mem_append, or_iff_right ((h.unknown r hnew).1 reply')]
    split <;> simp
  · exact Nat.zero_le _
  · exact List.length_replicate
  · intro t ht
    rcases Req.entry_req ht with ⟨hr, -, -, hlt⟩
    have hnone : lookups t tr = [] := by
      by_contra hsome
      exact hno t hr (htracks.put_of_lookups hsome)
    rw [lookups_append, hnone, hlookups]
    exact List.getElem?_replicate_of_lt hlt
  · have hzero : countedDown r tr = 0 := by
      apply List.countP_eq_zero.mpr
      intro t ht
      rw [beq_iff_eq]
      exact fun hr => hno t hr (htracks.put_of_countdown ht)
    have hone : countedDown r (.firstReply r reply ::
        if reply.misses = [] then [.closed r] else []) = 0 := by
      split <;> rfl
    rw [countedDown_append, hzero, hone]
    show (reply.misses.length : Int) = reply.misses.length - 0
    omega
  · intro hne
    have hone : secondReplies r (.firstReply r reply ::
        if reply.misses = [] then [.closed r] else []) = 0 := by
      split <;> rfl
    rw [secondReplies_append, (h.unknown r hnew).2, hone]
    have hempty : (Req.opened reply).freed = false := List.isEmpty_eq_false_iff.mpr hne
    rw [hempty]
    simp
  · intro hfreed
    have hnil : reply.misses = [] := List.isEmpty_iff.mp hfreed
    simp [Req.opened, hnil]

/-- The slot of the entry just looked up is filled, the others stay. -/
theorem ReqOk.fill {w : Nat} {t : TcpEntry} {q : Req} {res : Option UInt32} {data : DataT}
    (h : ReqOk tr t.req q) (htracks : Tracks tr s ph) (hq : s.reqs t.req = some q)
    (hpc : (s.workers w).pc = .taken (.tcp t)) :
    ReqOk (tr ++ [.resolved w (.tcp t) res, .stored t.domain data]) t.req
      { q with ipptr := q.ipptr.set t.count (some (t.index, res.getD dnsError)) } := by
  have hent := (htracks.put_of_taken hpc).entry hq
  have hlt := (Req.entry_req hent).2.2.2
  constructor
  · rcases h.reply with ⟨reply, hmem, hreply⟩
    refine ⟨reply, fun reply' => ?_, hreply⟩
    rw [← hmem, List.mem_append]
    simp
  · exact h.put_le
  · rw [← h.slots_length]
    exact List.length_set
  · intro t' ht'
    show (q.ipptr.set t.count (some (t.index, res.getD dnsError)))[t'.count]? = _
    by_cases hcount : t'.count = t.count
    · -- the entry itself: nobody has looked it up before
      have ht : t' = t := by
        have hent' : q.entry t.req t'.count = some t' := ht'
        rw [hcount, hent] at hent'
        exact (Option.some.inj hent').symm
      subst ht
      rw [List.getElem?_set_self (by rw [h.slots_length]; exact hlt), lookups_append,
        htracks.lookups_taken hpc]
      simp [lookups, slotOf]
    · have hne : ¬ t = t' := by
        rintro rfl
        exact hcount rfl
      have hnone : lookups t' [.resolved w (.tcp t) res, .stored t.domain data] = [] := by
        simp [lookups, hne]
      rw [List.getElem?_set_ne fun heq => hcount heq.symm, lookups_append, hnone, List.append_nil]
      exact h.slots t' ht'
  · rw [countedDown_append]
    exact h.number
  · rw [secondReplies_append]
    exact h.sent
  · exact h.freed

/-- The counter follows the entries counted down. -/
theorem ReqOk.countDown {w : Nat} {t : TcpEntry} {q : Req} {miss : UInt8} (h : ReqOk tr t.req q)
    (hpos : 0 < q.number) :
    ReqOk (tr ++ [.decremented w t]) t.req { q with miss := miss, number := q.number - 1 } := by
  constructor
  · rcases h.reply with ⟨reply, hmem, hreply⟩
    refine ⟨reply, fun reply' => ?_, hreply⟩
    rw [← hmem, List.mem_append]
    simp
  · exact h.put_le
  · exact h.slots_length
  · intro t' ht'
    have hnone : lookups t' [.decremented w t] = [] := rfl
    rw [lookups_append, hnone, List.append_nil]
    exact h.slots t' ht'
  · have hone : countedDown t.req [.decremented w t] = 1 := by
      simp [countedDown, countdown]
    rw [countedDown_append, hone]
    show q.number - 1 = q.nodes.length - _
    rw [h.number]
    omega
  · rw [secondReplies_append]
    exact h.sent
  · intro hfreed
    have hzero := h.freed hfreed
    omega

/-- A test of the counter. Where it finds zero, the worker goes on to the second reply. -/
theorem ReqsOk.test {w : Nat} {t : TcpEntry} {q : Req} {zero : Bool} {m : UInt8} (h : ReqsOk tr s)
    (hq : s.reqs t.req = some q) (hzero : q.freed = false → zero = decide (q.number = 0)) :
    ReqsOk (tr ++ if q.freed then [.readFreed w t.req] else [])
      (s.setWorker w ⟨if zero then .last t else .idle, m⟩) := by
  have hevs : ∀ r, Silent r (if q.freed then [.readFreed w t.req] else []) := by
    intro r
    split
    · exact silent_singleton (by simp) (fun _ => rfl) rfl (fun _ => rfl) r
    · exact silent_nil r
  constructor
  · exact fun r q' hq' => (h.reqs r q' hq').frame (hevs r)
  · intro r hr
    refine ⟨fun reply => ?_, ?_⟩
    · rw [(hevs r).first_iff]
      exact (h.unknown r hr).1 reply
    · rw [secondReplies_append, (h.unknown r hr).2, (hevs r).second]
  · intro w' t' q' hpc' hq' hfreed
    by_cases hw' : w' = w
    · subst hw'
      rw [State.setWorker_workers, Function.update_self] at hpc'
      cases zero with
      | false => simp at hpc'
      | true =>
          cases hpc'
          have hqq : s.reqs t.req = some q' := hq'
          rw [hq] at hqq
          cases hqq
          exact of_decide_eq_true (hzero hfreed).symm
    · rw [State.setWorker_workers, Function.update_of_ne hw'] at hpc'
      exact h.last w' t' q' hpc' hq' hfreed

/-- The second reply of a request whose counter is zero. -/
theorem ReqOk.finish {r : Nat} {q : Req} (h : ReqOk tr r q) (hlast : q.freed = false → q.number = 0)
    (w : Nat) (head : List UInt8) (slots : List (Option (UInt32 × UInt32))) :
    ReqOk (tr ++ [.secondReply w r head slots, .closed r, .freed r]) r { q with freed := true } := by
  have hone : secondReplies r [.secondReply w r head slots, .closed r, .freed r] = 1 := by
    simp [secondReplies, Event.second]
  constructor
  · rcases h.reply with ⟨reply, hmem, hreply⟩
    refine ⟨reply, fun reply' => ?_, hreply⟩
    rw [← hmem, List.mem_append]
    simp
  · exact h.put_le
  · exact h.slots_length
  · intro t' ht'
    have hnone : lookups t' [.secondReply w r head slots, .closed r, .freed r] = [] := rfl
    rw [lookups_append, hnone, List.append_nil]
    exact h.slots t' ht'
  · rw [countedDown_append]
    exact h.number
  · intro _
    rw [secondReplies_append, hone]
    simp
  · intro _
    show q.number = 0
    by_cases hfreed : q.freed = true
    · exact h.freed hfreed
    · exact hlast (Bool.eq_false_iff.mpr hfreed)

/-- The step lemma. -/
theorem reqsOk_step (htracks : Tracks tr s ph) (h : ReqsOk tr s) (hm : Moves s a s' evs) :
    ReqsOk (tr ++ evs) s' := by
  have update : ∀ {w : Nat} {wk : Worker}, (∀ t, wk.pc ≠ .last t) → ∀ w' t,
      (Function.update s.workers w wk w').pc = .last t → (s.workers w').pc = .last t := by
    intro w wk hwk w' t
    exact pc_of_update (p := (· = .last t)) (fun hpc => absurd hpc (hwk t)) w'
  cases hm with
  | refused => exact h.keep rfl (fun _ _ => id) (silent_singleton (by simp) (fun _ => rfl) rfl fun _ => rfl)
  | @answered r _ _ reply hnew =>
      refine h.change rfl (reqOk_opened h htracks hnew) (fun _ _ => id) ?_ ?_
      · -- no worker is with a request that was not there
        intro w t hpc hr _
        have hput := htracks.put_of_countdown (htracks.countdown_of_counted
          (Pc.counted_eq_some_iff.mpr (.inr hpc)))
        exact absurd hput (not_put_of_new (hr.symm ▸ hnew))
      · intro r' hr'
        constructor
        · intro reply'
          have hne : ¬ r' = r := hr'
          split <;> simp [hne]
        · intro t _
          split <;> rfl
        · split <;> rfl
        · split <;> rfl
  | @enqueued r q t hq ht hroom =>
      have hok := (h.reqs r q hq).frame
        (silent_singleton (by simp) (fun _ => rfl) rfl (fun _ => rfl) r : Silent r [.enqueued (.tcp t)])
      refine h.change rfl ⟨hok.reply, ?_, hok.slots_length, hok.slots, hok.number, hok.sent,
        hok.freed⟩ (fun _ _ => id) ?_ fun r' _ => silent_singleton (by simp) (fun _ => rfl) rfl (fun _ => rfl) r'
      · exact (Req.entry_req ht).2.2.2
      · rintro w t' hpc rfl
        exact h.last w t' q hpc hq
  | exits => exact h.keep rfl (fun _ _ => id) (silent_singleton (by simp) (fun _ => rfl) rfl fun _ => rfl)
  | ignored => exact h.keep rfl (fun _ _ => id) fun r => ⟨fun _ => by simp, fun _ _ => rfl, rfl, rfl⟩
  | datagram => exact h.keep rfl (fun _ _ => id) (silent_singleton (by simp) (fun _ => rfl) rfl fun _ => rfl)
  | enqueuedUdp => exact h.keep rfl (fun _ _ => id) (silent_singleton (by simp) (fun _ => rfl) rfl fun _ => rfl)
  | taken hpc =>
      exact h.keep rfl (update (by simp)) (silent_singleton (by simp) (fun _ => rfl) rfl fun _ => rfl)
  | resolvedUdp hpc =>
      exact h.keep rfl (update (by simp)) fun r => ⟨fun _ => by simp, fun _ _ => rfl, rfl, rfl⟩
  | @resolved w t q res now hpc hq =>
      refine h.change rfl ((h.reqs _ q hq).fill htracks hq hpc) (update (by simp)) ?_ ?_
      · intro w' t' hpc' hr hfreed
        exact h.last w' t' q hpc' (by rw [hr, hq]) hfreed
      · intro r' hr'
        constructor
        · simp
        · rintro t' rfl
          have hne : ¬ t = t' := by
            rintro rfl
            exact hr' rfl
          simp [lookups, hne]
        · rfl
        · rfl
  | @decremented w t q hpc hq =>
      have hpos := h.number_pos_of_filled htracks hpc hq
      refine h.change rfl ((h.reqs _ q hq).countDown hpos) (update (by simp)) ?_ ?_
      · -- a worker about to send cannot have overlooked this entry
        intro w' t' hpc' hr hfreed
        have hzero := h.last w' t' q hpc' (by rw [hr, hq]) hfreed
        omega
      · intro r' hr'
        constructor
        · simp
        · exact fun _ _ => rfl
        · have hne : ¬ t.req = r' := fun heq => hr' heq.symm
          simp [countedDown, countdown, hne]
        · rfl
  | tested hpc hq hzero => exact h.test hq hzero
  | @finished w t q sent head slots junk hpc hq =>
      have hok := (h.reqs _ q hq).finish (h.last w t q hpc hq) w head slots
      refine h.change rfl hok (update (by simp)) (by simp) ?_
      intro r' hr'
      have hne : ¬ t.req = r' := fun heq => hr' heq.symm
      exact ⟨by simp, fun _ _ => rfl, rfl, by simp [secondReplies, Event.second, hne]⟩

theorem reqsOk_start (kache : Kache) (udpBuf : List UInt8) (h : 0 < n) :
    ReqsOk [] (State.start kache udpBuf h) := by
  constructor <;> simp [State.start, secondReplies]

/-- The run lemma. -/
theorem runs_reqsOk {kache : Kache} {udpBuf : List UInt8} {hn : 0 < n}
    (h : Runs kache udpBuf hn tr s) : ReqsOk tr s := by
  refine @Run.invariant _ _ _ step _ _ ReqsOk (reqsOk_start kache udpBuf hn) ?_ _ _ h
  intro tr s a s' evs hrun hreqs _ hstep
  rcases runs_tracks hrun with ⟨ph, htracks⟩
  exact reqsOk_step htracks hreqs (moves_of_step hstep).2

/-! ## The workers can always go on -/

section Enabled

variable {kache : Kache} {udpBuf : List UInt8} {hn : 0 < n} {w : Nat}

/-- The blocks of a request are not freed before its entries are counted down:
the lookup of a worker that has taken one stays inside them. -/
theorem lookup_enabled {e : Entry} (h : Runs kache udpBuf hn tr s) (hlive : s.exited = false)
    (hpc : (s.workers w).pc = .taken e) (res : Option UInt32) (now : Int) :
    (step s (.lookup w res now)).isSome := by
  cases e with
  | udp name => simp [step, lookupStep, hlive, hpc]
  | tcp t =>
      rcases runs_tracks h with ⟨ph, htracks⟩
      have hreqs := runs_reqsOk h
      rcases htracks.put_of_taken hpc with ⟨q, hq, -, hent⟩
      have hok := hreqs.reqs _ q hq
      have hpos := hreqs.number_pos_of_taken htracks hpc hq
      have hinside : ¬ (q.freed = true ∨ q.ipptr.length ≤ t.count) := by
        rintro (hfreed | hle)
        · have hzero := hok.freed hfreed
          omega
        · rw [hok.slots_length] at hle
          exact absurd (Req.entry_req hent).2.2.2 (Nat.not_lt.mpr hle)
      simp [step, lookupStep, hlive, hpc, hq, hinside]

theorem decrement_enabled {t : TcpEntry} (h : Runs kache udpBuf hn tr s)
    (hlive : s.exited = false) (hpc : (s.workers w).pc = .filled t) :
    (step s (.decrement w)).isSome := by
  rcases runs_tracks h with ⟨ph, htracks⟩
  have hreqs := runs_reqsOk h
  rcases htracks.put_of_filled hpc with ⟨q, hq, -, -⟩
  have hpos := hreqs.number_pos_of_filled htracks hpc hq
  have hinside : ¬ q.freed = true := by
    intro hfreed
    have hzero := (hreqs.reqs _ q hq).freed hfreed
    omega
  simp [step, decrementStep, hlive, hpc, hq, hinside]

end Enabled

end DnsCache

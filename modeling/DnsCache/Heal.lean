import DnsCache.Agree
import DnsCache.SecondReply
import DnsCache.Slots

/-! # A UDP miss heals itself

The UDP server does not answer a missed name later; it only has it resolved, so
that the next request finds it.

* `pending_step`, `runs_pending`: a missed name is not lost on its way to a worker.
* `runs_kache`: the cache after a run is the old one with the stores of the trace.
* `hit_of_stored`: what both servers look up until the entry grows old.
* `udp_miss_heals`: from the miss to the answers of all later requests.
-/

namespace DnsCache

open CMem Trace

variable {n : Nat} {kache : Kache} {udpBuf : List UInt8} {hn : 0 < n}
  {tr tr₁ tr₂ evs : List Event} {s s' s₁ : State n} {a : Act} {k : CStr}

/-! ## From the miss to the worker -/

/-- The name waits in the UDP thread's miss list, in the ring or in a worker's hands. -/
def Pending (s : State n) (k : CStr) : Prop :=
  k ∈ s.udpTodo ∨ .udp k ∈ s.ring.toList ∨ ∃ w, (s.workers w).pc = .taken (.udp k)

/-- One iteration of the UDP server's `do_dns_search`. -/
theorem todo_of_enqueueUdpStep (h : enqueueUdpStep s = some (s', evs)) :
    s'.workers = s.workers ∧
      ((s'.udpTodo = s.udpTodo ∧ s'.ring = s.ring) ∨
        ∃ name, s.udpTodo = name :: s'.udpTodo ∧ s'.ring.toList = s.ring.toList ++ [.udp name]) := by
  unfold enqueueUdpStep at h
  split at h
  · simp at h
  · rename_i name names htodo
    split at h
    · cases h
      exact ⟨rfl, .inl ⟨rfl, rfl⟩⟩
    · rename_i hroom
      cases h
      exact ⟨rfl, .inr ⟨name, htodo, RingBuf.toList_put hroom⟩⟩

/-- A round of `udp_recv` waits for the last one's names. -/
theorem todo_of_datagramStep {d : List UInt8} {now : Int} {sent : Bool}
    (h : datagramStep s d now sent = some (s', evs)) :
    s.udpTodo = [] ∧ s'.ring = s.ring ∧ s'.workers = s.workers := by
  unfold datagramStep at h
  split at h
  · simp at h
  · rename_i htodo
    refine ⟨not_not.mp htodo, ?_⟩
    split at h
    · simp at h
    · cases h
      exact ⟨rfl, rfl⟩
    · cases h
      exact ⟨rfl, rfl⟩

theorem Pending.mono (h : Pending s k) (htodo : s'.udpTodo = s.udpTodo)
    (hring : ∀ e ∈ s.ring.toList, e ∈ s'.ring.toList)
    (hworkers : ∀ w, (s.workers w).pc = .taken (.udp k) → (s'.workers w).pc = .taken (.udp k)) :
    Pending s' k := by
  rcases h with h | h | ⟨w, h⟩
  · exact .inl (by rw [htodo]; exact h)
  · exact .inr (.inl (hring _ h))
  · exact .inr (.inr ⟨w, hworkers w h⟩)

/-- A worker that does not hold the name moves. -/
theorem taken_of_setWorker {w v : Nat} {wk : Worker} {pc : Pc} (hpc : (s.workers w).pc = pc)
    (hpc' : pc ≠ .taken (.udp k)) (h : (s.workers v).pc = .taken (.udp k)) :
    (Function.update s.workers w wk v).pc = .taken (.udp k) := by
  have hne : v ≠ w := by
    intro hvw
    rw [hvw, hpc] at h
    exact hpc' h
  rw [Function.update_of_ne hne]
  exact h

/-- The step lemma: a name on its way moves on or is resolved. -/
theorem pending_step (h : Pending s k) (hstep : step s a = some (s', evs)) :
    Pending s' k ∨ ∃ w res, .resolved w (.udp k) res ∈ evs := by
  rcases moves_of_step hstep with ⟨hexited, hm⟩
  have keepRing : ∀ e ∈ s.ring.toList, e ∈ s.ring.toList := fun _ he => he
  cases hm with
  | refused => exact .inl h
  | exits => exact .inl (h.mono rfl keepRing fun _ hw => hw)
  | answered => exact .inl (h.mono rfl keepRing fun _ hw => hw)
  | ignored => exact .inl (h.mono rfl keepRing fun _ hw => hw)
  | enqueued _ _ hroom =>
      refine .inl (h.mono rfl ?_ fun _ hw => hw)
      intro e he
      show e ∈ (s.ring.put _).toList
      rw [RingBuf.toList_put hroom]
      exact List.mem_append_left _ he
  | @datagram d buf reply now sent names =>
      -- the miss list is overwritten, but it was empty
      simp only [step, hexited, Bool.false_eq_true, if_false] at hstep
      rcases todo_of_datagramStep hstep with ⟨hnil, -, -⟩
      rcases h with h | h
      · rw [hnil] at h
        simp at h
      · exact .inl (.inr h)
  | enqueuedUdp _ =>
      simp only [step, hexited, Bool.false_eq_true, if_false] at hstep
      rcases todo_of_enqueueUdpStep hstep with ⟨hworkers, ⟨htodo, hring⟩ | ⟨name, htodo, hring⟩⟩
      · exact .inl (h.mono htodo (by rw [hring]; exact keepRing) (by rw [hworkers]; exact fun _ hw => hw))
      · rcases h with h | h | h
        · rw [htodo] at h
          rcases List.mem_cons.mp h with rfl | h
          · exact .inl (.inr (.inl (by rw [hring]; simp)))
          · exact .inl (.inl h)
        · exact .inl (.inr (.inl (by rw [hring]; exact List.mem_append_left _ h)))
        · exact .inl (.inr (.inr (by rw [hworkers]; exact h)))
  | @taken w e ring hpc htake =>
      have hlist := RingBuf.toList_take htake
      rcases h with h | h | ⟨v, h⟩
      · exact .inl (.inl h)
      · rw [hlist] at h
        rcases List.mem_cons.mp h with rfl | h
        · -- the name itself is taken
          refine .inl (.inr (.inr ⟨w, ?_⟩))
          show (Function.update s.workers w _ w).pc = _
          rw [Function.update_self]
        · exact .inl (.inr (.inl h))
      · exact .inl (.inr (.inr ⟨v, taken_of_setWorker hpc (by simp) h⟩))
  | @resolvedUdp w domain res now hpc =>
      by_cases hd : domain = k
      · exact .inr ⟨w, res, by simp [hd]⟩
      · refine .inl (h.mono rfl keepRing fun v hv => taken_of_setWorker hpc ?_ hv)
        simp [hd]
  | resolved hpc _ =>
      exact .inl (h.mono rfl keepRing fun v hv => taken_of_setWorker hpc (by simp) hv)
  | decremented hpc _ =>
      exact .inl (h.mono rfl keepRing fun v hv => taken_of_setWorker hpc (by simp) hv)
  | tested hpc _ _ =>
      exact .inl (h.mono rfl keepRing fun v hv => taken_of_setWorker hpc (by simp) hv)
  | finished hpc _ _ =>
      exact .inl (h.mono rfl keepRing fun v hv => taken_of_setWorker hpc (by simp) hv)

/-- The run lemma. -/
theorem runs_pending (h : Pending s₁ k) (hrun : Run step (fun _ _ => True) s₁ tr s) :
    Pending s k ∨ ∃ w res, .resolved w (.udp k) res ∈ tr := by
  refine @Run.invariant _ _ _ step _ _
    (fun tr s => Pending s k ∨ ∃ w res, .resolved w (.udp k) res ∈ tr) (.inl h) ?_ _ _ hrun
  rintro tr s a s' evs - (hpending | ⟨w, res, hres⟩) - hstep
  · rcases pending_step hpending hstep with hpending' | ⟨w, res, hres⟩
    · exact .inl hpending'
    · exact .inr ⟨w, res, List.mem_append_right _ hres⟩
  · exact .inr ⟨w, res, List.mem_append_left _ hres⟩

/-! ## What the cache holds -/

/-- The calls of `kache_store` in a trace. -/
def storesOf (tr : List Event) : List (CStr × DataT) :=
  tr.filterMap fun
    | .stored key data => some (key, data)
    | _ => none

@[simp] theorem storesOf_append (tr evs : List Event) :
    storesOf (tr ++ evs) = storesOf tr ++ storesOf evs := List.filterMap_append

theorem mem_storesOf {tr : List Event} {p : CStr × DataT} (h : p ∈ storesOf tr) :
    .stored p.1 p.2 ∈ tr := by
  rcases List.mem_filterMap.mp h with ⟨ev, hev, hp⟩
  split at hp
  · cases hp
    exact hev
  · simp at hp

theorem kache_step (hm : Moves s a s' evs) : s'.kache = kacheRun s.kache (storesOf evs) := by
  cases hm with
  | answered => split <;> rfl
  | @tested w t q _ _ _ _ _ =>
      have hnone : storesOf (if q.freed then [.readFreed w t.req] else []) = [] := by
        split <;> rfl
      rw [hnone]
      rfl
  | _ => rfl

/-- The run lemma for the cache. -/
theorem runs_kache (hrun : Run step (fun _ _ => True) s₁ tr s) :
    s.kache = kacheRun s₁.kache (storesOf tr) := by
  refine @Run.invariant _ _ _ step _ _ (fun tr s => s.kache = kacheRun s₁.kache (storesOf tr))
    rfl ?_ _ _ hrun
  intro tr s a s' evs _ hinv _ hstep
  rw [kache_step (moves_of_step hstep).2, hinv, storesOf_append]
  exact (List.foldl_append ..).symm

/-! ## What later requests look up -/

/-- Both servers find a stored address until it is too old, unless it is the
miss marker. -/
theorem hit_of_stored {kc : Kache} {addr : UInt32} {t now : Int}
    (h : kacheRetrieve kc k = some ⟨addr, t⟩) (haddr : addr ≠ cacheMiss) (hnow : now ≤ t + timeOut) :
    tcpLookup kc now k = some addr ∧ udpLookup kc now k = some addr := by
  have hfresh : stale ⟨addr, t⟩ now = false := decide_eq_false (Int.not_lt.mpr hnow)
  have htcp : tcpLookup kc now k = some addr := by simp [tcpLookup, h, hfresh]
  refine ⟨htcp, ?_⟩
  rw [udpLookup_eq, htcp]
  simp [Option.filter, haddr]

theorem wordAt_answers {lookup : CStr → Option UInt32} {names : List CStr} {i : Nat} {name : CStr}
    {addr : UInt32} (pre : List UInt8) (hi : names[i]? = some name) (hit : lookup name = some addr) :
    wordAt (pre ++ (answers lookup names).flatMap le32) (pre.length + 4 * i) = some addr := by
  rw [wordAt_words, answers, List.getElem?_map, hi, Option.map_some, answer, hit]
  rfl

theorem not_missed {lookup : CStr → Option UInt32} {names : List CStr} {addr : UInt32}
    (hit : lookup k = some addr) : k ∉ (missNodes lookup 0 names).map (·.domain) := by
  rw [missNodes_domain]
  intro hmem
  have hmiss := (List.mem_filter.mp hmem).2
  simp [hit] at hmiss

/-- Every valid request that names `k` and is looked up in `s` not later than
`limit` is answered with `addr` for `k` and does not have it resolved again. -/
structure AnsweredBy (s : State n) (k : CStr) (addr : UInt32) (limit : Int) : Prop where
  tcp : ∀ head names cuts r now reply s' evs, ValidRequest head names → now ≤ limit →
    step s (.serve r (requestSock head names cuts) now) = some (s', evs) →
    .firstReply r reply ∈ evs →
    (∀ i, names[i]? = some k → wordAt reply.body (4 * i) = some addr) ∧
      ∀ q, s'.reqs r = some q → k ∉ q.nodes.map (·.domain)
  udp : ∀ head names now sent reply s' evs, ValidRequest head names → now ≤ limit →
    step s (.datagram (head ++ CStr.pack names) now sent) = some (s', evs) →
    .udpReply reply ∈ evs →
    (∀ i, names[i]? = some k → wordAt reply (headLength + 4 * i) = some addr) ∧ k ∉ s'.udpTodo

theorem answeredBy_of_hit {addr : UInt32} {limit : Int}
    (hit : ∀ now ≤ limit, tcpLookup s.kache now k = some addr ∧ udpLookup s.kache now k = some addr) :
    AnsweredBy s k addr limit := by
  constructor
  · intro head names cuts r now reply s' evs hv hnow hstep hreply
    have hreplied := step_serve_firstReply hstep hreply
    rcases step_serve_replied hreplied hstep with ⟨-, rfl, -⟩
    have hreply' := replied_valid hv hreplied
    rw [hreply']
    constructor
    · intro i hi
      have hword := wordAt_answers [] hi (hit now hnow).1
      rwa [List.nil_append, List.length_nil, Nat.zero_add] at hword
    · intro q hq
      change Function.update s.reqs r _ r = some q at hq
      rw [Function.update_self, Option.some.injEq] at hq
      rw [← hq]
      exact not_missed (hit now hnow).1
  · intro head names now sent reply s' evs hv hnow hstep hreply
    rcases Nat.lt_or_ge maxUdpLength (CStr.pack names).length with hlong | hmax
    · rw [step_datagram_none (udpRecv_too_long s.kache now s.udpBuf hv sent hlong)] at hstep
      simp at hstep
    · rcases udpRecv_valid s.kache now s.udpBuf hv sent hmax with ⟨b, hrecv⟩
      rcases step_datagram_answered hrecv hstep with ⟨-, rfl, rfl⟩
      rw [List.mem_singleton] at hreply
      cases hreply
      constructor
      · intro i hi
        have hword := wordAt_answers (replyTo (udpLookup s.kache now) head names).head hi
          (hit now hnow).2
        have hlen : (replyTo (udpLookup s.kache now) head names).head.length = headLength :=
          (setFlag_length _ _).trans hv.headLen
        rwa [hlen] at hword
      · have hnot := @not_missed k (udpLookup s.kache now) names addr (hit now hnow).2
        dsimp only
        split
        · exact hnot
        · simp

/-! ## The whole way -/

/-- A datagram that misses `k` is received. Whatever happens next, the name is on its way
to a worker until one has resolved it; and once a worker has stored an address
other than the miss marker for it, every valid request is answered with this
address as long as it is fresh and no other store goes to the same slot. -/
theorem udp_miss_heals {tr₁ : List Event} {s₁ s₂ : State n} (hrun : Runs kache udpBuf hn tr₁ s₁)
    {head : List UInt8} {names : List CStr} {now : Int} {evs : List Event}
    (hv : ValidRequest head names) (hk : k ∈ names) (hmiss : udpLookup s₁.kache now k = none)
    (hstep : step s₁ (.datagram (head ++ CStr.pack names) now true) = some (s₂, evs))
    {tr₂ : List Event} {s₃ : State n} (hrest : Run step (fun _ _ => True) s₂ tr₂ s₃) :
    (Pending s₃ k ∨ ∃ w res, .resolved w (.udp k) res ∈ tr₂) ∧
      ∀ w res t s₄ evs₄, (s₃.workers w).pc = .taken (.udp k) →
        step s₃ (.lookup w res t) = some (s₄, evs₄) →
        evs₄ = [.resolved w (.udp k) res, .stored k ⟨res.getD dnsError, t⟩] ∧
        (res.getD dnsError ≠ cacheMiss →
          ∀ tr₅ s₅, Run step (fun _ _ => True) s₄ tr₅ s₅ →
            (∀ key data, .stored key data ∈ tr₅ → kache.mainTr.slotOf key ≠ kache.mainTr.slotOf k) →
            AnsweredBy s₅ k (res.getD dnsError) (t + timeOut)) := by
  constructor
  · apply runs_pending _ hrest
    left
    have hlong : ¬ maxUdpLength < (CStr.pack names).length := by
      intro hlong
      rw [step_datagram_none (udpRecv_too_long s₁.kache now s₁.udpBuf hv true hlong)] at hstep
      simp at hstep
    rcases udpRecv_valid s₁.kache now s₁.udpBuf hv true (Nat.not_lt.mp hlong) with ⟨b, hrecv⟩
    rcases step_datagram_answered hrecv hstep with ⟨-, rfl, -⟩
    show k ∈ (missNodes (udpLookup s₁.kache now) 0 names).map (·.domain)
    rw [missNodes_domain]
    exact List.mem_filter.mpr ⟨hk, by simp [hmiss]⟩
  · intro w res t s₄ evs₄ hpc hlookup
    have htr₃ : s₃.kache.mainTr = kache.mainTr := by
      have h₁ := congrArg Kache.mainTr (runs_kache hrun)
      have h₂ := congrArg Kache.mainTr (kache_step (moves_of_step hstep).2)
      have h₃ := congrArg Kache.mainTr (runs_kache hrest)
      rw [kacheRun_mainTr] at h₁ h₂ h₃
      exact h₃.trans (h₂.trans h₁)
    have hexited := (moves_of_step hlookup).1
    simp only [step, hexited, Bool.false_eq_true, if_false, lookupStep, hpc, Option.some.injEq,
      Prod.mk.injEq] at hlookup
    rcases hlookup with ⟨rfl, rfl⟩
    refine ⟨rfl, ?_⟩
    intro haddr tr₅ s₅ hlast hother
    apply answeredBy_of_hit
    intro now' hnow'
    apply hit_of_stored _ haddr hnow'
    have hkache := runs_kache hlast
    have hslots : ∀ p ∈ storesOf tr₅,
        (kacheStore s₃.kache k ⟨res.getD dnsError, t⟩).mainTr.slotOf p.1 ≠
          (kacheStore s₃.kache k ⟨res.getD dnsError, t⟩).mainTr.slotOf k := by
      intro p hp
      rw [kacheStore_mainTr, htr₃]
      exact hother p.1 p.2 (mem_storesOf hp)
    rw [hkache]
    exact (kacheRetrieve_kacheRun_of_ne hslots).trans (kacheRetrieve_kacheStore_self _ _ _)

/-- `udp_miss_heals` at a datagram for "xyz", once the worker 0 has taken its entry. -/
theorem udp_miss_heals_xyz : ∃ s₃ : State 2, (s₃.workers 0).pc = .taken (.udp nameXyz) ∧
    ∀ res t s₄ evs₄, step s₃ (.lookup 0 res t) = some (s₄, evs₄) → res.getD dnsError ≠ cacheMiss →
      AnsweredBy s₄ nameXyz (res.getD dnsError) (t + timeOut) := by
  obtain ⟨r, hex, hpc⟩ : ∃ r, exec step (State.start coldKache [] Nat.two_pos : State 2)
      [.datagram (requestBytes [nameXyz]) 0 true, .enqueueUdp, .take 0] = some r ∧
        decide ((r.1.workers 0).pc = .taken (.udp nameXyz)) = true :=
    (Option.any_eq_true _ _).mp (by decide +kernel)
  rcases Option.bind_eq_some_iff.mp hex with ⟨⟨s₂, evs⟩, hstep, hrest⟩
  rcases Option.map_eq_some_iff.mp hrest with ⟨r', hr', rfl⟩
  have hheals := udp_miss_heals .nil validRequest_xyz List.mem_cons_self (by decide +kernel) hstep
    (Run.of_exec (fun _ _ _ => trivial) hr')
  refine ⟨r'.1, of_decide_eq_true hpc, ?_⟩
  intro res t s₄ evs₄ hlookup haddr
  exact (hheals.2 0 res t s₄ evs₄ (of_decide_eq_true hpc) hlookup).2 haddr [] s₄ .nil (by simp)

end DnsCache

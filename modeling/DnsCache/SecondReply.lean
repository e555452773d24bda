import DnsCache.Requests

/-! # The second reply

* `first_second_reply`: the state in which a request gets its first second reply.
* `second_reply_contents`: this reply holds, for every missed name in the order
  of the miss list, the address looked up for it.
-/

namespace DnsCache

open CMem Trace

/-- The entries of the request `r` for the nodes of a miss list. -/
def entriesOf (r : Nat) (nodes : List DmNode) : List TcpEntry :=
  nodes.mapIdx fun k node => ⟨r, k, nodes.length, node.index, node.domain⟩

/-- The address looked up for an entry, `none` when the lookup failed. -/
def outcome (t : TcpEntry) (tr : List Event) : Option UInt32 := (lookups t tr).head?.join

/-- The lookups made for the entries that satisfy `p`, with their results. -/
def lookupsFor (p : TcpEntry → Bool) (tr : List Event) : List (TcpEntry × Option UInt32) :=
  tr.filterMap fun
    | .resolved _ (.tcp t) res => if p t then some (t, res) else none
    | _ => none

/-- What was written to the slot `k` of the request `r`. -/
def slotWrites (r k : Nat) : List Event → List (TcpEntry × Option UInt32) :=
  lookupsFor fun t => t.req == r && t.count == k

variable {n : Nat} {kache : Kache} {udpBuf : List UInt8} {hn : 0 < n} {tr evs pre post : List Event}
  {s s' : State n} {a : Act} {ph : TcpEntry → Phase}

/-! ## Where an event comes from -/

/-- The step that emitted an event, and the run before it. -/
theorem runs_emit {ev : Event} (h : Runs kache udpBuf hn (pre ++ ev :: post) s) :
    ∃ tr₁ s₁ a s₂ evs₁ evs₂, Runs kache udpBuf hn tr₁ s₁ ∧ Moves s₁ a s₂ (evs₁ ++ ev :: evs₂) ∧
      pre = tr₁ ++ evs₁ := by
  rcases Run.split_at h rfl with ⟨tr₁, s₁, a, s₂, evs₁, evs₂, hrun, -, hstep, hpre⟩
  exact ⟨tr₁, s₁, a, s₂, evs₁, evs₂, hrun, (moves_of_step hstep).2, hpre⟩

/-- A first reply is what `serv` makes of a connection. -/
theorem runs_firstReply {r : Nat} {reply : FirstReply} (h : Runs kache udpBuf hn tr s)
    (hmem : .firstReply r reply ∈ tr) :
    ∃ kc now sock, serv kc now sock = some (.replied reply) := by
  rcases List.append_of_mem hmem with ⟨pre, post, rfl⟩
  rcases runs_emit h with ⟨tr₁, s₁, a, s₂, evs₁, evs₂, -, hm, -⟩
  generalize hevs : evs₁ ++ .firstReply r reply :: evs₂ = evs at hm
  have hev : .firstReply r reply ∈ evs := by
    rw [← hevs]
    exact List.mem_append_right _ List.mem_cons_self
  cases hm with
  | @answered r' sock now reply' hnew hserv =>
      rcases List.mem_cons.mp hev with heq | hev
      · cases heq
        exact ⟨_, _, _, hserv⟩
      · split at hev <;> simp at hev
  | tested hpc hq hzero => split at hev <;> simp at hev
  | _ => simp at hev

/-- A second reply is sent by a worker that has seen the counter at zero. -/
theorem sender_of_second {w r : Nat} {head : List UInt8} {slots : List (Option (UInt32 × UInt32))}
    {evs₁ evs₂ : List Event} (hm : Moves s a s' (evs₁ ++ .secondReply w r head slots :: evs₂)) :
    evs₁ = [] ∧ ∃ t q, (s.workers w).pc = .last t ∧ t.req = r ∧ s.reqs r = some q ∧
      (q.freed = false → head = setFlag q.head (secondFlag q.miss) ∧
        slots = q.ipptr.take t.total) := by
  generalize hevs : evs₁ ++ .secondReply w r head slots :: evs₂ = evs at hm
  have hev : .secondReply w r head slots ∈ evs := by
    rw [← hevs]
    exact List.mem_append_right _ List.mem_cons_self
  cases hm with
  | answered => split at hev <;> simp at hev
  | tested => split at hev <;> simp at hev
  | @finished w' t q sent head' slots' junk hpc hq hlive =>
      rcases evs₁ with _ | ⟨ev, evs₁⟩
      · rw [List.nil_append, List.cons.injEq, Event.secondReply.injEq] at hevs
        rcases hevs with ⟨⟨rfl, rfl, rfl, rfl⟩, -⟩
        exact ⟨rfl, t, q, hpc, rfl, hq, hlive⟩
      · -- the reply is the first event of the step
        rw [List.cons_append, List.cons.injEq] at hevs
        have hrest : .secondReply w r head slots ∈ [Event.closed t.req, .freed t.req] := by
          rw [← hevs.2]
          exact List.mem_append_right _ List.mem_cons_self
        simp at hrest
  | _ => simp at hev

/-- The state in which a request gets its first second reply. -/
theorem first_second_reply {w r : Nat} {head : List UInt8}
    {slots : List (Option (UInt32 × UInt32))}
    (h : Runs kache udpBuf hn (pre ++ .secondReply w r head slots :: post) s)
    (hfirst : secondReplies r pre = 0) :
    ∃ s₁ q, Runs kache udpBuf hn pre s₁ ∧ s₁.reqs r = some q ∧ q.number = 0 ∧
      head = setFlag q.head (secondFlag q.miss) ∧ slots = q.ipptr := by
  rcases runs_emit h with ⟨tr₁, s₁, a, s₂, evs₁, evs₂, hrun, hm, rfl⟩
  rcases sender_of_second hm with ⟨rfl, t, q, hpc, rfl, hq, hlive⟩
  rw [List.append_nil] at hfirst ⊢
  rcases runs_tracks hrun with ⟨ph, htracks⟩
  have hreqs := runs_reqsOk hrun
  have hok := hreqs.reqs _ q hq
  have hent := (htracks.put_of_countdown (htracks.countdown_of_counted
    (Pc.counted_eq_some_iff.mpr (.inr hpc)))).entry hq
  rcases Req.entry_req hent with ⟨-, -, htotal, hlt⟩
  have hfreed : q.freed = false := by
    by_contra hno
    have hne : q.nodes ≠ [] := List.ne_nil_of_length_pos (Nat.zero_lt_of_lt hlt)
    exact (hok.sent hne).mp (Bool.not_eq_false _ ▸ hno) hfirst
  rcases hlive hfreed with ⟨hhead, hslots⟩
  refine ⟨s₁, q, hrun, hq, hreqs.last w t q hpc hq hfreed, hhead, ?_⟩
  rw [hslots, htotal, ← hok.slots_length, List.take_length]

/-! ## The slots -/

theorem entriesOf_getElem? (r : Nat) (q : Req) (k : Nat) :
    (entriesOf r q.nodes)[k]? = q.entry r k := by
  unfold entriesOf Req.entry
  rw [List.getElem?_mapIdx]

theorem entry_of_mem {r : Nat} {q : Req} {t : TcpEntry} (h : t ∈ entriesOf r q.nodes) :
    q.entry r t.count = some t := by
  rcases List.mem_iff_getElem?.mp h with ⟨k, hk⟩
  rw [entriesOf_getElem?] at hk
  rw [(Req.entry_req hk).2.1, hk]

/-- Lookups for entries of which only `t` was ever put are lookups for `t`. -/
theorem lookupsFor_eq {p : TcpEntry → Bool} {t : TcpEntry} (htracks : Tracks tr s ph)
    (hp : p t = true) (honly : ∀ t', s.Put t' → p t' = true → t' = t) :
    lookupsFor p tr = (lookups t tr).map fun res => (t, res) := by
  unfold lookupsFor lookups
  rw [List.map_filterMap]
  apply List.filterMap_congr
  intro ev hev
  cases ev with
  | resolved w e res =>
      cases e with
      | udp => rfl
      | tcp t' =>
          by_cases ht : t' = t
          · subst ht
            simp [hp]
          · have hother : ¬ p t' = true := by
              intro hp'
              have hsome : lookups t' tr ≠ [] := by
                apply List.ne_nil_of_mem (a := res)
                exact List.mem_filterMap.mpr ⟨_, hev, if_pos rfl⟩
              exact ht (honly t' (htracks.put_of_lookups hsome) hp')
            simp [ht, hother]
  | _ => rfl

/-- Only the entry that stands at position `k` is ever written to the slot `k`. -/
theorem slotWrites_eq {r k : Nat} {q : Req} {t : TcpEntry} (htracks : Tracks tr s ph)
    (hq : s.reqs r = some q) (hent : q.entry r k = some t) :
    slotWrites r k tr = (lookups t tr).map fun res => (t, res) := by
  rcases Req.entry_req hent with ⟨hr, hk, -⟩
  refine lookupsFor_eq htracks (by simp [hr, hk]) ?_
  intro t' hput hp
  rw [Bool.and_eq_true, beq_iff_eq, beq_iff_eq] at hp
  have hent' := hput.entry (hp.1.symm ▸ hq)
  rw [hp.1, hp.2, hent] at hent'
  exact (Option.some.inj hent').symm

/-- With the counter at zero the slots hold the outcome for every entry. -/
theorem slots_of_zero {r : Nat} {q : Req} (htracks : Tracks tr s ph) (hok : ReqOk tr r q)
    (hq : s.reqs r = some q) (hzero : q.number = 0) :
    (∀ t ∈ entriesOf r q.nodes, lookups t tr = [outcome t tr]) ∧
      q.ipptr = (entriesOf r q.nodes).map fun t =>
        some (t.index, (outcome t tr).getD dnsError) := by
  have hlookups : ∀ t ∈ entriesOf r q.nodes, lookups t tr = [outcome t tr] := by
    intro t ht
    rcases htracks.lookups_countdown (hok.all_counted htracks hq hzero (entry_of_mem ht)) with
      ⟨res, hres⟩
    rw [outcome, hres]
    rfl
  refine ⟨hlookups, List.ext_getElem? fun k => ?_⟩
  rw [List.getElem?_map, entriesOf_getElem?]
  cases hent : q.entry r k with
  | some t =>
      have hk := (Req.entry_req hent).2.1
      have hmem : t ∈ entriesOf r q.nodes := by
        apply List.mem_of_getElem? (i := k)
        rw [entriesOf_getElem?, hent]
      rw [← hk, hok.slots t (by rw [hk, hent]), hlookups t hmem]
      rfl
  | none =>
      have hle : q.nodes.length ≤ k := by
        unfold Req.entry at hent
        rw [Option.map_eq_none_iff] at hent
        exact List.getElem?_eq_none_iff.mp hent
      rw [List.getElem?_eq_none (by rw [hok.slots_length]; exact hle)]
      rfl

/-- The pairs of a second reply that follows the trace `tr`: the request has had
its first reply, its misses stand at increasing positions, the slot of each was
written once, for its own entry, and the pairs are these positions, in order,
with the addresses looked up. -/
def HoldsOutcomes (r : Nat) (slots : List (Option (UInt32 × UInt32))) (tr : List Event) : Prop :=
  ∃ reply, (∀ reply', .firstReply r reply' ∈ tr ↔ reply' = reply) ∧
    (reply.misses.map (·.index.toNat)).Pairwise (· < ·) ∧
    (∀ node ∈ reply.misses, reply.looked[node.index.toNat]? = some node.domain) ∧
    (∀ t ∈ entriesOf r reply.misses, slotWrites r t.count tr = [(t, outcome t tr)]) ∧
    slots = (entriesOf r reply.misses).map fun t => some (t.index, (outcome t tr).getD dnsError)

/-- In every run the first second reply of a request holds the outcomes for the
request's own missed names. -/
theorem second_reply_contents {w r : Nat} {head : List UInt8}
    {slots : List (Option (UInt32 × UInt32))}
    (h : Runs kache udpBuf hn (pre ++ .secondReply w r head slots :: post) s)
    (hfirst : secondReplies r pre = 0) : HoldsOutcomes r slots pre := by
  rcases first_second_reply h hfirst with ⟨s₁, q, hrun, hq, hzero, -, hslots⟩
  rcases runs_tracks hrun with ⟨ph, htracks⟩
  have hok := (runs_reqsOk hrun).reqs r q hq
  rcases hok.reply with ⟨reply, hreply, -, hmisses⟩
  rcases slots_of_zero htracks hok hq hzero with ⟨hlookups, hcontents⟩
  rcases runs_firstReply hrun ((hreply reply).mpr rfl) with ⟨kc, now, sock, hserv⟩
  rcases serv_replied hserv with ⟨-, hnodes, hlooked⟩
  rcases @missNodes_increasing (tcpLookup kc now) 0 reply.looked (by omega) with
    ⟨hsorted, hnames⟩
  rw [← hnodes] at hsorted hnames
  rw [← hmisses] at hlookups hcontents
  refine ⟨reply, hreply, hsorted, fun node hnode => (hnames node hnode).2, ?_, ?_⟩
  · intro t ht
    rw [hmisses] at ht
    rw [slotWrites_eq htracks hq (entry_of_mem ht), hlookups t (by rwa [hmisses])]
    rfl
  · rw [hslots, hcontents]

/-! ## A request served alone -/

theorem spacious_xyz : Spacious [nameXyz] := by
  intro i hi
  rcases i with _ | _ | i
  · exact Nat.zero_le _
  · decide
  · simp at hi

/-- The head of a request for "xyz". -/
def headXyz : List UInt8 :=
  buildHead (UInt32.ofNat (headLength + (CStr.pack [nameXyz]).length))

theorem validRequest_xyz : ValidRequest headXyz [nameXyz] :=
  validRequest_buildHead (List.cons_ne_nil _ _) spacious_xyz (by decide)

/-- The request `r` for one name, served by the worker 0 alone. -/
def serveOne (r : Nat) (name : CStr) (res : Option UInt32) : List Act :=
  [.serve r ⟨requestBytes [name], fun _ => headLength⟩ 0, .enqueue r, .take 0, .lookup 0 res 0,
    .decrement 0, .test 0 false, .finish 0 true ([], [])]

def replyToOne (name : CStr) : FirstReply :=
  replyTo (fun _ => none) (buildHead (UInt32.ofNat (headLength + (CStr.pack [name]).length))) [name]

/-- The events up to the second reply, and those of the second reply. -/
def beforeReplyOne (r : Nat) (name : CStr) (res : Option UInt32) : List Event :=
  [.firstReply r (replyToOne name), .enqueued (.tcp ⟨r, 0, 1, 0, name⟩),
    .taken 0 (.tcp ⟨r, 0, 1, 0, name⟩), .resolved 0 (.tcp ⟨r, 0, 1, 0, name⟩) res,
    .stored name ⟨res.getD dnsError, 0⟩, .decremented 0 ⟨r, 0, 1, 0, name⟩]

def secondHeadOne (name : CStr) (flag : UInt8) : List UInt8 := setFlag (replyToOne name).head flag

/-- The whole trace of the request 1 for "xyz". -/
def traceXyz : List Event :=
  beforeReplyOne 1 nameXyz (some 5) ++
    .secondReply 0 1 (secondHeadOne nameXyz secondWithoutError) [some (0, 5)] ::
      [.closed 1, .freed 1]

theorem runs_xyz : ∃ s, Runs coldKache [] Nat.two_pos traceXyz s := by
  rcases @runs_of_exec 2 coldKache [] Nat.two_pos (serveOne 1 nameXyz (some 5)) (· = traceXyz) _
    (by decide +kernel) with ⟨_, s, h, rfl⟩
  exact ⟨s, h⟩

/-! ## Three names and two workers -/

def entryUvw : TcpEntry := ⟨1, 0, 2, 1, nameUvw⟩
def entryXyz : TcpEntry := ⟨1, 1, 2, 2, nameXyz⟩

/-- What the threads do behind the first reply. The worker 1 is done with its
entry before the worker 0, whose lookup fails. -/
def workThree : List Act :=
  [.enqueue 1, .enqueue 1, .take 0, .take 1, .lookup 1 (some 6) 0, .lookup 0 none 0,
    .decrement 1, .test 1 false, .decrement 0, .test 0 false, .finish 0 true ([], [])]

/-- The request 1 for three names, one of them cached. -/
def serveThree : List Act :=
  .serve 1 ⟨requestBytes threeNames, fun _ => headLength⟩ 0 :: workThree

def replyToThree : FirstReply := replyTo (tcpLookup warmKache 0) (buildHead 25) threeNames

/-- The events up to the second reply. -/
def beforeReplyThree : List Event :=
  [.firstReply 1 replyToThree, .enqueued (.tcp entryUvw), .enqueued (.tcp entryXyz),
    .taken 0 (.tcp entryUvw), .taken 1 (.tcp entryXyz), .resolved 1 (.tcp entryXyz) (some 6),
    .stored nameXyz ⟨6, 0⟩, .resolved 0 (.tcp entryUvw) none, .stored nameUvw ⟨dnsError, 0⟩,
    .decremented 1 entryXyz, .decremented 0 entryUvw]

def traceThree : List Event :=
  beforeReplyThree ++
    .secondReply 0 1 (setFlag replyToThree.head secondWithError) [some (1, dnsError), some (2, 6)] ::
      [.closed 1, .freed 1]

theorem runs_three : ∃ s, Runs warmKache [] (Nat.succ_pos 3) traceThree s := by
  rcases @runs_of_exec 4 warmKache [] (Nat.succ_pos 3) serveThree (· = traceThree) _
    (by decide +kernel) with ⟨_, s, h, rfl⟩
  exact ⟨s, h⟩

/-- `second_reply_contents` at this run. -/
theorem second_reply_contents_three :
    HoldsOutcomes 1 [some (1, dnsError), some (2, 6)] beforeReplyThree := by
  rcases runs_three with ⟨s, h⟩
  exact second_reply_contents h (by decide)

end DnsCache

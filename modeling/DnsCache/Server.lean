import DnsCache.Lib.RingBuf
import DnsCache.Lib.Trace
import DnsCache.Serv
import DnsCache.UdpServer

/-! # The whole server

The threads that serve TCP connections, the UDP thread and any number of DNS
workers (`thread_main_dns`) around the ring `dns_array`, as atomic steps that
interleave in any order.

* `State`, `Act`, `Event`, `step`: the system. A step is what a thread does
  between two points where others can see it.
* `Moves`: what a step can do, as a relation; `moves_of_step`.
* `Runs`: the runs of the server and their traces.
-/

namespace DnsCache

open CMem Trace

/-! ## The state -/

/-- `dns_thread_t` of a TCP request. The descriptor and the pointers `number`,
`ipptr`, `mutex`, `headptr` and `miss` are those of the request `req`. -/
structure TcpEntry where
  req : Nat
  count : Nat
  total : Nat
  index : UInt32
  domain : CStr
deriving DecidableEq, Repr

/-- An entry of `dns_array`, by its field `tcp_or_udp`. -/
inductive Entry where
  | tcp (t : TcpEntry)
  | udp (domain : CStr)
deriving DecidableEq, Repr

/-- A TCP request from its first reply on: the blocks shared with the workers,
and where `do_dns_search` is. `nodes` is the whole miss list, `i` the number of
its nodes already put into the ring; a slot of `ipptr` is a pair of words. -/
structure Req where
  head : List UInt8
  nodes : List DmNode
  i : Nat
  number : Int
  miss : UInt8
  ipptr : List (Option (UInt32 × UInt32))
  freed : Bool
deriving DecidableEq, Repr

/-- Where a worker is in its loop: before the ring, with an entry taken, with
its slot filled, behind the unlock of the request's mutex, or behind the test
`*number == 0` that was true. -/
inductive Pc where
  | idle
  | taken (e : Entry)
  | filled (t : TcpEntry)
  | unlocked (t : TcpEntry)
  | last (t : TcpEntry)
deriving DecidableEq, Repr

/-- A worker with its variable `missindex`, which outlives the loop's rounds. -/
structure Worker where
  pc : Pc
  missindex : UInt8
deriving DecidableEq, Repr

/-- The server with a ring of `n` slots. -/
structure State (n : Nat) where
  kache : Kache
  ring : RingBuf Entry n
  reqs : Nat → Option Req
  workers : Nat → Worker
  udpBuf : List UInt8
  udpTodo : List CStr
  exited : Bool

/-- The server before its first step. -/
def State.start {n : Nat} (kache : Kache) (udpBuf : List UInt8) (h : 0 < n) : State n where
  kache := kache
  ring := .start (.udp CStr.empty) h
  reqs := fun _ => none
  workers := fun _ => ⟨.idle, noError⟩
  udpBuf := udpBuf
  udpTodo := []
  exited := false

/-- What can be observed of a step. A slot of a second reply that was never
written is `none`. -/
inductive Event where
  | refused
  | firstReply (r : Nat) (reply : FirstReply)
  | enqueued (e : Entry)
  | taken (w : Nat) (e : Entry)
  | resolved (w : Nat) (e : Entry) (res : Option UInt32)
  | stored (key : CStr) (data : DataT)
  | decremented (w : Nat) (t : TcpEntry)
  | readFreed (w r : Nat)
  | secondReply (w r : Nat) (head : List UInt8) (slots : List (Option (UInt32 × UInt32)))
  | closed (r : Nat)
  | freed (r : Nat)
  | udpReply (reply : List UInt8)
  | exit
deriving DecidableEq

/-- The steps: a connection is served up to its first reply, `do_dns_search`
puts one entry, the UDP thread answers a datagram or puts one entry, a worker
takes an entry, fills its slot and stores the answer, runs the section under
the request's mutex, tests `*number`, and sends the second reply. `junk` is what
a read of freed memory yields, `sent` whether the kernel took the whole message. -/
inductive Act where
  | serve (r : Nat) (sock : Sock) (now : Int)
  | enqueue (r : Nat)
  | datagram (d : List UInt8) (now : Int) (sent : Bool)
  | enqueueUdp
  | take (w : Nat)
  | lookup (w : Nat) (res : Option UInt32) (now : Int)
  | decrement (w : Nat)
  | test (w : Nat) (junk : Bool)
  | finish (w : Nat) (sent : Bool) (junk : List UInt8 × List (Option (UInt32 × UInt32)))

variable {n : Nat}

def State.setReq (s : State n) (r : Nat) (q : Req) : State n :=
  { s with reqs := Function.update s.reqs r (some q) }

def State.setWorker (s : State n) (w : Nat) (wk : Worker) : State n :=
  { s with workers := Function.update s.workers w wk }

/-! ## The steps -/

/-- A request behind its first reply. Without a miss the connection is closed
and the head freed at once; otherwise `do_dns_search` has allocated its blocks. -/
def Req.opened (reply : FirstReply) : Req where
  head := reply.head
  nodes := reply.misses
  i := 0
  number := reply.misses.length
  miss := noError
  ipptr := List.replicate reply.misses.length none
  freed := reply.misses.isEmpty

/-- The entry for the `k`-th node of the miss list. -/
def Req.entry (q : Req) (r k : Nat) : Option TcpEntry :=
  (q.nodes[k]?).map fun node => ⟨r, k, q.nodes.length, node.index, node.domain⟩

/-- `serv` up to the first iteration of `do_dns_search`; the blocks of the
request `r` are new. -/
def serveStep (s : State n) (r : Nat) (sock : Sock) (now : Int) :
    Option (State n × List Event) :=
  if (s.reqs r).isSome then none
  else match serv s.kache now sock with
    | none => none
    | some .refused => some (s, [.refused])
    | some (.replied reply) =>
        some (s.setReq r (Req.opened reply),
          .firstReply r reply :: if reply.misses = [] then [.closed r] else [])

/-- One iteration of `do_dns_search`, under the mutex of the ring. -/
def enqueueStep (s : State n) (r : Nat) : Option (State n × List Event) := do
  let q ← s.reqs r
  let t ← q.entry r q.i
  -- the entry is stored and `iput` moved before the test
  if (s.ring.put (.tcp t)).Overrun then return ({ s with exited := true }, [.exit])
  else
    return ({ s.setReq r { q with i := q.i + 1 } with ring := s.ring.put (.tcp t) },
      [.enqueued (.tcp t)])

/-- A round of `udp_recv`, once the names of the last one have been put. -/
def datagramStep (s : State n) (d : List UInt8) (now : Int) (sent : Bool) :
    Option (State n × List Event) :=
  if s.udpTodo ≠ [] then none
  else match udpRecv s.kache now s.udpBuf d sent with
    | none => none
    | some (buf, none) => some ({ s with udpBuf := buf }, [])
    | some (buf, some answer) =>
        some ({ s with udpBuf := buf, udpTodo := answer.names }, [.udpReply answer.reply])

/-- One iteration of the UDP server's `do_dns_search`. -/
def enqueueUdpStep (s : State n) : Option (State n × List Event) :=
  match s.udpTodo with
  | [] => none
  | name :: names =>
      if (s.ring.put (.udp name)).Overrun then some ({ s with exited := true }, [.exit])
      else
        some ({ s with ring := s.ring.put (.udp name), udpTodo := names },
          [.enqueued (.udp name)])

/-- A worker takes an entry; it waits while the ring is empty. -/
def takeStep (s : State n) (w : Nat) : Option (State n × List Event) :=
  if (s.workers w).pc ≠ .idle then none
  else match s.ring.take with
    | none => none
    | some (e, ring) =>
        some ({ s.setWorker w ⟨.taken e, (s.workers w).missindex⟩ with ring := ring },
          [.taken w e])

/-- `dnsrequest`, with `DNS_ERROR` in place of a failed lookup, and `kache_store`.
For a TCP entry the slot of the request is filled and `missindex` set. -/
def lookupStep (s : State n) (w : Nat) (res : Option UInt32) (now : Int) :
    Option (State n × List Event) :=
  let data : DataT := ⟨res.getD dnsError, now⟩
  match (s.workers w).pc with
  | .taken (.udp domain) =>
      some ({ s.setWorker w ⟨.idle, (s.workers w).missindex⟩ with
          kache := kacheStore s.kache domain data },
        [.resolved w (.udp domain) res, .stored domain data])
  | .taken (.tcp t) => do
      let q ← s.reqs t.req
      -- the slot lies in a block of the request
      if q.freed = true ∨ q.ipptr.length ≤ t.count then none
      else
        let q' := { q with ipptr := q.ipptr.set t.count (some (t.index, data.ip)) }
        -- nothing sets `missindex` back: the next entry may be of another request
        let missindex := if res = none then haveError else (s.workers w).missindex
        return ({ (s.setReq t.req q').setWorker w ⟨.filled t, missindex⟩ with
            kache := kacheStore s.kache t.domain data },
          [.resolved w (.tcp t) res, .stored t.domain data])
  | _ => none

/-- The section under the request's mutex. -/
def decrementStep (s : State n) (w : Nat) : Option (State n × List Event) :=
  match (s.workers w).pc with
  | .filled t => do
      let q ← s.reqs t.req
      if q.freed = true then none
      else
        let miss := if (s.workers w).missindex = haveError then haveError else q.miss
        return ((s.setReq t.req { q with miss := miss, number := q.number - 1 }).setWorker w
            ⟨.unlocked t, (s.workers w).missindex⟩,
          [.decremented w t])
  | _ => none

/-- `if ((*number) == 0)`, behind the unlock: `number` may have been freed. -/
def testStep (s : State n) (w : Nat) (junk : Bool) : Option (State n × List Event) :=
  match (s.workers w).pc with
  | .unlocked t => do
      let q ← s.reqs t.req
      let zero := if q.freed then junk else decide (q.number = 0)
      return (s.setWorker w ⟨if zero then .last t else .idle, (s.workers w).missindex⟩,
        if q.freed then [.readFreed w t.req] else [])
  | _ => none

/-- The flag of a second reply, from `*miss`. -/
def secondFlag (miss : UInt8) : UInt8 :=
  if miss = haveError then secondWithError else secondWithoutError

/-- The second reply, `close` and the frees of the request's blocks. A reply
that is not written whole ends the process. -/
def finishStep (s : State n) (w : Nat) (sent : Bool)
    (junk : List UInt8 × List (Option (UInt32 × UInt32))) : Option (State n × List Event) :=
  match (s.workers w).pc with
  | .last t => do
      let q ← s.reqs t.req
      if sent = false then return ({ s with exited := true }, [.exit])
      else
        -- two workers can have found the counter of one request at 0
        let head := if q.freed then junk.1 else setFlag q.head (secondFlag q.miss)
        let slots := if q.freed then junk.2 else q.ipptr.take t.total
        return ((s.setReq t.req { q with freed := true }).setWorker w
            ⟨.idle, (s.workers w).missindex⟩,
          [.secondReply w t.req head slots, .closed t.req, .freed t.req])
  | _ => none

/-- A step of the server. -/
def step (s : State n) (a : Act) : Option (State n × List Event) :=
  if s.exited then none
  else match a with
    | .serve r sock now => serveStep s r sock now
    | .enqueue r => enqueueStep s r
    | .datagram d now sent => datagramStep s d now sent
    | .enqueueUdp => enqueueUdpStep s
    | .take w => takeStep s w
    | .lookup w res now => lookupStep s w res now
    | .decrement w => decrementStep s w
    | .test w junk => testStep s w junk
    | .finish w sent junk => finishStep s w sent junk

/-- The runs of a server that starts with the cache `kache`. -/
def Runs (kache : Kache) (udpBuf : List UInt8) (h : 0 < n) : List Event → State n → Prop :=
  Run step (fun _ _ => True) (State.start kache udpBuf h)

/-- A list of actions whose trace has the property `P`, as a run with that property. -/
theorem runs_of_exec {kache : Kache} {udpBuf : List UInt8} {h : 0 < n} (as : List Act)
    {P : List Event → Prop} [DecidablePred P]
    (hex : (exec step (State.start kache udpBuf h) as).any (fun r => decide (P r.2)) = true) :
    ∃ tr s, Runs kache udpBuf h tr s ∧ P tr := by
  rcases (Option.any_eq_true _ _).mp hex with ⟨r, hr, hP⟩
  exact ⟨r.2, r.1, Run.of_exec (fun _ _ _ => trivial) hr, of_decide_eq_true hP⟩

/-! ## What a step can do -/

/-- The steps as a relation, one constructor for each way a step can go. -/
inductive Moves (s : State n) : Act → State n → List Event → Prop where
  | refused {r : Nat} {sock : Sock} {now : Int} : Moves s (.serve r sock now) s [.refused]
  | answered {r : Nat} {sock : Sock} {now : Int} {reply : FirstReply} (hnew : s.reqs r = none)
      (hserv : serv s.kache now sock = some (.replied reply)) :
      Moves s (.serve r sock now) (s.setReq r (Req.opened reply))
        (.firstReply r reply :: if reply.misses = [] then [.closed r] else [])
  | enqueued {r : Nat} {q : Req} {t : TcpEntry} (hq : s.reqs r = some q)
      (ht : q.entry r q.i = some t) (hroom : ¬ (s.ring.put (.tcp t)).Overrun) :
      Moves s (.enqueue r) { s.setReq r { q with i := q.i + 1 } with ring := s.ring.put (.tcp t) }
        [.enqueued (.tcp t)]
  | exits {a : Act} : Moves s a { s with exited := true } [.exit]
  | ignored {d buf : List UInt8} {now : Int} {sent : Bool} :
      Moves s (.datagram d now sent) { s with udpBuf := buf } []
  | datagram {d buf reply : List UInt8} {now : Int} {sent : Bool} {names : List CStr} :
      Moves s (.datagram d now sent) { s with udpBuf := buf, udpTodo := names } [.udpReply reply]
  | enqueuedUdp {name : CStr} {names : List CStr} (hroom : ¬ (s.ring.put (.udp name)).Overrun) :
      Moves s .enqueueUdp { s with ring := s.ring.put (.udp name), udpTodo := names }
        [.enqueued (.udp name)]
  | taken {w : Nat} {e : Entry} {ring : RingBuf Entry n} (hpc : (s.workers w).pc = .idle)
      (htake : s.ring.take = some (e, ring)) :
      Moves s (.take w) { s.setWorker w ⟨.taken e, (s.workers w).missindex⟩ with ring := ring }
        [.taken w e]
  | resolvedUdp {w : Nat} {domain : CStr} {res : Option UInt32} {now : Int}
      (hpc : (s.workers w).pc = .taken (.udp domain)) :
      Moves s (.lookup w res now) { s.setWorker w ⟨.idle, (s.workers w).missindex⟩ with
          kache := kacheStore s.kache domain ⟨res.getD dnsError, now⟩ }
        [.resolved w (.udp domain) res, .stored domain ⟨res.getD dnsError, now⟩]
  | resolved {w : Nat} {t : TcpEntry} {q : Req} {res : Option UInt32} {now : Int}
      (hpc : (s.workers w).pc = .taken (.tcp t)) (hq : s.reqs t.req = some q) :
      Moves s (.lookup w res now) { (s.setReq t.req { q with
            ipptr := q.ipptr.set t.count (some (t.index, res.getD dnsError)) }).setWorker w
            ⟨.filled t, if res = none then haveError else (s.workers w).missindex⟩ with
          kache := kacheStore s.kache t.domain ⟨res.getD dnsError, now⟩ }
        [.resolved w (.tcp t) res, .stored t.domain ⟨res.getD dnsError, now⟩]
  | decremented {w : Nat} {t : TcpEntry} {q : Req} (hpc : (s.workers w).pc = .filled t)
      (hq : s.reqs t.req = some q) :
      Moves s (.decrement w) ((s.setReq t.req { q with
          miss := if (s.workers w).missindex = haveError then haveError else q.miss
          number := q.number - 1 }).setWorker w ⟨.unlocked t, (s.workers w).missindex⟩)
        [.decremented w t]
  | tested {w : Nat} {t : TcpEntry} {q : Req} {junk zero : Bool}
      (hpc : (s.workers w).pc = .unlocked t) (hq : s.reqs t.req = some q)
      (hzero : q.freed = false → zero = decide (q.number = 0)) :
      Moves s (.test w junk) (s.setWorker w ⟨if zero then .last t else .idle, (s.workers w).missindex⟩)
        (if q.freed then [.readFreed w t.req] else [])
  | finished {w : Nat} {t : TcpEntry} {q : Req} {sent : Bool} {head : List UInt8}
      {slots : List (Option (UInt32 × UInt32))}
      {junk : List UInt8 × List (Option (UInt32 × UInt32))} (hpc : (s.workers w).pc = .last t)
      (hq : s.reqs t.req = some q)
      (hlive : q.freed = false → head = setFlag q.head (secondFlag q.miss) ∧
        slots = q.ipptr.take t.total) :
      Moves s (.finish w sent junk) ((s.setReq t.req { q with freed := true }).setWorker w
          ⟨.idle, (s.workers w).missindex⟩)
        [.secondReply w t.req head slots, .closed t.req, .freed t.req]

theorem moves_of_serveStep {s s' : State n} {r : Nat} {sock : Sock} {now : Int}
    {evs : List Event} (h : serveStep s r sock now = some (s', evs)) : Moves s (.serve r sock now) s' evs := by
  unfold serveStep at h
  split at h
  · simp at h
  · rename_i hnone
    have hnew : s.reqs r = none := by simpa using hnone
    split at h
    · simp at h
    · cases h
      exact .refused
    · rename_i reply hserv
      cases h
      exact .answered hnew hserv

theorem moves_of_enqueueStep {s s' : State n} {r : Nat} {evs : List Event}
    (h : enqueueStep s r = some (s', evs)) : Moves s (.enqueue r) s' evs := by
  simp only [enqueueStep, Option.bind_eq_bind, Option.bind_eq_some_iff, Option.pure_def] at h
  rcases h with ⟨q, hq, t, ht, h⟩
  split at h
  · cases h
    exact .exits
  · rename_i hroom
    cases h
    exact .enqueued hq ht hroom

theorem moves_of_datagramStep {s s' : State n} {d : List UInt8} {now : Int} {sent : Bool}
    {evs : List Event} (h : datagramStep s d now sent = some (s', evs)) : Moves s (.datagram d now sent) s' evs := by
  unfold datagramStep at h
  split at h
  · simp at h
  · split at h
    · simp at h
    · cases h
      exact .ignored
    · cases h
      exact .datagram

theorem moves_of_enqueueUdpStep {s s' : State n} {evs : List Event}
    (h : enqueueUdpStep s = some (s', evs)) : Moves s .enqueueUdp s' evs := by
  unfold enqueueUdpStep at h
  split at h
  · simp at h
  · split at h
    · cases h
      exact .exits
    · rename_i hroom
      cases h
      exact .enqueuedUdp hroom

theorem moves_of_takeStep {s s' : State n} {w : Nat} {evs : List Event}
    (h : takeStep s w = some (s', evs)) : Moves s (.take w) s' evs := by
  unfold takeStep at h
  split at h
  · simp at h
  · rename_i hpc
    split at h
    · simp at h
    · rename_i htake
      cases h
      exact .taken (not_not.mp hpc) htake

theorem moves_of_lookupStep {s s' : State n} {w : Nat} {res : Option UInt32} {now : Int}
    {evs : List Event} (h : lookupStep s w res now = some (s', evs)) : Moves s (.lookup w res now) s' evs := by
  unfold lookupStep at h
  split at h
  · rename_i hpc
    cases h
    exact .resolvedUdp hpc
  · rename_i t hpc
    simp only [Option.bind_eq_bind, Option.bind_eq_some_iff, Option.pure_def] at h
    rcases h with ⟨q, hq, h⟩
    split at h
    · simp at h
    · cases h
      exact .resolved hpc hq
  · simp at h

theorem moves_of_decrementStep {s s' : State n} {w : Nat} {evs : List Event}
    (h : decrementStep s w = some (s', evs)) : Moves s (.decrement w) s' evs := by
  unfold decrementStep at h
  split at h
  · rename_i t hpc
    simp only [Option.bind_eq_bind, Option.bind_eq_some_iff, Option.pure_def] at h
    rcases h with ⟨q, hq, h⟩
    split at h
    · simp at h
    · cases h
      exact .decremented hpc hq
  · simp at h

theorem moves_of_testStep {s s' : State n} {w : Nat} {junk : Bool} {evs : List Event}
    (h : testStep s w junk = some (s', evs)) : Moves s (.test w junk) s' evs := by
  unfold testStep at h
  split at h
  · rename_i t hpc
    simp only [Option.bind_eq_bind, Option.bind_eq_some_iff, Option.pure_def,
      Option.some.injEq] at h
    rcases h with ⟨q, hq, h⟩
    cases h
    exact .tested hpc hq fun hlive => by rw [hlive]; rfl
  · simp at h

theorem moves_of_finishStep {s s' : State n} {w : Nat} {sent : Bool}
    {junk : List UInt8 × List (Option (UInt32 × UInt32))} {evs : List Event}
    (h : finishStep s w sent junk = some (s', evs)) : Moves s (.finish w sent junk) s' evs := by
  unfold finishStep at h
  split at h
  · rename_i t hpc
    simp only [Option.bind_eq_bind, Option.bind_eq_some_iff, Option.pure_def] at h
    rcases h with ⟨q, hq, h⟩
    split at h
    · cases h
      exact .exits
    · cases h
      exact .finished hpc hq fun hlive => by rw [hlive]; exact ⟨rfl, rfl⟩
  · simp at h

/-- Every step is one of the moves, made by a process that has not exited. -/
theorem moves_of_step {s s' : State n} {a : Act} {evs : List Event}
    (h : step s a = some (s', evs)) : s.exited = false ∧ Moves s a s' evs := by
  unfold step at h
  split at h
  · simp at h
  · rename_i hexited
    refine ⟨by simpa using hexited, ?_⟩
    cases a with
    | serve r sock now => exact moves_of_serveStep h
    | enqueue r => exact moves_of_enqueueStep h
    | datagram d now sent => exact moves_of_datagramStep h
    | enqueueUdp => exact moves_of_enqueueUdpStep h
    | take w => exact moves_of_takeStep h
    | lookup w res now => exact moves_of_lookupStep h
    | decrement w => exact moves_of_decrementStep h
    | test w junk => exact moves_of_testStep h
    | finish w sent junk => exact moves_of_finishStep h

/-! ## Single steps -/

theorem step_serve_replied {s s' : State n} {evs : List Event} {r : Nat} {sock : Sock} {now : Int} {reply : FirstReply}
    (hserv : serv s.kache now sock = some (.replied reply))
    (hstep : step s (.serve r sock now) = some (s', evs)) :
    s.reqs r = none ∧ s' = s.setReq r (Req.opened reply) ∧
      evs = .firstReply r reply :: if reply.misses = [] then [.closed r] else [] := by
  unfold step serveStep at hstep
  split at hstep
  · simp at hstep
  · dsimp only at hstep
    split at hstep
    · simp at hstep
    · rename_i hnone
      rw [hserv] at hstep
      cases hstep
      exact ⟨by simpa using hnone, rfl, rfl⟩

theorem step_serve {s : State n} {r : Nat} {sock : Sock} {now : Int} {reply : FirstReply}
    (hlive : s.exited = false) (hnew : s.reqs r = none)
    (hserv : serv s.kache now sock = some (.replied reply)) :
    step s (.serve r sock now) = some (s.setReq r (Req.opened reply),
      .firstReply r reply :: if reply.misses = [] then [.closed r] else []) := by
  simp [step, serveStep, hlive, hnew, hserv]

/-- A first reply is what `serv` answered. -/
theorem step_serve_firstReply {s s' : State n} {evs : List Event} {r : Nat} {sock : Sock} {now : Int}
    {reply : FirstReply} (hstep : step s (.serve r sock now) = some (s', evs))
    (hreply : .firstReply r reply ∈ evs) : serv s.kache now sock = some (.replied reply) := by
  have hm := (moves_of_step hstep).2
  cases hm with
  | refused => simp at hreply
  | exits => simp at hreply
  | answered _ hserv =>
      rw [hserv]
      rcases List.mem_cons.mp hreply with h | h
      · cases h
        rfl
      · split at h <;> simp at h

theorem step_datagram_none {s : State n} {d : List UInt8} {now : Int} {sent : Bool}
    (hrecv : udpRecv s.kache now s.udpBuf d sent = none) : step s (.datagram d now sent) = none := by
  simp only [step, datagramStep, hrecv]
  split
  · rfl
  · split <;> rfl

/-- A round of `udp_recv` that sends a reply. -/
theorem step_datagram_answered {s s' : State n} {evs : List Event} {d b : List UInt8} {now : Int}
    {sent : Bool} {answer : UdpAnswer} (hrecv : udpRecv s.kache now s.udpBuf d sent = some (b, some answer))
    (hstep : step s (.datagram d now sent) = some (s', evs)) :
    s.udpTodo = [] ∧ s' = { s with udpBuf := b, udpTodo := answer.names } ∧
      evs = [.udpReply answer.reply] := by
  unfold step datagramStep at hstep
  split at hstep
  · simp at hstep
  · dsimp only at hstep
    split at hstep
    · simp at hstep
    · rename_i htodo
      rw [hrecv] at hstep
      cases hstep
      exact ⟨not_not.mp htodo, rfl, rfl⟩

end DnsCache

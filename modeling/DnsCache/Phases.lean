import DnsCache.Server

/-! # The life of a ring entry

The entries of the TCP requests, seen one by one: an entry is put into the
ring, taken by one worker, looked up by it and counted down by it, and no two
of these happen to it twice. The ring, the workers and the trace are three
views of this one history.

* `Phase`, `Phase.Next`: the abstract life of an entry.
* `Tracks`: the ring, the workers and the trace agree on the phase of every entry.
* `tracks_step`, `runs_tracks`: every step moves at most one entry, to its next
  phase, and every run keeps the three in agreement.
-/

namespace DnsCache

open Trace

/-! ## The abstract life -/

/-- How far an entry has come: not put yet, in the ring, in the hands of a
worker, looked up by it, counted down. -/
inductive Phase where
  | waiting
  | queued
  | held (w : Nat)
  | filled (w : Nat) (res : Option UInt32)
  | done (res : Option UInt32)
deriving DecidableEq

inductive Phase.Next : Phase → Phase → Prop where
  | put : Next .waiting .queued
  | take (w : Nat) : Next .queued (.held w)
  | fill (w : Nat) (res : Option UInt32) : Next (.held w) (.filled w res)
  | countDown (w : Nat) (res : Option UInt32) : Next (.filled w res) (.done res)

/-- What has been found out about the entry. -/
def Phase.result : Phase → Option (Option UInt32)
  | .filled _ res => some res
  | .done res => some res
  | _ => none

def Phase.isDone : Phase → Bool
  | .done _ => true
  | _ => false

/-- No entry moves, or one entry moves to its next phase. -/
inductive Advances (ph : TcpEntry → Phase) : (TcpEntry → Phase) → Prop where
  | stay : Advances ph ph
  | move {t : TcpEntry} {p : Phase} (hnext : (ph t).Next p) :
      Advances ph (Function.update ph t p)

/-! ## What the trace says -/

/-- The results of the lookups made for the entry `t`. -/
def lookups (t : TcpEntry) (tr : List Event) : List (Option UInt32) :=
  tr.filterMap fun
    | .resolved _ (.tcp t') res => if t' = t then some res else none
    | _ => none

/-- The entries counted down, in this order. -/
def countdown (tr : List Event) : List TcpEntry :=
  tr.filterMap fun
    | .decremented _ t => some t
    | _ => none

@[simp] theorem lookups_append (t : TcpEntry) (tr evs : List Event) :
    lookups t (tr ++ evs) = lookups t tr ++ lookups t evs := List.filterMap_append

@[simp] theorem countdown_append (tr evs : List Event) :
    countdown (tr ++ evs) = countdown tr ++ countdown evs := List.filterMap_append

/-! ## What the state says -/

/-- `do_dns_search` has put the entry `t` of the request `q` into the ring. -/
def Req.Put (q : Req) (t : TcpEntry) : Prop :=
  t.count < q.i ∧ q.entry t.req t.count = some t

def State.Put {n : Nat} (s : State n) (t : TcpEntry) : Prop :=
  ∃ q, s.reqs t.req = some q ∧ q.Put t

/-- The ring, the workers and the trace agree that the entry `t` is in the phase `p`. -/
structure Tracked {n : Nat} (tr : List Event) (s : State n) (t : TcpEntry) (p : Phase) : Prop where
  waiting : p = .waiting ↔ ¬ s.Put t
  queued : s.ring.toList.count (.tcp t) = if p = .queued then 1 else 0
  held : ∀ w, (s.workers w).pc = .taken (.tcp t) ↔ p = .held w
  filled : ∀ w, (s.workers w).pc = .filled t ↔ ∃ res, p = .filled w res
  unlocked : ∀ w, (s.workers w).pc = .unlocked t ∨ (s.workers w).pc = .last t → p.isDone = true
  lookups : lookups t tr = p.result.toList
  countdown : (countdown tr).count t = if p.isDone then 1 else 0

/-- They agree on the phase of every entry. -/
def Tracks {n : Nat} (tr : List Event) (s : State n) (ph : TcpEntry → Phase) : Prop :=
  ∀ t, Tracked tr s t (ph t)

variable {n : Nat} {tr evs : List Event} {s s' : State n} {a : Act} {ph : TcpEntry → Phase}

/-! ## The views after an update -/

@[simp] theorem State.setReq_reqs (s : State n) (r : Nat) (q : Req) :
    (s.setReq r q).reqs = Function.update s.reqs r (some q) := rfl

@[simp] theorem State.setReq_workers (s : State n) (r : Nat) (q : Req) :
    (s.setReq r q).workers = s.workers := rfl

@[simp] theorem State.setReq_ring (s : State n) (r : Nat) (q : Req) :
    (s.setReq r q).ring = s.ring := rfl

@[simp] theorem State.setReq_exited (s : State n) (r : Nat) (q : Req) :
    (s.setReq r q).exited = s.exited := rfl

@[simp] theorem State.setWorker_reqs (s : State n) (w : Nat) (wk : Worker) :
    (s.setWorker w wk).reqs = s.reqs := rfl

@[simp] theorem State.setWorker_workers (s : State n) (w : Nat) (wk : Worker) :
    (s.setWorker w wk).workers = Function.update s.workers w wk := rfl

@[simp] theorem State.setWorker_ring (s : State n) (w : Nat) (wk : Worker) :
    (s.setWorker w wk).ring = s.ring := rfl

@[simp] theorem State.setWorker_exited (s : State n) (w : Nat) (wk : Worker) :
    (s.setWorker w wk).exited = s.exited := rfl

theorem Req.entry_eq_some_iff {q : Req} {r k : Nat} {t : TcpEntry} :
    q.entry r k = some t ↔ ∃ node, q.nodes[k]? = some node ∧
      t = ⟨r, k, q.nodes.length, node.index, node.domain⟩ := by
  unfold Req.entry
  rw [Option.map_eq_some_iff]
  constructor
  · rintro ⟨node, hnode, rfl⟩
    exact ⟨node, hnode, rfl⟩
  · rintro ⟨node, hnode, rfl⟩
    exact ⟨node, hnode, rfl⟩

theorem Req.entry_req {q : Req} {r k : Nat} {t : TcpEntry} (h : q.entry r k = some t) :
    t.req = r ∧ t.count = k ∧ t.total = q.nodes.length ∧ k < q.nodes.length := by
  rcases Req.entry_eq_some_iff.mp h with ⟨node, hnode, rfl⟩
  exact ⟨rfl, rfl, rfl, (List.getElem?_eq_some_iff.mp hnode).1⟩

/-- An update that keeps the node list and the number of nodes put. -/
theorem put_update_iff {r : Nat} {q q' : Req} (hq : s.reqs r = some q)
    (hreqs : s'.reqs = Function.update s.reqs r (some q')) (hi : q'.i = q.i)
    (hnodes : q'.nodes = q.nodes) (t : TcpEntry) : s'.Put t ↔ s.Put t := by
  unfold State.Put Req.Put Req.entry
  rw [hreqs]
  by_cases ht : t.req = r
  · subst ht
    simp [hq, hi, hnodes]
  · simp [Function.update_of_ne ht]

theorem State.Put.entry {t : TcpEntry} {q : Req} (h : s.Put t) (hq : s.reqs t.req = some q) :
    q.entry t.req t.count = some t := by
  rcases h with ⟨q', hq', -, hent⟩
  rw [hq, Option.some.injEq] at hq'
  subst hq'
  exact hent

theorem not_put_of_new {t : TcpEntry} (hnew : s.reqs t.req = none) : ¬ s.Put t := by
  rintro ⟨q, hq, -⟩
  rw [hnew] at hq
  simp at hq

/-- A property of a program counter that the change of one worker does not bring about. -/
theorem pc_of_update {w : Nat} {wk : Worker} {p : Pc → Prop} (hwk : p wk.pc → p (s.workers w).pc)
    (w' : Nat) : p (Function.update s.workers w wk w').pc → p (s.workers w').pc :=
  (Function.forall_update_iff s.workers fun w' wk' => p wk'.pc → p (s.workers w').pc).mpr
    ⟨hwk, fun _ _ => id⟩ w'

theorem missindex_of_update {w : Nat} {pc : Pc} (w' : Nat) :
    (Function.update s.workers w ⟨pc, (s.workers w).missindex⟩ w').missindex =
      (s.workers w').missindex := by
  by_cases hw' : w' = w
  · rw [hw', Function.update_self]
  · rw [Function.update_of_ne hw']

/-- Every request of the updated table stands in the relation `R` to the one it
replaces, if the new request does. -/
theorem req_of_update {R : Req → Req → Prop} (hrefl : ∀ q, R q q) {r : Nat} {q q' : Req}
    (hq : s.reqs r = some q) (hqq' : R q q') {r₁ : Nat} {q₁' : Req}
    (hq₁' : Function.update s.reqs r (some q') r₁ = some q₁') :
    ∃ q₁, s.reqs r₁ = some q₁ ∧ R q₁ q₁' := by
  by_cases hr : r₁ = r
  · subst hr
    rw [Function.update_self, Option.some.injEq] at hq₁'
    subst hq₁'
    exact ⟨q, hq, hqq'⟩
  · rw [Function.update_of_ne hr] at hq₁'
    exact ⟨q₁', hq₁', hrefl q₁'⟩

/-- A number that is not in use after the update was not in use before. -/
theorem req_none_of_update {r r₁ : Nat} {q : Req}
    (h : Function.update s.reqs r (some q) r₁ = none) : r₁ ≠ r ∧ s.reqs r₁ = none := by
  by_cases hr : r₁ = r
  · rw [hr, Function.update_self] at h
    cases h
  · rw [Function.update_of_ne hr] at h
    exact ⟨hr, h⟩

/-- The entries put once the next node of the request `r` is in the ring. -/
theorem put_succ_iff {r : Nat} {q : Req} {t : TcpEntry} (hq : s.reqs r = some q)
    (ht : q.entry r q.i = some t)
    (hreqs : s'.reqs = Function.update s.reqs r (some { q with i := q.i + 1 })) (t' : TcpEntry) :
    s'.Put t' ↔ s.Put t' ∨ t' = t := by
  rcases Req.entry_req ht with ⟨hreq, hcount, -, -⟩
  unfold State.Put Req.Put
  by_cases hr : t'.req = r
  · rw [hreqs, hr, Function.update_self, hq]
    constructor
    · rintro ⟨q', hq', hlt, hent⟩
      cases hq'
      rcases Nat.lt_succ_iff_lt_or_eq.mp hlt with hlt | heq
      · exact .inl ⟨q, rfl, hlt, hent⟩
      · -- the position put now belongs to the entry put now
        rw [heq] at hent
        exact .inr (Option.some.inj (hent.symm.trans ht))
    · rintro (⟨q', hq', hlt, hent⟩ | rfl)
      · cases hq'
        exact ⟨_, rfl, Nat.lt_succ_of_lt hlt, hent⟩
      · refine ⟨_, rfl, ?_, ?_⟩
        · rw [hcount]
          exact Nat.lt_succ_self _
        · rw [hcount]
          exact ht
  · rw [hreqs, Function.update_of_ne hr, or_iff_left]
    rintro rfl
    exact hr hreq

/-! ## Entries that a step leaves alone -/

/-- The two states look alike from the entry `t`. -/
structure SameView (s s' : State n) (t : TcpEntry) : Prop where
  put : s'.Put t ↔ s.Put t
  queued : s'.ring.toList.count (.tcp t) = s.ring.toList.count (.tcp t)
  held : ∀ w, (s'.workers w).pc = .taken (.tcp t) ↔ (s.workers w).pc = .taken (.tcp t)
  filled : ∀ w, (s'.workers w).pc = .filled t ↔ (s.workers w).pc = .filled t
  unlocked : ∀ w, (s'.workers w).pc = .unlocked t ∨ (s'.workers w).pc = .last t →
    (s.workers w).pc = .unlocked t ∨ (s.workers w).pc = .last t

theorem Tracked.frame {t : TcpEntry} {p : Phase} (h : Tracked tr s t p) (hview : SameView s s' t)
    (hlookups : DnsCache.lookups t evs = []) (hcountdown : t ∉ DnsCache.countdown evs) :
    Tracked (tr ++ evs) s' t p where
  waiting := by rw [h.waiting, hview.put]
  queued := by rw [hview.queued, h.queued]
  held w := by rw [hview.held, h.held]
  filled w := by rw [hview.filled, h.filled]
  unlocked w hpc := h.unlocked w (hview.unlocked w hpc)
  lookups := by rw [lookups_append, hlookups, List.append_nil, h.lookups]
  countdown := by
    rw [countdown_append, List.count_append, List.count_eq_zero_of_not_mem hcountdown,
      Nat.add_zero, h.countdown]

/-- A change in which neither the ring nor a worker takes part. -/
theorem SameView.of_eq {t : TcpEntry} (hput : s'.Put t ↔ s.Put t) (hring : s'.ring = s.ring)
    (hworkers : s'.workers = s.workers) : SameView s s' t := by
  constructor
  · exact hput
  · rw [hring]
  · rw [hworkers]
    exact fun _ => Iff.rfl
  · rw [hworkers]
    exact fun _ => Iff.rfl
  · rw [hworkers]
    exact fun _ => id

/-- The entry a worker holds: it has taken it and not counted it down. -/
def Pc.entry : Pc → Option TcpEntry
  | .taken (.tcp t) => some t
  | .filled t => some t
  | _ => none

/-- The entry a worker has counted down in this round of its loop. -/
def Pc.counted : Pc → Option TcpEntry
  | .unlocked t => some t
  | .last t => some t
  | _ => none

theorem Pc.counted_eq_some_iff {pc : Pc} {t : TcpEntry} :
    pc.counted = some t ↔ pc = .unlocked t ∨ pc = .last t := by
  cases pc <;> simp [Pc.counted]

/-- A change of a worker that holds other entries before and after. -/
theorem SameView.of_worker {t : TcpEntry} {w : Nat} {wk : Worker} (hput : s'.Put t ↔ s.Put t)
    (hring : s'.ring.toList.count (.tcp t) = s.ring.toList.count (.tcp t))
    (hworkers : s'.workers = Function.update s.workers w wk)
    (hold : (s.workers w).pc.entry ≠ some t) (hnew : wk.pc.entry ≠ some t)
    (hcounted : wk.pc.counted = some t → (s.workers w).pc.counted = some t) :
    SameView s s' t := by
  have hother : ∀ w', w' ≠ w → s'.workers w' = s.workers w' := by
    intro w' hw'
    rw [hworkers, Function.update_of_ne hw']
  have hself : s'.workers w = wk := by rw [hworkers, Function.update_self]
  -- the worker is at no state that holds `t`, before or after
  have hkeep : ∀ {pc : Pc}, pc.entry = some t →
      ∀ w', (s'.workers w').pc = pc ↔ (s.workers w').pc = pc := by
    intro pc hpc w'
    by_cases hw' : w' = w
    · subst hw'
      rw [hself]
      constructor
      · intro heq
        exact absurd (by rw [heq, hpc]) hnew
      · intro heq
        exact absurd (by rw [heq, hpc]) hold
    · rw [hother w' hw']
  constructor
  · exact hput
  · exact hring
  · exact hkeep rfl
  · exact hkeep rfl
  · intro w' hpc
    by_cases hw' : w' = w
    · subst hw'
      rw [hself, ← Pc.counted_eq_some_iff] at hpc
      exact Pc.counted_eq_some_iff.mp (hcounted hpc)
    · rwa [hother w' hw'] at hpc

/-- A step that leaves every entry but `t` alone and moves `t` to the phase `p`. -/
theorem Tracks.move {t : TcpEntry} {p : Phase} (h : Tracks tr s ph)
    (hview : ∀ t', t' ≠ t → SameView s s' t')
    (hlookups : ∀ t', t' ≠ t → lookups t' evs = [])
    (hcountdown : ∀ t', t' ≠ t → t' ∉ countdown evs) (hself : Tracked (tr ++ evs) s' t p) :
    Tracks (tr ++ evs) s' (Function.update ph t p) := by
  intro t'
  by_cases hne : t' = t
  · subst hne
    rw [Function.update_self]
    exact hself
  · rw [Function.update_of_ne hne]
    exact (h t').frame (hview t' hne) (hlookups t' hne) (hcountdown t' hne)

/-- A worker moves the entry `t` from the phase `p` to `p'`: before and after, `t`
is in the hands of no other worker. -/
theorem Tracked.advance {w : Nat} {wk : Worker} {t : TcpEntry} {p p' : Phase}
    (h : Tracked tr s t p) (hp : p ≠ .waiting) (hnext : p.Next p') (hput : s'.Put t ↔ s.Put t)
    (hqueued : s'.ring.toList.count (.tcp t) = if p' = .queued then 1 else 0)
    (hworkers : s'.workers = Function.update s.workers w wk)
    (hheld : wk.pc = .taken (.tcp t) ↔ p' = .held w)
    (hfilled : wk.pc = .filled t ↔ ∃ res, p' = .filled w res)
    (hcounted : wk.pc.counted = some t → p'.isDone = true)
    (hothers : ∀ w', w' ≠ w → (p = .held w' ↔ p' = .held w') ∧
      ((∃ res, p = .filled w' res) ↔ ∃ res, p' = .filled w' res))
    (hlookups : DnsCache.lookups t (tr ++ evs) = p'.result.toList)
    (hcountdown : (DnsCache.countdown (tr ++ evs)).count t = if p'.isDone then 1 else 0) :
    Tracked (tr ++ evs) s' t p' := by
  constructor
  · rw [hput, ← h.waiting]
    exact ⟨fun hp' => absurd hp' (by cases hnext <;> exact nofun), fun hw => absurd hw hp⟩
  · exact hqueued
  · rw [hworkers]
    refine (Function.forall_update_iff s.workers fun w' wk' =>
      wk'.pc = .taken (.tcp t) ↔ p' = .held w').mpr ⟨hheld, fun w' hw' => ?_⟩
    rw [h.held, (hothers w' hw').1]
  · rw [hworkers]
    refine (Function.forall_update_iff s.workers fun w' wk' =>
      wk'.pc = .filled t ↔ ∃ res, p' = .filled w' res).mpr ⟨hfilled, fun w' hw' => ?_⟩
    rw [h.filled, (hothers w' hw').2]
  · rw [hworkers]
    refine (Function.forall_update_iff s.workers fun w' wk' =>
      wk'.pc = .unlocked t ∨ wk'.pc = .last t → p'.isDone = true).mpr ⟨?_, fun w' _ hpc => ?_⟩
    · rw [← Pc.counted_eq_some_iff]
      exact hcounted
    · -- an entry that was done cannot have moved
      have hdone := h.unlocked w' hpc
      cases hnext <;> simp [Phase.isDone] at hdone
  · exact hlookups
  · exact hcountdown

/-! ## The four steps that move an entry -/

/-- `do_dns_search` puts the entry of the next node. -/
theorem Tracks.put {r : Nat} {q : Req} {t : TcpEntry} (h : Tracks tr s ph)
    (hq : s.reqs r = some q) (ht : q.entry r q.i = some t)
    (hroom : ¬ (s.ring.put (.tcp t)).Overrun)
    (hreqs : s'.reqs = Function.update s.reqs r (some { q with i := q.i + 1 }))
    (hring : s'.ring = s.ring.put (.tcp t)) (hworkers : s'.workers = s.workers) :
    ∃ ph', Advances ph ph' ∧ Tracks (tr ++ [.enqueued (.tcp t)]) s' ph' := by
  have hput := put_succ_iff hq ht hreqs
  have hwait : ph t = .waiting := by
    -- only the positions below `i` have been put
    rw [(h t).waiting]
    rcases Req.entry_req ht with ⟨hreq, hcount, -, -⟩
    rintro ⟨q', hq', hlt, -⟩
    rw [hreq, hq, Option.some.injEq] at hq'
    subst hq'
    omega
  have hqueue : ∀ t', s'.ring.toList.count (.tcp t') =
      s.ring.toList.count (.tcp t') + if t' = t then 1 else 0 := by
    intro t'
    rw [hring, RingBuf.toList_put hroom, List.count_append, List.count_singleton]
    simp only [beq_iff_eq, Entry.tcp.injEq, @eq_comm _ t t']
  have hnext : (ph t).Next .queued := by
    rw [hwait]
    exact .put
  refine ⟨_, .move hnext, h.move ?_ (fun _ _ => rfl) (fun _ _ => List.not_mem_nil) ?_⟩
  · intro t' hne
    constructor
    · rw [hput, or_iff_left hne]
    · rw [hqueue, if_neg hne, Nat.add_zero]
    · rw [hworkers]
      exact fun _ => Iff.rfl
    · rw [hworkers]
      exact fun _ => Iff.rfl
    · rw [hworkers]
      exact fun _ => id
  · have hold := h t
    rw [hwait] at hold
    constructor
    · exact ⟨nofun, fun hno => absurd ((hput t).mpr (.inr rfl)) hno⟩
    · rw [hqueue, hold.queued]
      simp
    · intro w
      rw [hworkers, hold.held]
      simp
    · intro w
      rw [hworkers, hold.filled]
      simp
    · intro w hpc
      rw [hworkers] at hpc
      exact hold.unlocked w hpc
    · rw [lookups_append, hold.lookups]
      rfl
    · rw [countdown_append, List.count_append, hold.countdown]
      rfl

/-- A worker takes an entry of a TCP request. -/
theorem Tracks.take {w : Nat} {t : TcpEntry} {ring : RingBuf Entry n} {m : UInt8}
    (h : Tracks tr s ph) (hpc : (s.workers w).pc = .idle)
    (htake : s.ring.take = some (.tcp t, ring)) (hreqs : s'.reqs = s.reqs) (hring : s'.ring = ring)
    (hworkers : s'.workers = Function.update s.workers w ⟨.taken (.tcp t), m⟩) :
    ∃ ph', Advances ph ph' ∧ Tracks (tr ++ [.taken w (.tcp t)]) s' ph' := by
  have hlist := RingBuf.toList_take htake
  have hqueue : ∀ t', s.ring.toList.count (.tcp t') =
      s'.ring.toList.count (.tcp t') + if t' = t then 1 else 0 := by
    intro t'
    rw [hring, hlist, List.count_cons]
    simp only [beq_iff_eq, Entry.tcp.injEq, @eq_comm _ t t']
  have hput : ∀ t', s'.Put t' ↔ s.Put t' := by
    intro t'
    unfold State.Put
    rw [hreqs]
  have hqueued : ph t = .queued := by
    by_contra hno
    have hzero := (h t).queued
    rw [hqueue, if_pos rfl, if_neg hno] at hzero
    omega
  have hnext : (ph t).Next (.held w) := by
    rw [hqueued]
    exact .take w
  refine ⟨_, .move hnext, h.move ?_ (fun _ _ => rfl) (fun _ _ => List.not_mem_nil) ?_⟩
  · intro t' hne
    refine .of_worker (hput t') ?_ hworkers ?_ ?_ nofun
    · rw [hqueue, if_neg hne, Nat.add_zero]
    · rw [hpc]
      exact nofun
    · intro heq
      exact hne (Option.some.inj heq).symm
  · have hold := h t
    rw [hqueued] at hold hnext
    have hzero : s'.ring.toList.count (.tcp t) = 0 := by
      have hone := hold.queued
      rw [hqueue, if_pos rfl, if_pos rfl] at hone
      omega
    refine hold.advance nofun hnext (hput t) hzero hworkers (by simp) (by simp) nofun ?_ ?_ ?_
    · intro w' hw'
      have hne : ¬ w = w' := fun heq => hw' heq.symm
      simp [hne]
    · rw [lookups_append, hold.lookups]
      rfl
    · rw [countdown_append, List.count_append, hold.countdown]
      rfl

/-- A worker looks up the entry it has taken. -/
theorem Tracks.fill {w : Nat} {t : TcpEntry} {res : Option UInt32} {data : DataT} {m : UInt8}
    (h : Tracks tr s ph) (hpc : (s.workers w).pc = .taken (.tcp t))
    (hput : ∀ t', s'.Put t' ↔ s.Put t') (hring : s'.ring = s.ring)
    (hworkers : s'.workers = Function.update s.workers w ⟨.filled t, m⟩) :
    ∃ ph', Advances ph ph' ∧
      Tracks (tr ++ [.resolved w (.tcp t) res, .stored t.domain data]) s' ph' := by
  have hheld : ph t = .held w := ((h t).held w).mp hpc
  have hnext : (ph t).Next (.filled w res) := by
    rw [hheld]
    exact .fill w res
  refine ⟨_, .move hnext, h.move ?_ ?_ (fun _ _ => List.not_mem_nil) ?_⟩
  · intro t' hne
    refine .of_worker (hput t') (by rw [hring]) hworkers ?_ ?_ nofun
    · rw [hpc]
      intro heq
      exact hne (Option.some.inj heq).symm
    · intro heq
      exact hne (Option.some.inj heq).symm
  · intro t' hne
    have hne' : ¬ t = t' := fun heq => hne heq.symm
    simp [lookups, hne']
  · have hold := h t
    rw [hheld] at hold hnext
    refine hold.advance nofun hnext (hput t) ?_ hworkers (by simp) (by simp) nofun ?_ ?_ ?_
    · rw [hring, hold.queued]
      rfl
    · intro w' hw'
      have hne : ¬ w = w' := fun heq => hw' heq.symm
      simp [hne]
    · rw [lookups_append, hold.lookups]
      simp [DnsCache.lookups, Phase.result]
    · rw [countdown_append, List.count_append, hold.countdown]
      rfl

/-- A worker counts down the entry it has looked up. -/
theorem Tracks.countDown {w : Nat} {t : TcpEntry} {m : UInt8} (h : Tracks tr s ph)
    (hpc : (s.workers w).pc = .filled t) (hput : ∀ t', s'.Put t' ↔ s.Put t')
    (hring : s'.ring = s.ring)
    (hworkers : s'.workers = Function.update s.workers w ⟨.unlocked t, m⟩) :
    ∃ ph', Advances ph ph' ∧ Tracks (tr ++ [.decremented w t]) s' ph' := by
  rcases ((h t).filled w).mp hpc with ⟨res, hfilled⟩
  have hnext : (ph t).Next (.done res) := by
    rw [hfilled]
    exact .countDown w res
  refine ⟨_, .move hnext, h.move ?_ (fun _ _ => rfl) ?_ ?_⟩
  · intro t' hne
    refine .of_worker (hput t') (by rw [hring]) hworkers ?_ nofun ?_
    · rw [hpc]
      intro heq
      exact hne (Option.some.inj heq).symm
    · intro heq
      exact absurd (Option.some.inj heq).symm hne
  · intro t' hne
    exact List.not_mem_cons_of_ne_of_not_mem hne List.not_mem_nil
  · have hold := h t
    rw [hfilled] at hold hnext
    refine hold.advance nofun hnext (hput t) ?_ hworkers (by simp) (by simp) (fun _ => rfl) ?_ ?_ ?_
    · rw [hring, hold.queued]
      rfl
    · intro w' hw'
      have hne : ¬ w = w' := fun heq => hw' heq.symm
      simp [hne]
    · rw [lookups_append, hold.lookups]
      rfl
    · rw [countdown_append, List.count_append, hold.countdown]
      simp [DnsCache.countdown, Phase.isDone]

/-! ## Every step, every run -/

/-- The step lemma: a step moves at most one entry, to its next phase. -/
theorem tracks_step (h : Tracks tr s ph) (hm : Moves s a s' evs) :
    ∃ ph', Advances ph ph' ∧ Tracks (tr ++ evs) s' ph' := by
  have keep : ∀ {s₁ : State n} {evs₁ : List Event}, (∀ t, SameView s s₁ t) →
      (∀ t, lookups t evs₁ = []) → countdown evs₁ = [] →
      ∃ ph', Advances ph ph' ∧ Tracks (tr ++ evs₁) s₁ ph' := by
    intro s₁ evs₁ hview hlookups hcountdown
    refine ⟨ph, .stay, fun t => (h t).frame (hview t) (hlookups t) ?_⟩
    rw [hcountdown]
    exact List.not_mem_nil
  cases hm with
  | refused => exact keep (fun t => .of_eq Iff.rfl rfl rfl) (fun _ => rfl) rfl
  | @answered r _ _ reply hnew =>
      refine keep (fun t => .of_eq ?_ rfl rfl) ?_ ?_
      · -- of a new request nothing has been put
        unfold State.Put
        by_cases hr : t.req = r
        · subst hr
          simp [Req.Put, Req.opened, hnew]
        · rw [State.setReq_reqs, Function.update_of_ne hr]
      · intro t
        split <;> rfl
      · split <;> rfl
  | enqueued hq ht hroom => exact h.put hq ht hroom rfl rfl rfl
  | exits => exact keep (fun t => .of_eq Iff.rfl rfl rfl) (fun _ => rfl) rfl
  | ignored => exact keep (fun t => .of_eq Iff.rfl rfl rfl) (fun _ => rfl) rfl
  | datagram => exact keep (fun t => .of_eq Iff.rfl rfl rfl) (fun _ => rfl) rfl
  | enqueuedUdp hroom =>
      refine keep (fun t => ⟨Iff.rfl, ?_, fun _ => Iff.rfl, fun _ => Iff.rfl, fun _ => id⟩)
        (fun _ => rfl) rfl
      rw [RingBuf.toList_put hroom, List.count_append]
      simp
  | @taken w e ring hpc htake =>
      cases e with
      | tcp t => exact h.take hpc htake rfl rfl rfl
      | udp name =>
          refine keep (fun t => .of_worker Iff.rfl ?_ rfl ?_ nofun nofun) (fun _ => rfl) rfl
          · rw [RingBuf.toList_take htake, List.count_cons]
            simp
          · rw [hpc]
            exact nofun
  | resolvedUdp hpc =>
      refine keep (fun t => .of_worker Iff.rfl rfl rfl ?_ nofun nofun) (fun _ => rfl) rfl
      rw [hpc]
      exact nofun
  | resolved hpc hq => exact h.fill hpc (put_update_iff hq rfl rfl rfl) rfl rfl
  | decremented hpc hq => exact h.countDown hpc (put_update_iff hq rfl rfl rfl) rfl rfl
  | @tested w t q junk zero hpc =>
      refine keep (fun t' => .of_worker Iff.rfl rfl rfl ?_ ?_ ?_) ?_ ?_
      · rw [hpc]
        exact nofun
      · cases zero <;> exact nofun
      · rw [hpc]
        cases zero
        · exact nofun
        · exact id
      · intro t'
        split <;> rfl
      · split <;> rfl
  | @finished w t q sent head slots junk hpc hq =>
      refine keep (fun t' => .of_worker ?_ rfl rfl ?_ nofun nofun) (fun _ => rfl) rfl
      · exact @put_update_iff _ s _ _ q { q with freed := true } hq rfl rfl rfl t'
      · rw [hpc]
        exact nofun

theorem tracks_start (kache : Kache) (udpBuf : List UInt8) (h : 0 < n) :
    Tracks [] (State.start kache udpBuf h) fun _ => .waiting := by
  intro t
  constructor <;> simp [State.start, State.Put, lookups, countdown, Phase.result, Phase.isDone]

/-- The run lemma: in every run each entry is in one phase. -/
theorem runs_tracks {kache : Kache} {udpBuf : List UInt8} {hn : 0 < n}
    (h : Runs kache udpBuf hn tr s) : ∃ ph, Tracks tr s ph := by
  refine @Run.invariant _ _ _ step _ _ (fun tr s => ∃ ph, Tracks tr s ph)
    ⟨_, tracks_start kache udpBuf hn⟩ ?_ _ _ h
  intro tr s a s' evs _ ⟨ph, htracks⟩ _ hstep
  rcases tracks_step htracks (moves_of_step hstep).2 with ⟨ph', -, htracks'⟩
  exact ⟨ph', htracks'⟩

/-! ## What follows for the views -/

section Views

variable {w : Nat} {t : TcpEntry}

theorem Tracks.put_of_ne_waiting (h : Tracks tr s ph) (hne : ph t ≠ .waiting) : s.Put t := by
  by_contra hno
  exact hne ((h t).waiting.mpr hno)

theorem Tracks.put_of_taken (h : Tracks tr s ph) (hpc : (s.workers w).pc = .taken (.tcp t)) :
    s.Put t := by
  apply h.put_of_ne_waiting
  rw [((h t).held w).mp hpc]
  exact nofun

theorem Tracks.lookups_taken (h : Tracks tr s ph) (hpc : (s.workers w).pc = .taken (.tcp t)) :
    lookups t tr = [] := by
  rw [(h t).lookups, ((h t).held w).mp hpc]
  rfl

theorem Tracks.countdown_taken (h : Tracks tr s ph) (hpc : (s.workers w).pc = .taken (.tcp t)) :
    t ∉ countdown tr := by
  apply List.count_eq_zero.mp
  rw [(h t).countdown, ((h t).held w).mp hpc]
  rfl

theorem Tracks.put_of_filled (h : Tracks tr s ph) (hpc : (s.workers w).pc = .filled t) :
    s.Put t := by
  apply h.put_of_ne_waiting
  rcases ((h t).filled w).mp hpc with ⟨res, hres⟩
  rw [hres]
  exact nofun

theorem Tracks.countdown_filled (h : Tracks tr s ph) (hpc : (s.workers w).pc = .filled t) :
    t ∉ countdown tr := by
  rcases ((h t).filled w).mp hpc with ⟨res, hres⟩
  apply List.count_eq_zero.mp
  rw [(h t).countdown, hres]
  rfl

theorem Tracks.mem_countdown_iff (h : Tracks tr s ph) : t ∈ countdown tr ↔ (ph t).isDone = true := by
  rw [← List.count_pos_iff, (h t).countdown]
  split <;> simp_all

theorem Tracks.countdown_nodup (h : Tracks tr s ph) : (countdown tr).Nodup := by
  rw [List.nodup_iff_count_le_one]
  intro t
  rw [(h t).countdown]
  split <;> omega

theorem Tracks.put_of_countdown (h : Tracks tr s ph) (ht : t ∈ countdown tr) : s.Put t := by
  apply h.put_of_ne_waiting
  intro hwait
  rw [h.mem_countdown_iff, hwait] at ht
  simp [Phase.isDone] at ht

/-- An entry that was counted down has been looked up, once. -/
theorem Tracks.lookups_countdown (h : Tracks tr s ph) (ht : t ∈ countdown tr) :
    ∃ res, lookups t tr = [res] := by
  rw [h.mem_countdown_iff] at ht
  rw [(h t).lookups]
  cases hp : ph t with
  | done res => exact ⟨res, rfl⟩
  | _ =>
      rw [hp] at ht
      simp [Phase.isDone] at ht

theorem Tracks.put_of_lookups (h : Tracks tr s ph) (ht : lookups t tr ≠ []) : s.Put t := by
  apply h.put_of_ne_waiting
  intro hwait
  rw [(h t).lookups, hwait] at ht
  exact ht rfl

theorem Tracks.countdown_of_counted (h : Tracks tr s ph)
    (hpc : (s.workers w).pc.counted = some t) : t ∈ countdown tr :=
  h.mem_countdown_iff.mpr ((h t).unlocked w (Pc.counted_eq_some_iff.mp hpc))

end Views

end DnsCache

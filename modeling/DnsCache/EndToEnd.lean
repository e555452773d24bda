import Mathlib.Data.List.Perm.Basic
import DnsCache.Misses
import DnsCache.SecondReply
import DnsCache.Segments

/-! # From the request to the calls

A client's request through the whole server and back: every name is reported
once, at its own position and with its own address.

* `sentTo`: the messages the server sends to a client in a run.
* `calls_perm`: the calls for the hits and those for the pairs of the second
  reply are, together, one call for each position.
* `every_name_reported_once`: the composition.
-/

open scoped BigOperators

namespace DnsCache

open CMem Trace

/-! ## The messages of a connection -/

/-- The bytes of a slot. No slot that was never written is sent, by `slots_of_zero`. -/
def slotBytes : Option (UInt32 × UInt32) → List UInt8
  | some (pos, ip) => le32 pos ++ le32 ip
  | none => List.replicate 8 0

/-- The message an event sends to the client of the request `r`. -/
def Event.sentTo (r : Nat) : Event → Option (List UInt8)
  | .firstReply r' reply => if r' = r then some (reply.head ++ reply.body) else none
  | .secondReply _ r' head slots =>
      if r' = r then some (head ++ slots.flatMap slotBytes) else none
  | _ => none

/-- The messages sent to the client of the request `r`. -/
def sentTo (r : Nat) (tr : List Event) : List (List UInt8) := tr.filterMap (Event.sentTo r)

@[simp] theorem sentTo_append (r : Nat) (tr evs : List Event) :
    sentTo r (tr ++ evs) = sentTo r tr ++ sentTo r evs := List.filterMap_append

/-- The most bytes that one `read` hands out. -/
def maxRead : Nat := 0x7ffff000

/-- The messages are read whole: each fits into one read, and the `i`-th read
hands out all of the `i`-th message. -/
def ReadWhole (messages : List (List UInt8)) (cuts : Nat → Nat) : Prop :=
  ∀ i m, messages[i]? = some m → m.length ≤ maxRead ∧ m.length ≤ cuts i

/-! ## One call for each position -/

/-- The call for the name at position `i` of a list. -/
def callFor (names : List CStr) (i : Nat) (name : CStr) (ip : UInt32) : Call :=
  ⟨(CStr.pack (names.take i)).length, name, ip⟩

/-- A call for each name: with the address of a hit, else with the address
`addr` found for its position. -/
def reports (lookup : CStr → Option UInt32) (addr : Nat → UInt32) (names : List CStr) : List Call :=
  names.mapIdx fun i name => callFor names i name ((lookup name).getD (addr i))

variable {lookup : CStr → Option UInt32} {addr : Nat → UInt32}

/-- The calls from position `i` on: those for the hits come first. -/
theorem hitCalls_perm {buf : List UInt8} {index : List UInt32} {i : Nat} {names : List CStr}
    (hmarker : ∀ name ∈ names, lookup name ≠ some cacheMiss)
    (hlen : i + names.length ≤ 4294967296) :
    (hitCalls buf index i (answers lookup names) ++
      pairCalls buf index ((missNodes lookup i names).map fun node =>
        (node.index, addr node.index.toNat))).Perm
      ((names.zipIdx i).flatMap fun p =>
        (callIndexed buf index p.2 ((lookup p.1).getD (addr p.2))).toList) := by
  -- on the names: each adds the same call to both sides
  induction names generalizing i with
  | nil => exact List.Perm.refl _
  | cons name names ih =>
      rw [List.length_cons] at hlen
      have hrec := @ih (i + 1) (fun k hk => hmarker k (List.mem_cons_of_mem _ hk)) (by omega)
      have hname := hmarker name List.mem_cons_self
      rw [List.zipIdx_cons, List.flatMap_cons]
      cases hlook : lookup name with
      | some ip =>
          -- a hit: its call comes at once
          have hip : ip ≠ cacheMiss := by
            rintro rfl
            exact hname hlook
          have hhit : hitCalls buf index i (answers lookup (name :: names)) =
              (callIndexed buf index i ip).toList ++
                hitCalls buf index (i + 1) (answers lookup names) := by
            simp [answers, answer, hitCalls, hlook, hip]
          have hmiss : missNodes lookup i (name :: names) = missNodes lookup (i + 1) names := by
            simp [missNodes, hlook]
          rw [hhit, hmiss, List.append_assoc]
          exact List.Perm.append_left _ hrec
      | none =>
          -- a miss: its call comes after those for all hits
          have hhit : hitCalls buf index i (answers lookup (name :: names)) =
              hitCalls buf index (i + 1) (answers lookup names) := by
            simp [answers, answer, hitCalls, hlook]
          have hmiss : missNodes lookup i (name :: names) =
              ⟨name, UInt32.ofNat i⟩ :: missNodes lookup (i + 1) names := by
            simp [missNodes, hlook]
          have hi : (UInt32.ofNat i).toNat = i := toNat_ofNat_small (by omega)
          have hpair : pairCalls buf index ((missNodes lookup i (name :: names)).map fun node =>
              (node.index, addr node.index.toNat)) =
              (callIndexed buf index i (addr i)).toList ++ pairCalls buf index
                ((missNodes lookup (i + 1) names).map fun node =>
                  (node.index, addr node.index.toNat)) := by
            simp [hmiss, pairCalls, hi]
          rw [hhit, hpair]
          exact (List.perm_append_comm_assoc _ _ _).trans (List.Perm.append_left _ hrec)

/-- In the buffer that `pre_do` leaves, these are the calls `reports` lists. -/
theorem calls_perm {names : List CStr} (hmarker : ∀ name ∈ names, lookup name ≠ some cacheMiss)
    (hlen : (CStr.pack names).length < 4294967296) :
    (hitCalls (CStr.pack names) (offsetsFrom 0 names) 0 (answers lookup names) ++
      pairCalls (CStr.pack names) (offsetsFrom 0 names) ((missNodes lookup 0 names).map fun node =>
        (node.index, addr node.index.toNat))).Perm (reports lookup addr names) := by
  have hcount := CStr.length_le_pack names
  refine (hitCalls_perm hmarker (by omega)).trans (List.Perm.of_eq ?_)
  have hcalls : ∀ p ∈ names.zipIdx 0, (callIndexed (CStr.pack names) (offsetsFrom 0 names) p.2
      ((lookup p.1).getD (addr p.2))).toList =
        [callFor names p.2 p.1 ((lookup p.1).getD (addr p.2))] := by
    rintro ⟨name, i⟩ hp
    rw [List.mk_mem_zipIdx_iff_getElem?] at hp
    rw [callIndexed_pack hlen hp]
    rfl
  unfold reports
  rw [List.flatMap_congr hcalls, ← List.map_eq_flatMap, List.mapIdx_eq_zipIdx_map]

/-- When nothing is missed the calls come in the order of the names. -/
theorem zipCalls_reports {names : List CStr} (hhits : ∀ name ∈ names, (lookup name).isSome) :
    zipCalls 0 names (answers lookup names) = reports lookup addr names := by
  -- from anywhere in the buffer: `pre` are the names already passed
  have hgeneral : ∀ pre : List CStr, ∀ ns : List CStr, (∀ name ∈ ns, (lookup name).isSome) →
      zipCalls (CStr.pack pre).length ns (answers lookup ns) = ns.mapIdx fun i name =>
        callFor (pre ++ ns) (pre.length + i) name ((lookup name).getD (addr (pre.length + i))) := by
    intro pre ns
    induction ns generalizing pre with
    | nil => exact fun _ => rfl
    | cons name ns ih =>
        intro hns
        have hrec := ih (pre ++ [name]) fun k hk => hns k (List.mem_cons_of_mem _ hk)
        rcases Option.isSome_iff_exists.mp (hns name List.mem_cons_self) with ⟨ip, hip⟩
        have hpack : (CStr.pack (pre ++ [name])).length =
            (CStr.pack pre).length + (name.length + 1) := by
          rw [CStr.pack_append, List.length_append]
          simp
        rw [hpack] at hrec
        simp only [List.append_assoc, List.singleton_append, List.length_append,
          List.length_singleton] at hrec
        have hanswers : answers lookup (name :: ns) = answer lookup name :: answers lookup ns := rfl
        rw [hanswers, zipCalls, hrec, List.mapIdx_cons]
        simp only [callFor, List.take_left, Nat.add_zero, answer, hip, Option.getD_some,
          Nat.add_assoc, Nat.add_comm 1]
  have h := hgeneral [] names hhits
  simpa [reports] using h

/-! ## What a run sends -/

/-- The lookups made for the name at position `i` of the request `r`. -/
def positionLookups (r i : Nat) : List Event → List (TcpEntry × Option UInt32) :=
  lookupsFor fun t => t.req == r && t.index.toNat == i

/-- The DNS answer for the name at position `i` of the request `r`. -/
def resolution (r i : Nat) (tr : List Event) : Option UInt32 :=
  ((positionLookups r i tr).head?.map (·.2)).join

variable {n : Nat} {kache : Kache} {udpBuf : List UInt8} {hn : 0 < n}
  {tr evs pre post tr₁ tr₂ : List Event} {s s' s₁ s₂ s₃ : State n} {a : Act} {ph : TcpEntry → Phase}

theorem sentTo_eq_nil {r : Nat} (hfirst : ∀ reply, .firstReply r reply ∉ tr)
    (hsecond : secondReplies r tr = 0) : sentTo r tr = [] := by
  apply List.filterMap_eq_nil_iff.mpr
  intro ev hev
  cases ev with
  | firstReply r' reply =>
      have hne : ¬ r' = r := by
        rintro rfl
        exact hfirst reply hev
      simp [Event.sentTo, hne]
  | secondReply w r' head slots =>
      have hne : ¬ r' = r := by
        rintro rfl
        have hno := List.countP_eq_zero.mp hsecond _ hev
        simp [Event.second] at hno
      simp [Event.sentTo, hne]
  | _ => rfl

theorem firstReply_unique {r : Nat} {reply reply' : FirstReply} (h : Runs kache udpBuf hn tr s)
    (hmem : .firstReply r reply ∈ tr) (hmem' : .firstReply r reply' ∈ tr) : reply = reply' := by
  have hreqs := runs_reqsOk h
  cases hr : s.reqs r with
  | none => exact absurd hmem ((hreqs.unknown r hr).1 reply)
  | some q =>
      rcases (hreqs.reqs r q hr).reply with ⟨reply₀, hiff, -⟩
      rw [(hiff reply).mp hmem, (hiff reply').mp hmem']

/-- A connection number is in use from its first reply on. -/
theorem no_later_firstReply {r : Nat} (h : Run step (fun _ _ => True) s tr s')
    (hr : (s.reqs r).isSome) (reply : FirstReply) : .firstReply r reply ∉ tr := by
  have hboth : (s'.reqs r).isSome ∧ ∀ reply, .firstReply r reply ∉ tr := by
    refine @Run.invariant _ _ _ step _ _ (fun tr s' =>
      ((s'.reqs r).isSome : Prop) ∧ ∀ reply, .firstReply r reply ∉ tr) ⟨hr, by simp⟩ ?_ _ _ h
    rintro tr s a s' evs - ⟨hsome, hnone⟩ - hstep
    have hupdate : ∀ (r₀ : Nat) (q : Req), (Function.update s.reqs r₀ (some q) r).isSome := by
      intro r₀ q
      by_cases heq : r = r₀
      · rw [heq, Function.update_self]
        rfl
      · rwa [Function.update_of_ne heq]
    have hkeep : ∀ {evs : List Event}, (∀ reply, .firstReply r reply ∉ evs) →
        ∀ reply, .firstReply r reply ∉ tr ++ evs := by
      intro evs hevs reply hmem
      rcases List.mem_append.mp hmem with hmem | hmem
      · exact hnone reply hmem
      · exact hevs reply hmem
    cases (moves_of_step hstep).2 with
    | @answered r' _ _ reply' hnew =>
        have hne : ¬ r = r' := by
          rintro rfl
          rw [hnew] at hsome
          simp at hsome
        refine ⟨hupdate _ _, hkeep fun reply => ?_⟩
        split <;> simp [hne]
    | enqueued => exact ⟨hupdate _ _, hkeep (by simp)⟩
    | resolved => exact ⟨hupdate _ _, hkeep (by simp)⟩
    | decremented => exact ⟨hupdate _ _, hkeep (by simp)⟩
    | finished => exact ⟨hupdate _ _, hkeep (by simp)⟩
    | tested =>
        refine ⟨hsome, hkeep fun reply => ?_⟩
        split <;> simp
    | _ => exact ⟨hsome, hkeep (by simp)⟩
  exact hboth.2 reply

/-- A connection is closed behind a first reply without misses, or behind a second reply. -/
theorem second_of_closed {r : Nat} (h : Runs kache udpBuf hn tr s) (hmem : .closed r ∈ tr) :
    (∃ reply, .firstReply r reply ∈ tr ∧ reply.misses = []) ∨ secondReplies r tr ≠ 0 := by
  rcases List.append_of_mem hmem with ⟨pre, post, rfl⟩
  rcases runs_emit h with ⟨tr₁, s₁, a, s₂, evs₁, evs₂, -, hm, rfl⟩
  generalize hevs : evs₁ ++ .closed r :: evs₂ = evs at hm
  have hev : .closed r ∈ evs := by
    rw [← hevs]
    exact List.mem_append_right _ List.mem_cons_self
  cases hm with
  | @answered r' _ _ reply' _ =>
      left
      by_cases hmisses : reply'.misses = []
      · rw [if_pos hmisses] at hevs hev
        have hr : r = r' := by simpa using hev
        subst hr
        rcases evs₁ with _ | ⟨ev, evs₁⟩
        · simp at hevs
        · rw [List.cons_append, List.cons.injEq] at hevs
          refine ⟨reply', ?_, hmisses⟩
          rw [hevs.1]
          simp
      · rw [if_neg hmisses] at hev
        simp at hev
  | tested => split at hev <;> simp at hev
  | @finished w t q sent head slots junk =>
      right
      have hr : r = t.req := by simpa using hev
      subst hr
      rcases evs₁ with _ | ⟨ev, evs₁⟩
      · simp at hevs
      · rw [List.cons_append, List.cons.injEq] at hevs
        rw [hevs.1, secondReplies_append, secondReplies_append]
        simp [secondReplies, Event.second]
  | _ => simp at hev

/-- A request that has a second reply had misses. -/
theorem misses_of_second {r : Nat} (h : Runs kache udpBuf hn tr s) (hr : secondReplies r tr ≠ 0) :
    ∃ reply, .firstReply r reply ∈ tr ∧ reply.misses ≠ [] := by
  rcases List.countP_pos_iff.mp (Nat.pos_of_ne_zero hr) with ⟨ev, hev, hsecond⟩
  cases ev with
  | secondReply w r' head slots =>
      have heq : r' = r := by simpa [Event.second] using hsecond
      subst heq
      rcases List.append_of_mem hev with ⟨pre, post, rfl⟩
      rcases runs_emit h with ⟨tr₁, s₁, a, s₂, evs₁, evs₂, hrun, hm, rfl⟩
      rcases sender_of_second hm with ⟨rfl, t, q, hpc, rfl, hq, -⟩
      rcases runs_tracks hrun with ⟨ph, htracks⟩
      have hcounted : t ∈ countdown tr₁ :=
        htracks.countdown_of_counted (Pc.counted_eq_some_iff.mpr (.inr hpc))
      have hlt := (count_lt_of_countdown htracks hq hcounted rfl).1
      rcases ((runs_reqsOk hrun).reqs _ q hq).reply with ⟨reply, hiff, -, hmisses⟩
      refine ⟨reply, by simp [(hiff reply).mpr rfl], ?_⟩
      rw [hmisses]
      exact List.ne_nil_of_length_pos (Nat.zero_lt_of_lt hlt)
  | _ => simp [Event.second] at hsecond

/-! ## The two messages -/

/-- The bytes of a first reply. -/
theorem replyTo_bytes {head : List UInt8} (hhead : head.length = headLength) (names : List CStr) :
    (replyTo lookup head names).head ++ (replyTo lookup head names).body =
      head.take (headLength - 1) ++
        firstFlag (missNodes lookup 0 names).length :: (answers lookup names).flatMap le32 := by
  have hset : ∀ flag, setFlag head flag = head.take (headLength - 1) ++ [flag] := by
    intro flag
    rw [setFlag, List.set_eq_take_append_cons_drop, if_pos (by rw [hhead, headLength_eq]; omega),
      List.drop_of_length_le (by rw [hhead, headLength_eq])]
  simp only [replyTo, hset, List.append_assoc, List.singleton_append]

theorem entriesOf_map_index {β : Type} (r : Nat) (nodes : List DmNode) (f : UInt32 → β) :
    ((entriesOf r nodes).map fun t => f t.index) = nodes.map fun node => f node.index := by
  apply List.ext_getElem?
  intro k
  simp [entriesOf, List.getElem?_map, Function.comp_def]

/-- The first second reply of a request, with the outcomes of the whole run:
every entry is looked up once, before the reply. -/
theorem second_reply_outcomes {w r : Nat} {head : List UInt8}
    {slots : List (Option (UInt32 × UInt32))} {reply : FirstReply}
    (htr : tr = pre ++ .secondReply w r head slots :: post) (h : Runs kache udpBuf hn tr s)
    (hfirst : secondReplies r pre = 0) (hreply : .firstReply r reply ∈ tr) :
    head.length = headLength ∧
      (∀ t ∈ entriesOf r reply.misses, lookups t tr = [outcome t tr]) ∧
      slots = (entriesOf r reply.misses).map fun t =>
        some (t.index, (outcome t tr).getD dnsError) := by
  rcases first_second_reply (htr ▸ h) hfirst with ⟨s₁, q, hrun, hq, hzero, hhead, hslots⟩
  rcases runs_tracks hrun with ⟨ph₁, htracks₁⟩
  rcases runs_tracks h with ⟨ph, htracks⟩
  have hok := (runs_reqsOk hrun).reqs r q hq
  rcases hok.reply with ⟨reply', hiff, hreplyHead, hmisses⟩
  have hpre : .firstReply r reply' ∈ pre := (hiff reply').mpr rfl
  have hsame : reply' = reply := by
    refine firstReply_unique h ?_ hreply
    rw [htr]
    exact List.mem_append_left _ hpre
  subst hsame
  rcases slots_of_zero htracks₁ hok hq hzero with ⟨hlookups, hcontents⟩
  rw [← hmisses] at hlookups hcontents
  have hlater : ∀ t ∈ entriesOf r reply'.misses,
      lookups t tr = [outcome t pre] ∧ outcome t tr = outcome t pre := by
    intro t ht
    have hsplit : lookups t tr = [outcome t pre] ++
        lookups t (.secondReply w r head slots :: post) := by
      rw [htr, lookups_append, hlookups t ht]
    -- no entry is looked up twice, so nothing is left for the rest of the run
    have hnil : lookups t (.secondReply w r head slots :: post) = [] := by
      have hle : (lookups t tr).length ≤ 1 := by
        rw [(htracks t).lookups]
        cases (ph t).result <;> simp
      rw [hsplit, List.length_append, List.length_singleton] at hle
      exact List.eq_nil_of_length_eq_zero (by omega)
    rw [hnil, List.append_nil] at hsplit
    refine ⟨hsplit, ?_⟩
    rw [outcome, hsplit]
    rfl
  rcases runs_firstReply hrun hpre with ⟨kc, now, sock, hserv⟩
  refine ⟨?_, ?_, ?_⟩
  · rw [hhead, setFlag_length, ← hreplyHead]
    exact (serv_replied hserv).1
  · intro t ht
    rw [(hlater t ht).2]
    exact (hlater t ht).1
  · rw [hslots, hcontents]
    apply List.map_congr_left
    intro t ht
    rw [(hlater t ht).2]

theorem exists_entry {r : Nat} {nodes : List DmNode} {node : DmNode} (h : node ∈ nodes) :
    ∃ t ∈ entriesOf r nodes, t.index = node.index ∧ t.domain = node.domain := by
  rcases List.mem_iff_getElem?.mp h with ⟨k, hk⟩
  refine ⟨⟨r, k, nodes.length, node.index, node.domain⟩, ?_, rfl, rfl⟩
  apply List.mem_of_getElem? (i := k)
  rw [entriesOf, List.getElem?_mapIdx, hk]
  rfl

/-- The lookups for a position are those for the entry of that position. -/
theorem positionLookups_eq {r : Nat} {q : Req} {t : TcpEntry} (htracks : Tracks tr s ph)
    (hq : s.reqs r = some q) (hsorted : (q.nodes.map (·.index.toNat)).Pairwise (· < ·))
    (ht : t ∈ entriesOf r q.nodes) :
    positionLookups r t.index.toNat tr = (lookups t tr).map fun res => (t, res) := by
  have hent := entry_of_mem ht
  have hr := (Req.entry_req hent).1
  have hlt := (Req.entry_req hent).2.2.2
  refine lookupsFor_eq htracks (by simp [hr]) ?_
  rintro t' ⟨q', hq', -, hent'⟩ hp
  rw [Bool.and_eq_true, beq_iff_eq, beq_iff_eq] at hp
  rw [hp.1, hq] at hq'
  cases hq'
  rw [hp.1] at hent'
  -- different nodes stand at different positions
  have hnodup : (q.nodes.map (·.index.toNat)).Nodup := hsorted.imp Nat.ne_of_lt
  have hindex : ∀ {k : Nat} {t₀ : TcpEntry}, q.entry r k = some t₀ →
      (q.nodes.map (·.index.toNat))[k]? = some t₀.index.toNat := by
    intro k t₀ h
    rcases Req.entry_eq_some_iff.mp h with ⟨node, hnode, rfl⟩
    rw [List.getElem?_map, hnode]
    rfl
  have hcount : t.count = t'.count := by
    apply (List.getElem?_inj (by rw [List.length_map]; exact hlt) hnodup).mp
    rw [hindex hent, hindex hent', hp.2]
  rw [← hcount, hent] at hent'
  exact (Option.some.inj hent').symm

/-- The first second reply in terms of positions: each missed name was looked up
once, and the pairs are the positions with the answers. -/
theorem second_reply_resolutions {w r : Nat} {head : List UInt8}
    {slots : List (Option (UInt32 × UInt32))} {reply : FirstReply}
    (htr : tr = pre ++ .secondReply w r head slots :: post) (h : Runs kache udpBuf hn tr s)
    (hfirst : secondReplies r pre = 0) (hreply : .firstReply r reply ∈ tr) :
    head.length = headLength ∧
      slots.flatMap slotBytes = pairBytes (reply.misses.map fun node =>
        (node.index, (resolution r node.index.toNat tr).getD dnsError)) ∧
      ∀ node ∈ reply.misses, ∃ t, t.domain = node.domain ∧
        positionLookups r node.index.toNat tr = [(t, resolution r node.index.toNat tr)] := by
  rcases second_reply_outcomes htr h hfirst hreply with ⟨hlength, hlookups, hslots⟩
  rcases runs_tracks h with ⟨ph, htracks⟩
  rcases runs_firstReply h hreply with ⟨kc, now, sock, hserv⟩
  rcases serv_replied hserv with ⟨-, hnodes, hlooked⟩
  have hsorted := (@missNodes_increasing (tcpLookup kc now) 0 reply.looked (by omega)).1
  rw [← hnodes] at hsorted
  obtain ⟨q, hq, hmisses⟩ : ∃ q, s.reqs r = some q ∧ reply.misses = q.nodes := by
    cases hr : s.reqs r with
    | none => exact absurd hreply (((runs_reqsOk h).unknown r hr).1 reply)
    | some q =>
        rcases ((runs_reqsOk h).reqs r q hr).reply with ⟨reply', hiff, -, hmisses⟩
        rw [(hiff reply).mp hreply]
        exact ⟨q, rfl, hmisses⟩
  have hposition : ∀ t ∈ entriesOf r reply.misses,
      positionLookups r t.index.toNat tr = [(t, outcome t tr)] ∧
        resolution r t.index.toNat tr = outcome t tr := by
    intro t ht
    have hone : positionLookups r t.index.toNat tr = [(t, outcome t tr)] := by
      rw [positionLookups_eq htracks hq (by rw [← hmisses]; exact hsorted) (by rwa [← hmisses]),
        hlookups t ht]
      rfl
    refine ⟨hone, ?_⟩
    rw [resolution, hone]
    rfl
  refine ⟨hlength, ?_, ?_⟩
  · have hpairs : ((entriesOf r reply.misses).map fun t =>
        (some (t.index, (outcome t tr).getD dnsError) : Option (UInt32 × UInt32))) =
        reply.misses.map fun node =>
          some (node.index, (resolution r node.index.toNat tr).getD dnsError) := by
      rw [← entriesOf_map_index r reply.misses fun index =>
        (some (index, (resolution r index.toNat tr).getD dnsError) : Option (UInt32 × UInt32))]
      apply List.map_congr_left
      intro t ht
      rw [(hposition t ht).2]
    rw [hslots, hpairs, pairBytes, List.flatMap_map, List.flatMap_map]
    rfl
  · intro node hnode
    rcases @exists_entry r _ _ hnode with ⟨t, ht, hindex, hdomain⟩
    refine ⟨t, hdomain, ?_⟩
    rw [← hindex, (hposition t ht).2]
    exact (hposition t ht).1

/-! ## The client's side -/

theorem firstFlag_eq {nodes : List DmNode} :
    firstFlag nodes.length = if nodes = [] then firstWithoutError else firstWithError := by
  cases nodes <;> rfl

/-- A first reply without misses, read whole: the names are reported in order. -/
theorem decode_hits {names : List CStr} {head : List UInt8} {cuts : Nat → Nat}
    (hhead : head.length = headLength) (hhits : ∀ name ∈ names, (lookup name).isSome)
    (hint : firstLength names.length ≤ intMax) (hlen : (CStr.pack names).length ≤ intMax) :
    tcpDecode (CStr.pack names) (offsetsFrom 0 names) names.length
        ⟨(replyTo lookup head names).head ++ (replyTo lookup head names).body, cuts⟩ =
      some (reports lookup addr names) := by
  have hnil : missNodes lookup 0 names = [] := (missNodes_eq_nil_iff lookup 0 names).mpr hhits
  let r : Replies names.length :=
    { head := head.take (headLength - 1)
      words := answers lookup names
      second := none
      head_length := by
        rw [List.length_take, hhead]
        exact Nat.min_eq_left (Nat.sub_le _ _)
      words_length := answers_length lookup names
      second_ok := nofun }
  have hfirst : (replyTo lookup head names).head ++ (replyTo lookup head names).body =
      r.first ++ r.rest := by
    rw [replyTo_bytes hhead, hnil, r.rest_none rfl, List.append_nil]
    rfl
  rw [hfirst, tcpDecode_none r rfl hint, callAll_reply, if_pos hlen]
  exact congrArg some (zipCalls_reports hhits)

/-- Both replies, each read whole: first the hits are reported, then the pairs. -/
theorem decode_misses {names : List CStr} {head head₂ : List UInt8} {cuts : Nat → Nat}
    (hhead : head.length = headLength) (hhead₂ : head₂.length = headLength)
    (hmarker : ∀ name ∈ names, lookup name ≠ some cacheMiss)
    (hmisses : missNodes lookup 0 names ≠ []) (hlen : (CStr.pack names).length < 4294967296)
    (hint : firstLength names.length ≤ intMax)
    (hint₂ : secondLength (missNodes lookup 0 names).length ≤ intMax)
    (hwhole : firstLength names.length ≤ cuts 0) :
    tcpDecode (CStr.pack names) (offsetsFrom 0 names) names.length
        ⟨(replyTo lookup head names).head ++ (replyTo lookup head names).body ++
          (head₂ ++ pairBytes ((missNodes lookup 0 names).map fun node =>
            (node.index, addr node.index.toNat))), cuts⟩ =
      some (hitCalls (CStr.pack names) (offsetsFrom 0 names) 0 (answers lookup names) ++
        pairCalls (CStr.pack names) (offsetsFrom 0 names) ((missNodes lookup 0 names).map fun node =>
          (node.index, addr node.index.toNat))) := by
  have hmissed := missedAt_answers 0 hmarker
  let ips := (missNodes lookup 0 names).map fun node => addr node.index.toNat
  let r : Replies names.length :=
    { head := head.take (headLength - 1)
      words := answers lookup names
      second := some (head₂, ips)
      head_length := by
        rw [List.length_take, hhead]
        exact Nat.min_eq_left (Nat.sub_le _ _)
      words_length := answers_length lookup names
      second_ok := by
        rintro _ ⟨⟩
        refine ⟨hhead₂, ?_, ?_⟩
        · rw [hmissed, List.length_map, List.length_map]
        · rw [hmissed]
          exact fun hnil => hmisses (List.map_eq_nil_iff.mp hnil) }
  have hpairs : (missedAt 0 r.words).zip ips =
      (missNodes lookup 0 names).map fun node => (node.index, addr node.index.toNat) := by
    show (missedAt 0 (answers lookup names)).zip ips = _
    rw [hmissed]
    exact List.zip_map'
  have hbytes : (replyTo lookup head names).head ++ (replyTo lookup head names).body ++
      (head₂ ++ pairBytes ((missNodes lookup 0 names).map fun node =>
        (node.index, addr node.index.toNat))) = r.first ++ r.rest := by
    rw [replyTo_bytes hhead, firstFlag_eq, if_neg hmisses, r.rest_some rfl, hpairs]
    rfl
  have haligned : ∃ j, ∑ i ∈ Finset.range j, min (firstLength names.length) (max 1 (cuts i)) =
      firstLength names.length := by
    refine ⟨1, ?_⟩
    rw [Finset.sum_range_one]
    omega
  have hint₂' : secondLength (missedAt 0 r.words).length ≤ intMax := by
    show secondLength (missedAt 0 (answers lookup names)).length ≤ intMax
    rw [hmissed, List.length_map]
    exact hint₂
  rw [hbytes, tcpDecode_some (indexed_pack hlen) r rfl hint hint₂' haligned, hpairs]

/-- When both replies are read whole, the calls are one for each name. -/
theorem decode_both {names : List CStr} {head head₂ : List UInt8} {cuts : Nat → Nat}
    (hhead : head.length = headLength) (hhead₂ : head₂.length = headLength)
    (hmarker : ∀ name ∈ names, lookup name ≠ some cacheMiss)
    (hmisses : missNodes lookup 0 names ≠ []) (hlen : (CStr.pack names).length < 4294967296)
    (hint : firstLength names.length ≤ intMax)
    (hwhole : ReadWhole [(replyTo lookup head names).head ++ (replyTo lookup head names).body,
      head₂ ++ pairBytes ((missNodes lookup 0 names).map fun node =>
        (node.index, addr node.index.toNat))] cuts) :
    ∃ calls, tcpDecode (CStr.pack names) (offsetsFrom 0 names) names.length
        ⟨(replyTo lookup head names).head ++ (replyTo lookup head names).body ++
          (head₂ ++ pairBytes ((missNodes lookup 0 names).map fun node =>
            (node.index, addr node.index.toNat))), cuts⟩ = some calls ∧
      calls.Perm (reports lookup addr names) := by
  have hfirst : firstLength names.length ≤ cuts 0 := by
    have hle := (hwhole 0 _ rfl).2
    rw [replyTo_bytes hhead, List.length_append, List.length_take, hhead, List.length_cons,
      words_bytes_length, answers_length] at hle
    rw [firstLength]
    rw [headLength_eq] at hle ⊢
    omega
  have hsecond : secondLength (missNodes lookup 0 names).length ≤ intMax := by
    have hle := (hwhole 1 _ rfl).1
    rw [List.length_append, hhead₂, pairBytes_length, List.length_map] at hle
    have hmax : maxRead ≤ intMax := by decide
    exact Nat.le_trans hle hmax
  exact ⟨_, decode_misses hhead hhead₂ hmarker hmisses hlen hint hsecond hfirst,
    calls_perm hmarker hlen⟩

/-! ## The whole way -/

/-- What is sent behind the first reply, when there is one second reply. -/
theorem sentTo_of_one_second {r : Nat} (hfirst : ∀ reply, .firstReply r reply ∉ tr)
    (hone : secondReplies r tr = 1) :
    ∃ pre post w head slots, tr = pre ++ .secondReply w r head slots :: post ∧
      secondReplies r pre = 0 ∧ sentTo r tr = [head ++ slots.flatMap slotBytes] := by
  rcases List.countP_pos_iff.mp (by rw [← secondReplies, hone]; exact Nat.one_pos) with
    ⟨ev, hev, hsecond⟩
  cases ev with
  | secondReply w r' head slots =>
      have hr : r' = r := by simpa [Event.second] using hsecond
      subst hr
      rcases List.append_of_mem hev with ⟨pre, post, rfl⟩
      have hself : secondReplies r' (.secondReply w r' head slots :: post) =
          secondReplies r' post + 1 := List.countP_cons_of_pos (by simp [Event.second])
      rw [secondReplies_append, hself] at hone
      have hpre₀ : secondReplies r' pre = 0 := by omega
      have hpost₀ : secondReplies r' post = 0 := by omega
      simp only [List.mem_append, List.mem_cons, not_or] at hfirst
      have hpre : sentTo r' pre = [] := sentTo_eq_nil (fun reply => (hfirst reply).1) hpre₀
      have hpost : sentTo r' post = [] := sentTo_eq_nil (fun reply => (hfirst reply).2.2) hpost₀
      have hcons : sentTo r' (.secondReply w r' head slots :: post) =
          (head ++ slots.flatMap slotBytes) :: sentTo r' post := by
        simp [sentTo, Event.sentTo]
      refine ⟨pre, post, w, head, slots, rfl, hpre₀, ?_⟩
      rw [sentTo_append, hcons, hpre, hpost]
      rfl
  | _ => simp [Event.second] at hsecond

/-- What the client of a request is sent from its first reply to its close. -/
theorem sentTo_run {r : Nat} {reply : FirstReply} (hrun : Runs kache udpBuf hn tr₁ s₁)
    (hnew : s₁.reqs r = none)
    (hevs : evs = .firstReply r reply :: if reply.misses = [] then [.closed r] else [])
    (hrest : Run step (fun _ _ => True) (s₁.setReq r (Req.opened reply)) tr₂ s₃)
    (htr : tr = tr₁ ++ (evs ++ tr₂)) (h : Runs kache udpBuf hn tr s₃) (hclosed : .closed r ∈ tr)
    (honce : secondReplies r tr ≤ 1) :
    (reply.misses = [] ∧ sentTo r tr = [reply.head ++ reply.body]) ∨
      (reply.misses ≠ [] ∧ ∃ pre post w head slots,
        tr = pre ++ .secondReply w r head slots :: post ∧ secondReplies r pre = 0 ∧
          sentTo r tr = [reply.head ++ reply.body, head ++ slots.flatMap slotBytes]) := by
  have hfirst : .firstReply r reply ∈ tr := by
    rw [htr, hevs]
    simp
  have hunknown := (runs_reqsOk hrun).unknown r hnew
  have hsent₁ : sentTo r tr₁ = [] := sentTo_eq_nil hunknown.1 hunknown.2
  have hsent₂ : sentTo r evs = [reply.head ++ reply.body] := by
    rw [hevs]
    split <;> simp [sentTo, Event.sentTo]
  have hsecond₂ : secondReplies r evs = 0 := by
    rw [hevs]
    split <;> rfl
  have hlater : ∀ reply', .firstReply r reply' ∉ tr₂ :=
    no_later_firstReply hrest (by rw [State.setReq_reqs, Function.update_self]; rfl)
  by_cases hmisses : reply.misses = []
  · left
    refine ⟨hmisses, ?_⟩
    have hzero : secondReplies r tr = 0 := by
      by_contra hne
      rcases misses_of_second h hne with ⟨reply', hmem, hmisses'⟩
      rw [firstReply_unique h hmem hfirst] at hmisses'
      exact hmisses' hmisses
    rw [htr, secondReplies_append, secondReplies_append] at hzero
    rw [htr, sentTo_append, sentTo_append, hsent₁, hsent₂,
      sentTo_eq_nil hlater (by omega), List.nil_append, List.append_nil]
  · right
    refine ⟨hmisses, ?_⟩
    have hne : secondReplies r tr ≠ 0 := by
      rcases second_of_closed h hclosed with ⟨reply', hmem, hmisses'⟩ | hne
      · rw [firstReply_unique h hmem hfirst] at hmisses'
        exact absurd hmisses' hmisses
      · exact hne
    have hone : secondReplies r tr₂ = 1 := by
      rw [htr, secondReplies_append, secondReplies_append, hunknown.2, hsecond₂] at hne honce
      omega
    rcases sentTo_of_one_second hlater hone with ⟨pre, post, w, head, slots, rfl, hpre, hsent⟩
    refine ⟨tr₁ ++ (evs ++ pre), post, w, head, slots, ?_, ?_, ?_⟩
    · rw [htr]
      simp
    · rw [secondReplies_append, secondReplies_append, hunknown.2, hsecond₂]
      omega
    · rw [htr, sentTo_append, sentTo_append, hsent₁, hsent₂, hsent]
      rfl

/-- What `pre_do` leaves of names it accepts is the request for them in lower case. -/
theorem request_of_preDo {names : List CStr} {prep : Prepared} (hne : names ≠ [])
    (hlen : (CStr.pack names).length < 4294967296)
    (hprep : preDo (CStr.pack names) names.length = some (some prep)) :
    prep.buf = CStr.pack (names.map lowerName) ∧
      prep.index = offsetsFrom 0 (names.map lowerName) ∧
      buildHead prep.totalLength ++ prep.buf = requestBytes (names.map lowerName) := by
  rw [preDo_eq hne hlen] at hprep
  split at hprep
  · cases hprep
    refine ⟨rfl, (offsetsFrom_lower 0 names).symm, ?_⟩
    rw [requestBytes, pack_lowerName_length]
  · simp at hprep

theorem spacious_lower {names : List CStr} (h : Spacious names) :
    Spacious (names.map lowerName) := by
  intro i hi
  rw [← List.map_take, pack_lowerName_length]
  exact h i (by simpa using hi)

/-- The answers of such names are no longer than the request. -/
theorem Spacious.firstLength_le {names : List CStr} (h : Spacious names) :
    firstLength names.length ≤ headLength + (CStr.pack names).length := by
  have hall := h names.length (Nat.le_refl _)
  rw [List.take_length] at hall
  rw [firstLength]
  omega

/-- A request whose names leave room for their answers is sent, served, and its
replies decoded: every name is reported once, at its position, in lower case,
with the address of a fresh entry or else with the DNS answer found for it in
this run, and that answer was asked for once. The server may do anything else
meanwhile; the request's connection is closed in the end and its second reply,
if it gets one, is sent once. The head and the names of the request are read
whole, and so are the replies. -/
theorem every_name_reported_once {names : List CStr} {prep : Prepared} {r : Nat} {now : Int}
    {cuts cuts' : Nat → Nat} (hne : names ≠ [])
    (hprep : preDo (CStr.pack names) names.length = some (some prep)) (hroom : Spacious names)
    (hrequest : ReadWhole [buildHead prep.totalLength, prep.buf] cuts)
    (hrun : Runs kache udpBuf hn tr₁ s₁)
    (hmarker : ∀ name ∈ names, ¬ FreshMarker s₁.kache now (lowerName name))
    (hserve : step s₁ (.serve r ⟨buildHead prep.totalLength ++ prep.buf, cuts⟩ now) =
      some (s₂, evs))
    (hrest : Run step (fun _ _ => True) s₂ tr₂ s₃) (htr : tr = tr₁ ++ (evs ++ tr₂))
    (hclosed : .closed r ∈ tr) (honce : secondReplies r tr ≤ 1)
    (hreplies : ReadWhole (sentTo r tr) cuts') :
    ∃ calls, tcpDecode prep.buf prep.index names.length ⟨(sentTo r tr).flatten, cuts'⟩ =
        some calls ∧
      calls.Perm (reports (tcpLookup s₁.kache now) (fun i => (resolution r i tr).getD dnsError)
        (names.map lowerName)) ∧
      ∀ i name, (names.map lowerName)[i]? = some name → tcpLookup s₁.kache now name = none →
        ∃ t, t.domain = name ∧ positionLookups r i tr = [(t, resolution r i tr)] := by
  have hmax : intMax = 2147483647 := rfl
  have hread : maxRead = 2147479552 := rfl
  have hlower : (CStr.pack (names.map lowerName)).length = (CStr.pack names).length :=
    pack_lowerName_length names
  have hhead : headLength ≤ cuts 0 := (hrequest 0 _ rfl).2
  have hint : headLength + (CStr.pack names).length ≤ intMax := by
    have hle := (hrequest 1 _ rfl).1
    rw [preDoFor_length hprep] at hle
    rw [headLength_eq]
    omega
  rcases request_of_preDo hne (by omega) hprep with ⟨hbuf, hindex, hbytes⟩
  rw [hbytes] at hserve
  rw [hbuf, hindex, show names.length = (names.map lowerName).length from (List.length_map _).symm]
  have hne' : names.map lowerName ≠ [] := fun hnil => hne (List.map_eq_nil_iff.mp hnil)
  have hroom' := spacious_lower hroom
  have hmarker' : ∀ name ∈ names.map lowerName, tcpLookup s₁.kache now name ≠ some cacheMiss := by
    intro name hname heq
    rcases List.mem_map.mp hname with ⟨name₀, hname₀, rfl⟩
    exact hmarker name₀ hname₀ ((tcpLookup_eq_marker_iff _ _ _).mp heq)
  generalize names.map lowerName = lower at *
  -- the server's side
  have hserv := serv_request s₁.kache now hne' hroom' (by rw [hlower]; exact hint) hhead
  rcases step_serve_replied hserv hserve with ⟨hnew, rfl, hevs⟩
  have h : Runs kache udpBuf hn tr s₃ := by
    rw [htr]
    refine hrun.append (Run.append ?_ hrest)
    have hone := Run.snoc (@Run.nil _ _ _ step (fun _ _ => True) s₁) trivial hserve
    rwa [List.nil_append] at hone
  have hfirstLength : firstLength lower.length ≤ intMax := by
    refine Nat.le_trans hroom'.firstLength_le ?_
    rw [hlower]
    exact hint
  rcases sentTo_run hrun hnew hevs hrest htr h hclosed honce with
    ⟨hnil, hsent⟩ | ⟨hmisses, pre, post, w, head₂, slots, hsplit, hfirst, hsent⟩
  · -- nothing is missed
    have hhits := (missNodes_eq_nil_iff _ _ _).mp hnil
    rw [hsent, List.flatten_singleton]
    refine ⟨_, decode_hits (buildHead_length _) hhits hfirstLength (by omega), .refl _, ?_⟩
    intro i name hname hnone
    have hsome := hhits name (List.mem_of_getElem? hname)
    rw [hnone] at hsome
    simp at hsome
  · have hreply : .firstReply r (replyTo (tcpLookup s₁.kache now)
        (buildHead (UInt32.ofNat (headLength + (CStr.pack lower).length))) lower) ∈ tr := by
      rw [htr, hevs]
      simp
    rcases second_reply_resolutions hsplit h hfirst hreply with ⟨hhead₂, hpairs, hasked⟩
    rw [hpairs] at hsent
    rw [hsent] at hreplies
    rcases @decode_both (tcpLookup s₁.kache now) (fun i => (resolution r i tr).getD dnsError) lower _
      head₂ cuts' (buildHead_length _) hhead₂ hmarker' hmisses (by omega) hfirstLength hreplies
      with ⟨calls, hdecode, hperm⟩
    rw [hsent, List.flatten_cons, List.flatten_singleton]
    refine ⟨calls, hdecode, hperm, ?_⟩
    intro i name hname hnone
    have hmem := @mem_missNodes (tcpLookup s₁.kache now) 0 i lower name hname hnone
    rw [Nat.zero_add] at hmem
    have hi : (UInt32.ofNat i).toNat = i := by
      have hlt := (List.getElem?_eq_some_iff.mp hname).1
      have hcount := CStr.length_le_pack lower
      exact toNat_ofNat_small (by omega)
    rcases hasked _ hmem with ⟨t, hdomain, hone⟩
    rw [hi] at hone
    exact ⟨t, hdomain, hone⟩

/-! ## Three names, all the way -/

theorem readWhole_of_forall {messages : List (List UInt8)} {c : Nat}
    (h : ∀ m ∈ messages, m.length ≤ maxRead ∧ m.length ≤ c) : ReadWhole messages fun _ => c :=
  fun _ m hm => h m (List.mem_of_getElem? hm)

/-- "ABC", "uvw" and "XYZ", and what `pre_do` makes of them. -/
def askedThree : List CStr := [⟨[65, 66, 67], by decide⟩, nameUvw, ⟨[88, 89, 90], by decide⟩]

def prepThree : Prepared := ⟨CStr.pack threeNames, 25, [0, 4, 8]⟩

theorem lower_askedThree : askedThree.map lowerName = threeNames := by decide

theorem spacious_asked : Spacious askedThree := by
  intro i hi
  have hlower := spacious_three i hi
  rwa [← lower_askedThree, ← List.map_take, pack_lowerName_length] at hlower

/-- `every_name_reported_once` at the request served by two workers: one name is
cached, and of the two missed ones the second is looked up first. -/
theorem every_name_reported_once_three :
    ∃ calls, tcpDecode prepThree.buf prepThree.index askedThree.length
        ⟨(sentTo 1 traceThree).flatten, fun _ => 29⟩ = some calls ∧
      calls.Perm (reports (tcpLookup warmKache 0)
        (fun i => (resolution 1 i traceThree).getD dnsError) (askedThree.map lowerName)) ∧
      ∀ i name, (askedThree.map lowerName)[i]? = some name → tcpLookup warmKache 0 name = none →
        ∃ t, t.domain = name ∧
          positionLookups 1 i traceThree = [(t, resolution 1 i traceThree)] := by
  let s₁ : State 4 := State.start warmKache [] (Nat.succ_pos 3)
  let s₂ : State 4 := s₁.setReq 1 (Req.opened replyToThree)
  have hserv : serv s₁.kache 0 ⟨buildHead 25 ++ CStr.pack threeNames, fun _ => 13⟩ =
      some (.replied replyToThree) := by decide +kernel
  obtain ⟨res, hex, hres⟩ : ∃ res, exec step s₂ workThree = some res ∧
      decide (res.2 = traceThree.tail) = true :=
    (Option.any_eq_true _ _).mp (by decide +kernel)
  have hrest : Run step (fun _ _ => True) s₂ traceThree.tail res.1 := by
    rw [← of_decide_eq_true hres]
    exact Run.of_exec (fun _ _ _ => trivial) hex
  refine every_name_reported_once (List.cons_ne_nil _ _) (by decide +kernel) spacious_asked ?_ .nil
    ?_ (step_serve rfl rfl hserv) hrest (by decide +kernel) ?_ ?_ ?_
  · exact readWhole_of_forall (by decide)
  · intro name hname
    rw [← tcpLookup_eq_marker_iff]
    simp only [List.mem_cons, List.not_mem_nil, or_false] at hname
    rcases hname with rfl | rfl | rfl <;> decide +kernel
  · exact List.mem_append_right _ (by decide +kernel)
  · decide +kernel
  · exact readWhole_of_forall (by decide +kernel)

end DnsCache

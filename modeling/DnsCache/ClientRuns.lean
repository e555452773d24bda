import DnsCache.Client

/-! # What the client takes from a reply

`tcp_dns_search` and `udp_dns_search` with what each call of `f` rests on: the
place of its address word, and the position that led to its name.

* `tcpDnsSearch`, `udpDnsSearch`: the functions of the source, on whatever is received.
* `client_trusts_iff`: the replies of which nothing is made up.
* `udp_calls_iff`: the requests whose names are read inside their buffer.
-/

namespace DnsCache

open CMem

/-! ## The functions -/

/-- `SUCCESS` and `NOT_IN_SET`. -/
def success : Nat := 0
def notInSet : Nat := 1

/-- A call of `f`, with the offset of its address word in `retbuf` and the
position of its name. -/
structure Handed where
  call : Call
  word : Nat
  pos : Nat
deriving DecidableEq, Repr

/-- A reply as the client takes it. `received` and `owed` are history variables:
the bytes stored in `retbuf`, and the bytes of the words that must follow the head. -/
structure Reply where
  received : Nat
  owed : Nat
  handed : List Handed
deriving DecidableEq, Repr

/-- What a search returns, and the replies it has read. -/
structure ClientRun where
  code : Nat
  replies : List Reply
deriving DecidableEq, Repr

/-- The loop after `FIRST_WITHOUT_ERROR`. -/
def handAll (buf mem : List UInt8) : Nat → Nat → Nat → Option (List Handed)
  | 0, _, _ => some []
  | k + 1, i, count => do
      let ip ← wordAt mem (headLength + 4 * i)
      let call ← callAt buf count ip
      let count := count + (call.name.length + 1)
      if intMax < count then none
      else
        let handed ← handAll buf mem k (i + 1) count
        return ⟨call, headLength + 4 * i, i⟩ :: handed

/-- The loop over a first reply with misses. -/
def handHits (buf : List UInt8) (index : List UInt32) (mem : List UInt8) :
    Nat → Nat → Option (List Handed × Nat)
  | 0, _ => some ([], 0)
  | k + 1, i => do
      let tempip ← wordAt mem (headLength + 4 * i)
      if tempip = cacheMiss then
        let (handed, misscount) ← handHits buf index mem k (i + 1)
        return (handed, misscount + 1)
      else
        let call ← callIndexed buf index i tempip
        let (handed, misscount) ← handHits buf index mem k (i + 1)
        return (⟨call, headLength + 4 * i, i⟩ :: handed, misscount)

/-- The loop over a second reply. -/
def handPairs (buf : List UInt8) (index : List UInt32) (mem : List UInt8) :
    Nat → Nat → Option (List Handed)
  | 0, _ => some []
  | k + 1, i => do
      let pos ← wordAt mem (headLength + 8 * i)
      let ip ← wordAt mem (headLength + 8 * i + 4)
      let call ← callIndexed buf index pos.toNat ip
      let handed ← handPairs buf index mem k (i + 1)
      return ⟨call, headLength + 8 * i + 4, pos.toNat⟩ :: handed

/-- `tcp_dns_search` from the first `read` on. -/
def tcpReplies (buf : List UInt8) (index : List UInt32) (nbuf : Nat) (sock : Sock) :
    Option ClientRun := do
  let cap := 8 * nbuf + headLength
  let (sock, retbuf, count) ← readReply (firstLength nbuf) sock (Block.alloc cap)
  let flag ← retbuf.bytes[headLength - 1]?
  if flag = firstWithoutError then
    let handed ← handAll buf retbuf.bytes nbuf 0 0
    return ⟨success, [⟨count, 4 * nbuf, handed⟩]⟩
  else
    let (handed, misscount) ← handHits buf index retbuf.bytes nbuf 0
    let (_, retbuf, count') ← readReply (secondLength misscount) sock (zeroed cap)
    let handed' ← handPairs buf index retbuf.bytes misscount 0
    return ⟨success, [⟨count, 4 * nbuf, handed⟩, ⟨count', 8 * misscount, handed'⟩]⟩

/-- `tcp_dns_search (buf, nbuf, f)` when the request is sent: `mem` is the
memory from `buf` on. -/
def tcpDnsSearch (mem : List UInt8) (nbuf : Nat) (sock : Sock) : Option ClientRun :=
  match preDo mem nbuf with
  | none => none
  | some none => some ⟨notInSet, []⟩
  | some (some prep) => tcpReplies prep.buf prep.index nbuf sock

/-- The loop of `udp_dns_search`. Beside the index it walks over the strings of
`buf` from `count` on. -/
def handUdp (buf : List UInt8) (index : List UInt32) (mem : List UInt8) :
    Nat → Nat → Nat → Option (List Handed)
  | 0, _, _ => some []
  | k + 1, i, count => do
      let ip ← wordAt mem (headLength + 4 * i)
      let call ← callIndexed buf index i ip
      let walked ← CStr.scan (buf.drop count)
      let count := count + (walked.length + 1)
      if intMax < count then none
      else
        let handed ← handUdp buf index mem k (i + 1) count
        return ⟨call, headLength + 4 * i, i⟩ :: handed

/-- `udp_dns_search (buf, nbuf, f)` when the request is sent and `datagram`
arrives: `count` starts as the number of bytes received. -/
def udpDnsSearch (mem : List UInt8) (nbuf : Nat) (datagram : List UInt8) : Option ClientRun :=
  match preDo mem nbuf with
  | none => none
  | some none => some ⟨notInSet, []⟩
  | some (some prep) => do
      let retbuf := datagram.take (firstLength nbuf)
      let handed ← handUdp prep.buf prep.index retbuf nbuf 0 retbuf.length
      return ⟨success, [⟨retbuf.length, 4 * nbuf, handed⟩]⟩

/-! ## The calls are those of `tcpDecode` -/

theorem handAll_calls (buf mem : List UInt8) (k i count : Nat) :
    (handAll buf mem k i count).map (·.map (·.call)) = callAll buf mem k i count := by
  induction k generalizing i count with
  | zero => rfl
  | succ k ih =>
      unfold handAll callAll
      cases wordAt mem (headLength + 4 * i) with
      | none => rfl
      | some ip =>
          simp only [Option.bind_eq_bind, Option.bind_some]
          cases callAt buf count ip with
          | none => rfl
          | some call =>
              simp only [Option.bind_some, ← ih]
              split
              · rfl
              · cases handAll buf mem k (i + 1) (count + (call.name.length + 1)) <;> rfl

theorem handHits_calls (buf : List UInt8) (index : List UInt32) (mem : List UInt8) (k i : Nat) :
    (handHits buf index mem k i).map (fun r => (r.1.map (·.call), r.2)) =
      firstPass buf index mem k i := by
  induction k generalizing i with
  | zero => rfl
  | succ k ih =>
      unfold handHits firstPass
      cases wordAt mem (headLength + 4 * i) with
      | none => rfl
      | some ip =>
          simp only [Option.bind_eq_bind, Option.bind_some, ← ih]
          split
          · cases handHits buf index mem k (i + 1) <;> rfl
          · cases callIndexed buf index i ip with
            | none => rfl
            | some call => cases handHits buf index mem k (i + 1) <;> rfl

theorem handPairs_calls (buf : List UInt8) (index : List UInt32) (mem : List UInt8) (k i : Nat) :
    (handPairs buf index mem k i).map (·.map (·.call)) = secondPass buf index mem k i := by
  induction k generalizing i with
  | zero => rfl
  | succ k ih =>
      unfold handPairs secondPass
      cases wordAt mem (headLength + 8 * i) with
      | none => rfl
      | some pos =>
          cases wordAt mem (headLength + 8 * i + 4) with
          | none => rfl
          | some ip =>
              simp only [Option.bind_eq_bind, Option.bind_some, ← ih]
              cases callIndexed buf index pos.toNat ip with
              | none => rfl
              | some call => cases handPairs buf index mem k (i + 1) <;> rfl

/-- The calls of a run, in order. -/
def ClientRun.calls (r : ClientRun) : List Call := r.replies.flatMap fun reply => reply.handed.map (·.call)

theorem tcpReplies_calls (buf : List UInt8) (index : List UInt32) (nbuf : Nat) (sock : Sock) :
    (tcpReplies buf index nbuf sock).map (·.calls) = tcpDecode buf index nbuf sock := by
  unfold tcpReplies tcpDecode
  simp only [Option.bind_eq_bind, ← handAll_calls, ← handHits_calls, ← handPairs_calls]
  cases readReply (firstLength nbuf) sock (Block.alloc (8 * nbuf + headLength)) with
  | none => rfl
  | some r =>
      simp only [Option.bind_some]
      cases r.2.1.bytes[headLength - 1]? with
      | none => rfl
      | some flag =>
          simp only [Option.bind_some]
          split
          · cases handAll buf r.2.1.bytes nbuf 0 0 with
            | none => rfl
            | some handed => simp [ClientRun.calls]
          · cases handHits buf index r.2.1.bytes nbuf 0 with
            | none => rfl
            | some hits =>
                simp only [Option.bind_some, Option.map_some]
                cases readReply (secondLength hits.2) r.1 (zeroed (8 * nbuf + headLength)) with
                | none => rfl
                | some r' =>
                    simp only [Option.bind_some]
                    cases handPairs buf index r'.2.1.bytes hits.2 0 with
                    | none => rfl
                    | some handed => simp [ClientRun.calls]

/-! ## What the calls rest on -/

variable {buf mem : List UInt8} {index : List UInt32} {k i count : Nat} {handed : List Handed}

/-- Words that lie in the reply, positions that lie in the index. -/
def Contained (received n : Nat) (handed : List Handed) : Prop :=
  ∀ h ∈ handed, h.word + 4 ≤ received ∧ h.pos < n

theorem Contained.cons {received n : Nat} {h : Handed} (hrest : Contained received n handed)
    (hword : h.word + 4 ≤ received) (hpos : h.pos < n) : Contained received n (h :: handed) := by
  intro h' hmem
  rcases List.mem_cons.mp hmem with rfl | hmem
  · exact ⟨hword, hpos⟩
  · exact hrest h' hmem

theorem handAll_contained (h : handAll buf mem k i count = some handed) :
    Contained mem.length (i + k) handed := by
  induction k generalizing i count handed with
  | zero =>
      cases h
      simp [Contained]
  | succ k ih =>
      simp only [handAll, Option.bind_eq_bind, Option.bind_eq_some_iff] at h
      rcases h with ⟨ip, hip, call, -, h⟩
      split at h
      · simp at h
      · simp only [Option.bind_eq_some_iff, Option.pure_def, Option.some.injEq] at h
        rcases h with ⟨rest, hrest, rfl⟩
        have hrec := ih hrest
        rw [Nat.add_right_comm, Nat.add_assoc] at hrec
        exact hrec.cons (wordAt_inside hip) (by show i < i + (k + 1); omega)

theorem handHits_contained {misscount : Nat}
    (h : handHits buf index mem k i = some (handed, misscount)) :
    Contained mem.length (i + k) handed := by
  induction k generalizing i handed misscount with
  | zero =>
      cases h
      simp [Contained]
  | succ k ih =>
      simp only [handHits, Option.bind_eq_bind, Option.bind_eq_some_iff] at h
      rcases h with ⟨ip, hip, h⟩
      split at h
      · simp only [Option.bind_eq_some_iff, Option.pure_def, Option.some.injEq] at h
        rcases h with ⟨⟨rest, misses⟩, hrest, heq⟩
        have hrec := ih hrest
        rw [Nat.add_right_comm, Nat.add_assoc] at hrec
        rw [← (Prod.mk.inj heq).1]
        exact hrec
      · simp only [Option.bind_eq_some_iff, Option.pure_def, Option.some.injEq] at h
        rcases h with ⟨call, -, ⟨rest, misses⟩, hrest, heq⟩
        have hrec := ih hrest
        rw [Nat.add_right_comm, Nat.add_assoc] at hrec
        rw [← (Prod.mk.inj heq).1]
        exact hrec.cons (wordAt_inside hip) (by show i < i + (k + 1); omega)

theorem callIndexed_lt {ip : UInt32} {call : Call} (h : callIndexed buf index i ip = some call) :
    i < index.length := by
  rcases Option.bind_eq_some_iff.mp h with ⟨ptr, hptr, -⟩
  exact (List.getElem?_eq_some_iff.mp hptr).1

theorem handPairs_contained (h : handPairs buf index mem k i = some handed) :
    Contained (headLength + 8 * (i + k)) index.length handed := by
  induction k generalizing i handed with
  | zero =>
      cases h
      simp [Contained]
  | succ k ih =>
      simp only [handPairs, Option.bind_eq_bind, Option.bind_eq_some_iff, Option.pure_def,
        Option.some.injEq] at h
      rcases h with ⟨pos, -, ip, -, call, hcall, rest, hrest, rfl⟩
      have hrec := ih hrest
      rw [Nat.add_right_comm, Nat.add_assoc] at hrec
      exact hrec.cons (by show headLength + 8 * i + 4 + 4 ≤ _; omega) (callIndexed_lt hcall)

/-- The loop over a datagram: its calls, in order. -/
theorem handUdp_getElem (h : handUdp buf index mem k i count = some handed) :
    handed.length = k ∧ ∀ j < k, ∃ ip call, wordAt mem (headLength + 4 * (i + j)) = some ip ∧
      callIndexed buf index (i + j) ip = some call ∧
      handed[j]? = some ⟨call, headLength + 4 * (i + j), i + j⟩ := by
  induction k generalizing i count handed with
  | zero =>
      cases h
      exact ⟨rfl, fun j hj => absurd hj (Nat.not_lt_zero j)⟩
  | succ k ih =>
      simp only [handUdp, Option.bind_eq_bind, Option.bind_eq_some_iff] at h
      rcases h with ⟨ip, hip, call, hcall, walked, -, h⟩
      split at h
      · simp at h
      · simp only [Option.bind_eq_some_iff, Option.pure_def, Option.some.injEq] at h
        rcases h with ⟨rest, hrest, rfl⟩
        rcases ih hrest with ⟨hlen, hget⟩
        refine ⟨congrArg (· + 1) hlen, fun j hj => ?_⟩
        rcases j with _ | j
        · exact ⟨ip, call, hip, hcall, rfl⟩
        · rcases hget j (Nat.lt_of_succ_lt_succ hj) with ⟨ip', call', hip', hcall', hget'⟩
          rw [Nat.add_right_comm, Nat.add_assoc] at hip' hcall' hget'
          exact ⟨ip', call', hip', hcall', hget'⟩

/-- The strings from `count` on that end below the largest `int`: the loop over
a datagram walks over one for each name. -/
def stringsBehind (buf : List UInt8) (count : Nat) : Nat := ((buf.take intMax).drop count).count 0

theorem handUdp_isSome_iff (count : Nat) (hidx : Indexed buf index (i + k))
    (hmem : headLength + 4 * (i + k) ≤ mem.length) :
    (handUdp buf index mem k i count).isSome ↔ k ≤ stringsBehind buf count := by
  induction k generalizing i count with
  | zero => exact iff_of_true rfl (Nat.zero_le _)
  | succ k ih =>
      rcases exists_wordAt (show headLength + 4 * i + 4 ≤ mem.length by omega) with ⟨ip, hip⟩
      rcases Option.isSome_iff_exists.mp (hidx i (by omega) ip) with ⟨call, hcall⟩
      have hsplit : stringsBehind buf count =
          ((buf.drop count).take (intMax - count)).count 0 := by
        rw [stringsBehind, List.drop_take]
      rw [hsplit, CStr.succ_le_count_iff]
      simp only [handUdp, hip, hcall, Option.bind_eq_bind, Option.bind_some]
      have hnext : ∀ len, intMax - count - len = intMax - (count + len) := fun len => by omega
      constructor
      · intro h
        rcases Option.isSome_iff_exists.mp h with ⟨handed, h⟩
        rcases Option.bind_eq_some_iff.mp h with ⟨walked, hwalked, h⟩
        split at h
        · simp at h
        · rcases Option.bind_eq_some_iff.mp h with ⟨rest, hrest, -⟩
          have hcount := (@ih (i + 1) (count + (walked.length + 1))
            (by rw [Nat.add_right_comm]; exact hidx) (by omega)).mp (by rw [hrest]; rfl)
          rw [stringsBehind, List.drop_take, ← List.drop_drop] at hcount
          refine ⟨walked, hwalked, by omega, ?_⟩
          rw [hnext]
          exact hcount
      · rintro ⟨walked, hwalked, hle, hcount⟩
        rw [hnext] at hcount
        have hrest := (@ih (i + 1) (count + (walked.length + 1))
          (by rw [Nat.add_right_comm]; exact hidx) (by omega)).mpr
          (by rw [stringsBehind, List.drop_take, ← List.drop_drop]; exact hcount)
        rcases Option.isSome_iff_exists.mp hrest with ⟨rest, hrest⟩
        rw [hwalked, Option.bind_some, if_neg (by omega), hrest]
        rfl

/-! ## The read loops -/

/-- No read that begins in front of the bytes wanted ends behind the block or
the range of `count`. -/
def ReadsInside (cap want : Nat) (sock : Sock) : Prop :=
  ∀ j, sock.reach want j < want →
    min sock.stream.length (sock.reach want (j + 1)) ≤ min cap intMax

section Reads

variable {want : Nat} {sock sock' : Sock} {block block' : Block} {count : Nat}

theorem readReply_isSome_iff (block : Block) (hwant : 0 < want) :
    (readReply want sock block).isSome ↔ ReadsInside block.cap want sock :=
  readUntil_within_iff (fun _ => rfl) hwant

/-- What a read loop leaves in `retbuf`. -/
theorem readReply_bytes (hwant : 0 < want)
    (h : readReply want sock block = some (sock', block', count)) :
    block'.cap = block.cap ∧ count ≤ sock.stream.length ∧
      block'.bytes = sock.stream.take count ++ block.bytes.drop count := by
  rcases readUntil_spec hwant h with ⟨j, hcount, -, hcap, hbytes, -, -⟩
  rw [Nat.sub_zero] at hbytes
  have hle : count ≤ sock.stream.length := by omega
  refine ⟨hcap, hle, ?_⟩
  rw [hbytes, patch_zero, List.length_take, Nat.min_eq_left hle]

/-- A loop that is left with all the bytes wanted. -/
theorem readReply_whole (hwant : 0 < want)
    (h : readReply want sock block = some (sock', block', count)) {j : Nat}
    (hj : sock.reach want j < want) (hj' : want ≤ sock.reach want (j + 1)) :
    (want ≤ count ↔ want ≤ sock.stream.length) ∧
      (want ≤ count → sock' = sock.after want (j + 1)) := by
  rcases readUntil_stops (j := j) (fun _ => rfl) hwant h (by omega) (by omega) with ⟨hcount, hafter⟩
  exact ⟨by omega, hafter⟩

end Reads

/-! ## Replies that can be trusted -/

/-- A reply that ends before its words do. -/
def Reply.Short (r : Reply) : Prop := r.received - headLength < r.owed

/-- Only words and positions that are there are used, and a short reply is no success. -/
structure ClientRun.Trusts (n : Nat) (r : ClientRun) : Prop where
  contained : ∀ reply ∈ r.replies, Contained reply.received n reply.handed
  short : (∃ reply ∈ r.replies, reply.Short) → r.code ≠ success

theorem ClientRun.Trusts.long {n : Nat} {r : ClientRun} (h : r.Trusts n) (hcode : r.code = success)
    {reply : Reply} (hmem : reply ∈ r.replies) : reply.owed ≤ reply.received - headLength :=
  Nat.le_of_not_lt fun hshort => h.short ⟨reply, hmem, hshort⟩ hcode

theorem ClientRun.trusts_of_long {n : Nat} {r : ClientRun}
    (h : ∀ reply ∈ r.replies, Contained reply.received n reply.handed ∧
      reply.owed ≤ reply.received - headLength) : r.Trusts n where
  contained := fun reply hmem => (h reply hmem).1
  short := by
    rintro ⟨reply, hmem, hshort⟩
    exact absurd hshort (Nat.not_lt.mpr (h reply hmem).2)

/-- A second reply to `m` of `n` names. -/
def SecondWhole (n m : Nat) (sock : Sock) : Prop :=
  ReadsInside (8 * n + headLength) (secondLength m) sock ∧
    (m = 0 ∨ ∃ head pairs tail, sock.stream = head ++ (pairBytes pairs ++ tail) ∧
      head.length = headLength ∧ pairs.length = m ∧ ∀ p ∈ pairs, p.1.toNat < n)

/-- A first reply to `n` names that occupy `size` bytes, and the second one when there
are misses. -/
def FirstWhole (n size : Nat) (sock : Sock) : Prop :=
  ∃ head ws tail, sock.stream = head ++ (ws.flatMap le32 ++ tail) ∧
    head.length = headLength ∧ ws.length = n ∧
    ReadsInside (8 * n + headLength) (firstLength n) sock ∧
    ((head[headLength - 1]? = some firstWithoutError ∧ size ≤ intMax) ∨
      (head[headLength - 1]? ≠ some firstWithoutError ∧
        ∃ j, sock.reach (firstLength n) j < firstLength n ∧
          firstLength n ≤ sock.reach (firstLength n) (j + 1) ∧
          SecondWhole n (missedAt 0 ws).length (sock.after (firstLength n) (j + 1))))

/-- Enough bytes are an array of pairs. -/
theorem exists_pairs {m : List UInt8} {n : Nat} (h : 8 * n ≤ m.length) :
    ∃ (ps : List (UInt32 × UInt32)) (t : List UInt8), m = pairBytes ps ++ t ∧ ps.length = n := by
  induction n generalizing m with
  | zero => exact ⟨[], m, rfl, rfl⟩
  | succ n ih =>
      rcases @exists_words m 2 (by omega) with ⟨ws, t, rfl, hws⟩
      rcases ws with _ | ⟨w, _ | ⟨w', _ | ⟨w'', ws⟩⟩⟩ <;> simp only [List.length_nil,
        List.length_cons, Nat.reduceAdd, Nat.reduceEqDiff] at hws
      rw [List.length_append] at h
      have hlen : (([w, w'] : List UInt32).flatMap le32).length = 8 := rfl
      rcases @ih t (by omega) with ⟨ps, t', rfl, hps⟩
      refine ⟨(w, w') :: ps, t', ?_, congrArg (· + 1) hps⟩
      simp [pairBytes]

/-- The pairs of a reply that is used name positions in the index. -/
theorem handPairs_positions {ps : List (UInt32 × UInt32)} {tail : List UInt8}
    (hmem : mem.drop (headLength + 8 * i) = pairBytes ps ++ tail)
    (h : handPairs buf index mem ps.length i = some handed) : ∀ p ∈ ps, p.1.toNat < index.length := by
  induction ps generalizing i handed with
  | nil => simp
  | cons p ps ih =>
      rcases pair_of_drop hmem with ⟨hpos, -, hmem₂⟩
      simp only [List.length_cons, handPairs, hpos, Option.bind_eq_bind, Option.bind_some,
        Option.bind_eq_some_iff, Option.pure_def, Option.some.injEq] at h
      rcases h with ⟨ip, -, call, hcall, rest, hrest, -⟩
      intro q hq
      rcases List.mem_cons.mp hq with rfl | hq
      · exact callIndexed_lt hcall
      · exact ih hmem₂ hrest q hq

section Tcp

variable {n : Nat} {sock rest : Sock}

/-- What stands in the received bytes stands in `retbuf`, whatever was there before. -/
theorem drop_received {stream x tail : List UInt8} {off count : Nat} (old : List UInt8)
    (hstream : stream.drop off = x ++ tail) (hle : off + x.length ≤ count)
    (hcount : count ≤ stream.length) :
    ∃ t, (stream.take count ++ old).drop off = x ++ t := by
  refine ⟨tail.take (count - off - x.length) ++ old, ?_⟩
  rw [List.drop_append_of_le_length (by rw [List.length_take]; omega), List.drop_take, hstream,
    List.take_append, List.take_of_length_le (by omega), List.append_assoc]

/-- A second reply that is used, and is not short, is whole. -/
theorem secondWhole_of_run {m count : Nat} {sock' : Sock} {retbuf : Block} (hindex : index.length = n)
    (hread : readReply (secondLength m) rest (zeroed (8 * n + headLength)) =
      some (sock', retbuf, count))
    (hpairs : handPairs buf index retbuf.bytes m 0 = some handed)
    (hlong : 8 * m ≤ count - headLength) : SecondWhole n m rest := by
  have hwant := secondLength_pos m
  refine ⟨(readReply_isSome_iff _ hwant).mp (by rw [hread]; rfl), ?_⟩
  rcases Nat.eq_zero_or_pos m with hm0 | hpos
  · exact Or.inl hm0
  · rcases readReply_bytes hwant hread with ⟨-, hle, hbytes⟩
    have hhead : headLength = 13 := headLength_eq
    have htake : (rest.stream.take headLength).length = headLength := by
      rw [List.length_take]
      omega
    rcases @exists_pairs (rest.stream.drop headLength) m (by rw [List.length_drop]; omega)
      with ⟨pairs, tail, hdrop, hlen⟩
    have hsize : (pairBytes pairs).length = 8 * m := by rw [pairBytes_length, hlen]
    rcases drop_received ((zeroed (8 * n + headLength)).bytes.drop count) hdrop (by omega) hle
      with ⟨t, hmem⟩
    rw [← hbytes] at hmem
    rw [← hlen] at hpairs
    refine Or.inr ⟨rest.stream.take headLength, pairs, tail, ?_, htake, hlen, ?_⟩
    · rw [← hdrop, List.take_append_drop]
    · rw [← hindex]
      exact handPairs_positions (by rw [Nat.mul_zero, Nat.add_zero]; exact hmem) hpairs

/-- A whole second reply is used. -/
theorem run_of_secondWhole {m : Nat} (hindex : index.length = n) (hidx : Indexed buf index n)
    (h : SecondWhole n m rest) :
    ∃ sock' retbuf count handed,
      readReply (secondLength m) rest (zeroed (8 * n + headLength)) = some (sock', retbuf, count) ∧
      handPairs buf index retbuf.bytes m 0 = some handed ∧ Contained count n handed ∧
      8 * m ≤ count - headLength := by
  have hwant := secondLength_pos m
  rcases h with ⟨hinside, hwhole⟩
  rcases Option.isSome_iff_exists.mp
    ((readReply_isSome_iff (zeroed (8 * n + headLength)) hwant).mpr hinside)
    with ⟨⟨sock', retbuf, count⟩, hread⟩
  rcases readReply_bytes hwant hread with ⟨-, hle, hbytes⟩
  rcases hwhole with rfl | ⟨head, pairs, tail, hstream, hhead, hlen, hpos⟩
  · exact ⟨sock', retbuf, count, [], hread, rfl, by simp [Contained], Nat.zero_le _⟩
  · have hsize : (pairBytes pairs).length = 8 * m := by rw [pairBytes_length, hlen]
    have hlength := congrArg List.length hstream
    rw [List.length_append, List.length_append] at hlength
    rcases rest.exists_passing hwant with ⟨j, hj, hj'⟩
    rw [Nat.zero_add] at hj hj'
    have hcount := (readReply_whole hwant hread hj hj').1.mpr (by rw [secondLength]; omega)
    rw [secondLength] at hcount
    have hdrop : rest.stream.drop headLength = pairBytes pairs ++ tail := by
      rw [hstream, List.drop_left' hhead]
    rcases drop_received ((zeroed (8 * n + headLength)).bytes.drop count) hdrop (by omega) hle
      with ⟨t, hmem⟩
    rw [← hbytes] at hmem
    have hpairs := handPairs_calls buf index retbuf.bytes m 0
    rw [← hlen, secondPass_eq (fun p hp => hidx _ (hpos p hp) p.2)
      (by rw [Nat.mul_zero, Nat.add_zero]; exact hmem), hlen] at hpairs
    rcases Option.map_eq_some_iff.mp hpairs with ⟨handed, hhanded, -⟩
    refine ⟨sock', retbuf, count, handed, hread, hhanded, ?_, by omega⟩
    intro h hmem'
    rcases handPairs_contained hhanded h hmem' with ⟨hword, hposition⟩
    rw [Nat.zero_add] at hword
    exact ⟨by omega, by rw [← hindex]; exact hposition⟩

/-- The first reply as it stands in `retbuf`. -/
theorem first_received {count : Nat} {sock' : Sock} {retbuf : Block} {head tail : List UInt8}
    {ws : List UInt32}
    (hread : readReply (firstLength n) sock (Block.alloc (8 * n + headLength)) =
      some (sock', retbuf, count))
    (hstream : sock.stream = head ++ (ws.flatMap le32 ++ tail)) (hhead : head.length = headLength)
    (hws : ws.length = n) (hcount : firstLength n ≤ count) :
    retbuf.bytes[headLength - 1]? = head[headLength - 1]? ∧ retbuf.bytes.length = count ∧
      ∃ t, retbuf.bytes.drop (headLength + 4 * 0) = ws.flatMap le32 ++ t := by
  rcases readReply_bytes (firstLength_pos n) hread with ⟨-, hle, hbytes⟩
  have hempty : (Block.alloc (8 * n + headLength)).bytes.drop count = [] := List.drop_nil
  have hsize := words_bytes_length ws
  rw [firstLength, headLength_eq] at hcount
  rw [hempty] at hbytes
  refine ⟨?_, ?_, ?_⟩
  · rw [hbytes, List.append_nil, List.getElem?_take_of_lt (by rw [headLength_eq]; omega), hstream,
      List.getElem?_append_left (by rw [hhead, headLength_eq]; decide)]
  · rw [hbytes, List.append_nil, List.length_take, Nat.min_eq_left hle]
  · have hdrop : sock.stream.drop headLength = ws.flatMap le32 ++ tail := by
      rw [hstream, List.drop_left' hhead]
    rw [hbytes, Nat.mul_zero, Nat.add_zero]
    exact drop_received _ hdrop (by rw [headLength_eq]; omega) hle

/-- A stream that holds a first reply. -/
theorem exists_first {stream : List UInt8} (h : firstLength n ≤ stream.length) :
    ∃ (head : List UInt8) (ws : List UInt32) (tail : List UInt8),
      stream = head ++ (ws.flatMap le32 ++ tail) ∧ head.length = headLength ∧ ws.length = n := by
  rw [firstLength] at h
  rcases @exists_words (stream.drop headLength) n (by rw [List.length_drop]; omega)
    with ⟨ws, tail, hdrop, hws⟩
  refine ⟨stream.take headLength, ws, tail, ?_, ?_, hws⟩
  · rw [← hdrop, List.take_append_drop]
  · rw [List.length_take]
    omega

variable {names : List CStr} {beyond : List UInt8}

/-- Replies that are taken, and are not short, are whole. -/
theorem firstWhole_of_run {r : ClientRun} (hbuf : buf = CStr.pack names ++ beyond)
    (hindex : index.length = names.length) (hidx : Indexed buf index names.length)
    (hne : names ≠ []) (hrun : tcpReplies buf index names.length sock = some r)
    (htrusts : r.Trusts names.length) :
    FirstWhole names.length (CStr.pack names).length sock := by
  have hwant := firstLength_pos names.length
  have hpos := List.length_pos_of_ne_nil hne
  have hbuf₀ : buf.drop 0 = CStr.pack names ++ beyond := hbuf
  rcases sock.exists_passing hwant with ⟨j, hj, hj'⟩
  rw [Nat.zero_add] at hj hj'
  unfold tcpReplies at hrun
  simp only [Option.bind_eq_bind, Option.bind_eq_some_iff] at hrun
  rcases hrun with ⟨⟨sock', retbuf, count⟩, hread, flag, hflag, hrun⟩
  have hinside := (readReply_isSome_iff _ hwant).mp (by rw [hread]; rfl)
  rcases readReply_whole hwant hread hj hj' with ⟨hwhole, hafter⟩
  split at hrun
  · rename_i hfwe
    simp only [Option.bind_eq_some_iff, Option.pure_def, Option.some.injEq] at hrun
    rcases hrun with ⟨handed, hhanded, rfl⟩
    have hlong : 4 * names.length ≤ count - headLength :=
      htrusts.long rfl (List.mem_singleton.mpr rfl)
    have hcount : firstLength names.length ≤ count := by
      rw [firstLength]
      omega
    rcases exists_first (hwhole.mp hcount) with ⟨head, ws, tail, hstream, hhead, hws⟩
    rcases first_received hread hstream hhead hws hcount with ⟨hlast, -, t, hmem⟩
    refine ⟨head, ws, tail, hstream, hhead, hws, hinside, Or.inl ⟨?_, ?_⟩⟩
    · rw [← hlast, hflag, hfwe]
    · have hcalls := handAll_calls buf retbuf.bytes names.length 0 0
      rw [callAll_eq hbuf₀ hmem hws (Nat.zero_le _), hhanded, Nat.zero_add] at hcalls
      by_contra hlarge
      rw [if_neg hlarge] at hcalls
      simp at hcalls
  · rename_i hfwe
    simp only [Option.bind_eq_some_iff, Option.pure_def, Option.some.injEq] at hrun
    rcases hrun with ⟨⟨handed, misscount⟩, hhits, ⟨sock'', retbuf', count'⟩, hread', handed',
      hpairs, rfl⟩
    have hlong : 4 * names.length ≤ count - headLength := htrusts.long rfl List.mem_cons_self
    have hlong' : 8 * misscount ≤ count' - headLength :=
      htrusts.long rfl (List.mem_cons_of_mem _ (List.mem_singleton.mpr rfl))
    have hcount : firstLength names.length ≤ count := by
      rw [firstLength]
      omega
    rcases exists_first (hwhole.mp hcount) with ⟨head, ws, tail, hstream, hhead, hws⟩
    rcases first_received hread hstream hhead hws hcount with ⟨hlast, -, t, hmem⟩
    have hfirst := handHits_calls buf index retbuf.bytes names.length 0
    rw [hhits, ← hws, firstPass_eq (by rw [hws, Nat.zero_add]; exact hidx) hmem,
      Option.map_some, Option.some.injEq, Prod.mk.injEq] at hfirst
    have hmiss : misscount = (missedAt 0 ws).length := hfirst.2
    rw [hafter hcount, hfirst.2] at hread'
    rw [hfirst.2] at hpairs
    rw [hmiss] at hlong'
    refine ⟨head, ws, tail, hstream, hhead, hws, hinside, Or.inr ⟨?_, j, hj, hj', ?_⟩⟩
    · rw [← hlast, hflag]
      exact fun h => hfwe (Option.some.inj h)
    · exact secondWhole_of_run hindex hread' hpairs hlong'

/-- Whole replies are taken. -/
theorem run_of_firstWhole (hbuf : buf = CStr.pack names ++ beyond)
    (hindex : index.length = names.length) (hidx : Indexed buf index names.length)
    (h : FirstWhole names.length (CStr.pack names).length sock) :
    ∃ r, tcpReplies buf index names.length sock = some r ∧ r.Trusts names.length := by
  have hwant := firstLength_pos names.length
  have hbuf₀ : buf.drop 0 = CStr.pack names ++ beyond := hbuf
  rcases sock.exists_passing hwant with ⟨j, hj, hj'⟩
  rw [Nat.zero_add] at hj hj'
  rcases h with ⟨head, ws, tail, hstream, hhead, hws, hinside, hkind⟩
  rcases Option.isSome_iff_exists.mp ((readReply_isSome_iff
    (Block.alloc (8 * names.length + headLength)) hwant).mpr hinside)
    with ⟨⟨sock', retbuf, count⟩, hread⟩
  rcases readReply_whole hwant hread hj hj' with ⟨hwhole, hafter⟩
  have hsize := words_bytes_length ws
  have hlength := congrArg List.length hstream
  rw [List.length_append, List.length_append] at hlength
  have hcount : firstLength names.length ≤ count := hwhole.mpr (by rw [firstLength]; omega)
  have hlong : 4 * names.length ≤ count - headLength := by
    rw [firstLength] at hcount
    omega
  rcases first_received hread hstream hhead hws hcount with ⟨hlast, hreceived, t, hmem⟩
  have hflag : ∃ flag, head[headLength - 1]? = some flag := by
    refine ⟨_, List.getElem?_eq_getElem ?_⟩
    rw [hhead, headLength_eq]
    decide
  rcases hflag with ⟨flag, hflag⟩
  rw [hflag] at hlast hkind
  rcases hkind with ⟨hfwe, hint⟩ | ⟨hfwe, j', hj₂, hj₂', hsecond⟩
  · -- no misses
    have hcalls := handAll_calls buf retbuf.bytes names.length 0 0
    rw [callAll_eq hbuf₀ hmem hws (Nat.zero_le _), Nat.zero_add, if_pos hint] at hcalls
    rcases Option.map_eq_some_iff.mp hcalls with ⟨handed, hhanded, -⟩
    refine ⟨⟨success, [⟨count, 4 * names.length, handed⟩]⟩, ?_, ClientRun.trusts_of_long ?_⟩
    · unfold tcpReplies
      simp only [hread, Option.bind_eq_bind, Option.bind_some, hlast, hhanded, Option.pure_def]
      rw [if_pos (Option.some.inj hfwe)]
    · intro reply hreply
      rw [List.mem_singleton.mp hreply]
      have hcontained := handAll_contained hhanded
      rw [hreceived, Nat.zero_add] at hcontained
      exact ⟨hcontained, hlong⟩
  · -- the second reply is read from where the first loop has stopped
    have hsame : j' = j := sock.passing_unique hj₂ hj₂' hj hj'
    rw [hsame, ← hafter hcount] at hsecond
    have hfirst := handHits_calls buf index retbuf.bytes names.length 0
    rw [← hws, firstPass_eq (by rw [hws, Nat.zero_add]; exact hidx) hmem, hws] at hfirst
    rcases Option.map_eq_some_iff.mp hfirst with ⟨⟨handed, misscount⟩, hhits, heq⟩
    have hmiss : misscount = (missedAt 0 ws).length := (Prod.mk.inj heq).2
    rw [← hmiss] at hsecond
    rcases run_of_secondWhole hindex hidx hsecond
      with ⟨sock'', retbuf', count', handed', hread', hpairs, hcontained', hlong'⟩
    refine ⟨⟨success, [⟨count, 4 * names.length, handed⟩, ⟨count', 8 * misscount, handed'⟩]⟩, ?_,
      ClientRun.trusts_of_long ?_⟩
    · unfold tcpReplies
      simp only [hread, Option.bind_eq_bind, Option.bind_some, hlast, hhits, hread', hpairs,
        Option.pure_def]
      rw [if_neg fun h => hfwe (by rw [h])]
    · intro reply hreply
      rcases List.mem_cons.mp hreply with rfl | hreply
      · have hcontained := handHits_contained hhits
        rw [hreceived, Nat.zero_add] at hcontained
        exact ⟨hcontained, hlong⟩
      · rw [List.mem_singleton.mp hreply]
        exact ⟨hcontained', hlong'⟩

/-- From the first read on: what is taken from the replies can be trusted when
they are whole. -/
theorem tcpReplies_trusts_iff (sock : Sock) (hbuf : buf = CStr.pack names ++ beyond)
    (hindex : index.length = names.length) (hidx : Indexed buf index names.length)
    (hne : names ≠ []) :
    (∃ r, tcpReplies buf index names.length sock = some r ∧ r.Trusts names.length) ↔
      FirstWhole names.length (CStr.pack names).length sock := by
  constructor
  · rintro ⟨r, hrun, htrusts⟩
    exact firstWhole_of_run hbuf hindex hidx hne hrun htrusts
  · intro h
    exact run_of_firstWhole hbuf hindex hidx h

end Tcp

/-! ## Whole searches -/

section Searches

variable {names : List CStr} {beyond : List UInt8} {prep : Prepared}

/-- What `pre_do` hands on when it accepts the names. -/
theorem prepared_spec (hne : names ≠ [])
    (h : preDo (CStr.pack names ++ beyond) names.length = some (some prep)) :
    ∃ (names' : List CStr) (beyond' : List UInt8), prep.buf = CStr.pack names' ++ beyond' ∧
      names'.length = names.length ∧ (CStr.pack names').length = (CStr.pack names).length ∧
      prep.index.length = names.length ∧ Indexed prep.buf prep.index names.length := by
  rcases preDo_shape hne h with ⟨hnuls, hindex, hptr⟩
  rcases CStr.pack_of_nuls hnuls with ⟨names', beyond', hbuf, hlens⟩
  have hlength : names'.length = names.length := by
    have h := congrArg List.length hlens
    rwa [List.length_map, List.length_map] at h
  have hsize := CStr.pack_length_congr hlens
  have hne' : names' ≠ [] := by
    intro h0
    rw [h0] at hlength
    exact hne (List.eq_nil_of_length_eq_zero hlength.symm)
  refine ⟨names', beyond', hbuf, hlength, hsize, hindex, ?_⟩
  intro i hi ip
  have hget : prep.index[i]? = some prep.index[i] := List.getElem?_eq_getElem (by rw [hindex]; exact hi)
  have hlt := hptr _ (List.mem_of_getElem? hget)
  -- the last name ends behind every pointer
  have hlast : (prep.buf.drop prep.index[i].toNat)[(CStr.pack names').length - 1 -
      prep.index[i].toNat]? = some 0 := by
    rw [List.getElem?_drop, Nat.add_sub_cancel' (by omega), hbuf,
      List.getElem?_append_left (by omega)]
    exact CStr.pack_getElem?_last hne'
  rcases CStr.scan_of_nul hlast with ⟨name, hname, -⟩
  rw [callIndexed, hget, Option.bind_some, callAt, hname]
  rfl

theorem stringsBehind_congr {buf buf' : List UInt8} (h : nuls buf = nuls buf') (count : Nat) :
    stringsBehind buf count = stringsBehind buf' count := by
  unfold stringsBehind
  rw [← count_nuls, ← count_nuls]
  unfold nuls at h ⊢
  rw [List.map_drop, List.map_take, h, List.map_drop, List.map_take]

/-- The loop over a datagram: what is taken from it can be trusted when it is
whole and the walk over the names ends. -/
theorem udpDnsSearch_trusts_iff (datagram : List UInt8) (hne : names ≠ [])
    (h : preDo (CStr.pack names ++ beyond) names.length = some (some prep)) :
    (∃ r, udpDnsSearch (CStr.pack names ++ beyond) names.length datagram = some r ∧
      r.Trusts names.length) ↔
      firstLength names.length ≤ datagram.length ∧
        names.length ≤ stringsBehind (CStr.pack names ++ beyond) (firstLength names.length) := by
  rcases prepared_spec hne h with ⟨-, -, -, -, -, hindex, hidx⟩
  have hpos := List.length_pos_of_ne_nil hne
  have hnuls := (preDo_shape hne h).1
  have hlen : (datagram.take (firstLength names.length)).length =
      min (firstLength names.length) datagram.length := List.length_take
  have hidx₀ : Indexed prep.buf prep.index (0 + names.length) := by
    rw [Nat.zero_add]
    exact hidx
  rw [← stringsBehind_congr hnuls]
  unfold udpDnsSearch
  simp only [h, Option.bind_eq_bind, Option.bind_eq_some_iff, Option.pure_def, Option.some.injEq]
  constructor
  · rintro ⟨r, ⟨handed, hhanded, rfl⟩, htrusts⟩
    have hlong : 4 * names.length ≤
        (datagram.take (firstLength names.length)).length - headLength :=
      htrusts.long rfl (List.mem_singleton.mpr rfl)
    have hwant : firstLength names.length = headLength + 4 * names.length := rfl
    have hwhole : firstLength names.length ≤ datagram.length := by omega
    rw [Nat.min_eq_left hwhole] at hlen
    refine ⟨hwhole, ?_⟩
    rw [hlen] at hhanded
    exact (handUdp_isSome_iff _ hidx₀ (by rw [hlen, firstLength, Nat.zero_add])).mp
      (by rw [hhanded]; rfl)
  · rintro ⟨hwhole, hwalk⟩
    rw [Nat.min_eq_left hwhole] at hlen
    rcases Option.isSome_iff_exists.mp ((handUdp_isSome_iff (firstLength names.length) hidx₀
      (by rw [hlen, firstLength, Nat.zero_add])).mpr hwalk) with ⟨handed, hhanded⟩
    rw [hlen]
    refine ⟨_, ⟨handed, hhanded, rfl⟩, ClientRun.trusts_of_long ?_⟩
    intro reply hreply
    rw [List.mem_singleton.mp hreply]
    refine ⟨?_, ?_⟩
    · intro x hx
      rcases handUdp_getElem hhanded with ⟨hcount, hget⟩
      rcases List.mem_iff_getElem?.mp hx with ⟨j, hj⟩
      have hjlt : j < names.length := by
        rw [← hcount]
        exact (List.getElem?_eq_some_iff.mp hj).1
      rcases hget j hjlt with ⟨ip, call, -, -, hx'⟩
      rw [hj, Option.some.injEq] at hx'
      rw [hx', firstLength, Nat.zero_add]
      refine ⟨?_, hjlt⟩
      show headLength + 4 * j + 4 ≤ headLength + 4 * names.length
      omega
    · show 4 * names.length ≤ firstLength names.length - headLength
      rw [firstLength, Nat.add_sub_cancel_left]

/-- `pre_do` accepts the names, or refuses them. -/
def NamesAccepted (mem : List UInt8) (n : Nat) : Prop := ∃ prep, preDo mem n = some (some prep)
def NamesRefused (mem : List UInt8) (n : Nat) : Prop := preDo mem n = some none

/-- Nothing is made up from a reply when its request is refused or the reply is whole. -/
theorem client_trusts_iff (names : List CStr) (beyond : List UInt8) (sock : Sock)
    (datagram : List UInt8) (hne : names ≠ []) :
    ((∃ r, tcpDnsSearch (CStr.pack names ++ beyond) names.length sock = some r ∧
        r.Trusts names.length) ↔
      NamesRefused (CStr.pack names ++ beyond) names.length ∨
        NamesAccepted (CStr.pack names ++ beyond) names.length ∧
          FirstWhole names.length (CStr.pack names).length sock) ∧
    ((∃ r, udpDnsSearch (CStr.pack names ++ beyond) names.length datagram = some r ∧
        r.Trusts names.length) ↔
      NamesRefused (CStr.pack names ++ beyond) names.length ∨
        NamesAccepted (CStr.pack names ++ beyond) names.length ∧
          firstLength names.length ≤ datagram.length ∧
          names.length ≤ stringsBehind (CStr.pack names ++ beyond) (firstLength names.length)) := by
  have htrusts : (⟨notInSet, []⟩ : ClientRun).Trusts names.length :=
    ClientRun.trusts_of_long fun reply h => absurd h List.not_mem_nil
  rcases hprep : preDo (CStr.pack names ++ beyond) names.length with _ | _ | prep
  · -- `pre_do` does not come to an end
    unfold tcpDnsSearch udpDnsSearch NamesRefused NamesAccepted
    simp [hprep]
  · unfold tcpDnsSearch udpDnsSearch NamesRefused NamesAccepted
    simp only [hprep, true_or, iff_true]
    exact ⟨⟨_, rfl, htrusts⟩, ⟨_, rfl, htrusts⟩⟩
  · have hrefused : ¬ NamesRefused (CStr.pack names ++ beyond) names.length := by
      unfold NamesRefused
      rw [hprep]
      simp
    have haccepted : NamesAccepted (CStr.pack names ++ beyond) names.length := ⟨prep, hprep⟩
    have htcp : tcpDnsSearch (CStr.pack names ++ beyond) names.length sock =
        tcpReplies prep.buf prep.index names.length sock := by
      unfold tcpDnsSearch
      rw [hprep]
    rcases prepared_spec hne hprep with ⟨names', beyond', hbuf, hlength, hsize, hindex, hidx⟩
    have hne' : names' ≠ [] := by
      intro h0
      rw [h0] at hlength
      exact hne (List.eq_nil_of_length_eq_zero hlength.symm)
    have hreplies := tcpReplies_trusts_iff sock hbuf (hindex.trans hlength.symm)
      (by rw [hlength]; exact hidx) hne'
    rw [hlength, hsize] at hreplies
    constructor
    · rw [htcp, hreplies]
      exact ⟨fun h => Or.inr ⟨haccepted, h⟩, fun h => (h.resolve_left hrefused).2⟩
    · rw [udpDnsSearch_trusts_iff datagram hne hprep]
      exact ⟨fun h => Or.inr ⟨haccepted, h⟩, fun h => (h.resolve_left hrefused).2⟩

end Searches

/-- The name "a". -/
def oneName : CStr := ⟨[97], CStr.noNul_a⟩

/-- A first reply with a miss, and the end of the stream. -/
def missOnly : Sock :=
  ⟨List.replicate 12 0 ++ [firstWithError] ++ le32 cacheMiss, fun _ => 17⟩

/-- The second reply never comes: the address 0 is handed to `f`, as a success. -/
theorem missOnly_success :
    tcpDnsSearch (CStr.pack [oneName]) 1 missOnly =
      some ⟨success, [⟨17, 4, []⟩, ⟨0, 8, [⟨⟨0, oneName, 0⟩, 17, 0⟩]⟩]⟩ ∧
    ¬ ∃ r, tcpDnsSearch (CStr.pack [oneName]) 1 missOnly = some r ∧ r.Trusts 1 := by
  have hrun : tcpDnsSearch (CStr.pack [oneName]) 1 missOnly =
      some ⟨success, [⟨17, 4, []⟩, ⟨0, 8, [⟨⟨0, oneName, 0⟩, 17, 0⟩]⟩]⟩ := by decide +kernel
  refine ⟨hrun, ?_⟩
  rintro ⟨r, hr, htrusts⟩
  rw [hrun, Option.some.injEq] at hr
  rw [← hr] at htrusts
  exact htrusts.short ⟨⟨0, 8, [⟨⟨0, oneName, 0⟩, 17, 0⟩]⟩, by simp,
    by show 0 - headLength < 8; decide⟩ rfl

/-- A name of 21 characters, as long as the reply to it and one more name. -/
def longName : CStr := ⟨List.replicate 21 97, by decide⟩

theorem longName_accepted (beyond : List UInt8) (h : beyond = [] ∨ beyond = [7]) :
    NamesAccepted (CStr.pack [longName, nameXyz] ++ beyond) [longName, nameXyz].length := by
  refine ⟨⟨CStr.pack [longName, nameXyz] ++ beyond, 39, [0, 22]⟩, ?_⟩
  rcases h with rfl | rfl <;> decide +kernel

/-- A hit, a miss and its second reply, seven bytes a read. -/
def twoReplies : Sock :=
  ⟨List.replicate 12 0 ++ [firstWithError] ++ le32 9 ++ le32 cacheMiss ++
    (List.replicate 12 0 ++ [secondWithoutError] ++ pairBytes [(1, 6)]), fun _ => 7⟩

theorem twoReplies_reach (j : Nat) : twoReplies.reach 21 j = 7 * j := by
  show ∑ i ∈ Finset.range j, 7 = _
  simp [Nat.mul_comm]

/-- From the start on, and behind the first reply: three reads end with a reply. -/
theorem twoReplies_inside :
    ReadsInside 29 21 twoReplies ∧ ReadsInside 29 21 (twoReplies.after 21 3) := by
  have hcap : min 29 intMax = 29 := rfl
  constructor
  · intro j hj
    rw [twoReplies_reach] at hj ⊢
    omega
  · intro j hj
    rw [show (twoReplies.after 21 3).reach 21 = twoReplies.reach 21 from rfl,
      twoReplies_reach] at hj ⊢
    omega

theorem twoReplies_whole : FirstWhole 2 26 twoReplies := by
  refine ⟨List.replicate 12 0 ++ [firstWithError], [9, cacheMiss], _, by rfl, rfl, rfl,
    twoReplies_inside.1, .inr ⟨by decide, 2, ?_, ?_, twoReplies_inside.2, .inr ?_⟩⟩
  · show twoReplies.reach 21 2 < 21
    rw [twoReplies_reach]
    decide
  · show 21 ≤ twoReplies.reach 21 3
    rw [twoReplies_reach]
  · exact ⟨List.replicate 12 0 ++ [secondWithoutError], [(1, 6)], [], by decide +kernel, rfl,
      by decide, List.forall_mem_singleton.mpr (by decide)⟩

/-- `client_trusts_iff` for these replies, and for a datagram of 21 bytes. -/
theorem client_trusts_iff_whole :
    (∃ r, tcpDnsSearch (CStr.pack [longName, nameXyz] ++ [7]) 2 twoReplies = some r ∧
      r.Trusts 2) ∧
    ∃ r, udpDnsSearch (CStr.pack [longName, nameXyz] ++ [7]) 2 (List.replicate 21 0) = some r ∧
      r.Trusts 2 := by
  have haccepted := longName_accepted [7] (.inr rfl)
  have h := client_trusts_iff [longName, nameXyz] [7] twoReplies (List.replicate 21 0)
    (List.cons_ne_nil _ _)
  exact ⟨h.1.mpr (.inr ⟨haccepted, twoReplies_whole⟩),
    h.2.mpr (.inr ⟨haccepted, by decide, by decide +kernel⟩)⟩

/-! ## The names of a datagram's calls -/

/-- A call for each position in turn, with its name and its word, and no read
outside the names. -/
def UdpCalls (names : List CStr) (datagram : List UInt8) : Prop :=
  ∃ r, udpDnsSearch (CStr.pack names) names.length datagram = some r ∧
    r.calls.length = names.length ∧
    ∀ (i : Nat) name, names[i]? = some name → ∃ ip,
      wordAt datagram (headLength + 4 * i) = some ip ∧
      r.calls[i]? = some ⟨(CStr.pack (names.take i)).length, lowerName name, ip⟩

/-- A walk over as many strings as there are names begins in front of all of
their terminators. -/
theorem stringsBehind_pack_iff {first : CStr} {names : List CStr} {count : Nat} :
    names.length + 1 ≤ stringsBehind (CStr.pack (first :: names)) count ↔
      count ≤ first.length ∧ (CStr.pack (first :: names)).length ≤ intMax := by
  have hall := CStr.count_pack (first :: names)
  rw [List.length_cons] at hall
  unfold stringsBehind
  constructor
  · intro h
    have hsplit := congrArg (List.count 0) (List.take_append_drop intMax (CStr.pack (first :: names)))
    have hsplit' := congrArg (List.count 0)
      (List.take_append_drop count ((CStr.pack (first :: names)).take intMax))
    rw [List.count_append] at hsplit hsplit'
    have hlast := CStr.pack_getElem?_last (List.cons_ne_nil first names)
    have hsize : (CStr.pack (first :: names)).length ≤ intMax := by
      by_contra hlarge
      have hmem : 0 ∈ (CStr.pack (first :: names)).drop intMax := by
        apply List.mem_of_getElem? (i := (CStr.pack (first :: names)).length - 1 - intMax)
        rw [List.getElem?_drop, Nat.add_sub_cancel' (by omega)]
        exact hlast
      have hpos := List.count_pos_iff.mpr hmem
      omega
    refine ⟨?_, hsize⟩
    by_contra hpast
    have hmem : 0 ∈ ((CStr.pack (first :: names)).take intMax).take count := by
      apply List.mem_of_getElem? (i := first.length)
      rw [List.take_of_length_le hsize, List.getElem?_take_of_lt (by omega), CStr.pack_cons,
        CStr.raw, List.append_assoc,
        List.getElem?_append_right (show first.bytes.length ≤ first.length from Nat.le_refl _)]
      show ([0] ++ CStr.pack names)[first.bytes.length - first.bytes.length]? = some 0
      rw [Nat.sub_self]
      rfl
    have hpos := List.count_pos_iff.mpr hmem
    omega
  · rintro ⟨hcount, hsize⟩
    have hfront : ((CStr.pack (first :: names)).take count).count 0 = 0 := by
      rw [CStr.pack_cons, CStr.raw, List.append_assoc, List.take_append_of_le_length hcount]
      exact List.count_eq_zero.mpr fun hmem => first.noNul (List.mem_of_mem_take hmem)
    have hsplit := congrArg (List.count 0)
      (List.take_append_drop count (CStr.pack (first :: names)))
    rw [List.count_append, hfront, hall] at hsplit
    rw [List.take_of_length_le hsize]
    omega

/-- A full reply is handed on, and the names are read inside their buffer,
exactly when the first name is as long as the reply. -/
theorem udp_calls_iff (first : CStr) (names : List CStr) (datagram : List UInt8)
    (haccepted : NamesAccepted (CStr.pack (first :: names)) (first :: names).length)
    (hlen : datagram.length = firstLength (first :: names).length) :
    UdpCalls (first :: names) datagram ↔
      firstLength (first :: names).length ≤ first.length ∧
        (CStr.pack (first :: names)).length ≤ intMax := by
  rcases haccepted with ⟨prep, hprep⟩
  have hne : first :: names ≠ [] := List.cons_ne_nil _ _
  have hprep₀ : preDo (CStr.pack (first :: names) ++ []) (first :: names).length =
      some (some prep) := by
    rw [List.append_nil]
    exact hprep
  rcases prepared_spec hne hprep₀ with ⟨-, -, -, -, -, hindex, hidx⟩
  have hnuls := (preDo_shape hne hprep₀).1
  rw [List.append_nil] at hnuls
  have hwhole : datagram.take (firstLength (first :: names).length) = datagram :=
    List.take_of_length_le (Nat.le_of_eq hlen)
  have hmem : headLength + 4 * (0 + (first :: names).length) ≤ datagram.length := by
    rw [hlen, firstLength, Nat.zero_add]
  have hloop := handUdp_isSome_iff datagram.length
    (by rw [Nat.zero_add]; exact hidx) hmem
  rw [stringsBehind_congr hnuls, hlen] at hloop
  have hrun : ∀ r, udpDnsSearch (CStr.pack (first :: names)) (first :: names).length datagram =
      some r ↔ ∃ handed, handUdp prep.buf prep.index datagram (first :: names).length 0
        (firstLength (first :: names).length) = some handed ∧
        ⟨success, [⟨datagram.length, 4 * (first :: names).length, handed⟩]⟩ = r := by
    intro r
    unfold udpDnsSearch
    simp only [hprep, hwhole, hlen, Option.bind_eq_bind, Option.bind_eq_some_iff, Option.pure_def,
      Option.some.injEq]
  constructor
  · rintro ⟨r, hr, -⟩
    rcases (hrun r).mp hr with ⟨handed, hhanded, -⟩
    exact stringsBehind_pack_iff.mp (hloop.mp (by rw [hhanded]; rfl))
  · intro hfits
    rcases Option.isSome_iff_exists.mp (hloop.mpr (stringsBehind_pack_iff.mpr hfits))
      with ⟨handed, hhanded⟩
    rcases handUdp_getElem hhanded with ⟨hcount, hget⟩
    have hcalls : (⟨success, [⟨datagram.length, 4 * (first :: names).length, handed⟩]⟩ :
        ClientRun).calls = handed.map (·.call) := List.append_nil _
    have hmax : intMax = 2147483647 := rfl
    have hsmall : (CStr.pack (first :: names)).length < 4294967296 := by omega
    rw [preDo_eq hne hsmall] at hprep
    split at hprep
    · cases hprep
      refine ⟨_, (hrun _).mpr ⟨handed, hhanded, rfl⟩, ?_, ?_⟩
      · rw [hcalls, List.length_map, hcount]
      · intro i name hname
        have hi := (List.getElem?_eq_some_iff.mp hname).1
        have hlower : ((first :: names).map lowerName)[i]? = some (lowerName name) := by
          rw [List.getElem?_map, hname, Option.map_some]
        rcases hget i hi with ⟨ip, call, hip, hcall, hhere⟩
        rw [Nat.zero_add] at hip hcall
        have hpack := callIndexed_pack (by rw [pack_lowerName_length]; exact hsmall) hlower ip
        rw [offsetsFrom_lower, ← List.map_take, pack_lowerName_length] at hpack
        rw [hpack, Option.some.injEq] at hcall
        exact ⟨ip, hip, by rw [hcalls, List.getElem?_map, hhere, hcall, Option.map_some]⟩
    · simp at hprep

/-- The names of a request are shorter than its reply: the walk leaves them. -/
theorem udpCalls_short : ¬ UdpCalls [oneName] (List.replicate 17 0) := by
  rintro ⟨r, hr, -⟩
  have hnone : udpDnsSearch (CStr.pack [oneName]) 1 (List.replicate 17 0) = none := by decide +kernel
  rw [show [oneName].length = 1 from rfl, hnone] at hr
  simp at hr

/-- `udp_calls_iff` for a first name that is as long as the reply. -/
theorem udp_calls_iff_long : UdpCalls [longName, nameXyz] (List.replicate 21 0) := by
  have haccepted := longName_accepted [] (.inl rfl)
  rw [List.append_nil] at haccepted
  exact (udp_calls_iff longName [nameXyz] (List.replicate 21 0) haccepted (by decide)).mpr
    ⟨by decide, by decide⟩

end DnsCache

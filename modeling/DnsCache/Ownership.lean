import DnsCache.Lib.Ledger
import DnsCache.SecondReply

/-! # The blocks of a request

What `serv`, the two `do_search`, the two `do_dns_search` and `thread_main_dns`
take from `dc_alloc` for one request and give to `dc_free`, with the pointers
they hand to each other. What they read and answer is decided as before.

* `servBlocks`, `udpBlocks`: the handling of a connection and of a datagram, the
  workers included.
* `servBlocks_returned_iff`, `udpBlocks_returned_iff`: when all of it is given back.
* `blocks_returned_iff`: for which connections and datagrams everything is.
-/

namespace DnsCache

open CMem

/-! ## The functions -/

/-- The blocks of a `dm_node`: the node, and the copy of the name. -/
structure NodeBlocks where
  node : Nat
  domain : Nat

/-- The pointers of a `dns_thread_t` of a TCP request. -/
structure EntryBlocks where
  domain : Nat
  number : Nat
  ipptr : Nat
  mutex : Nat
  headptr : Nat
  miss : Nat

/-- The loop of `do_search`: two blocks for every name missed. -/
def missBlocks : List CStr → Ledger → List NodeBlocks × Ledger
  | [], l => ([], l)
  | _ :: names, l =>
      let (node, l) := l.alloc
      let (domain, l) := l.alloc
      let (nodes, l) := missBlocks names l
      (⟨node, domain⟩ :: nodes, l)

/-- `dc_free (tempnode)` in the loop of `do_dns_search`. -/
def freeNodes (nodes : List NodeBlocks) (l : Ledger) : Ledger :=
  (nodes.map (·.node)).foldl Ledger.free l

/-- `do_dns_search` of the TCP server: the entries it puts into the ring. -/
def tcpDoDnsSearchBlocks (headptr : Nat) (nodes : List NodeBlocks) (l : Ledger) :
    List EntryBlocks × Ledger :=
  let (miss, l) := l.alloc
  let (number, l) := l.alloc
  let (ipptr, l) := l.alloc
  let (mutex, l) := l.alloc
  (nodes.map fun node => ⟨node.domain, number, ipptr, mutex, headptr, miss⟩, freeNodes nodes l)

/-- `do_search` of the TCP server, whatever `writev` returns. -/
def tcpDoSearchBlocks (headptr requestptr : Nat) (missed : List CStr) (l : Ledger) :
    List EntryBlocks × Ledger :=
  let (nodes, l) := missBlocks missed l
  let l := l.free requestptr
  if missed = [] then ([], (l.free headptr).close) else tcpDoDnsSearchBlocks headptr nodes l

/-- `thread_main_dns` with the entries of one request in turn. `number` is the
value they count down, `sent` tells whether the second reply was written whole:
otherwise the process ends and nothing is completed. -/
def threadMainDnsBlocks (sent : Bool) : List EntryBlocks → Int → Ledger → Option Ledger
  | [], _, l => some l
  | e :: es, number, l =>
      let l := l.free e.domain
      let number := number - 1
      if number = 0 then
        if sent then
          threadMainDnsBlocks sent es number
            (((((l.close.free e.ipptr).free e.number).free e.mutex).free e.headptr).free e.miss)
        else none
      else threadMainDnsBlocks sent es number l

/-- The read loop of `serv` and `do_search`, on a block in which `junk` was
before: the allocator does not clear it. -/
def payloadReply (kc : Kache) (now : Int) (head : List UInt8) (totalLength : UInt32) (sock : Sock)
    (junk : List UInt8) : Option FirstReply := do
  let want := (totalLength - UInt32.ofNat headLength).toNat
  let (_, request, count) ← readUntil want (servStop totalLength) (sock.stream.length + 1) sock
    ⟨want, junk.take want, List.length_take_le _ _⟩ 0
  let request ← forceNul request totalLength count
  tcpDoSearch kc now head request (totalLength - UInt32.ofNat headLength).toInt32

/-- `serv (connfd)` and what the workers do for it. There is no result when an
access leaves a block or the process ends. -/
def servBlocks (kc : Kache) (now : Int) (sock : Sock) (junk : List UInt8) (sent : Bool) :
    Option Ledger :=
  let (headptr, l) := Ledger.start.alloc
  let (head, sock) := sock.read headLength
  if head.length ≠ headLength then some l.close
  else do
    let totalLength ← wordAt head 0
    let magic ← wordAt head totalLengthLength
    if magic ≠ magicNumber then return l.close
    else
      -- closed, and used on: nothing can be read from the descriptor or written to it
      let (sock, sent, l) :=
        if totalLength = 0 then ((⟨[], sock.cuts⟩ : Sock), false, l.close) else (sock, sent, l)
      let (requestptr, l) := l.alloc
      let reply ← payloadReply kc now head totalLength sock junk
      let (entries, l) := tcpDoSearchBlocks headptr requestptr (reply.misses.map (·.domain)) l
      threadMainDnsBlocks sent entries reply.misses.length l

/-- A round of `udp_recv` and what the workers do for it. `sent` tells whether
`sendto` took the whole reply: otherwise `do_search` returns. -/
def udpBlocks (kc : Kache) (now : Int) (buf datagram : List UInt8) (sent : Bool) :
    Option Ledger := do
  let (_, answer) ← udpRecv kc now buf datagram true
  match answer with
  | none => return Ledger.start
  | some answer =>
      let (nodes, l) := missBlocks answer.names Ledger.start
      if sent then return (nodes.map (·.domain)).foldl Ledger.free (freeNodes nodes l)
      else return l

/-- What is answered is what `serv` answers, when the block was never written before. -/
theorem serv_eq_payloadReply (kc : Kache) (now : Int) {sock : Sock} {T : UInt32}
    (hhead : (sock.read headLength).1.length = headLength)
    (hT : wordAt (sock.read headLength).1 0 = some T) (hT0 : T ≠ 0)
    (hmagic : wordAt (sock.read headLength).1 totalLengthLength = some magicNumber) :
    serv kc now sock = (payloadReply kc now (sock.read headLength).1 T (sock.read headLength).2 []).map
      .replied := by
  have hblock : ∀ want h, (⟨want, List.take want [], h⟩ : Block) = Block.alloc want := by
    intro want h
    exact Block.ext rfl List.take_nil
  unfold serv payloadReply
  simp only [hhead, hT, hmagic, if_neg hT0, hblock, ne_eq, not_true_eq_false, if_false,
    Option.bind_eq_bind, Option.bind_some, Option.pure_def, Option.map_bind]
  congr 1
  funext r
  simp only [Function.comp_apply, Option.map_bind]
  congr 1
  funext request
  rw [Option.map_eq_bind]
  rfl

/-! ## The blocks owed -/

variable {l l' : Ledger} {ps : List Nat} {names : List CStr}

/-- The blocks of a miss list. -/
def nodesOwed (nodes : List NodeBlocks) : List Nat := nodes.map (·.node) ++ nodes.map (·.domain)

theorem missBlocks_length (names : List CStr) (l : Ledger) :
    (missBlocks names l).1.length = names.length := by
  induction names generalizing l with
  | nil => rfl
  | cons name names ih => exact congrArg (· + 1) (ih _)

theorem missBlocks_closed (names : List CStr) (l : Ledger) :
    (missBlocks names l).2.closed = l.closed := by
  induction names generalizing l with
  | nil => rfl
  | cons name names ih =>
      exact (ih l.alloc.2.alloc.2).trans (by rw [Ledger.alloc_closed, Ledger.alloc_closed])

/-- The loop of `do_search` owes a node and a name for every miss. -/
theorem missBlocks_owes (h : l.Owes ps) :
    (missBlocks names l).2.Owes (nodesOwed (missBlocks names l).1 ++ ps) := by
  induction names generalizing l ps with
  | nil => exact h
  | cons name names ih =>
      refine (ih h.alloc.alloc).perm ?_
      apply List.perm_iff_count.mpr
      intro a
      simp only [missBlocks, nodesOwed, List.map_cons, List.count_append, List.count_cons]
      omega

/-- Nodes are given back one after the other, their names stay. -/
theorem freeNodes_owes {nodes : List NodeBlocks} (h : l.Owes (nodesOwed nodes ++ ps)) :
    (freeNodes nodes l).Owes (nodes.map (·.domain) ++ ps) := by
  apply Ledger.Owes.freeAll
  rw [← List.append_assoc]
  exact h

/-- `do_dns_search` hands on the names, the head and four blocks of its own. -/
theorem tcpDoDnsSearchBlocks_owes {headptr : Nat} {nodes : List NodeBlocks}
    (h : l.Owes (nodesOwed nodes ++ [headptr])) :
    ∃ miss number ipptr mutex, (tcpDoDnsSearchBlocks headptr nodes l).1 =
        nodes.map (fun node => ⟨node.domain, number, ipptr, mutex, headptr, miss⟩) ∧
      (tcpDoDnsSearchBlocks headptr nodes l).2.Owes
        (nodes.map (·.domain) ++ [ipptr, number, mutex, headptr, miss]) ∧
      (tcpDoDnsSearchBlocks headptr nodes l).2.closed = l.closed := by
  refine ⟨_, _, _, _, rfl, ?_, Ledger.foldl_free_closed _ _⟩
  apply freeNodes_owes
  refine h.alloc.alloc.alloc.alloc.perm ?_
  apply List.perm_iff_count.mpr
  intro a
  simp only [Ledger.alloc, List.count_append, List.count_cons, List.count_nil]
  omega

/-- The workers free every name and, after the last one, what the entries share. -/
theorem threadMainDnsBlocks_owes {nodes : List NodeBlocks} {headptr miss number ipptr mutex : Nat}
    (hne : nodes ≠ [])
    (h : l.Owes (nodes.map (·.domain) ++ [ipptr, number, mutex, headptr, miss])) :
    threadMainDnsBlocks false
        (nodes.map fun node => ⟨node.domain, number, ipptr, mutex, headptr, miss⟩) nodes.length l =
      none ∧
    ∃ l', threadMainDnsBlocks true
        (nodes.map fun node => ⟨node.domain, number, ipptr, mutex, headptr, miss⟩) nodes.length l =
        some l' ∧ l'.Owes [] ∧ l'.closed = l.closed + 1 := by
  induction nodes generalizing l with
  | nil => exact absurd rfl hne
  | cons node nodes ih =>
      have hdomain : (l.free node.domain).Owes
          (nodes.map (·.domain) ++ [ipptr, number, mutex, headptr, miss]) := h.free
      cases nodes with
      | nil =>
          have hfree := hdomain.close.free.free.free.free.free
          exact ⟨rfl, _, rfl, hfree, by simp⟩
      | cons node' nodes =>
          -- entries are left, so the counter is not 0
          have hcount : ((node :: node' :: nodes).length : Int) - 1 = (node' :: nodes).length := by
            simp only [List.length_cons]
            omega
          have hpos : ¬ ((node' :: nodes).length : Int) = 0 := by
            simp only [List.length_cons]
            omega
          rcases ih (List.cons_ne_nil _ _) hdomain with ⟨hnone, l', hrun, howes, hclosed⟩
          rw [List.map_cons]
          refine ⟨?_, l', ?_, howes, hclosed⟩
          · rw [threadMainDnsBlocks]
            simp only [hcount, if_neg hpos]
            exact hnone
          · rw [threadMainDnsBlocks]
            simp only [hcount, if_neg hpos]
            exact hrun

/-! ## TCP -/

/-- `do_search` and the workers give back the head and the payload, and close once. -/
theorem tcpDoSearchBlocks_returned {headptr requestptr : Nat} {sent : Bool}
    (h : l.Owes [requestptr, headptr])
    (hrun : threadMainDnsBlocks sent (tcpDoSearchBlocks headptr requestptr names l).1 names.length
      (tcpDoSearchBlocks headptr requestptr names l).2 = some l') :
    l'.Owes [] ∧ l'.closed = l.closed + 1 := by
  by_cases hnil : names = []
  · -- no miss: the connection is closed at once
    rw [hnil] at hrun
    cases hrun
    exact ⟨h.free.free.close, rfl⟩
  · have hlen := missBlocks_length names l
    have hclosed := missBlocks_closed names l
    have howes : (missBlocks names l).2.Owes
        (requestptr :: (nodesOwed (missBlocks names l).1 ++ [headptr])) :=
      (missBlocks_owes h).perm List.perm_middle
    rcases tcpDoDnsSearchBlocks_owes howes.free
      with ⟨miss, number, ipptr, mutex, hentries, howes', hclosed'⟩
    have hne : (missBlocks names l).1 ≠ [] := by
      intro h0
      rw [h0] at hlen
      exact hnil (List.eq_nil_of_length_eq_zero hlen.symm)
    rcases threadMainDnsBlocks_owes hne howes' with ⟨hnone, l'', hsome, hfinal, hcount⟩
    rw [tcpDoSearchBlocks] at hrun
    simp only [if_neg hnil] at hrun
    rw [hentries, ← hlen] at hrun
    cases sent with
    | false =>
        rw [hnone] at hrun
        simp at hrun
    | true =>
        rw [hsome, Option.some.injEq] at hrun
        rw [← hrun]
        refine ⟨hfinal, ?_⟩
        rw [hcount, hclosed']
        exact congrArg (· + 1) hclosed

/-- The head of a connection arrives with the first read, carries the magic
number and does not announce the length 0. -/
def HeadAccepted (sock : Sock) : Prop :=
  (sock.read headLength).1.length = headLength ∧
    wordAt (sock.read headLength).1 totalLengthLength = some magicNumber ∧
    wordAt (sock.read headLength).1 0 ≠ some 0

/-- Behind such a head everything is given back, however the handling goes on. -/
theorem servBlocks_returned {kc : Kache} {now : Int} {sock : Sock} {junk : List UInt8} {sent : Bool}
    (hhead : HeadAccepted sock) (h : servBlocks kc now sock junk sent = some l) :
    l.Returned ∧ l.closed = 1 := by
  rcases hhead with ⟨hlen, hmagic, hzero⟩
  unfold servBlocks at h
  simp only [hlen, hmagic, ne_eq, not_true_eq_false, if_false, Option.bind_eq_bind,
    Option.bind_some, Option.bind_eq_some_iff] at h
  rcases h with ⟨T, hT, h⟩
  have hT0 : T ≠ 0 := by
    intro h0
    rw [h0] at hT
    exact hzero hT
  simp only [if_neg hT0] at h
  rcases h with ⟨reply, -, hrun⟩
  have hcount : (reply.misses.length : Int) = (reply.misses.map (·.domain)).length := by
    rw [List.length_map]
  rw [hcount] at hrun
  rcases tcpDoSearchBlocks_returned (Ledger.owes_start.alloc.alloc) hrun with ⟨howes, hclosed⟩
  exact ⟨Ledger.returned_iff.mpr howes, hclosed⟩

/-- Without the head or the magic number the block of the head is kept. -/
theorem servBlocks_leaks {sock : Sock} (kc : Kache) (now : Int) (junk : List UInt8) (sent : Bool)
    (h : (sock.read headLength).1.length ≠ headLength ∨ ∃ T m,
      wordAt (sock.read headLength).1 0 = some T ∧
      wordAt (sock.read headLength).1 totalLengthLength = some m ∧ m ≠ magicNumber) :
    servBlocks kc now sock junk sent = some ⟨1, [], 1⟩ := by
  by_cases hlen : (sock.read headLength).1.length = headLength
  · rcases h with h | ⟨T, m, hT, hm, hne⟩
    · exact absurd hlen h
    · unfold servBlocks
      simp only [hlen, hT, hm, ne_eq, not_true_eq_false, if_false, hne, not_false_eq_true, if_true,
        Option.bind_eq_bind, Option.bind_some]
      rfl
  · unfold servBlocks
    simp only [ne_eq, hlen, not_false_eq_true, if_true]
    rfl

/-- A cache that knows the empty name. -/
def emptyNameKache : Kache := kacheStore coldKache CStr.empty ⟨5, 0⟩

/-- With the length 0 nothing is read, and the search finds what the block held
before: here an empty name, which is a hit. -/
theorem payloadReply_zero (head : List UInt8) (cuts : Nat → Nat) :
    ∃ reply, payloadReply emptyNameKache 0 head 0 ⟨[], cuts⟩ [0] = some reply ∧
      reply.misses = [] := by
  have hlookup : tcpLookup emptyNameKache 0 CStr.empty = some 5 :=
    tcpLookup_kacheStore_self _ _ _ _
  have hwant : (0 - UInt32.ofNat headLength).toNat = 4294967283 := by decide
  have hbytes : List.take 4294967283 ([0] : List UInt8) = [0] := List.take_of_length_le (by decide)
  let block : Block := ⟨(0 - UInt32.ofNat headLength).toNat,
    List.take (0 - UInt32.ofNat headLength).toNat [0], List.length_take_le _ _⟩
  have hread : block.cstr 0 = some CStr.empty := by
    show CStr.scan ((List.take _ [0]).drop 0) = _
    rw [hwant, hbytes]
    rfl
  have hroom : (block.write 0 (le32 (answer (tcpLookup emptyNameKache 0) CStr.empty))).isSome := by
    apply Block.write_isSome (Nat.zero_le _)
    rw [le32_length]
    show 4 ≤ (0 - UInt32.ofNat headLength).toNat
    rw [hwant]
    decide
  rcases Option.isSome_iff_exists.mp hroom with ⟨block', hwrite⟩
  have hstep : scanStep (tcpLookup emptyNameKache 0) (Scan.start block) =
      some ((Scan.start block).next (tcpLookup emptyNameKache 0) CStr.empty block') :=
    scanStep_eq_some_iff.mpr ⟨CStr.empty, block', hread, hwrite, rfl⟩
  have hdone : (0 - UInt32.ofNat headLength).toInt32.toInt ≤
      (((Scan.start block).next (tcpLookup emptyNameKache 0) CStr.empty block').readcount : Int) := by
    have hneg : (0 - UInt32.ofNat headLength).toInt32.toInt = -13 := by decide
    rw [hneg]
    omega
  refine ⟨((Scan.start block).next (tcpLookup emptyNameKache 0) CStr.empty block').firstReply head,
    ?_, ?_⟩
  · have hloop : readUntil (0 - UInt32.ofNat headLength).toNat (servStop 0) 1 ⟨[], cuts⟩ block 0 =
        some (_, block, 0) := readUntil_nil Nat.one_pos rfl block 0
    have hnul : forceNul block 0 0 = some block := if_neg fun h => Nat.lt_irrefl 0 h.1
    change (readUntil _ (servStop 0) 1 ⟨[], cuts⟩ block 0).bind _ = _
    rw [hloop, Option.bind_some]
    simp only [hnul, Option.bind_eq_bind, Option.bind_some]
    exact tcpDoSearch_eq_some_iff.mpr ⟨_, .last hstep hdone, rfl⟩
  · show [] ++ missNodes (tcpLookup emptyNameKache 0) 0 [CStr.empty] = []
    simp [missNodes, hlookup]

/-- With the length 0 the descriptor is closed before the request is handled, and
once more behind it. -/
theorem servBlocks_closed_twice {kc : Kache} {now : Int} {sock : Sock} {junk : List UInt8}
    {sent : Bool} (hlen : (sock.read headLength).1.length = headLength)
    (hmagic : wordAt (sock.read headLength).1 totalLengthLength = some magicNumber)
    (hzero : wordAt (sock.read headLength).1 0 = some 0)
    (h : servBlocks kc now sock junk sent = some l) : l.closed = 2 := by
  unfold servBlocks at h
  simp only [hlen, hmagic, hzero, ne_eq, not_true_eq_false, if_false, if_true,
    Option.bind_eq_bind, Option.bind_some, Option.bind_eq_some_iff] at h
  rcases h with ⟨reply, -, hrun⟩
  have hcount : (reply.misses.length : Int) = (reply.misses.map (·.domain)).length := by
    rw [List.length_map]
  rw [hcount] at hrun
  exact (tcpDoSearchBlocks_returned Ledger.owes_start.alloc.close.alloc hrun).2

/-- That happens: behind such a head a reply without a miss is completed. -/
theorem servBlocks_zero_completes {sock : Sock}
    (hlen : (sock.read headLength).1.length = headLength)
    (hmagic : wordAt (sock.read headLength).1 totalLengthLength = some magicNumber)
    (hzero : wordAt (sock.read headLength).1 0 = some 0) (sent : Bool) :
    servBlocks emptyNameKache 0 sock [0] sent = some ⟨2, [1, 0], 2⟩ := by
  generalize hhead : (sock.read headLength).1 = head at hlen hmagic hzero
  rcases payloadReply_zero head (sock.read headLength).2.cuts with ⟨reply, hreply, hmisses⟩
  unfold servBlocks
  simp only [hhead, hlen, hmagic, hzero, hreply, hmisses, ne_eq, not_true_eq_false, if_false, if_true,
    Option.bind_eq_bind, Option.bind_some]
  rfl

/-- A connection is handled without a loss exactly behind an accepted head. -/
theorem servBlocks_returned_iff {kc : Kache} {now : Int} {sock : Sock} {junk : List UInt8}
    {sent : Bool} (h : servBlocks kc now sock junk sent = some l) :
    l.Returned ∧ l.closed = 1 ↔ HeadAccepted sock := by
  constructor
  · rintro ⟨hreturned, hclosed⟩
    have hkept : ¬ (⟨1, [], 1⟩ : Ledger).Returned := Ledger.owes_start.alloc.not_returned
    by_contra hhead
    by_cases hlen : (sock.read headLength).1.length = headLength
    · have hword : 0 + 4 ≤ (sock.read headLength).1.length := by
        rw [hlen]
        decide
      have hnext : totalLengthLength + 4 ≤ (sock.read headLength).1.length := by
        rw [hlen]
        decide
      rcases exists_wordAt hword with ⟨T, hT⟩
      rcases exists_wordAt hnext with ⟨m, hm⟩
      by_cases hmagic : m = magicNumber
      · -- the length is 0, and the descriptor is closed once too often
        rw [hmagic] at hm
        have hzero : T = 0 := by
          by_contra hT0
          refine hhead ⟨hlen, hm, ?_⟩
          rw [hT, Ne, Option.some.injEq]
          exact hT0
        rw [hzero] at hT
        have htwice := servBlocks_closed_twice hlen hm hT h
        omega
      · rw [servBlocks_leaks kc now junk sent (.inr ⟨T, m, hT, hm, hmagic⟩)] at h
        cases h
        exact hkept hreturned
    · rw [servBlocks_leaks kc now junk sent (.inl hlen)] at h
      cases h
      exact hkept hreturned
  · intro hhead
    exact servBlocks_returned hhead h

/-! ## UDP -/

/-- One of the names the search of the datagram comes to is a miss. -/
def MissesName (kc : Kache) (now : Int) (buf datagram : List UInt8) : Prop :=
  let buf := patch buf 0 (datagram.take udpBufLength)
  rd32 (buf.drop totalLengthLength) = some magicNumber ∧ ∃ T s, rd32 buf = some T ∧ T ≠ 0 ∧
    Scans (udpLookup kc now) (udpBound T) (Scan.start (udpPayload buf)) s ∧
    ∃ name ∈ s.looked, udpLookup kc now name = none

/-- Where `do_search` returns at once, no name is missed. -/
theorem udpRecv_ignored {kc : Kache} {now : Int} {buf datagram b : List UInt8}
    (h : udpRecv kc now buf datagram true = some (b, none)) :
    ¬ MissesName kc now buf datagram := by
  rintro ⟨hmagic, T, s, hT, hT0, hs, -⟩
  unfold udpRecv at h
  simp only [hmagic, Option.bind_eq_bind, Option.bind_some, if_true] at h
  rcases (udpDoSearch_eq_some_iff hT hT0).mp h with ⟨t, -, hanswer⟩
  simp at hanswer

/-- Where the search is answered, the names handed on are the ones missed. -/
theorem udpRecv_names {kc : Kache} {now : Int} {buf datagram b : List UInt8} {answer : UdpAnswer}
    (h : udpRecv kc now buf datagram true = some (b, some answer)) :
    MissesName kc now buf datagram ↔ answer.names ≠ [] := by
  unfold udpRecv at h
  simp only [Option.bind_eq_bind, Option.bind_eq_some_iff] at h
  rcases h with ⟨magic, hmagic, h⟩
  split at h
  · rename_i hm
    rw [hm] at hmagic
    cases hT : rd32 (patch buf 0 (datagram.take udpBufLength)) with
    | none => simp [udpDoSearch, hT] at h
    | some T =>
        by_cases hT0 : T = 0
        · rw [udpDoSearch_zero kc now true (by rw [hT, hT0])] at h
          simp at h
        · rcases (udpDoSearch_eq_some_iff hT hT0).mp h with ⟨t, ht, hanswer⟩
          have hnames : answer.names = t.misses.map (·.domain) := by
            rw [Prod.mk.injEq, Option.some.injEq] at hanswer
            rw [hanswer.2]
            rfl
          have hmisses := (ht.counts ⟨rfl, Nat.le_refl _, rfl⟩).1.misses
          have hnil : answer.names = [] ↔ ∀ name ∈ t.looked, (udpLookup kc now name).isSome := by
            rw [hnames, hmisses, List.map_eq_nil_iff, missNodes_eq_nil_iff]
          constructor
          · rintro ⟨-, T', s, hT', -, hs, name, hmem, hnone⟩ hnames
            -- the search has one result only
            rw [hT, Option.some.injEq] at hT'
            rw [← hT'] at hs
            have hsame := searchLoop_eq_some_iff.mpr hs
            rw [searchLoop_eq_some_iff.mpr ht, Option.some.injEq] at hsame
            rw [← hsame] at hmem
            have hsome := hnil.mp hnames name hmem
            rw [hnone] at hsome
            simp at hsome
          · intro hne
            have hmiss := mt hnil.mpr hne
            push Not at hmiss
            rcases hmiss with ⟨name, hmem, hnone⟩
            exact ⟨hmagic, T, t, hT, hT0, ht, name, hmem, by simpa using hnone⟩
  · simp at h

/-- A datagram is handled without a loss unless `sendto` fails and a name was missed. -/
theorem udpBlocks_returned_iff {kc : Kache} {now : Int} {buf datagram : List UInt8} {sent : Bool}
    (h : udpBlocks kc now buf datagram sent = some l) :
    (l.Returned ∧ l.closed = 0) ↔ (sent = true ∨ ¬ MissesName kc now buf datagram) := by
  unfold udpBlocks at h
  simp only [Option.bind_eq_bind, Option.bind_eq_some_iff] at h
  rcases h with ⟨⟨b, answer⟩, hrecv, h⟩
  cases answer with
  | none =>
      cases h
      have hnone := udpRecv_ignored hrecv
      exact ⟨fun _ => .inr hnone, fun _ => ⟨Ledger.returned_iff.mpr Ledger.owes_start, rfl⟩⟩
  | some answer =>
      have hmisses := udpRecv_names hrecv
      have howes : (missBlocks answer.names Ledger.start).2.Owes
          (nodesOwed (missBlocks answer.names Ledger.start).1 ++ []) :=
        missBlocks_owes Ledger.owes_start
      have hclosed : (missBlocks answer.names Ledger.start).2.closed = 0 := missBlocks_closed _ _
      cases sent with
      | true =>
          cases h
          have hreturned := Ledger.returned_iff.mpr (freeNodes_owes howes).freeAll
          refine ⟨fun _ => .inl rfl, fun _ => ⟨hreturned, ?_⟩⟩
          rw [Ledger.foldl_free_closed, freeNodes, Ledger.foldl_free_closed]
          exact hclosed
      | false =>
          cases h
          rw [hmisses]
          cases hnames : answer.names with
          | nil => exact ⟨fun _ => .inr fun h => h rfl, fun _ => ⟨Ledger.returned_iff.mpr
              Ledger.owes_start, rfl⟩⟩
          | cons name names =>
              rw [hnames] at howes
              -- the node of the first name missed is kept
              have hkept := howes.not_returned
              constructor
              · intro hreturned
                exact absurd hreturned.1 hkept
              · rintro (hsent | hnil)
                · cases hsent
                · exact absurd (List.cons_ne_nil _ _) hnil

/-! ## Every request -/

/-- Every block of a request is given back once, and the descriptor closed once,
exactly when the head of the connection is accepted, or when `sendto` does not
fail on a datagram with a miss. -/
theorem blocks_returned_iff (kc : Kache) (now : Int) (sent : Bool) :
    (∀ sock junk l, servBlocks kc now sock junk sent = some l →
      (l.Returned ∧ l.closed = 1 ↔ HeadAccepted sock)) ∧
    (∀ buf datagram l, udpBlocks kc now buf datagram sent = some l →
      (l.Returned ∧ l.closed = 0 ↔ sent = true ∨ ¬ MissesName kc now buf datagram)) := by
  constructor
  · intro sock junk l h
    exact servBlocks_returned_iff h
  · intro buf datagram l h
    exact udpBlocks_returned_iff h

/-- `blocks_returned_iff` for a request with a hit and two misses, over both protocols. -/
theorem blocks_returned_three :
    (∃ l, servBlocks warmKache 0 ⟨requestBytes threeNames, fun _ => headLength⟩ [] true = some l ∧
      l.Returned ∧ l.closed = 1) ∧
    ∃ l, udpBlocks warmKache 0 [] (requestBytes threeNames) true = some l ∧
      l.Returned ∧ l.closed = 0 := by
  have hall := blocks_returned_iff warmKache 0 true
  have haccepted : HeadAccepted ⟨requestBytes threeNames, fun _ => headLength⟩ :=
    ⟨by decide +kernel, by decide +kernel, by decide +kernel⟩
  have htcp : (servBlocks warmKache 0 ⟨requestBytes threeNames, fun _ => headLength⟩ [] true).isSome := by
    decide +kernel
  have hudp : (udpBlocks warmKache 0 [] (requestBytes threeNames) true).isSome := by decide +kernel
  rcases Option.isSome_iff_exists.mp htcp with ⟨l, hl⟩
  rcases Option.isSome_iff_exists.mp hudp with ⟨l', hl'⟩
  exact ⟨⟨l, hl, (hall.1 _ _ l hl).mpr haccepted⟩, l', hl', (hall.2 _ _ l' hl').mpr (.inl rfl)⟩

/-- A head of five bytes: its block is never freed. -/
theorem head_block_kept :
    servBlocks coldKache 0 ⟨[1, 2, 3, 4, 5], fun _ => headLength⟩ [] true = some ⟨1, [], 1⟩ ∧
      ¬ (⟨1, [], 1⟩ : Ledger).Returned := by
  refine ⟨servBlocks_leaks _ _ _ _ (.inl ?_), ?_⟩
  · decide +kernel
  · exact Ledger.owes_start.alloc.not_returned

end DnsCache

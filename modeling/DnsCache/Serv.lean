import DnsCache.Lib.Sock
import DnsCache.PreDo
import DnsCache.TcpSearch

/-! # `serv` of the TCP server

A connection is read, refused or handed to `do_search`. `serv_request`: a
request as the client builds it is answered as `replyTo` says.
-/

namespace DnsCache

open CMem

/-! ## The function -/

/-- What becomes of a connection: closed at once, or answered. -/
inductive Served where
  | refused
  | replied (reply : FirstReply)
deriving DecidableEq, Repr

/-- The test of the read loop, `readcount >= total_length`, where `readcount`
is an `int` that counts the head, too. -/
def servStop (totalLength : UInt32) (count : Nat) : Option Bool :=
  if headLength + count ≤ intMax then some (decide (totalLength.toNat ≤ headLength + count))
  else none

/-- The NUL stored over the last byte of the payload when the loop is left by
`break`, that is, after a read that made the test true. -/
def forceNul (request : Block) (totalLength : UInt32) (count : Nat) : Option Block :=
  if 0 < count ∧ totalLength.toNat ≤ headLength + count then
    if totalLength.toNat ≤ headLength then none
    else request.write (totalLength.toNat - headLength - 1) [0]
  else some request

/-- `serv (connfd)`. An access outside the blocks has no result, nor has a total
length of 0: the descriptor is closed and used all the same. -/
def serv (kc : Kache) (now : Int) (sock : Sock) : Option Served :=
  let (head, sock) := sock.read headLength
  if head.length ≠ headLength then some .refused
  else do
    let totalLength ← wordAt head 0
    let magic ← wordAt head totalLengthLength
    if magic ≠ magicNumber then return .refused
    else if totalLength = 0 then none
    else
      let want := (totalLength - UInt32.ofNat headLength).toNat
      let (_, request, count) ← readUntil want (servStop totalLength) (sock.stream.length + 1)
        sock (Block.alloc want) 0
      let request ← forceNul request totalLength count
      let reply ← tcpDoSearch kc now head request
        (totalLength - UInt32.ofNat headLength).toInt32
      return .replied reply

theorem forceNul_cap {request request' : Block} {T : UInt32} {count : Nat}
    (h : forceNul request T count = some request') : request'.cap = request.cap := by
  unfold forceNul at h
  split at h
  · split at h
    · simp at h
    · exact (Block.write_eq_some_iff.mp h).2.2.1
  · cases h
    rfl

/-- The head and the miss list of whatever is answered: the positions are `uint32`s. -/
theorem serv_replied {kc : Kache} {now : Int} {sock : Sock} {reply : FirstReply}
    (h : serv kc now sock = some (.replied reply)) :
    reply.head.length = headLength ∧
      reply.misses = missNodes (tcpLookup kc now) 0 reply.looked ∧
      reply.looked.length < 4294967296 := by
  unfold serv at h
  dsimp only at h
  split at h
  · simp at h
  · rename_i hhead
    simp only [Option.bind_eq_bind, Option.bind_eq_some_iff, Option.pure_def] at h
    rcases h with ⟨T, hT, magic, hmagic, h⟩
    split at h
    · simp at h
    · split at h
      · simp at h
      · simp only [Option.bind_eq_some_iff] at h
        rcases h with ⟨⟨sock', request, count⟩, hread, request', hnul, reply', hsearch, h⟩
        simp only [Option.some.injEq, Served.replied.injEq] at h
        subst h
        rcases tcpDoSearch_misses hsearch with ⟨hlength, hmisses, hlooked⟩
        refine ⟨hlength.trans (not_not.mp hhead), hmisses, ?_⟩
        have hlt := (T - UInt32.ofNat headLength).toNat_lt
        have hcap : request.cap = (T - UInt32.ofNat headLength).toNat := readUntil_cap hread
        rw [forceNul_cap hnul, hcap] at hlooked
        omega

/-! ## A request of the client -/

theorem buildHead_length (T : UInt32) : (buildHead T).length = headLength := rfl

theorem wordAt_buildHead_totalLength (T : UInt32) : wordAt (buildHead T) 0 = some T := by
  simp only [wordAt, List.drop_zero, buildHead, List.append_assoc, rd32_le32]

theorem wordAt_buildHead_magic (T : UInt32) :
    wordAt (buildHead T) totalLengthLength = some magicNumber := by
  have hdrop : (buildHead T).drop totalLengthLength =
      le32 magicNumber ++ (le32 1 ++ [reservedByte]) := by
    rw [buildHead, List.append_assoc, List.append_assoc]
    exact List.drop_left' rfl
  rw [wordAt, hdrop, rd32_le32]

/-- The request `tcp_dns_search` sends for `names`. -/
def requestBytes (names : List CStr) : List UInt8 :=
  buildHead (UInt32.ofNat (headLength + (CStr.pack names).length)) ++ CStr.pack names

theorem payload_length (n : Nat) :
    UInt32.ofNat (headLength + n) - UInt32.ofNat headLength = UInt32.ofNat n := by
  apply UInt32.toNat_inj.mp
  rw [UInt32.toNat_sub, UInt32.toNat_ofNat', UInt32.toNat_ofNat', UInt32.toNat_ofNat',
    headLength_eq]
  omega

/-- Packed names end with a NUL, so that the store of `serv` changes nothing. -/
theorem patch_last_nul {names : List CStr} (hne : names ≠ []) :
    patch (CStr.pack names) ((CStr.pack names).length - 1) [0] = CStr.pack names := by
  obtain ⟨pre, name, rfl⟩ : ∃ pre name, names = pre ++ [name] :=
    ⟨names.dropLast, names.getLast hne, (List.dropLast_append_getLast hne).symm⟩
  have hend : CStr.pack (pre ++ [name]) = (CStr.pack pre ++ name.bytes) ++ [0] := by
    simp [CStr.raw]
  rw [hend]
  generalize CStr.pack pre ++ name.bytes = m
  simp [patch]

theorem pack_length_pos {names : List CStr} (hne : names ≠ []) : 0 < (CStr.pack names).length := by
  have h := CStr.length_le_pack names
  have hpos := List.length_pos_of_ne_nil hne
  omega

/-! ## A request in the published format -/

/-- A request for `names` with an arbitrary request number and flag: its head
announces its true length and carries the magic number, its names leave room
for the answers. -/
structure ValidRequest (head : List UInt8) (names : List CStr) : Prop where
  headLen : head.length = headLength
  total : rd32 head = some (UInt32.ofNat (headLength + (CStr.pack names).length))
  fits : headLength + (CStr.pack names).length < 4294967296
  magic : wordAt head totalLengthLength = some magicNumber
  nonempty : names ≠ []
  spacious : Spacious names

/-- A connection that carries such a request. -/
def requestSock (head : List UInt8) (names : List CStr) (cuts : Nat → Nat) : Sock :=
  ⟨head ++ CStr.pack names, cuts⟩

/-- The first read of `serv`. -/
theorem requestSock_read {head : List UInt8} (names : List CStr) {cuts : Nat → Nat}
    (hlen : head.length = headLength) :
    (headLength ≤ cuts 0 → (requestSock head names cuts).read headLength =
      (head, ⟨CStr.pack names, fun i => cuts (i + 1)⟩)) ∧
    (cuts 0 < headLength → ((requestSock head names cuts).read headLength).1.length ≠ headLength) := by
  constructor
  · intro hhead
    have hsize : (requestSock head names cuts).size headLength 0 = headLength := by
      show min headLength (max 1 (cuts 0)) = headLength
      omega
    unfold Sock.read
    rw [hsize]
    dsimp only [requestSock]
    rw [List.take_left' hlen, List.drop_left' hlen]
  · intro hcut
    have hsize : (requestSock head names cuts).size headLength 0 = max 1 (cuts 0) := by
      show min headLength (max 1 (cuts 0)) = _
      rw [headLength_eq] at hcut ⊢
      omega
    rw [Sock.read_length, hsize, headLength_eq]
    rw [headLength_eq] at hcut
    omega

/-- The payload is read whole in any pieces, unless its length takes the counter of `serv`
out of its range. -/
theorem readUntil_payload {names : List CStr} (hne : names ≠ []) {T : UInt32}
    (hT : T.toNat = headLength + (CStr.pack names).length) (cuts : Nat → Nat) :
    (headLength + (CStr.pack names).length ≤ intMax →
      ∃ sock', readUntil (CStr.pack names).length (servStop T) ((CStr.pack names).length + 1)
          ⟨CStr.pack names, cuts⟩ (Block.alloc (CStr.pack names).length) 0 =
        some (sock', requestBlock (CStr.pack names), (CStr.pack names).length)) ∧
    (intMax < headLength + (CStr.pack names).length →
      readUntil (CStr.pack names).length (servStop T) ((CStr.pack names).length + 1)
        ⟨CStr.pack names, cuts⟩ (Block.alloc (CStr.pack names).length) 0 = none) := by
  have hpos := pack_length_pos hne
  constructor
  · intro hint
    rcases @readUntil_all (CStr.pack names).length (servStop T) ((CStr.pack names).length + 1)
        ⟨CStr.pack names, cuts⟩ (Block.alloc (CStr.pack names).length) 0 hpos (Nat.lt_succ_self _)
        (Nat.zero_le _)
        (by rw [Nat.zero_add]; exact Nat.le_refl _)
        (by
          intro c _ hc
          rw [Nat.zero_add] at hc
          dsimp only at hc
          rw [servStop, if_pos (by omega), hT, decide_eq_false (by omega)])
        (by
          intro _
          rw [Nat.zero_add]
          dsimp only
          rw [servStop, if_pos hint]
          rfl) with ⟨sock', request, hloop, -, hcap, hbytes⟩
    have hbytes' : request.bytes = CStr.pack names := by
      rw [hbytes]
      simp [patch, Block.alloc]
    have hrequest : request = requestBlock (CStr.pack names) := Block.ext hcap hbytes'
    refine ⟨sock', ?_⟩
    rw [hloop, hrequest, Nat.zero_add]
  · intro hout
    by_contra hsome
    rcases Option.ne_none_iff_exists'.mp hsome with ⟨⟨sock', request, count⟩, hloop⟩
    rcases readUntil_spec hpos hloop with ⟨j, hcount, hrest, -, -, hstop, hwhy⟩
    dsimp only at hcount hrest hstop
    -- the loop ends inside the counter's range, where the whole payload has not been read yet
    have hin : headLength + count ≤ intMax := by
      rcases hstop with hnil | hstop
      · rw [hnil] at hpos
        simp at hpos
      · unfold servStop at hstop
        split at hstop
        · assumption
        · simp at hstop
    rcases hwhy with hnil | hstop
    · have hlen := congrArg List.length hrest
      rw [hnil, List.length_drop, List.length_nil] at hlen
      omega
    · rw [servStop, if_pos hin, hT, Option.some.injEq, decide_eq_true_eq] at hstop
      omega

/-- What `serv` does with a valid request, however it is cut. -/
theorem serv_valid (kc : Kache) (now : Int) {head : List UInt8} {names : List CStr}
    (hv : ValidRequest head names) (cuts : Nat → Nat) :
    serv kc now (requestSock head names cuts) =
      if cuts 0 < headLength then some .refused
      else if intMax < headLength + (CStr.pack names).length then none
      else some (.replied (replyTo (tcpLookup kc now) head names)) := by
  have hmax : intMax = 2147483647 := rfl
  have hne := hv.nonempty
  have hpos := pack_length_pos hne
  have hT : (UInt32.ofNat (headLength + (CStr.pack names).length)).toNat =
      headLength + (CStr.pack names).length := toNat_ofNat_small hv.fits
  have hlen : (UInt32.ofNat (CStr.pack names).length).toNat = (CStr.pack names).length :=
    toNat_ofNat_small (Nat.lt_of_le_of_lt (Nat.le_add_left _ _) hv.fits)
  have hT0 : UInt32.ofNat (headLength + (CStr.pack names).length) ≠ 0 := by
    intro h
    rw [h, UInt32.toNat_zero, headLength_eq] at hT
    omega
  have htotal : wordAt head 0 = some (UInt32.ofNat (headLength + (CStr.pack names).length)) :=
    hv.total
  rcases @requestSock_read head names cuts hv.headLen with ⟨hwhole, hshort⟩
  rcases @readUntil_payload names hne _ hT (fun i => cuts (i + 1)) with ⟨hfits, hout⟩
  split
  · rename_i hcut
    unfold serv
    dsimp only
    rw [if_pos (hshort hcut)]
  · rename_i hcut
    unfold serv
    rw [hwhole (Nat.not_lt.mp hcut)]
    dsimp only
    rw [if_neg (by rw [hv.headLen]; exact fun h => h rfl)]
    simp only [htotal, hv.magic, Option.bind_eq_bind, Option.bind_some, ne_eq,
      not_true_eq_false, if_false, if_neg hT0, payload_length, hlen]
    split
    · rename_i hint
      rw [hout hint]
      rfl
    · rename_i hint
      rcases hfits (Nat.not_lt.mp hint) with ⟨sock', hloop⟩
      have hnul : forceNul (requestBlock (CStr.pack names))
          (UInt32.ofNat (headLength + (CStr.pack names).length)) (CStr.pack names).length =
            some (requestBlock (CStr.pack names)) := by
        rw [forceNul, hT, if_pos ⟨by omega, by omega⟩, if_neg (by omega), Nat.add_sub_cancel_left]
        apply Block.write_eq_some_iff.mpr
        refine ⟨?_, ?_, rfl, (patch_last_nul hne).symm⟩
        · exact Nat.sub_le _ _
        · show (CStr.pack names).length - 1 + 1 ≤ (CStr.pack names).length
          omega
      simp only [hloop, hnul, Option.bind_some, toInt32_ofNat, Option.pure_def]
      rw [tcpDoSearch_spacious kc now _ hne hv.spacious (by omega)]
      rfl

/-- The first reply to a valid request. -/
theorem replied_valid {kc : Kache} {now : Int} {head : List UInt8} {names : List CStr}
    {cuts : Nat → Nat} {reply : FirstReply} (hv : ValidRequest head names)
    (h : serv kc now (requestSock head names cuts) = some (.replied reply)) :
    reply = replyTo (tcpLookup kc now) head names := by
  rw [serv_valid kc now hv cuts] at h
  split at h
  · simp at h
  · split at h
    · simp at h
    · cases h
      rfl

/-- The client's requests are such requests. -/
theorem validRequest_buildHead {names : List CStr} (hne : names ≠ []) (hroom : Spacious names)
    (hfits : headLength + (CStr.pack names).length < 4294967296) :
    ValidRequest (buildHead (UInt32.ofNat (headLength + (CStr.pack names).length))) names where
  headLen := buildHead_length _
  total := wordAt_buildHead_totalLength _
  fits := hfits
  magic := wordAt_buildHead_magic _
  nonempty := hne
  spacious := hroom

/-- The head of a request is read whole, its payload in any pieces: it is answered. -/
theorem serv_request (kc : Kache) (now : Int) {names : List CStr} {cuts : Nat → Nat}
    (hne : names ≠ []) (hroom : Spacious names)
    (hint : headLength + (CStr.pack names).length ≤ intMax) (hhead : headLength ≤ cuts 0) :
    serv kc now ⟨requestBytes names, cuts⟩ =
      some (.replied (replyTo (tcpLookup kc now)
        (buildHead (UInt32.ofNat (headLength + (CStr.pack names).length))) names)) := by
  have hv := validRequest_buildHead hne hroom (Nat.lt_of_le_of_lt hint (by decide))
  have hserv := serv_valid kc now hv cuts
  rwa [if_neg (Nat.not_lt.mpr hhead), if_neg (Nat.not_lt.mpr hint)] at hserv

end DnsCache

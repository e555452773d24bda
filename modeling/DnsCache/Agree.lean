import DnsCache.Serv
import DnsCache.UdpServer

/-! # TCP and UDP side by side

The two copies of `do_search` on one request. `servers_agree_iff`: they give
the same words, flag and missed names unless a fresh entry of the cache holds
the miss marker for a requested name.
-/

namespace DnsCache

open CMem

/-- The two `do_search` on one request, which lies in the UDP buffer in front
of `rest`: the same address words, the same flag, the same names missed. -/
def ServersAgree (kc : Kache) (now : Int) (head : List UInt8) (names : List CStr)
    (rest : List UInt8) : Prop :=
  ∃ tcp buf udp,
    tcpDoSearch kc now head (requestBlock (CStr.pack names))
      (Int32.ofNat (CStr.pack names).length) = some tcp ∧
    udpDoSearch kc now (head ++ (CStr.pack names ++ rest)) true = some (buf, some udp) ∧
    tcp.body.length = 4 * names.length ∧ tcp.body = udp.reply.drop headLength ∧
    tcp.head[headLength - 1]? = udp.reply[headLength - 1]? ∧
    tcp.misses.map (·.domain) = udp.names

/-- The head of a request announces its true length. -/
def Announces (head : List UInt8) (names : List CStr) : Prop :=
  head.length = headLength ∧
    rd32 head = some (UInt32.ofNat (headLength + (CStr.pack names).length))

theorem udpBound_announced {n : Nat} (h : n ≤ maxUdpLength) :
    udpBound (UInt32.ofNat (headLength + n)) = (n : Int) := by
  have hmax : maxUdpLength = 131072 := rfl
  unfold udpBound
  rw [UInt32.toNat_sub, UInt32.toNat_ofNat', UInt32.toNat_ofNat', headLength_eq]
  omega

theorem answers_bytes_length (lookup : CStr → Option UInt32) (names : List CStr) :
    ((answers lookup names).flatMap le32).length = 4 * names.length := by
  induction names with
  | nil => rfl
  | cons name names ih =>
      simp only [answers, List.map_cons, List.flatMap_cons, List.length_append, le32_length,
        List.length_cons] at ih ⊢
      omega

/-- The UDP server's answer to names that leave room. -/
theorem udpDoSearch_spacious (kc : Kache) (now : Int) {head rest : List UInt8} {names : List CStr}
    (hne : names ≠ []) (hroom : Spacious names) (hmax : (CStr.pack names).length ≤ maxUdpLength)
    (hhead : Announces head names) (sent : Bool) :
    ∃ buf, udpDoSearch kc now (head ++ (CStr.pack names ++ rest)) sent = some (buf, some
      ⟨(replyTo (udpLookup kc now) head names).head ++ (replyTo (udpLookup kc now) head names).body,
        if sent then (replyTo (udpLookup kc now) head names).misses.map (·.domain) else []⟩) := by
  rcases hhead with ⟨hlen, hT⟩
  have htakeHead : (head ++ (CStr.pack names ++ rest)).take headLength = head :=
    List.take_left' hlen
  have hpayload : (udpPayload (head ++ (CStr.pack names ++ rest))).bytes =
      CStr.pack names ++ rest.take (maxUdpLength - (CStr.pack names).length) := by
    show ((head ++ (CStr.pack names ++ rest)).drop headLength).take maxUdpLength = _
    rw [List.drop_left' hlen, List.take_append, List.take_of_length_le hmax]
  have hT0 : UInt32.ofNat (headLength + (CStr.pack names).length) ≠ 0 := by
    intro h
    have hnat := congrArg UInt32.toNat h
    have hcap : maxUdpLength = 131072 := rfl
    rw [UInt32.toNat_ofNat', headLength_eq, UInt32.toNat_zero] at hnat
    omega
  rcases @scans_all (udpLookup kc now)
      (udpBound (UInt32.ofNat (headLength + (CStr.pack names).length)))
      (Scan.start (udpPayload (head ++ (CStr.pack names ++ rest)))) names _ hne hpayload
      (by intro i hi; simpa [Scan.start] using hroom i hi)
      (by rw [udpBound_announced hmax]; simp [Scan.start]) with ⟨t, ht, hafter⟩
  have hreply := hafter.firstReply_eq head
  have hmisses : t.misses = (replyTo (udpLookup kc now) head names).misses :=
    congrArg FirstReply.misses hreply
  have hbody : t.block.bytes.take (4 * t.ipcount) = (replyTo (udpLookup kc now) head names).body :=
    congrArg FirstReply.body hreply
  have hsearch := (@udpDoSearch_eq_some_iff kc now (head ++ (CStr.pack names ++ rest)) sent _
    (rd32_append hT) hT0 _).mpr ⟨t, ht, rfl⟩
  refine ⟨setFlag head (firstFlag t.misses.length) ++ t.block.bytes, ?_⟩
  rw [hsearch, htakeHead]
  simp only [Scan.udpAnswer, hbody, hmisses]
  rfl

theorem ValidRequest.announces {head : List UInt8} {names : List CStr}
    (hv : ValidRequest head names) : Announces head names := ⟨hv.headLen, hv.total⟩

/-- What the UDP server does with a valid request that the kernel delivers whole. -/
theorem udpRecv_valid (kc : Kache) (now : Int) (b : List UInt8) {head : List UInt8}
    {names : List CStr} (hv : ValidRequest head names) (sent : Bool)
    (hmax : (CStr.pack names).length ≤ maxUdpLength) :
    ∃ b', udpRecv kc now b (head ++ CStr.pack names) sent = some (b', some
      ⟨(replyTo (udpLookup kc now) head names).head ++ (replyTo (udpLookup kc now) head names).body,
        if sent then (replyTo (udpLookup kc now) head names).misses.map (·.domain) else []⟩) := by
  have hlen : (head ++ CStr.pack names).length ≤ udpBufLength := by
    rw [List.length_append, hv.headLen]
    exact Nat.add_le_add_left hmax _
  have hmagic : rd32 ((head ++ (CStr.pack names ++ b.drop (head ++ CStr.pack names).length)).drop
      totalLengthLength) = some magicNumber := by
    rw [List.drop_append_of_le_length (by rw [hv.headLen]; decide)]
    exact rd32_append hv.magic
  have hsearch := @udpDoSearch_spacious kc now head (b.drop (head ++ CStr.pack names).length)
    names hv.nonempty hv.spacious hmax hv.announces sent
  rcases hsearch with ⟨b', hb'⟩
  refine ⟨b', ?_⟩
  unfold udpRecv
  rw [List.take_of_length_le hlen, patch_zero, List.append_assoc]
  simp only [hmagic, Option.bind_eq_bind, Option.bind_some, if_true]
  exact hb'

/-- A valid request that does not fit the receive buffer is read out of bounds. -/
theorem udpRecv_too_long (kc : Kache) (now : Int) (b : List UInt8) {head : List UInt8}
    {names : List CStr} (hv : ValidRequest head names) (sent : Bool)
    (hmax : maxUdpLength < (CStr.pack names).length) :
    udpRecv kc now b (head ++ CStr.pack names) sent = none := by
  have hfits := hv.fits
  have hsize : udpBufLength = headLength + maxUdpLength := rfl
  have hrecv : patch b 0 ((head ++ CStr.pack names).take udpBufLength) =
      head ++ ((CStr.pack names).take maxUdpLength ++
        b.drop ((head ++ CStr.pack names).take udpBufLength).length) := by
    rw [patch_zero, ← List.append_assoc]
    congr 1
    rw [List.take_append, List.take_of_length_le (by rw [hv.headLen, hsize]; omega), hv.headLen,
      hsize, Nat.add_sub_cancel_left]
  generalize ((CStr.pack names).take maxUdpLength ++
    b.drop ((head ++ CStr.pack names).take udpBufLength).length) = u at hrecv
  have hmagic : rd32 ((head ++ u).drop totalLengthLength) = some magicNumber := by
    rw [List.drop_append_of_le_length (by rw [hv.headLen]; decide)]
    exact rd32_append hv.magic
  unfold udpRecv
  rw [hrecv]
  simp only [hmagic, Option.bind_eq_bind, Option.bind_some, if_true]
  by_contra hsome
  rcases Option.ne_none_iff_exists'.mp hsome with ⟨r, hr⟩
  have hT : (UInt32.ofNat (headLength + (CStr.pack names).length)).toNat =
      headLength + (CStr.pack names).length := toNat_ofNat_small hfits
  have hT0 : UInt32.ofNat (headLength + (CStr.pack names).length) ≠ 0 := by
    intro h
    rw [h, UInt32.toNat_zero, headLength_eq] at hT
    omega
  rcases (udpDoSearch_eq_some_iff (rd32_append hv.total) hT0).mp hr with ⟨t, ht, -⟩
  -- the loop ends behind the announced length, but inside the buffer
  have hcap : t.readcount ≤ maxUdpLength :=
    (ht.counts ⟨rfl, Nat.le_refl _, rfl⟩).2
  have hbound := ht.bound_le
  unfold udpBound at hbound
  rw [payload_length, toNat_ofNat_small (by omega)] at hbound
  omega

/-- On such a request everything but the names missed agrees anyway. -/
theorem serversAgree_iff_missed (kc : Kache) (now : Int) {head rest : List UInt8}
    {names : List CStr} (hne : names ≠ []) (hroom : Spacious names)
    (hmax : (CStr.pack names).length ≤ maxUdpLength) (hhead : Announces head names) :
    ServersAgree kc now head names rest ↔
      (names.filter fun k => (tcpLookup kc now k).isNone) =
        names.filter fun k => (udpLookup kc now k).isNone := by
  have hint : (CStr.pack names).length < 2147483648 :=
    Nat.lt_of_le_of_lt hmax (by decide)
  have htcp := tcpDoSearch_spacious kc now head hne hroom hint
  rcases @udpDoSearch_spacious kc now head rest names hne hroom hmax hhead true with ⟨buf, hudp⟩
  rw [← missNodes_domain (tcpLookup kc now) 0, ← missNodes_domain (udpLookup kc now) 0]
  constructor
  · intro h
    rcases h with ⟨tcp, buf', udp, h₁, h₂, -, -, -, hnames⟩
    rw [htcp] at h₁
    rw [hudp] at h₂
    cases h₁
    cases h₂
    exact hnames
  · intro h
    have hwords : answers (tcpLookup kc now) names = answers (udpLookup kc now) names := by
      apply List.map_congr_left
      intro k _
      exact (answer_udp_eq_tcp kc now k).symm
    have hcount : (missNodes (tcpLookup kc now) 0 names).length =
        (missNodes (udpLookup kc now) 0 names).length := by
      have hl := congrArg List.length h
      rwa [List.length_map, List.length_map] at hl
    refine ⟨_, buf, _, htcp, hudp, answers_bytes_length _ _, ?_, ?_, h⟩
    · simp only [replyTo]
      rw [List.drop_left' (by rw [setFlag_length, hhead.1]), hwords]
    · simp only [replyTo, hcount]
      rw [List.getElem?_append_left]
      rw [setFlag_length, hhead.1]
      decide

/-- The servers agree on a request exactly when no name of it has a fresh entry
that holds the miss marker. -/
theorem servers_agree_iff (kc : Kache) (now : Int) (head rest : List UInt8) (names : List CStr)
    (hne : names ≠ []) (hroom : Spacious names)
    (hmax : (CStr.pack names).length ≤ maxUdpLength) (hhead : Announces head names) :
    ServersAgree kc now head names rest ↔ ∀ name ∈ names, ¬ FreshMarker kc now name := by
  rw [serversAgree_iff_missed kc now hne hroom hmax hhead]
  constructor
  · intro h name hname
    rw [← isNone_udp_eq_tcp_iff, Bool.eq_iff_iff]
    have hmem : name ∈ names.filter (fun k => (udpLookup kc now k).isNone) ↔
        name ∈ names.filter (fun k => (tcpLookup kc now k).isNone) := by rw [h]
    simpa [hname] using hmem
  · intro h
    apply List.filter_congr
    intro name hname
    exact ((isNone_udp_eq_tcp_iff kc now name).mpr (h name hname)).symm

/-- The head of the request for the three names, and that of one for "abc". -/
def headThree : List UInt8 := le32 25 ++ le32 magicNumber ++ le32 1 ++ [reservedByte]
def headAbc : List UInt8 := le32 17 ++ le32 magicNumber ++ le32 1 ++ [reservedByte]

/-- `servers_agree_iff` at the three names, one of them cached, in front of bytes
that an earlier datagram has left. -/
theorem servers_agree_three : ServersAgree warmKache 0 headThree threeNames [1, 2, 3] := by
  refine (servers_agree_iff warmKache 0 headThree [1, 2, 3] threeNames (List.cons_ne_nil _ _)
    spacious_three (by decide) ⟨by decide, by decide⟩).mpr ?_
  intro name hname
  rw [← tcpLookup_eq_marker_iff]
  simp only [threeNames, List.mem_cons, List.not_mem_nil, or_false] at hname
  rcases hname with rfl | rfl | rfl <;> decide +kernel

theorem spacious_abc : Spacious [nameAbc] := by
  intro i hi
  rcases i with _ | _ | i
  · exact Nat.zero_le _
  · decide
  · simp at hi

/-- The address stored for "abc" is the miss marker: UDP enqueues the name, TCP does not. -/
theorem servers_disagree_marker :
    ¬ ServersAgree
      (kacheStore (kacheInit (oneKeyTrie CStr.empty) (fun _ => 0) 0) nameAbc ⟨cacheMiss, 0⟩) 0
      headAbc [nameAbc] [] := by
  rw [serversAgree_iff_missed _ 0 (by simp) spacious_abc (by decide) ⟨by decide, by decide⟩]
  decide +kernel

end DnsCache

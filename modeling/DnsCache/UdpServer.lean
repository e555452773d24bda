import DnsCache.TcpSearch

/-! # The UDP server of `udp_server.c`

One receive buffer serves all datagrams and is never cleared.

* `udpRecv`, `udpDoSearch`, `udpRun`: one datagram, and any history of
  datagrams and of stores made by the DNS workers meanwhile.
* `Behind`: the same scan over the received bytes alone and over the whole
  buffer, as a simulation in both directions.
* `udp_no_leak_iff`: for which datagrams the outcome does not depend on what
  earlier ones left in the buffer.
-/

namespace DnsCache

open CMem

/-! ## The functions -/

/-- `HEAD_LENGTH + MAX_UDP_LENGTH`, the size of `readbuf`. -/
def udpBufLength : Nat := headLength + maxUdpLength

/-- What a datagram that is not ignored leads to: the bytes handed to `sendto`
and the names handed to `do_dns_search`. -/
structure UdpAnswer where
  reply : List UInt8
  names : List CStr
deriving DecidableEq, Repr

/-- `total_length - HEAD_LENGTH` in `uint32` arithmetic, to which `readcount` is compared. -/
def udpBound (totalLength : UInt32) : Int :=
  ((totalLength - UInt32.ofNat headLength).toNat : Int)

/-- The receive buffer from `HEAD_LENGTH` on. -/
def udpPayload (buf : List UInt8) : Block where
  cap := maxUdpLength
  bytes := (buf.drop headLength).take maxUdpLength
  fits := List.length_take_le _ _

/-- The answer made of the loop's variables. `sent` tells whether `sendto`
took the whole reply; otherwise the function returns before `do_dns_search`. -/
def Scan.udpAnswer (head : List UInt8) (sent : Bool) (s : Scan) : UdpAnswer where
  reply := setFlag head (firstFlag s.misses.length) ++ s.block.bytes.take (4 * s.ipcount)
  names := if sent then s.misses.map (·.domain) else []

/-- `do_search (sockfd, buf, …)`: the buffer it leaves and, unless it returns
at once, the answer. A read or write outside the buffer has no result. -/
def udpDoSearch (kc : Kache) (now : Int) (buf : List UInt8) (sent : Bool) :
    Option (List UInt8 × Option UdpAnswer) := do
  let totalLength ← rd32 buf
  if totalLength = 0 then return (buf, none)
  let s ← searchLoop (udpLookup kc now) (udpBound totalLength) (maxUdpLength + 1)
    (Scan.start (udpPayload buf))
  let head := buf.take headLength
  return (setFlag head (firstFlag s.misses.length) ++ s.block.bytes,
    some (s.udpAnswer head sent))

/-- One round of `udp_recv`: `recvfrom` writes at most the buffer's size over
its start, and the magic number is read from the buffer. -/
def udpRecv (kc : Kache) (now : Int) (buf datagram : List UInt8) (sent : Bool) :
    Option (List UInt8 × Option UdpAnswer) := do
  let buf := patch buf 0 (datagram.take udpBufLength)
  let magic ← rd32 (buf.drop totalLengthLength)
  if magic = magicNumber then udpDoSearch kc now buf sent else return (buf, none)

/-- What outlives a round: the receive buffer and the cache. -/
structure UdpState where
  buf : List UInt8
  kache : Kache

/-- A round of `udp_recv`, or a `kache_store` by a DNS worker between rounds. -/
inductive UdpEvent where
  | recv (datagram : List UInt8) (now : Int) (sent : Bool)
  | store (key : CStr) (data : DataT)

def udpStep (s : UdpState) : UdpEvent → Option UdpState
  | .recv datagram now sent =>
      (udpRecv s.kache now s.buf datagram sent).map fun r => ⟨r.1, s.kache⟩
  | .store key data => some ⟨s.buf, kacheStore s.kache key data⟩

/-- A history of the server. -/
def udpRun : UdpState → List UdpEvent → Option UdpState
  | s, [] => some s
  | s, e :: es => (udpStep s e).bind fun s' => udpRun s' es

/-! ## One round -/

/-- What `do_search` does with a non-zero total length. -/
theorem udpDoSearch_eq_some_iff {kc : Kache} {now : Int} {buf : List UInt8} {sent : Bool}
    {T : UInt32} (hT : rd32 buf = some T) (hT0 : T ≠ 0) {r : List UInt8 × Option UdpAnswer} :
    udpDoSearch kc now buf sent = some r ↔
      ∃ t, Scans (udpLookup kc now) (udpBound T) (Scan.start (udpPayload buf)) t ∧
        r = (setFlag (buf.take headLength) (firstFlag t.misses.length) ++ t.block.bytes,
          some (t.udpAnswer (buf.take headLength) sent)) := by
  have hloop : ∀ t, searchLoop (udpLookup kc now) (udpBound T) (maxUdpLength + 1)
      (Scan.start (udpPayload buf)) = some t ↔
        Scans (udpLookup kc now) (udpBound T) (Scan.start (udpPayload buf)) t := by
    intro t
    exact searchLoop_eq_some_iff
  unfold udpDoSearch
  simp only [hT, Option.bind_eq_bind, Option.bind_some, if_neg hT0]
  constructor
  · intro h
    simp only [Option.bind_eq_some_iff, Option.pure_def, Option.some.injEq] at h
    rcases h with ⟨t, ht, rfl⟩
    exact ⟨t, (hloop t).mp ht, rfl⟩
  · intro h
    rcases h with ⟨t, ht, rfl⟩
    rw [(hloop t).mpr ht]
    rfl

theorem udpDoSearch_zero (kc : Kache) (now : Int) {buf : List UInt8} (sent : Bool)
    (h : rd32 buf = some 0) : udpDoSearch kc now buf sent = some (buf, none) := by
  simp [udpDoSearch, h]

/-! ## The buffer keeps its size -/

/-- A full block stays full. -/
theorem scanStep_full {lookup : CStr → Option UInt32} {s s' : Scan}
    (h : scanStep lookup s = some s') (hfull : s.block.bytes.length = s.block.cap) :
    s'.block.bytes.length = s'.block.cap := by
  rcases scanStep_eq_some_iff.mp h with ⟨name, block, -, hblock, rfl⟩
  rcases Block.write_eq_some_iff.mp hblock with ⟨hoff, hend, hcap, hbytes⟩
  show block.bytes.length = block.cap
  rw [hbytes, hcap, patch_length hoff]
  omega

theorem Scans.full {lookup : CStr → Option UInt32} {bound : Int} {s t : Scan}
    (h : Scans lookup bound s t) (hfull : s.block.bytes.length = s.block.cap) :
    t.block.bytes.length = s.block.cap := by
  induction h with
  | last hstep _ =>
      rw [scanStep_full hstep hfull]
      exact (scanStep_progress hstep).1
  | more hstep _ _ ih =>
      rw [ih (scanStep_full hstep hfull)]
      exact (scanStep_progress hstep).1

theorem udpPayload_full {buf : List UInt8} (h : buf.length = udpBufLength) :
    (udpPayload buf).bytes.length = maxUdpLength := by
  have hsize : udpBufLength = headLength + maxUdpLength := rfl
  simp only [udpPayload, List.length_take, List.length_drop]
  omega

theorem udpDoSearch_length {kc : Kache} {now : Int} {buf : List UInt8} {sent : Bool}
    {r : List UInt8 × Option UdpAnswer} (hlen : buf.length = udpBufLength)
    (h : udpDoSearch kc now buf sent = some r) : r.1.length = udpBufLength := by
  have hsize : udpBufLength = headLength + maxUdpLength := rfl
  cases hT : rd32 buf with
  | none => simp [udpDoSearch, hT] at h
  | some T =>
      by_cases hT0 : T = 0
      · -- ignored: the buffer is as received
        rw [udpDoSearch_zero kc now sent (by rw [hT, hT0])] at h
        cases h
        exact hlen
      · rcases (udpDoSearch_eq_some_iff hT hT0).mp h with ⟨t, ht, rfl⟩
        have hfull := ht.full (udpPayload_full hlen)
        have hcap : (Scan.start (udpPayload buf)).block.cap = maxUdpLength := rfl
        simp only [setFlag, List.length_append, List.length_set, List.length_take, hfull, hcap]
        omega

/-- The step lemma: a round leaves a buffer of the same size. -/
theorem udpStep_length {s s' : UdpState} {e : UdpEvent} (h : udpStep s e = some s')
    (hlen : s.buf.length = udpBufLength) : s'.buf.length = udpBufLength := by
  cases e with
  | store key data =>
      cases h
      exact hlen
  | recv datagram now sent =>
      simp only [udpStep, Option.map_eq_some_iff] at h
      rcases h with ⟨r, hr, rfl⟩
      have hbuf : (patch s.buf 0 (datagram.take udpBufLength)).length = udpBufLength := by
        rw [patch_length (Nat.zero_le _), List.length_take]
        omega
      simp only [udpRecv, Option.bind_eq_bind, Option.bind_eq_some_iff] at hr
      rcases hr with ⟨magic, -, hr⟩
      split at hr
      · exact udpDoSearch_length hbuf hr
      · cases hr
        exact hbuf

/-- The run lemma. -/
theorem udpRun_length {s s' : UdpState} {es : List UdpEvent} (h : udpRun s es = some s')
    (hlen : s.buf.length = udpBufLength) : s'.buf.length = udpBufLength := by
  induction es generalizing s with
  | nil =>
      cases h
      exact hlen
  | cons e es ih =>
      simp only [udpRun, Option.bind_eq_some_iff] at h
      rcases h with ⟨s₁, hstep, hrest⟩
      exact ih hrest (udpStep_length hstep hlen)

/-! ## The scan over the received bytes and over the whole buffer -/

/-- `S` is the scan `s` with the further bytes `rest` behind what `s` knows. -/
structure Behind (s S : Scan) (rest : List UInt8) : Prop where
  bytes : S.block.bytes = s.block.bytes ++ rest
  cap : S.block.cap = s.block.cap
  readcount : S.readcount = s.readcount
  ipcount : S.ipcount = s.ipcount
  looked : S.looked = s.looked
  misses : S.misses = s.misses
  written : 4 * s.ipcount ≤ s.block.bytes.length

/-- What is left of `rest` after the next answer has been stored. -/
def restAfter (s : Scan) (rest : List UInt8) : List UInt8 :=
  rest.drop (4 * s.ipcount + 4 - s.block.bytes.length)

theorem Behind.next {s S : Scan} {rest : List UInt8} (h : Behind s S rest)
    (lookup : CStr → Option UInt32) (name : CStr) {block Block' : Block}
    (hs : s.block.write (4 * s.ipcount) (le32 (answer lookup name)) = some block)
    (hS : S.block.write (4 * S.ipcount) (le32 (answer lookup name)) = some Block') :
    Behind (s.next lookup name block) (S.next lookup name Block') (restAfter s rest) := by
  rcases Block.write_eq_some_iff.mp hs with ⟨hoff, -, hcap, hbytes⟩
  rcases Block.write_eq_some_iff.mp hS with ⟨-, -, hcap', hbytes'⟩
  constructor
  · show Block'.bytes = block.bytes ++ restAfter s rest
    rw [hbytes', hbytes, h.bytes, h.ipcount, patch_append hoff]
    rfl
  · show Block'.cap = block.cap
    rw [hcap', hcap, h.cap]
  · simp only [Scan.next, h.readcount]
  · simp only [Scan.next, h.ipcount]
  · simp only [Scan.next, h.looked]
  · simp only [Scan.next, h.misses, h.ipcount]
  · show 4 * (s.ipcount + 1) ≤ block.bytes.length
    rw [hbytes, patch_length hoff, le32_length]
    omega

/-- Forward step: what the received bytes decide, the whole buffer decides in the same way. -/
theorem Behind.forward {lookup : CStr → Option UInt32} {s S s' : Scan} {rest : List UInt8}
    (h : Behind s S rest) (hstep : scanStep lookup s = some s') :
    ∃ S', scanStep lookup S = some S' ∧ Behind s' S' (restAfter s rest) := by
  rcases scanStep_eq_some_iff.mp hstep with ⟨name, block, hname, hblock, rfl⟩
  rcases Block.write_eq_some_iff.mp hblock with ⟨hoff, hend, -, -⟩
  have hnameS : S.block.cstr S.readcount = some name := by
    unfold Block.cstr at hname ⊢
    rw [h.bytes, h.readcount, List.drop_append]
    exact CStr.scan_append hname
  have hoffS : 4 * S.ipcount ≤ S.block.bytes.length := by
    rw [h.bytes, h.ipcount, List.length_append]
    omega
  have hendS : 4 * S.ipcount + (le32 (answer lookup name)).length ≤ S.block.cap := by
    rw [h.ipcount, h.cap]
    exact hend
  rcases Option.isSome_iff_exists.mp (Block.write_isSome hoffS hendS) with ⟨block', hblock'⟩
  exact ⟨_, scanStep_eq_some_iff.mpr ⟨name, block', hnameS, hblock', rfl⟩,
    h.next lookup name hblock hblock'⟩

/-- Backward step: with no NUL behind the received bytes, every name the whole
buffer yields ends among the received bytes. -/
theorem Behind.backward {lookup : CStr → Option UInt32} {s S S' : Scan} {rest : List UInt8}
    (h : Behind s S rest) (hnul : 0 ∉ rest) (hstep : scanStep lookup S = some S') :
    ∃ s', scanStep lookup s = some s' ∧ Behind s' S' (restAfter s rest) := by
  rcases scanStep_eq_some_iff.mp hstep with ⟨name, block, hname, hblock, rfl⟩
  rcases Block.write_eq_some_iff.mp hblock with ⟨-, hend, -, -⟩
  have hnames : s.block.cstr s.readcount = some name := by
    unfold Block.cstr at hname ⊢
    rw [h.bytes, h.readcount, List.drop_append] at hname
    have hnul' : 0 ∉ rest.drop (s.readcount - s.block.bytes.length) := by
      intro hmem
      exact hnul (List.mem_of_mem_drop hmem)
    exact CStr.scan_of_append_noNul hnul' hname
  have hends : 4 * s.ipcount + (le32 (answer lookup name)).length ≤ s.block.cap := by
    rw [← h.ipcount, ← h.cap]
    exact hend
  rcases Option.isSome_iff_exists.mp (Block.write_isSome h.written hends) with ⟨block', hblock'⟩
  exact ⟨_, scanStep_eq_some_iff.mpr ⟨name, block', hnames, hblock', rfl⟩,
    h.next lookup name hblock' hblock⟩

/-- The runs that go with `Behind.forward`. -/
theorem Behind.scans_forward {lookup : CStr → Option UInt32} {bound : Int} {s S t : Scan}
    {rest : List UInt8} (h : Behind s S rest) (hscan : Scans lookup bound s t) :
    ∃ T rest', Scans lookup bound S T ∧ Behind t T rest' := by
  -- each iteration over the received bytes is one over the whole buffer
  induction hscan generalizing S rest with
  | last hstep hdone =>
      rcases h.forward hstep with ⟨S', hS', h'⟩
      exact ⟨S', _, .last hS' (by rw [h'.readcount]; exact hdone), h'⟩
  | more hstep hleft _ ih =>
      rcases h.forward hstep with ⟨S', hS', h'⟩
      rcases ih h' with ⟨T, rest', hT, hrest'⟩
      exact ⟨T, rest', .more hS' (by rw [h'.readcount]; exact hleft) hT, hrest'⟩

/-- The runs that go with `Behind.backward`. -/
theorem Behind.scans_backward {lookup : CStr → Option UInt32} {bound : Int} {s S T : Scan}
    {rest : List UInt8} (h : Behind s S rest) (hnul : 0 ∉ rest) (hscan : Scans lookup bound S T) :
    ∃ t, Scans lookup bound s t := by
  -- no name of the whole buffer ends behind the received bytes
  induction hscan generalizing s rest with
  | last hstep hdone =>
      rcases h.backward hnul hstep with ⟨s', hs', h'⟩
      exact ⟨s', .last hs' (by rw [← h'.readcount]; exact hdone)⟩
  | more hstep hleft _ ih =>
      rcases h.backward hnul hstep with ⟨s', hs', h'⟩
      have hnul' : 0 ∉ restAfter s rest := by
        intro hmem
        exact hnul (List.mem_of_mem_drop hmem)
      rcases ih h' hnul' with ⟨t, ht⟩
      exact ⟨t, .more hs' (by rw [← h'.readcount]; exact hleft) ht⟩

/-! ## What leaks from one datagram to the next -/

/-- The decision, the reply and the names enqueued for a datagram: `none` when
the server leaves the buffer, `some none` when it ignores the datagram. -/
def udpOutcome (kc : Kache) (now : Int) (buf datagram : List UInt8) (sent : Bool) :
    Option (Option UdpAnswer) := (udpRecv kc now buf datagram sent).map (·.2)

/-- After any two histories that leave the cache `kc`, whatever the buffer was
allocated with, the datagram has the same outcome, inside the buffer. -/
def UdpNoLeak (init kc : Kache) (now : Int) (datagram : List UInt8) (sent : Bool) : Prop :=
  ∀ (b₁ b₂ : List UInt8) (es₁ es₂ : List UdpEvent) (s₁ s₂ : UdpState),
    b₁.length = udpBufLength → b₂.length = udpBufLength →
    udpRun ⟨b₁, init⟩ es₁ = some s₁ → udpRun ⟨b₂, init⟩ es₂ = some s₂ →
    s₁.kache = kc → s₂.kache = kc →
    ∃ o, udpOutcome kc now s₁.buf datagram sent = some o ∧
      udpOutcome kc now s₂.buf datagram sent = some o

/-- The received bytes of the magic number are right, as far as they go. -/
def MagicSoFar (datagram : List UInt8) : Prop :=
  (datagram.drop totalLengthLength).take magicNumberLength <+: le32 magicNumber

/-- The received bytes alone settle the outcome: the magic number is wrong in
one of them, or the whole total length was received and is 0, or it was
received and the scan for the names ends among the received bytes. -/
def SelfContained (kc : Kache) (now : Int) (datagram : List UInt8) : Prop :=
  ¬ MagicSoFar datagram ∨ rd32 datagram = some 0 ∨
    ∃ T t, rd32 datagram = some T ∧
      Scans (udpLookup kc now) (udpBound T) (Scan.start (udpPayload datagram)) t

section Outcome

variable {kc : Kache} {now : Int} {b d : List UInt8} {sent : Bool}

/-- The buffer a datagram is looked at in. -/
theorem udpOutcome_eq (hd : d.length ≤ udpBufLength) :
    udpOutcome kc now b d sent =
      (rd32 ((d ++ b.drop d.length).drop totalLengthLength)).bind fun magic =>
        if magic = magicNumber then
          (udpDoSearch kc now (d ++ b.drop d.length) sent).map (·.2)
        else some none := by
  unfold udpOutcome udpRecv
  simp only [List.take_of_length_le hd, patch_zero, Option.bind_eq_bind, Option.pure_def]
  cases rd32 ((d ++ b.drop d.length).drop totalLengthLength) with
  | none => rfl
  | some magic =>
      by_cases hm : magic = magicNumber
      · simp [hm]
      · simp [hm]

theorem length_behind (hb : b.length = udpBufLength) (hd : d.length ≤ udpBufLength) :
    (d ++ b.drop d.length).length = udpBufLength := by
  simp only [List.length_append, List.length_drop]
  omega

/-- A wrong magic number: ignored. -/
theorem udpOutcome_wrong_magic (hb : b.length = udpBufLength) (hd : d.length ≤ udpBufLength)
    (hm : ∀ t, (d ++ b.drop d.length).drop totalLengthLength ≠ le32 magicNumber ++ t) :
    udpOutcome kc now b d sent = some none := by
  have hlen := length_behind hb hd
  have hsome : (rd32 ((d ++ b.drop d.length).drop totalLengthLength)).isSome := by
    rw [rd32_isSome_iff, List.length_drop, hlen]
    decide
  rcases Option.isSome_iff_exists.mp hsome with ⟨magic, hmagic⟩
  have hne : magic ≠ magicNumber := by
    intro h
    rw [h] at hmagic
    rcases rd32_eq_some_iff.mp hmagic with ⟨t, ht⟩
    exact hm t ht
  rw [udpOutcome_eq hd, hmagic, Option.bind_some, if_neg hne]

/-- The right magic number: `do_search` decides. -/
theorem udpOutcome_right_magic (hd : d.length ≤ udpBufLength) {t : List UInt8}
    (hm : (d ++ b.drop d.length).drop totalLengthLength = le32 magicNumber ++ t) :
    udpOutcome kc now b d sent =
      (udpDoSearch kc now (d ++ b.drop d.length) sent).map (·.2) := by
  rw [udpOutcome_eq hd, hm, rd32_le32, Option.bind_some, if_pos rfl]

/-- With a total length of 0 the datagram is ignored, whatever the magic number. -/
theorem udpOutcome_zero (hb : b.length = udpBufLength) (hd : d.length ≤ udpBufLength)
    (h0 : rd32 d = some 0) : udpOutcome kc now b d sent = some none := by
  by_cases hm : ∃ t, (d ++ b.drop d.length).drop totalLengthLength = le32 magicNumber ++ t
  · rcases hm with ⟨t, ht⟩
    rw [udpOutcome_right_magic hd ht, udpDoSearch_zero kc now sent (rd32_append h0)]
    rfl
  · exact udpOutcome_wrong_magic hb hd (not_exists.mp hm)

/-- The received magic number rules the datagram out. -/
theorem udpOutcome_not_magicSoFar (hb : b.length = udpBufLength) (hd : d.length ≤ udpBufLength)
    (hm : ¬ MagicSoFar d) : udpOutcome kc now b d sent = some none := by
  apply udpOutcome_wrong_magic hb hd
  intro t ht
  apply hm
  have hpre : d.drop totalLengthLength <+: le32 magicNumber ++ t := by
    rw [← ht, List.drop_append]
    exact List.prefix_append _ _
  have htake := (List.take_prefix magicNumberLength _).trans hpre
  exact List.prefix_of_prefix_length_le htake (List.prefix_append _ _)
    (List.length_take_le magicNumberLength _)

/-- The whole magic number was received and is right. -/
theorem magic_received (hm : MagicSoFar d) (h8 : 8 ≤ d.length) (u : List UInt8) :
    ∃ t, (d ++ u).drop totalLengthLength = le32 magicNumber ++ t := by
  have hlen : ((d.drop totalLengthLength).take magicNumberLength).length =
      (le32 magicNumber).length := by
    simp only [totalLengthLength, magicNumberLength, List.length_take, List.length_drop,
      le32_length]
    omega
  have htake := List.IsPrefix.eq_of_length hm hlen
  refine ⟨(d.drop totalLengthLength).drop magicNumberLength ++ u, ?_⟩
  rw [← htake, ← List.append_assoc, List.take_append_drop, List.drop_append_of_le_length]
  simp only [totalLengthLength]
  omega

/-- The received payload lies in front of the rest of the buffer. -/
theorem behind_start (hb : b.length = udpBufLength) (hd : d.length ≤ udpBufLength) :
    Behind (Scan.start (udpPayload d)) (Scan.start (udpPayload (d ++ b.drop d.length)))
      ((b.drop d.length).drop (headLength - d.length)) := by
  have hsize : udpBufLength = headLength + maxUdpLength := rfl
  have hdrop : (d.drop headLength).take maxUdpLength = d.drop headLength := by
    apply List.take_of_length_le
    rw [List.length_drop]
    omega
  have hall : ((d ++ b.drop d.length).drop headLength).take maxUdpLength =
      d.drop headLength ++ (b.drop d.length).drop (headLength - d.length) := by
    rw [List.drop_append]
    apply List.take_of_length_le
    simp only [List.length_append, List.length_drop]
    omega
  constructor
  · show (udpPayload _).bytes = (udpPayload d).bytes ++ _
    simp only [udpPayload, hall, hdrop]
  · rfl
  · rfl
  · rfl
  · rfl
  · rfl
  · exact Nat.zero_le _

/-- A scan cannot end before a byte of a name has been received. -/
theorem headLength_lt_of_scans {T : UInt32} {t : Scan}
    (h : Scans (udpLookup kc now) (udpBound T) (Scan.start (udpPayload d)) t) :
    headLength < d.length := by
  rcases h.looked_extends with ⟨name, -, hname, -⟩
  by_contra hle
  have hnil : (udpPayload d).bytes = [] := by
    simp only [udpPayload]
    rw [List.drop_eq_nil_of_le (by omega), List.take_nil]
  simp [Scan.start, Block.cstr, hnil, CStr.scan] at hname

/-- A scan that ends among the received bytes gives the answer. -/
theorem udpOutcome_of_scans (hb : b.length = udpBufLength) (hd : d.length ≤ udpBufLength)
    (hm : MagicSoFar d) {T : UInt32} (hT : rd32 d = some T) (hT0 : T ≠ 0) {t : Scan}
    (h : Scans (udpLookup kc now) (udpBound T) (Scan.start (udpPayload d)) t) :
    udpOutcome kc now b d sent = some (some (t.udpAnswer (d.take headLength) sent)) := by
  have h13 := headLength_lt_of_scans h
  have h8 : 8 ≤ d.length := by
    rw [headLength_eq] at h13
    omega
  rcases magic_received hm h8 (b.drop d.length) with ⟨u, hu⟩
  rcases (behind_start hb hd).scans_forward h with ⟨t', rest, ht', hrest⟩
  have hsearch := (@udpDoSearch_eq_some_iff kc now _ sent T (rd32_append hT) hT0 _).mpr
    ⟨t', ht', rfl⟩
  rw [udpOutcome_right_magic hd hu, hsearch, Option.map_some,
    List.take_append_of_le_length (Nat.le_of_lt h13)]
  -- the reply holds only bytes that the scan over the received bytes knows
  have hbody : t'.block.bytes.take (4 * t'.ipcount) = t.block.bytes.take (4 * t.ipcount) := by
    rw [hrest.bytes, hrest.ipcount, List.take_append_of_le_length hrest.written]
  simp only [Scan.udpAnswer, hbody, hrest.misses]

/-! ### Buffers that give the leak away -/

/-- A buffer without any NUL. -/
def onesBuf : List UInt8 := List.replicate udpBufLength 1

/-- The same with a total length and the magic number in place. -/
def trapBuf : List UInt8 :=
  [0, 0, 0, 1] ++ le32 magicNumber ++ List.replicate (udpBufLength - 8) 1

theorem onesBuf_length : onesBuf.length = udpBufLength := List.length_replicate

theorem trapBuf_length : trapBuf.length = udpBufLength := by
  have h8 : 8 ≤ udpBufLength := by decide
  simp only [trapBuf, List.length_append, le32_length, List.length_replicate, List.length_cons,
    List.length_nil]
  omega

theorem onesBuf_noNul (n : Nat) : 0 ∉ onesBuf.drop n := by
  intro h
  exact absurd (List.eq_of_mem_replicate (List.mem_of_mem_drop h)) (by decide)

/-- Behind the ones, a datagram shorter than the magic number is ignored. -/
theorem udpOutcome_onesBuf (h8 : d.length < 8) : udpOutcome kc now onesBuf d sent = some none := by
  have hsize : 8 < udpBufLength := by decide
  apply udpOutcome_wrong_magic onesBuf_length (by omega)
  intro t ht
  -- the last byte of the magic number is a leftover one
  have hlast := congrArg (fun l => l[3]?) ht
  simp only [List.getElem?_drop, totalLengthLength] at hlast
  rw [List.getElem?_append_right (by omega), List.getElem?_drop, onesBuf,
    List.getElem?_replicate, if_pos (by omega)] at hlast
  exact absurd hlast (by simp [le32, magicNumber])

/-- The missing bytes of the magic number are leftover ones of the trap. -/
theorem trapBuf_magic (h8 : d.length < 8) (hm : MagicSoFar d) :
    ∃ t, (d ++ trapBuf.drop d.length).drop totalLengthLength = le32 magicNumber ++ t := by
  refine ⟨List.replicate (udpBufLength - 8) 1, ?_⟩
  rcases hm with ⟨u, hu⟩
  have hshort : (d.drop totalLengthLength).length ≤ magicNumberLength := by
    simp only [List.length_drop, totalLengthLength, magicNumberLength]
    omega
  rw [List.take_of_length_le hshort] at hu
  have htrap : trapBuf.drop totalLengthLength =
      le32 magicNumber ++ List.replicate (udpBufLength - 8) 1 := by
    rw [trapBuf, List.append_assoc]
    exact List.drop_left' rfl
  have hskip : d.length + (totalLengthLength - d.length) =
      totalLengthLength + (d.drop totalLengthLength).length := by
    rw [List.length_drop]
    omega
  rw [List.drop_append, List.drop_drop, hskip, ← List.drop_drop, htrap, ← hu,
    List.append_assoc, List.drop_left]

/-- The total length behind which the trap lies is not 0. -/
theorem trapBuf_totalLength (h8 : d.length < 8) (h0 : rd32 d ≠ some 0) :
    ∃ T, rd32 (d ++ trapBuf.drop d.length) = some T ∧ T ≠ 0 := by
  have hsize : 8 < udpBufLength := by decide
  have hsome : (rd32 (d ++ trapBuf.drop d.length)).isSome := by
    rw [rd32_isSome_iff, length_behind trapBuf_length (by omega)]
    omega
  rcases Option.isSome_iff_exists.mp hsome with ⟨T, hT⟩
  refine ⟨T, hT, ?_⟩
  intro hzero
  rw [hzero] at hT
  rcases rd32_eq_some_iff.mp hT with ⟨t, ht⟩
  by_cases h4 : 4 ≤ d.length
  · -- the total length was received
    apply h0
    refine rd32_eq_some_iff.mpr ⟨d.drop 4, ?_⟩
    have htake := congrArg (List.take 4) ht
    rw [List.take_append_of_le_length h4, List.take_left' (le32_length 0)] at htake
    rw [← htake, List.take_append_drop]
  · -- its last byte is the trap's
    have htrap : trapBuf[3]? = some 1 := by
      rw [trapBuf, List.append_assoc]
      exact List.getElem?_append_left (by decide)
    have hlast := congrArg (fun l => l[3]?) ht
    rw [List.getElem?_append_right (by omega), List.getElem?_drop,
      Nat.add_sub_cancel' (by omega), htrap] at hlast
    exact absurd hlast (by simp [le32])

/-- Behind the trap, a datagram that does not end the matter itself is not ignored. -/
theorem udpOutcome_trapBuf (h8 : d.length < 8) (hm : MagicSoFar d) (h0 : rd32 d ≠ some 0) :
    udpOutcome kc now trapBuf d sent ≠ some none := by
  have hsize : 8 < udpBufLength := by decide
  rcases trapBuf_magic h8 hm with ⟨t, ht⟩
  rcases trapBuf_totalLength h8 h0 with ⟨T, hT, hT0⟩
  rw [udpOutcome_right_magic (by omega) ht]
  intro h
  rcases Option.map_eq_some_iff.mp h with ⟨r, hr, hnone⟩
  rcases (udpDoSearch_eq_some_iff hT hT0).mp hr with ⟨s, -, rfl⟩
  simp at hnone

/-- Behind the ones, a scan ends only if it ends among the received bytes. -/
theorem scans_of_onesBuf (hd : d.length ≤ udpBufLength) (hm : MagicSoFar d) (h8 : 8 ≤ d.length)
    {T : UInt32} (hT : rd32 d = some T) (hT0 : T ≠ 0) {o : Option UdpAnswer}
    (h : udpOutcome kc now onesBuf d sent = some o) :
    ∃ t, Scans (udpLookup kc now) (udpBound T) (Scan.start (udpPayload d)) t := by
  rcases magic_received hm h8 (onesBuf.drop d.length) with ⟨u, hu⟩
  rw [udpOutcome_right_magic hd hu, Option.map_eq_some_iff] at h
  rcases h with ⟨r, hr, -⟩
  rcases (udpDoSearch_eq_some_iff (rd32_append hT) hT0).mp hr with ⟨t, ht, -⟩
  apply (behind_start onesBuf_length hd).scans_backward _ ht
  rw [List.drop_drop]
  exact onesBuf_noNul _

end Outcome

theorem udpRun_stores (b : List UInt8) (init : Kache) (stores : List (CStr × DataT)) :
    udpRun ⟨b, init⟩ (stores.map fun s => .store s.1 s.2) = some ⟨b, kacheRun init stores⟩ := by
  induction stores generalizing init with
  | nil => rfl
  | cons s stores ih => exact ih (kacheStore init s.1 s.2)

/-- What an answered datagram leaves: its total length and magic number stay in
place, the flag is stored behind them. -/
theorem udpRecv_answered {kc : Kache} {now : Int} {b b' d : List UInt8} {sent : Bool}
    {a : UdpAnswer} (hd : d.length ≤ udpBufLength)
    (h : udpRecv kc now b d sent = some (b', some a)) :
    ∃ T u, T ≠ 0 ∧ b' = le32 T ++ (le32 magicNumber ++ u) := by
  simp only [udpRecv, List.take_of_length_le hd, patch_zero, Option.bind_eq_bind,
    Option.bind_eq_some_iff] at h
  rcases h with ⟨magic, hmagic, h⟩
  split at h
  · rename_i hm
    rw [hm] at hmagic
    cases hT : rd32 (d ++ b.drop d.length) with
    | none => simp [udpDoSearch, hT] at h
    | some T =>
        by_cases hT0 : T = 0
        · rw [udpDoSearch_zero kc now sent (by rw [hT, hT0])] at h
          simp at h
        · rcases (udpDoSearch_eq_some_iff hT hT0).mp h with ⟨t, -, hr⟩
          rcases rd32_eq_some_iff.mp hT with ⟨u, hu⟩
          rw [hu] at hmagic hr
          have hdrop : (le32 T ++ u).drop totalLengthLength = u := List.drop_left' rfl
          rw [hdrop] at hmagic
          rcases rd32_eq_some_iff.mp hmagic with ⟨v, rfl⟩
          exact ⟨T, (v.take 5).set 4 (firstFlag t.misses.length) ++ t.block.bytes, hT0,
            congrArg Prod.fst hr⟩
  · simp at h

/-- So an empty datagram that follows it is answered, too. -/
theorem udpOutcome_empty_after_answer {kc kc' : Kache} {now now' : Int} {b b' d : List UInt8}
    {sent sent' : Bool} {a : UdpAnswer} (hd : d.length ≤ udpBufLength)
    (h : udpRecv kc now b d sent = some (b', some a)) :
    udpOutcome kc' now' b' [] sent' ≠ some none := by
  rcases udpRecv_answered hd h with ⟨T, u, hT0, hb'⟩
  have hbuf : ([] : List UInt8) ++ b'.drop ([] : List UInt8).length = b' := rfl
  have hm : ([] ++ b'.drop ([] : List UInt8).length).drop totalLengthLength =
      le32 magicNumber ++ u := by
    rw [hbuf, hb']
    exact List.drop_left' rfl
  rw [udpOutcome_right_magic (Nat.zero_le _) hm, hbuf]
  intro hnone
  rcases Option.map_eq_some_iff.mp hnone with ⟨r, hr, hr2⟩
  have hT : rd32 b' = some T := by rw [hb', rd32_le32]
  rcases (udpDoSearch_eq_some_iff hT hT0).mp hr with ⟨s, -, rfl⟩
  simp at hr2

/-- For a cache that some stores have made out of `init`: a datagram's outcome
does not depend on the history exactly when its own bytes settle it. -/
theorem udp_no_leak_iff (init : Kache) (stores : List (CStr × DataT)) (now : Int)
    (d : List UInt8) (hd : d.length ≤ udpBufLength) (sent : Bool) :
    UdpNoLeak init (kacheRun init stores) now d sent ↔
      SelfContained (kacheRun init stores) now d := by
  constructor
  · intro hleak
    -- the stores alone are a history that leaves every buffer as allocated
    have hpair : ∀ b₁ b₂ : List UInt8, b₁.length = udpBufLength → b₂.length = udpBufLength →
        ∃ o, udpOutcome (kacheRun init stores) now b₁ d sent = some o ∧
          udpOutcome (kacheRun init stores) now b₂ d sent = some o := by
      intro b₁ b₂ h₁ h₂
      exact hleak b₁ b₂ _ _ _ _ h₁ h₂ (udpRun_stores b₁ init stores)
        (udpRun_stores b₂ init stores) rfl rfl
    by_contra hself
    rcases not_or.mp hself with ⟨hm, hself⟩
    rcases not_or.mp hself with ⟨h0, hscan⟩
    have hm := not_not.mp hm
    rcases Nat.lt_or_ge d.length 8 with h8 | h8
    · -- part of the magic number is left over
      rcases hpair onesBuf trapBuf onesBuf_length trapBuf_length with ⟨o, hones, htrap⟩
      rw [udpOutcome_onesBuf h8] at hones
      cases hones
      exact udpOutcome_trapBuf h8 hm h0 htrap
    · -- the end of a name is left over
      rcases hpair onesBuf onesBuf onesBuf_length onesBuf_length with ⟨o, hones, -⟩
      have hsome : (rd32 d).isSome := by
        rw [rd32_isSome_iff]
        omega
      rcases Option.isSome_iff_exists.mp hsome with ⟨T, hT⟩
      have hT0 : T ≠ 0 := by
        intro hzero
        exact h0 (by rw [hT, hzero])
      rcases scans_of_onesBuf hd hm h8 hT hT0 hones with ⟨t, ht⟩
      exact hscan ⟨T, t, hT, ht⟩
  · intro hself b₁ b₂ es₁ es₂ s₁ s₂ h₁ h₂ hrun₁ hrun₂ _ _
    have hlen₁ : s₁.buf.length = udpBufLength := udpRun_length hrun₁ h₁
    have hlen₂ : s₂.buf.length = udpBufLength := udpRun_length hrun₂ h₂
    by_cases hm : MagicSoFar d
    · by_cases h0 : rd32 d = some 0
      · exact ⟨none, udpOutcome_zero hlen₁ hd h0, udpOutcome_zero hlen₂ hd h0⟩
      · rcases hself with hnot | hzero | ⟨T, t, hT, ht⟩
        · exact absurd hm hnot
        · exact absurd hzero h0
        · have hT0 : T ≠ 0 := by
            intro hzero
            exact h0 (by rw [hT, hzero])
          exact ⟨_, udpOutcome_of_scans hlen₁ hd hm hT hT0 ht,
            udpOutcome_of_scans hlen₂ hd hm hT hT0 ht⟩
    · exact ⟨none, udpOutcome_not_magicSoFar hlen₁ hd hm, udpOutcome_not_magicSoFar hlen₂ hd hm⟩

/-- The request for the three names. -/
def datagramThree : List UInt8 :=
  le32 25 ++ le32 magicNumber ++ le32 1 ++ [reservedByte] ++ CStr.pack threeNames

/-- `udp_no_leak_iff` at this request, after a store under one of its names. -/
theorem udp_no_leak_three :
    UdpNoLeak coldKache (kacheRun coldKache [(nameAbc, ⟨9, 0⟩)]) 0 datagramThree true := by
  have hsome : (searchLoop (udpLookup (kacheRun coldKache [(nameAbc, ⟨9, 0⟩)]) 0) (udpBound 25) 3
      (Scan.start (udpPayload datagramThree))).isSome := by decide +kernel
  rcases Option.isSome_iff_exists.mp hsome with ⟨t, ht⟩
  exact (udp_no_leak_iff coldKache [(nameAbc, ⟨9, 0⟩)] 0 datagramThree (by decide) true).mpr
    (.inr (.inr ⟨25, t, by decide, searchLoop_sound ht⟩))

/-- The request for the one name "a". -/
def datagramA : List UInt8 :=
  le32 15 ++ le32 magicNumber ++ le32 1 ++ [reservedByte] ++ [97, 0]

/-- After the request for "a" an empty datagram is answered, from a buffer of
zeros alone it is ignored. -/
theorem udp_leak_empty_datagram :
    ¬ UdpNoLeak (kacheInit (oneKeyTrie CStr.empty) (fun _ => 0) 0)
      (kacheInit (oneKeyTrie CStr.empty) (fun _ => 0) 0) 0 [] true := by
  intro hleak
  let init := kacheInit (oneKeyTrie CStr.empty) (fun _ => 0) 0
  let zeros : List UInt8 := List.replicate udpBufLength 0
  have hzeros : zeros.length = udpBufLength := List.length_replicate
  have hd : datagramA.length ≤ udpBufLength := by decide
  have hm : MagicSoFar datagramA := ⟨[], by decide⟩
  -- the request for "a" is answered
  have hsome : (searchLoop (udpLookup init 0) (udpBound 15) 1
      (Scan.start (udpPayload datagramA))).isSome := by decide +kernel
  rcases Option.isSome_iff_exists.mp hsome with ⟨t, ht⟩
  have hout := @udpOutcome_of_scans init 0 zeros datagramA true hzeros hd hm 15 (by decide)
    (by decide) t (searchLoop_sound ht)
  rcases Option.map_eq_some_iff.mp hout with ⟨⟨b', o⟩, hrecv, ho⟩
  rw [show o = _ from ho] at hrecv
  have hrun : udpRun ⟨zeros, init⟩ [.recv datagramA 0 true] = some ⟨b', init⟩ := by
    simp only [udpRun, udpStep, hrecv]
    rfl
  rcases hleak zeros zeros [] [.recv datagramA 0 true] ⟨zeros, init⟩ ⟨b', init⟩ hzeros hzeros
    rfl hrun rfl rfl with ⟨o', hfresh, hagain⟩
  -- from the buffer of zeros the empty datagram is ignored
  have hignored : udpOutcome init 0 zeros [] true = some none := by
    apply udpOutcome_wrong_magic hzeros (Nat.zero_le _)
    intro u hu
    have hhead := congrArg List.head? hu
    have hz : (zeros.drop totalLengthLength).head? = some 0 := by
      rw [List.drop_replicate, List.head?_replicate, if_neg (by decide)]
    simp only [List.nil_append, List.length_nil, List.drop_zero, hz] at hhead
    simp [le32, magicNumber] at hhead
  rw [hignored] at hfresh
  cases hfresh
  exact udpOutcome_empty_after_answer hd hrecv hagain

end DnsCache

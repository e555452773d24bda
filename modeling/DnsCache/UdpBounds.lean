import DnsCache.PreDo
import DnsCache.UdpServer

/-! # The bounds of the UDP search

The loop of `do_search` ends at a length that the peer has announced, over
names whose terminators it does not check, and writes its answers over them.

* `UdpFits`: announced lengths and payloads for which it stays in the buffer.
* `Overtakes`: payloads where an answer reaches a name not read yet, from
  where on the loop reads what it has written.
* `udp_in_bounds`: the first are enough, and nothing else is apart from the second.
-/

namespace DnsCache

open CMem

/-! ## Payloads -/

/-- The first names of a payload, with room for their answers. -/
structure FrontNames (payload : List UInt8) (names : List CStr) : Prop where
  pre : CStr.pack names <+: payload
  room : ∀ i ≤ names.length, 4 * i ≤ (CStr.pack (names.take i)).length

/-- The loop is not left before the end of `names`. -/
def Unfinished (bound : Nat) (names : List CStr) : Prop :=
  names = [] ∨ (CStr.pack names).length < bound

/-- The most iterations left behind `names`. -/
def roundsLeft (bound : Nat) (names : List CStr) : Nat := max 1 (bound - (CStr.pack names).length)

/-- Behind some first names, the next one reaches the bound, or a NUL stands
where it is read before any answer can be written there. -/
def ScanFits (payload : List UInt8) (bound : Nat) : Prop :=
  ∃ names, FrontNames payload names ∧ Unfinished bound names ∧
    ((∃ name, CStr.pack (names ++ [name]) <+: payload ∧
        bound ≤ (CStr.pack (names ++ [name])).length) ∨
      ∃ p, payload[p]? = some 0 ∧ bound ≤ p + 1 ∧
        4 * (names.length + roundsLeft bound names - 1) ≤ p)

/-- Behind some first names, the answer to the next one reaches into the bytes
that are read after it. -/
def Overtakes (payload : List UInt8) (bound : Nat) : Prop :=
  ∃ names name, FrontNames payload names ∧ CStr.pack (names ++ [name]) <+: payload ∧
    (CStr.pack (names ++ [name])).length < bound ∧
    (CStr.pack (names ++ [name])).length < 4 * (names.length + 1)

/-! ## A NUL that is never overwritten -/

variable {lookup : CStr → Option UInt32} {bound : Nat}

/-- An iteration in front of a NUL leaves it where no answer is written to. -/
theorem scanStep_of_nul {s : Scan} {p : Nat} (hfull : s.block.bytes.length = maxUdpLength)
    (hcap : s.block.cap = maxUdpLength) (hread : s.readcount ≤ p)
    (hnul : s.block.bytes[p]? = some 0) (hfar : 4 * s.ipcount ≤ p) :
    ∃ s', scanStep lookup s = some s' ∧ s'.block.bytes.length = maxUdpLength ∧
      s'.block.cap = maxUdpLength ∧ s.readcount < s'.readcount ∧ s'.readcount ≤ p + 1 ∧
      s'.ipcount = s.ipcount + 1 ∧
      (4 * (s.ipcount + 1) ≤ p → s'.block.bytes[p]? = some 0) := by
  have hdrop : (s.block.bytes.drop s.readcount)[p - s.readcount]? = some 0 := by
    rw [List.getElem?_drop, Nat.add_sub_cancel' hread]
    exact hnul
  rcases CStr.scan_of_nul hdrop with ⟨name, hname, hlen⟩
  have hp := (List.getElem?_eq_some_iff.mp hnul).1
  have hmax : maxUdpLength = 4 * 32768 := rfl
  have hoff : 4 * s.ipcount ≤ s.block.bytes.length := by omega
  rcases Option.isSome_iff_exists.mp (Block.write_isSome hoff (show 4 * s.ipcount +
    (le32 (answer lookup name)).length ≤ s.block.cap by rw [le32_length]; omega)) with ⟨block, hwrite⟩
  have hstep := scanStep_eq_some_iff.mpr ⟨name, block, hname, hwrite, rfl⟩
  rcases Block.write_eq_some_iff.mp hwrite with ⟨-, -, hcap', hbytes⟩
  refine ⟨_, hstep, ?_, hcap'.trans hcap, ?_, ?_, rfl, ?_⟩
  · rw [scanStep_full hstep (hfull.trans hcap.symm)]
    exact hcap'.trans hcap
  · simp only [Scan.next]
    omega
  · simp only [Scan.next]
    omega
  · intro hroom
    show block.bytes[p]? = some 0
    rw [hbytes, patch_getElem?_behind hoff (by rw [le32_length]; omega)]
    exact hnul

/-- The loop ends in front of a NUL that no answer reaches. -/
theorem scans_of_nul {s : Scan} {p rounds : Nat} (hfull : s.block.bytes.length = maxUdpLength)
    (hcap : s.block.cap = maxUdpLength) (hread : s.readcount ≤ p)
    (hnul : s.block.bytes[p]? = some 0) (hbound : bound ≤ p + 1)
    (hrounds : bound ≤ s.readcount + (rounds + 1)) (hfar : 4 * (s.ipcount + rounds) ≤ p) :
    ∃ t, Scans lookup (bound : Int) s t := by
  -- every iteration reads a byte, so at most `rounds + 1` are left
  induction rounds generalizing s with
  | zero =>
      rcases @scanStep_of_nul lookup s p hfull hcap hread hnul hfar with
        ⟨s', hstep, -, -, hlt, -⟩
      exact ⟨s', .last hstep (by omega)⟩
  | succ rounds ih =>
      rcases @scanStep_of_nul lookup s p hfull hcap hread hnul (by omega) with
        ⟨s', hstep, hfull', hcap', hlt, hle, hcount, hkept⟩
      by_cases hdone : bound ≤ s'.readcount
      · exact ⟨s', .last hstep (by omega)⟩
      · rcases ih hfull' hcap' (by omega) (hkept (by omega)) (by omega) (by omega)
          with ⟨t, ht⟩
        exact ⟨t, .more hstep (by omega) ht⟩

/-! ## The loop -/

theorem FrontNames.split {payload : List UInt8} {names : List CStr}
    (h : FrontNames payload names) : ∃ rest, payload = CStr.pack names ++ rest := by
  rcases h.pre with ⟨rest, hrest⟩
  exact ⟨rest, hrest.symm⟩

theorem frontNames_nil (payload : List UInt8) : FrontNames payload [] where
  pre := List.nil_prefix
  room := by
    intro i hi
    rw [Nat.le_zero.mp hi]
    exact Nat.zero_le _

/-- One more name with room. -/
theorem FrontNames.push {payload : List UInt8} {names : List CStr} {name : CStr}
    (h : FrontNames payload names) (hpre : CStr.pack (names ++ [name]) <+: payload)
    (hroom : 4 * (names.length + 1) ≤ (CStr.pack (names ++ [name])).length) :
    FrontNames payload (names ++ [name]) where
  pre := hpre
  room := by
    intro i hi
    rw [List.length_append, List.length_singleton] at hi
    rcases Nat.lt_or_ge names.length i with hlast | hfront
    · have hi' : i = names.length + 1 := by omega
      rw [hi', List.take_of_length_le (by rw [List.length_append, List.length_singleton])]
      exact hroom
    · rw [List.take_append_of_le_length hfront]
      exact h.room i hfront

section Loop

variable {payload : Block} {names : List CStr} {s t : Scan}

/-- The loop passes through a state that is `After` the first names. -/
theorem FrontNames.passed (h : FrontNames payload.bytes names) (hleft : Unfinished bound names) :
    ∃ s, After lookup names (Scan.start payload) s ∧
      ∀ t, Scans lookup (bound : Int) (Scan.start payload) t ↔ Scans lookup (bound : Int) s t := by
  rcases h.split with ⟨rest, hrest⟩
  rcases hleft with hnil | hlt
  · rw [hnil]
    exact ⟨_, After.refl _, fun _ => Iff.rfl⟩
  · have hread : (Scan.start payload).block.bytes.drop (Scan.start payload).readcount =
        CStr.pack names ++ rest := hrest
    apply scans_front hread
    · intro i hi
      have hroom := h.room i hi
      simp only [Scan.start, Nat.zero_add]
      exact hroom
    · simp only [Scan.start, Nat.zero_add]
      exact_mod_cast hlt

/-- What is read next stands behind the names in the payload. -/
theorem After.drop_payload (h : After lookup names (Scan.start payload) s) :
    s.readcount = (CStr.pack names).length ∧ s.ipcount = names.length ∧
      s.block.bytes.drop s.readcount = payload.bytes.drop (CStr.pack names).length := by
  have hread : s.readcount = (CStr.pack names).length := by
    rw [h.readcount]
    exact Nat.zero_add _
  refine ⟨hread, ?_, ?_⟩
  · rw [h.ipcount]
    exact Nat.zero_add _
  · rw [h.unread, hread]
    rfl

/-- A next name that stands in the payload is looked up. -/
theorem After.scanStep_name (h : After lookup names (Scan.start payload) s) {name : CStr}
    (hfull : payload.bytes.length = maxUdpLength) (hcap : payload.cap = maxUdpLength)
    (hroom : 4 * names.length ≤ (CStr.pack names).length)
    (hpre : CStr.pack (names ++ [name]) <+: payload.bytes) :
    ∃ s', scanStep lookup s = some s' ∧ s'.readcount = (CStr.pack (names ++ [name])).length := by
  rcases h.drop_payload with ⟨hread, hcount, hunread⟩
  rcases hpre with ⟨rest, hrest⟩
  have hsplit := CStr.pack_snoc names name
  have hname : s.block.cstr s.readcount = some name := by
    rw [Block.cstr, hunread, ← hrest, hsplit, List.append_assoc, List.drop_left, CStr.scan_raw]
  have hlen := congrArg List.length hrest
  rw [hsplit, List.length_append, List.length_append, CStr.raw_length] at hlen
  have hmax : maxUdpLength = 4 * 32768 := rfl
  have hbytes := h.len
  have hcap' := h.cap
  simp only [Scan.start] at hbytes hcap'
  rcases Option.isSome_iff_exists.mp (Block.write_isSome (show 4 * s.ipcount ≤
    s.block.bytes.length by omega) (show 4 * s.ipcount + (le32 (answer lookup name)).length ≤
      s.block.cap by rw [le32_length]; omega)) with ⟨block, hwrite⟩
  refine ⟨_, scanStep_eq_some_iff.mpr ⟨name, block, hname, hwrite, rfl⟩, ?_⟩
  rw [hsplit, List.length_append, CStr.raw_length]
  simp only [Scan.next, hread, Nat.add_assoc]

/-- Payloads that fit are searched inside the buffer. -/
theorem scans_of_fits (hfull : payload.bytes.length = maxUdpLength)
    (hcap : payload.cap = maxUdpLength) (hfits : ScanFits payload.bytes bound) :
    ∃ t, Scans lookup (bound : Int) (Scan.start payload) t := by
  rcases hfits with ⟨names, hfront, hleft, hnext⟩
  rcases @FrontNames.passed lookup bound payload names hfront hleft with ⟨s, hafter, hiff⟩
  have hroom := hfront.room names.length (Nat.le_refl _)
  rw [List.take_length] at hroom
  rcases hafter.drop_payload with ⟨hread, hcount, hunread⟩
  rcases hnext with ⟨name, hpre, hreach⟩ | ⟨p, hnul, hbound, hfar⟩
  · rcases hafter.scanStep_name hfull hcap hroom hpre with ⟨s', hstep, hread'⟩
    exact ⟨s', (hiff s').mpr (.last hstep (by rw [hread']; exact_mod_cast hreach))⟩
  · have hle : (CStr.pack names).length ≤ p := by
      rcases hleft with hnil | hlt
      · rw [hnil]
        exact Nat.zero_le _
      · omega
    have hbytes : s.block.bytes[p]? = some 0 := by
      have hdrop := congrArg (fun m => m[p - (CStr.pack names).length]?) hunread
      simp only [List.getElem?_drop, hread, Nat.add_sub_cancel' hle] at hdrop
      rw [hdrop, hnul]
    have hrounds : 1 ≤ roundsLeft bound names := Nat.le_max_left _ _
    have hleft' : bound - (CStr.pack names).length ≤ roundsLeft bound names := Nat.le_max_right _ _
    rcases @scans_of_nul lookup bound s p (roundsLeft bound names - 1)
      (by rw [hafter.len]; exact hfull) (by rw [hafter.cap]; exact hcap) (by omega) hbytes hbound
      (by omega) (by omega) with ⟨t, ht⟩
    exact ⟨t, (hiff t).mpr ht⟩

/-- What an iteration behind the first names looks up. -/
theorem After.next_name (h : After lookup names (Scan.start payload) s)
    (hfront : FrontNames payload.bytes names) {s' : Scan} (hstep : scanStep lookup s = some s') :
    ∃ name, CStr.pack (names ++ [name]) <+: payload.bytes ∧
      s'.readcount = (CStr.pack (names ++ [name])).length ∧
      (4 * (names.length + 1) ≤ (CStr.pack (names ++ [name])).length →
        After lookup (names ++ [name]) (Scan.start payload) s') := by
  rcases h.drop_payload with ⟨hread, hcount, hunread⟩
  rcases hfront.split with ⟨rest, hrest⟩
  rcases scanStep_eq_some_iff.mp hstep with ⟨name, block, hname, -, hs'⟩
  rcases CStr.scan_eq_some hname with ⟨tail, htail⟩
  have hsplit := CStr.pack_snoc names name
  have hrest' : rest = name.raw ++ tail := by
    have hdrop := hunread.symm.trans htail
    rwa [hrest, List.drop_left] at hdrop
  refine ⟨name, ⟨tail, by rw [hrest, hrest', hsplit, List.append_assoc]⟩, ?_, ?_⟩
  · rw [hs', hsplit, List.length_append, CStr.raw_length]
    simp only [Scan.next, hread, Nat.add_assoc]
  · intro hroom
    rw [hsplit, List.length_append, CStr.raw_length] at hroom
    rcases @scanStep_after lookup s name tail htail (by rw [hcount, hread]; exact hroom)
      with ⟨s'', hstep', hone⟩
    rw [hstep, Option.some.injEq] at hstep'
    rw [hstep']
    exact h.trans hone

/-- A search that ends has stayed in the buffer because the payload fits, or an
answer has overtaken the names. -/
theorem fits_of_scans (h : Scans lookup (bound : Int) s t) (hfront : FrontNames payload.bytes names)
    (hleft : Unfinished bound names) (hafter : After lookup names (Scan.start payload) s) :
    ScanFits payload.bytes bound ∨ Overtakes payload.bytes bound := by
  -- on the iterations: `names` are those that have been looked up
  induction h generalizing names with
  | @last s s' hstep hdone =>
      rcases hafter.next_name hfront hstep with ⟨name, hpre, hread, -⟩
      rw [hread] at hdone
      exact Or.inl ⟨names, hfront, hleft, Or.inl ⟨name, hpre, by exact_mod_cast hdone⟩⟩
  | @more s s' t hstep hmore hrest ih =>
      rcases hafter.next_name hfront hstep with ⟨name, hpre, hread, hnext⟩
      rw [hread] at hmore
      by_cases hroom : 4 * (names.length + 1) ≤ (CStr.pack (names ++ [name])).length
      · exact ih (hfront.push hpre hroom) (Or.inr (by exact_mod_cast hmore)) (hnext hroom)
      · exact Or.inr ⟨names, name, hfront, hpre, by exact_mod_cast hmore, Nat.lt_of_not_le hroom⟩

end Loop

/-! ## A datagram -/

/-- The receive buffer once the datagram has been received. -/
def received (buf datagram : List UInt8) : List UInt8 := patch buf 0 (datagram.take udpBufLength)

/-- The handling of the datagram ends, every access lies in the receive buffer,
and so does the reply. -/
def UdpInBounds (kc : Kache) (now : Int) (buf datagram : List UInt8) (sent : Bool) : Prop :=
  ∃ buf' answer, udpRecv kc now buf datagram sent = some (buf', answer) ∧
    ∀ a, answer = some a → a.reply.length ≤ udpBufLength

/-- The payload of the receive buffer. -/
def udpBytes (buf : List UInt8) : List UInt8 := (udpPayload buf).bytes

/-- The total length and the payload for which the search stays in the buffer:
no search at all, or a scan that fits. -/
def UdpFits (buf : List UInt8) : Prop :=
  ∃ T, rd32 buf = some T ∧ (T = 0 ∨ ScanFits (udpBytes buf) (payloadLength T))

/-- An answer reaches a name that has not been read yet, under a length that the
buffer can hold. -/
def UdpOvertakes (buf : List UInt8) : Prop :=
  ∃ T, rd32 buf = some T ∧ T ≠ 0 ∧ payloadLength T ≤ maxUdpLength ∧
    Overtakes (udpBytes buf) (payloadLength T)

theorem received_length {buf : List UInt8} (datagram : List UInt8)
    (h : buf.length = udpBufLength) : (received buf datagram).length = udpBufLength := by
  rw [received, patch_length (Nat.zero_le _), List.length_take]
  omega

/-- A datagram with the magic number is searched. -/
theorem udpRecv_magic {kc : Kache} {now : Int} {buf datagram : List UInt8} {sent : Bool}
    (h : wordAt (received buf datagram) totalLengthLength = some magicNumber) :
    udpRecv kc now buf datagram sent = udpDoSearch kc now (received buf datagram) sent := by
  have h' : rd32 ((patch buf 0 (datagram.take udpBufLength)).drop totalLengthLength) =
      some magicNumber := h
  unfold udpRecv
  simp only [h', Option.bind_eq_bind, Option.bind_some, if_true]
  rfl

/-- In bounds is what the loop decides. -/
theorem udpInBounds_iff_scans {kc : Kache} {now : Int} {buf datagram : List UInt8} {sent : Bool}
    {T : UInt32} (hlen : buf.length = udpBufLength)
    (hmagic : wordAt (received buf datagram) totalLengthLength = some magicNumber)
    (hT : rd32 (received buf datagram) = some T) (hT0 : T ≠ 0) :
    UdpInBounds kc now buf datagram sent ↔
      ∃ t, Scans (udpLookup kc now) (payloadLength T : Int)
        (Scan.start (udpPayload (received buf datagram))) t := by
  have hreceived := received_length datagram hlen
  constructor
  · rintro ⟨buf', answer, hrecv, -⟩
    rw [udpRecv_magic hmagic] at hrecv
    rcases (udpDoSearch_eq_some_iff hT hT0).mp hrecv with ⟨t, ht, -⟩
    exact ⟨t, ht⟩
  · rintro ⟨t, ht⟩
    have hfull := ht.full (udpPayload_full hreceived)
    have hcap : (Scan.start (udpPayload (received buf datagram))).block.cap = maxUdpLength := rfl
    have hsize : udpBufLength = headLength + maxUdpLength := rfl
    refine ⟨_, _, (udpRecv_magic hmagic).trans ((udpDoSearch_eq_some_iff hT hT0).mpr ⟨t, ht, rfl⟩), ?_⟩
    intro a ha
    rw [← Option.some.inj ha]
    simp only [Scan.udpAnswer, setFlag, List.length_append, List.length_set, List.length_take]
    omega

/-- A length that the buffer cannot hold is never handled in bounds. -/
theorem not_inBounds_of_long {kc : Kache} {now : Int} {buf datagram : List UInt8} {sent : Bool}
    {T : UInt32} (hlen : buf.length = udpBufLength)
    (hmagic : wordAt (received buf datagram) totalLengthLength = some magicNumber)
    (hT : rd32 (received buf datagram) = some T) (hT0 : T ≠ 0)
    (hlong : maxUdpLength < payloadLength T) : ¬ UdpInBounds kc now buf datagram sent := by
  intro hin
  rcases (udpInBounds_iff_scans hlen hmagic hT hT0).mp hin with ⟨t, ht⟩
  have hle := (ht.counts ⟨rfl, Nat.le_refl _, rfl⟩).2
  have hbound := ht.bound_le
  have hcap : (Scan.start (udpPayload (received buf datagram))).block.cap = maxUdpLength := rfl
  omega

/-- Whatever the datagram, the buffer and the cache hold: a datagram that fits
is handled in bounds, and no other is unless an answer overtakes a name. -/
theorem udp_in_bounds (kc : Kache) (now : Int) (buf datagram : List UInt8) (sent : Bool)
    (hlen : buf.length = udpBufLength)
    (hmagic : wordAt (received buf datagram) totalLengthLength = some magicNumber) :
    (UdpFits (received buf datagram) → UdpInBounds kc now buf datagram sent) ∧
      (UdpInBounds kc now buf datagram sent →
        UdpFits (received buf datagram) ∨ UdpOvertakes (received buf datagram)) := by
  have hreceived := received_length datagram hlen
  have hbuf : udpBufLength = 131085 := rfl
  rcases exists_wordAt (show 0 + 4 ≤ (received buf datagram).length by omega) with ⟨T, hT⟩
  have hT' : rd32 (received buf datagram) = some T := hT
  by_cases hT0 : T = 0
  · have hzero : UdpFits (received buf datagram) := ⟨T, hT', Or.inl hT0⟩
    refine ⟨fun _ => ?_, fun _ => Or.inl hzero⟩
    rw [hT0] at hT'
    exact ⟨_, none, (udpRecv_magic hmagic).trans (udpDoSearch_zero kc now sent hT'), by simp⟩
  · have hscans := @udpInBounds_iff_scans kc now buf datagram sent T hlen hmagic hT' hT0
    constructor
    · rintro ⟨T', hT'', hfits⟩
      rw [hT', Option.some.injEq] at hT''
      rw [← hT''] at hfits
      rcases hfits with h0 | hfits
      · exact absurd h0 hT0
      · exact hscans.mpr (scans_of_fits (udpPayload_full hreceived) rfl hfits)
    · intro hin
      rcases hscans.mp hin with ⟨t, ht⟩
      rcases fits_of_scans ht (frontNames_nil _) (Or.inl rfl) (After.refl _) with hfits | hover
      · exact Or.inl ⟨T, hT', Or.inr hfits⟩
      · exact Or.inr ⟨T, hT', hT0,
          Nat.le_of_not_lt fun hlong => not_inBounds_of_long hlen hmagic hT' hT0 hlong hin, hover⟩

/-- A receive buffer that was never used. -/
def clearBuf : List UInt8 := List.replicate udpBufLength 0

theorem clearBuf_length : clearBuf.length = udpBufLength := List.length_replicate

/-- A datagram that is shorter than the buffer lies in front of what it held. -/
theorem received_eq_append {buf datagram : List UInt8} (h : datagram.length ≤ udpBufLength) :
    received buf datagram = datagram ++ buf.drop datagram.length := by
  rw [received, patch_zero, List.take_of_length_le h]

/-- The name "a" under a head that announces the length 12. -/
def shortLength : List UInt8 := buildHead 12 ++ [97, 0]

/-- The length 12 wraps: the scan leaves the buffer. -/
theorem shortLength_outOfBounds :
    ¬ UdpInBounds (kacheInit (oneKeyTrie CStr.empty) (fun _ => 0) 0) 0 clearBuf shortLength true := by
  have hsize : shortLength.length ≤ udpBufLength := by decide +kernel
  have hmagic : wordAt (received clearBuf shortLength) totalLengthLength = some magicNumber := by
    rw [received_eq_append hsize, wordAt_append (by decide)]
    decide
  have htotal : rd32 (received clearBuf shortLength) = some 12 := by
    rw [received_eq_append hsize]
    exact rd32_append (by decide)
  exact not_inBounds_of_long clearBuf_length hmagic htotal (by decide) (by decide +kernel)

/-- The name "abc" under its true length. -/
def abcRequest : List UInt8 := buildHead 17 ++ [97, 98, 99, 0]

/-- `udp_in_bounds` for a name that leaves room. -/
theorem abcRequest_inBounds :
    UdpInBounds (kacheInit (oneKeyTrie CStr.empty) (fun _ => 0) 0) 0 clearBuf abcRequest true := by
  have hsize : abcRequest.length ≤ udpBufLength := by decide +kernel
  have hreceived := @received_eq_append clearBuf _ hsize
  have hmagic : wordAt (received clearBuf abcRequest) totalLengthLength = some magicNumber := by
    rw [hreceived, wordAt_append (by decide)]
    decide
  refine (udp_in_bounds _ 0 clearBuf abcRequest true clearBuf_length hmagic).1 ⟨17, ?_, Or.inr ?_⟩
  · rw [hreceived]
    exact rd32_append (by decide)
  · refine ⟨[], frontNames_nil _, Or.inl rfl, Or.inl ⟨⟨[97, 98, 99], by decide⟩, ?_, by decide⟩⟩
    show [97, 98, 99, 0] <+: ((received clearBuf abcRequest).drop headLength).take maxUdpLength
    rw [hreceived, List.prefix_take_iff]
    refine ⟨?_, by decide⟩
    rw [abcRequest, List.append_assoc, List.drop_left' (show (buildHead 17).length = headLength from rfl)]
    exact List.prefix_append _ _

end DnsCache

import DnsCache.EndToEnd
import DnsCache.Agree

/-! # The published format of the replies

The head of a reply is the head of the request with its last byte overwritten.
`FirstConforms` and `SecondConforms` say what `tongxinxieyi.tex` asks of a
reply; `replies_conform_iff` says of which replies it is true: the total length
is still that of the request, and the error bit of a first reply tells of
missed names only, not of failures that were found in the cache.
-/

namespace DnsCache

open CMem Trace

/-! ## The format -/

/-- The first bit of the flag: set in a second reply. -/
def serialBit (flag : UInt8) : Bool := flag &&& 0x80 != 0

/-- The second bit of the flag: not set when an address is missing. -/
def errorBit (flag : UInt8) : Bool := flag &&& 0x40 != 0

/-- The head of the message `msg` that answers a request with the head `head`. -/
structure HeadConforms (head msg : List UInt8) (second : Bool) : Prop where
  total : (wordAt msg 0).map UInt32.toNat = some msg.length
  magic : wordAt msg totalLengthLength = wordAt head totalLengthLength
  number : wordAt msg (totalLengthLength + magicNumberLength) =
    wordAt head (totalLengthLength + magicNumberLength)
  serial : (msg[headLength - 1]?).map serialBit = some second

/-- The body holds the address of a failed or missing resolution. -/
def HoldsFailure (msg : List UInt8) : Prop :=
  ∃ i, wordAt msg (headLength + 4 * i) = some cacheMiss ∨
    wordAt msg (headLength + 4 * i) = some dnsError

/-- A first reply as published. -/
structure FirstConforms (head msg : List UInt8) : Prop where
  headOk : HeadConforms head msg false
  error : (msg[headLength - 1]?).map errorBit = some false ↔ HoldsFailure msg

/-- A second reply as published. -/
def SecondConforms (head msg : List UInt8) : Prop := HeadConforms head msg true

/-- The payload of the request is as long as the words of the answer, and a
failure found in the cache is not the only one. -/
def FirstExact (lookup : CStr → Option UInt32) (names : List CStr) : Prop :=
  (CStr.pack names).length = 4 * names.length ∧
    ((∃ k ∈ names, lookup k = none) ∨
      ∀ k ∈ names, lookup k ≠ some cacheMiss ∧ lookup k ≠ some dnsError)

/-- The payload of the request is as long as the pairs for the missed names. -/
def SecondExact (lookup : CStr → Option UInt32) (names : List CStr) : Prop :=
  (CStr.pack names).length = 8 * (names.filter fun k => (lookup k).isNone).length

/-! ## The head -/

theorem wordAt_setFlag {head body : List UInt8} {off : Nat} (flag : UInt8)
    (hlen : head.length = headLength) (hoff : off + 4 < headLength) :
    wordAt (setFlag head flag ++ body) off = wordAt head off := by
  have htake : setFlag head flag = head.take (headLength - 1) ++ [flag] := by
    rw [setFlag, List.set_eq_take_append_cons_drop, if_pos (by rw [hlen]; decide)]
    rw [List.drop_of_length_le (by rw [hlen]; decide)]
  have hhead : head = head.take (headLength - 1) ++ head.drop (headLength - 1) :=
    (List.take_append_drop _ _).symm
  have hfront : (head.take (headLength - 1)).length = headLength - 1 := by
    rw [List.length_take, hlen]
    rfl
  rw [htake, List.append_assoc, wordAt_append (by omega)]
  conv_rhs => rw [hhead]
  rw [wordAt_append (by omega)]

theorem setFlag_append_flag {head body : List UInt8} (flag : UInt8)
    (hlen : head.length = headLength) :
    (setFlag head flag ++ body)[headLength - 1]? = some flag := by
  have hlt : headLength - 1 < head.length := by
    rw [hlen]
    decide
  rw [List.getElem?_append_left (by rw [setFlag_length]; exact hlt), setFlag,
    List.getElem?_set_self hlt]

/-- The head that the servers send in front of `body`. -/
theorem headConforms_iff {head body : List UInt8} {names : List CStr}
    (hv : ValidRequest head names) (flag : UInt8) :
    HeadConforms head (setFlag head flag ++ body) (serialBit flag) ↔
      (CStr.pack names).length = body.length := by
  have htotal : wordAt (setFlag head flag ++ body) 0 =
      some (UInt32.ofNat (headLength + (CStr.pack names).length)) :=
    (wordAt_setFlag flag hv.headLen (by decide)).trans hv.total
  have hnat : (wordAt (setFlag head flag ++ body) 0).map UInt32.toNat =
      some (headLength + (CStr.pack names).length) := by
    rw [htotal, Option.map_some, toNat_ofNat_small hv.fits]
  have hlength : (setFlag head flag ++ body).length = headLength + body.length := by
    rw [List.length_append, setFlag_length, hv.headLen]
  constructor
  · intro h
    have hsame := h.total
    rw [hnat, hlength, Option.some.injEq] at hsame
    exact Nat.add_left_cancel hsame
  · intro h
    exact
      { total := by rw [hnat, hlength, h]
        magic := wordAt_setFlag flag hv.headLen (by decide)
        number := wordAt_setFlag flag hv.headLen (by decide)
        serial := by rw [setFlag_append_flag flag hv.headLen]; rfl }

/-! ## First replies -/

theorem serialBit_firstFlag (m : Nat) : serialBit (firstFlag m) = false := by
  unfold firstFlag
  split <;> rfl

theorem errorBit_firstFlag (m : Nat) : errorBit (firstFlag m) = decide (m = 0) := by
  unfold firstFlag
  split
  · rename_i hm
    rw [decide_eq_true hm]
    rfl
  · rename_i hm
    rw [decide_eq_false hm]
    rfl

/-- The flag tells of missed names. -/
theorem missNodes_length_ne_zero_iff (lookup : CStr → Option UInt32) (names : List CStr) :
    (missNodes lookup 0 names).length ≠ 0 ↔ ∃ k ∈ names, lookup k = none := by
  rw [Ne, List.length_eq_zero_iff, missNodes_eq_nil_iff]
  simp

/-- The body tells of missed names and of the failures in the cache. -/
theorem holdsFailure_iff {lookup : CStr → Option UInt32} {names : List CStr} {pre : List UInt8}
    (hpre : pre.length = headLength) :
    HoldsFailure (pre ++ (answers lookup names).flatMap le32) ↔
      (∃ k ∈ names, lookup k = none) ∨
        ∃ k ∈ names, lookup k = some cacheMiss ∨ lookup k = some dnsError := by
  have hword : ∀ w, (∃ i, wordAt (pre ++ (answers lookup names).flatMap le32) (headLength + 4 * i) =
      some w) ↔ ∃ k ∈ names, answer lookup k = w := by
    intro w
    rw [← hpre]
    simp only [wordAt_words]
    rw [← List.mem_iff_getElem?, answers, List.mem_map]
  have hmark : ∀ k, answer lookup k = cacheMiss ↔ lookup k = none ∨ lookup k = some cacheMiss := by
    intro k
    unfold answer
    cases lookup k <;> simp
  have herror : ∀ k, answer lookup k = dnsError ↔ lookup k = some dnsError := by
    intro k
    have hne : cacheMiss ≠ dnsError := by decide
    unfold answer
    cases lookup k <;> simp [hne]
  unfold HoldsFailure
  rw [exists_or, hword, hword]
  simp only [hmark, herror]
  constructor
  · rintro (⟨k, hk, h | h⟩ | ⟨k, hk, h⟩)
    · exact .inl ⟨k, hk, h⟩
    · exact .inr ⟨k, hk, .inl h⟩
    · exact .inr ⟨k, hk, .inr h⟩
  · rintro (⟨k, hk, h⟩ | ⟨k, hk, h | h⟩)
    · exact .inl ⟨k, hk, .inl h⟩
    · exact .inl ⟨k, hk, .inr h⟩
    · exact .inr ⟨k, hk, h⟩

theorem firstConforms_iff {head : List UInt8} {names : List CStr} (hv : ValidRequest head names)
    (lookup : CStr → Option UInt32) :
    FirstConforms head ((replyTo lookup head names).head ++ (replyTo lookup head names).body) ↔
      FirstExact lookup names := by
  have hhead := @headConforms_iff head ((answers lookup names).flatMap le32) names hv
    (firstFlag (missNodes lookup 0 names).length)
  rw [serialBit_firstFlag, answers_bytes_length] at hhead
  have hflag := @setFlag_append_flag head ((answers lookup names).flatMap le32)
    (firstFlag (missNodes lookup 0 names).length) hv.headLen
  have hbit : (((setFlag head (firstFlag (missNodes lookup 0 names).length) ++
      (answers lookup names).flatMap le32)[headLength - 1]?).map errorBit = some false) ↔
        ∃ k ∈ names, lookup k = none := by
    rw [hflag, Option.map_some, errorBit_firstFlag, Option.some.injEq, decide_eq_false_iff_not]
    exact missNodes_length_ne_zero_iff lookup names
  have hbody := @holdsFailure_iff lookup names
    (setFlag head (firstFlag (missNodes lookup 0 names).length))
    ((setFlag_length _ _).trans hv.headLen)
  -- without a missed name, the flag is right when the cache held no failure
  have hexact : ((∃ k ∈ names, lookup k = none) ↔ (∃ k ∈ names, lookup k = none) ∨
      ∃ k ∈ names, lookup k = some cacheMiss ∨ lookup k = some dnsError) ↔
        ((∃ k ∈ names, lookup k = none) ∨
          ∀ k ∈ names, lookup k ≠ some cacheMiss ∧ lookup k ≠ some dnsError) := by
    by_cases hmiss : ∃ k ∈ names, lookup k = none
    · simp only [hmiss, true_or]
    · simp only [hmiss, false_or, false_iff]
      push Not
      rfl
  unfold FirstExact
  rw [← hhead, ← hexact]
  constructor
  · intro h
    exact ⟨h.headOk, hbit.symm.trans (h.error.trans hbody)⟩
  · intro h
    exact ⟨h.1, hbit.trans (h.2.trans hbody.symm)⟩

/-! ## Second replies -/

theorem serialBit_secondFlag (miss : UInt8) : serialBit (secondFlag miss) = true := by
  unfold secondFlag
  split <;> rfl

theorem setFlag_setFlag (head : List UInt8) (flag flag' : UInt8) :
    setFlag (setFlag head flag) flag' = setFlag head flag' := List.set_set ..

theorem slotBytes_length (slots : List (Option (UInt32 × UInt32))) :
    (slots.flatMap slotBytes).length = 8 * slots.length := by
  induction slots with
  | nil => rfl
  | cons slot slots ih =>
      have hslot : (slotBytes slot).length = 8 := by
        cases slot <;> rfl
      rw [List.flatMap_cons, List.length_append, hslot, ih, List.length_cons]
      omega

variable {n : Nat} {kache : Kache} {udpBuf : List UInt8} {hn : 0 < n}
  {tr₁ : List Event} {s₁ : State n}

/-- A second reply that follows `replyTo`. -/
theorem secondConforms_iff {tr pre post : List Event} {s : State n} {r w : Nat}
    {head head₂ : List UInt8} {names : List CStr} {slots : List (Option (UInt32 × UInt32))}
    {lookup : CStr → Option UInt32} (hv : ValidRequest head names) (h : Runs kache udpBuf hn tr s)
    (htr : tr = pre ++ .secondReply w r head₂ slots :: post) (hfirst : secondReplies r pre = 0)
    (hreply : .firstReply r (replyTo lookup head names) ∈ tr) :
    SecondConforms head (head₂ ++ slots.flatMap slotBytes) ↔ SecondExact lookup names := by
  rw [htr] at h
  rcases first_second_reply h hfirst with ⟨s₁, q, hrun, hq, -, hhead, hslots⟩
  have hok := (runs_reqsOk hrun).reqs r q hq
  rcases hok.reply with ⟨reply, hiff, hqhead, hqnodes⟩
  -- the blocks the worker sends are those of the first reply
  have hsame : reply = replyTo lookup head names := by
    rw [htr] at hreply
    exact firstReply_unique h (List.mem_append_left _ ((hiff reply).mpr rfl)) hreply
  rw [hsame] at hqhead hqnodes
  have hhead₂ : head₂ = setFlag head (secondFlag q.miss) := by
    rw [hhead, ← hqhead]
    exact setFlag_setFlag _ _ _
  have hcount : slots.length = (names.filter fun k => (lookup k).isNone).length := by
    rw [hslots, hok.slots_length, ← hqnodes, ← missNodes_domain lookup 0, List.length_map]
    rfl
  have hconforms := @headConforms_iff head (slots.flatMap slotBytes) names hv (secondFlag q.miss)
  rw [serialBit_secondFlag, slotBytes_length, hcount] at hconforms
  rw [hhead₂]
  exact hconforms

/-! ## All replies to a request -/

/-- The replies to a valid request that arrives in any reachable state: the datagram's,
the connection's first, and the first that a worker sends in the run that follows. -/
theorem replies_conform_iff (hrun : Runs kache udpBuf hn tr₁ s₁) {head : List UInt8}
    {names : List CStr} (hv : ValidRequest head names) (now : Int) :
    (∀ sent s₂ evs reply, step s₁ (.datagram (head ++ CStr.pack names) now sent) = some (s₂, evs) →
      .udpReply reply ∈ evs →
      (FirstConforms head reply ↔ FirstExact (udpLookup s₁.kache now) names)) ∧
    ∀ cuts r s₂ evs reply, step s₁ (.serve r (requestSock head names cuts) now) = some (s₂, evs) →
      .firstReply r reply ∈ evs →
      (FirstConforms head (reply.head ++ reply.body) ↔
        FirstExact (tcpLookup s₁.kache now) names) ∧
      ∀ tr₂ s₃ pre post w head₂ slots, Run step (fun _ _ => True) s₂ tr₂ s₃ →
        tr₂ = pre ++ .secondReply w r head₂ slots :: post → secondReplies r pre = 0 →
        (SecondConforms head (head₂ ++ slots.flatMap slotBytes) ↔
          SecondExact (tcpLookup s₁.kache now) names) := by
  constructor
  · intro sent s₂ evs reply hstep hreply
    rcases Nat.lt_or_ge maxUdpLength (CStr.pack names).length with hlong | hmax
    · rw [step_datagram_none (udpRecv_too_long s₁.kache now s₁.udpBuf hv sent hlong)] at hstep
      simp at hstep
    · rcases udpRecv_valid s₁.kache now s₁.udpBuf hv sent hmax with ⟨b, hrecv⟩
      rcases step_datagram_answered hrecv hstep with ⟨-, -, rfl⟩
      rw [List.mem_singleton] at hreply
      cases hreply
      exact firstConforms_iff hv _
  · intro cuts r s₂ evs reply hstep hreply
    have hreplied := step_serve_firstReply hstep hreply
    have hreply' := replied_valid hv hreplied
    rcases step_serve_replied hreplied hstep with ⟨hnew, -, hevs⟩
    refine ⟨by rw [hreply']; exact firstConforms_iff hv _, ?_⟩
    intro tr₂ s₃ pre post w head₂ slots hrest htr hfirst
    have h : Runs kache udpBuf hn (tr₁ ++ evs ++ tr₂) s₃ :=
      (Run.snoc hrun trivial hstep).append hrest
    -- the number of the connection is new
    have hnone : secondReplies r (tr₁ ++ evs ++ pre) = 0 := by
      have hunknown := ((runs_reqsOk hrun).unknown r hnew).2
      have hevs₀ : secondReplies r evs = 0 := by
        rw [hevs]
        unfold secondReplies
        split <;> rfl
      rw [secondReplies_append, secondReplies_append, hunknown, hevs₀, hfirst]
    have hsplit : tr₁ ++ evs ++ tr₂ =
        tr₁ ++ evs ++ pre ++ .secondReply w r head₂ slots :: post := by
      rw [htr]
      simp only [List.append_assoc]
    refine secondConforms_iff hv h hsplit hnone ?_
    rw [← hreply']
    exact List.mem_append_left _ (List.mem_append_right _ hreply)

/-- `replies_conform_iff` at a connection for "xyz" with an empty cache, and its second reply. -/
theorem replies_conform_xyz :
    FirstConforms headXyz ((replyToOne nameXyz).head ++ (replyToOne nameXyz).body) ∧
      ¬ SecondConforms headXyz
        (secondHeadOne nameXyz secondWithoutError ++ [some (0, 5)].flatMap slotBytes) := by
  let s₁ : State 2 := State.start coldKache [] Nat.two_pos
  obtain ⟨r, hex, htrace⟩ : ∃ r, exec step s₁ (serveOne 1 nameXyz (some 5)) = some r ∧
      decide (r.2 = traceXyz) = true := (Option.any_eq_true _ _).mp (by decide +kernel)
  have htrace' := of_decide_eq_true htrace
  rcases Option.bind_eq_some_iff.mp hex with ⟨⟨s₂, evs⟩, hserve, hrest⟩
  rcases Option.map_eq_some_iff.mp hrest with ⟨r', hr', rfl⟩
  have hserv : serv s₁.kache 0 (requestSock headXyz [nameXyz] fun _ => headLength) =
      some (.replied (replyToOne nameXyz)) := by decide +kernel
  rcases step_serve_replied hserv hserve with ⟨-, -, hevs⟩
  have htr₂ : r'.2 = traceXyz.tail := by
    rw [← htrace', hevs]
    rfl
  have hrun : Runs coldKache [] Nat.two_pos [] s₁ := .nil
  have hconform := (replies_conform_iff hrun validRequest_xyz 0).2
    (fun _ => headLength) 1 s₂ evs (replyToOne nameXyz) hserve (by rw [hevs]; simp)
  have hlookup : tcpLookup s₁.kache 0 nameXyz = none := by decide +kernel
  constructor
  · refine hconform.1.mpr ⟨rfl, .inl ⟨nameXyz, List.mem_singleton_self _, hlookup⟩⟩
  · rw [hconform.2 r'.2 r'.1 (beforeReplyOne 1 nameXyz (some 5)).tail [.closed 1, .freed 1] 0 _ _
      (Run.of_exec (fun _ _ _ => trivial) hr') htr₂ (by decide)]
    have hone : ([nameXyz].filter fun k => (tcpLookup s₁.kache 0 k).isNone).length = 1 := by
      simp [hlookup]
    unfold SecondExact
    rw [hone]
    decide

/-- The second reply for "xyz", 21 bytes, announces 17; and with a failure for
"xyz" in the cache both servers send 127.0.0.1 under the flag of no error. -/
theorem replies_differ_xyz :
    (∃ tr s, Runs coldKache [] Nat.two_pos tr (s : State 2) ∧
      .secondReply 0 1 (secondHeadOne nameXyz secondWithoutError) [some (0, 5)] ∈ tr ∧
      ¬ SecondConforms headXyz
        (secondHeadOne nameXyz secondWithoutError ++ [some (0, 5)].flatMap slotBytes)) ∧
    ∃ kc, serv kc 0 (requestSock headXyz [nameXyz] fun _ => headLength) =
        some (.replied (replyTo (fun _ => some dnsError) headXyz [nameXyz])) ∧
      ¬ FirstConforms headXyz
        ((replyTo (fun _ => some dnsError) headXyz [nameXyz]).head ++
          (replyTo (fun _ => some dnsError) headXyz [nameXyz]).body) := by
  constructor
  · rcases runs_xyz with ⟨s, h⟩
    refine ⟨traceXyz, s, h, by simp [traceXyz], ?_⟩
    intro hconforms
    have htotal := hconforms.total
    revert htotal
    decide
  · refine ⟨kacheStore coldKache nameXyz ⟨dnsError, 0⟩, by decide +kernel, ?_⟩
    intro hconforms
    have hfailure : HoldsFailure ((replyTo (fun _ => some dnsError) headXyz [nameXyz]).head ++
        (replyTo (fun _ => some dnsError) headXyz [nameXyz]).body) := ⟨0, .inr (by decide)⟩
    have hbit := hconforms.error.mpr hfailure
    revert hbit
    decide

end DnsCache

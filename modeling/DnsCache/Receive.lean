import DnsCache.Serv

/-! # What `serv` accepts

The part of `serv` in front of `do_search`, for whatever a peer sends.

* `servReceive`: the receive loop with the store behind it.
* `servFront`: the refusals, and what is handed to `do_search`.
* `payloadReceived_iff`: when the payload is received inside its block.
* `frameSettled_iff`: when exactly the valid frames are handed on.
-/

namespace DnsCache

open CMem

/-! ## The functions -/

/-- The receive loop of `serv` and the NUL stored behind it: the connection,
`request_ptr` and the number of bytes read. -/
def servReceive (totalLength : UInt32) (sock : Sock) : Option (Sock × Block × Nat) := do
  let want := payloadLength totalLength
  let (sock', request, count) ← readUntil want (servStop totalLength) (sock.stream.length + 1)
    sock (Block.alloc want) 0
  let request ← forceNul request totalLength count
  return (sock', request, count)

/-- What becomes of a connection in front of `do_search`: closed for good, or
handed on, after that many calls of `close`. -/
inductive Front where
  | refused
  | searched (closed : Nat) (head : List UInt8) (request : Block) (rbuflen : Int32)
deriving DecidableEq, Repr

/-- `serv (connfd)` up to the call of `do_search`. With a total length of 0 the
descriptor is closed and used all the same: nothing more is read from it. -/
def servFront (sock : Sock) : Option Front :=
  let (head, sock) := sock.read headLength
  if head.length ≠ headLength then some .refused
  else do
    let totalLength ← wordAt head 0
    let magic ← wordAt head totalLengthLength
    if magic ≠ magicNumber then return .refused
    else
      let (sock, closed) :=
        if totalLength = 0 then ((⟨[], sock.cuts⟩ : Sock), 1) else (sock, 0)
      let (_, request, _) ← servReceive totalLength sock
      return .searched closed head request (totalLength - UInt32.ofNat headLength).toInt32

/-- The rest of `serv`. -/
def Front.serve (kc : Kache) (now : Int) : Front → Option Served
  | .refused => some .refused
  | .searched closed head request rbuflen =>
      if closed = 0 then (tcpDoSearch kc now head request rbuflen).map .replied else none

/-- `serv` is its front and the search. -/
theorem serv_eq_front (kc : Kache) (now : Int) {sock : Sock}
    (h : wordAt (sock.read headLength).1 0 ≠ some 0) :
    serv kc now sock = (servFront sock).bind (Front.serve kc now) := by
  unfold serv servFront
  dsimp only
  split
  · rfl
  · rcases hT : wordAt (sock.read headLength).1 0 with _ | T
    · rfl
    · have hT0 : ¬ T = 0 := by
        intro h0
        rw [hT, h0] at h
        exact h rfl
      simp only [if_neg hT0, Option.bind_eq_bind, Option.bind_some, Option.pure_def]
      rcases wordAt (sock.read headLength).1 totalLengthLength with _ | magic
      · rfl
      · simp only [Option.bind_some]
        split
        · rfl
        · simp only [servReceive, payloadLength, Option.bind_eq_bind, Option.pure_def,
            Option.bind_assoc, Option.bind_some, Front.serve, if_true]
          congr 1
          funext r
          congr 1
          funext request
          rw [Option.map_eq_bind]
          rfl

/-! ## The receive loop -/

theorem payloadLength_eq {T : UInt32} (h : headLength < T.toNat) :
    payloadLength T = T.toNat - headLength := by
  have hle : UInt32.ofNat headLength ≤ T := UInt32.le_iff_toNat_le.mpr (Nat.le_of_lt h)
  rw [payloadLength, UInt32.toNat_sub_of_le _ _ hle]
  rfl

/-- The loop stays inside `request_ptr`, and when it is left by `break` the
block holds the first bytes of the stream, the last one replaced by a NUL. -/
def PayloadReceived (totalLength : UInt32) (sock : Sock) : Prop :=
  ∃ sock' request count, servReceive totalLength sock = some (sock', request, count) ∧
    count ≤ payloadLength totalLength ∧
    (totalLength.toNat ≤ headLength + count →
      request.bytes = sock.stream.take (payloadLength totalLength - 1) ++ [0])

/-- The stream ends with the payload at the latest, or some number of reads
ends there; and the counter, an `int` with the head in it, does not leave its range. -/
def ReadsFit (totalLength : UInt32) (sock : Sock) : Prop :=
  headLength + min sock.stream.length (payloadLength totalLength) ≤ intMax ∧
    (sock.stream.length ≤ payloadLength totalLength ∨
      ∃ j, sock.reach (payloadLength totalLength) j = payloadLength totalLength)

theorem servStop_eq {T : UInt32} (h : headLength < T.toNat) (c : Nat) :
    servStop T c = if c ≤ intMax - headLength then some (decide (payloadLength T ≤ c)) else none := by
  have hmax : intMax = 2147483647 := rfl
  rw [servStop, payloadLength_eq h]
  rw [headLength_eq] at h ⊢
  by_cases hc : 13 + c ≤ intMax
  · rw [if_pos hc, if_pos (by omega), Option.some.injEq, decide_eq_decide]
    omega
  · rw [if_neg hc, if_neg (by omega)]

theorem payloadLength_pos {T : UInt32} (h : headLength < T.toNat) : 0 < payloadLength T := by
  rw [payloadLength_eq h]
  omega

/-- The store of the NUL falls on the last byte of a payload that has been read. -/
theorem forceNul_whole {T : UInt32} {request : Block} {count : Nat} (h : headLength < T.toNat)
    (hcap : request.cap = payloadLength T) (hlen : request.bytes.length = payloadLength T)
    (hcount : T.toNat ≤ headLength + count) :
    ∃ request', forceNul request T count = some request' ∧
      request'.bytes = request.bytes.take (payloadLength T - 1) ++ [0] := by
  have hpos := payloadLength_pos h
  have hwant := payloadLength_eq h
  rw [headLength_eq] at h hwant hcount
  have hoff : T.toNat - 13 - 1 = payloadLength T - 1 := by omega
  have hfits : payloadLength T - 1 + ([0] : List UInt8).length ≤ request.cap := by
    rw [hcap]
    exact Nat.le_of_eq (Nat.sub_add_cancel hpos)
  rcases Option.isSome_iff_exists.mp (Block.write_isSome (show payloadLength T - 1 ≤
    request.bytes.length by omega) hfits) with ⟨request', hwrite⟩
  refine ⟨request', ?_, ?_⟩
  · rw [forceNul, headLength_eq, if_pos ⟨by omega, hcount⟩, if_neg (by omega), hoff]
    exact hwrite
  · rw [(Block.write_eq_some_iff.mp hwrite).2.2.2, patch, List.append_assoc]
    rw [List.drop_eq_nil_of_le (by rw [List.length_singleton]; omega), List.append_nil]

/-- Reads that fit are received. -/
theorem payloadReceived_of_fits {T : UInt32} {sock : Sock} (h : headLength < T.toNat)
    (hfits : ReadsFit T sock) : PayloadReceived T sock := by
  have hwant := payloadLength_eq h
  have hpos := payloadLength_pos h
  have hsome := (readUntil_fits_iff (servStop_eq h) hpos).mpr
    ⟨by have := hfits.1; omega, hfits.2⟩
  rcases Option.isSome_iff_exists.mp hsome with ⟨⟨sock', block, count⟩, hread⟩
  rcases readUntil_spec hpos hread with ⟨j, hcount, -, hcap, hbytes, -, -⟩
  have hzero : block.bytes = sock.stream.take count := by
    rw [hbytes, Nat.sub_zero, patch_zero]
    show sock.stream.take count ++ List.drop _ [] = _
    rw [List.drop_nil, List.append_nil]
  have hle : count ≤ payloadLength T := by
    have hfit := block.fits
    rw [hzero, hcap, List.length_take] at hfit
    have hcap' : (Block.alloc (payloadLength T)).cap = payloadLength T := rfl
    omega
  by_cases hbreak : T.toNat ≤ headLength + count
  · have hall : count = payloadLength T := by omega
    have hlen : block.bytes.length = payloadLength T := by
      rw [hzero, List.length_take]
      omega
    rcases forceNul_whole h hcap hlen hbreak with ⟨request, hnul, hrequest⟩
    refine ⟨sock', request, count, ?_, hle, fun _ => ?_⟩
    · unfold servReceive
      simp only [hread, Option.bind_eq_bind, Option.bind_some, hnul, Option.pure_def]
    · rw [hrequest, hzero, hall, List.take_take, Nat.min_eq_left (Nat.sub_le _ _)]
  · have hnul : forceNul block T count = some block := by
      rw [forceNul, if_neg (fun hand => hbreak hand.2)]
    refine ⟨sock', block, count, ?_, hle, fun h => absurd h hbreak⟩
    unfold servReceive
    simp only [hread, Option.bind_eq_bind, Option.bind_some, hnul, Option.pure_def]

theorem readsFit_of_servReceive {T : UInt32} {sock : Sock} (h : headLength < T.toNat)
    (hsome : (servReceive T sock).isSome) : ReadsFit T sock := by
  have hwant := payloadLength_eq h
  have hmax : intMax = 2147483647 := rfl
  rcases Option.isSome_iff_exists.mp hsome with ⟨r, hr⟩
  unfold servReceive at hr
  rcases Option.bind_eq_some_iff.mp hr with ⟨r', hread, -⟩
  rcases (readUntil_fits_iff (servStop_eq h) (payloadLength_pos h)).mp
    (Option.isSome_iff_exists.mpr ⟨r', hread⟩) with ⟨hlimit, hends⟩
  refine ⟨?_, hends⟩
  rw [headLength_eq] at hlimit ⊢
  omega

/-- Whatever is sent and however it is cut: the payload is received inside its
block exactly when the reads fit. The number of bytes asked for is never reduced. -/
theorem payloadReceived_iff (totalLength : UInt32) (sock : Sock)
    (h : headLength < totalLength.toNat) :
    PayloadReceived totalLength sock ↔ ReadsFit totalLength sock := by
  constructor
  · rintro ⟨sock', request, count, hreceive, -⟩
    exact readsFit_of_servReceive h (by rw [hreceive]; rfl)
  · exact payloadReceived_of_fits h

/-- A payload of four bytes with two more behind it, in pieces of three: the
second piece leaves the block. -/
theorem receive_overrun :
    ¬ PayloadReceived 17 ⟨[97, 98, 99, 0, 17, 0], fun _ => 3⟩ := by
  rintro ⟨sock', request, count, hreceive, -⟩
  have hnone : servReceive 17 ⟨[97, 98, 99, 0, 17, 0], fun _ => 3⟩ = none := by decide +kernel
  rw [hnone] at hreceive
  simp at hreceive

/-- `payloadReceived_iff` for the same bytes in pieces of two. -/
theorem payloadReceived_iff_twos :
    PayloadReceived 17 ⟨[97, 98, 99, 0, 17, 0], fun _ => 2⟩ ↔
      ReadsFit 17 ⟨[97, 98, 99, 0, 17, 0], fun _ => 2⟩ :=
  payloadReceived_iff 17 _ (by decide)

/-! ## Frames -/

/-- A whole request at the start of the stream: a head with the magic number
that announces more than a head, and all the bytes it announces. -/
def ValidFrame (stream : List UInt8) : Prop :=
  ∃ T, wordAt stream 0 = some T ∧ wordAt stream totalLengthLength = some magicNumber ∧
    headLength < T.toNat ∧ T.toNat ≤ stream.length

/-- `do_search` is called for a valid frame, on the open descriptor; any other
connection is closed once and not used any more. -/
def FrameSettled (sock : Sock) : Prop :=
  (ValidFrame sock.stream →
    ∃ head request rbuflen, servFront sock = some (.searched 0 head request rbuflen)) ∧
  (¬ ValidFrame sock.stream → servFront sock = some .refused)

/-- The first read takes the head. -/
def HeadRead (sock : Sock) : Prop := (sock.read headLength).1.length = headLength

section Frames

variable {sock : Sock} {T magic : UInt32}

/-- A head that is read at once stands at the start of the stream. -/
theorem HeadRead.wordAt_head (h : HeadRead sock) {off : Nat} (hoff : off + 4 ≤ headLength) :
    wordAt (sock.read headLength).1 off = wordAt sock.stream off := by
  have hsplit : (sock.read headLength).1 ++ (sock.read headLength).2.stream = sock.stream :=
    List.take_append_drop _ _
  rw [← hsplit, wordAt_append (by rw [h]; exact hoff)]

theorem HeadRead.length_rest (h : HeadRead sock) :
    headLength + (sock.read headLength).2.stream.length = sock.stream.length := by
  have hsplit : (sock.read headLength).1 ++ (sock.read headLength).2.stream = sock.stream :=
    List.take_append_drop _ _
  have hlen := congrArg List.length hsplit
  rwa [List.length_append, h] at hlen

theorem servFront_short (h : ¬ HeadRead sock) : servFront sock = some .refused := by
  have hlen : (sock.read headLength).1.length ≠ headLength := h
  unfold servFront
  simp only [if_pos hlen]

theorem servFront_magic (h : HeadRead sock) (hT : wordAt sock.stream 0 = some T)
    (hm : wordAt sock.stream totalLengthLength = some magic) (hne : magic ≠ magicNumber) :
    servFront sock = some .refused := by
  have hlen : ¬ (sock.read headLength).1.length ≠ headLength := not_not.mpr h
  have hT' := (h.wordAt_head (show 0 + 4 ≤ 13 by decide)).trans hT
  have hm' := (h.wordAt_head (show totalLengthLength + 4 ≤ 13 by decide)).trans hm
  unfold servFront
  simp only [if_neg hlen, hT', hm', Option.bind_eq_bind, Option.bind_some, if_pos hne,
    Option.pure_def]

/-- Behind the magic number nothing is refused any more. -/
theorem servFront_searched (h : HeadRead sock) (hT : wordAt sock.stream 0 = some T)
    (hm : wordAt sock.stream totalLengthLength = some magicNumber) :
    servFront sock =
      if T = 0 then (servReceive 0 ⟨[], (sock.read headLength).2.cuts⟩).map fun r =>
        .searched 1 (sock.read headLength).1 r.2.1 (0 - UInt32.ofNat headLength).toInt32
      else (servReceive T (sock.read headLength).2).map fun r =>
        .searched 0 (sock.read headLength).1 r.2.1 (T - UInt32.ofNat headLength).toInt32 := by
  have hlen : ¬ (sock.read headLength).1.length ≠ headLength := not_not.mpr h
  have hT' := (h.wordAt_head (show 0 + 4 ≤ 13 by decide)).trans hT
  have hm' := (h.wordAt_head (show totalLengthLength + 4 ≤ 13 by decide)).trans hm
  unfold servFront
  simp only [if_neg hlen, hT', hm', Option.bind_eq_bind, Option.bind_some, ne_eq,
    not_true_eq_false, if_false, Option.pure_def, Option.map_eq_bind]
  by_cases h0 : T = 0
  · simp only [h0, if_true]
    rfl
  · simp only [if_neg h0]
    rfl

theorem servFront_searched_ne (h : HeadRead sock) (hT : wordAt sock.stream 0 = some T)
    (hm : wordAt sock.stream totalLengthLength = some magicNumber) :
    servFront sock ≠ some .refused := by
  rw [servFront_searched h hT hm]
  split
  · simp
  · simp

/-- The valid frames are those that are told apart by their head and length. -/
theorem validFrame_iff (hT : wordAt sock.stream 0 = some T)
    (hm : wordAt sock.stream totalLengthLength = some magic) :
    ValidFrame sock.stream ↔
      magic = magicNumber ∧ headLength < T.toNat ∧ T.toNat ≤ sock.stream.length := by
  constructor
  · rintro ⟨T', hT', hm', hhead, hlen⟩
    rw [hT, Option.some.injEq] at hT'
    rw [hm, Option.some.injEq] at hm'
    rw [← hT'] at hhead hlen
    exact ⟨hm', hhead, hlen⟩
  · rintro ⟨hmagic, hhead, hlen⟩
    exact ⟨T, hT, by rw [hm, hmagic], hhead, hlen⟩

/-- When a connection is treated as it should be. -/
def FrameFits (sock : Sock) : Prop :=
  -- refused
  (¬ HeadRead sock ∧ ¬ ValidFrame sock.stream) ∨
  (HeadRead sock ∧ wordAt sock.stream totalLengthLength ≠ some magicNumber) ∨
  -- searched
  (HeadRead sock ∧ ∃ T, wordAt sock.stream 0 = some T ∧
    wordAt sock.stream totalLengthLength = some magicNumber ∧ headLength < T.toNat ∧
    T.toNat ≤ sock.stream.length ∧ ReadsFit T (sock.read headLength).2)

/-- Behind the magic number: the frame must be valid and its reads fit. -/
theorem frameSettled_magic (h : HeadRead sock) (hT : wordAt sock.stream 0 = some T)
    (hm : wordAt sock.stream totalLengthLength = some magicNumber) :
    FrameSettled sock ↔ headLength < T.toNat ∧ T.toNat ≤ sock.stream.length ∧
      ReadsFit T (sock.read headLength).2 := by
  have hne := servFront_searched_ne h hT hm
  have hvalid := validFrame_iff hT hm
  constructor
  · rintro ⟨hsearched, hrefused⟩
    by_cases hv : ValidFrame sock.stream
    · rcases hvalid.mp hv with ⟨-, hhead, hlen⟩
      have hT0 : ¬ T = 0 := by
        intro h0
        rw [h0] at hhead
        simp at hhead
      rcases hsearched hv with ⟨head, request, rbuflen, hfront⟩
      rw [servFront_searched h hT hm, if_neg hT0] at hfront
      rcases Option.map_eq_some_iff.mp hfront with ⟨r, hreceive, -⟩
      exact ⟨hhead, hlen, readsFit_of_servReceive hhead (by rw [hreceive]; rfl)⟩
    · exact absurd (hrefused hv) hne
  · rintro ⟨hhead, hlen, hfits⟩
    have hT0 : ¬ T = 0 := by
      intro h0
      rw [h0] at hhead
      simp at hhead
    refine ⟨fun _ => ?_, fun hv => absurd (hvalid.mpr ⟨rfl, hhead, hlen⟩) hv⟩
    rcases payloadReceived_of_fits hhead hfits with ⟨sock', request, count, hreceive, -⟩
    rw [servFront_searched h hT hm, if_neg hT0, hreceive]
    exact ⟨_, _, _, rfl⟩

end Frames

/-- Whatever is sent and however it is cut: a connection is settled as its frame
demands exactly in these cases. A first read that is short, a length that is not
checked and a payload that ends early are the others. -/
theorem frameSettled_iff (sock : Sock) : FrameSettled sock ↔ FrameFits sock := by
  by_cases hread : HeadRead sock
  · have hlen := hread.length_rest
    rw [headLength_eq] at hlen
    rcases exists_wordAt (show 0 + 4 ≤ sock.stream.length by omega) with ⟨T, hT⟩
    rcases exists_wordAt (show totalLengthLength + 4 ≤ sock.stream.length by
      rw [totalLengthLength]; omega) with ⟨magic, hm⟩
    by_cases hmagic : magic = magicNumber
    · rw [hmagic] at hm
      rw [frameSettled_magic hread hT hm]
      constructor
      · rintro ⟨hhead, hle, hfits⟩
        exact Or.inr (Or.inr ⟨hread, T, hT, hm, hhead, hle, hfits⟩)
      · rintro (⟨hnot, -⟩ | ⟨-, hne⟩ | ⟨-, T', hT', -, hhead, hle, hfits⟩)
        · exact absurd hread hnot
        · exact absurd hm hne
        · rw [hT, Option.some.injEq] at hT'
          rw [hT']
          exact ⟨hhead, hle, hfits⟩
    · -- refused, and not a frame
      have hrefused := servFront_magic hread hT hm hmagic
      have hinvalid : ¬ ValidFrame sock.stream := fun hv => hmagic ((validFrame_iff hT hm).mp hv).1
      have hne : wordAt sock.stream totalLengthLength ≠ some magicNumber := by
        rw [hm]
        exact fun h => hmagic (Option.some.inj h)
      exact ⟨fun _ => Or.inr (Or.inl ⟨hread, hne⟩),
        fun _ => ⟨fun hv => absurd hv hinvalid, fun _ => hrefused⟩⟩
  · have hrefused := servFront_short hread
    constructor
    · rintro ⟨hsearched, -⟩
      refine Or.inl ⟨hread, fun hv => ?_⟩
      rcases hsearched hv with ⟨head, request, rbuflen, hfront⟩
      rw [hrefused] at hfront
      simp at hfront
    · rintro (⟨-, hinvalid⟩ | ⟨hyes, -⟩ | ⟨hyes, -⟩)
      · exact ⟨fun hv => absurd hv hinvalid, fun _ => hrefused⟩
      · exact absurd hyes hread
      · exact absurd hyes hread

/-- `frameSettled_iff` for a frame with two bytes behind it, its payload in three reads. -/
theorem frameSettled_three : FrameSettled
    ⟨requestBytes threeNames ++ [1, 2], fun i => if i = 0 then headLength else 4⟩ := by
  refine (frameSettled_iff _).mpr (.inr (.inr ⟨?_, 25, ?_, ?_, by decide, by decide +kernel,
    by decide +kernel, .inr ⟨3, ?_⟩⟩))
  · show List.length _ = _
    decide +kernel
  · decide +kernel
  · decide +kernel
  · decide +kernel

/-- The head of a request without a payload. -/
def bareHead : List UInt8 := buildHead 13

/-- It is no valid frame, and it is searched. -/
theorem bareHead_searched :
    ¬ ValidFrame bareHead ∧
      servFront ⟨bareHead, fun _ => 13⟩ = some (.searched 0 bareHead (Block.alloc 0) 0) ∧
      ¬ FrameSettled ⟨bareHead, fun _ => 13⟩ := by
  have hfront : servFront ⟨bareHead, fun _ => 13⟩ =
      some (.searched 0 bareHead (Block.alloc 0) 0) := by decide +kernel
  have hinvalid : ¬ ValidFrame bareHead := by
    rintro ⟨T, hT, -, hhead, -⟩
    have hT' : wordAt bareHead 0 = some 13 := by decide +kernel
    rw [hT', Option.some.injEq] at hT
    rw [← hT] at hhead
    exact absurd hhead (by decide)
  refine ⟨hinvalid, hfront, ?_⟩
  rintro ⟨-, hrefused⟩
  have h := hfront.symm.trans (hrefused hinvalid)
  simp at h

end DnsCache

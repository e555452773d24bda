import DnsCache.Client

/-! # How the stream is cut

Each read loop of the client asks for the whole message again after a partial
read, so a read may run into the second reply.

* `Replies`: what a server sends for `n` names.
* `SplitHarmless`: the calls are those of the reference for all replies of one shape.
* `split_harmless_iff`: this is so exactly when the reads of the first reply
  happen to end with it (or no second reply follows) and the lengths are `int`s.
-/

open scoped BigOperators

namespace DnsCache

open CMem

/-! ## The server's stream -/

/-- What a server sends for `n` names: the head of the first reply up to its
flag, the address words and, when the flag announces it, a second reply with
its head and an address for each missed name. -/
structure Replies (n : Nat) where
  head : List UInt8
  words : List UInt32
  second : Option (List UInt8 × List UInt32)
  head_length : head.length = headLength - 1
  words_length : words.length = n
  second_ok : ∀ s, second = some s → s.1.length = headLength ∧
    s.2.length = (missedAt 0 words).length ∧ missedAt 0 words ≠ []

namespace Replies

variable {n : Nat}

/-- The flag of the first reply. -/
def flag (r : Replies n) : UInt8 :=
  if r.second.isSome then firstWithError else firstWithoutError

/-- The bytes of the first reply. -/
def first (r : Replies n) : List UInt8 := r.head ++ r.flag :: r.words.flatMap le32

/-- The bytes of the second reply, if there is one. -/
def rest (r : Replies n) : List UInt8 :=
  match r.second with
  | none => []
  | some (head, ips) => head ++ pairBytes ((missedAt 0 r.words).zip ips)

/-- The same flag and, when a second reply follows, the same names missed. -/
def SameShape (r r₀ : Replies n) : Prop :=
  r.second.isSome = r₀.second.isSome ∧
    (r.second.isSome → missedAt 0 r.words = missedAt 0 r₀.words)

end Replies

/-- For all replies of the shape of `r₀`: the client stays inside `retbuf` and
its calls are those of the reference. -/
def SplitHarmless (names : List CStr) (index : List UInt32) (cuts : Nat → Nat)
    (r₀ : Replies names.length) : Prop :=
  ∀ r : Replies names.length, r.SameShape r₀ → ∃ calls,
    tcpDecode (CStr.pack names) index names.length ⟨r.first ++ r.rest, cuts⟩ = some calls ∧
    decodeSeparately (CStr.pack names) index names.length r.first r.rest = some calls

/-- The lengths that the client keeps in an `int` fit, and the reads of a first
reply that a second one follows end exactly with it. -/
def SplitOk (names : List CStr) (cuts : Nat → Nat) (r₀ : Replies names.length) : Prop :=
  firstLength names.length ≤ intMax ∧
    if r₀.second.isSome then
      secondLength (missedAt 0 r₀.words).length ≤ intMax ∧
        ∃ j, ∑ i ∈ Finset.range j, min (firstLength names.length) (max 1 (cuts i)) =
          firstLength names.length
    else (CStr.pack names).length ≤ intMax

/-! ## The reference -/

theorem toNat_lt_of_mem_missedAt {i : Nat} {ws : List UInt32} {p : UInt32}
    (h : p ∈ missedAt i ws) : p.toNat < i + ws.length := by
  induction ws generalizing i with
  | nil => simp [missedAt] at h
  | cons w ws ih =>
      have hmod : (UInt32.ofNat i).toNat ≤ i := by
        rw [UInt32.toNat_ofNat']
        exact Nat.mod_le _ _
      rw [missedAt] at h
      rw [List.length_cons]
      split at h
      · rcases List.mem_cons.mp h with rfl | h
        · omega
        · have := ih h
          omega
      · have := ih h
        omega

section Reply

variable {names : List CStr} {index : List UInt32} {cuts : Nat → Nat}

namespace Replies

variable {n : Nat} (r : Replies n)

theorem first_length : r.first.length = firstLength n := by
  simp only [first, List.length_append, List.length_cons, r.head_length, words_bytes_length,
    r.words_length, firstLength, headLength_eq]
  omega

theorem rest_none (h : r.second = none) : r.rest = [] := by
  rw [rest, h]

theorem rest_some {s : List UInt8 × List UInt32} (h : r.second = some s) :
    r.rest = s.1 ++ pairBytes ((missedAt 0 r.words).zip s.2) := by
  rw [rest, h]

theorem zip_length {s : List UInt8 × List UInt32} (h : r.second = some s) :
    ((missedAt 0 r.words).zip s.2).length = (missedAt 0 r.words).length := by
  rw [List.length_zip, (r.second_ok s h).2.1, Nat.min_self]

theorem rest_length {s : List UInt8 × List UInt32} (h : r.second = some s) :
    r.rest.length = secondLength (missedAt 0 r.words).length := by
  rw [r.rest_some h, List.length_append, (r.second_ok s h).1, pairBytes_length, r.zip_length h]
  rfl

theorem flag_at (t : List UInt8) : (r.first ++ t)[headLength - 1]? = some r.flag := by
  rw [first, List.append_assoc, ← r.head_length, List.getElem?_append_right (Nat.le_refl _),
    Nat.sub_self]
  rfl

theorem words_at (t : List UInt8) :
    (r.first ++ t).drop (headLength + 4 * 0) = r.words.flatMap le32 ++ t := by
  have hsplit : r.first ++ t = (r.head ++ [r.flag]) ++ (r.words.flatMap le32 ++ t) := by
    simp [first]
  rw [hsplit]
  apply List.drop_left'
  rw [List.length_append, r.head_length]
  rfl

theorem pairs_at {s : List UInt8 × List UInt32} (h : r.second = some s) (t : List UInt8) :
    (r.rest ++ t).drop (headLength + 8 * 0) =
      pairBytes ((missedAt 0 r.words).zip s.2) ++ t := by
  rw [r.rest_some h, List.append_assoc]
  apply List.drop_left'
  rw [(r.second_ok s h).1]
  rfl

end Replies

/-- Every pair of a second reply has a name. -/
theorem indexed_pairs {n : Nat} (r : Replies n) {buf : List UInt8} (hidx : Indexed buf index n)
    (ips : List UInt32) :
    ∀ p ∈ (missedAt 0 r.words).zip ips, (callIndexed buf index p.1.toNat p.2).isSome := by
  intro p hp
  have hmem : p.1 ∈ missedAt 0 r.words := (List.of_mem_zip hp).1
  have hlt := toNat_lt_of_mem_missedAt hmem
  rw [Nat.zero_add, r.words_length] at hlt
  exact hidx _ hlt p.2

/-- The words of a first reply, with anything behind them in the buffer. -/
theorem firstPass_reply (hidx : Indexed (CStr.pack names) index names.length)
    (r : Replies names.length) (t : List UInt8) :
    firstPass (CStr.pack names) index (r.first ++ t) names.length 0 =
      some (hitCalls (CStr.pack names) index 0 r.words, (missedAt 0 r.words).length) := by
  have h := @firstPass_eq (CStr.pack names) (r.first ++ t) t index 0 r.words
    (by rw [r.words_length, Nat.zero_add]; exact hidx) (r.words_at t)
  rwa [r.words_length] at h

/-- The pairs of a second reply, with anything behind them in the buffer. -/
theorem secondPass_reply (hidx : Indexed (CStr.pack names) index names.length)
    (r : Replies names.length) {s : List UInt8 × List UInt32} (hs : r.second = some s)
    (t : List UInt8) :
    secondPass (CStr.pack names) index (r.rest ++ t) (missedAt 0 r.words).length 0 =
      some (pairCalls (CStr.pack names) index ((missedAt 0 r.words).zip s.2)) := by
  have h := secondPass_eq (indexed_pairs r hidx s.2) (r.pairs_at hs t)
  rwa [r.zip_length hs] at h

/-- The calls for a first reply that no second one follows. -/
theorem callAll_reply (r : Replies names.length) :
    callAll (CStr.pack names) r.first names.length 0 0 =
      if (CStr.pack names).length ≤ intMax then some (zipCalls 0 names r.words) else none := by
  have hwords := r.words_at []
  rw [List.append_nil] at hwords
  have hcall := @callAll_eq (CStr.pack names) r.first [] [] names r.words 0 0 (by simp) hwords
    r.words_length (Nat.zero_le _)
  rwa [Nat.zero_add] at hcall

/-- The reference, when no second reply follows. -/
theorem decodeSeparately_none (r : Replies names.length) (h : r.second = none) :
    decodeSeparately (CStr.pack names) index names.length r.first r.rest =
      callAll (CStr.pack names) r.first names.length 0 0 := by
  have hflag := r.flag_at []
  rw [List.append_nil] at hflag
  have hnone : r.flag = firstWithoutError := by
    rw [Replies.flag, h]
    rfl
  rw [decodeSeparately, hflag, hnone]
  rfl

/-- The reference, when a second reply follows. -/
theorem decodeSeparately_some (hidx : Indexed (CStr.pack names) index names.length)
    (r : Replies names.length) {s : List UInt8 × List UInt32} (hs : r.second = some s) :
    decodeSeparately (CStr.pack names) index names.length r.first r.rest =
      some (hitCalls (CStr.pack names) index 0 r.words ++
        pairCalls (CStr.pack names) index ((missedAt 0 r.words).zip s.2)) := by
  have hflag := r.flag_at []
  have hfirst := firstPass_reply hidx r []
  have hsecond := secondPass_reply hidx r hs []
  rw [List.append_nil] at hflag hfirst hsecond
  have hsome : r.flag = firstWithError := by
    rw [Replies.flag, hs]
    rfl
  rw [decodeSeparately, hflag, hsome]
  simp only [Option.bind_eq_bind, Option.bind_some, hfirst, hsecond, Option.pure_def]
  rfl

/-! ## The two read loops -/

theorem clientStop_go {want c : Nat} (hc : c < want) (hint : want ≤ intMax) :
    clientStop want c = some false := by
  rw [clientStop, if_pos (by omega), decide_eq_false (by omega)]

theorem clientStop_end {want : Nat} (hint : want ≤ intMax) : clientStop want want = some true := by
  rw [clientStop, if_pos hint, decide_eq_true (Nat.le_refl _)]

theorem clientStop_isSome {want c : Nat} (h : (clientStop want c).isSome) : c ≤ intMax := by
  rw [clientStop] at h
  split at h
  · assumption
  · simp at h

theorem clientStop_true {want c : Nat} (h : clientStop want c = some true) : want ≤ c := by
  rw [clientStop] at h
  split at h
  · simpa using h
  · simp at h

/-- A message that ends the stream is read whole, however it is cut, into the
start of the buffer. -/
theorem readReply_last {want : Nat} {sock : Sock} {retbuf : Block} (hwant : 0 < want)
    (hlen : sock.stream.length = want) (hint : want ≤ intMax) (hcap : want ≤ retbuf.cap) :
    ∃ sock' retbuf', readReply want sock retbuf = some (sock', retbuf', want) ∧
      retbuf'.bytes = patch retbuf.bytes 0 sock.stream := by
  rcases @readUntil_all want (clientStop want) (sock.stream.length + 1) sock retbuf 0 hwant
      (Nat.lt_succ_self _) (Nat.zero_le _) (by omega)
      (by intro c _ hc; exact clientStop_go (by omega) hint)
      (by intro _; rw [Nat.zero_add, hlen, clientStop_end hint]; rfl) with
    ⟨sock', retbuf', hrun, -, -, hbytes⟩
  rw [Nat.zero_add] at hrun
  refine ⟨sock', retbuf', ?_, hbytes⟩
  rw [readReply, hrun, hlen]

/-- What the first read loop leaves: at least the first reply, and whatever of
the second one its last read ran into. -/
theorem readReply_first {n cap count : Nat} (r : Replies n) {sock : Sock} {retbuf : Block}
    (h : readReply (firstLength n) ⟨r.first ++ r.rest, cuts⟩ (Block.alloc cap) =
      some (sock, retbuf, count)) :
    firstLength n ≤ count ∧ count ≤ intMax ∧
      (∃ j, count = min (firstLength n + r.rest.length)
        (∑ i ∈ Finset.range j, min (firstLength n) (max 1 (cuts i)))) ∧
      sock.stream = r.rest.drop (count - firstLength n) ∧
      retbuf.bytes = r.first ++ r.rest.take (count - firstLength n) := by
  rcases readUntil_spec (firstLength_pos n) h with
    ⟨j, hcount, hstream, -, hbytes, hsome, hwhy⟩
  have hlen : (r.first ++ r.rest).length = firstLength n + r.rest.length := by
    rw [List.length_append, r.first_length]
  have hne : r.first ++ r.rest ≠ [] := by
    intro hnil
    rw [hnil, List.length_nil] at hlen
    have := firstLength_pos n
    omega
  rw [Nat.zero_add, hlen] at hcount
  have hle : firstLength n ≤ count := by
    rcases hwhy with hempty | htrue
    · rw [hstream, Nat.sub_zero] at hempty
      have hdrop : (r.first ++ r.rest).length ≤ count := List.drop_eq_nil_iff.mp hempty
      omega
    · exact clientStop_true htrue
  refine ⟨hle, ?_, ⟨j, hcount⟩, ?_, ?_⟩
  · rcases hsome with hempty | hsome
    · exact absurd hempty hne
    · exact clientStop_isSome hsome
  · rw [hstream, Nat.sub_zero, List.drop_append, List.drop_eq_nil_of_le (by rw [r.first_length]; omega),
      r.first_length, List.nil_append]
  · rw [hbytes, Nat.sub_zero, List.take_append, List.take_of_length_le (by rw [r.first_length]; omega),
      r.first_length]
    simp [patch, Block.alloc]

/-- What the second read loop leaves of a stream that is not longer than it
asks for: the whole of it, and zeros behind. -/
theorem readReply_second {m cap count : Nat} {sock sock' : Sock} {retbuf : Block}
    (hlen : sock.stream.length ≤ secondLength m)
    (h : readReply (secondLength m) sock (zeroed cap) = some (sock', retbuf, count)) :
    retbuf.bytes = sock.stream ++ List.replicate (cap - sock.stream.length) 0 ∧
      (sock.stream = [] ∨ sock.stream.length ≤ intMax) := by
  rcases readUntil_spec (secondLength_pos m) h with
    ⟨j, hcount, hstream, -, hbytes, hsome, hwhy⟩
  have hall : count = sock.stream.length := by
    rcases hwhy with hempty | htrue
    · rw [hstream, Nat.sub_zero] at hempty
      have := List.drop_eq_nil_iff.mp hempty
      omega
    · have := clientStop_true htrue
      omega
  constructor
  · rw [hbytes, hall, Nat.sub_zero, List.take_length, patch, List.take_zero, Nat.zero_add]
    show [] ++ sock.stream ++ (List.replicate cap 0).drop sock.stream.length = _
    rw [List.drop_replicate, List.nil_append]
  · rcases hsome with hempty | hsome
    · exact Or.inl hempty
    · right
      rw [← hall]
      exact clientStop_isSome hsome

/-! ## From the condition to the calls -/

theorem tcpDecode_none (r : Replies names.length) (h : r.second = none)
    (hint : firstLength names.length ≤ intMax) :
    tcpDecode (CStr.pack names) index names.length ⟨r.first ++ r.rest, cuts⟩ =
      callAll (CStr.pack names) r.first names.length 0 0 := by
  rw [r.rest_none h, List.append_nil]
  have hcap : firstLength names.length ≤ 8 * names.length + headLength := by
    rw [firstLength]
    omega
  rcases @readReply_last (firstLength names.length) ⟨r.first, cuts⟩
      (Block.alloc (8 * names.length + headLength)) (firstLength_pos _) r.first_length hint hcap with
    ⟨sock, retbuf, hread, hbytes⟩
  have hmem : retbuf.bytes = r.first := by
    rw [hbytes]
    simp [patch, Block.alloc]
  have hflag := r.flag_at []
  rw [List.append_nil] at hflag
  have hnone : r.flag = firstWithoutError := by
    rw [Replies.flag, h]
    rfl
  simp only [tcpDecode, hread, Option.bind_eq_bind, Option.bind_some, hmem, hflag, hnone, if_true]

theorem tcpDecode_some (hidx : Indexed (CStr.pack names) index names.length)
    (r : Replies names.length) {s : List UInt8 × List UInt32} (hs : r.second = some s)
    (hint : firstLength names.length ≤ intMax)
    (hint₂ : secondLength (missedAt 0 r.words).length ≤ intMax)
    (haligned : ∃ j, ∑ i ∈ Finset.range j, min (firstLength names.length) (max 1 (cuts i)) =
      firstLength names.length) :
    tcpDecode (CStr.pack names) index names.length ⟨r.first ++ r.rest, cuts⟩ =
      some (hitCalls (CStr.pack names) index 0 r.words ++
        pairCalls (CStr.pack names) index ((missedAt 0 r.words).zip s.2)) := by
  rcases haligned with ⟨j, hj⟩
  have hpos := firstLength_pos names.length
  have hfl := r.first_length
  have hm : (missedAt 0 r.words).length ≤ names.length := by
    have h := missedAt_length_le 0 r.words
    rwa [r.words_length] at h
  have hcap : firstLength names.length ≤ 8 * names.length + headLength := by
    rw [firstLength]
    omega
  have hcap₂ : secondLength (missedAt 0 r.words).length ≤ 8 * names.length + headLength := by
    rw [secondLength]
    omega
  have hne : r.first ≠ [] := by
    intro hnil
    rw [hnil, List.length_nil] at hfl
    omega
  -- the first loop takes exactly the first reply
  rcases @readUntil_exact (firstLength names.length) (clientStop (firstLength names.length))
      ((r.first ++ r.rest).length + 1) j ⟨r.first ++ r.rest, cuts⟩
      (Block.alloc (8 * names.length + headLength)) 0 r.first r.rest hpos rfl hne
      (by rw [hfl]; exact hj) (by rw [List.length_append]; omega) (Nat.zero_le _)
      (by rw [hfl, Nat.zero_add]; exact hcap)
      (by intro c _ hc; exact clientStop_go (by omega) hint)
      (by rw [hfl, Nat.zero_add]; exact clientStop_end hint) with
    ⟨sock, retbuf, hread, hrest, -, hbytes⟩
  have hmem : retbuf.bytes = r.first := by
    rw [hbytes]
    simp [patch, Block.alloc]
  -- the second one takes the rest of the stream
  rcases @readReply_last (secondLength (missedAt 0 r.words).length) sock
      (zeroed (8 * names.length + headLength)) (secondLength_pos _)
      (by rw [hrest, r.rest_length hs]) hint₂ hcap₂ with ⟨sock', retbuf', hread', hbytes'⟩
  have hmem' : retbuf'.bytes = r.rest ++
      (List.replicate (8 * names.length + headLength) 0).drop r.rest.length := by
    rw [hbytes', hrest, patch, List.take_zero, Nat.zero_add]
    rfl
  have hfirst := firstPass_reply hidx r []
  have hflag := r.flag_at []
  rw [List.append_nil] at hfirst hflag
  have hsome : r.flag = firstWithError := by
    rw [Replies.flag, hs]
    rfl
  have hneflag : firstWithError ≠ firstWithoutError := by decide
  have hread₁ : readReply (firstLength names.length) ⟨r.first ++ r.rest, cuts⟩
      (Block.alloc (8 * names.length + headLength)) = some (sock, retbuf, 0 + r.first.length) := hread
  simp only [tcpDecode, hread₁, Option.bind_eq_bind, Option.bind_some, hmem, hflag, hsome,
    if_neg hneflag, hfirst, hread', hmem', secondPass_reply hidx r hs, Option.pure_def]

/-! ## From the calls to the condition -/

theorem callIndexed_ip {buf : List UInt8} {i : Nat} {ip : UInt32} {call : Call}
    (h : callIndexed buf index i ip = some call) : call.ip = ip := by
  rcases Option.bind_eq_some_iff.mp h with ⟨ptr, -, h⟩
  rcases Option.map_eq_some_iff.mp h with ⟨name, -, rfl⟩
  rfl

/-- The addresses of the second pass are words of the buffer. -/
theorem secondPass_ips {buf mem : List UInt8} {k i j : Nat} {calls : List Call}
    (h : secondPass buf index mem k i = some calls) (hj : j < k) :
    ∃ call, calls[j]? = some call ∧ wordAt mem (headLength + 8 * (i + j) + 4) = some call.ip := by
  induction k generalizing i j calls with
  | zero => omega
  | succ k ih =>
      simp only [secondPass, Option.bind_eq_bind, Option.bind_eq_some_iff, Option.pure_def,
        Option.some.injEq] at h
      rcases h with ⟨pos, -, ip, hip, call, hcall, calls', hrec, rfl⟩
      -- the first pair or a later one
      rcases j with _ | j
      · refine ⟨call, rfl, ?_⟩
        rw [callIndexed_ip hcall]
        exact hip
      · rcases ih hrec (Nat.lt_of_succ_lt_succ hj) with ⟨call', hget, hword⟩
        refine ⟨call', hget, ?_⟩
        rw [← hword]
        congr 1
        omega

/-- In the reference every call of the second pass has the address sent, here always the same. -/
theorem pairCalls_ip {buf : List UInt8} {ps : List (UInt32 × UInt32)} {w : UInt32} {call : Call}
    (hps : ∀ p ∈ ps, p.2 = w) (h : call ∈ pairCalls buf index ps) : call.ip = w := by
  rcases List.mem_flatMap.mp h with ⟨p, hp, hcall⟩
  rw [callIndexed_ip (Option.mem_toList.mp hcall), hps p hp]

/-- The replies `r₀` with one address for all missed names, none of whose bytes is 0. -/
def onesReplies {n : Nat} (r₀ : Replies n) (head₂ : List UInt8) (h : head₂.length = headLength)
    (hne : missedAt 0 r₀.words ≠ []) : Replies n where
  head := r₀.head
  words := r₀.words
  second := some (head₂, List.replicate (missedAt 0 r₀.words).length 0x01010101)
  head_length := r₀.head_length
  words_length := r₀.words_length
  second_ok := by
    intro s hs
    cases hs
    exact ⟨h, List.length_replicate, hne⟩

/-- When the first loop runs into the second reply, the last byte of the last
address is never read, and the calls differ. -/
theorem calls_differ (r : Replies names.length) {head₂ : List UInt8}
    (hs : r.second =
      some (head₂, List.replicate (missedAt 0 r.words).length 0x01010101))
    {sock sock' : Sock} {retbuf : Block} {k cap count : Nat} (hk : 0 < k)
    (hcap : secondLength (missedAt 0 r.words).length ≤ cap)
    (hstream : sock.stream = r.rest.drop k)
    (hread : readReply (secondLength (missedAt 0 r.words).length) sock (zeroed cap) =
      some (sock', retbuf, count)) :
    secondPass (CStr.pack names) index retbuf.bytes (missedAt 0 r.words).length 0 ≠
      some (pairCalls (CStr.pack names) index
        ((missedAt 0 r.words).zip
          (List.replicate (missedAt 0 r.words).length 0x01010101))) := by
  intro hsame
  have hm : 0 < (missedAt 0 r.words).length :=
    List.length_pos_of_ne_nil (r.second_ok _ hs).2.2
  have hlen : sock.stream.length = secondLength (missedAt 0 r.words).length - k := by
    rw [hstream, List.length_drop, r.rest_length hs]
  have hsl := secondLength_pos (missedAt 0 r.words).length
  rcases readReply_second (by omega) hread with ⟨hbytes, -⟩
  -- the address of the last call is the last word of the second reply
  rcases secondPass_ips hsame (Nat.sub_lt hm Nat.one_pos) with ⟨call, hget, hword⟩
  have hip : call.ip = 0x01010101 := by
    apply pairCalls_ip _ (List.mem_of_getElem? hget)
    intro p hp
    exact List.eq_of_mem_replicate (List.of_mem_zip hp).2
  rw [hip, wordAt, rd32_eq_some_iff] at hword
  rcases hword with ⟨t, ht⟩
  have hbyte := congrArg (fun l => l[3]?) ht
  have hoff : headLength + 8 * (0 + ((missedAt 0 r.words).length - 1)) + 4 + 3 =
      secondLength (missedAt 0 r.words).length - 1 := by
    rw [secondLength]
    omega
  rw [List.getElem?_drop, hoff, hbytes, List.getElem?_append_right (by omega),
    List.getElem?_replicate, if_pos (by omega)] at hbyte
  exact absurd hbyte (by simp [le32])

/-- What a defined run of the client tells about its two loops. -/
theorem tcpDecode_inv (hidx : Indexed (CStr.pack names) index names.length)
    (r : Replies names.length) {calls : List Call}
    (h : tcpDecode (CStr.pack names) index names.length ⟨r.first ++ r.rest, cuts⟩ = some calls) :
    ∃ sock retbuf count,
      readReply (firstLength names.length) ⟨r.first ++ r.rest, cuts⟩
        (Block.alloc (8 * names.length + headLength)) = some (sock, retbuf, count) ∧
      (r.second.isSome → ∃ sock' retbuf' count' calls',
        readReply (secondLength (missedAt 0 r.words).length) sock
          (zeroed (8 * names.length + headLength)) = some (sock', retbuf', count') ∧
        secondPass (CStr.pack names) index retbuf'.bytes (missedAt 0 r.words).length 0 =
          some calls' ∧
        calls = hitCalls (CStr.pack names) index 0 r.words ++ calls') := by
  simp only [tcpDecode, Option.bind_eq_bind, Option.bind_eq_some_iff] at h
  rcases h with ⟨⟨sock, retbuf, count⟩, hread, flag, hflag, h⟩
  refine ⟨sock, retbuf, count, hread, ?_⟩
  intro hsecond
  rcases readReply_first r hread with ⟨-, -, -, -, hbytes⟩
  dsimp only at hflag h
  rw [hbytes, r.flag_at, Option.some.injEq, Replies.flag, if_pos hsecond] at hflag
  have hneflag : flag ≠ firstWithoutError := by
    rw [← hflag]
    decide
  rw [if_neg hneflag, hbytes, firstPass_reply hidx] at h
  simp only [Option.bind_some, Option.bind_eq_some_iff, Option.pure_def, Option.some.injEq] at h
  rcases h with ⟨⟨sock', retbuf', count'⟩, hread', calls', hpass, hcalls⟩
  exact ⟨sock', retbuf', count', calls', hread', hpass, hcalls.symm⟩

/-- When the calls for every second reply are those of the reference, the reads
of the first reply end with it and the second reply is read to its end. -/
theorem splitOk_of_second (hidx : Indexed (CStr.pack names) index names.length)
    (r₀ : Replies names.length) {s : List UInt8 × List UInt32} (hs : r₀.second = some s)
    (hall : SplitHarmless names index cuts r₀) :
    secondLength (missedAt 0 r₀.words).length ≤ intMax ∧
      ∃ j, ∑ i ∈ Finset.range j, min (firstLength names.length) (max 1 (cuts i)) =
        firstLength names.length := by
  have hcap : secondLength (missedAt 0 r₀.words).length ≤ 8 * names.length + headLength := by
    have h := missedAt_length_le 0 r₀.words
    rw [r₀.words_length] at h
    rw [secondLength]
    omega
  rcases r₀.second_ok s hs with ⟨hhead, -, hne⟩
  have hpos := secondLength_pos (missedAt 0 r₀.words).length
  -- the same shape with addresses that contain no zero byte
  let r := onesReplies r₀ s.1 hhead hne
  have hrs : r.second = some (s.1, List.replicate (missedAt 0 r.words).length 0x01010101) := rfl
  have hrest : r.rest.length = secondLength (missedAt 0 r₀.words).length := r.rest_length hrs
  rcases hall r ⟨by rw [hs]; rfl, fun _ => rfl⟩ with ⟨calls, hrun, href⟩
  rcases tcpDecode_inv hidx r hrun with ⟨sock, retbuf, count, hread, hsecond⟩
  rcases hsecond rfl with ⟨sock₂, retbuf₂, count₂, calls₂, hread₂, hpass₂, hcalls₂⟩
  rcases readReply_first r hread with ⟨hle, -, ⟨j, hj⟩, hstream, -⟩
  rw [decodeSeparately_some hidx r hrs, Option.some.injEq, hcalls₂] at href
  rw [List.append_cancel_left href.symm] at hpass₂
  have hexact : count = firstLength names.length := by
    by_contra hover
    exact calls_differ r hrs (by omega) hcap hstream hread₂ hpass₂
  constructor
  · rw [hexact, Nat.sub_self, List.drop_zero] at hstream
    have hlen : sock.stream.length = secondLength (missedAt 0 r₀.words).length := by
      rw [hstream, hrest]
    rcases (readReply_second (Nat.le_of_eq hlen) hread₂).2 with hempty | hint₂
    · rw [hempty, List.length_nil] at hlen
      omega
    · omega
  · exact ⟨j, by omega⟩

theorem splitOk_of_harmless (hidx : Indexed (CStr.pack names) index names.length)
    (r₀ : Replies names.length) (hall : SplitHarmless names index cuts r₀) :
    SplitOk names cuts r₀ := by
  rcases hall r₀ ⟨rfl, fun _ => rfl⟩ with ⟨calls, hrun, href⟩
  rcases tcpDecode_inv hidx r₀ hrun with ⟨sock, retbuf, count, hread, -⟩
  rcases readReply_first r₀ hread with ⟨hle, hint, -⟩
  refine ⟨by omega, ?_⟩
  cases hs : r₀.second with
  | none =>
      -- no second reply: the last offset of a name must be an int
      rw [Option.isSome_none, if_neg (by simp)]
      rw [decodeSeparately_none r₀ hs, callAll_reply] at href
      by_contra hbig
      rw [if_neg hbig] at href
      simp at href
  | some s =>
      rw [Option.isSome_some, if_pos rfl]
      exact splitOk_of_second hidx r₀ hs hall

theorem harmless_of_splitOk (hidx : Indexed (CStr.pack names) index names.length)
    (r₀ : Replies names.length) (hok : SplitOk names cuts r₀) :
    SplitHarmless names index cuts r₀ := by
  intro r hshape
  rcases hok with ⟨hint, hok⟩
  cases hs : r.second with
  | none =>
      have hs₀ : r₀.second.isSome = false := by
        rw [← hshape.1, hs]
        rfl
      rw [hs₀, if_neg (by simp)] at hok
      have hcall := callAll_reply r
      rw [if_pos hok] at hcall
      exact ⟨_, (tcpDecode_none r hs hint).trans hcall, (decodeSeparately_none r hs).trans hcall⟩
  | some s =>
      have hsome : r.second.isSome := by rw [hs]; rfl
      have hs₀ : r₀.second.isSome = true := by rw [← hshape.1, hsome]
      rw [hs₀, if_pos rfl, ← hshape.2 hsome] at hok
      exact ⟨_, tcpDecode_some hidx r hs hint hok.1 hok.2, decodeSeparately_some hidx r hs⟩

end Reply

/-- The client's calls do not depend on how the stream is cut exactly when
`SplitOk` holds: for every index that `pre_do` may leave, and for all replies
of the shape of `r₀`. -/
theorem split_harmless_iff (names : List CStr) (index : List UInt32) (cuts : Nat → Nat)
    (r₀ : Replies names.length) (hidx : Indexed (CStr.pack names) index names.length) :
    SplitHarmless names index cuts r₀ ↔ SplitOk names cuts r₀ :=
  ⟨splitOk_of_harmless hidx r₀, harmless_of_splitOk hidx r₀⟩

/-- The name "abc", missed, and the address 0.8.8.8 for it in the second reply. -/
def abcMissed : Replies 1 where
  head := le32 17 ++ le32 magicNumber ++ le32 1
  words := [cacheMiss]
  second := some (le32 17 ++ le32 magicNumber ++ le32 1 ++ [secondWithoutError], [0x08080800])
  head_length := by decide
  words_length := by decide
  second_ok := by
    intro s hs
    cases hs
    exact ⟨by decide, by decide, by decide⟩

/-- Three names, the second and the third missed, and their addresses. -/
def twoMissed : Replies 3 where
  head := le32 25 ++ le32 magicNumber ++ le32 1
  words := [9, cacheMiss, cacheMiss]
  second := some (le32 29 ++ le32 magicNumber ++ le32 1 ++ [secondWithError], [dnsError, 6])
  head_length := by decide
  words_length := by decide
  second_ok := by
    intro s hs
    cases hs
    exact ⟨by decide, by decide, by decide⟩

/-- `split_harmless_iff` for five bytes a read: the first reply is cut four times
and ends with the fifth read. -/
theorem split_harmless_cut :
    SplitHarmless [nameAbc, nameUvw, nameXyz] [0, 4, 8] (fun _ => 5) twoMissed := by
  refine (split_harmless_iff [nameAbc, nameUvw, nameXyz] [0, 4, 8] (fun _ => 5) twoMissed
    (indexed_pack (by decide))).mpr ⟨by decide, ?_⟩
  rw [if_pos (show twoMissed.second.isSome = true from rfl)]
  exact ⟨by decide, 5, by decide⟩

/-- One byte and then 17: the second read takes a byte of the second reply along,
and the client reports the address 8.8.8.0. -/
theorem split_shifts_second_reply :
    tcpDecode (CStr.pack [⟨[97, 98, 99], by decide⟩]) [0] 1
        ⟨abcMissed.first ++ abcMissed.rest, fun i => if i = 0 then 1 else 17⟩ =
      some [⟨0, ⟨[97, 98, 99], by decide⟩, 0x00080808⟩] ∧
    decodeSeparately (CStr.pack [⟨[97, 98, 99], by decide⟩]) [0] 1 abcMissed.first abcMissed.rest =
      some [⟨0, ⟨[97, 98, 99], by decide⟩, 0x08080800⟩] ∧
    ¬ SplitHarmless [⟨[97, 98, 99], by decide⟩] [0] (fun i => if i = 0 then 1 else 17)
      abcMissed := by
  have hrun : tcpDecode (CStr.pack [⟨[97, 98, 99], by decide⟩]) [0] 1
      ⟨abcMissed.first ++ abcMissed.rest, fun i => if i = 0 then 1 else 17⟩ =
        some [⟨0, ⟨[97, 98, 99], by decide⟩, 0x00080808⟩] := by decide +kernel
  have href : decodeSeparately (CStr.pack [⟨[97, 98, 99], by decide⟩]) [0] 1 abcMissed.first
      abcMissed.rest = some [⟨0, ⟨[97, 98, 99], by decide⟩, 0x08080800⟩] := by decide +kernel
  refine ⟨hrun, href, ?_⟩
  intro hall
  rcases hall abcMissed ⟨rfl, fun _ => rfl⟩ with ⟨calls, hcalls, hcalls'⟩
  have hsame := (hrun.symm.trans hcalls).trans (hcalls'.symm.trans href)
  exact absurd hsame (by decide)

end DnsCache

import DnsCache.Lib.Sock
import DnsCache.PreDo

/-! # The reply side of `tcp_dns_search`

* `tcpDecode`: from the first `read` on, with the calls of `f` as its result.
* `decodeSeparately`: the reference, each reply in a buffer of its own.
* `firstPass_eq`, `secondPass_eq`, `callAll_eq`: the calls a reply leads to.
-/

namespace DnsCache

open CMem

/-! ## The function -/

/-- A call `f (buf + ptr, ip)`; `name` is the string at its first argument. -/
structure Call where
  ptr : Nat
  name : CStr
  ip : UInt32
deriving DecidableEq, Repr

/-- A call with a pointer into `buf`; none when no string starts there. -/
def callAt (buf : List UInt8) (ptr : Nat) (ip : UInt32) : Option Call :=
  (CStr.scan (buf.drop ptr)).map fun name => ⟨ptr, name, ip⟩

/-- A call `f (buf + index[i], ip)`. -/
def callIndexed (buf : List UInt8) (index : List UInt32) (i : Nat) (ip : UInt32) : Option Call :=
  (index[i]?).bind fun ptr => callAt buf ptr.toNat ip

/-- After `FIRST_WITHOUT_ERROR`: a call for each word, `k` of them to go. The
names are found one behind the other, by an `int` offset. -/
def callAll (buf mem : List UInt8) : Nat → Nat → Nat → Option (List Call)
  | 0, _, _ => some []
  | k + 1, i, count => do
      let ip ← wordAt mem (headLength + 4 * i)
      let call ← callAt buf count ip
      let count := count + (call.name.length + 1)
      if intMax < count then none
      else
        let calls ← callAll buf mem k (i + 1) count
        return call :: calls

/-- The words of a first reply with misses: a call for each hit, and `misscount`. -/
def firstPass (buf : List UInt8) (index : List UInt32) (mem : List UInt8) :
    Nat → Nat → Option (List Call × Nat)
  | 0, _ => some ([], 0)
  | k + 1, i => do
      let tempip ← wordAt mem (headLength + 4 * i)
      if tempip = cacheMiss then
        let (calls, misscount) ← firstPass buf index mem k (i + 1)
        return (calls, misscount + 1)
      else
        let call ← callIndexed buf index i tempip
        let (calls, misscount) ← firstPass buf index mem k (i + 1)
        return (call :: calls, misscount)

/-- The pairs of a second reply: a call for each. -/
def secondPass (buf : List UInt8) (index : List UInt32) (mem : List UInt8) :
    Nat → Nat → Option (List Call)
  | 0, _ => some []
  | k + 1, i => do
      let pos ← wordAt mem (headLength + 8 * i)
      let ip ← wordAt mem (headLength + 8 * i + 4)
      let call ← callIndexed buf index pos.toNat ip
      let calls ← secondPass buf index mem k (i + 1)
      return call :: calls

/-- The length of a first reply to `n` names, and of a second reply to `m` of them. -/
def firstLength (n : Nat) : Nat := headLength + 4 * n
def secondLength (m : Nat) : Nat := headLength + 8 * m

theorem firstLength_pos (n : Nat) : 0 < firstLength n := by
  rw [firstLength, headLength_eq]
  omega

theorem secondLength_pos (m : Nat) : 0 < secondLength m := by
  rw [secondLength, headLength_eq]
  omega

/-- The test of both read loops: `count` is an `int`. -/
def clientStop (want count : Nat) : Option Bool :=
  if count ≤ intMax then some (decide (want ≤ count)) else none

/-- `bzero` of the whole buffer. -/
def zeroed (cap : Nat) : Block := ⟨cap, List.replicate cap 0, by simp⟩

/-- A read loop of the client into `retbuf`, for a message of `want` bytes. -/
def readReply (want : Nat) (sock : Sock) (retbuf : Block) : Option (Sock × Block × Nat) :=
  readUntil want (clientStop want) (sock.stream.length + 1) sock retbuf 0

/-- `tcp_dns_search` from the first `read` on: the calls of `f`, in order.
Leaving `retbuf`, `buf` or `index`, or the range of `count`, has no result. -/
def tcpDecode (buf : List UInt8) (index : List UInt32) (nbuf : Nat) (sock : Sock) :
    Option (List Call) := do
  let cap := 8 * nbuf + headLength
  let (sock, retbuf, _) ← readReply (firstLength nbuf) sock (Block.alloc cap)
  let flag ← retbuf.bytes[headLength - 1]?
  if flag = firstWithoutError then callAll buf retbuf.bytes nbuf 0 0
  else
    let (calls, misscount) ← firstPass buf index retbuf.bytes nbuf 0
    -- whatever the first loop read behind its reply is cleared
    let (_, retbuf, _) ← readReply (secondLength misscount) sock (zeroed cap)
    let calls' ← secondPass buf index retbuf.bytes misscount 0
    return calls ++ calls'

/-- The reference: each reply is taken as a whole. -/
def decodeSeparately (buf : List UInt8) (index : List UInt32) (nbuf : Nat)
    (first second : List UInt8) : Option (List Call) := do
  let flag ← first[headLength - 1]?
  if flag = firstWithoutError then callAll buf first nbuf 0 0
  else
    let (calls, misscount) ← firstPass buf index first nbuf 0
    let calls' ← secondPass buf index second misscount 0
    return calls ++ calls'

/-! ## The calls a reply leads to -/

/-- The positions of the miss marker, the first word having position `i`. -/
def missedAt : Nat → List UInt32 → List UInt32
  | _, [] => []
  | i, w :: ws =>
      if w = cacheMiss then UInt32.ofNat i :: missedAt (i + 1) ws else missedAt (i + 1) ws

/-- The calls for the hits. -/
def hitCalls (buf : List UInt8) (index : List UInt32) : Nat → List UInt32 → List Call
  | _, [] => []
  | i, w :: ws =>
      if w = cacheMiss then hitCalls buf index (i + 1) ws
      else (callIndexed buf index i w).toList ++ hitCalls buf index (i + 1) ws

/-- The bytes of the pairs of a second reply, and the calls for them. -/
def pairBytes (pairs : List (UInt32 × UInt32)) : List UInt8 :=
  pairs.flatMap fun p => le32 p.1 ++ le32 p.2

def pairCalls (buf : List UInt8) (index : List UInt32) (pairs : List (UInt32 × UInt32)) :
    List Call :=
  pairs.flatMap fun p => (callIndexed buf index p.1.toNat p.2).toList

theorem missedAt_length_le (i : Nat) (ws : List UInt32) : (missedAt i ws).length ≤ ws.length := by
  induction ws generalizing i with
  | nil => exact Nat.le_refl _
  | cons w ws ih =>
      have hrec := ih (i + 1)
      rw [missedAt]
      split
      · simpa using hrec
      · exact Nat.le_succ_of_le hrec

theorem pairBytes_length (ps : List (UInt32 × UInt32)) :
    (pairBytes ps).length = 8 * ps.length := by
  induction ps with
  | nil => rfl
  | cons p ps ih =>
      have hsplit : pairBytes (p :: ps) = le32 p.1 ++ le32 p.2 ++ pairBytes ps := rfl
      rw [hsplit, List.length_append, List.length_append, ih, le32_length, le32_length,
        List.length_cons]
      omega

/-- Every position below `n` has a name in `buf`. -/
def Indexed (buf : List UInt8) (index : List UInt32) (n : Nat) : Prop :=
  ∀ i < n, ∀ ip, (callIndexed buf index i ip).isSome

/-- The buffer and the index that `pre_do` leaves: the `i`-th call names the `i`-th name. -/
theorem callIndexed_pack {names : List CStr} (hlen : (CStr.pack names).length < 4294967296)
    {i : Nat} {name : CStr} (hi : names[i]? = some name) (ip : UInt32) :
    callIndexed (CStr.pack names) (offsetsFrom 0 names) i ip =
      some ⟨(CStr.pack (names.take i)).length, name, ip⟩ := by
  rcases List.getElem?_eq_some_iff.mp hi with ⟨hlt, hget⟩
  have hsplit : names = names.take i ++ name :: names.drop (i + 1) := by
    rw [← hget, ← List.drop_eq_getElem_cons hlt, List.take_append_drop]
  have hpack : CStr.pack names =
      CStr.pack (names.take i) ++ (name.raw ++ CStr.pack (names.drop (i + 1))) := by
    conv_lhs => rw [hsplit]
    rw [CStr.pack_append, CStr.pack_cons]
  have hpos : (CStr.pack (names.take i)).length < 4294967296 := by
    have hle := congrArg List.length hpack
    rw [List.length_append] at hle
    omega
  rw [callIndexed, offsetsFrom_getElem? hlt, Option.bind_some, Nat.zero_add,
    toNat_ofNat_small hpos, callAt]
  conv_lhs => rw [hpack]
  rw [List.drop_left, CStr.scan_raw, Option.map_some]

theorem indexed_pack {names : List CStr} (hlen : (CStr.pack names).length < 4294967296) :
    Indexed (CStr.pack names) (offsetsFrom 0 names) names.length := by
  intro i hi ip
  rw [callIndexed_pack hlen (List.getElem?_eq_getElem hi)]
  rfl

theorem wordAt_of_drop {mem t : List UInt8} {off : Nat} {w : UInt32}
    (h : mem.drop off = le32 w ++ t) : wordAt mem off = some w := by
  rw [wordAt, h, rd32_le32]

theorem drop_of_drop {mem t : List UInt8} {off : Nat} {bs : List UInt8}
    (h : mem.drop off = bs ++ t) : mem.drop (off + bs.length) = t := by
  rw [← List.drop_drop, h, List.drop_left]

/-- The first pass over a reply that holds the words `ws` from position `i` on. -/
theorem firstPass_eq {buf mem tail : List UInt8} {index : List UInt32} {i : Nat}
    {ws : List UInt32} (hidx : Indexed buf index (i + ws.length))
    (hmem : mem.drop (headLength + 4 * i) = ws.flatMap le32 ++ tail) :
    firstPass buf index mem ws.length i =
      some (hitCalls buf index i ws, (missedAt i ws).length) := by
  induction ws generalizing i with
  | nil => rfl
  | cons w ws ih =>
      rw [List.flatMap_cons, List.append_assoc] at hmem
      have hword := wordAt_of_drop hmem
      have hmem' : mem.drop (headLength + 4 * (i + 1)) = ws.flatMap le32 ++ tail := drop_of_drop hmem
      have hrec := ih (by simpa [Nat.add_comm, Nat.add_left_comm] using hidx) hmem'
      have hcall := hidx i (by simp) w
      rcases Option.isSome_iff_exists.mp hcall with ⟨call, hcall⟩
      simp only [List.length_cons, firstPass, hword, Option.bind_eq_bind, Option.bind_some,
        hcall, hrec, Option.pure_def, hitCalls, missedAt]
      by_cases hw : w = cacheMiss
      · simp [hw]
      · simp [hw]

/-- The first pair of those that stand behind, and where the others stand. -/
theorem pair_of_drop {mem tail : List UInt8} {i : Nat} {p : UInt32 × UInt32}
    {ps : List (UInt32 × UInt32)}
    (hmem : mem.drop (headLength + 8 * i) = pairBytes (p :: ps) ++ tail) :
    wordAt mem (headLength + 8 * i) = some p.1 ∧ wordAt mem (headLength + 8 * i + 4) = some p.2 ∧
      mem.drop (headLength + 8 * (i + 1)) = pairBytes ps ++ tail := by
  have hsplit : pairBytes (p :: ps) ++ tail =
      le32 p.1 ++ (le32 p.2 ++ (pairBytes ps ++ tail)) := by
    simp [pairBytes]
  rw [hsplit] at hmem
  have hmem₁ : mem.drop (headLength + 8 * i + 4) = le32 p.2 ++ (pairBytes ps ++ tail) :=
    drop_of_drop hmem
  exact ⟨wordAt_of_drop hmem, wordAt_of_drop hmem₁, drop_of_drop hmem₁⟩

/-- The second pass over a reply that holds the pairs `ps` from pair `i` on. -/
theorem secondPass_eq {buf mem tail : List UInt8} {index : List UInt32} {i : Nat}
    {ps : List (UInt32 × UInt32)}
    (hidx : ∀ p ∈ ps, (callIndexed buf index p.1.toNat p.2).isSome)
    (hmem : mem.drop (headLength + 8 * i) = pairBytes ps ++ tail) :
    secondPass buf index mem ps.length i = some (pairCalls buf index ps) := by
  induction ps generalizing i with
  | nil => rfl
  | cons p ps ih =>
      rcases pair_of_drop hmem with ⟨hpos, hip, hmem₂⟩
      have hrec := ih (fun q hq => hidx q (List.mem_cons_of_mem _ hq)) hmem₂
      rcases Option.isSome_iff_exists.mp (hidx p List.mem_cons_self) with ⟨call, hcall⟩
      simp only [List.length_cons, secondPass, hpos, hip, hcall, hrec, Option.bind_eq_bind,
        Option.bind_some, Option.pure_def, pairCalls, List.flatMap_cons, Option.toList_some,
        List.singleton_append]

/-- The calls for names that lie one behind the other from `count` on. -/
def zipCalls : Nat → List CStr → List UInt32 → List Call
  | count, name :: names, w :: ws => ⟨count, name, w⟩ :: zipCalls (count + (name.length + 1)) names ws
  | _, _, _ => []

/-- The pass without misses: it ends when the last offset is still an `int`. -/
theorem callAll_eq {buf mem rest tail : List UInt8} {names : List CStr} {ws : List UInt32}
    {i count : Nat} (hbuf : buf.drop count = CStr.pack names ++ rest)
    (hmem : mem.drop (headLength + 4 * i) = ws.flatMap le32 ++ tail)
    (hlen : ws.length = names.length) (hcount : count ≤ intMax) :
    callAll buf mem names.length i count =
      if count + (CStr.pack names).length ≤ intMax then some (zipCalls count names ws)
      else none := by
  induction names generalizing ws i count with
  | nil => simp [callAll, zipCalls, hcount]
  | cons name names ih =>
      rcases ws with _ | ⟨w, ws⟩
      · simp at hlen
      rw [CStr.pack_cons, List.append_assoc] at hbuf
      rw [List.flatMap_cons, List.append_assoc] at hmem
      have hword := wordAt_of_drop hmem
      have hcall : callAt buf count w = some ⟨count, name, w⟩ := by
        rw [callAt, hbuf, CStr.scan_raw, Option.map_some]
      have hmem' : mem.drop (headLength + 4 * (i + 1)) = ws.flatMap le32 ++ tail :=
        drop_of_drop hmem
      have hbuf' := drop_of_drop hbuf
      rw [CStr.raw_length] at hbuf'
      simp only [List.length_cons, callAll, hword, hcall, Option.bind_eq_bind, Option.bind_some,
        Option.pure_def, CStr.pack_cons, List.length_append, CStr.raw_length]
      by_cases hover : intMax < count + (name.length + 1)
      · -- the offset overflows behind this name
        rw [if_pos hover, if_neg (by omega)]
      · rw [if_neg hover, ih hbuf' hmem' (by simpa using hlen) (by omega)]
        by_cases hend : count + (name.length + 1) + (CStr.pack names).length ≤ intMax
        · rw [if_pos hend, if_pos (by omega)]
          rfl
        · rw [if_neg hend, if_neg (by omega)]
          rfl

end DnsCache

import DnsCache.Search

/-! # `do_search` of the TCP server

* `tcpDoSearch`: the lookup loop over the request's own block and the first
  reply made of it.
* `separateSearch`: the reference, the same loop writing to a buffer of its own.
* `in_place_harmless_iff`: writing in place gives the reference's result for
  every cache content exactly when the names leave room for the answers.
-/

namespace DnsCache

open CMem

/-! ## The function -/

/-- The last byte of the head is overwritten by the flag. -/
def setFlag (head : List UInt8) (flag : UInt8) : List UInt8 := head.set (headLength - 1) flag

/-- The flag of a first reply, from `misscount`. -/
def firstFlag (misscount : Nat) : UInt8 :=
  if misscount = 0 then firstWithoutError else firstWithError

/-- What `do_search` hands on: the two parts of the first reply and the miss
list. `looked` is the history of the keys looked up. -/
structure FirstReply where
  head : List UInt8
  body : List UInt8
  misses : List DmNode
  looked : List CStr
deriving DecidableEq, Repr

/-- The first reply made of the loop's variables. -/
def Scan.firstReply (head : List UInt8) (s : Scan) : FirstReply where
  head := setFlag head (firstFlag s.misses.length)
  body := s.block.bytes.take (4 * s.ipcount)
  misses := s.misses
  looked := s.looked

/-- `do_search (headptr, requestptr, rbuflen, connfd)` up to `writev`. The
comparison `readcount >= rbuflen` is between two `int`s. -/
def tcpDoSearch (kc : Kache) (now : Int) (head : List UInt8) (request : Block) (rbuflen : Int32) :
    Option FirstReply := do
  let s ← searchLoop (tcpLookup kc now) rbuflen.toInt (request.cap + 1) (Scan.start request)
  return s.firstReply head

/-- The block `request_ptr` once the whole payload has been read into it. -/
def requestBlock (payload : List UInt8) : Block := ⟨payload.length, payload, le_refl _⟩

/-- `do_search` returns what the loop leaves behind. -/
theorem tcpDoSearch_eq_some_iff {kc : Kache} {now : Int} {head : List UInt8} {request : Block}
    {rbuflen : Int32} {reply : FirstReply} :
    tcpDoSearch kc now head request rbuflen = some reply ↔
      ∃ t, Scans (tcpLookup kc now) rbuflen.toInt (Scan.start request) t ∧
        reply = t.firstReply head := by
  unfold tcpDoSearch
  constructor
  · intro h
    simp only [Option.bind_eq_bind, Option.bind_eq_some_iff, Option.pure_def,
      Option.some.injEq] at h
    rcases h with ⟨t, ht, rfl⟩
    exact ⟨t, searchLoop_sound ht, rfl⟩
  · rintro ⟨t, ht, rfl⟩
    rw [searchLoop_eq_some_iff.mpr ht]
    rfl

theorem setFlag_length (head : List UInt8) (flag : UInt8) :
    (setFlag head flag).length = head.length := List.length_set

/-- The miss list of a first reply is that of the names looked up. -/
theorem tcpDoSearch_misses {kc : Kache} {now : Int} {head : List UInt8} {request : Block}
    {rbuflen : Int32} {reply : FirstReply}
    (h : tcpDoSearch kc now head request rbuflen = some reply) :
    reply.head.length = head.length ∧
      reply.misses = missNodes (tcpLookup kc now) 0 reply.looked ∧
      reply.looked.length ≤ request.cap := by
  rcases tcpDoSearch_eq_some_iff.mp h with ⟨t, ht, rfl⟩
  rcases ht.counts ⟨rfl, Nat.le_refl _, rfl⟩ with ⟨hcounts, hcap⟩
  exact ⟨setFlag_length _ _, hcounts.misses, hcounts.readcount.trans hcap⟩

/-! ## The answer to names that leave room -/

/-- The first reply to a list of names. -/
def replyTo (lookup : CStr → Option UInt32) (head : List UInt8) (names : List CStr) :
    FirstReply where
  head := setFlag head (firstFlag (missNodes lookup 0 names).length)
  body := (answers lookup names).flatMap le32
  misses := missNodes lookup 0 names
  looked := names

theorem After.firstReply_eq {lookup : CStr → Option UInt32} {names : List CStr} {block : Block}
    {t : Scan} (h : After lookup names (Scan.start block) t) (head : List UInt8) :
    t.firstReply head = replyTo lookup head names := by
  have hmisses : t.misses = missNodes lookup 0 names := by simpa [Scan.start] using h.misses
  have hbody : t.block.bytes.take (4 * t.ipcount) = (answers lookup names).flatMap le32 := by
    simpa [Scan.start] using h.words
  have hlooked : t.looked = names := by simpa [Scan.start] using h.looked
  simp [Scan.firstReply, replyTo, hmisses, hbody, hlooked]

/-- Names that leave room are answered as `replyTo` says. -/
theorem tcpDoSearch_spacious (kc : Kache) (now : Int) (head : List UInt8) {names : List CStr}
    (hne : names ≠ []) (hroom : Spacious names)
    (hint : (CStr.pack names).length < 2147483648) :
    tcpDoSearch kc now head (requestBlock (CStr.pack names))
        (Int32.ofNat (CStr.pack names).length) =
      some (replyTo (tcpLookup kc now) head names) := by
  have hread : (Scan.start (requestBlock (CStr.pack names))).block.bytes.drop 0 =
      CStr.pack names ++ [] := by simp [Scan.start, requestBlock]
  rcases @scans_all (tcpLookup kc now) (Int32.ofNat (CStr.pack names).length).toInt
      (Scan.start (requestBlock (CStr.pack names))) names [] hne hread
      (by intro i hi; simpa [Scan.start] using hroom i hi)
      (by rw [int32_ofNat_toInt hint]; simp [Scan.start]) with ⟨t, ht, hafter⟩
  exact tcpDoSearch_eq_some_iff.mpr ⟨t, ht, (hafter.firstReply_eq head).symm⟩

/-! ## The reference loop -/

/-- The variables of the reference loop, with the answers in a buffer of their own. -/
structure Separate where
  readcount : Nat
  out : List UInt32
  looked : List CStr
  misses : List DmNode
deriving DecidableEq, Repr

/-- The loop of `do_search` with its answers written to a separate buffer. -/
def separateLoop (lookup : CStr → Option UInt32) (payload : List UInt8) (bound : Nat) :
    Nat → Separate → Option Separate
  | 0, _ => none
  | fuel + 1, s => do
      let name ← CStr.scan (payload.drop s.readcount)
      let s' : Separate := ⟨s.readcount + name.length + 1, s.out ++ [answer lookup name],
        s.looked ++ [name], s.misses ++ missNodes lookup s.looked.length [name]⟩
      if bound ≤ s'.readcount then return s' else separateLoop lookup payload bound fuel s'

/-- The reference on a whole payload. -/
def separateSearch (lookup : CStr → Option UInt32) (payload : List UInt8) : Option Separate :=
  separateLoop lookup payload payload.length (payload.length + 1) ⟨0, [], [], []⟩

theorem separateLoop_pack (lookup : CStr → Option UInt32) {payload : List UInt8} {fuel : Nat}
    {names : List CStr} {s : Separate} (hne : names ≠ [])
    (hread : payload.drop s.readcount = CStr.pack names) (hfuel : names.length ≤ fuel) :
    separateLoop lookup payload payload.length fuel s = some ⟨payload.length,
      s.out ++ answers lookup names, s.looked ++ names,
      s.misses ++ missNodes lookup s.looked.length names⟩ := by
  induction names generalizing s fuel with
  | nil => exact absurd rfl hne
  | cons name names ih =>
      rcases fuel with _ | fuel
      · simp at hfuel
      have hlen := congrArg List.length hread
      simp only [List.length_drop, CStr.pack_cons, List.length_append, CStr.raw_length] at hlen
      have hscan : CStr.scan (payload.drop s.readcount) = some name := by
        rw [hread, CStr.pack_cons, CStr.scan_raw]
      simp only [separateLoop, hscan, Option.bind_eq_bind, Option.bind_some, Option.pure_def]
      rcases names with _ | ⟨name', names⟩
      · -- the last name ends the payload
        simp only [CStr.pack_nil, List.length_nil, Nat.add_zero] at hlen
        rw [if_pos (by omega)]
        have hend : s.readcount + name.length + 1 = payload.length := by omega
        simp [answers, hend]
      · -- more names follow
        have hleft : ¬ payload.length ≤ s.readcount + name.length + 1 := by
          simp only [CStr.pack_cons, List.length_append, CStr.raw_length] at hlen
          omega
        have hread' : payload.drop (s.readcount + name.length + 1) =
            CStr.pack (name' :: names) := by
          have hrl : name.raw.length = name.length + 1 := CStr.raw_length name
          rw [Nat.add_assoc, ← List.drop_drop, hread, CStr.pack_cons, ← hrl, List.drop_left]
        have hfuel' : (name' :: names).length ≤ fuel := by simpa using hfuel
        have hmiss := missNodes_append lookup s.looked.length [name] (name' :: names)
        rw [List.singleton_append, List.length_singleton] at hmiss
        rw [if_neg hleft, ih (by simp) hread' hfuel', hmiss]
        simp [answers]

/-- On packed names the reference looks up exactly these names, in order. -/
theorem separateSearch_pack (lookup : CStr → Option UInt32) {names : List CStr}
    (hne : names ≠ []) :
    separateSearch lookup (CStr.pack names) = some ⟨(CStr.pack names).length,
      answers lookup names, names, missNodes lookup 0 names⟩ := by
  have hfuel : names.length ≤ (CStr.pack names).length + 1 :=
    Nat.le_succ_of_le (CStr.length_le_pack names)
  have hread : (CStr.pack names).drop (⟨0, [], [], []⟩ : Separate).readcount = CStr.pack names := by
    simp
  unfold separateSearch
  rw [separateLoop_pack lookup hne hread hfuel]
  simp

/-! ## Answering in place -/

/-- Writing in place is harmless for this request, cache and clock: no access
leaves the payload, the names looked up are the original ones, and words and
miss list are those of the reference. -/
def InPlaceHarmless (kc : Kache) (now : Int) (head : List UInt8) (names : List CStr) : Prop :=
  ∃ reply ref,
    tcpDoSearch kc now head (requestBlock (CStr.pack names))
      (Int32.ofNat (CStr.pack names).length) = some reply ∧
    separateSearch (tcpLookup kc now) (CStr.pack names) = some ref ∧
    reply.looked = names ∧ ref.looked = names ∧
    ref.out.length = names.length ∧ reply.body = ref.out.flatMap le32 ∧
    reply.misses = missNodes (tcpLookup kc now) 0 names ∧ ref.misses = reply.misses

theorem inPlaceHarmless_of_spacious (kc : Kache) (now : Int) (head : List UInt8)
    {names : List CStr} (hne : names ≠ []) (hroom : Spacious names)
    (hint : (CStr.pack names).length < 2147483648) : InPlaceHarmless kc now head names :=
  ⟨_, _, tcpDoSearch_spacious kc now head hne hroom hint, separateSearch_pack _ hne, rfl, rfl,
    answers_length _ _, rfl, rfl, rfl⟩

/-- Names without room: the first answer that does not fit in front of the
unread bytes. -/
theorem exists_first_overrun {names : List CStr} (h : ¬ Spacious names) :
    ∃ pre name post, names = pre ++ name :: post ∧
      (∀ i ≤ pre.length, 4 * i ≤ (CStr.pack (pre.take i)).length) ∧
      (CStr.pack (pre ++ [name])).length < 4 * (pre.length + 1) := by
  classical
  have hex : ∃ i, i ≤ names.length ∧ (CStr.pack (names.take i)).length < 4 * i := by
    simpa [Spacious] using h
  rcases Nat.find_spec hex with ⟨hi, hlt⟩
  have hpos : 0 < Nat.find hex := by
    rcases Nat.eq_zero_or_pos (Nat.find hex) with h0 | h0
    · rw [h0] at hlt
      simp at hlt
    · exact h0
  have hidx : Nat.find hex - 1 < names.length := by omega
  have hsucc : Nat.find hex - 1 + 1 = Nat.find hex := by omega
  have hprelen : (names.take (Nat.find hex - 1)).length = Nat.find hex - 1 := by
    rw [List.length_take]
    omega
  refine ⟨names.take (Nat.find hex - 1), names[Nat.find hex - 1], names.drop (Nat.find hex),
    ?_, ?_, ?_⟩
  · have hdrop := List.drop_eq_getElem_cons hidx
    rw [hsucc] at hdrop
    rw [← hdrop, List.take_append_drop]
  · intro i hle
    rw [hprelen] at hle
    have hmin := Nat.find_min hex (show i < Nat.find hex by omega)
    rw [List.take_take, Nat.min_eq_left hle]
    by_contra hcon
    exact hmin ⟨by omega, by omega⟩
  · rw [hprelen, hsucc]
    have htake := List.take_succ_eq_append_getElem hidx
    rw [hsucc] at htake
    rw [← htake]
    exact hlt

/-- The loop only appends to its history. -/
theorem Scans.looked_extends {lookup : CStr → Option UInt32} {bound : Int} {s t : Scan}
    (h : Scans lookup bound s t) :
    ∃ name rest, s.block.cstr s.readcount = some name ∧ t.looked = s.looked ++ name :: rest := by
  -- the name looked up first is the one at the offset where the loop starts
  induction h with
  | last hstep _ =>
      rcases scanStep_eq_some_iff.mp hstep with ⟨name, block, hname, -, rfl⟩
      exact ⟨name, [], hname, rfl⟩
  | more hstep _ _ ih =>
      rcases scanStep_eq_some_iff.mp hstep with ⟨name, block, hname, -, rfl⟩
      rcases ih with ⟨name', rest, -, hrest⟩
      exact ⟨name, name' :: rest, hname, by simpa [Scan.next] using hrest⟩

/-- A word of four equal non-NUL bytes, different from a given byte. -/
theorem exists_word_ne (b : Option UInt8) :
    ∃ (w : UInt32) (c : UInt8), le32 w = [c, c, c, c] ∧ c ≠ 0 ∧ b ≠ some c := by
  by_cases hb : b = some 1
  · exact ⟨0x02020202, 2, by decide, by decide, by simp [hb]⟩
  · exact ⟨0x01010101, 1, by decide, by decide, hb⟩

/-- A byte of the word just written. -/
theorem byte_of_write {block block' : Block} {w : UInt32} {c : UInt8} {off pos : Nat}
    (h : block.write off (le32 w) = some block') (hw : le32 w = [c, c, c, c]) (hle : off ≤ pos)
    (hlt : pos < off + 4) : (block'.bytes.drop pos).head? = some c := by
  rcases Block.write_eq_some_iff.mp h with ⟨hoff, -, -, hbytes⟩
  have hpos : pos = off + (pos - off) := by omega
  have hfour : pos - off < 4 := by omega
  rw [List.head?_drop, hbytes, hpos, patch_getElem? hoff (by rw [le32_length]; omega), hw]
  generalize pos - off = k at hfour
  rcases k with _ | _ | _ | _ | k <;> first | rfl | omega

/-- Up to the first answer that does not fit, the loop works as intended. -/
theorem scans_before {lookup : CStr → Option UInt32} {pre post : List CStr} {name : CStr}
    (hroom : ∀ i ≤ pre.length, 4 * i ≤ (CStr.pack (pre.take i)).length) :
    ∃ s, s.readcount = (CStr.pack pre).length ∧ s.ipcount = pre.length ∧ s.looked = pre ∧
      s.block.cap = (CStr.pack (pre ++ name :: post)).length ∧
      s.block.cstr s.readcount = some name ∧
      ∀ t, Scans lookup ((CStr.pack (pre ++ name :: post)).length : Int)
          (Scan.start (requestBlock (CStr.pack (pre ++ name :: post)))) t ↔
        Scans lookup ((CStr.pack (pre ++ name :: post)).length : Int) s t := by
  have hshorter : (CStr.pack pre).length < (CStr.pack (pre ++ name :: post)).length := by
    rw [CStr.pack_append, CStr.pack_cons, List.length_append, List.length_append, CStr.raw_length]
    omega
  rcases @scans_front lookup ((CStr.pack (pre ++ name :: post)).length : Int)
      (Scan.start (requestBlock (CStr.pack (pre ++ name :: post)))) pre
      (name.raw ++ CStr.pack post) (by simp [Scan.start, requestBlock])
      (by intro i hi; simpa [Scan.start] using hroom i hi)
      (by simp only [Scan.start, Nat.zero_add]; omega) with ⟨s, hafter, hiff⟩
  have hread : s.readcount = (CStr.pack pre).length := by simpa [Scan.start] using hafter.readcount
  refine ⟨s, hread, ?_, ?_, hafter.cap, ?_, hiff⟩
  · simpa [Scan.start] using hafter.ipcount
  · simpa [Scan.start] using hafter.looked
  · unfold Block.cstr
    rw [hafter.unread, hread]
    simp [Scan.start, requestBlock]

/-- Where an answer does not fit, some cache content makes the loop go wrong:
it leaves the block, or the next name it reads starts with a byte of the
answer. -/
theorem not_inPlaceHarmless {names : List CStr} (h : ¬ Spacious names)
    (hint : (CStr.pack names).length < 2147483648) (head : List UInt8) :
    ∃ kc now, ¬ InPlaceHarmless kc now head names := by
  rcases exists_first_overrun h with ⟨pre, name, post, rfl, hroom, hover⟩
  rcases exists_word_ne (CStr.pack post).head? with ⟨w, c, hw, hc, hpost⟩
  let kc := kacheStore (kacheInit (oneKeyTrie CStr.empty) (fun _ => 0) 0) name ⟨w, 0⟩
  have hlook : answer (tcpLookup kc 0) name = w := by
    unfold answer
    rw [tcpLookup_kacheStore_self]
    rfl
  refine ⟨kc, 0, ?_⟩
  rintro ⟨reply, ref, hreply, -, hlooked, -⟩
  rcases tcpDoSearch_eq_some_iff.mp hreply with ⟨t, ht, rfl⟩
  rw [int32_ofNat_toInt hint] at ht
  have hpack : (CStr.pack (pre ++ name :: post)).length =
      (CStr.pack pre).length + (name.length + 1) + (CStr.pack post).length := by
    simp
    omega
  have hpre : (CStr.pack (pre ++ [name])).length = (CStr.pack pre).length + (name.length + 1) := by
    simp
  have hroomPre := hroom pre.length (le_refl _)
  rw [List.take_length] at hroomPre
  rcases @scans_before (tcpLookup kc 0) pre post name hroom
    with ⟨s, hread, hipcount, hbefore, hcap, hname, hiff⟩
  -- the iteration of the overrun
  have hstep : ∀ s', scanStep (tcpLookup kc 0) s = some s' →
      ∃ block, s.block.write (4 * s.ipcount) (le32 w) = some block ∧
        s' = s.next (tcpLookup kc 0) name block := by
    intro s' hs'
    rcases scanStep_eq_some_iff.mp hs' with ⟨name', block, hname', hblock, rfl⟩
    rw [hname] at hname'
    cases hname'
    rw [hlook] at hblock
    exact ⟨block, hblock, rfl⟩
  cases (hiff t).mp ht with
  | last hs' hdone =>
      -- the names end here, but the word does not fit into the payload
      rcases hstep _ hs' with ⟨block, hblock, rfl⟩
      have hwr := Block.write_eq_some_iff.mp hblock
      rw [le32_length] at hwr
      simp only [Scan.next] at hdone
      omega
  | more hs' hleft hrest =>
      rcases hstep _ hs' with ⟨block, hblock, rfl⟩
      rcases hrest.looked_extends with ⟨next, rest, hnext, hext⟩
      -- the next name looked up is the first of the names left over
      have hpostNext : post = next :: rest := by
        have hl : t.looked = pre ++ name :: post := hlooked
        rw [hl] at hext
        simpa [Scan.next, hbefore] using hext
      -- but it starts with a byte of the answer just written
      have hfirst : (block.bytes.drop (s.readcount + name.length + 1)).head? = some c :=
        byte_of_write hblock hw (by omega) (by omega)
      have hhead : next.raw.head? = some c := by
        rw [← hfirst]
        exact CStr.scan_head hnext
      apply hpost
      rw [hpostNext, CStr.pack_cons, List.head?_append, hhead]
      rfl

/-- Answering in place is harmless for every cache content and clock value
exactly when every prefix of `i` names occupies at least `4 * i` bytes. -/
theorem in_place_harmless_iff (names : List CStr) (hne : names ≠ [])
    (hint : (CStr.pack names).length < 2147483648) (head : List UInt8) :
    (∀ kc now, InPlaceHarmless kc now head names) ↔ Spacious names := by
  constructor
  · intro hall
    by_contra hroom
    rcases not_inPlaceHarmless hroom hint head with ⟨kc, now, hbad⟩
    exact hbad (hall kc now)
  · intro hroom kc now
    exact inPlaceHarmless_of_spacious kc now head hne hroom hint

/-- A hit and two misses, and no byte to spare between them. -/
theorem in_place_harmless_three : InPlaceHarmless warmKache 0 [] threeNames :=
  (in_place_harmless_iff threeNames (List.cons_ne_nil _ _) (by decide) []).mpr spacious_three _ _

/-- The names "a" and "b": the answer to the first overwrites the second. -/
theorem in_place_overrun :
    ¬ InPlaceHarmless (kacheInit (oneKeyTrie CStr.empty) (fun _ => 0) 0) 0 []
      [⟨[97], by decide⟩, ⟨[98], by decide⟩] := by
  rintro ⟨reply, ref, hreply, -⟩
  have hnone : tcpDoSearch (kacheInit (oneKeyTrie CStr.empty) (fun _ => 0) 0) 0 []
      (requestBlock (CStr.pack [⟨[97], by decide⟩, ⟨[98], by decide⟩])) (Int32.ofNat 4) = none := by
    decide +kernel
  have hlen : (CStr.pack [⟨[97], by decide⟩, ⟨[98], by decide⟩]).length = 4 := by decide
  rw [hlen, hnone] at hreply
  simp at hreply

end DnsCache

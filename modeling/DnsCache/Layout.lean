import DnsCache.Serv

/-! # The layout on which client and server agree

`pre_do` lays the names out, `do_search` finds them again.

* `isInSet_isSome_iff`, `lowerByte_eq`: the characters of a name, and what `pre_do` makes of them.
* `serverScan`: the loop of the TCP `do_search` as it walks over the names.
* `preDo_laidOut_iff`: the two agree as long as the server's `int`s do.
-/

namespace DnsCache

open CMem

/-! ## The characters -/

/-- A letter, a digit, '.', '-' or '_'. -/
def DnsChar (c : UInt8) : Prop :=
  (97 ≤ c ∧ c ≤ 122) ∨ (65 ≤ c ∧ c ≤ 90) ∨ (48 ≤ c ∧ c ≤ 57) ∨ c = 46 ∨ c = 45 ∨ c = 95

instance (c : UInt8) : Decidable (DnsChar c) := inferInstanceAs (Decidable (_ ∨ _))

/-- 'A'-'Z' in lower case. -/
def toLower (c : UInt8) : UInt8 := if 65 ≤ c ∧ c ≤ 90 then c + 32 else c

theorem isInSet_isSome_iff (c : UInt8) : (isInSet c).isSome ↔ DnsChar c := by
  revert c
  apply forall_byte
  decide +kernel

theorem lowerByte_eq {c : UInt8} (h : DnsChar c) : lowerByte c = toLower c := by
  revert c
  apply forall_byte
  decide +kernel

theorem dnsChar_toLower {c : UInt8} (h : DnsChar c) : DnsChar (toLower c) := by
  revert c
  apply forall_byte
  decide +kernel

theorem toLower_toLower (c : UInt8) : toLower (toLower c) = toLower c := by
  revert c
  apply forall_byte
  decide +kernel

/-- A name of such characters only. -/
def DnsName (name : CStr) : Prop := ∀ c ∈ name.bytes, DnsChar c

instance (name : CStr) : Decidable (DnsName name) :=
  inferInstanceAs (Decidable (∀ c ∈ name.bytes, DnsChar c))

theorem accepted_iff (name : CStr) : Accepted name ↔ DnsName name := by
  unfold Accepted DnsName
  simp only [isInSet_isSome_iff]

theorem lowerName_bytes {name : CStr} (h : DnsName name) :
    (lowerName name).bytes = name.bytes.map toLower := by
  apply List.map_congr_left
  intro c hc
  exact lowerByte_eq (h c hc)

theorem dnsName_lowerName {name : CStr} (h : DnsName name) : DnsName (lowerName name) := by
  intro c hc
  rw [lowerName_bytes h] at hc
  rcases List.mem_map.mp hc with ⟨c', hc', rfl⟩
  exact dnsChar_toLower (h c' hc')

/-- What has been lower-cased once stays as it is. -/
theorem lowerName_lowerName {name : CStr} (h : DnsName name) :
    lowerName (lowerName name) = lowerName name := by
  apply CStr.ext
  rw [lowerName_bytes (dnsName_lowerName h), lowerName_bytes h, List.map_map]
  apply List.map_congr_left
  intro c _
  exact toLower_toLower c

theorem map_lowerName_map {names : List CStr} (h : ∀ name ∈ names, DnsName name) :
    (names.map lowerName).map lowerName = names.map lowerName := by
  rw [List.map_map]
  apply List.map_congr_left
  intro name hname
  exact lowerName_lowerName (h name hname)

theorem pack_map_lowerName {names : List CStr} (h : ∀ name ∈ names, DnsName name) :
    CStr.pack (names.map lowerName) = (CStr.pack names).map toLower := by
  induction names with
  | nil => rfl
  | cons name names ih =>
      have hnul : toLower 0 = 0 := by decide
      rw [List.map_cons, CStr.pack_cons, CStr.pack_cons, List.map_append,
        ih (fun n hn => h n (List.mem_cons_of_mem _ hn)), CStr.raw, CStr.raw,
        lowerName_bytes (h name List.mem_cons_self), List.map_append, List.map_singleton, hnul]

/-! ## The functions -/

/-- `pre_do` with the `int` of its loop. It is counted up behind the last name,
too, which has no defined result at the largest `int`. -/
def preDoInt (buf : List UInt8) (nbuf : Nat) : Option (Option Prepared) := do
  let result ← preDo buf nbuf
  if result.isSome ∧ intMax ≤ nbuf then none else return result

/-- The loop of the TCP `do_search` from `currentptr` on, without its lookups and
answers: the names, each with its offset. `readcount` and `rbuflen` are `int`s. -/
def serverScan (payload : List UInt8) (rbuflen : Int32) :
    Nat → Nat → Int32 → Option (List (Nat × CStr))
  | 0, _, _ => none
  | fuel + 1, currentptr, readcount => do
      let name ← CStr.scan (payload.drop currentptr)
      let readcount := readcount + Int32.ofNat (name.length + 1)
      if rbuflen ≤ readcount then return [(currentptr, name)]
      else
        let rest ← serverScan payload rbuflen fuel (currentptr + (name.length + 1)) readcount
        return (currentptr, name) :: rest

/-- The names `do_search` finds in a payload. Each takes a byte at least. -/
def serverNames (payload : List UInt8) (rbuflen : Int32) : Option (List (Nat × CStr)) :=
  serverScan payload rbuflen (payload.length + 1) 0 0

/-! ## What the server finds -/

/-- Two counters on the same side of the largest `int` compare as they should. -/
theorem int32_ofNat_le_iff {m n : Nat} (hn : n < 4294967296) (hmn : m ≤ n)
    (hside : n ≤ intMax ∨ intMax < m) : Int32.ofNat n ≤ Int32.ofNat m ↔ n ≤ m := by
  have hmax : intMax = 2147483647 := rfl
  rw [Int32.le_iff_toInt_le]
  rcases hside with hsmall | hlarge
  · rw [int32_ofNat_toInt (by omega), int32_ofNat_toInt (by omega)]
    omega
  · rw [int32_ofNat_toInt_large (by omega) hn, int32_ofNat_toInt_large (by omega) (by omega)]
    omega

/-- One round at a name that follows `pos` bytes. -/
theorem serverScan_name {payload rest : List UInt8} {rbuflen : Int32} {fuel pos : Nat}
    {name : CStr} (hread : payload.drop pos = name.raw ++ rest) :
    serverScan payload rbuflen (fuel + 1) pos (Int32.ofNat pos) =
      if rbuflen ≤ Int32.ofNat (pos + (name.length + 1)) then some [(pos, name)]
      else (serverScan payload rbuflen fuel (pos + (name.length + 1))
        (Int32.ofNat (pos + (name.length + 1)))).map ((pos, name) :: ·) := by
  have hcount : Int32.ofNat pos + Int32.ofNat (name.length + 1) =
      Int32.ofNat (pos + (name.length + 1)) := (Int32.ofNat_add _ _).symm
  simp only [serverScan, hread, CStr.scan_raw, Option.bind_eq_bind, Option.bind_some, hcount,
    Option.pure_def]
  split
  · rfl
  · cases serverScan payload rbuflen fuel (pos + (name.length + 1))
        (Int32.ofNat (pos + (name.length + 1))) <;> rfl

/-- The names left are found, each where it starts, when the comparisons with the
length are right from here on. -/
theorem serverScan_names {payload : List UInt8} {fuel pos : Nat} {name : CStr}
    {names : List CStr} (hread : payload.drop pos = CStr.pack (name :: names))
    (hlen : payload.length < 4294967296)
    (hside : payload.length ≤ intMax ∨ intMax < pos + (name.length + 1))
    (hfuel : names.length < fuel) :
    serverScan payload (Int32.ofNat payload.length) fuel pos (Int32.ofNat pos) =
      some (((offsetsFrom pos (name :: names)).map UInt32.toNat).zip (name :: names)) := by
  induction names generalizing pos name fuel with
  | nil =>
      rcases fuel with _ | fuel
      · simp at hfuel
      have hsize := congrArg List.length hread
      simp only [List.length_drop, CStr.pack_cons, CStr.pack_nil, List.append_nil,
        CStr.raw_length] at hsize
      -- the last name ends the payload
      have hend : payload.length = pos + (name.length + 1) := by omega
      rw [CStr.pack_cons] at hread
      rw [serverScan_name hread, ← hend,
        if_pos ((int32_ofNat_le_iff hlen (Nat.le_refl _) (by omega)).mpr (Nat.le_refl _))]
      simp [offsetsFrom, Nat.mod_eq_of_lt (show pos < 4294967296 by omega)]
  | cons next names ih =>
      rcases fuel with _ | fuel
      · simp at hfuel
      have hsize := congrArg List.length hread
      simp only [List.length_drop, CStr.pack_cons, List.length_append, CStr.raw_length] at hsize
      have hrest : payload.drop (pos + (name.length + 1)) = CStr.pack (next :: names) := by
        have hrl : name.raw.length = name.length + 1 := CStr.raw_length name
        rw [← List.drop_drop, hread, CStr.pack_cons, ← hrl, List.drop_left]
      have hleft : ¬ Int32.ofNat payload.length ≤ Int32.ofNat (pos + (name.length + 1)) := by
        rw [int32_ofNat_le_iff hlen (by omega) (by omega)]
        omega
      rw [CStr.pack_cons] at hread
      rw [serverScan_name hread, if_neg hleft, ih hrest (by omega) (by simpa using hfuel)]
      simp [offsetsFrom, Nat.mod_eq_of_lt (show pos < 4294967296 by omega)]

/-- The names of a payload are found unless the first one only ends in front of
the largest `int`. -/
theorem serverNames_pack {name : CStr} {names : List CStr}
    (hlen : (CStr.pack (name :: names)).length < 4294967296)
    (hside : (CStr.pack (name :: names)).length ≤ intMax ∨ intMax < name.length + 1) :
    serverNames (CStr.pack (name :: names)) (Int32.ofNat (CStr.pack (name :: names)).length) =
      some (((offsetsFrom 0 (name :: names)).map UInt32.toNat).zip (name :: names)) := by
  have hfuel := CStr.length_le_pack (name :: names)
  rw [List.length_cons] at hfuel
  exact serverScan_names List.drop_zero hlen (by simpa using hside) (by omega)

/-- A length above the largest `int` is negative for the server: it stops behind a
first name that is not. -/
theorem serverNames_first {name : CStr} {names : List CStr}
    (hlen : (CStr.pack (name :: names)).length < 4294967296)
    (hlarge : intMax < (CStr.pack (name :: names)).length) (hfirst : name.length + 1 ≤ intMax) :
    serverNames (CStr.pack (name :: names)) (Int32.ofNat (CStr.pack (name :: names)).length) =
      some [(0, name)] := by
  have hmax : intMax = 2147483647 := rfl
  have hread : (CStr.pack (name :: names)).drop 0 = name.raw ++ CStr.pack names := rfl
  have hstop : Int32.ofNat (CStr.pack (name :: names)).length ≤
      Int32.ofNat (0 + (name.length + 1)) := by
    rw [Int32.le_iff_toInt_le, int32_ofNat_toInt_large (by omega) hlen,
      int32_ofNat_toInt (by omega)]
    omega
  have hscan := @serverScan_name _ _ (Int32.ofNat (CStr.pack (name :: names)).length)
    (CStr.pack (name :: names)).length _ _ hread
  rw [if_pos hstop] at hscan
  exact hscan

/-- The loop of `do_search` over names that leave room for the answers finds what
`serverNames` finds. -/
theorem serverNames_looked (kc : Kache) (now : Int) (head : List UInt8) {names : List CStr}
    (hne : names ≠ []) (hroom : Spacious names) (hint : (CStr.pack names).length ≤ intMax) :
    ∃ reply found,
      tcpDoSearch kc now head (requestBlock (CStr.pack names))
        (Int32.ofNat (CStr.pack names).length) = some reply ∧
      serverNames (CStr.pack names) (Int32.ofNat (CStr.pack names).length) = some found ∧
      reply.looked = found.map Prod.snd := by
  have hmax : intMax = 2147483647 := rfl
  rcases names with _ | ⟨name, names⟩
  · exact absurd rfl hne
  refine ⟨_, _, tcpDoSearch_spacious kc now head hne hroom (by omega),
    serverNames_pack (by omega) (.inl hint), ?_⟩
  rw [List.map_snd_zip (by simp [offsetsFrom_length])]
  rfl

/-! ## What the client leaves -/

theorem preDoInt_names {names : List CStr} (beyond : List UInt8) (hne : names ≠ [])
    (hlen : headLength + (CStr.pack names).length < 4294967296) :
    preDoInt (CStr.pack names ++ beyond) names.length =
      if ∀ name ∈ names, DnsName name then
        if names.length < intMax then
          some (some ⟨(CStr.pack names).map toLower ++ beyond,
            UInt32.ofNat (headLength + (CStr.pack names).length), offsetsFrom 0 names⟩)
        else none
      else some none := by
  unfold preDoInt
  rw [preDo_behind beyond hne (by omega)]
  simp only [accepted_iff]
  by_cases hall : ∀ name ∈ names, DnsName name
  · rw [if_pos hall, if_pos hall, pack_map_lowerName hall]
    by_cases hcount : names.length < intMax
    · simp [hcount]
    · simp [hcount, Nat.not_lt.mp hcount]
  · rw [if_neg hall, if_neg hall]
    rfl

/-- Where the `i`-th name starts. -/
def startOf (names : List CStr) (i : Nat) : Nat :=
  ((names.take i).map fun name => name.length + 1).sum

/-- What `pre_do` has to leave for names at the start of a buffer: the total length
and the offsets, the names in lower case and nothing else changed, what it would leave
once more, and what the server finds in the payload. -/
structure Laid (names : List CStr) (beyond : List UInt8) (prep : Prepared) : Prop where
  total : prep.totalLength.toNat = headLength + (names.map fun name => name.length + 1).sum
  index : prep.index.map UInt32.toNat = (List.range names.length).map (startOf names)
  buf : prep.buf = (CStr.pack names).map toLower ++ beyond
  again : preDoInt prep.buf names.length = some (some prep)
  found : ∃ lowered : List CStr,
    lowered.map CStr.bytes = names.map (fun name => name.bytes.map toLower) ∧
      serverNames (prep.buf.take (payloadLength prep.totalLength))
        (prep.totalLength - UInt32.ofNat headLength).toInt32 =
          some ((prep.index.map UInt32.toNat).zip lowered)

/-- `pre_do` accepts exactly names of the right characters, and lays them out. -/
structure LaidOut (names : List CStr) (beyond : List UInt8) : Prop where
  accepts : (∃ prep, preDoInt (CStr.pack names ++ beyond) names.length = some (some prep)) ↔
    ∀ name ∈ names, ∀ c ∈ name.bytes, DnsChar c
  laid : ∀ prep, preDoInt (CStr.pack names ++ beyond) names.length = some (some prep) →
    Laid names beyond prep

/-! ## When they agree -/

theorem offsets_eq_startOf {names : List CStr} (hlen : (CStr.pack names).length < 4294967296) :
    (offsetsFrom 0 names).map UInt32.toNat = (List.range names.length).map (startOf names) := by
  apply List.ext_getElem
  · simp [offsetsFrom_length]
  · intro i hi _
    rw [List.length_map, offsetsFrom_length] at hi
    have hget := @offsetsFrom_getElem? 0 i names hi
    rw [List.getElem?_eq_some_iff] at hget
    rcases hget with ⟨_, hget⟩
    have hsplit := congrArg (fun l => (CStr.pack l).length) (List.take_append_drop i names)
    simp only [CStr.pack_append, List.length_append] at hsplit
    rw [List.getElem_map, hget, Nat.zero_add, toNat_ofNat_small (by omega), List.getElem_map,
      List.getElem_range, startOf, CStr.pack_length]

/-- What `pre_do` leaves of accepted names. -/
def prepared (names : List CStr) (beyond : List UInt8) : Prepared where
  buf := (CStr.pack names).map toLower ++ beyond
  totalLength := UInt32.ofNat (headLength + (CStr.pack names).length)
  index := offsetsFrom 0 names

/-- The server reads the names in lower case and nothing behind them. -/
theorem prepared_payload {names : List CStr} (beyond : List UInt8)
    (hall : ∀ name ∈ names, DnsName name)
    (hlen : headLength + (CStr.pack names).length < 4294967296) :
    serverNames ((prepared names beyond).buf.take (payloadLength (prepared names beyond).totalLength))
        ((prepared names beyond).totalLength - UInt32.ofNat headLength).toInt32 =
      serverNames (CStr.pack (names.map lowerName))
        (Int32.ofNat (CStr.pack (names.map lowerName)).length) := by
  have hsmall := toNat_ofNat_small (Nat.lt_of_le_of_lt (Nat.le_add_left _ headLength) hlen)
  rw [prepared, payloadLength, payload_length, hsmall, toInt32_ofNat, pack_lowerName_length,
    pack_map_lowerName hall, List.take_left' (List.length_map _)]

/-- Accepted names are laid out again as they are. -/
theorem prepared_again {names : List CStr} (beyond : List UInt8) (hne : names ≠ [])
    (hall : ∀ name ∈ names, DnsName name) (hcount : names.length < intMax)
    (hlen : headLength + (CStr.pack names).length < 4294967296) :
    preDoInt (prepared names beyond).buf names.length = some (some (prepared names beyond)) := by
  have hall' : ∀ name ∈ names.map lowerName, DnsName name := by
    intro name hname
    rcases List.mem_map.mp hname with ⟨n, hn, rfl⟩
    exact dnsName_lowerName (hall n hn)
  have h := @preDoInt_names (names.map lowerName) beyond (by simpa using hne)
    (by rw [pack_lowerName_length]; exact hlen)
  rw [List.length_map, if_pos hall', if_pos hcount, pack_lowerName_length, offsetsFrom_lower,
    ← pack_map_lowerName hall', map_lowerName_map hall, pack_map_lowerName hall] at h
  exact h

/-- What `pre_do` leaves of accepted names is as it has to be when the server's
comparisons are right, or wrong from the first name on. -/
theorem laid_prepared_iff {name : CStr} {names : List CStr} (beyond : List UInt8)
    (hall : ∀ n ∈ name :: names, DnsName n) (hcount : (name :: names).length < intMax)
    (hlen : headLength + (CStr.pack (name :: names)).length < 4294967296) :
    Laid (name :: names) beyond (prepared (name :: names) beyond) ↔
      (CStr.pack (name :: names)).length ≤ intMax ∨ intMax ≤ name.length := by
  have hlower := pack_lowerName_length (name :: names)
  have hoffsets := offsetsFrom_lower 0 (name :: names)
  rw [List.map_cons] at hlower hoffsets
  constructor
  · intro h
    by_contra hwrapped
    rw [not_or, Nat.not_le, Nat.not_le] at hwrapped
    rcases h.found with ⟨lowered, hbytes, hfound⟩
    rw [prepared_payload beyond hall hlen, List.map_cons,
      serverNames_first (by omega) (by omega) (by rw [lowerName_length]; exact hwrapped.2),
      Option.some.injEq] at hfound
    -- a scan that stops behind the first name has found them all: there is one
    have hcounted := congrArg List.length hbytes
    have hone := congrArg List.length hfound
    simp only [prepared, List.length_map, List.length_cons, List.length_nil, List.length_zip,
      offsetsFrom_length] at hcounted hone
    have hnil : names = [] := List.length_eq_zero_iff.mp (by omega)
    rw [hnil, CStr.pack_cons, CStr.pack_nil, List.append_nil, CStr.raw_length] at hwrapped
    omega
  · intro hside
    refine ⟨?_, ?_, rfl, prepared_again beyond (by simp) hall hcount hlen, ?_⟩
    · rw [prepared, toNat_ofNat_small hlen, CStr.pack_length]
    · exact offsets_eq_startOf (by omega)
    · refine ⟨(name :: names).map lowerName, ?_, ?_⟩
      · rw [List.map_map]
        apply List.map_congr_left
        intro n hn
        exact lowerName_bytes (hall n hn)
      · rw [prepared_payload beyond hall hlen, List.map_cons,
          serverNames_pack (by omega) (by rw [lowerName_length]; omega), hoffsets]
        rfl

/-- Names that are not accepted promise nothing; accepted names of which there
are too many for the `int` of the loop are never laid out. -/
theorem laidOut_iff {name : CStr} {names : List CStr} (beyond : List UInt8)
    (hlen : headLength + (CStr.pack (name :: names)).length < 4294967296) :
    LaidOut (name :: names) beyond ↔ (∀ n ∈ name :: names, DnsName n) →
      (name :: names).length < intMax ∧
        ((CStr.pack (name :: names)).length ≤ intMax ∨ intMax ≤ name.length) := by
  have hpre := preDoInt_names beyond (List.cons_ne_nil name names) hlen
  constructor
  · intro h hall
    rcases h.accepts.mpr hall with ⟨prep, hprep⟩
    have hlaid := h.laid prep hprep
    rw [hpre, if_pos hall] at hprep
    split at hprep
    · rename_i hcount
      cases hprep
      exact ⟨hcount, (laid_prepared_iff beyond hall hcount hlen).mp hlaid⟩
    · simp at hprep
  · intro h
    by_cases hall : ∀ n ∈ name :: names, DnsName n
    · rcases h hall with ⟨hcount, hside⟩
      rw [if_pos hall, if_pos hcount] at hpre
      refine ⟨⟨fun _ => hall, fun _ => ⟨_, hpre⟩⟩, ?_⟩
      intro prep hprep
      rw [hpre] at hprep
      cases hprep
      exact (laid_prepared_iff beyond hall hcount hlen).mpr hside
    · rw [if_neg hall] at hpre
      refine ⟨⟨?_, fun hall' => absurd hall' hall⟩, ?_⟩
      · rintro ⟨prep, hprep⟩
        rw [hpre] at hprep
        simp at hprep
      · intro prep hprep
        rw [hpre] at hprep
        simp at hprep

/-- Client and server agree on the names of a buffer exactly when some character
is not in the set, or when there are fewer names than the largest `int` and the
payload is no longer than that, or its first name is no shorter. -/
theorem preDo_laidOut_iff (names : List CStr) (beyond : List UInt8) (hne : names ≠ [])
    (hint : names.length ≤ intMax)
    (hlen : headLength + (CStr.pack names).length < 4294967296) :
    LaidOut names beyond ↔ (∃ name ∈ names, ∃ c ∈ name.bytes, ¬ DnsChar c) ∨
      (names.length ≠ intMax ∧
        ((CStr.pack names).length ≤ intMax ∨ intMax ≤ (names.head hne).length)) := by
  rcases names with _ | ⟨name, names⟩
  · exact absurd rfl hne
  have hnot : (∃ n ∈ name :: names, ∃ c ∈ n.bytes, ¬ DnsChar c) ↔
      ¬ ∀ n ∈ name :: names, DnsName n := by
    simp only [DnsName, not_forall, exists_prop]
  have hcount : (name :: names).length ≠ intMax ↔ (name :: names).length < intMax := by omega
  rw [laidOut_iff beyond hlen, hnot, hcount, ← imp_iff_not_or]
  rfl

/-- Two names, the second one empty: the offsets are 0 and 3. -/
theorem preDo_laidOut_two :
    LaidOut [⟨[65, 98], by decide⟩, CStr.empty] [99] :=
  (preDo_laidOut_iff [⟨[65, 98], by decide⟩, CStr.empty] [99] (by simp) (by decide)
    (by decide)).mpr (.inr ⟨by decide, .inl (by decide)⟩)

/-- There are names of any length. -/
theorem exists_dnsName (n : Nat) : ∃ name : CStr, name.length = n ∧ DnsName name := by
  have hmem : ∀ c ∈ List.replicate n (97 : UInt8), c = 97 := fun c hc => (List.mem_replicate.mp hc).2
  refine ⟨⟨List.replicate n 97, fun h => absurd (hmem 0 h) (by decide)⟩, ?_, ?_⟩
  · exact List.length_replicate
  · intro c hc
    rw [hmem c hc]
    decide

/-- An empty name and one of `2 ^ 31` characters: the length of the payload is
negative for the server, which stops behind the empty name. -/
theorem long_payload_cut_short :
    ∃ name : CStr, name.length = 2147483648 ∧
      headLength + (CStr.pack [CStr.empty, name]).length < 4294967296 ∧
      ¬ LaidOut [CStr.empty, name] [] := by
  rcases exists_dnsName 2147483648 with ⟨name, hname, hchars⟩
  have hsize : (CStr.pack [CStr.empty, name]).length = 2147483650 := by
    rw [CStr.pack_length, List.map_cons, List.map_singleton, List.sum_cons, List.sum_singleton,
      hname]
    rfl
  have hall : ∀ n ∈ [CStr.empty, name], DnsName n := by
    intro n hn c hc
    rcases List.mem_cons.mp hn with rfl | hn
    · simp [CStr.empty] at hc
    · rw [List.mem_singleton.mp hn] at hc
      exact hchars c hc
  have hlen : headLength + (CStr.pack [CStr.empty, name]).length < 4294967296 := by
    rw [hsize]
    decide
  refine ⟨name, hname, hlen, ?_⟩
  intro h
  rcases (laidOut_iff [] hlen).mp h hall with ⟨-, hside⟩
  rw [hsize] at hside
  exact absurd hside (by decide)

end DnsCache

import DnsCache.Constants

/-! # The request side of `dc_client.c`

`pre_do` checks and lower-cases the names in the caller's buffer, measures the
buffer and records where each name starts; `build_head` makes the head.
`preDo_eq`: on packed names it accepts exactly those whose characters are all
in the set.
-/

namespace DnsCache

open CMem

/-! ## The functions -/

/-- `is_in_set (c)`: the character it leaves at `*c`, `none` when it is not in the set. -/
def isInSet (c : UInt8) : Option UInt8 :=
  if (97 ≤ c ∧ c ≤ 122) ∨ c = 46 then some c
  else if c = 45 then some c
  else if 48 ≤ c ∧ c ≤ 57 then some c
  else if 65 ≤ c ∧ c ≤ 90 then some (c + 32)
  else if c = 95 then some c
  else none

/-- What `pre_do` leaves when it returns `SUCCESS`: the buffer, `*total_length` and `index`. -/
structure Prepared where
  buf : List UInt8
  totalLength : UInt32
  index : List UInt32
deriving DecidableEq, Repr

/-- The `while` of `pre_do`: up to the next NUL. The inner option is empty for
`NOT_IN_SET`, the outer one when the buffer is left. -/
def preDoWhile : Nat → List UInt8 → UInt32 → Option (Option (List UInt8 × UInt32))
  | 0, _, _ => none
  | fuel + 1, buf, pos =>
      match buf[pos.toNat]? with
      | none => none
      | some c =>
          if c = 0 then some (some (buf, pos))
          else match isInSet c with
            | none => some none
            | some c' => preDoWhile fuel (buf.set pos.toNat c') (pos + 1)

/-- The `for` of `pre_do` with `k` rounds to go. -/
def preDoFor : Nat → List UInt8 → UInt32 → List UInt32 → Option (Option Prepared)
  | 0, buf, pos, index => some (some ⟨buf, pos + UInt32.ofNat headLength, index⟩)
  | k + 1, buf, pos, index =>
      match preDoWhile (buf.length + 1) buf pos with
      | none => none
      | some none => some none
      | some (some (buf, pos)) =>
          preDoFor k buf (pos + 1) (if k = 0 then index else index ++ [pos + 1])

/-- `pre_do (buf, total_length, index, nbuf)`. -/
def preDo (buf : List UInt8) (nbuf : Nat) : Option (Option Prepared) := preDoFor nbuf buf 0 [0]

/-- `build_head`. -/
def buildHead (totalLength : UInt32) : List UInt8 :=
  le32 totalLength ++ le32 magicNumber ++ le32 1 ++ [reservedByte]

/-! ## Names in lower case -/

theorem isInSet_ne_zero {c c' : UInt8} (h : isInSet c = some c') : c' ≠ 0 := by
  have hc : ∀ c, isInSet c ≠ some 0 := by
    apply forall_byte
    decide +kernel
  intro h0
  exact hc c (h0 ▸ h)

/-- The character `pre_do` leaves. -/
def lowerByte (c : UInt8) : UInt8 := (isInSet c).getD c

theorem lowerByte_ne_zero {c : UInt8} (h : c ≠ 0) : lowerByte c ≠ 0 := by
  unfold lowerByte
  cases hc : isInSet c with
  | none => exact h
  | some c' => exact isInSet_ne_zero hc

/-- The name `pre_do` leaves. -/
def lowerName (name : CStr) : CStr where
  bytes := name.bytes.map lowerByte
  noNul := by
    intro h
    rcases List.mem_map.mp h with ⟨c, hc, h0⟩
    have hne : c ≠ 0 := by
      intro hzero
      exact name.noNul (hzero ▸ hc)
    exact lowerByte_ne_zero hne h0

@[simp] theorem lowerName_length (name : CStr) : (lowerName name).length = name.length :=
  List.length_map _

theorem pack_lowerName_length (names : List CStr) :
    (CStr.pack (names.map lowerName)).length = (CStr.pack names).length := by
  induction names with
  | nil => rfl
  | cons name names ih =>
      simp only [List.map_cons, CStr.pack_cons, List.length_append, CStr.raw_length,
        lowerName_length, ih]

/-- All characters of the name are in the set. -/
def Accepted (name : CStr) : Prop := ∀ c ∈ name.bytes, (isInSet c).isSome

instance (name : CStr) : Decidable (Accepted name) :=
  inferInstanceAs (Decidable (∀ c ∈ name.bytes, (isInSet c).isSome))

/-! ## What `pre_do` computes -/

/-- The inner loop runs over one name. -/
theorem preDoWhile_bytes {fuel : Nat} {pre bs rest : List UInt8} (hnul : 0 ∉ bs)
    (hfuel : bs.length < fuel) (hlen : pre.length + bs.length < 4294967296) :
    preDoWhile fuel (pre ++ (bs ++ 0 :: rest)) (UInt32.ofNat pre.length) =
      if ∀ c ∈ bs, (isInSet c).isSome then
        some (some (pre ++ (bs.map lowerByte ++ 0 :: rest),
          UInt32.ofNat (pre.length + bs.length)))
      else some none := by
  induction bs generalizing fuel pre with
  | nil =>
      rcases fuel with _ | fuel
      · simp at hfuel
      · have hpos := toNat_ofNat_small (show pre.length < 4294967296 by simpa using hlen)
        simp [preDoWhile, hpos]
  | cons c bs ih =>
      rcases fuel with _ | fuel
      · simp at hfuel
      · simp only [List.length_cons] at hfuel hlen
        have hpos := toNat_ofNat_small (show pre.length < 4294967296 by omega)
        have hget : (pre ++ (c :: bs ++ 0 :: rest))[pre.length]? = some c := by
          rw [List.getElem?_append_right (Nat.le_refl _), Nat.sub_self]
          rfl
        have hc : c ≠ 0 := by
          intro h
          exact hnul (by simp [h])
        have hnul' : 0 ∉ bs := by
          intro h
          exact hnul (List.mem_cons_of_mem _ h)
        simp only [preDoWhile, hpos, hget, if_neg hc]
        cases hin : isInSet c with
        | none => simp [hin]
        | some c' =>
            -- the character is overwritten and the loop goes on behind it
            have hset : (pre ++ (c :: bs ++ 0 :: rest)).set pre.length c' =
                (pre ++ [c']) ++ (bs ++ 0 :: rest) := by
              rw [List.set_append_right _ _ (Nat.le_refl _), Nat.sub_self]
              simp
            have hnext : UInt32.ofNat pre.length + 1 = UInt32.ofNat (pre ++ [c']).length := by
              rw [ofNat_succ]
              simp
            have hlow : lowerByte c = c' := by simp [lowerByte, hin]
            dsimp only
            rw [hset, hnext, ih hnul' (by omega) (by simp; omega)]
            simp [hin, hlow, Nat.add_comm, Nat.add_left_comm]

/-- Where the names of a buffer start, the first one at `pos`. -/
def offsetsFrom : Nat → List CStr → List UInt32
  | _, [] => []
  | pos, name :: names => UInt32.ofNat pos :: offsetsFrom (pos + (name.length + 1)) names

theorem offsetsFrom_length (pos : Nat) (names : List CStr) :
    (offsetsFrom pos names).length = names.length := by
  induction names generalizing pos with
  | nil => rfl
  | cons name names ih => simp [offsetsFrom, ih]

theorem offsetsFrom_getElem? {pos i : Nat} {names : List CStr} (h : i < names.length) :
    (offsetsFrom pos names)[i]? =
      some (UInt32.ofNat (pos + (CStr.pack (names.take i)).length)) := by
  induction names generalizing pos i with
  | nil => simp at h
  | cons name names ih =>
      rcases i with _ | i
      · simp [offsetsFrom]
      · rw [offsetsFrom, List.getElem?_cons_succ, ih (by simpa using h)]
        simp [Nat.add_assoc]

theorem offsetsFrom_lower (pos : Nat) (names : List CStr) :
    offsetsFrom pos (names.map lowerName) = offsetsFrom pos names := by
  induction names generalizing pos with
  | nil => rfl
  | cons name names ih => simp [offsetsFrom, ih]

/-- The outer loop runs over the names left, in front of whatever follows. -/
theorem preDoFor_names {names : List CStr} {pre rest : List UInt8} {index : List UInt32}
    (hne : names ≠ []) (hlen : pre.length + (CStr.pack names).length < 4294967296) :
    preDoFor names.length (pre ++ (CStr.pack names ++ rest)) (UInt32.ofNat pre.length)
        (index ++ [UInt32.ofNat pre.length]) =
      if ∀ name ∈ names, Accepted name then
        some (some ⟨pre ++ (CStr.pack (names.map lowerName) ++ rest),
          UInt32.ofNat (headLength + (pre.length + (CStr.pack names).length)),
          index ++ offsetsFrom pre.length names⟩)
      else some none := by
  induction names generalizing pre index with
  | nil => exact absurd rfl hne
  | cons name names ih =>
      simp only [CStr.pack_cons, List.length_append, CStr.raw_length] at hlen
      have hraw : name.raw ++ CStr.pack names ++ rest =
          name.bytes ++ 0 :: (CStr.pack names ++ rest) := by
        simp [CStr.raw]
      have hwhile := @preDoWhile_bytes ((pre ++ (CStr.pack (name :: names) ++ rest)).length + 1)
        pre name.bytes (CStr.pack names ++ rest) name.noNul
        (by simp only [CStr.pack_cons, hraw, List.length_append, List.length_cons]; omega)
        (by show pre.length + name.length < _; omega)
      have hbuf : pre ++ (CStr.pack (name :: names) ++ rest) =
          pre ++ (name.bytes ++ 0 :: (CStr.pack names ++ rest)) := by rw [CStr.pack_cons, hraw]
      rw [hbuf] at hwhile ⊢
      rw [List.length_cons, preDoFor, hwhile]
      by_cases hacc : ∀ c ∈ name.bytes, (isInSet c).isSome
      · rw [if_pos hacc]
        dsimp only
        have hlow : pre ++ (name.bytes.map lowerByte ++ 0 :: (CStr.pack names ++ rest)) =
            (pre ++ (lowerName name).raw) ++ (CStr.pack names ++ rest) := by
          simp [CStr.raw, lowerName]
        have hlowlen : (pre ++ (lowerName name).raw).length = pre.length + (name.length + 1) := by
          simp
        have hpos : UInt32.ofNat (pre.length + name.bytes.length) + 1 =
            UInt32.ofNat (pre ++ (lowerName name).raw).length := by
          rw [ofNat_succ, hlowlen]
          rfl
        rw [hlow, hpos]
        rcases names with _ | ⟨name', names⟩
        · -- the last name: its end is not recorded
          have hall : ∀ n ∈ [name], Accepted n := by
            intro n hn
            rw [List.mem_singleton] at hn
            rw [hn]
            exact hacc
          rw [if_pos hall]
          rw [List.length_nil, preDoFor, ← UInt32.ofNat_add, hlowlen, if_pos rfl]
          simp [offsetsFrom, Nat.add_comm, Nat.add_left_comm]
        · -- more names: the start of the next one is recorded
          have hne' : (name' :: names).length ≠ 0 := by simp
          rw [if_neg hne', ih (by simp) (by rw [hlowlen]; omega)]
          have hall : (∀ n ∈ name :: name' :: names, Accepted n) ↔
              ∀ n ∈ name' :: names, Accepted n := by
            constructor
            · intro h n hn
              exact h n (List.mem_cons_of_mem _ hn)
            · intro h n hn
              rcases List.mem_cons.mp hn with rfl | hn
              · exact hacc
              · exact h n hn
          simp only [hall, hlowlen, List.map_cons, CStr.pack_cons, List.append_assoc,
            List.length_append, CStr.raw_length, offsetsFrom, List.cons_append, List.nil_append,
            Nat.add_assoc]
      · rw [if_neg hacc]
        have hnot : ¬ ∀ n ∈ name :: names, Accepted n := by
          intro h
          exact hacc (h name List.mem_cons_self)
        rw [if_neg hnot]

theorem preDoWhile_length {fuel : Nat} {buf buf' : List UInt8} {pos pos' : UInt32}
    (h : preDoWhile fuel buf pos = some (some (buf', pos'))) : buf'.length = buf.length := by
  induction fuel generalizing buf pos with
  | zero => simp [preDoWhile] at h
  | succ fuel ih =>
      unfold preDoWhile at h
      split at h
      · simp at h
      · split at h
        · cases h
          rfl
        · split at h
          · simp at h
          · rw [ih h, List.length_set]

/-- The names are changed in place. -/
theorem preDoFor_length {k : Nat} {buf : List UInt8} {pos : UInt32} {index : List UInt32}
    {prep : Prepared} (h : preDoFor k buf pos index = some (some prep)) :
    prep.buf.length = buf.length := by
  induction k generalizing buf pos index with
  | zero =>
      cases h
      rfl
  | succ k ih =>
      unfold preDoFor at h
      split at h
      · simp at h
      · simp at h
      · rename_i hwhile
        rw [ih h, preDoWhile_length hwhile]

/-- Packed names in front of whatever follows. -/
theorem preDo_behind {names : List CStr} (rest : List UInt8) (hne : names ≠ [])
    (hlen : (CStr.pack names).length < 4294967296) :
    preDo (CStr.pack names ++ rest) names.length =
      if ∀ name ∈ names, Accepted name then
        some (some ⟨CStr.pack (names.map lowerName) ++ rest,
          UInt32.ofNat (headLength + (CStr.pack names).length), offsetsFrom 0 names⟩)
      else some none := by
  have h := @preDoFor_names names [] rest [] hne (by simpa using hlen)
  simpa [preDo] using h

/-- On packed names `pre_do` accepts exactly those whose characters are all in
the set, measures them and records where each of them starts. -/
theorem preDo_eq {names : List CStr} (hne : names ≠ [])
    (hlen : (CStr.pack names).length < 4294967296) :
    preDo (CStr.pack names) names.length =
      if ∀ name ∈ names, Accepted name then
        some (some ⟨CStr.pack (names.map lowerName),
          UInt32.ofNat (headLength + (CStr.pack names).length), offsetsFrom 0 names⟩)
      else some none := by
  have h := preDo_behind [] hne hlen
  rwa [List.append_nil, List.append_nil] at h

/-! ## Whatever the total length -/

theorem preDoWhile_nuls {fuel : Nat} {buf buf' : List UInt8} {pos pos' : UInt32}
    (h : preDoWhile fuel buf pos = some (some (buf', pos'))) : nuls buf' = nuls buf := by
  induction fuel generalizing buf pos with
  | zero => simp [preDoWhile] at h
  | succ fuel ih =>
      unfold preDoWhile at h
      split at h
      · simp at h
      · rename_i c hget
        split at h
        · cases h
          rfl
        · rename_i hc
          split at h
          · simp at h
          · rename_i c' hin
            rw [ih h, nuls_set hget hc (isInSet_ne_zero hin)]

/-- `pre_do` moves no NUL. -/
theorem preDoFor_nuls {k : Nat} {buf : List UInt8} {pos : UInt32} {index : List UInt32}
    {prep : Prepared} (h : preDoFor k buf pos index = some (some prep)) :
    nuls prep.buf = nuls buf ∧ prep.index.length = index.length + (k - 1) := by
  induction k generalizing buf pos index with
  | zero =>
      cases h
      exact ⟨rfl, rfl⟩
  | succ k ih =>
      unfold preDoFor at h
      split at h
      · simp at h
      · simp at h
      · rename_i hwhile
        rcases ih h with ⟨hnuls, hindex⟩
        refine ⟨by rw [hnuls, preDoWhile_nuls hwhile], ?_⟩
        rw [hindex]
        split
        · omega
        · rw [List.length_append, List.length_singleton]
          omega

/-- A buffer that `pre_do` has accepted, even one for which the `uint32`s have
wrapped: names of the same lengths, and an index that points to them. -/
theorem preDo_shape {names : List CStr} {rest : List UInt8} {prep : Prepared} (hne : names ≠ [])
    (h : preDo (CStr.pack names ++ rest) names.length = some (some prep)) :
    nuls prep.buf = nuls (CStr.pack names ++ rest) ∧ prep.index.length = names.length ∧
      ∀ p ∈ prep.index, p.toNat < (CStr.pack names).length := by
  rcases preDoFor_nuls h with ⟨hnuls, hindex⟩
  have hpos := List.length_pos_of_ne_nil hne
  refine ⟨hnuls, by rw [hindex, List.length_singleton]; omega, ?_⟩
  intro p hp
  rcases Nat.lt_or_ge (CStr.pack names).length 4294967296 with hsmall | hlarge
  · rw [preDo_behind rest hne hsmall] at h
    split at h
    · cases h
      rcases List.mem_iff_getElem?.mp hp with ⟨i, hi⟩
      have hlt : i < names.length := by
        have h := (List.getElem?_eq_some_iff.mp hi).1
        rwa [hindex, List.length_singleton, Nat.add_sub_cancel' hpos] at h
      rw [offsetsFrom_getElem? hlt, Nat.zero_add, Option.some.injEq] at hi
      have hsplit := congrArg (fun l => (CStr.pack l).length) (List.take_append_drop i names)
      have hrest := CStr.length_le_pack (names.drop i)
      rw [List.length_drop] at hrest
      simp only [CStr.pack_append, List.length_append] at hsplit
      rw [← hi, toNat_ofNat_small (by omega)]
      omega
    · simp at h
  · exact Nat.lt_of_lt_of_le p.toNat_lt hlarge

end DnsCache

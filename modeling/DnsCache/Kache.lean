import Mathlib.Data.List.OfFn
import Mathlib.Logic.Function.Basic
import DnsCache.Lib.LastWrite
import DnsCache.Constants

/-! # The cache of `dl_kache.c`

Two levels: entries of the main trie are found by their trie index, all other
keys share a table of `HASHSIZE` slots, where a slot remembers at most four
bytes of the key that was stored there.

* `kacheRetrieve`, `kacheStore`, `kacheInit`: the functions of the source.
* `hashData_hData`, `hashData_partKey`, `mainTrData_run`: what the tables hold
  after any sequence of stores, as the last write to each cell.
* `retrieve_answers_own_iff`: when an answer is an answer for the key asked.
-/

namespace DnsCache

open CMem LastWrite

/-- `data_t`. Times (`time_t`) are integers, in seconds. -/
structure DataT where
  ip : UInt32
  timestamp : Int
deriving DecidableEq, Repr

/-- `hash_data_t`: the data and up to four bytes of the key. -/
structure HashDataT where
  hData : DataT
  partKey : Fin 4 → UInt8

/-- What `trie_retrieve` answers on the main trie: a partial map from keys to
indices of `main_tr_data`. -/
structure MainTrie where
  retrieve : CStr → Option Nat
  range : ∀ k i, retrieve k = some i → 1 ≤ i ∧ i ≤ trieSize - 1

/-- No two keys of the trie share an index. -/
def MainTrie.Injective (tr : MainTrie) : Prop :=
  ∀ k k' i, tr.retrieve k = some i → tr.retrieve k' = some i → k = k'

/-- The state of the module: `main_tr`, `main_tr_data` and `hash_data`. -/
structure Kache where
  mainTr : MainTrie
  mainTrData : Nat → DataT
  hashData : Nat → HashDataT

/-- `BKDRHash`: arithmetic on `uint32` wraps, and the result is masked to 25 bits. -/
def bkdrHash (str : CStr) : UInt32 :=
  (str.bytes.foldl (fun hash c => hash * 131 + c.toUInt32) 0) &&& 0x1ffffff

/-- The hash is an index of `hash_data`. -/
theorem bkdrHash_lt (k : CStr) : (bkdrHash k).toNat < hashSize := by
  unfold bkdrHash
  rw [UInt32.toNat_and]
  exact Nat.lt_of_le_of_lt Nat.and_le_right (by decide)

/-- `kache_init`. `ips i` is the address parsed from line `i` of `IPLISTPATH`,
and `now` the time of the call. -/
def kacheInit (mainTr : MainTrie) (ips : Nat → UInt32) (now : Int) : Kache where
  mainTr := mainTr
  mainTrData := fun i => if 1 ≤ i ∧ i ≤ trieSize - 1 then ⟨ips i, now⟩ else ⟨0, 0⟩
  hashData := fun _ => ⟨⟨0, 0⟩, fun _ => 0⟩

/-- `strlen (key) > 4 ? 4 : strlen (key)`. -/
def partLen (key : CStr) : Nat := if key.length > 4 then 4 else key.length

/-- `kache_retrieve`: the entry the returned pointer points to, `none` for NULL. -/
def kacheRetrieve (kc : Kache) (key : CStr) : Option DataT :=
  match kc.mainTr.retrieve key with
  | some index => some (kc.mainTrData index)
  | none =>
      let slot := kc.hashData (bkdrHash key).toNat
      if strncmpEq (List.ofFn slot.partKey) key.raw (partLen key) then some slot.hData
      else none

/-- The `memcpy` of the first `len` bytes of the key over `part_key`: the bytes
behind them keep their old value. -/
def copyPart (old : Fin 4 → UInt8) (key : CStr) : Fin 4 → UInt8 :=
  fun i => if i.val < partLen key then key.raw.getD i 0 else old i

/-- `kache_store`. -/
def kacheStore (kc : Kache) (key : CStr) (data : DataT) : Kache :=
  match kc.mainTr.retrieve key with
  | some index => { kc with mainTrData := Function.update kc.mainTrData index data }
  | none =>
      let hashVal := (bkdrHash key).toNat
      { kc with
        hashData := Function.update kc.hashData hashVal
          ⟨data, copyPart (kc.hashData hashVal).partKey key⟩ }

/-! ## One call -/

@[simp] theorem kacheInit_mainTr (tr : MainTrie) (ips : Nat → UInt32) (now : Int) :
    (kacheInit tr ips now).mainTr = tr := rfl

@[simp] theorem kacheStore_mainTr (kc : Kache) (k : CStr) (d : DataT) :
    (kacheStore kc k d).mainTr = kc.mainTr := by
  unfold kacheStore
  split <;> rfl

/-- The bytes of `p` that a key of this length is compared with are its own. -/
def Marked (p : Fin 4 → UInt8) (k : CStr) : Prop :=
  ∀ i : Fin 4, i.val < k.length → p i = k.bytes.getD i 0

instance (p : Fin 4 → UInt8) (k : CStr) : Decidable (Marked p k) :=
  inferInstanceAs (Decidable (∀ _ : Fin 4, _ → _))

theorem partLen_eq (k : CStr) : partLen k = min 4 k.length := by
  unfold partLen
  split <;> omega

theorem strncmp_partKey (p : Fin 4 → UInt8) (k : CStr) :
    strncmpEq (List.ofFn p) k.raw (partLen k) = true ↔ Marked p k := by
  have hlen : partLen k ≤ k.bytes.length := by
    rw [partLen_eq]
    exact Nat.min_le_right _ _
  have htake : k.raw.take (partLen k) = k.bytes.take (partLen k) := by
    rw [CStr.raw, List.take_append_of_le_length hlen]
  have hnul : 0 ∉ k.raw.take (partLen k) := by
    rw [htake]
    intro h
    exact k.noNul (List.mem_of_mem_take h)
  have hfour : partLen k ≤ (List.ofFn p).length := by
    rw [partLen_eq, List.length_ofFn]
    exact Nat.min_le_left _ _
  have hraw : partLen k ≤ k.raw.length := by
    rw [CStr.raw_length]
    exact Nat.le_succ_of_le hlen
  rw [strncmpEq_iff hfour hraw hnul, htake]
  constructor
  · intro h i hi
    have hi' : i.val < partLen k := by
      rw [partLen_eq]
      omega
    have hib : i.val < k.bytes.length := hi
    have hget := congrArg (fun l => l[i.val]?) h
    simp only [List.getElem?_take, hi', if_true, List.getElem?_ofFn, i.isLt, dite_true] at hget
    rw [List.getD_eq_getElem?_getD, ← hget, Option.getD_some]
  · intro h
    apply List.ext_getElem?
    intro j
    rw [List.getElem?_take, List.getElem?_take]
    split
    · rename_i hj
      have hj4 : j < 4 := by
        rw [partLen_eq] at hj
        omega
      have hjk : j < k.bytes.length := Nat.lt_of_lt_of_le hj hlen
      have hp := h ⟨j, hj4⟩ hjk
      rw [List.getElem?_ofFn, dif_pos hj4, hp, List.getElem?_eq_getElem hjk]
      simp [hjk]
    · rfl

theorem kacheRetrieve_main {kc : Kache} {k : CStr} {i : Nat} (h : kc.mainTr.retrieve k = some i) :
    kacheRetrieve kc k = some (kc.mainTrData i) := by
  simp [kacheRetrieve, h]

theorem kacheRetrieve_hash {kc : Kache} {k : CStr} (h : kc.mainTr.retrieve k = none) :
    kacheRetrieve kc k =
      if Marked (kc.hashData (bkdrHash k).toNat).partKey k
      then some (kc.hashData (bkdrHash k).toNat).hData else none := by
  simp only [kacheRetrieve, h, strncmp_partKey]

theorem copyPart_marked (old : Fin 4 → UInt8) (k : CStr) : Marked (copyPart old k) k := by
  intro i hi
  have hi' : i.val < partLen k := by
    rw [partLen_eq]
    omega
  have hib : i.val < k.bytes.length := hi
  simp [copyPart, hi', CStr.raw, List.getElem?_append_left hib]

/-- A stored entry is found again under its own key. -/
theorem kacheRetrieve_kacheStore_self (kc : Kache) (k : CStr) (d : DataT) :
    kacheRetrieve (kacheStore kc k d) k = some d := by
  cases htr : kc.mainTr.retrieve k with
  | some i =>
      rw [kacheRetrieve_main (i := i) (by simpa using htr)]
      simp [kacheStore, htr]
  | none =>
      rw [kacheRetrieve_hash (by simpa using htr)]
      simp [kacheStore, htr, copyPart_marked]

/-! ## Any sequence of stores -/

/-- The cache after the calls `kache_store (s.1, s.2)` of `stores`, in order. -/
def kacheRun (kc : Kache) (stores : List (CStr × DataT)) : Kache :=
  stores.foldl (fun c s => kacheStore c s.1 s.2) kc

/-- The call was made under exactly this key. -/
def under (k : CStr) (s : CStr × DataT) : Bool := s.1 == k

/-- The call wrote this entry of `main_tr_data`. -/
def indexedTo (tr : MainTrie) (i : Nat) (s : CStr × DataT) : Bool := tr.retrieve s.1 == some i

/-- The call wrote this slot of `hash_data`. -/
def hashedTo (tr : MainTrie) (h : Nat) (s : CStr × DataT) : Bool :=
  (tr.retrieve s.1).isNone && (bkdrHash s.1).toNat == h

@[simp] theorem kacheRun_mainTr (kc : Kache) (stores : List (CStr × DataT)) :
    (kacheRun kc stores).mainTr = kc.mainTr := by
  induction stores generalizing kc with
  | nil => rfl
  | cons s stores ih => exact (ih _).trans (kacheStore_mainTr kc s.1 s.2)

/-- The observation rule for a cell of the cache that some of the calls overwrite. -/
theorem kacheRun_cell {α : Type*} (obs : Kache → α) (p : CStr × DataT → Bool)
    (f : CStr × DataT → α) (kc : Kache) (stores : List (CStr × DataT))
    (h : ∀ c s, c.mainTr = kc.mainTr → obs (kacheStore c s.1 s.2) = if p s then f s else obs c) :
    obs (kacheRun kc stores) = ((lastOf p stores).map f).getD (obs kc) := by
  apply observe_overwrite _ obs (fun c => c.mainTr = kc.mainTr) p f _ h kc rfl
  intro c s hc
  rw [kacheStore_mainTr, hc]

/-- An entry of the main table holds the data of the last store under its index. -/
theorem mainTrData_run (kc : Kache) (stores : List (CStr × DataT)) (i : Nat) :
    (kacheRun kc stores).mainTrData i =
      ((lastOf (indexedTo kc.mainTr i) stores).map (·.2)).getD (kc.mainTrData i) := by
  apply kacheRun_cell (fun c => c.mainTrData i)
  intro c s hc
  unfold kacheStore indexedTo
  rw [hc]
  cases htr : kc.mainTr.retrieve s.1 with
  | none => simp
  | some j =>
      by_cases hij : j = i
      · simp [hij]
      · simp [hij, Function.update_of_ne (Ne.symm hij)]

/-- A hash slot holds the data of the last store that hashed there. -/
theorem hashData_hData (kc : Kache) (stores : List (CStr × DataT)) (h : Nat) :
    ((kacheRun kc stores).hashData h).hData =
      ((lastOf (hashedTo kc.mainTr h) stores).map (·.2)).getD (kc.hashData h).hData := by
  apply kacheRun_cell (fun c => (c.hashData h).hData)
  intro c s hc
  unfold kacheStore hashedTo
  rw [hc]
  cases htr : kc.mainTr.retrieve s.1 with
  | some j => simp
  | none =>
      by_cases hh : (bkdrHash s.1).toNat = h
      · simp [hh]
      · simp [hh, Function.update_of_ne (Ne.symm hh)]

/-- Byte `i` of `part_key` is that of the last key longer than `i` that hashed
there: shorter keys leave it stale. -/
theorem hashData_partKey (kc : Kache) (stores : List (CStr × DataT)) (h : Nat) (i : Fin 4) :
    ((kacheRun kc stores).hashData h).partKey i =
      ((lastOf (fun s => hashedTo kc.mainTr h s && decide (i.val < s.1.length)) stores).map
        fun s => s.1.bytes.getD i 0).getD ((kc.hashData h).partKey i) := by
  apply kacheRun_cell (fun c => (c.hashData h).partKey i)
  intro c s hc
  unfold kacheStore hashedTo
  rw [hc]
  cases htr : kc.mainTr.retrieve s.1 with
  | some j => simp
  | none =>
      by_cases hh : (bkdrHash s.1).toNat = h
      · have hpart : (i.val < partLen s.1) = (i.val < s.1.length) := by
          rw [partLen_eq]
          have := i.isLt
          exact propext (by omega)
        by_cases hi : i.val < s.1.length
        · have hib : i.val < s.1.bytes.length := hi
          simp [hh, copyPart, hpart, hi, CStr.raw, List.getElem?_append_left hib]
        · simp [hh, copyPart, hpart, hi]
      · simp [hh, Function.update_of_ne (Ne.symm hh)]

/-! ## Whose answer is it -/

/-- Every answer for `k` after `kache_init` and the calls of `stores` is the
data last stored under exactly `k` or, for a key of the main trie that was
never stored, the data loaded for it. -/
def AnswersOwn (tr : MainTrie) (ips : Nat → UInt32) (now : Int) (stores : List (CStr × DataT))
    (k : CStr) : Prop :=
  ∀ d, kacheRetrieve (kacheRun (kacheInit tr ips now) stores) k = some d →
    (∃ s, lastOf (under k) stores = some s ∧ d = s.2) ∨
    (lastOf (under k) stores = none ∧ ∃ i, tr.retrieve k = some i ∧ d = ⟨ips i, now⟩)

/-- Each of the first four bytes of `k` is that of the last key longer than
its position among the keys stored in `k`'s hash slot. -/
def MarkedBy (tr : MainTrie) (stores : List (CStr × DataT)) (k : CStr) : Prop :=
  Marked (fun i =>
    ((lastOf (fun s => hashedTo tr (bkdrHash k).toNat s && decide (i.val < s.1.length)) stores).map
      fun s => s.1.bytes.getD i 0).getD 0) k

instance (tr : MainTrie) (stores : List (CStr × DataT)) (k : CStr) :
    Decidable (MarkedBy tr stores k) :=
  inferInstanceAs (Decidable (Marked _ k))

/-- `k` is in the main trie, or its slot bears other marker bytes, or the last
store into its slot repeated the data of the last store under `k` itself. -/
def OwnSlot (tr : MainTrie) (stores : List (CStr × DataT)) (k : CStr) : Prop :=
  (tr.retrieve k).isSome ∨ ¬ MarkedBy tr stores k ∨
    ∃ s s', lastOf (hashedTo tr (bkdrHash k).toNat) stores = some s ∧
      lastOf (under k) stores = some s' ∧ s.2 = s'.2

/-- For a key of the main trie, the calls that wrote its entry are the calls
under that key. -/
theorem lastOf_indexedTo {tr : MainTrie} (hinj : tr.Injective) {k : CStr} {i : Nat}
    (h : tr.retrieve k = some i) (stores : List (CStr × DataT)) :
    lastOf (indexedTo tr i) stores = lastOf (under k) stores := by
  apply lastOf_congr
  intro s _
  by_cases hs : s.1 = k
  · simp [indexedTo, under, hs, h]
  · have hne : tr.retrieve s.1 ≠ some i := by
      intro htr
      exact hs (hinj s.1 k i htr h)
    simp [indexedTo, under, hs, hne]

theorem answersOwn_main {tr : MainTrie} (hinj : tr.Injective) {k : CStr} {i : Nat}
    (h : tr.retrieve k = some i) (ips : Nat → UInt32) (now : Int)
    (stores : List (CStr × DataT)) : AnswersOwn tr ips now stores k := by
  intro d hd
  rw [kacheRetrieve_main (i := i) (by simpa using h), mainTrData_run] at hd
  simp only [kacheInit, lastOf_indexedTo hinj h, Option.some.injEq] at hd
  cases hlast : lastOf (under k) stores with
  | some s =>
      left
      exact ⟨s, rfl, by simpa [hlast] using hd.symm⟩
  | none =>
      right
      exact ⟨rfl, i, h, by simpa [hlast, tr.range k i h] using hd.symm⟩

theorem answersOwn_hash {tr : MainTrie} {k : CStr} (h : tr.retrieve k = none)
    (ips : Nat → UInt32) (now : Int) (stores : List (CStr × DataT)) :
    AnswersOwn tr ips now stores k ↔ OwnSlot tr stores k := by
  have hret : kacheRetrieve (kacheRun (kacheInit tr ips now) stores) k =
      if MarkedBy tr stores k
      then some (((lastOf (hashedTo tr (bkdrHash k).toNat) stores).map (·.2)).getD ⟨0, 0⟩)
      else none := by
    rw [kacheRetrieve_hash (by simpa using h), hashData_hData]
    simp only [MarkedBy, Marked, hashData_partKey]
    rfl
  unfold AnswersOwn OwnSlot
  rw [hret]
  constructor
  · intro hown
    by_cases hmark : MarkedBy tr stores k
    · -- the answer is the last store of the slot, so it must be the key's own
      rw [if_pos hmark] at hown
      rcases hown _ rfl with ⟨s', hs', hd⟩ | ⟨-, i, hi, -⟩
      · have hslot : hashedTo tr (bkdrHash k).toNat s' = true := by
          have hk : s'.1 = k := by simpa [under] using (lastOf_spec hs').2
          simp [hashedTo, hk, h]
        cases hlast : lastOf (hashedTo tr (bkdrHash k).toNat) stores with
        | none =>
            have := lastOf_eq_none_iff.mp hlast s' (lastOf_spec hs').1
            rw [hslot] at this
            simp at this
        | some s =>
            right
            right
            exact ⟨s, s', rfl, hs', by simpa [hlast] using hd⟩
      · rw [h] at hi
        simp at hi
    · exact Or.inr (Or.inl hmark)
  · rintro (htr | hmark | ⟨s, s', hs, hs', hd⟩) d hd'
    · simp [h] at htr
    · simp [hmark] at hd'
    · left
      refine ⟨s', hs', ?_⟩
      rw [hs] at hd'
      split at hd'
      · simpa [hd] using hd'.symm
      · simp at hd'

/-- The cache answers for the key asked exactly when `OwnSlot` holds. -/
theorem retrieve_answers_own_iff (tr : MainTrie) (hinj : tr.Injective) (ips : Nat → UInt32)
    (now : Int) (stores : List (CStr × DataT)) (k : CStr) :
    AnswersOwn tr ips now stores k ↔ OwnSlot tr stores k := by
  cases h : tr.retrieve k with
  | none => exact answersOwn_hash h ips now stores
  | some i =>
      constructor
      · intro _
        left
        simp [h]
      · intro _
        exact answersOwn_main hinj h ips now stores

/-- A trie with the one key `k`, at index 1. -/
def oneKeyTrie (k : CStr) : MainTrie where
  retrieve := fun k' => if k' = k then some 1 else none
  range := by
    intro k' i h
    split at h
    · simp only [Option.some.injEq] at h
      simp [← h, trieSize]
    · simp at h

theorem oneKeyTrie_injective (k : CStr) : (oneKeyTrie k).Injective := by
  intro k₁ k₂ i h₁ h₂
  simp only [oneKeyTrie] at h₁ h₂
  split at h₁ <;> split at h₂ <;> simp_all

/-- "www.cgtnz.cn" and "www.zituh.cn": the same hash and the same first four bytes. -/
def nameCgtnz : CStr := ⟨[119, 119, 119, 46, 99, 103, 116, 110, 122, 46, 99, 110], by decide⟩
def nameZituh : CStr := ⟨[119, 119, 119, 46, 122, 105, 116, 117, 104, 46, 99, 110], by decide⟩

/-- `retrieve_answers_own_iff` on a history where the key asked was stored last. -/
theorem retrieve_answers_own_stored :
    (oneKeyTrie CStr.empty).Injective ∧
      (AnswersOwn (oneKeyTrie CStr.empty) (fun _ => 0) 0
          [(nameZituh, ⟨1, 0⟩), (nameCgtnz, ⟨2, 0⟩)] nameCgtnz ↔
        OwnSlot (oneKeyTrie CStr.empty) [(nameZituh, ⟨1, 0⟩), (nameCgtnz, ⟨2, 0⟩)] nameCgtnz) :=
  ⟨oneKeyTrie_injective _, retrieve_answers_own_iff _ (oneKeyTrie_injective _) _ _ _ _⟩

/-- One store under "www.cgtnz.cn", and the cache answers for "www.zituh.cn",
which was never stored, with that entry. -/
theorem retrieve_answers_other :
    (oneKeyTrie CStr.empty).Injective ∧
      kacheRetrieve (kacheRun (kacheInit (oneKeyTrie CStr.empty) (fun _ => 0) 0)
        [(nameCgtnz, ⟨2, 0⟩)]) nameZituh = some ⟨2, 0⟩ ∧
      ¬ AnswersOwn (oneKeyTrie CStr.empty) (fun _ => 0) 0 [(nameCgtnz, ⟨2, 0⟩)] nameZituh := by
  have hret : kacheRetrieve (kacheRun (kacheInit (oneKeyTrie CStr.empty) (fun _ => 0) 0)
      [(nameCgtnz, ⟨2, 0⟩)]) nameZituh = some ⟨2, 0⟩ := by decide +kernel
  refine ⟨oneKeyTrie_injective _, hret, ?_⟩
  intro hown
  rcases hown _ hret with ⟨s, hs, -⟩ | ⟨-, i, hi, -⟩
  · have hnone : lastOf (under nameZituh) [(nameCgtnz, (⟨2, 0⟩ : DataT))] = none := by decide
    rw [hnone] at hs
    simp at hs
  · have hnone : (oneKeyTrie CStr.empty).retrieve nameZituh = none := by decide
    rw [hnone] at hi
    simp at hi

end DnsCache

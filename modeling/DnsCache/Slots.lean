import DnsCache.Kache

/-! # The slots of the cache

A key owns one slot: an entry of `main_tr_data` when the main trie knows it, a
slot of `hash_data` otherwise. `kache_store` writes the slot of its key and
`kache_retrieve` reads it, neither touches another.

* `slot_kacheStore_of_ne`, `slot_kacheRun_of_ne`: the frame, for one call and
  for any sequence of calls.
* `kacheRetrieve_congr`: an answer is a function of the key's own slot.
* `stored_stays_visible`: what was stored is found until the slot is reused.
-/

namespace DnsCache

open CMem

/-- An index into one of the two tables. -/
inductive Slot
  | main (index : Nat)
  | hash (hashVal : Nat)
deriving DecidableEq, Repr

/-- The slot `kache_store` and `kache_retrieve` compute for a key. -/
def MainTrie.slotOf (tr : MainTrie) (k : CStr) : Slot :=
  match tr.retrieve k with
  | some index => .main index
  | none => .hash (bkdrHash k).toNat

/-- The index is inside its table. -/
def Slot.InTable : Slot → Prop
  | .main index => index < trieSize
  | .hash hashVal => hashVal < hashSize

/-- What a slot holds. -/
def Kache.slot (kc : Kache) : Slot → DataT ⊕ HashDataT
  | .main index => .inl (kc.mainTrData index)
  | .hash hashVal => .inr (kc.hashData hashVal)

theorem MainTrie.slotOf_inTable (tr : MainTrie) (k : CStr) : (tr.slotOf k).InTable := by
  unfold slotOf
  split
  · rename_i index h
    have hrange := tr.range k index h
    show index < trieSize
    omega
  · exact bkdrHash_lt k

/-! ## One call -/

variable {kc kc' : Kache} {k : CStr}

theorem slot_kacheStore_of_ne {slot : Slot} (d : DataT) (h : slot ≠ kc.mainTr.slotOf k) :
    (kacheStore kc k d).slot slot = kc.slot slot := by
  unfold MainTrie.slotOf at h
  unfold kacheStore
  cases htr : kc.mainTr.retrieve k with
  | some index =>
      rw [htr] at h
      cases slot with
      | main i =>
          -- another entry of the same table
          have hne : i ≠ index := fun hi => h (congrArg Slot.main hi)
          exact congrArg Sum.inl (Function.update_of_ne hne _ _)
      | hash _ => rfl
  | none =>
      rw [htr] at h
      cases slot with
      | main _ => rfl
      | hash v =>
          have hne : v ≠ (bkdrHash k).toNat := fun hv => h (congrArg Slot.hash hv)
          exact congrArg Sum.inr (Function.update_of_ne hne _ _)

theorem kacheRetrieve_congr (htr : kc'.mainTr = kc.mainTr)
    (h : kc'.slot (kc.mainTr.slotOf k) = kc.slot (kc.mainTr.slotOf k)) :
    kacheRetrieve kc' k = kacheRetrieve kc k := by
  unfold MainTrie.slotOf at h
  cases hret : kc.mainTr.retrieve k with
  | some index =>
      rw [hret] at h
      rw [kacheRetrieve_main hret, kacheRetrieve_main (htr ▸ hret)]
      exact congrArg some (Sum.inl.inj h)
  | none =>
      rw [hret] at h
      rw [kacheRetrieve_hash hret, kacheRetrieve_hash (htr ▸ hret), Sum.inr.inj h]

/-! ## Any sequence of calls -/

theorem slot_kacheRun_of_ne {slot : Slot} {stores : List (CStr × DataT)}
    (h : ∀ s ∈ stores, kc.mainTr.slotOf s.1 ≠ slot) :
    (kacheRun kc stores).slot slot = kc.slot slot := by
  induction stores generalizing kc with
  | nil => rfl
  | cons s stores ih =>
      have hfirst : (kacheStore kc s.1 s.2).slot slot = kc.slot slot :=
        slot_kacheStore_of_ne s.2 (Ne.symm (h s List.mem_cons_self))
      rw [← hfirst]
      apply ih
      intro s' hs'
      rw [kacheStore_mainTr]
      exact h s' (List.mem_cons_of_mem _ hs')

/-- A key found in the cache is found unchanged after stores into other slots. -/
theorem kacheRetrieve_kacheRun_of_ne {stores : List (CStr × DataT)}
    (h : ∀ s ∈ stores, kc.mainTr.slotOf s.1 ≠ kc.mainTr.slotOf k) :
    kacheRetrieve (kacheRun kc stores) k = kacheRetrieve kc k :=
  kacheRetrieve_congr (kacheRun_mainTr kc stores) (slot_kacheRun_of_ne h)

/-- In every state that `kache_init` and calls of `kache_store` can reach, a
store changes only the slot of its key, a slot of its table, and what it stored
is retrieved until another store goes to that slot. -/
theorem stored_stays_visible (tr : MainTrie) (ips : Nat → UInt32) (now : Int)
    (before : List (CStr × DataT)) (k : CStr) (d : DataT) :
    let kc := kacheRun (kacheInit tr ips now) before
    (∀ after : List (CStr × DataT), (∀ s ∈ after, tr.slotOf s.1 ≠ tr.slotOf k) →
      kacheRetrieve (kacheRun (kacheStore kc k d) after) k = some d) ∧
    (∀ slot, slot ≠ tr.slotOf k → (kacheStore kc k d).slot slot = kc.slot slot) ∧
    (tr.slotOf k).InTable := by
  intro kc
  have htr : kc.mainTr = tr := kacheRun_mainTr _ _
  have hstore : (kacheStore kc k d).mainTr = tr := by rw [kacheStore_mainTr, htr]
  refine ⟨?_, ?_, tr.slotOf_inTable k⟩
  · intro after hafter
    rw [← hstore] at hafter
    rw [kacheRetrieve_kacheRun_of_ne hafter]
    exact kacheRetrieve_kacheStore_self kc k d
  · intro slot hne
    rw [← htr] at hne
    exact slot_kacheStore_of_ne d hne

/-- `stored_stays_visible` for "www.cgtnz.cn" with a store under the empty key
before and, in the one-key trie, one behind it. -/
theorem stored_stays_visible_cgtnz :
    kacheRetrieve (kacheRun (kacheStore (kacheRun (kacheInit (oneKeyTrie nameZituh) (fun _ => 7) 0)
      [(CStr.empty, ⟨1, 0⟩)]) nameCgtnz ⟨2, 5⟩) [(nameZituh, ⟨3, 6⟩), (CStr.empty, ⟨4, 6⟩)])
      nameCgtnz = some ⟨2, 5⟩ :=
  (stored_stays_visible (oneKeyTrie nameZituh) (fun _ => 7) 0 [(CStr.empty, ⟨1, 0⟩)] nameCgtnz
    ⟨2, 5⟩).1 _ (by decide +kernel)

end DnsCache

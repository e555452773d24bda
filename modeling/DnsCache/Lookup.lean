import DnsCache.Kache

/-! # Hit or miss

The test both servers make on the result of `kache_retrieve`, and what a
request for a list of names is to be answered with: one address word per name
and the list of the missed names with their positions. The answer is stated
for an arbitrary lookup, so that the two servers share it.
-/

namespace DnsCache

open CMem

/-- `result -> timestamp + TIME_OUT < time (NULL)`. -/
def stale (result : DataT) (now : Int) : Bool := result.timestamp + timeOut < now

/-- The TCP server's test: the address of a hit, `none` for a miss. -/
def tcpLookup (kc : Kache) (now : Int) (key : CStr) : Option UInt32 :=
  match kacheRetrieve kc key with
  | none => none
  | some result => if stale result now then none else some result.ip

/-- The UDP server's test: an entry that holds the miss marker is a miss, too. -/
def udpLookup (kc : Kache) (now : Int) (key : CStr) : Option UInt32 :=
  match kacheRetrieve kc key with
  | none => none
  | some result => if stale result now || result.ip == cacheMiss then none else some result.ip

/-- `dm_node`: a missed name and its position in the request. -/
structure DmNode where
  domain : CStr
  index : UInt32
deriving DecidableEq, Repr

/-- The word that answers a name. -/
def answer (lookup : CStr → Option UInt32) (name : CStr) : UInt32 :=
  (lookup name).getD cacheMiss

/-- The words that answer a list of names. -/
def answers (lookup : CStr → Option UInt32) (names : List CStr) : List UInt32 :=
  names.map (answer lookup)

/-- The missed names of a list whose first name has position `i`. -/
def missNodes (lookup : CStr → Option UInt32) : Nat → List CStr → List DmNode
  | _, [] => []
  | i, name :: names =>
      if (lookup name).isNone then ⟨name, UInt32.ofNat i⟩ :: missNodes lookup (i + 1) names
      else missNodes lookup (i + 1) names

/-- A fresh entry whose address is the miss marker. -/
def FreshMarker (kc : Kache) (now : Int) (name : CStr) : Prop :=
  ∃ result, kacheRetrieve kc name = some result ∧ stale result now = false ∧
    result.ip = cacheMiss

/-! ## The miss list -/

@[simp] theorem answers_length (lookup : CStr → Option UInt32) (names : List CStr) :
    (answers lookup names).length = names.length := by
  simp [answers]

theorem answers_append (lookup : CStr → Option UInt32) (xs ys : List CStr) :
    answers lookup (xs ++ ys) = answers lookup xs ++ answers lookup ys := by
  simp [answers]

theorem missNodes_append (lookup : CStr → Option UInt32) (i : Nat) (xs ys : List CStr) :
    missNodes lookup i (xs ++ ys) =
      missNodes lookup i xs ++ missNodes lookup (i + xs.length) ys := by
  induction xs generalizing i with
  | nil => simp [missNodes]
  | cons x xs ih =>
      have hi : i + (xs.length + 1) = i + 1 + xs.length := by omega
      simp only [List.cons_append, missNodes, ih, List.length_cons, hi]
      split <;> simp

theorem missNodes_domain (lookup : CStr → Option UInt32) (i : Nat) (names : List CStr) :
    (missNodes lookup i names).map (·.domain) = names.filter fun k => (lookup k).isNone := by
  induction names generalizing i with
  | nil => rfl
  | cons k names ih =>
      by_cases hk : (lookup k).isNone <;> simp [missNodes, hk, ih]

theorem missNodes_eq_nil_iff (lookup : CStr → Option UInt32) (i : Nat) (names : List CStr) :
    missNodes lookup i names = [] ↔ ∀ k ∈ names, (lookup k).isSome := by
  induction names generalizing i with
  | nil => simp [missNodes]
  | cons k names ih =>
      cases hk : lookup k <;> simp [missNodes, hk, ih]

/-- The positions of the missed names, in order. -/
theorem missNodes_increasing (lookup : CStr → Option UInt32) {i : Nat} {names : List CStr}
    (hlen : i + names.length ≤ 4294967296) :
    ((missNodes lookup i names).map (·.index.toNat)).Pairwise (· < ·) ∧
      ∀ node ∈ missNodes lookup i names, i ≤ node.index.toNat ∧
        names[node.index.toNat - i]? = some node.domain := by
  induction names generalizing i with
  | nil => exact ⟨List.Pairwise.nil, fun _ hmem => absurd hmem List.not_mem_nil⟩
  | cons k names ih =>
      rw [List.length_cons] at hlen
      rcases ih (i := i + 1) (by omega) with ⟨hsorted, hnames⟩
      have hi : (UInt32.ofNat i).toNat = i := by
        rw [UInt32.toNat_ofNat']
        omega
      have hrest : ∀ node ∈ missNodes lookup (i + 1) names, i + 1 ≤ node.index.toNat ∧
          (k :: names)[node.index.toNat - i]? = some node.domain := by
        intro node hnode
        rcases hnames node hnode with ⟨hle, hget⟩
        refine ⟨hle, ?_⟩
        rw [show node.index.toNat - i = node.index.toNat - (i + 1) + 1 by omega,
          List.getElem?_cons_succ, hget]
      rw [missNodes]
      split
      · constructor
        · rw [List.map_cons, List.pairwise_cons]
          refine ⟨?_, hsorted⟩
          intro p hp
          rcases List.mem_map.mp hp with ⟨node, hnode, rfl⟩
          have hle := (hrest node hnode).1
          show (UInt32.ofNat i).toNat < _
          omega
        · intro node hnode
          rcases List.mem_cons.mp hnode with rfl | hnode
          · simp [hi]
          · rcases hrest node hnode with ⟨hle, hget⟩
            exact ⟨by omega, hget⟩
      · refine ⟨hsorted, ?_⟩
        intro node hnode
        rcases hrest node hnode with ⟨hle, hget⟩
        exact ⟨by omega, hget⟩

theorem mem_missNodes (lookup : CStr → Option UInt32) {i j : Nat} {names : List CStr} {name : CStr}
    (hname : names[j]? = some name) (hmiss : lookup name = none) :
    ⟨name, UInt32.ofNat (i + j)⟩ ∈ missNodes lookup i names := by
  induction names generalizing i j with
  | nil => simp at hname
  | cons k names ih =>
      rcases j with _ | j
      · rw [List.getElem?_cons_zero, Option.some.injEq] at hname
        subst hname
        simp [missNodes, hmiss]
      · rw [List.getElem?_cons_succ] at hname
        have hmem := @ih (i + 1) j hname
        rw [show i + 1 + j = i + (j + 1) by omega] at hmem
        rw [missNodes]
        split
        · exact List.mem_cons_of_mem _ hmem
        · exact hmem

/-! ## The two servers' lookups -/

/-- The UDP test as the TCP test with the marker filtered out. -/
theorem udpLookup_eq (kc : Kache) (now : Int) (k : CStr) :
    udpLookup kc now k = (tcpLookup kc now k).filter (· != cacheMiss) := by
  unfold udpLookup tcpLookup
  cases kacheRetrieve kc k with
  | none => rfl
  | some result =>
      cases hs : stale result now <;> by_cases hip : result.ip = cacheMiss <;>
        simp [hs, hip, Option.filter]

theorem tcpLookup_eq_marker_iff (kc : Kache) (now : Int) (k : CStr) :
    tcpLookup kc now k = some cacheMiss ↔ FreshMarker kc now k := by
  unfold tcpLookup FreshMarker
  cases kacheRetrieve kc k with
  | none => simp
  | some result => cases h : stale result now <;> simp [h]

/-- Both servers answer a name with the same word, whatever the entry holds. -/
theorem answer_udp_eq_tcp (kc : Kache) (now : Int) (k : CStr) :
    answer (udpLookup kc now) k = answer (tcpLookup kc now) k := by
  unfold answer
  rw [udpLookup_eq]
  cases h : tcpLookup kc now k with
  | none => rfl
  | some ip => by_cases hip : ip = cacheMiss <;> simp [Option.filter, hip]

/-- They differ on whether it is a miss exactly for a fresh marker entry. -/
theorem isNone_udp_eq_tcp_iff (kc : Kache) (now : Int) (k : CStr) :
    (udpLookup kc now k).isNone = (tcpLookup kc now k).isNone ↔ ¬ FreshMarker kc now k := by
  rw [← tcpLookup_eq_marker_iff, udpLookup_eq]
  cases h : tcpLookup kc now k with
  | none => simp
  | some ip => by_cases hip : ip = cacheMiss <;> simp [Option.filter, hip]

/-- An entry just stored is a hit at the time of its timestamp. -/
theorem tcpLookup_kacheStore_self (kc : Kache) (k : CStr) (ip : UInt32) (now : Int) :
    tcpLookup (kacheStore kc k ⟨ip, now⟩) now k = some ip := by
  have hlt : ¬ now + 86400 < now := by omega
  have hfresh : stale ⟨ip, now⟩ now = false := decide_eq_false hlt
  simp [tcpLookup, kacheRetrieve_kacheStore_self, hfresh]

/-! ## Room for the answers -/

/-- Every prefix of `i` names occupies at least `4 * i` bytes, terminators included. -/
def Spacious (names : List CStr) : Prop :=
  ∀ i ≤ names.length, 4 * i ≤ (CStr.pack (names.take i)).length

/-! ## Three names and two caches -/

/-- A cache that holds nothing. -/
def coldKache : Kache := kacheInit (oneKeyTrie CStr.empty) (fun _ => 0) 0

/-- A cache with an entry for "abc". -/
def warmKache : Kache := kacheStore coldKache nameAbc ⟨9, 0⟩

/-- A hit in this cache and two misses. -/
def threeNames : List CStr := [nameAbc, nameUvw, nameXyz]

theorem spacious_three : Spacious threeNames := by
  intro i hi
  have hlen : threeNames.length = 3 := rfl
  rcases i with _ | _ | _ | _ | i
  · exact Nat.zero_le _
  · decide
  · decide
  · decide
  · omega

end DnsCache

import DnsCache.Client
import DnsCache.TcpSearch

/-! # Misses counted on both sides

The server takes a name for a miss by its cache entry, the client by the
address word in the first reply. `counts_agree_iff`: when they count the same.
-/

namespace DnsCache

open CMem

/-- The number of address words the client takes for misses is the server's
`misscount`, and their positions are those of the server's miss list. -/
def CountsAgree (names : List CStr) (reply : FirstReply) : Prop :=
  ∃ words calls, reply.body = words.flatMap le32 ∧
    firstPass (CStr.pack names) (offsetsFrom 0 names) (reply.head ++ reply.body) names.length 0 =
      some (calls, reply.misses.length) ∧
    missedAt 0 words = reply.misses.map (·.index)

/-- A name whose hit is the marker is counted by the client only. -/
theorem missedAt_answers_length (lookup : CStr → Option UInt32) (i : Nat) (names : List CStr) :
    (missedAt i (answers lookup names)).length = (missNodes lookup i names).length +
      (names.filter fun k => lookup k == some cacheMiss).length := by
  induction names generalizing i with
  | nil => rfl
  | cons k names ih =>
      have hrec := ih (i + 1)
      simp only [answers, List.map_cons, missedAt, missNodes, answer] at hrec ⊢
      cases hk : lookup k with
      | none => simp [hrec, hk, Nat.add_right_comm]
      | some ip =>
          by_cases hip : ip = cacheMiss
          · simp [hrec, hk, hip, Nat.add_assoc]
          · simp [hrec, hk, hip]

/-- Without such a name both lists of positions are equal. -/
theorem missedAt_answers {lookup : CStr → Option UInt32} (i : Nat) {names : List CStr}
    (h : ∀ k ∈ names, lookup k ≠ some cacheMiss) :
    missedAt i (answers lookup names) = (missNodes lookup i names).map (·.index) := by
  induction names generalizing i with
  | nil => rfl
  | cons k names ih =>
      have hrec := ih (i + 1) fun k' hk' => h k' (List.mem_cons_of_mem _ hk')
      have hk := h k List.mem_cons_self
      simp only [answers, List.map_cons, missedAt, missNodes, answer] at hrec ⊢
      cases hlook : lookup k with
      | none => simp [hrec]
      | some ip =>
          have hip : ip ≠ cacheMiss := by
            intro heq
            exact hk (by rw [hlook, heq])
          simp [hrec, hip]

/-- A first reply, as the client reads it. -/
theorem countsAgree_replyTo_iff {names : List CStr} (hint : (CStr.pack names).length < 2147483648)
    {head : List UInt8} (hhead : head.length = headLength) (lookup : CStr → Option UInt32) :
    CountsAgree names (replyTo lookup head names) ↔
      ∀ k ∈ names, lookup k ≠ some cacheMiss := by
  have hlen : (setFlag head (firstFlag (missNodes lookup 0 names).length)).length =
      headLength + 4 * 0 := by
    rw [setFlag, List.length_set, hhead]
    rfl
  have hpass := @firstPass_eq (CStr.pack names) ((replyTo lookup head names).head ++
    (replyTo lookup head names).body) [] (offsetsFrom 0 names) 0 (answers lookup names)
    (by rw [answers_length, Nat.zero_add]; exact indexed_pack (by omega))
    (by rw [List.append_nil]; exact List.drop_left' hlen)
  rw [answers_length] at hpass
  constructor
  · intro h
    rcases h with ⟨words, calls, -, hcount, -⟩
    rw [hpass, Option.some.injEq, Prod.mk.injEq] at hcount
    have hnone : (names.filter fun k => lookup k == some cacheMiss).length = 0 := by
      have hsum := missedAt_answers_length lookup 0 names
      rw [hcount.2] at hsum
      simpa [replyTo] using hsum
    intro k hk heq
    have hmem : k ∈ names.filter fun k => lookup k == some cacheMiss := by
      simp [hk, heq]
    rw [List.eq_nil_of_length_eq_zero hnone] at hmem
    simp at hmem
  · intro h
    have hpos := missedAt_answers 0 h
    refine ⟨answers lookup names,
      hitCalls (CStr.pack names) (offsetsFrom 0 names) 0 (answers lookup names), rfl, ?_, hpos⟩
    rw [hpass, hpos, List.length_map]
    rfl

/-- Client and server count the same misses exactly when no requested name has a
fresh entry that holds the marker; in particular for the replies flagged
`FIRST_WITH_ERROR`, and for the caches that stores make out of a fresh one. -/
theorem counts_agree_iff (kc : Kache) (now : Int) (head : List UInt8) (names : List CStr)
    (reply : FirstReply) (hne : names ≠ []) (hroom : Spacious names)
    (hint : (CStr.pack names).length < 2147483648) (hhead : head.length = headLength)
    (hreply : tcpDoSearch kc now head (requestBlock (CStr.pack names))
      (Int32.ofNat (CStr.pack names).length) = some reply) :
    CountsAgree names reply ↔ ∀ name ∈ names, ¬ FreshMarker kc now name := by
  rw [tcpDoSearch_spacious kc now head hne hroom hint, Option.some.injEq] at hreply
  rw [← hreply, countsAgree_replyTo_iff hint hhead]
  constructor
  · intro h name hname hmarker
    exact h name hname ((tcpLookup_eq_marker_iff kc now name).mpr hmarker)
  · intro h name hname heq
    exact h name hname ((tcpLookup_eq_marker_iff kc now name).mp heq)

/-- The names "abc" and "xyz", the head of a request for both, and a cache whose
one store gave "abc" the marker as its address. -/
def namesAbcXyz : List CStr := [⟨[97, 98, 99], CStr.noNul_abc⟩, ⟨[120, 121, 122], CStr.noNul_xyz⟩]

def headAbcXyz : List UInt8 := le32 21 ++ le32 magicNumber ++ le32 1 ++ [reservedByte]

def markedAbc : Kache :=
  kacheRun (kacheInit (oneKeyTrie CStr.empty) (fun _ => 0) 0)
    [(⟨[97, 98, 99], CStr.noNul_abc⟩, ⟨cacheMiss, 0⟩)]

theorem spacious_abcXyz : Spacious namesAbcXyz := by
  have hall : ∀ i : Fin 3, 4 * i.val ≤ (CStr.pack (namesAbcXyz.take i.val)).length := by decide
  intro i hi
  have hi3 : i < 3 := Nat.lt_succ_of_le hi
  exact hall ⟨i, hi3⟩

/-- The first reply to the request for both names, with `lookup`. -/
theorem reply_abcXyz (kc : Kache) :
    tcpDoSearch kc 0 headAbcXyz (requestBlock (CStr.pack namesAbcXyz))
        (Int32.ofNat (CStr.pack namesAbcXyz).length) =
      some (replyTo (tcpLookup kc 0) headAbcXyz namesAbcXyz) :=
  tcpDoSearch_spacious kc 0 headAbcXyz (by decide) spacious_abcXyz (by decide)

/-- `counts_agree_iff` at this request and a fresh cache. -/
theorem counts_agree_abcXyz :
    CountsAgree namesAbcXyz (replyTo (tcpLookup (kacheInit (oneKeyTrie CStr.empty) (fun _ => 0) 0) 0)
        headAbcXyz namesAbcXyz) ↔
      ∀ name ∈ namesAbcXyz,
        ¬ FreshMarker (kacheInit (oneKeyTrie CStr.empty) (fun _ => 0) 0) 0 name :=
  counts_agree_iff _ 0 headAbcXyz namesAbcXyz _ (by decide) spacious_abcXyz (by decide) (by decide)
    (reply_abcXyz _)

/-- "xyz" is missed, "abc" is answered with the marker: the reply is flagged,
the server counts one miss, the client two. -/
theorem counts_disagree_marker :
    ∃ reply, tcpDoSearch markedAbc 0 headAbcXyz (requestBlock (CStr.pack namesAbcXyz))
        (Int32.ofNat (CStr.pack namesAbcXyz).length) = some reply ∧
      reply.head[headLength - 1]? = some firstWithError ∧ reply.misses.length = 1 ∧
      ¬ CountsAgree namesAbcXyz reply := by
  refine ⟨_, reply_abcXyz markedAbc, by decide +kernel, by decide +kernel, ?_⟩
  rw [countsAgree_replyTo_iff (by decide) (by decide)]
  intro h
  exact h ⟨[97, 98, 99], by decide⟩ (by decide) (by decide +kernel)

end DnsCache

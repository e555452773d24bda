import DnsCache.Lookup

/-! # The lookup loop of `do_search`

Both servers walk over the names of a request and write the `i`-th address
word over the same bytes, at offset `4 * i`.

* `scanStep`, `searchLoop`: the loop body and the loop of the source.
* `Scans`: the loop as a relation, without fuel; `searchLoop_eq_some_iff`.
* `After`: the state after some names have been looked up and enough room was
  there for their answers; `scans_front` and `scans_all` run the loop over
  names that leave such room.
-/

namespace DnsCache

open CMem

/-- The variables of the loop. `looked` is a history variable: the keys passed
to `kache_retrieve`, in order. -/
structure Scan where
  block : Block
  readcount : Nat
  ipcount : Nat
  looked : List CStr
  misses : List DmNode

/-- The variables when the loop is entered. -/
def Scan.start (block : Block) : Scan := ⟨block, 0, 0, [], []⟩

/-- The variables after the body has looked up `name` and left `block`. -/
def Scan.next (s : Scan) (lookup : CStr → Option UInt32) (name : CStr) (block : Block) : Scan where
  block := block
  readcount := s.readcount + name.length + 1
  ipcount := s.ipcount + 1
  looked := s.looked ++ [name]
  misses := s.misses ++ missNodes lookup s.ipcount [name]

/-- The loop body. A name whose terminator lies outside the written part of
the block, or an address word that does not fit, has no result. -/
def scanStep (lookup : CStr → Option UInt32) (s : Scan) : Option Scan := do
  let name ← s.block.cstr s.readcount
  let block ← s.block.write (4 * s.ipcount) (le32 (answer lookup name))
  return s.next lookup name block

/-- The loop, left when `readcount >= bound`. The fuel bounds the number of
iterations and is never used up: every iteration reads at least one byte. -/
def searchLoop (lookup : CStr → Option UInt32) (bound : Int) : Nat → Scan → Option Scan
  | 0, _ => none
  | fuel + 1, s => do
      let s' ← scanStep lookup s
      if bound ≤ (s'.readcount : Int) then return s' else searchLoop lookup bound fuel s'

variable {lookup : CStr → Option UInt32} {bound : Int}

/-! ## One iteration -/

/-- What an iteration can do. -/
theorem scanStep_eq_some_iff {s s' : Scan} :
    scanStep lookup s = some s' ↔ ∃ name block, s.block.cstr s.readcount = some name ∧
      s.block.write (4 * s.ipcount) (le32 (answer lookup name)) = some block ∧
      s' = s.next lookup name block := by
  unfold scanStep
  constructor
  · intro h
    simp only [Option.bind_eq_bind, Option.bind_eq_some_iff, Option.pure_def,
      Option.some.injEq] at h
    obtain ⟨name, hname, block, hblock, rfl⟩ := h
    exact ⟨name, block, hname, hblock, rfl⟩
  · rintro ⟨name, block, hname, hblock, rfl⟩
    simp [hname, hblock]

/-- An iteration reads on inside the written part of the block. -/
theorem scanStep_progress {s s' : Scan} (h : scanStep lookup s = some s') :
    s'.block.cap = s.block.cap ∧ s.readcount < s'.readcount ∧
      s'.readcount ≤ s.block.bytes.length := by
  obtain ⟨name, block, hname, hblock, rfl⟩ := scanStep_eq_some_iff.mp h
  obtain ⟨t, ht⟩ := CStr.scan_eq_some hname
  have hlen := congrArg List.length ht
  simp only [List.length_drop, List.length_append, CStr.raw_length] at hlen
  have hcap := (Block.write_eq_some_iff.mp hblock).2.2.1
  refine ⟨hcap, ?_, ?_⟩
  · simp only [Scan.next]
    omega
  · simp only [Scan.next]
    omega

/-! ## The loop without fuel -/

/-- The loop as a relation between the state it is entered in and the state it
leaves. -/
inductive Scans (lookup : CStr → Option UInt32) (bound : Int) : Scan → Scan → Prop where
  | last {s s' : Scan} (hstep : scanStep lookup s = some s') (hdone : bound ≤ (s'.readcount : Int)) :
      Scans lookup bound s s'
  | more {s s' t : Scan} (hstep : scanStep lookup s = some s')
      (hleft : (s'.readcount : Int) < bound) (hrest : Scans lookup bound s' t) :
      Scans lookup bound s t

theorem searchLoop_sound {fuel : Nat} {s t : Scan} (h : searchLoop lookup bound fuel s = some t) :
    Scans lookup bound s t := by
  induction fuel generalizing s with
  | zero => simp [searchLoop] at h
  | succ fuel ih =>
      simp only [searchLoop, Option.bind_eq_bind, Option.bind_eq_some_iff, Option.pure_def] at h
      obtain ⟨s', hs', h⟩ := h
      split at h
      · rename_i hdone
        simp only [Option.some.injEq] at h
        subst h
        exact .last hs' hdone
      · rename_i hleft
        exact .more hs' (by omega) (ih h)

/-- Fuel for one iteration per unread byte of the block is enough. -/
theorem searchLoop_complete {fuel : Nat} {s t : Scan} (h : Scans lookup bound s t)
    (hfuel : s.block.cap < fuel + s.readcount) : searchLoop lookup bound fuel s = some t := by
  induction h generalizing fuel with
  | @last s s' hstep hdone =>
      have hp := scanStep_progress hstep
      have hfits := s.block.fits
      obtain ⟨f, rfl⟩ : ∃ f, fuel = f + 1 := ⟨fuel - 1, by omega⟩
      simp [searchLoop, hstep, hdone]
  | @more s s' t hstep hleft _ ih =>
      have hp := scanStep_progress hstep
      have hfits := s.block.fits
      obtain ⟨f, rfl⟩ : ∃ f, fuel = f + 1 := ⟨fuel - 1, by omega⟩
      have hrest : searchLoop lookup bound f s' = some t := ih (by rw [hp.1]; omega)
      simp [searchLoop, hstep, hrest, hleft]

/-- The loop with the fuel the servers' models give it. -/
theorem searchLoop_eq_some_iff {block : Block} {t : Scan} :
    searchLoop lookup bound (block.cap + 1) (Scan.start block) = some t ↔
      Scans lookup bound (Scan.start block) t := by
  constructor
  · exact searchLoop_sound
  · intro h
    exact searchLoop_complete h (by simp [Scan.start])

/-- The loop's counters and its miss list follow the names looked up. -/
structure Scan.Counts (lookup : CStr → Option UInt32) (s : Scan) : Prop where
  ipcount : s.ipcount = s.looked.length
  readcount : s.looked.length ≤ s.readcount
  misses : s.misses = missNodes lookup 0 s.looked

theorem scanStep_counts {s s' : Scan} (h : scanStep lookup s = some s')
    (hs : s.Counts lookup) : s'.Counts lookup := by
  rcases scanStep_eq_some_iff.mp h with ⟨name, block, -, -, rfl⟩
  have hread := hs.readcount
  constructor
  · simp [Scan.next, hs.ipcount]
  · simp only [Scan.next, List.length_append, List.length_singleton]
    omega
  · simp only [Scan.next]
    rw [missNodes_append, ← hs.misses, hs.ipcount, Nat.zero_add]

theorem Scans.counts {s t : Scan} (h : Scans lookup bound s t) (hs : s.Counts lookup) :
    t.Counts lookup ∧ t.readcount ≤ s.block.cap := by
  induction h with
  | @last s t hstep =>
      have hfits := s.block.fits
      exact ⟨scanStep_counts hstep hs, (scanStep_progress hstep).2.2.trans hfits⟩
  | more hstep _ _ ih =>
      rw [← (scanStep_progress hstep).1]
      exact ih (scanStep_counts hstep hs)

/-- The loop ends behind its bound. -/
theorem Scans.bound_le {s t : Scan} (h : Scans lookup bound s t) : bound ≤ t.readcount := by
  induction h with
  | last _ hbound => exact hbound
  | more _ _ _ ih => exact ih

/-! ## Names that leave room for their answers -/

/-- `s'` is reached from `s` by looking up `names`: the answers lie one after
the other, and what has not been read yet is as it was. -/
structure After (lookup : CStr → Option UInt32) (names : List CStr) (s s' : Scan) : Prop where
  cap : s'.block.cap = s.block.cap
  len : s'.block.bytes.length = s.block.bytes.length
  readcount : s'.readcount = s.readcount + (CStr.pack names).length
  ipcount : s'.ipcount = s.ipcount + names.length
  unread : s'.block.bytes.drop s'.readcount = s.block.bytes.drop s'.readcount
  words : s'.block.bytes.take (4 * s'.ipcount) =
    s.block.bytes.take (4 * s.ipcount) ++ (answers lookup names).flatMap le32
  looked : s'.looked = s.looked ++ names
  misses : s'.misses = s.misses ++ missNodes lookup s.ipcount names

theorem After.refl (s : Scan) : After lookup [] s s := by
  constructor <;> simp [answers, missNodes]

theorem After.trans {xs ys : List CStr} {s s' s'' : Scan} (h : After lookup xs s s')
    (h' : After lookup ys s' s'') : After lookup (xs ++ ys) s s'' where
  cap := h'.cap.trans h.cap
  len := h'.len.trans h.len
  readcount := by
    rw [h'.readcount, h.readcount, CStr.pack_append, List.length_append]
    omega
  ipcount := by
    rw [h'.ipcount, h.ipcount, List.length_append]
    omega
  unread := by
    have hle : s''.readcount = s'.readcount + (s''.readcount - s'.readcount) := by
      rw [h'.readcount]
      omega
    rw [h'.unread, hle, ← List.drop_drop, ← List.drop_drop, h.unread]
  words := by
    rw [h'.words, h.words, answers_append, List.flatMap_append, List.append_assoc]
  looked := by rw [h'.looked, h.looked, List.append_assoc]
  misses := by rw [h'.misses, h.misses, missNodes_append, h.ipcount, List.append_assoc]

/-- The step lemma: with room for one more word, an iteration looks up the next
name and leaves the bytes behind it alone. -/
theorem scanStep_after {s : Scan} {name : CStr} {tail : List UInt8}
    (hread : s.block.bytes.drop s.readcount = name.raw ++ tail)
    (hroom : 4 * (s.ipcount + 1) ≤ s.readcount + (name.length + 1)) :
    ∃ s', scanStep lookup s = some s' ∧ After lookup [name] s s' := by
  have hlen := congrArg List.length hread
  simp only [List.length_drop, List.length_append, CStr.raw_length] at hlen
  have hoff : 4 * s.ipcount ≤ s.block.bytes.length := by omega
  have hend : 4 * s.ipcount + (le32 (answer lookup name)).length ≤ s.block.bytes.length := by
    rw [le32_length]
    omega
  have hname : s.block.cstr s.readcount = some name := by
    unfold Block.cstr
    rw [hread, CStr.scan_raw]
  have hfits := s.block.fits
  let block : Block := ⟨s.block.cap, patch s.block.bytes (4 * s.ipcount) (le32 (answer lookup name)),
    by rw [patch_length hoff]; omega⟩
  have hwrite : s.block.write (4 * s.ipcount) (le32 (answer lookup name)) = some block :=
    Block.write_eq_some_iff.mpr ⟨hoff, by omega, rfl, rfl⟩
  have hwords : (patch s.block.bytes (4 * s.ipcount) (le32 (answer lookup name))).take
      (4 * s.ipcount + 4) = s.block.bytes.take (4 * s.ipcount) ++ le32 (answer lookup name) :=
    @patch_take s.block.bytes (le32 (answer lookup name)) (4 * s.ipcount) hoff
  refine ⟨s.next lookup name block, scanStep_eq_some_iff.mpr ⟨name, block, hname, hwrite, rfl⟩, ?_⟩
  constructor
  · rfl
  · show (patch _ _ _).length = _
    rw [patch_length hoff]
    omega
  · simp only [Scan.next, CStr.pack_cons, CStr.pack_nil, List.append_nil, CStr.raw_length]
    omega
  · rfl
  · show (patch _ _ _).drop _ = _
    refine patch_drop hoff ?_
    simp only [Scan.next, le32_length]
    omega
  · show (patch _ _ _).take (4 * (s.ipcount + 1)) = _
    rw [show 4 * (s.ipcount + 1) = 4 * s.ipcount + 4 by omega, hwords]
    simp [answers]
  · rfl
  · rfl

/-- The loop over some names with more to come: it passes through a state that
is `After` them. -/
theorem scans_front {s : Scan} {names : List CStr} {tail : List UInt8}
    (hread : s.block.bytes.drop s.readcount = CStr.pack names ++ tail)
    (hroom : ∀ i ≤ names.length,
      4 * (s.ipcount + i) ≤ s.readcount + (CStr.pack (names.take i)).length)
    (hbound : ((s.readcount + (CStr.pack names).length : Nat) : Int) < bound) :
    ∃ s', After lookup names s s' ∧ ∀ t, Scans lookup bound s t ↔ Scans lookup bound s' t := by
  -- on the names: an iteration takes the first of those left
  induction names generalizing s with
  | nil => exact ⟨s, After.refl s, fun _ => Iff.rfl⟩
  | cons name names ih =>
      rw [CStr.pack_cons, List.append_assoc] at hread
      have hroom₁ := hroom 1 (by simp)
      simp only [List.take_succ_cons, List.take_zero, CStr.pack_cons, CStr.pack_nil,
        List.append_nil, CStr.raw_length] at hroom₁
      obtain ⟨s₁, hstep, hafter⟩ := @scanStep_after lookup _ _ _ hread hroom₁
      have hrc : s₁.readcount = s.readcount + (name.length + 1) := by
        rw [hafter.readcount]
        simp
      have hread₁ : s₁.block.bytes.drop s₁.readcount = CStr.pack names ++ tail := by
        rw [hafter.unread, hrc, ← List.drop_drop, hread, ← CStr.raw_length, List.drop_left]
      have hroom' : ∀ i ≤ names.length,
          4 * (s₁.ipcount + i) ≤ s₁.readcount + (CStr.pack (names.take i)).length := by
        intro i hi
        have h := hroom (i + 1) (by simpa using hi)
        simp only [List.take_succ_cons, CStr.pack_cons, List.length_append, CStr.raw_length] at h
        rw [hafter.ipcount, hrc, List.length_singleton]
        omega
      have hbound' : ((s₁.readcount + (CStr.pack names).length : Nat) : Int) < bound := by
        rw [hrc]
        simp only [CStr.pack_cons, List.length_append, CStr.raw_length] at hbound
        omega
      obtain ⟨s', hafter', hiff⟩ := ih hread₁ hroom' hbound'
      refine ⟨s', hafter.trans hafter', fun t => ⟨?_, ?_⟩⟩
      · intro h
        cases h with
        | last hstep' hdone =>
            -- the loop does not stop before the names are through
            rw [hstep] at hstep'
            cases hstep'
            omega
        | more hstep' _ hrest =>
            rw [hstep] at hstep'
            cases hstep'
            exact (hiff t).mp hrest
      · intro h
        exact .more hstep (by omega) ((hiff t).mpr h)

/-- The run lemma: the loop over all names of a request. -/
theorem scans_all {s : Scan} {names : List CStr} {tail : List UInt8} (hne : names ≠ [])
    (hread : s.block.bytes.drop s.readcount = CStr.pack names ++ tail)
    (hroom : ∀ i ≤ names.length,
      4 * (s.ipcount + i) ≤ s.readcount + (CStr.pack (names.take i)).length)
    (hbound : bound = ((s.readcount + (CStr.pack names).length : Nat) : Int)) :
    ∃ t, Scans lookup bound s t ∧ After lookup names s t := by
  obtain ⟨pre, name, rfl⟩ : ∃ pre name, names = pre ++ [name] :=
    ⟨names.dropLast, names.getLast hne, (List.dropLast_append_getLast hne).symm⟩
  have hlen : (CStr.pack (pre ++ [name])).length = (CStr.pack pre).length + (name.length + 1) := by
    simp
  rw [CStr.pack_append, List.append_assoc] at hread
  have hroom' : ∀ i ≤ pre.length,
      4 * (s.ipcount + i) ≤ s.readcount + (CStr.pack (pre.take i)).length := by
    intro i hi
    have h := hroom i (by simp; omega)
    rwa [List.take_append_of_le_length hi] at h
  obtain ⟨s', hafter, hiff⟩ := @scans_front lookup bound _ _ _ hread hroom' (by omega)
  have hread' : s'.block.bytes.drop s'.readcount = name.raw ++ tail := by
    rw [hafter.unread, hafter.readcount, ← List.drop_drop, hread, List.drop_left]
    simp
  have hroom₁ := hroom (pre.length + 1) (by simp)
  rw [List.take_of_length_le (by simp)] at hroom₁
  obtain ⟨t, hstep, hlast⟩ := @scanStep_after lookup _ _ _ hread'
    (by rw [hafter.ipcount, hafter.readcount]; omega)
  refine ⟨t, (hiff t).mpr (.last hstep ?_), hafter.trans hlast⟩
  rw [(hafter.trans hlast).readcount]
  omega

end DnsCache

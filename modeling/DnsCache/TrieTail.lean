import Mathlib.Data.Int.Interval
import DnsCache.Lib.Ascending
import DnsCache.Lib.Chain
import DnsCache.AlphaMap

/-! # The tail of the trie, `tail.c`

The rest of a key behind its last branch, and its data, are kept in a block. An
index is the number of a block plus one. Free blocks are chained in ascending
order, 0 ends the chain: block 0 is never on it.

* `tailAddSuffix`, `tailSetSuffix`, `tailSetData`, `tailDelete`, `tailWalkChar`:
  the functions.
* `TailInv`: the chain of free blocks.
* `tailAllocBlock_spec`, `tailDelete_spec`: what the two do to the blocks and the chain.
-/

namespace DnsCache

/-- `TRIE_DATA_ERROR` and `TAIL_START_BLOCKNO`. -/
def trieDataError : Int32 := -1
def tailStartBlockno : Int := 1

/-- `TailBlock`. A suffix is NULL or a string. -/
structure TailBlock where
  nextFree : Int
  data : Int32
  suffix : Option (List UInt8)
deriving DecidableEq, Repr

/-- `Tail`. -/
structure Tail where
  tails : List TailBlock
  firstFree : Int
deriving DecidableEq, Repr

namespace Tail

/-- `num_tails`. -/
def numTails (t : Tail) : Int := t.tails.length

/-- `t->tails[block]`. -/
def block (t : Tail) (block : Int) : TailBlock := t.tails.getD block.toNat ⟨0, 0, none⟩

/-- A store to `t->tails[block]`. -/
def setBlock (t : Tail) (block : Int) (b : TailBlock) : Tail :=
  { t with tails := t.tails.set block.toNat b }

end Tail

/-- `tail_new`. -/
def tailNew : Tail := ⟨[], 0⟩

/-- `tail_get_suffix`. -/
def tailGetSuffix (t : Tail) (index : Int) : Option (List UInt8) :=
  let index := index - tailStartBlockno
  if index < t.numTails then (t.block index).suffix else none

/-- `strdup`. -/
def strdup (suffix : List UInt8) : List UInt8 := suffix.takeWhile (· ≠ 0)

/-- `tail_set_suffix`. -/
def tailSetSuffix (t : Tail) (index : Int) (suffix : Option (List UInt8)) : Bool × Tail :=
  let index := index - tailStartBlockno
  if index < t.numTails then
    (true, t.setBlock index { t.block index with suffix := suffix.map strdup })
  else (false, t)

/-- `tail_alloc_block`. -/
def tailAllocBlock (t : Tail) : Int × Tail :=
  if t.firstFree ≠ 0 then
    let block := t.firstFree
    let t := { t with firstFree := (t.block block).nextFree }
    (block + tailStartBlockno, t.setBlock block ⟨-1, trieDataError, none⟩)
  else
    let block := t.numTails
    (block + tailStartBlockno, { t with tails := t.tails ++ [⟨-1, trieDataError, none⟩] })

/-- `tail_add_suffix`. -/
def tailAddSuffix (t : Tail) (suffix : Option (List UInt8)) : Int × Tail :=
  let (newBlock, t) := tailAllocBlock t
  (newBlock, (tailSetSuffix t newBlock suffix).2)

/-- The loop of `tail_free_block` for the insertion point. -/
def freePlace (t : Tail) (block : Int) : Nat → Int → Int → Int × Int
  | 0, j, i => (j, i)
  | n + 1, j, i => if i ≠ 0 ∧ i < block then freePlace t block n i (t.block i).nextFree else (j, i)

/-- `tail_free_block`. -/
def tailFreeBlock (t : Tail) (block : Int) : Tail :=
  let block := block - tailStartBlockno
  if t.numTails ≤ block then t
  else
    let t := t.setBlock block { t.block block with data := trieDataError, suffix := none }
    let (j, i) := freePlace t block t.tails.length 0 t.firstFree
    -- insert free block between j and i
    let t := t.setBlock block { t.block block with nextFree := i }
    if j ≠ 0 then t.setBlock j { t.block j with nextFree := block } else { t with firstFree := block }

/-- `tail_get_data` and `tail_set_data`. -/
def tailGetData (t : Tail) (index : Int) : Int32 :=
  let index := index - tailStartBlockno
  if index < t.numTails then (t.block index).data else trieDataError

def tailSetData (t : Tail) (index : Int) (data : Int32) : Bool × Tail :=
  let index := index - tailStartBlockno
  if index < t.numTails then (true, t.setBlock index { t.block index with data := data })
  else (false, t)

/-- `tail_delete`. -/
def tailDelete (t : Tail) (index : Int) : Tail := tailFreeBlock t index

/-- An index in a `short`. -/
def toShort (x : Int) : Int := Int.bmod x 65536

/-- `suffix[j]`, the terminator included. -/
def suffixChar (suffix : List UInt8) (j : Int) : UInt8 := suffix.getD j.toNat 0

/-- `tail_walk_char`: the new `*suffix_idx`. -/
def tailWalkChar (t : Tail) (s : Int) (suffixIdx : Int) (c : UInt8) : Option Int :=
  match tailGetSuffix t s with
  | none => none
  | some suffix =>
      if suffixChar suffix suffixIdx = c then
        some (if suffixChar suffix suffixIdx ≠ 0 then toShort (suffixIdx + 1) else suffixIdx)
      else none

variable {t t' : Tail} {l u v : List Int} {b i j index : Int} {x : TailBlock}

/-! ## Blocks -/

namespace Tail

@[simp] theorem numTails_setBlock : (t.setBlock b x).numTails = t.numTails := by
  simp only [numTails, setBlock, List.length_set]

theorem block_setBlock (hb : 0 ≤ b) (hn : b < t.numTails) (hi : 0 ≤ i) :
    (t.setBlock b x).block i = if i = b then x else t.block i := by
  have hlt : b.toNat < t.tails.length := by
    unfold numTails at hn
    omega
  unfold block setBlock
  rw [List.getD_eq_getElem?_getD, List.getD_eq_getElem?_getD, List.getElem?_set]
  by_cases h : i = b
  · rw [if_pos h, h, if_pos rfl, if_pos hlt, Option.getD_some]
  · rw [if_neg h, if_neg (by omega)]

/-- The address in a next field. -/
def link (i : Int) : Option Int := if i = 0 then none else some i

/-- The next fields as a chain sees them. -/
def next (t : Tail) (b : Int) : Option (Option Int) := some (link (t.block b).nextFree)

end Tail

open Tail

/-- The chain of free blocks. -/
structure TailInv (t : Tail) (l : List Int) : Prop where
  chain : Chain.Seg t.next (link t.firstFree) l none
  sorted : l.Pairwise (· < ·)
  bounds : ∀ b ∈ l, 1 ≤ b ∧ b < t.numTails

theorem tailNew_inv : TailInv tailNew [] := ⟨rfl, .nil, by simp⟩

/-- Suffix and data of a block that is in use. -/
structure Uses (t : Tail) (l : List Int) (index : Int) (suffix : List UInt8) (data : Int32) :
    Prop where
  low : 1 ≤ index
  high : index ≤ t.numTails
  used : index - tailStartBlockno ∉ l
  suffix : (t.block (index - tailStartBlockno)).suffix = some suffix
  data : (t.block (index - tailStartBlockno)).data = data

theorem Uses.get {suffix : List UInt8} {data : Int32} (h : Uses t l index suffix data) :
    tailGetSuffix t index = some suffix ∧ tailGetData t index = data := by
  have hlt : index - tailStartBlockno < t.numTails := by
    have := h.high
    unfold tailStartBlockno
    omega
  exact ⟨by rw [tailGetSuffix, if_pos hlt, h.suffix], by rw [tailGetData, if_pos hlt, h.data]⟩

/-- Blocks that hold the same are in the same use. -/
theorem Uses.frame {suffix : List UInt8} {data : Int32} {l' : List Int}
    (h : Uses t l index suffix data) (hn : t.numTails ≤ t'.numTails)
    (hblock : t'.block (index - tailStartBlockno) = t.block (index - tailStartBlockno) ∨
      (t'.block (index - tailStartBlockno)).suffix = (t.block (index - tailStartBlockno)).suffix ∧
        (t'.block (index - tailStartBlockno)).data = (t.block (index - tailStartBlockno)).data)
    (hl : index - tailStartBlockno ∉ l') : Uses t' l' index suffix data := by
  refine ⟨h.low, Int.le_trans h.high hn, hl, ?_, ?_⟩
  · rcases hblock with hblock | ⟨hblock, -⟩
    · rw [hblock, h.suffix]
    · rw [hblock, h.suffix]
  · rcases hblock with hblock | ⟨-, hblock⟩
    · rw [hblock, h.data]
    · rw [hblock, h.data]

/-- A store that leaves the next fields of the free blocks alone. -/
theorem TailInv.setBlock (h : TailInv t l) (hb : 0 ≤ b) (hn : b < t.numTails)
    (hx : b ∉ l ∨ x.nextFree = (t.block b).nextFree) : TailInv (t.setBlock b x) l := by
  refine ⟨h.chain.frame ?_, h.sorted, ?_⟩
  · intro i hi
    have hib := h.bounds i hi
    rw [next, next, block_setBlock hb hn (by omega)]
    split
    · rename_i heq
      rcases hx with hx | hx
      · rw [heq] at hi
        exact absurd hi hx
      · rw [hx, heq]
    · rfl
  · intro i hi
    rw [numTails_setBlock]
    exact h.bounds i hi

/-! ## Allocation -/

/-- A free block is taken from the chain when there is one, else a new one. -/
theorem tailAllocBlock_spec (h : TailInv t l) :
    ∃ index t', tailAllocBlock t = (index, t') ∧ TailInv t' l.tail ∧
      index = (l.head?.getD t.numTails) + tailStartBlockno ∧
      t'.numTails = max t.numTails index ∧ 1 ≤ index ∧
      t'.block (index - tailStartBlockno) = ⟨-1, trieDataError, none⟩ ∧
      ∀ b, 0 ≤ b → b ≠ index - tailStartBlockno → b < t.numTails → t'.block b = t.block b := by
  have hn0 : 0 ≤ t.numTails := by
    unfold numTails
    omega
  unfold tailAllocBlock tailStartBlockno
  cases l with
  | nil =>
      have hfirst : t.firstFree = 0 := by
        have hchain : link t.firstFree = none := h.chain
        unfold link at hchain
        split at hchain
        · assumption
        · cases hchain
      have hblock : ∀ b, 0 ≤ b → b < t.numTails →
          (Tail.mk (t.tails ++ [⟨-1, trieDataError, none⟩]) t.firstFree).block b = t.block b := by
        intro b hb hlt
        unfold numTails at hlt
        unfold block
        rw [List.getD_eq_getElem?_getD, List.getD_eq_getElem?_getD,
          List.getElem?_append_left (by omega)]
      refine ⟨t.numTails + 1, _, if_neg (by rw [hfirst]; simp), ⟨?_, .nil, by simp⟩, rfl, ?_, by omega,
        ?_, ?_⟩
      · rw [hfirst]
        rfl
      · simp only [numTails, List.length_append, List.length_singleton]
        omega
      · rw [Int.add_sub_cancel]
        simp only [block, numTails, Int.toNat_natCast]
        rw [List.getD_eq_getElem?_getD, List.getElem?_concat_length, Option.getD_some]
      · intro b hb _ hlt
        exact hblock b hb hlt
  | cons a l =>
      rcases h.chain with ⟨hfirst, r, hr, hrest⟩
      have ha := h.bounds a List.mem_cons_self
      have hfa : t.firstFree = a := by
        unfold link at hfirst
        split at hfirst
        · cases hfirst
        · exact Option.some.inj hfirst
      have hne : t.firstFree ≠ 0 := by omega
      rw [if_pos hne, hfa]
      have hrlink : r = link (t.block a).nextFree := (Option.some.inj hr).symm
      rcases List.pairwise_cons.mp h.sorted with ⟨hal, hl⟩
      have han : a < ({ t with firstFree := (t.block a).nextFree } : Tail).numTails := ha.2
      have hblock : ∀ b, 0 ≤ b → b ≠ a →
          (({ t with firstFree := (t.block a).nextFree } : Tail).setBlock a
            ⟨-1, trieDataError, none⟩).block b = t.block b := by
        intro b hb hba
        rw [block_setBlock (by omega) han hb, if_neg hba]
        rfl
      refine ⟨a + 1, _, rfl, ⟨?_, hl, ?_⟩, rfl, ?_, by omega, ?_, ?_⟩
      · rw [hrlink] at hrest
        refine hrest.frame ?_
        intro b hb
        have hlt := hal b hb
        have := h.bounds b (List.mem_cons_of_mem _ hb)
        rw [next, next, hblock b (by omega) (by omega)]
      · intro b hb
        rw [numTails_setBlock]
        exact h.bounds b (List.mem_cons_of_mem _ hb)
      · rw [numTails_setBlock]
        show t.numTails = max t.numTails (a + 1)
        omega
      · rw [Int.add_sub_cancel, block_setBlock (by omega) han (by omega), if_pos rfl]
      · intro b hb hba _
        exact hblock b hb (by omega)

/-- `tail_add_suffix` and `tail_set_data`: a block of its own for the new suffix. -/
theorem tailAdd_spec (h : TailInv t l) (suffix : List UInt8) (data : Int32) :
    ∃ index t₁ t', tailAddSuffix t (some suffix) = (index, t₁) ∧ tailSetData t₁ index data = (true, t') ∧
      TailInv t' l.tail ∧ Uses t' l.tail index (strdup suffix) data ∧
      t'.numTails = max t.numTails index ∧
      (index - tailStartBlockno ∈ l ∨ index = t.numTails + 1) ∧
      ∀ b, 0 ≤ b → b ≠ index - tailStartBlockno → b < t.numTails → t'.block b = t.block b := by
  rcases tailAllocBlock_spec h with ⟨index, t₀, heq, hinv, hindex, hn, hlow, hnew, hold⟩
  unfold tailStartBlockno at *
  have hlt : index - 1 < t₀.numTails := by omega
  have hlt' : index - tailStartBlockno < t₀.numTails := hlt
  have hfree : index - 1 ∉ l.tail := by
    intro hmem
    cases l with
    | nil => cases hmem
    | cons a l =>
        have := (List.pairwise_cons.mp h.sorted).1 _ hmem
        rw [hindex] at this
        simp only [List.head?_cons, Option.getD_some] at this
        omega
  refine ⟨index, t₀.setBlock (index - 1) { t₀.block (index - 1) with suffix := some (strdup suffix) },
    (t₀.setBlock (index - 1) { t₀.block (index - 1) with suffix := some (strdup suffix) }).setBlock
      (index - 1) ⟨-1, data, some (strdup suffix)⟩, ?_, ?_, ?_, ?_, ?_, ?_, ?_⟩
  · rw [tailAddSuffix, heq]
    simp only [tailSetSuffix, if_pos hlt']
    rfl
  · have hlt₁ : index - tailStartBlockno < (t₀.setBlock (index - 1)
        { t₀.block (index - 1) with suffix := some (strdup suffix) }).numTails := by
      rw [numTails_setBlock]
      exact hlt
    rw [tailSetData, if_pos hlt₁]
    have hidx : 0 ≤ index - 1 := by omega
    simp only [tailStartBlockno, block_setBlock hidx hlt hidx, if_true, hnew]
  · exact (hinv.setBlock (by omega) hlt (.inl hfree)).setBlock (by omega)
      (by rw [numTails_setBlock]; exact hlt) (.inl hfree)
  · refine ⟨hlow, ?_, hfree, ?_, ?_⟩
    · rw [numTails_setBlock, numTails_setBlock]
      omega
    · unfold tailStartBlockno
      rw [block_setBlock (by omega) (by rw [numTails_setBlock]; exact hlt) (by omega), if_pos rfl]
    · unfold tailStartBlockno
      rw [block_setBlock (by omega) (by rw [numTails_setBlock]; exact hlt) (by omega), if_pos rfl]
  · rw [numTails_setBlock, numTails_setBlock, hn]
  · rw [hindex]
    cases l with
    | nil => exact .inr rfl
    | cons a l =>
        left
        simp
  · intro b hb hbi hbn
    rw [block_setBlock (by omega) (by rw [numTails_setBlock]; exact hlt) hb, if_neg hbi,
      block_setBlock (by omega) hlt hb, if_neg hbi, hold b hb hbi hbn]

/-! ## Other suffixes, other data -/

theorem tailSetSuffix_spec (h : TailInv t l) {suffix : List UInt8} {data : Int32}
    (hu : Uses t l index suffix data) (suffix' : List UInt8) :
    ∃ t', tailSetSuffix t index (some suffix') = (true, t') ∧ TailInv t' l ∧
      Uses t' l index (strdup suffix') data ∧ t'.numTails = t.numTails ∧
      ∀ b, 0 ≤ b → b ≠ index - tailStartBlockno → t'.block b = t.block b := by
  have hlow := hu.low
  have hhigh := hu.high
  have hidx : 0 ≤ index - tailStartBlockno := by
    unfold tailStartBlockno
    omega
  have hlt : index - tailStartBlockno < t.numTails := by
    unfold tailStartBlockno
    omega
  refine ⟨_, if_pos hlt, h.setBlock hidx hlt (.inl hu.used), ?_, numTails_setBlock, ?_⟩
  · refine ⟨hlow, by rw [numTails_setBlock]; exact hhigh, hu.used, ?_, ?_⟩
    · rw [block_setBlock hidx hlt hidx, if_pos rfl]
      rfl
    · rw [block_setBlock hidx hlt hidx, if_pos rfl]
      exact hu.data
  · intro b hb hne
    rw [block_setBlock hidx hlt hb, if_neg hne]

theorem tailSetData_spec (h : TailInv t l) {suffix : List UInt8} {data : Int32}
    (hu : Uses t l index suffix data) (data' : Int32) :
    ∃ t', tailSetData t index data' = (true, t') ∧ TailInv t' l ∧ Uses t' l index suffix data' ∧
      t'.numTails = t.numTails ∧
      ∀ b, 0 ≤ b → b ≠ index - tailStartBlockno → t'.block b = t.block b := by
  have hlow := hu.low
  have hhigh := hu.high
  have hidx : 0 ≤ index - tailStartBlockno := by
    unfold tailStartBlockno
    omega
  have hlt : index - tailStartBlockno < t.numTails := by
    unfold tailStartBlockno
    omega
  refine ⟨_, if_pos hlt, h.setBlock hidx hlt (.inl hu.used), ?_, numTails_setBlock, ?_⟩
  · refine ⟨hlow, by rw [numTails_setBlock]; exact hhigh, hu.used, ?_, ?_⟩
    · rw [block_setBlock hidx hlt hidx, if_pos rfl]
      exact hu.suffix
    · rw [block_setBlock hidx hlt hidx, if_pos rfl]
  · intro b hb hne
    rw [block_setBlock hidx hlt hb, if_neg hne]

/-! ## Blocks given back -/

/-- The loop for the insertion point, on a chain whose first part lies below the block. -/
theorem freePlace_eq {n : Nat} (hchain : Chain.Seg t.next (link i) (u ++ v) none)
    (hpos : ∀ a ∈ u ++ v, 1 ≤ a) (hu : ∀ a ∈ u, a < b) (hv : ∀ a ∈ v, b ≤ a) (hn : u.length ≤ n) :
    freePlace t b n j i = (u.getLast?.getD j, v.head?.getD 0) := by
  induction u generalizing i j n with
  | nil =>
      have hi : i = v.head?.getD 0 := by
        cases v with
        | nil =>
            have hnone : link i = none := hchain
            unfold link at hnone
            split at hnone
            · assumption
            · cases hnone
        | cons a v =>
            have hsome : link i = some a := hchain.1
            unfold link at hsome
            split at hsome
            · cases hsome
            · exact Option.some.inj hsome
      have hstop : ¬ (i ≠ 0 ∧ i < b) := by
        rintro ⟨hne, hlt⟩
        rw [hi] at hne hlt
        cases v with
        | nil => exact hne rfl
        | cons a v =>
            have hba : b ≤ a := hv a List.mem_cons_self
            have hab : a < b := hlt
            omega
      rw [← hi]
      cases n with
      | zero => rfl
      | succ n => rw [freePlace, if_neg hstop]; rfl
  | cons a u ih =>
      cases n with
      | zero => simp at hn
      | succ n =>
          rcases hchain with ⟨hi, r, hr, hrest⟩
          have hia : i = a := by
            unfold link at hi
            split at hi
            · cases hi
            · exact Option.some.inj hi
          have ha := hpos a List.mem_cons_self
          have hab := hu a List.mem_cons_self
          rw [freePlace, hia, if_pos ⟨by omega, hab⟩]
          have hr' : r = link (t.block a).nextFree := (Option.some.inj hr).symm
          rw [hr'] at hrest
          rw [ih hrest (fun c hc => hpos c (List.mem_cons_of_mem _ hc))
            (fun c hc => hu c (List.mem_cons_of_mem _ hc)) (by simpa using hn)]
          cases u with
          | nil => rfl
          | cons c u =>
              rw [List.getLast?_cons_cons, List.getLast?_eq_some_getLast (List.cons_ne_nil c u)]
              rfl

/-- There are no more free blocks than blocks. -/
theorem TailInv.length_le (h : TailInv t l) : l.length ≤ t.tails.length := by
  have hsub : l.toFinset ⊆ Finset.Ico 1 t.numTails := by
    intro i hi
    exact Finset.mem_Ico.mpr (h.bounds i (List.mem_toFinset.mp hi))
  have hcard := Finset.card_le_card hsub
  have hnodup : l.Nodup := h.sorted.imp fun h => Int.ne_of_lt h
  rw [List.toFinset_card_of_nodup hnodup, Int.card_Ico] at hcard
  unfold numTails at hcard
  omega

theorem link_head (hpos : ∀ a ∈ v, 1 ≤ a) : link (v.head?.getD 0) = v.head? := by
  cases v with
  | nil => rfl
  | cons a v =>
      have ha := hpos a List.mem_cons_self
      exact if_neg (by show ¬ a = 0; omega)

/-- What `tail_delete` leaves in the other blocks. -/
structure Freed (t t' : Tail) (b : Int) : Prop where
  numTails : t'.numTails = t.numTails
  suffix : (t'.block b).suffix = none
  other : ∀ i, 0 ≤ i → i ≠ b → (t'.block i).suffix = (t.block i).suffix ∧
    (t'.block i).data = (t.block i).data

/-- The free blocks after block `b` is given back. Block 0 takes the chain with it. -/
def freedChain (l : List Int) (b : Int) : List Int :=
  if b = 0 then [] else Ascending.insert l b

/-- The end of `tail_free_block`, the free block between `j` and `i`. -/
def insertFree (t : Tail) (b j i : Int) : Tail :=
  if j ≠ 0 then (t.setBlock b { t.block b with nextFree := i }).setBlock j
    { (t.setBlock b { t.block b with nextFree := i }).block j with nextFree := b }
  else { t.setBlock b { t.block b with nextFree := i } with firstFree := b }

theorem tailDelete_spec (h : TailInv t l) (hlow : 1 ≤ index) (hhigh : index ≤ t.numTails)
    (hused : index - tailStartBlockno ∉ l) :
    TailInv (tailDelete t index) (freedChain l (index - tailStartBlockno)) ∧
      Freed t (tailDelete t index) (index - tailStartBlockno) := by
  generalize hbdef : index - tailStartBlockno = b at *
  unfold tailStartBlockno at hbdef
  have hb0 : 0 ≤ b := by omega
  have hbn : b < t.numTails := by omega
  have hblock₁ : ∀ i, 0 ≤ i → (t.setBlock b { t.block b with data := trieDataError, suffix := none }).block i
      = if i = b then { t.block b with data := trieDataError, suffix := none } else t.block i :=
    fun i hi => block_setBlock hb0 hbn hi
  have h₁ : TailInv (t.setBlock b { t.block b with data := trieDataError, suffix := none }) l :=
    h.setBlock hb0 hbn (.inl hused)
  have hdel : ∀ j i, freePlace (t.setBlock b { t.block b with data := trieDataError, suffix := none }) b
      (t.setBlock b { t.block b with data := trieDataError, suffix := none }).tails.length 0
      (t.setBlock b { t.block b with data := trieDataError, suffix := none }).firstFree = (j, i) →
      tailDelete t index = insertFree
        (t.setBlock b { t.block b with data := trieDataError, suffix := none }) b j i := by
    intro j i hji
    have hne : ¬ t.numTails ≤ b := by omega
    rw [tailDelete, tailFreeBlock, show index - tailStartBlockno = b from hbdef]
    simp only [if_neg hne, hji]
    rfl
  have hn₁ : (t.setBlock b { t.block b with data := trieDataError, suffix := none }).numTails =
    t.numTails := numTails_setBlock
  generalize t.setBlock b { t.block b with data := trieDataError, suffix := none } = t₁ at *
  -- the place in the chain
  have hsplit : l.takeWhile (fun i => decide (i < b)) ++ l.dropWhile (fun i => decide (i < b)) = l :=
    List.takeWhile_append_dropWhile
  have hless := Ascending.takeWhile_lt (l := l) b
  have hmore := Ascending.dropWhile_ge h.sorted b
  have hsorted := Ascending.insert_pairwise h.sorted hused
  unfold freedChain Ascending.insert
  unfold Ascending.insert at hsorted
  generalize l.takeWhile (fun i => decide (i < b)) = u at *
  generalize l.dropWhile (fun i => decide (i < b)) = v at *
  subst hsplit
  have hpos : ∀ a ∈ u ++ v, 1 ≤ a := fun a ha => (h.bounds a ha).1
  have hlen := h₁.length_le
  rw [List.length_append] at hlen
  rw [hdel _ _ (freePlace_eq h₁.chain hpos hless hmore (by omega)), insertFree]
  rcases Chain.Seg.append_iff.mp h₁.chain with ⟨r, hu, hv⟩
  have hr : link (v.head?.getD 0) = r := by
    rw [link_head fun a ha => hpos a (List.mem_append_right _ ha), hv.start_eq]
  have hbu : b ∉ u := fun hmem => hused (List.mem_append_left _ hmem)
  have hbv : b ∉ v := fun hmem => hused (List.mem_append_right _ hmem)
  have hbn₁ : b < t₁.numTails := by rw [hn₁]; exact hbn
  -- the block with its next field
  have hblock₂ : ∀ i, 0 ≤ i → (t₁.setBlock b { t₁.block b with nextFree := v.head?.getD 0 }).block i =
      if i = b then { t₁.block b with nextFree := v.head?.getD 0 } else t₁.block i :=
    fun i hi => block_setBlock hb0 hbn₁ hi
  have hn₂ : (t₁.setBlock b { t₁.block b with nextFree := v.head?.getD 0 }).numTails = t.numTails := by
    rw [numTails_setBlock, hn₁]
  have hfirst₂ : (t₁.setBlock b { t₁.block b with nextFree := v.head?.getD 0 }).firstFree =
    t₁.firstFree := rfl
  generalize t₁.setBlock b { t₁.block b with nextFree := v.head?.getD 0 } = t₂ at *
  have hother₂ : ∀ i, 0 ≤ i → i ≠ b → (t₂.block i).suffix = (t.block i).suffix ∧
      (t₂.block i).data = (t.block i).data := by
    intro i hi hib
    rw [hblock₂ i hi, if_neg hib, hblock₁ i hi, if_neg hib]
    exact ⟨rfl, rfl⟩
  have hnone₂ : (t₂.block b).suffix = none := by
    rw [hblock₂ b hb0, if_pos rfl, hblock₁ b hb0, if_pos rfl]
  rcases List.eq_nil_or_concat u with rfl | ⟨u, a, rfl⟩
  · -- nothing before the block
    rw [List.getLast?_nil, Option.getD_none, if_neg (by simp)]
    refine ⟨?_, hn₂, hnone₂, hother₂⟩
    by_cases hb : b = 0
    · rw [if_pos hb, hb]
      exact ⟨rfl, .nil, by simp⟩
    · rw [if_neg hb]
      refine ⟨⟨if_neg hb, r, ?_, hv.frame ?_⟩, hsorted, ?_⟩
      · show some (link (t₂.block b).nextFree) = some r
        rw [hblock₂ b hb0, if_pos rfl, hr]
      · intro a ha
        have hab : a ≠ b := by
          rintro rfl
          exact hbv ha
        have := hpos a ha
        show some (link (t₂.block a).nextFree) = t₁.next a
        rw [hblock₂ a (by omega), if_neg hab]
        rfl
      · intro a ha
        show 1 ≤ a ∧ a < t₂.numTails
        rw [hn₂]
        rcases List.mem_cons.mp ha with rfl | ha
        · omega
        · exact h.bounds a ha
  · rw [List.concat_eq_append] at *
    have ha : 1 ≤ a ∧ a < t.numTails := h.bounds a (by simp)
    have hab : a < b := hless a (by simp)
    have ha0 : a ≠ 0 := by omega
    have hb : b ≠ 0 := by omega
    have hlast : (u ++ [a]).getLast?.getD 0 = a := by simp
    have hblock₃ : ∀ i, 0 ≤ i → (t₂.setBlock a { t₂.block a with nextFree := b }).block i =
        if i = a then { t₂.block a with nextFree := b } else t₂.block i :=
      fun i hi => block_setBlock (by omega) (by rw [hn₂]; exact ha.2) hi
    rw [hlast, if_neg hb]
    simp only [ne_eq, ha0, not_false_eq_true, if_true]
    have hnext : ∀ i, 1 ≤ i → i ≠ b →
        (t₂.setBlock a { t₂.block a with nextFree := b }).next i =
          if i = a then some (link b) else t₁.next i := by
      intro i hi hib
      rw [Tail.next, hblock₃ i (by omega)]
      split
      · rfl
      · rw [hblock₂ i (by omega), if_neg hib]
        rfl
    refine ⟨⟨?_, hsorted, ?_⟩, by rw [numTails_setBlock, hn₂], ?_, ?_⟩
    · refine Chain.Seg.append_iff.mpr ⟨some b, ?_, ⟨rfl, r, ?_, hv.frame ?_⟩⟩
      · -- the last block before it leads to it
        have hau : a ∉ u := by
          intro hmem
          have hnodup := List.nodup_append.mp ((h₁.sorted.imp fun h => Int.ne_of_lt h : List.Nodup _).sublist
            (List.sublist_append_left _ _))
          exact hnodup.2.2 a hmem a List.mem_cons_self rfl
        rw [show (t₂.setBlock a { t₂.block a with nextFree := b }).firstFree = t₁.firstFree from hfirst₂]
        refine (hu.relink hau (some b)).frame ?_
        intro i hi
        have hib : i ≠ b := by
          rintro rfl
          exact hbu hi
        rw [hnext i (hpos i (List.mem_append_left _ hi)) hib, Function.update_apply]
        split
        · rw [link, if_neg hb]
        · rfl
      · show some (link ((t₂.setBlock a { t₂.block a with nextFree := b }).block b).nextFree) = some r
        rw [hblock₃ b hb0, if_neg (by omega), hblock₂ b hb0, if_pos rfl, hr]
      · intro i hi
        have hib : i ≠ b := by
          rintro rfl
          exact hbv hi
        have hia : i ≠ a := by
          have := hmore i hi
          omega
        rw [hnext i (hpos i (List.mem_append_right _ hi)) hib, if_neg hia]
    · intro i hi
      rw [numTails_setBlock, hn₂]
      rcases List.mem_append.mp hi with hi | hi
      · exact h.bounds i (List.mem_append_left _ hi)
      · rcases List.mem_cons.mp hi with rfl | hi
        · omega
        · exact h.bounds i (List.mem_append_right _ hi)
    · have hba : b ≠ a := by omega
      show (((t₂.setBlock a { t₂.block a with nextFree := b }).block b)).suffix = none
      rw [hblock₃ b hb0, if_neg hba, hnone₂]
    · intro i hi hib
      rw [hblock₃ i hi]
      split
      · rename_i hia
        rw [hia]
        exact hother₂ a (by omega) (by omega)
      · exact hother₂ i hi hib

end DnsCache

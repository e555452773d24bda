import DnsCache.Lib.Ring
import DnsCache.AlphaMap

/-! # The double array of the trie, `darray.c`

A state `s` with a child on character `c` has it in cell `base[s] + c`, whose
`check` is `s`. Cell 0 is a header, cell 2 the root. The cells that hold no
state form a ring through cell 1, with `-check` as next and `-base` as
previous cell.

* `daWalk`, `daInsertBranch`, `daPruneUpto`: the functions of the trie.
* `daFindFreeBase`, `daRelocateBase`: a node with its children moved elsewhere.
* `daExtendPool`, `daAllocCell`, `daFreeCell`: the ring of free cells.
* `daEnumerate`: all separate nodes, in the order of their keys.
-/

namespace DnsCache

/-- `TRIE_INDEX_ERROR` and `TRIE_INDEX_MAX`. A `TrieIndex` is an integer here. That the cells
of a trie in use hold `int32`s, and that `base + c` is one as long as the array has at most
2^31 - 256 cells, is proved in `TrieFile`. -/
def trieIndexError : Int := 0
def trieIndexMax : Int := 0x7fffffff

/-- `DACell`. -/
structure DACell where
  base : Int
  check : Int
deriving DecidableEq, Repr

/-- `DArray`. -/
structure DArray where
  cells : List DACell
deriving DecidableEq, Repr

/-- `num_cells`. -/
def DArray.numCells (d : DArray) : Int := d.cells.length

/-- `DA_SIGNATURE` in an `int32`, and `DA_POOL_BEGIN`. -/
def daSignature : Int := 0xDAFCDAFC - 0x100000000
def daPoolBegin : Int := 3

/-- `da_get_root` and `da_get_free_list`. -/
def daGetRoot : Int := 2
def daGetFreeList : Int := 1

/-- `da_new`. -/
def daNew : DArray :=
  ⟨[⟨daSignature, daPoolBegin⟩, ⟨-1, -1⟩, ⟨daPoolBegin, 0⟩]⟩

/-! ## Cells -/

/-- `d->cells[s]`. -/
def DArray.cell (d : DArray) (s : Int) : DACell := d.cells.getD s.toNat ⟨0, 0⟩

/-- `da_get_base` and `da_get_check`. -/
def daGetBase (d : DArray) (s : Int) : Int :=
  if s < d.numCells then (d.cell s).base else trieIndexError

def daGetCheck (d : DArray) (s : Int) : Int :=
  if s < d.numCells then (d.cell s).check else trieIndexError

/-- `da_set_base` and `da_set_check`. -/
def daSetBase (d : DArray) (s val : Int) : DArray :=
  if s < d.numCells then ⟨d.cells.set s.toNat { d.cell s with base := val }⟩ else d

def daSetCheck (d : DArray) (s val : Int) : DArray :=
  if s < d.numCells then ⟨d.cells.set s.toNat { d.cell s with check := val }⟩ else d

/-- `da_walk`: the new state. -/
def daWalk (d : DArray) (s : Int) (c : UInt8) : Option Int :=
  let next := daGetBase d s + c.toNat
  if daGetCheck d next = s then some next else none

/-! ## Symbols -/

/-- The search of `symbols_add`: the place of `c`, none when `c` is there. A
round halves the stretch at least, so that it is done after `num_symbols` rounds. -/
def symbolsSearch (syms : List UInt8) (c : UInt8) : Nat → Nat → Nat → Option Nat
  | 0, lower, _ => some lower
  | n + 1, lower, upper =>
      if lower < upper then
        let middle := (lower + upper) / 2
        if syms.getD middle 0 < c then symbolsSearch syms c n (middle + 1) upper
        else if c < syms.getD middle 0 then symbolsSearch syms c n lower middle
        else none
      else some lower

/-- `symbols_add`. -/
def symbolsAdd (syms : List UInt8) (c : UInt8) : List UInt8 :=
  match symbolsSearch syms c syms.length 0 syms.length with
  | none => syms
  | some lower => syms.take lower ++ c :: syms.drop lower

/-- `max_c` of the loops over the characters of a node. Character 255 is never reached. -/
def maxC (base : Int) : Nat := (min 255 (trieIndexMax - base)).toNat

/-- `da_output_symbols`. -/
def daOutputSymbols (d : DArray) (s : Int) : List UInt8 :=
  let base := daGetBase d s
  ((List.range (maxC base)).filter fun c : Nat => daGetCheck d (base + c) = s).map Nat.toUInt8

/-- `da_has_children`. -/
def daHasChildren (d : DArray) (s : Int) : Bool :=
  let base := daGetBase d s
  if base = trieIndexError ∨ base < 0 then false
  else (List.range (maxC base)).any fun c : Nat => daGetCheck d (base + c) = s

/-! ## Free cells -/

/-- The loop of `da_extend_pool` over the new cells. -/
def linkCells (d : DArray) (newBegin : Int) (count : Nat) : DArray :=
  (List.range count).foldl (fun d (k : Nat) =>
    let i := newBegin + k
    daSetBase (daSetCheck d i (-(i + 1))) (i + 1) (-i)) d

/-- `da_extend_pool`. What `realloc` leaves in a new cell is overwritten. -/
def daExtendPool (d : DArray) (toIndex : Int) : Bool × DArray :=
  if toIndex ≤ 0 ∨ trieIndexMax ≤ toIndex then (false, d)
  else if toIndex < d.numCells then (true, d)
  else
    let newBegin := d.numCells
    let d : DArray := ⟨d.cells ++ List.replicate (toIndex + 1 - newBegin).toNat ⟨0, 0⟩⟩
    let d := linkCells d newBegin (toIndex - newBegin).toNat
    -- merge the new circular list to the old
    let freeTail := -daGetBase d daGetFreeList
    let d := daSetCheck d freeTail (-newBegin)
    let d := daSetBase d newBegin (-freeTail)
    let d := daSetCheck d toIndex (-daGetFreeList)
    let d := daSetBase d daGetFreeList (-toIndex)
    (true, daSetCheck d 0 d.numCells)

/-- `da_check_free_cell`. -/
def daCheckFreeCell (d : DArray) (s : Int) : Bool × DArray :=
  let (extended, d) := daExtendPool d s
  (extended && decide (daGetCheck d s < 0), d)

/-- `da_alloc_cell`. -/
def daAllocCell (d : DArray) (cell : Int) : DArray :=
  let prev := -daGetBase d cell
  let next := -daGetCheck d cell
  daSetBase (daSetCheck d prev (-next)) next (-prev)

/-- The free cell that follows in the ring. -/
def nextFree (d : DArray) (i : Int) : Int := -daGetCheck d i

/-- The loops over the ring for the first free cell from `bound` on. -/
def freeFrom (d : DArray) (bound : Int) : Int :=
  Ring.walkWhile (nextFree d) (fun i => decide (i ≠ daGetFreeList ∧ i < bound)) d.cells.length
    (nextFree d daGetFreeList)

/-- `da_free_cell`. -/
def daFreeCell (d : DArray) (cell : Int) : DArray :=
  let i := freeFrom d cell
  let prev := -daGetBase d i
  let d := daSetCheck d cell (-i)
  let d := daSetBase d cell (-prev)
  let d := daSetCheck d prev (-cell)
  daSetBase d i (-cell)

/-! ## A place for the children of a node -/

/-- `da_fit_symbols`. -/
def daFitSymbols (d : DArray) (base : Int) : List UInt8 → Bool × DArray
  | [] => (true, d)
  | sym :: symbols =>
      if trieIndexMax - sym.toNat < base then (false, d)
      else
        match daCheckFreeCell d (base + sym.toNat) with
        | (false, d) => (false, d)
        | (true, d) => daFitSymbols d base symbols

/-- `for (s = first_sym + DA_POOL_BEGIN;; ++s)`: `s` stays below `TRIE_INDEX_MAX`. -/
def firstFreeLoop : Nat → DArray → Int → Int × DArray
  | 0, d, _ => (trieIndexError, d)
  | n + 1, d, s =>
      match daExtendPool d s with
      | (false, d) => (trieIndexError, d)
      | (true, d) => if daGetCheck d s < 0 then (s, d) else firstFreeLoop n d (s + 1)

/-- The search for the next free cell that fits the symbols. `s` goes up along
the ring and stays below `TRIE_INDEX_MAX`. -/
def fitLoop (symbols : List UInt8) (firstSym : Int) :
    Nat → DArray → Int → Int × DArray
  | 0, d, _ => (trieIndexError, d)
  | n + 1, d, s =>
      match daFitSymbols d (s - firstSym) symbols with
      | (true, d) => (s - firstSym, d)
      | (false, d) =>
          -- extend pool before getting exhausted
          if nextFree d s = daGetFreeList then
            match daExtendPool d d.numCells with
            | (false, d) => (trieIndexError, d)
            | (true, d) => fitLoop symbols firstSym n d (nextFree d s)
          else fitLoop symbols firstSym n d (nextFree d s)

/-- `da_find_free_base`. -/
def daFindFreeBase (d : DArray) (symbols : List UInt8) : Int × DArray :=
  let firstSym : Int := (symbols.headD 0).toNat
  let rounds := trieIndexMax.toNat
  let s := freeFrom d (firstSym + daPoolBegin)
  if s = daGetFreeList then
    match firstFreeLoop rounds d (firstSym + daPoolBegin) with
    | (s, d) => if s = trieIndexError then (trieIndexError, d) else fitLoop symbols firstSym rounds d s
  else fitLoop symbols firstSym rounds d s

/-- The children of `oldNext` are given to `newNext`. -/
def moveChildren (d : DArray) (base oldNext newNext : Int) : DArray :=
  (List.range (maxC base)).foldl (fun d (c : Nat) =>
    if daGetCheck d (base + c) = oldNext then daSetCheck d (base + c) newNext else d) d

/-- The body of the loop of `da_relocate_base`. -/
def relocateSymbol (s oldBase newBase : Int) (d : DArray) (sym : UInt8) : DArray :=
  let oldNext := oldBase + sym.toNat
  let newNext := newBase + sym.toNat
  let oldNextBase := daGetBase d oldNext
  let d := daAllocCell d newNext
  let d := daSetCheck d newNext s
  let d := daSetBase d newNext oldNextBase
  -- preventing the case of TAIL pointer
  let d := if 0 < oldNextBase then moveChildren d oldNextBase oldNext newNext else d
  daFreeCell d oldNext

/-- `da_relocate_base`. -/
def daRelocateBase (d : DArray) (s newBase : Int) : DArray :=
  let oldBase := daGetBase d s
  daSetBase ((daOutputSymbols d s).foldl (relocateSymbol s oldBase newBase) d) s newBase

/-! ## Branches -/

/-- The last lines of `da_insert_branch`. -/
def takeCell (d : DArray) (s next : Int) : DArray := daSetCheck (daAllocCell d next) next s

/-- `da_insert_branch`: the new node, or `TRIE_INDEX_ERROR`. -/
def daInsertBranch (d : DArray) (s : Int) (c : UInt8) : Int × DArray :=
  let base := daGetBase d s
  if 0 < base then
    let next := base + c.toNat
    -- if already there, do not actually insert
    if daGetCheck d next = s then (next, d)
    else
      -- when `next` would overflow its cell is not looked at
      let (free, d) := if trieIndexMax - c.toNat < base then (false, d) else daCheckFreeCell d next
      if free then (next, takeCell d s next)
      else
        let (newBase, d) := daFindFreeBase d (symbolsAdd (daOutputSymbols d s) c)
        if newBase = trieIndexError then (trieIndexError, d)
        else
          let next := newBase + c.toNat
          (next, takeCell (daRelocateBase d s newBase) s next)
  else
    let (newBase, d) := daFindFreeBase d (symbolsAdd [] c)
    if newBase = trieIndexError then (trieIndexError, d)
    else
      let next := newBase + c.toNat
      (next, takeCell (daSetBase d s newBase) s next)

/-- The loop of `da_prune_upto`: a round frees a cell. -/
def pruneLoop (p : Int) : Nat → DArray → Int → DArray
  | 0, d, _ => d
  | n + 1, d, s =>
      if p ≠ s ∧ daHasChildren d s = false then
        let parent := daGetCheck d s
        pruneLoop p n (daFreeCell d s) parent
      else d

/-- `da_prune_upto` and `da_prune`. -/
def daPruneUpto (d : DArray) (p s : Int) : DArray := pruneLoop p d.cells.length d s

def daPrune (d : DArray) (s : Int) : DArray := daPruneUpto d daGetRoot s

/-! ## Enumeration -/

end DnsCache

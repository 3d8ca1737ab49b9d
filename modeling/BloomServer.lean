import BloomServer.Library.LabelledRun
import BloomServer.Library.RwLock
import BloomServer.Library.LinkedChain
import BloomServer.Library.WordBitmap
import BloomServer.Library.BinaryRounding
import BloomServer.Library.ProbeFilter
import BloomServer.Murmur
import BloomServer.FilterStore
import BloomServer.FilterSize
import BloomServer.FilterCore
import BloomServer.Registry
import BloomServer.RegistryRep
import BloomServer.RegistryEffect
import BloomServer.RegistryRun
import BloomServer.FilterMap
import BloomServer.Membership
import BloomServer.Accounting
import BloomServer.MemoryBudget
import BloomServer.ServerAdmission
import BloomServer.Archive
import BloomServer.Restart
import BloomServer.RestartAccounting
import BloomServer.DeleteAll
import BloomServer.FilterKept
import BloomServer.Facade
import BloomServer.ConcurrentAdd
import BloomServer.ReadRequest
import BloomServer.ConcurrentRead
import BloomServer.LockedCalls
import BloomServer.LockRelease
import BloomServer.DumpFile
import BloomServer.DurableMembership
import BloomServer.BatchRequests
import BloomServer.MaxId
import BloomServer.ServWire
import BloomServer.ServCalls
import BloomServer.ServSystem
import BloomServer.ServMembership
import BloomServer.Library.ByteCodec
import BloomServer.Library.FieldProtocol
import BloomServer.Library.BinaryProtocol
import BloomServer.Library.Receiving
import BloomServer.Library.HashRing
import BloomServer.UrlNode
import BloomServer.NodeMemory
import BloomServer.Library.DecimalText
import BloomServer.PageHead
import BloomServer.Library.ByteFile
import BloomServer.DbFile
import BloomServer.DbStore
import BloomServer.DbLayout
import BloomServer.DbThreads
import BloomServer.DbSound
import BloomServer.DbEffect
import BloomServer.DbPlaced
import BloomServer.DbSteps
import BloomServer.DbMap
import BloomServer.DbStorage
import BloomServer.DbScan
import BloomServer.RejectedStore
import BloomServer.DbInterleaving
import BloomServer.DbPut
import BloomServer.DbAccess
import BloomServer.Library.SplitMap
import BloomServer.DbAccessMap
import BloomServer.DbAccessCalls
import BloomServer.DbAccessRun
import BloomServer.Library.RingBuffer
import BloomServer.ConnectionQueue
import BloomServer.Library.Holders
import BloomServer.MyLock
import BloomServer.ConnectionPool
import BloomServer.ClientLeases
import BloomServer.SaveContent
import BloomServer.Library.WeighedMap
import BloomServer.Library.CallSequence
import BloomServer.PageCache
import BloomServer.FetchedDelivery
import BloomServer.FetchedFile
import BloomServer.AlreadyRead
import BloomServer.BigFileChunks
import BloomServer.BigFileAppend
import BloomServer.HttpBody
import BloomServer.Library.PriorityQueue
import BloomServer.TaskSchedule
import BloomServer.Library.KeyedWindow
import BloomServer.TaskUrls
import BloomServer.HostQueues
import BloomServer.HostSteps
import BloomServer.TaskUrlNum
import BloomServer.UrlCounts
import BloomServer.Library.LockTrace
import BloomServer.TaskThread
import BloomServer.UrlOther
import BloomServer.ReadContent
import BloomServer.BufferedPages
import BloomServer.TaskRetire
import BloomServer.HostPace
import BloomServer.Library.Countdown
import BloomServer.Library.TextSearch
import BloomServer.PageAnalysis
import BloomServer.ArticlePages
import BloomServer.ArticleSteps
import BloomServer.TaskRemoval
import BloomServer.HostRemoval
import BloomServer.MySQLPool
import BloomServer.UrlIds
import BloomServer.Inflate
import BloomServer.IndexCodec
import BloomServer.FinalPageFormat
import BloomServer.PageDump
import BloomServer.Library.Tokens
import BloomServer.UrlParse
import BloomServer.UrlAuthority
import BloomServer.ReadConf
import BloomServer.DateTime
import BloomServer.DatePrinted
import BloomServer.DbHandles
import BloomServer.DbCache
import BloomServer.DbCacheRefines
import BloomServer.Library.QuotedText
import BloomServer.UrlSpill
import BloomServer.RealHtml
import BloomServer.RealHtmlBlocks
import BloomServer.Library.CharBuffer
import BloomServer.UrlEncode
import BloomServer.TagFilter
import BloomServer.TextReplace
import BloomServer.FormatDate
import BloomServer.UrlScheme
import BloomServer.TransferRegEx
import BloomServer.CheckUrl
import BloomServer.PatternList
import BloomServer.WildcardRegex
import BloomServer.UrlSites
import BloomServer.ParseUrlEx
import BloomServer.UrlParsers
import BloomServer.HashTable
import BloomServer.MemCacheCalls
import BloomServer.MemCacheDelete
import BloomServer.MemCacheRemote
import BloomServer.NextPage

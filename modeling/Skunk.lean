import Skunk.Effect.Prog
import Skunk.Posix.Path
import Skunk.Posix.FileSystem
import Skunk.NetCDF.Library
import Skunk.NetCDF.Dap
import Skunk.NetCDF.Ncdds
import Skunk.NetCDF.NewNcdds
import Skunk.NetCDF.DdsAgreement
import Skunk.NetCDF.GridMaps
import Skunk.NetCDF.UserDefined
import Skunk.NetCDF.DistinctMembers
import Skunk.NetCDF.Access
import Skunk.NetCDF.Readers
import Skunk.NetCDF.MemberNames
import Skunk.NetCDF.Offsets
import Skunk.Container.RowMajor
import Skunk.Container.Places
import Skunk.Container.Front
import Skunk.NetCDF.Hyperslab
import Skunk.NetCDF.CharRows
import Skunk.NetCDF.ArrayRoom
import Skunk.NetCDF.NumberArrays
import Skunk.NetCDF.TextFields
import Skunk.NetCDF.Attributes
import Skunk.NetCDF.Ncdas
import Skunk.NetCDF.DatasetAttributes
import Skunk.NetCDF.DataAccess
import Skunk.NetCDF.Handles
import Skunk.Handler
import Skunk.BesUtils.CheckPath
import Skunk.BesUtils.MkdirP
import Skunk.Container.OrdMap
import Skunk.BesUtils.ObjMemCache
import Skunk.BesUtils.Paths
import Skunk.BesUtils.ReplaceAll
import Skunk.BesUtils.Tokens
import Skunk.BesUtils.LeastRecent
import Skunk.BesUtils.AgeWrap
import Skunk.BesUtils.EntryCount
import Skunk.BesUtils.InsertXmlBase
import Skunk.BesUtils.MemoryCache
import Skunk.BesUtils.FirstInFirstOut
import Skunk.Text.Search
import Skunk.Text.Spacing
import Skunk.Text.Cuts
import Skunk.Text.Lines
import Skunk.Text.Numeral
import Skunk.Text.Fixed
import Skunk.Time.Calendar
import Skunk.Time.Texts
import Skunk.Posix.Time
import Skunk.BesUtils.Entities
import Skunk.BesUtils.Www2id
import Skunk.BesUtils.Explode
import Skunk.BesUtils.Unescape
import Skunk.BesUtils.LockingCache
import Skunk.BesUtils.MetadataStore
import Skunk.BesUtils.Ledger
import Skunk.BesUtils.StaleResponse
import Skunk.BesUtils.StoreKeys
import Skunk.BesUtils.StoreMap
import Skunk.Effect.Interleave
import Skunk.Effect.Discipline
import Skunk.Effect.Trace
import Skunk.Effect.Machine
import Skunk.Posix.Kernel
import Skunk.Posix.Faults
import Skunk.Posix.Later
import Skunk.BesUtils.FileCache
import Skunk.BesUtils.CacheLayout
import Skunk.BesUtils.CacheProtocol
import Skunk.BesUtils.CacheMoves
import Skunk.BesUtils.CacheSection
import Skunk.BesUtils.CacheItems
import Skunk.BesUtils.CacheOps
import Skunk.BesUtils.CacheRemove
import Skunk.BesUtils.CachePurge
import Skunk.BesUtils.CacheOutside
import Skunk.BesUtils.CacheRuns
import Skunk.BesUtils.CacheBalance
import Skunk.BesUtils.FailedPut
import Skunk.BesUtils.Eviction
import Skunk.BesUtils.Unlimited
import Skunk.BesUtils.Clearing
import Skunk.BesUtils.FaultyCache
import Skunk.BesUtils.FaultySection
import Skunk.BesUtils.FaultyItems
import Skunk.BesUtils.FaultyOps
import Skunk.BesUtils.FaultyRuns
import Skunk.BesUtils.CacheThreads
import Skunk.BesUtils.Drafts
import Skunk.BesUtils.DraftRules
import Skunk.BesUtils.DraftRuns
import Skunk.BesUtils.DraftStore
import Skunk.BesUtils.DraftMoves
import Skunk.BesUtils.DraftCalls
import Skunk.BesUtils.ItemContents
import Skunk.BesUtils.KeyContents
import Skunk.BesUtils.Url
import Skunk.BesUtils.BesDebug
import Skunk.BesUtils.ContextManager
import Skunk.BesUtils.PidConverter
import Skunk.BesUtils.Log
import Skunk.BesUtils.Dates
import Skunk.HttpDate
import Skunk.DmrRequest

import LibYtdl.Foundation.Machine
import LibYtdl.Foundation.Encoding
import LibYtdl.Foundation.Memory
import LibYtdl.Foundation.Transition
import LibYtdl.Foundation.Cursor
import LibYtdl.Foundation.Ownership
import LibYtdl.Foundation.Search
import LibYtdl.Foundation.Scanner
import LibYtdl.Http.TlsWriteQueue
import LibYtdl.Http.WriteOrder
import LibYtdl.Http.WriteOutcome
import LibYtdl.Http.ReentrantWrites
import LibYtdl.Http.TlsSession
import LibYtdl.Http.TlsHandshake
import LibYtdl.Http.TlsHandles
import LibYtdl.Sig.Actions
import LibYtdl.Sig.Refinement
import LibYtdl.Sig.ActionsFile
import LibYtdl.Sig.ObjectScan
import LibYtdl.Sig.CallScan
import LibYtdl.Dl.MediaDownload
import LibYtdl.Dl.ChunkPlan
import LibYtdl.Dl.MediaChunks
import LibYtdl.Dl.MediaStatus
import LibYtdl.Dl.MediaRedirect
import LibYtdl.Dl.InfoQueue
import LibYtdl.Dl.InfoPhase
import LibYtdl.Dl.InfoProtocol
import LibYtdl.Dl.QueueCapacity
import LibYtdl.Dl.QueueProgress
import LibYtdl.Dl.MediaLocation
import LibYtdl.Dl.InfoServer
import LibYtdl.Info.Format
import LibYtdl.Info.Urldecode
import LibYtdl.Info.CipherUrl
import LibYtdl.Info.WatchPage
import LibYtdl.Dl.MediaStale
import LibYtdl.Mux.MuxFiles
import LibYtdl.Dash.Manifest
import LibYtdl.Dash.Format
import LibYtdl.Dash.Segments
import LibYtdl.Dl.DashDownload
import LibYtdl.Dl.DashSegments
import LibYtdl.Dl.DashLoad
import LibYtdl.Dl.PlayerCache
import LibYtdl.Dl.CacheRoundTrip
import LibYtdl.Dl.CacheTrust
import LibYtdl.Http.Connection
import LibYtdl.Dl.InfoShutdown
import LibYtdl.Dl.DashShutdown
import LibYtdl.Net.WatchUrl
import LibYtdl.Info.PageValues
import LibYtdl.Info.NParameter
import LibYtdl.Sig.NFunction
import LibYtdl.Info.UrlResource
import LibYtdl.Net.RequestHeads
import LibYtdl.Net.Innertube
import LibYtdl.Net.RequestSplitting
import LibYtdl.Mux.Interleaving
import LibYtdl.Info.BestFormat
import LibYtdl.Dl.GetInfoFailure
import LibYtdl.Info.ExtractFormats
import LibYtdl.Hashmap.Runs
import LibYtdl.Dl.PlayerMap
import LibYtdl.Sig.Decipher
import LibYtdl.Cli.Downloads
import LibYtdl.Info.Accessors
import LibYtdl.Sig.Utf8

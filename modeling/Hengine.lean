import Hengine.Core.Base64
import Hengine.Core.DnsQuery
import Hengine.Core.EscapeJson
import Hengine.Core.ProxyTrip
import Hengine.Core.RadixTreeExact
import Hengine.Core.Rwlock
import Hengine.Core.Shmtx
import Hengine.Core.SlabAccounting
import Hengine.Core.SlprintfExact
import Hengine.Core.StrRbtree
import Hengine.Core.TrieQuery
import Hengine.Core.Utf8
import Hengine.Dubbo.Attachments
import Hengine.Dubbo.HessianBoundsExact
import Hengine.Dubbo.HessianExact
import Hengine.Dubbo.ResponseExact
import Hengine.Http.ChunkedRoundTrip
import Hengine.Http.Concat
import Hengine.Http.FileCacheLock
import Hengine.Http.FileCacheSize
import Hengine.Http.HeaderSound
import Hengine.Http.InputBodyFilter
import Hengine.Http.LimitReqBucket
import Hengine.Http.LimitReqHandler
import Hengine.Http.RangeHeader
import Hengine.Http.RequestUri
import Hengine.Http.SliceHandler
import Hengine.Http.SubFilterExact
import Hengine.Http.Sysguard
import Hengine.Http.TrimExact
import Hengine.Http.UserAgent
import Hengine.Http2.DepTreeExact
import Hengine.Http2.Strings
import Hengine.Http2.TableExact
import Hengine.Strategy.PoolSize
import Hengine.Strategy.SlotsExact
import Hengine.Tfs.BlockCacheExact
import Hengine.Tfs.FreeChains
import Hengine.Tfs.RawFsname
import Hengine.Upstream.CheckFastcgiExact
import Hengine.Upstream.CheckIndex
import Hengine.Upstream.CheckShmExact
import Hengine.Upstream.CheckStatus
import Hengine.Upstream.ConsistentHashMoves
import Hengine.Upstream.DyupsBody
import Hengine.Upstream.DyupsSync
import Hengine.Upstream.Fairness
import Hengine.Upstream.IngressTags
import Hengine.Upstream.Keepalive
import Hengine.Upstream.Selection
import Hengine.Upstream.StickyCookieTrip
import Hengine.Upstream.VnswrrExact

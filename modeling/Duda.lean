import Duda.BodyBuffer
import Duda.Queue
import Duda.QueueLength
import Duda.WebSocketRead
import Duda.WebSocketWrite
import Duda.WebSocketEvents
import Duda.WebSocketHandshake
import Duda.WebSocketBroadcast
import Duda.QueryString
import Duda.RequestTree
import Duda.GarbageCollector
import Duda.RouterRoundTrip
import Duda.Switcher
import Duda.ServiceLookup
import Duda.UriMemory
import Duda.ServiceLoading
import Duda.ServiceName
import Duda.CommandLine
import Duda.DocumentRoot
import Duda.EventRegistry
import Duda.SessionIsolation
import Duda.SessionRoundTrip
import Duda.SchedulerRuns
import Duda.ChannelFifo
import Duda.ChannelStream
import Duda.ChannelReceiver
import Duda.MariadbQueue
import Duda.MariadbDeferral
import Duda.MariadbFrame
import Duda.MariadbWaiting
import Duda.MariadbConnect
import Duda.MariadbRelease
import Duda.MariadbPool
import Duda.MariadbPoolDrift
import Duda.MariadbDispatch
import Duda.MariadbDthread
import Duda.Strtol
import Duda.QueryTable
import Duda.RouterSelect
import Duda.CookieLookup
import Duda.FileRange
import Duda.WebSocketDecode
import Duda.SslServer
import Duda.Tickets
import Duda.WebSocketWorkers
import Duda.RouterSegments
import Duda.DataDirectory
import Duda.MariadbPoolConfig
import Duda.MariadbPoolSize
import Duda.ServiceCreate
import Duda.Base64
import Duda.WebSocketAccept
import Duda.MariadbMoves
import Duda.MariadbHistory
import Duda.MariadbOnward
import Duda.MariadbAbort
import Duda.MariadbStatements
import Duda.RouterLengths
import Duda.BlockStream
import Duda.Sha1Block
import Duda.BufferedHash
import Duda.Sha1
import Duda.Base64Decode
import Duda.WebSocketDigest
import Duda.Sha256Block
import Duda.Sha256
import Duda.IncrementalParser
import Duda.Decimal
import Duda.RedisReader
import Duda.RedisStream
import Duda.RedisRoundTrip
import Duda.RedisBounds
import Duda.RedisCommand
import Duda.RedisAsync
import Duda.RedisMatching
import Duda.RedisSubscribe
import Duda.Binary64
import Duda.CType
import Duda.Json
import Duda.JsonString
import Duda.JsonNumber
import Duda.JsonRoundTrip
import Duda.JsonSafety
import Duda.LinkedChain
import Duda.JsonItems
import Duda.JsonChains
import Duda.JsonForest

import CommonGo.Go.Strings
import CommonGo.Go.Slice
import CommonGo.Db.Explain
import CommonGo.Db.Tokens
import CommonGo.Db.MySql
import CommonGo.Db.PgBoundaries
import CommonGo.Migrate.Concurrent
import CommonGo.Migrate.Success
import CommonGo.Migrate.Ledger
import CommonGo.Migrate.FileSource
import CommonGo.Cache.Recency
import CommonGo.Cache.Locking
import CommonGo.Cache.Isolation
import CommonGo.Cache.Capacity
import CommonGo.Cache.Interchange
import CommonGo.Mq.Group
import CommonGo.Mq.Traffic
import CommonGo.Mq.Topics
import CommonGo.Sse.Retry
import CommonGo.Runner.Join
import CommonGo.Postgres.Dsn
import CommonGo.Types.Conservation
import CommonGo.HttpUtil.Disk
import CommonGo.Loki.Keys
import CommonGo.Loki.Sharing
import CommonGo.Sql.Migrations
import CommonGo.MySql.Pools
import CommonGo.Postgres.Creation
import CommonGo.Sql.Identifier
import CommonGo.Db.Budget
import CommonGo.Db.Bounds
import CommonGo.RandUtil.Hex
import CommonGo.UrlUtil.JoinPaths
import CommonGo.UrlUtil.BuildURI
import CommonGo.ClaudeCode.Files
import CommonGo.Types.Linearizable
import CommonGo.Sse.Encoding
import CommonGo.Ratelimit.Registry
import CommonGo.Migrate.ServerLedger
import CommonGo.Heartbeat.Detector
import CommonGo.Loki.Push
import CommonGo.UrlUtil.Params
import CommonGo.CryptoUtil.Certs

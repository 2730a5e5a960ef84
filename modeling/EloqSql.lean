import EloqSql.KeyDef.PosInInterval
import EloqSql.Handler.Read
import EloqSql.Handler.RecordsInRange
import EloqSql.Handler.Position
import EloqSql.Session
import EloqSql.CatalogName
import EloqSql.CatalogName.TmpTable
import EloqSql.ThreadPool.Mutex
import EloqSql.ThreadPool.StartIo
import EloqSql.ThreadPool.Resume
import EloqSql.ThreadPool.Callback
import EloqSql.Mdl.Compatible
import EloqSql.Handler.Bulk.Refine
import EloqSql.Decimal.Column
import EloqSql.AutoIncrement
import EloqSql.KeyDef.Compare
import EloqSql.Serialize
import EloqSql.ParseFile
import EloqSql.Like.Match
import EloqSql.Mdl.Reschedule
import EloqSql.ThreadPool.HeldMutexes
import EloqSql.Mdl.Deadlock
import EloqSql.TableCache.Books
import EloqSql.Json.Escape
import EloqSql.CircularQueue

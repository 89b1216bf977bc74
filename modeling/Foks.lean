import Foks.Merkle.Recommit
import Foks.Verify.PathComplete
import Foks.Server.MerkleQuery
import Foks.Verify.TeamAuthority
import Foks.Verify.RangeOrder
import Foks.Verify.AnchorRestore
import Foks.ServerDb.TeamGraph
import Foks.ServerDb.KvVersions
import Foks.Kv.Sessions
import Foks.Chat.Convergence
import Foks.Client.HistoricalRoots
import Foks.Client.AnchorLedger
import Foks.Chat.History
import Foks.ServerDb.KvLock
import Foks.Crypto.BackupPhrase
import Foks.Client.KvFile
import Foks.Client.UploadChunks
import Foks.ServerDb.KvFileLog
import Foks.ClientDb.Replay
import Foks.Snowpack.Borrowed

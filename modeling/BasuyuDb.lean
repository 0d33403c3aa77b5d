import BasuyuDb.Storage.Backup
import BasuyuDb.Consensus.Codec
import BasuyuDb.Executor.LostUpdate
import BasuyuDb.Executor.WriteSkew
import BasuyuDb.Executor.Truth
import BasuyuDb.Executor.PartialIndex
import BasuyuDb.Executor.KeySpace
import BasuyuDb.Executor.SerialDraws
import BasuyuDb.Branch.Merge
import BasuyuDb.Executor.Assignments
import BasuyuDb.Wire.Credentials
import BasuyuDb.Executor.JoinTargets
import BasuyuDb.Wire.Blocks
import BasuyuDb.Wire.Agreement
import BasuyuDb.Wire.Recovery
import BasuyuDb.Wire.Bodies
import BasuyuDb.Executor.BoundParams
import BasuyuDb.Wire.Normalize
import BasuyuDb.Executor.KeyMoves
import BasuyuDb.Branch.HeapRows
import BasuyuDb.Branch.DropColumn
import BasuyuDb.Wire.SetConstraints
import BasuyuDb.Executor.SetOps
import BasuyuDb.Executor.Arithmetic
import BasuyuDb.Executor.MemoryOrders
import BasuyuDb.Executor.Sources
import BasuyuDb.Executor.Literals
import BasuyuDb.Executor.Tuple
import BasuyuDb.Wire.RoleFile
import BasuyuDb.Storage.BackupAad
import BasuyuDb.Transactions.Hlc

import Andaluzcoin.CoinsRefinement
import Andaluzcoin.Supply
import Andaluzcoin.CrashRecovery
import Andaluzcoin.Difficulty
import Andaluzcoin.HeadersSyncSafety
import Andaluzcoin.SoftFork
import Andaluzcoin.BlockIndexRuns
import Andaluzcoin.Linearize
import Andaluzcoin.MerklePath
import Andaluzcoin.VersionBits
import Andaluzcoin.CoinSerialization
import Andaluzcoin.TxRequestRefinement
import Andaluzcoin.CoinsBookkeeping
import Andaluzcoin.MainOrder
import Andaluzcoin.CheckQueue
import Andaluzcoin.TxOrphanageSafety
import Andaluzcoin.Prioritisation
import Andaluzcoin.CheckMultisig
import Andaluzcoin.Miniscript
import Andaluzcoin.TaprootBuilder
import Andaluzcoin.SkipList
import Andaluzcoin.BlockLocator
import Andaluzcoin.CuckooCache
import Andaluzcoin.CoinSelection
import Andaluzcoin.ScriptEncodings

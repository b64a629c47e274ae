import Verium.Chain.BestChain
import Verium.Chain.BlockFilesSpec
import Verium.Chain.BlockSignature
import Verium.Chain.Checkpoint
import Verium.Chain.Earliest
import Verium.Chain.Locator
import Verium.Chain.Pruning
import Verium.Chain.Reconsider
import Verium.Chain.TipMoves
import Verium.Consensus.CleanEnd
import Verium.Consensus.MerkleBlockSpec
import Verium.Consensus.MoneySupply
import Verium.Consensus.OutputAdditions
import Verium.Consensus.RetargetLaws
import Verium.Consensus.TimeChecks
import Verium.Consensus.WorkCheck
import Verium.Crypto.ScryptSpec
import Verium.Crypto.Sha256
import Verium.Crypto.SipHash
import Verium.Mempool.EntryBar
import Verium.Mempool.EntryOrder
import Verium.Mempool.LockTimes
import Verium.Net.CompactSpec
import Verium.Net.Downloads
import Verium.Net.TimeData
import Verium.Script.DerSignature
import Verium.Script.DescriptorChecksum
import Verium.Script.MachineSafety
import Verium.Script.SigOpBound
import Verium.Script.SighashLaws
import Verium.Util.Bech32
import Verium.Util.LimitedMap
import Verium.Util.MoneyStr
import Verium.Util.PrevectorSpec

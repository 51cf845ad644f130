import Qau.VerkleComplete
import Qau.StateRevert
import Qau.EvmTranslate
import Qau.ErasureRecover
import Qau.MerkleBinding
import Qau.TransactionSigning
import Qau.HeaderSigning
import Qau.TxConservation
import Qau.ParallelAgree
import Qau.Equivocation
import Qau.EpochRetention
import Qau.HonestVoter
import Qau.FriBinding
import Qau.FriComplete
import Qau.ValidatorLifecycle
import Qau.LmdGhost
import Qau.QuorumUnique
import Qau.PoolRun
import Qau.RevealRun
import Qau.CallFrame

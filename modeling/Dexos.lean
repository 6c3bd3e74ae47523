import Dexos.Minimmit.ExecutionFinality
import Dexos.Minimmit.Quota
import Dexos.Minimmit.Rotation
import Dexos.Clob.Lockstep
import Dexos.Execution.Funding
import Dexos.Risk.Value
import Dexos.Risk.Validate
import Dexos.LightClient.Succession
import Dexos.Custody.Rotation
import Dexos.Custody.Sessions
import Dexos.LightClient.StateProofs
import Dexos.Execution.ExactlyOnce
import Dexos.Execution.Collar
import Dexos.Oracle.HonestMajority
import Dexos.ChainAdapter.Finality
import Dexos.Decision.Twap
import Dexos.Discovery.PeerTable

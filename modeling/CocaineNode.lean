import CocaineNode.Theory.RingMembers
import CocaineNode.Theory.Sync
import CocaineNode.Theory.Base58
import CocaineNode.Theory.NodeOperations
import CocaineNode.Theory.TreeHash
import CocaineNode.Theory.ParsedSizes
import CocaineNode.Theory.AltTimestamps
import CocaineNode.Theory.BlockQueue
import CocaineNode.Theory.ChainHistory
import CocaineNode.Theory.Checkpoints
import CocaineNode.Theory.ForkHistory
import CocaineNode.Theory.Pruning
import CocaineNode.Theory.PoolInfo
import CocaineNode.Theory.BatchAbort
import CocaineNode.Theory.StorageLimits
import CocaineNode.Theory.LevinSizes
import CocaineNode.Theory.LmdbChain
import CocaineNode.Theory.CheckHash
import CocaineNode.Theory.Retarget
import CocaineNode.Theory.AltCoins
import CocaineNode.Theory.RctSemantics
import CocaineNode.Theory.Recalculation
import CocaineNode.Theory.Peerlist
import CocaineNode.Theory.ChainEntry
import CocaineNode.Theory.KeyText
import CocaineNode.Theory.RpcPayment

import Sui.Consensus.CommitVoteMonitor
import Sui.Consensus.Theorems.CommitAgreement
import Sui.Consensus.Theorems.CommitSyncer
import Sui.Consensus.Theorems.DagState
import Sui.Consensus.Theorems.LeaderScheduleV3
import Sui.Consensus.Theorems.LeaderSwapTable
import Sui.Consensus.Theorems.Linearization
import Sui.Consensus.Theorems.SlotAgreement
import Sui.Consensus.Theorems.ThresholdClock
import Sui.Consensus.Theorems.Thresholds
import Sui.Execution.CircularOwnership
import Sui.Execution.Theorems.CausalOrder
import Sui.Execution.Theorems.CoinReservations
import Sui.Execution.Theorems.Congestion
import Sui.Execution.Theorems.EffectsCertifier
import Sui.Execution.Theorems.ObjectFundsChecker
import Sui.Execution.Theorems.Settlement
import Sui.Execution.Theorems.SharedObjectVersions
import Sui.Execution.Theorems.StakeAggregator
import Sui.Framework.AccumulatorSettlement
import Sui.LightClient.Theorems.StreamCompleteness
import Sui.Move.Theorems.BorrowGraph
import Sui.Move.Uleb128
import Sui.Network.Theorems.StateSync
import Sui.Storage.Theorems.BitmapQuery
import Sui.System.Theorems.StakingPool
import Sui.System.Theorems.ValidatorLifecycle
import Sui.System.Theorems.ValidatorSet
import Sui.Types.MultiSig

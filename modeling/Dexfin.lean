import Dexfin.Lib.CallFrames
import Dexfin.Lib.Ledger
import Dexfin.Lib.FirstMatch
import Dexfin.Lib.Word
import Dexfin.Lib.Bytes
import Dexfin.Lib.NestedTx
import Dexfin.Lib.LowBits
import Dexfin.Lib.Journal
import Dexfin.Lib.SelectSort
import Dexfin.Lib.Decimal
import Dexfin.Lib.Regroup
import Dexfin.Lib.StateExcept
import Dexfin.Lib.BitTree
import Dexfin.Lib.Limbs
import Dexfin.Lib.IntDiv
import Dexfin.Lib.BestOf
import Dexfin.Lib.KeyedList
import Dexfin.Lib.Threshold
import Dexfin.Lib.Worklist
import Dexfin.Lib.ArgMax
import Dexfin.Lib.Ordered
import Dexfin.Token.Contract
import Dexfin.Token.Supply
import Dexfin.Token.Allowance
import Dexfin.Lightning.HtlcState
import Dexfin.Lightning.Channel
import Dexfin.Lightning.Commit
import Dexfin.Lightning.Pass
import Dexfin.Lightning.Restore
import Dexfin.Lightning.Calls
import Dexfin.Lightning.Conservation
import Dexfin.Lightning.Accounting
import Dexfin.Lightning.Invariant
import Dexfin.Lightning.ForceHtlcs
import Dexfin.Lightning.Restart
import Dexfin.Lightning.Reserve
import Dexfin.Lightning.Feerate
import Dexfin.Lightning.Tx
import Dexfin.Lightning.TxPull
import Dexfin.Lightning.CommitTx
import Dexfin.Lightning.PermuteTx
import Dexfin.Bolt11.Amount
import Dexfin.Bolt11.Fields
import Dexfin.Bolt11.Decode
import Dexfin.Bolt11.HashU5
import Dexfin.Lnd.CommitWeight
import Dexfin.Lnd.Shachain
import Dexfin.Lnd.RevocationStore
import Dexfin.Bitcoin.Script
import Dexfin.Bitcoin.Eval
import Dexfin.Bitcoin.Merkle
import Dexfin.Bitcoin.ArithUint256
import Dexfin.Bitcoin.BaseUint
import Dexfin.Bitcoin.Pow
import Dexfin.Swap.Compile
import Dexfin.Swap.BtcSwap
import Dexfin.Swap.Spend
import Dexfin.Swap.Withdraw
import Dexfin.Stellar.LedgerState
import Dexfin.Stellar.LedgerRefine
import Dexfin.Stellar.BucketList
import Dexfin.Stellar.BucketSizes
import Dexfin.Stellar.BucketRefine
import Dexfin.Stellar.BucketMerge
import Dexfin.Stellar.Numeric
import Dexfin.Stellar.OfferExchange
import Dexfin.Stellar.ExchangeV10
import Dexfin.Stellar.BestOffer
import Dexfin.Stellar.QuorumSet
import Dexfin.Stellar.ClosestVBlocking
import Dexfin.Stellar.NodeInQuorum
import Dexfin.Stellar.Nomination
import Dexfin.Stellar.Statements
import Dexfin.Stellar.CommitInterval
import Dexfin.Stellar.PreparedBallot
import Dexfin.Parity.Account
import Dexfin.Parity.State
import Dexfin.Parity.Observe
import Dexfin.Parity.Checkpoints
import Dexfin.Bolt11.Bech32

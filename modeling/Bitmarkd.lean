import Bitmarkd.Peer.Voting
import Bitmarkd.Storage.Transaction
import Bitmarkd.Chain.Linkage
import Bitmarkd.Share.Replay
import Bitmarkd.Ledger.DoubleSpend
import Bitmarkd.Reservoir.Verify
import Bitmarkd.Ledger.Authority
import Bitmarkd.Reservoir.Concurrent
import Bitmarkd.Reservoir.Capacity
import Bitmarkd.Reservoir.Order
import Bitmarkd.Block.Binding
import Bitmarkd.Reservoir.Acceptance
import Bitmarkd.Payment.Watcher
import Bitmarkd.Reservoir.Window
import Bitmarkd.Payment.Scan
import Bitmarkd.Util.VarintCode
import Bitmarkd.Merkle.Minimum
import Bitmarkd.Currency.Mapped
import Bitmarkd.Account.Text
import Bitmarkd.Rpc.Provenance
import Bitmarkd.BlockRecord.Codec
import Bitmarkd.Util.Canonical
import Bitmarkd.Announce.Txt
import Bitmarkd.Announce.Rpc
import Bitmarkd.Announce.Ring
import Bitmarkd.Announce.Backup
import Bitmarkd.Proof.Queue
import Bitmarkd.Currency.Satoshi
import Bitmarkd.Block.Startup
import Bitmarkd.Messagebus.Broadcast
import Bitmarkd.Recorder.Manager
import Bitmarkd.Peer.Synchronise

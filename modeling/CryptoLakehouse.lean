import CryptoLakehouse.Lib.Machine
import CryptoLakehouse.Sink.Proof.Recovery
import CryptoLakehouse.Sink.Proof.CoBatch
import CryptoLakehouse.Query.Proof.Binding
import CryptoLakehouse.Query.Proof.Backfill
import CryptoLakehouse.Query.Proof.Dedup
import CryptoLakehouse.Query.Proof.Visible
import CryptoLakehouse.Batcher.Proof.AckSafety
import CryptoLakehouse.Batcher.Proof.EffectivelyOnce
import CryptoLakehouse.Writers.Proof.OneRowPerKey
import CryptoLakehouse.Writers.Proof.Alone
import CryptoLakehouse.Batcher.Proof.SizePolicy
import CryptoLakehouse.Batcher.Proof.TwoStages
import CryptoLakehouse.Sink.Proof.PruningExact
import CryptoLakehouse.Sink.Proof.Retry
import CryptoLakehouse.Batcher.Proof.Timestamps
import CryptoLakehouse.Batcher.Proof.RunStats
import CryptoLakehouse.Query.Proof.Audit
import CryptoLakehouse.Query.Proof.QualifiedName
import CryptoLakehouse.Collector.Proof.Rotation
import CryptoLakehouse.Query.Proof.DayByDay
import CryptoLakehouse.Query.Proof.Honest
import CryptoLakehouse.Query.Proof.Windows
import CryptoLakehouse.Query.Proof.ExactlyOnce
import CryptoLakehouse.Batcher.Proof.FlushPolicy
import CryptoLakehouse.Collector.Proof.Message
import CryptoLakehouse.Query.Proof.DailyCount
import CryptoLakehouse.Query.Proof.Session
import CryptoLakehouse.Batcher.Proof.Values
import CryptoLakehouse.Batcher.Proof.Settings
import CryptoLakehouse.Batcher.Proof.Restart
import CryptoLakehouse.Batcher.Proof.Shutdown
import CryptoLakehouse.Batcher.Proof.Backpressure
import CryptoLakehouse.Batcher.Proof.Work
import CryptoLakehouse.Batcher.Proof.Redelivery
import CryptoLakehouse.Lakehouse.Proof.EndToEnd
import CryptoLakehouse.Catalog.Proof.Ensure
import CryptoLakehouse.Collector.Proof.Supervisor
import CryptoLakehouse.Collector.Proof.Copies
import CryptoLakehouse.Batcher.Proof.Timely
import CryptoLakehouse.Batcher.Proof.Consumer
import CryptoLakehouse.Writers.Proof.Optimistic

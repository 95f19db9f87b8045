import Blkit.Aws.Follow
import Blkit.Aws.Sweep
import Blkit.Aws.Watch
import Blkit.Broker.Outcomes
import Blkit.Broker.Provenance
import Blkit.Broker.Resuming
import Blkit.Decision.Absent
import Blkit.Decision.Siblings
import Blkit.Decision.Sorting
import Blkit.Expr.Comprehension
import Blkit.Expr.Dictionary
import Blkit.Expr.Filter
import Blkit.Expr.Index
import Blkit.Firestore.Sweep
import Blkit.Firestore.Watch
import Blkit.JetStream.Fetch
import Blkit.Normalise.Bracket
import Blkit.Normalise.Halting
import Blkit.Normalise.Nesting
import Blkit.Redis.Lifecycle
import Blkit.Redis.Retry
import Blkit.Store.Badger
import Blkit.Store.Bbolt
import Blkit.Store.Isolation
import Blkit.Store.NatsReplay
import Blkit.Store.Postgres
import Blkit.Store.Sqlite
import Blkit.Value.Calendar
import Blkit.Value.Duration
import Blkit.Value.Interval
import Blkit.Value.Month
import Blkit.Value.Temporal
import Blkit.Wire.Envelope
import Blkit.Wire.Input

import Ferret.Catalog.BlockedRead
import Ferret.Catalog.LogRoundTrip
import Ferret.Catalog.Prepared
import Ferret.Catalog.ResidentRead
import Ferret.Crawl.ScheduleRun
import Ferret.Daemon.Drain
import Ferret.Daemon.Wakeups
import Ferret.Extract.Ordered
import Ferret.Find.BatchRun
import Ferret.Find.Clauses
import Ferret.Find.Command
import Ferret.Find.DateExact
import Ferret.Find.Fnmatch
import Ferret.Find.Resolution
import Ferret.Find.Week
import Ferret.Grep.Relative
import Ferret.Grep.Searched
import Ferret.Grep.Spelled
import Ferret.Index.LiveSet
import Ferret.Index.Lookup
import Ferret.Index.Varint
import Ferret.Index.Winner
import Ferret.Policy.Alternatives
import Ferret.Policy.Reaching
import Ferret.Query.CompletionOrder
import Ferret.Query.Eval
import Ferret.Query.Grammar
import Ferret.Query.Run
import Ferret.Segment.SpillFinish
import Ferret.Store.Crash
import Ferret.Store.Published
import Ferret.Store.Repeated
import Ferret.Store.Waves
import Ferret.Text.Cap
import Ferret.Verify.LineLocal
import Ferret.Verify.PoolRun
import Ferret.Verify.RingRun
import Ferret.Verify.Trigrams
import Ferret.Watch.Runs

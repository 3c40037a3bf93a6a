import LensX.General.Bitmask
import LensX.General.Pairs
import LensX.General.OrderStatistics
import LensX.General.Transducer
import LensX.General.Window
import LensX.Model.Matcher
import LensX.Model.Config
import LensX.Model.Parse
import LensX.Model.Tracer
import LensX.Model.Report
import LensX.Model.Probe
import LensX.Model.Generator
import LensX.Model.Attach
import LensX.Model.Symbols
import LensX.General.Layout
import LensX.General.Circular
import LensX.General.CommitLog
import LensX.Model.Record
import LensX.Model.RingBuffer
import LensX.Seq.Slot
import LensX.Seq.Groups
import LensX.Seq.Isolation
import LensX.Key.Record
import LensX.Key.Segments
import LensX.Key.Permutation
import LensX.General.Blocks
import LensX.General.Rounds
import LensX.Key.Requests
import LensX.Fifo.Ring
import LensX.System.Documents
import LensX.System.Wiring
import LensX.System.Calls
import LensX.System.Samples
import LensX.System.Accesses
import LensX.System.Processes
import LensX.System.Reports
import LensX.System.KeyAccounting
import LensX.System.Queues
import LensX.System.Pairing
import LensX.System.InOrder
import LensX.System.Provenance
import LensX.System.VisitOrder
import LensX.System.MatcherOrder
import LensX.System.DeclaredQueues
import LensX.System.AddReport
import LensX.System.Attribution
import LensX.System.Accounting
import LensX.System.KeySources
import LensX.System.Attach
import LensX.System.Symbols
import LensX.System.Decode
import LensX.General.Segments
import LensX.Fifo.Calls
import LensX.Fifo.Counters
import LensX.Key.Agreement
import LensX.Key.Wrapping
import LensX.Hist.Buckets
import LensX.Hist.Percentiles
import LensX.Hist.Printed
import LensX.Transport.Words
import LensX.General.Lines
import LensX.General.Related
import LensX.Model.RawData
import LensX.System.EndToEnd
import LensX.System.Origin
import LensX.System.RawData
import LensX.Hist.Accuracy
import LensX.Model.Sections
import LensX.System.Capacity
import LensX.System.Results
import LensX.System.Sections
import LensX.System.Source
import LensX.General.Countdown
import LensX.Transport.Waiting
import LensX.General.Matching
import LensX.System.Matching
import LensX.General.Losses
import LensX.System.Losses
import LensX.System.Interleavings
import LensX.System.Independence

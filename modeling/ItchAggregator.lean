import ItchAggregator.OrderMap
import ItchAggregator.OrderBook
import ItchAggregator.Reports
import ItchAggregator.AssemblerStates
import ItchAggregator.AggregateOrder
import ItchAggregator.GpuReports
import ItchAggregator.RoundTrip
import ItchAggregator.ReplaceOrder
import ItchAggregator.OrderHistory
import ItchAggregator.ReadBounds
import ItchAggregator.Truncation
import ItchAggregator.SlotReuse
import ItchAggregator.MaxMsgs
import ItchAggregator.Imbalance
import ItchAggregator.OrderBuckets
import ItchAggregator.OrderLoops
import ItchAggregator.EndOfStream
import ItchAggregator.QuoteSentinels
import ItchAggregator.GpuLabels
import ItchAggregator.StatsFile
import ItchAggregator.SyntheticStream
import ItchAggregator.GpuSafety
import ItchAggregator.ExitStatus
import ItchAggregator.PrintedQuotients
import ItchAggregator.MakeFixture
import ItchAggregator.SyntheticRuns
import ItchAggregator.ReadErrors

import StockExchange.Lib.OrderedMap
import StockExchange.Lib.Greedy
import StockExchange.Lib.Packed
import StockExchange.Lib.Machine
import StockExchange.Lib.Relay
import StockExchange.Lib.Chain
import StockExchange.Lib.Condvar
import StockExchange.Lib.Flow
import StockExchange.Common.Types
import StockExchange.Engine.MatchingEngine
import StockExchange.Engine.BookState
import StockExchange.Engine.Matching
import StockExchange.Engine.OrderBook
import StockExchange.Engine.Runs
import StockExchange.Engine.Unique
import StockExchange.Engine.Events
import StockExchange.Engine.Price
import StockExchange.Engine.MarketOrder
import StockExchange.Engine.Priority
import StockExchange.Engine.NoOvertaking
import StockExchange.Engine.Ledger
import StockExchange.Engine.Reports
import StockExchange.Engine.Overfill
import StockExchange.Engine.ReportTotals
import StockExchange.Engine.SameBook
import StockExchange.Engine.Mirror
import StockExchange.Engine.Removal
import StockExchange.Engine.Dangling
import StockExchange.Gateway.BinarySerializer
import StockExchange.Threadpool.Task
import StockExchange.Threadpool.SafeQueue
import StockExchange.Pipeline.MpscQueue
import StockExchange.Pipeline.QueueMemory
import StockExchange.Pipeline.ExecutionPipeline
import StockExchange.Pipeline.Dispatch
import StockExchange.Pipeline.Handover
import StockExchange.Pipeline.Stopping
import StockExchange.Pipeline.StopReturns
import StockExchange.Pipeline.Wal
import StockExchange.Engine.ReplayEngine
import StockExchange.Threadpool.ThreadPool
import StockExchange.Threadpool.Server
import StockExchange.Threadpool.Shutdown
import StockExchange.Threadpool.Recovery
import StockExchange.Threadpool.Refinement
import StockExchange.Threadpool.History
import StockExchange.Threadpool.ArrivalOrder
import StockExchange.Threadpool.ReportOrder
import StockExchange.Threadpool.LogOrder
import StockExchange.Threadpool.Crash
import StockExchange.Engine.Owners
import StockExchange.Threadpool.Owners
import StockExchange.Engine.TradeIds
import StockExchange.Engine.FillBound
import StockExchange.Engine.OrderProtocol
import StockExchange.Threadpool.TradeIds
import StockExchange.Pipeline.Restart
import StockExchange.Threadpool.Restarts
import StockExchange.Threadpool.Progress
import StockExchange.Engine.UniqueBooks
import StockExchange.Engine.Spending
import StockExchange.Engine.RiskChecker
import StockExchange.Engine.RiskHistory
import StockExchange.Engine.Depth
import StockExchange.Gateway.Session
import StockExchange.Gateway.Exchange
import StockExchange.Gateway.RiskLimits
import StockExchange.Gateway.Ownership
import StockExchange.Gateway.Trace
import StockExchange.Gateway.Durability
import StockExchange.Gateway.Delivery
import StockExchange.Gateway.ReusedIds
import StockExchange.Gateway.Spending
import StockExchange.Gateway.MarketOrders
import StockExchange.Gateway.BookSymbols
import StockExchange.Gateway.Framing
import StockExchange.Gateway.WriteQueue
import StockExchange.Gateway.DemoClient
import StockExchange.Gateway.ReportPath
import StockExchange.Gateway.Reencoding
import StockExchange.Gateway.StaleMemory
import StockExchange.Gateway.ReportWire

import OrderBook.Library.Binary64
import OrderBook.Library.Decimals
import OrderBook.Library.Double
import OrderBook.Library.Fifo
import OrderBook.Library.Grid
import OrderBook.Library.Json
import OrderBook.Library.JsonSizes
import OrderBook.Library.JsonTexts
import OrderBook.Library.Links
import OrderBook.Library.Logging
import OrderBook.Library.Machine
import OrderBook.Library.Nearest
import OrderBook.Library.Numerals
import OrderBook.Library.Pacing
import OrderBook.Library.Pieces
import OrderBook.Library.Ranks
import OrderBook.Library.Ring
import OrderBook.Library.Search
import OrderBook.Library.Words
import OrderBook.Source.Book
import OrderBook.Source.CommandLine
import OrderBook.Source.Engine
import OrderBook.Source.Feed
import OrderBook.Source.LatencyHist
import OrderBook.Source.LiveTrade
import OrderBook.Source.MeanReversion
import OrderBook.Source.Pipeline
import OrderBook.Source.Pool
import OrderBook.Source.Publisher
import OrderBook.Source.Risk
import OrderBook.Source.RiskWords
import OrderBook.Source.SideBook
import OrderBook.Source.SpscQueue
import OrderBook.Source.Telemetry
import OrderBook.Source.Trader
import OrderBook.Source.Types
import OrderBook.Market.Basic
import OrderBook.Market.Commute
import OrderBook.Market.Depth
import OrderBook.Market.Exception
import OrderBook.Market.Flip
import OrderBook.Market.Index
import OrderBook.Market.Invariant
import OrderBook.Market.Ladder
import OrderBook.Market.Outcome
import OrderBook.Market.Place
import OrderBook.Market.Queues
import OrderBook.Market.Quote
import OrderBook.Market.Split
import OrderBook.Market.Sweep
import OrderBook.Market.Trades
import OrderBook.Market.Undo
import OrderBook.Market.Waterfall
import OrderBook.Refine.Callbacks
import OrderBook.Refine.Match
import OrderBook.Refine.Memory
import OrderBook.Refine.Place
import OrderBook.Refine.Rep
import OrderBook.Refine.Runs
import OrderBook.Refine.Submit
import OrderBook.Refine.Termination
import OrderBook.Refine.Turns
import OrderBook.Refine.View
import OrderBook.Reference.Book
import OrderBook.Reference.Mirror
import OrderBook.Reference.Simulation
import OrderBook.Engine.Calls
import OrderBook.Engine.Gate
import OrderBook.Engine.GateWords
import OrderBook.Engine.Logged
import OrderBook.Engine.Paper
import OrderBook.Engine.Quotes
import OrderBook.Engine.Runs
import OrderBook.Engine.Ticks
import OrderBook.Engine.WordRuns
import OrderBook.Engine.Words
import OrderBook.Telemetry.Calls
import OrderBook.Telemetry.Histogram
import OrderBook.Telemetry.Lines
import OrderBook.Telemetry.Steps
import OrderBook.Trader.Flow
import OrderBook.Trader.Program
import OrderBook.Trader.Steps
import OrderBook.Properties.Accounts
import OrderBook.Properties.Accumulators
import OrderBook.Properties.CommandLine
import OrderBook.Properties.Commute
import OrderBook.Properties.Delivery
import OrderBook.Properties.Deviation
import OrderBook.Properties.Engine
import OrderBook.Properties.EngineWords
import OrderBook.Properties.Exceptions
import OrderBook.Properties.Feed
import OrderBook.Properties.FillOrKill
import OrderBook.Properties.Flip
import OrderBook.Properties.Gate
import OrderBook.Properties.GateWords
import OrderBook.Properties.Index
import OrderBook.Properties.Joins
import OrderBook.Properties.Ledger
import OrderBook.Properties.Lines
import OrderBook.Properties.MeanReversion
import OrderBook.Properties.Numbers
import OrderBook.Properties.ParseSymbols
import OrderBook.Properties.Percentiles
import OrderBook.Properties.Pipeline
import OrderBook.Properties.Pool
import OrderBook.Properties.Program
import OrderBook.Properties.Quotes
import OrderBook.Properties.Reference
import OrderBook.Properties.Shutdown
import OrderBook.Properties.Split
import OrderBook.Properties.SpscQueue
import OrderBook.Properties.StopOut
import OrderBook.Properties.Symbols
import OrderBook.Properties.Termination
import OrderBook.Properties.Totals
import OrderBook.Properties.Undo
import OrderBook.Properties.Waterfall
import OrderBook.Properties.WellFormed

import MarketDepth.Book
import MarketDepth.Metrics
import MarketDepth.Replica
import MarketDepth.Decimal.Shortest
import MarketDepth.Decimal.Numeral
import MarketDepth.Text.Unseen
import MarketDepth.Text.Quoted
import MarketDepth.Json.Basic
import MarketDepth.Json.Writer
import MarketDepth.Json.Token
import MarketDepth.Json.Document
import MarketDepth.Json.Number
import MarketDepth.Json.Fault
import MarketDepth.Json.Reading
import MarketDepth.Config
import MarketDepth.Wire.Order
import MarketDepth.Wire.Levels
import MarketDepth.Wire.Snapshot
import MarketDepth.Wire.Config
import MarketDepth.Feed
import MarketDepth.LiveBook
import MarketDepth.Desk
import MarketDepth.Replay.Arguments
import MarketDepth.Replay.Recording
import MarketDepth.Replay.Run
import MarketDepth.Main
import MarketDepth.Proofs.Rounding
import MarketDepth.Proofs.Binary64
import MarketDepth.Proofs.Sums
import MarketDepth.Proofs.LadderOrder
import MarketDepth.Proofs.WindowMark
import MarketDepth.Proofs.WindowChanges
import MarketDepth.Proofs.WindowRuns
import MarketDepth.Proofs.NetDeltas
import MarketDepth.Proofs.BookShape
import MarketDepth.Proofs.ReplicaView
import MarketDepth.Proofs.Revisions
import MarketDepth.Proofs.Edits
import MarketDepth.Proofs.SharpSums
import MarketDepth.Proofs.WholeSizes
import MarketDepth.Proofs.Quotients
import MarketDepth.Proofs.ShortestDecimals
import MarketDepth.Proofs.Numerals
import MarketDepth.Proofs.JsonText
import MarketDepth.Proofs.RoundTrips
import MarketDepth.Proofs.LiveOrders
import MarketDepth.Proofs.Conservation
import MarketDepth.Proofs.LedgerTotals
import MarketDepth.Proofs.BookTotals
import MarketDepth.Proofs.OrphanLevels
import MarketDepth.Proofs.BatchGrouping
import MarketDepth.Proofs.Recasting
import MarketDepth.Proofs.LastWords
import MarketDepth.Proofs.LedgerEntries
import MarketDepth.Proofs.LevelSizes
import MarketDepth.Proofs.Checksum
import MarketDepth.Proofs.Subscriptions
import MarketDepth.Proofs.Rejections
import MarketDepth.Proofs.Percentiles
import MarketDepth.Proofs.Accounts
import MarketDepth.Proofs.DeskWiring
import MarketDepth.Proofs.Isolation
import MarketDepth.Proofs.Configurations
import MarketDepth.Proofs.Transcripts
import MarketDepth.Proofs.Means
import MarketDepth.Proofs.BitOrder
import MarketDepth.Proofs.Reflection
import MarketDepth.Proofs.CallOrder
import MarketDepth.Proofs.Ranking

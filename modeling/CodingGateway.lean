import CodingGateway.Library.BinaryField
import CodingGateway.Library.FloatRounding
import CodingGateway.Library.GaussJordan
import CodingGateway.Model.Common
import CodingGateway.Model.Gf256
import CodingGateway.Model.Codec
import CodingGateway.Proofs.FieldTables
import CodingGateway.Proofs.Elimination
import CodingGateway.Proofs.RoundTrip
import CodingGateway.Model.Config
import CodingGateway.Model.Crypto
import CodingGateway.Model.Strategy
import CodingGateway.Model.Metrics
import CodingGateway.Model.Rx
import CodingGateway.Model.Tx
import CodingGateway.Library.Machine
import CodingGateway.Library.SerialNumber
import CodingGateway.Library.SlotTable
import CodingGateway.Library.Xorshift
import CodingGateway.Model.Main
import CodingGateway.Proofs.Window
import CodingGateway.Proofs.Advance
import CodingGateway.Proofs.GiveUp
import CodingGateway.Proofs.ReceiveLoop
import CodingGateway.Proofs.EventLoop
import CodingGateway.Proofs.InOrder
import CodingGateway.Proofs.SlotLeak
import CodingGateway.Proofs.Representation
import CodingGateway.Proofs.Resync
import CodingGateway.Proofs.Completeness
import CodingGateway.Proofs.Cipher
import CodingGateway.Proofs.DeadPath
import CodingGateway.Proofs.Flush
import CodingGateway.Proofs.Wire
import CodingGateway.Proofs.Transfer
import CodingGateway.Proofs.PacketLength
import CodingGateway.Proofs.SentBlocks
import CodingGateway.Proofs.Soundness
import CodingGateway.Proofs.FirstBlocks
import CodingGateway.Proofs.Reordering
import CodingGateway.Proofs.Sender
import CodingGateway.Proofs.Generator
import CodingGateway.Proofs.Keystream
import CodingGateway.Proofs.LinearSolve
import CodingGateway.Proofs.Lossless
import CodingGateway.Proofs.BlockAssembly
import CodingGateway.Proofs.WireFormat
import CodingGateway.Proofs.SingleLoss
import CodingGateway.Proofs.WrapAround
import CodingGateway.Proofs.BoundedAdvance
import CodingGateway.Proofs.Noninterference
import CodingGateway.Library.BoundedArray
import CodingGateway.Model.ConfigLoad
import CodingGateway.Model.CheckedRx
import CodingGateway.Proofs.IndexSafety
import CodingGateway.Library.Latch
import CodingGateway.Proofs.RoundRobin
import CodingGateway.Proofs.Redundancy
import CodingGateway.Proofs.Reenabled
import CodingGateway.Proofs.PathNames
import CodingGateway.Proofs.ProbeExchange
import CodingGateway.Proofs.Attribution
import CodingGateway.Proofs.OpenPaths
import CodingGateway.Library.CreditScheduler
import CodingGateway.Proofs.Credits
import CodingGateway.Proofs.Rounds
import CodingGateway.Library.Hysteresis
import CodingGateway.Proofs.ProbeHysteresis
import CodingGateway.Model.CryptoKey
import CodingGateway.Proofs.KeyParser
import CodingGateway.Library.Printf
import CodingGateway.Model.MetricsPage
import CodingGateway.Proofs.Histogram
import CodingGateway.Proofs.BlockCompletion
import CodingGateway.Proofs.DecodeAccounting
import CodingGateway.Proofs.MetricsPage
import CodingGateway.Library.CharArray
import CodingGateway.Model.CheckedConfig
import CodingGateway.Proofs.ConfigBounds
import CodingGateway.Library.Stripping
import CodingGateway.Proofs.PhysicalLines
import CodingGateway.Proofs.ConfigFields
import CodingGateway.Proofs.Comments
import CodingGateway.Library.CreditTurns
import CodingGateway.Proofs.FloatRedundancy
import CodingGateway.Proofs.FixedStrategy
import CodingGateway.Library.ClockDifference
import CodingGateway.Proofs.Timers
import CodingGateway.Library.Network
import CodingGateway.Model.Process
import CodingGateway.Proofs.ProcessRuns
import CodingGateway.Proofs.ReceivedBlocks
import CodingGateway.Proofs.SentDatagrams
import CodingGateway.Proofs.Tunnel
import CodingGateway.Proofs.Turns
import CodingGateway.Proofs.Repair
import CodingGateway.Proofs.ReorderBuffer
import CodingGateway.Model.CheckedTx
import CodingGateway.Proofs.SendSafety
import CodingGateway.Library.Ownership
import CodingGateway.Model.System
import CodingGateway.Model.Tun
import CodingGateway.Model.Program
import CodingGateway.Proofs.OpenHandles
import CodingGateway.Proofs.ProgramRuns
import CodingGateway.Proofs.TunDevice
import CodingGateway.Library.Exposition
import CodingGateway.Model.Scrape
import CodingGateway.Proofs.TrafficCounters
import CodingGateway.Proofs.PathGauges
import CodingGateway.Proofs.ScrapedPage
import CodingGateway.Proofs.Duplex
import CodingGateway.Library.Sections
import CodingGateway.Proofs.ConfigMeaning
import CodingGateway.Library.Batching
import CodingGateway.Proofs.Punctuality

import Hairgap.Base.BigEndian
import Hairgap.Base.Blocks
import Hairgap.Base.Delivery
import Hairgap.Base.DoWhile
import Hairgap.Base.Output
import Hairgap.Base.Queue
import Hairgap.Base.Regroup
import Hairgap.Base.Rounding
import Hairgap.Base.Transition
import Hairgap.Source.RepetitionCode
import Hairgap.Source.Sender
import Hairgap.Source.Transfer
import Hairgap.Source.Receiver
import Hairgap.Source.Channel
import Hairgap.Source.Emission
import Hairgap.Source.ReadLoop
import Hairgap.Source.Limiter
import Hairgap.Source.SendThreads
import Hairgap.Source.ReceiveThreads
import Hairgap.Guarantees.EndOfTransfer
import Hairgap.Guarantees.Malformed
import Hairgap.Guarantees.Removal
import Hairgap.Guarantees.Integrity
import Hairgap.Guarantees.EmissionOrder
import Hairgap.Guarantees.ContentIntegrity
import Hairgap.Guarantees.ChannelFifo
import Hairgap.Guarantees.ChannelWakeups
import Hairgap.Guarantees.EmittedPackets
import Hairgap.Guarantees.ReceiverRoom
import Hairgap.Guarantees.PacketCount
import Hairgap.Guarantees.ChunkReuse
import Hairgap.Guarantees.SendPipeline
import Hairgap.Guarantees.SenderProgress
import Hairgap.Guarantees.ProperTeardown
import Hairgap.Guarantees.SenderRefinement
import Hairgap.Guarantees.ReceivePipeline
import Hairgap.Guarantees.ReceiverRefinement
import Hairgap.Guarantees.ReceiverProgress
import Hairgap.Guarantees.DecodingError
import Hairgap.Guarantees.PacketCodec
import Hairgap.Guarantees.Chunking
import Hairgap.Guarantees.LoopTest
import Hairgap.Guarantees.RateLimit
import Hairgap.Guarantees.BufferChecks
import Hairgap.Guarantees.ControlNoise
import Hairgap.Guarantees.Handshake
import Hairgap.Guarantees.ExactlyOnce
import Hairgap.Guarantees.Reception
import Hairgap.Guarantees.Outcome
import Hairgap.Guarantees.RoundTrip
import Hairgap.Guarantees.Verdict
import Hairgap.Guarantees.Originals
import Hairgap.Guarantees.Decoding
import Hairgap.Guarantees.ReceiverVerdict
import Hairgap.Guarantees.EndToEnd
import Hairgap.Guarantees.LossTolerance
import Hairgap.Guarantees.SenderVerdict
import Hairgap.Guarantees.SenderMemory
import Hairgap.Guarantees.KeepaliveStop
import Hairgap.Guarantees.ReceiverMemory
import Hairgap.Guarantees.TransferIntegrity

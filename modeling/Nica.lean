import Nica.Verilog.Equiv.DdrAddressMapping
import Nica.Verilog.Equiv.Sha256Top
import Nica.Lib.CarrySave
import Nica.Lib.Sha2
import Nica.Verilog.Sha256Core
import Nica.Verilog.Equiv.Sha256Core
import Nica.Hls.Equiv.ArbiterOrder
import Nica.Hls.Equiv.ArbiterGrant
import Nica.Hls.Equiv.UdpPayload
import Nica.Hls.Equiv.CoapPairing
import Nica.Hls.Equiv.CoapScheduling
import Nica.Hls.Equiv.CoapSignature
import Nica.Hls.Equiv.CoapDecisions
import Nica.Hls.Equiv.EmptyPackets
import Nica.Hls.Equiv.ThresholdPipeline
import Nica.Hls.Equiv.ThresholdStats
import Nica.Hls.Equiv.Cms
import Nica.Hls.Equiv.CustomRxRing
import Nica.Hls.Equiv.EchoReplies
import Nica.Hls.Equiv.Heap
import Nica.Hls.Equiv.RingOwnership
import Nica.Hls.Equiv.Demux
import Nica.Hls.Equiv.PassthroughWrapper
import Nica.Hls.Equiv.PaddingFrames
import Nica.Hls.Equiv.Pktgen
import Nica.Hls.Equiv.MemcachedCache
import Nica.Hls.Equiv.MemcachedConservation
import Nica.Hls.Equiv.MemcachedEgress
import Nica.Hls.Equiv.MemcachedLines
import Nica.Hls.Equiv.MemcachedCoherence
import Nica.Libnica.Equiv.CreditSafety
import Nica.Libnica.Equiv.CreditEncoding
import Nica.Libnica.Equiv.Wire
import Nica.Manager.Equiv.DramRun
import Nica.Manager.Equiv.Identifiers
import Nica.Manager.Equiv.IdPoolRange
import Nica.Manager.Equiv.Atomicity
import Nica.Manager.Equiv.FlowTables
import Nica.Manager.Equiv.Footprints
import Nica.Manager.Equiv.Isolation
import Nica.Manager.Equiv.IsolationRun
import Nica.Manager.Equiv.Paravirt
import Nica.Device.Equiv.Containment
import Nica.Device.Equiv.Steering
import Nica.Hls.Equiv.Packing
import Nica.Hls.Equiv.HeaderReply
import Nica.Hls.Equiv.PktgenRegisters
import Nica.Software.Equiv.Statistics
import Nica.Software.Equiv.CmsServer
import Nica.Hls.Equiv.ChecksumRun
import Nica.Hls.Equiv.IkernelWrapper
import Nica.Hls.Equiv.SteeringPartition
import Nica.Verilog.CmsHeap
import Nica.Verilog.Equiv.CmsHeap
import Nica.Verilog.Equiv.CmsHeapRun
import Nica.Verilog.Equiv.CmsHeapTopK
import Nica.Device.Equiv.HeavyHitters
import Nica.Hls.CmsReading
import Nica.Hls.Equiv.CmsReading
import Nica.Hls.NicaStep
import Nica.Hls.Equiv.SteeringWhole
import Nica.Hls.Equiv.NicaStep
import Nica.Hls.Equiv.NicaFrames
import Nica.Hls.Equiv.NicaForward
import Nica.Hls.HostPath
import Nica.Hls.Equiv.HostPath

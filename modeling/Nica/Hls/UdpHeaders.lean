import Nica.Hls.Types

/-!
# Packet headers and flow table results

The header formats of `nica/hls/udp.h`, the beats of the network port with their per-packet metadata
(`nica/hls/mlx.h`), and the results of the flow table (`nica/hls/flow_table_impl.hpp`).
-/

namespace Nica.Hls

/-- `mlx::axi4s`: a beat of the network port. -/
structure Axi4s where
  data : BitVec 256
  keep : BitVec 32
  last : Bool
  user : BitVec 12
  id : BitVec 3
deriving DecidableEq, Repr

/-- `mlx::metadata`: the fields of a network packet that do not go to the ikernels. -/
structure MlxMetadata where
  user : BitVec 12
  id : BitVec 3
deriving DecidableEq, Repr

/-- `mlx::split_metadata`. -/
def splitMetadata (flit : Axi4s) : MlxMetadata × AxiData :=
  (⟨flit.user, flit.id⟩, ⟨flit.data, flit.keep, flit.last⟩)

/-- `mlx::join_metadata`. -/
def joinMetadata (m : MlxMetadata) (d : AxiData) : Axi4s := ⟨d.data, d.keep, d.last, m.user, m.id⟩

/-- `mlx::last_word_keep_num_bytes_valid`: the keep bits of `numValid` leading bytes; 0 means that
all are valid.  `(1 << numValid) - 1` has its bits reversed. -/
def lastWordKeepNumBytesValid (numValid : BitVec 5) : BitVec 32 :=
  if numValid ≠ 0 then ((1#32 <<< numValid.toNat) - 1).reverse else 0xffffffff

/-- `udp::eth_header`. -/
structure EthHeader where
  dest : BitVec 48
  source : BitVec 48
  proto : BitVec 16
deriving DecidableEq, Repr

def EthHeader.ofBits (d : BitVec 112) : EthHeader where
  dest := d.extractLsb' 64 48
  source := d.extractLsb' 16 48
  proto := d.extractLsb' 0 16

def EthHeader.toBits (h : EthHeader) : BitVec 112 := h.dest ++ h.source ++ h.proto

/-- `udp::ip_header`. -/
structure IpHeader where
  version : BitVec 4
  ihl : BitVec 4
  tos : BitVec 8
  totLen : BitVec 16
  id : BitVec 16
  fragOff : BitVec 16
  ttl : BitVec 8
  protocol : BitVec 8
  check : BitVec 16
  saddr : BitVec 32
  daddr : BitVec 32
deriving DecidableEq, Repr

def IpHeader.ofBits (d : BitVec 160) : IpHeader where
  version := d.extractLsb' 156 4
  ihl := d.extractLsb' 152 4
  tos := d.extractLsb' 144 8
  totLen := d.extractLsb' 128 16
  id := d.extractLsb' 112 16
  fragOff := d.extractLsb' 96 16
  ttl := d.extractLsb' 88 8
  protocol := d.extractLsb' 80 8
  check := d.extractLsb' 64 16
  saddr := d.extractLsb' 32 32
  daddr := d.extractLsb' 0 32

def IpHeader.toBits (h : IpHeader) : BitVec 160 :=
  h.version ++ h.ihl ++ h.tos ++ h.totLen ++ h.id ++ h.fragOff ++ h.ttl ++ h.protocol ++ h.check ++ h.saddr ++
    h.daddr

/-- `udp::udp_header`. -/
structure UdpHeader where
  source : BitVec 16
  dest : BitVec 16
  length : BitVec 16
  checksum : BitVec 16
deriving DecidableEq, Repr

def UdpHeader.ofBits (d : BitVec 64) : UdpHeader where
  source := d.extractLsb' 48 16
  dest := d.extractLsb' 32 16
  length := d.extractLsb' 16 16
  checksum := d.extractLsb' 0 16

def UdpHeader.toBits (h : UdpHeader) : BitVec 64 := h.source ++ h.dest ++ h.length ++ h.checksum

/-- `udp_header::empty_packet`. -/
def UdpHeader.emptyPacket (h : UdpHeader) : Bool :=
  h.length ≤ 8

/-- `udp::header_parser`. -/
structure HeaderParser where
  eth : EthHeader
  ip : IpHeader
  udp : UdpHeader
deriving DecidableEq, Repr

def HeaderParser.ofBits (d : BitVec 336) : HeaderParser where
  eth := .ofBits (d.extractLsb' 224 112)
  ip := .ofBits (d.extractLsb' 64 160)
  udp := .ofBits (d.extractLsb' 0 64)

def HeaderParser.toBits (h : HeaderParser) : BitVec 336 := h.eth.toBits ++ h.ip.toBits ++ h.udp.toBits

/-- `header_parser::reply`. -/
def HeaderParser.reply (h : HeaderParser) : HeaderParser where
  eth := { h.eth with source := h.eth.dest, dest := h.eth.dest }
  ip := { h.ip with saddr := h.ip.daddr, daddr := h.ip.saddr }
  udp := { h.udp with source := h.udp.dest, dest := h.udp.source }

/-- `udp::header_buffer`: the first 42 bytes of a packet and its metadata. -/
structure HeaderBuffer where
  hdr : BitVec 336
  pktId : BitVec 3
  user : BitVec 12
  generated : Bool
deriving DecidableEq, Repr

/-- The parsed headers of a buffer. -/
def HeaderBuffer.parse (buf : HeaderBuffer) : HeaderParser :=
  .ofBits buf.hdr

/-- `ETH_P_IP` and `IPPROTO_UDP`. -/
def ethPIp : BitVec 16 := 0x0800
def ipprotoUdp : BitVec 8 := 17

/-- `flow_table_action`. -/
inductive FlowTableAction
  | passthrough
  | drop
  | ikernel
deriving DecidableEq, Repr

/-- `flow_table_value`; `LOG_NUM_ENGINES` is 1. -/
structure FlowTableValue where
  action : FlowTableAction
  engineId : BitVec 1
  ikernelId : BitVec 6
deriving DecidableEq, Repr

/-- `flow_table_result`. -/
structure FlowTableResult where
  v : FlowTableValue
  flowId : BitVec 11
deriving DecidableEq, Repr

end Nica.Hls

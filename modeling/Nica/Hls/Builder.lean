import Nica.Hls.Merger
import Nica.Hls.UdpHeaders

/-!
# Building the packets to transmit (`nica/hls/udp.cpp`, `nica/hls/mlx.cpp`, `nica/hls/link_with_reg.hpp`)

`hdrToMlx` makes the headers of a UDP packet from its metadata, in two beats, and says whether the merger
(`ntl::push_header`) has to put them in front of the data.  `joinPacketMetadata` adds the fields of the network
port to the beats, `link` is a register, and `pad` fills short Ethernet frames.

`axi_data::keep_bytes` and `ntl::push_header` come from the `ntl` submodule and are parameters.  A blocking write
to a full stream is a call that does nothing yet.
-/

namespace Nica.Hls.Builder

open Nica.Lib

/-! ### `header_to_mlx` -/

/-- `PKT_TYPE_UDP`. -/
def pktTypeUdp : BitVec 1 := 0

/-- `PKT_TYPE_RAW`. -/
def pktTypeRaw : BitVec 1 := 1

/-- `header_to_mlx::metadata_to_header`; the fields that are not set are those of an empty `header_parser`. -/
def metadataToHeader (m : Metadata) : HeaderParser :=
  let pkt := getPacketMetadata m
  { eth :=
      { dest := pkt.ethDst
        source := pkt.ethSrc
        proto := ethPIp }
    ip :=
      { version := 4
        ihl := BitVec.ofNat 4 (160 / 8 / 4)
        tos := 0
        totLen := (64 + 160) / 8 + m.length
        id := m.ipIdentification
        fragOff := 0
        ttl := 64
        protocol := ipprotoUdp
        check := 0
        saddr := pkt.ipSrc
        daddr := pkt.ipDst }
    udp :=
      { source := pkt.udpSrc
        dest := pkt.udpDst
        length := 64 / 8 + m.length
        checksum := 0 } }

inductive HdrState
  | idle
  | second
deriving DecidableEq, Repr

inductive JoinState
  | idle
  | stream
deriving DecidableEq, Repr

/-- The units of `udp_builder` and `ethernet_padding` with their streams.  The streams at the merger are part of
its state: `merge.extra` is `data_hdr_to_reorder`, `merge.data` is `data_in` and `merge.out` is
`data_reorder_to_join`.  `out` is all that was written to the network port. -/
structure State (M : Merger AxiData) where
  headerIn : Fifo Metadata
  hdrState : HdrState
  buffer : BitVec 80
  mlxMetadata : Fifo MlxMetadata
  merge : Merger.State M
  joinState : JoinState
  m : MlxMetadata
  rawReorderToReg : Fifo Axi4s
  reg : Option Axi4s
  rawBuilderToPad : Fifo Axi4s
  beatCount : BitVec 6
  out : List Axi4s

/-- The builder after reset. -/
def State.init (M : Merger AxiData) : State M where
  headerIn := .nil
  hdrState := .idle
  buffer := 0
  mlxMetadata := .nil
  merge := Merger.State.init M
  joinState := .idle
  m := ⟨0, 0⟩
  rawReorderToReg := .nil
  reg := none
  rawBuilderToPad := .nil
  beatCount := 0
  out := []

variable {M : Merger AxiData}

/-- The first beat of the headers of a UDP packet. -/
def firstBeat (hdr : BitVec 336) : AxiData := ⟨hdr.extractLsb' 80 256, 0xffffffff, false⟩

/-- The second beat, from the rest of the headers. -/
def secondBeat (keepBytes : ℕ → BitVec 32) (buffer : BitVec 80) : AxiData :=
  ⟨buffer ++ 0#176, keepBytes (80 / 8), true⟩

/-- `header_to_mlx::hdr_to_mlx`. -/
def hdrToMlx (keepBytes : ℕ → BitVec 32) (anyFull : Bool) (s : State M) : State M :=
  match s.hdrState with
  | .idle =>
    match s.headerIn.head with
    | none => s
    | some m =>
      if anyFull then s
      else
        let hdr := metadataToHeader m
        let isUdp : Bool := m.pktType = pktTypeUdp
        { s with
          headerIn := s.headerIn.readIf true
          mlxMetadata := s.mlxMetadata.write ⟨0, 0⟩
          buffer := hdr.toBits.extractLsb' 0 80
          merge := { s.merge with
            extra := s.merge.extra.put (if isUdp then some (firstBeat hdr.toBits) else none)
            empty := s.merge.empty.write (isUdp && hdr.udp.emptyPacket)
            enable := s.merge.enable.write isUdp }
          hdrState := if isUdp then .second else .idle }
  | .second =>
    if anyFull then s
    else
      { s with
        merge := { s.merge with extra := s.merge.extra.write (secondBeat keepBytes s.buffer) }
        hdrState := .idle }

/-! ### `join_packet_metadata` and `link_with_reg` -/

/-- `join_packet_metadata::operator()`. -/
def joinPacketMetadata (outFull : Bool) (s : State M) : State M :=
  match s.joinState with
  | .idle =>
    match s.mlxMetadata.head with
    | none => s
    | some m => { s with mlxMetadata := s.mlxMetadata.readIf true, m, joinState := .stream }
  | .stream =>
    match s.merge.out.head with
    | none => s
    | some d =>
      if outFull then s
      else
        { s with
          merge := { s.merge with out := s.merge.out.readIf true }
          rawReorderToReg := s.rawReorderToReg.write (joinMetadata s.m d)
          joinState := if d.last then .idle else .stream }

/-- `link_with_reg::link`, without a check of the output: the write waits for it. -/
def link (outFull : Bool) (s : State M) : State M :=
  if s.reg.isSome && outFull then s
  else
    { s with
      rawBuilderToPad := s.rawBuilderToPad.put s.reg
      reg := s.rawReorderToReg.head
      rawReorderToReg := s.rawReorderToReg.readIf s.rawReorderToReg.head.isSome }

/-! ### `ethernet_padding` -/

/-- `ethernet_padding::pad_one`: the bytes that are not kept become zero. -/
def padOne (data : BitVec 256) (keep : BitVec 32) : BitVec 256 :=
  (List.range 32).foldl
    (fun data i => if keep.getLsbD i then data else data &&& ~~~(0xff#256 <<< (8 * i))) data

/-- What `pad` does to a beat. -/
def padBeat (beatCount : BitVec 6) (beat : Axi4s) : Axi4s :=
  if beat.last && beatCount == 1 then
    { beat with data := padOne beat.data beat.keep, keep := beat.keep ||| 0xfffffff0 }
  else beat

/-- The count behind a beat. -/
def nextCount (beatCount : BitVec 6) (beat : Axi4s) : BitVec 6 :=
  if beat.last then 0 else beatCount + 1

/-- `ethernet_padding::pad`. -/
def pad (outFull : Bool) (s : State M) : State M :=
  match s.rawBuilderToPad.head with
  | none => s
  | some beat =>
    if outFull then s
    else
      { s with
        rawBuilderToPad := s.rawBuilderToPad.readIf true
        out := s.out ++ [padBeat s.beatCount beat]
        beatCount := nextCount s.beatCount beat }

/-! ### The system -/

/-- A call of a unit, with whether it finds a stream that it writes full. -/
inductive Call
  | hdrToMlx (anyFull : Bool)
  | reorder (outFull : Bool)
  | joinPacketMetadata (outFull : Bool)
  | link (outFull : Bool)
  | pad (outFull : Bool)
deriving DecidableEq, Repr

def call (keepBytes : ℕ → BitVec 32) (s : State M) : Call → State M
  | .hdrToMlx full => hdrToMlx keepBytes full s
  | .reorder full => { s with merge := Merger.step s.merge (.reorder full) }
  | .joinPacketMetadata full => joinPacketMetadata full s
  | .link full => link full s
  | .pad full => pad full s

/-- One step: a call, or an arrival. -/
inductive Act
  | call (c : Call)
  | arriveMeta (m : Metadata)
  | arriveData (b : AxiData)
deriving DecidableEq, Repr

def step (keepBytes : ℕ → BitVec 32) (s : State M) : Act → State M
  | .call c => call keepBytes s c
  | .arriveMeta m => { s with headerIn := s.headerIn.write m }
  | .arriveData b => { s with merge := Merger.step s.merge (.data b) }

end Nica.Hls.Builder

import Nica.Hls.Merger
import Nica.Hls.Threshold

/-!
# The custom ring unit (`nica/hls/custom_rx_ring.cpp`)

A packet with a ring id becomes a RoCE packet.  `ringHdrs` looks up the context of the ring, makes the base
transport header (`genBth`) and the metadata of the packet, and says to two mergers whether there is something to
add: `push_bth` puts the header in front of the data and `push_icrc` four bytes behind it.  The enable and the empty
flags reach both through `dup`.

The mergers and `axi_data::keep_bytes` come from the `ntl` submodule and are parameters, and so is what is left of
`ntl::context_manager` at one call: the command of the gateway that `update` carries out, if there is one.
-/

namespace Nica.Hls.CustomRxRing

open Nica.Lib

/-! ### `gen_bth` -/

/-- `IB_OPCODE_UC_SEND_ONLY`. -/
def ibOpcodeUcSendOnly : BitVec 8 := 0x24

/-- `IB_BTH_BYTES`. -/
def ibBthBytes : ℕ := 12

/-- The header of a packet of length `len`, from the context of its ring. -/
def bthData (context : RingContext) (padCount : BitVec 2) : BitVec 256 :=
  let flags := padCount.setWidth 8 <<< 4
  ibOpcodeUcSendOnly ++ flags ++ 0xffff#16 ++ 0#8 ++ context.destQpn ++ context.psn.setWidth 32 ++ 0#160

/-- `(-len) & 3`. -/
def padCount (len : BitVec 16) : BitVec 2 := (-len).setWidth 2

/-- `custom_rx_ring::gen_bth`: the beat of the header, and the length that it leaves in `len`. -/
def genBth (keepBytes : ℕ → BitVec 32) (context : RingContext) (len : BitVec 16) : AxiData × BitVec 16 :=
  (⟨bthData context (padCount len), keepBytes ibBthBytes, true⟩, len + (padCount len).setWidth 16)

/-! ### The units -/

/-- A command of the gateway for the table of contexts. -/
inductive GatewayCommand
  | query
  | set (slot : ℤ) (context : RingContext)
deriving DecidableEq, Repr

/-- The context of a ring as it was written last, and the number of packets on the ring since. -/
structure Served where
  context : RingContext
  earlier : ℕ
deriving DecidableEq, Repr

/-- The units with the streams between them.  `written`, `since` and `served` are ghost state: the contexts as they
were written last, how many packets each ring has had since, and both of them for every packet that was taken. -/
structure State (B : Merger AxiData) (C : Merger (BitVec 32)) where
  hdrIn : Fifo Metadata
  metadataUpdates : Fifo PacketMetadata
  metadata : PacketMetadata
  contexts : ℤ → RingContext
  emptyPacket : Fifo Bool
  enableStream : Fifo Bool
  emptyPacketBth : Fifo Bool
  enableBth : Fifo Bool
  emptyPacketIcrc : Fifo Bool
  enableIcrc : Fifo Bool
  bth : Fifo AxiData
  icrc : Fifo (BitVec 32)
  dataIn : Fifo AxiData
  pushBth : B.Reg
  dataBthToIcrc : Fifo AxiData
  pushIcrc : C.Reg
  hdrOut : Fifo Metadata
  dataOut : Fifo AxiData
  written : ℤ → RingContext
  since : ℤ → ℕ
  served : List Served

/-- The unit after reset, with the contexts in its table. -/
def State.init (B : Merger AxiData) (C : Merger (BitVec 32)) (contexts : ℤ → RingContext) : State B C where
  hdrIn := .nil
  metadataUpdates := .nil
  metadata := ⟨0, 1, 0, 0x0a000001, 4791, 4791⟩
  contexts := contexts
  emptyPacket := .nil
  enableStream := .nil
  emptyPacketBth := .nil
  enableBth := .nil
  emptyPacketIcrc := .nil
  enableIcrc := .nil
  bth := .nil
  icrc := .nil
  dataIn := .nil
  pushBth := B.start
  dataBthToIcrc := .nil
  pushIcrc := C.start
  hdrOut := .nil
  dataOut := .nil
  written := contexts
  since := fun _ => 0
  served := []

variable {B : Merger AxiData} {C : Merger (BitVec 32)}

/-- `push_bth` with its streams. -/
def State.bthMerger (s : State B C) : Merger.State B :=
  ⟨s.pushBth, s.bth, s.emptyPacketBth, s.enableBth, s.dataIn, s.dataBthToIcrc⟩

/-- `push_icrc` with its streams. -/
def State.icrcMerger (s : State B C) : Merger.State C :=
  ⟨s.pushIcrc, s.icrc, s.emptyPacketIcrc, s.enableIcrc, s.dataBthToIcrc, s.dataOut⟩

/-- `contexts.update()`. -/
def carryOut (s : State B C) : GatewayCommand → State B C
  | .query => s
  | .set slot context =>
    { s with
      contexts := Function.update s.contexts slot context
      written := Function.update s.written slot context
      since := Function.update s.since slot 0 }

/-- The metadata of a packet on a custom ring: the addresses of its context, and the length with the header and the
trailer. -/
def ringMetadata (source : PacketMetadata) (context : RingContext) (len : BitVec 16) (m : Metadata) : Metadata :=
  { m with
    var := .inl { source with ethDst := context.ethDst, ipDst := context.ipDst }
    length := len + BitVec.ofNat 16 (ibBthBytes + 4)
    ringId := 0 }

/-- What `ringHdrs` does with a packet. -/
def takeHdr (keepBytes : ℕ → BitVec 32) (m : Metadata) (s : State B C) : State B C :=
  let custom : Bool := m.ringId ≠ 0
  let (context, contexts) := nextPacket s.contexts m.ringId
  let (bthFlit, len) := genBth keepBytes context m.length
  let slot := ringIndex m.ringId
  { s with
    hdrIn := s.hdrIn.readIf true
    emptyPacket := s.emptyPacket.write m.emptyPacket
    enableStream := s.enableStream.write custom
    contexts := if custom then contexts else s.contexts
    bth := s.bth.put (if custom then some bthFlit else none)
    icrc := s.icrc.put (if custom then some 0 else none)
    hdrOut := s.hdrOut.write (if custom then ringMetadata s.metadata context len m else m)
    since := if custom then Function.update s.since slot (s.since slot + 1) else s.since
    served := s.served ++ [⟨s.written slot, s.since slot⟩] }

/-- `metadata = metadata_updates.read()`, if there is an update. -/
def readUpdate (s : State B C) : State B C :=
  { s with
    metadata := s.metadataUpdates.head.getD s.metadata
    metadataUpdates := s.metadataUpdates.readIf s.metadataUpdates.head.isSome }

/-- `custom_rx_ring::ring_hdrs`. -/
def ringHdrs (keepBytes : ℕ → BitVec 32) (command : Option GatewayCommand) (anyFull : Bool) (s : State B C) :
    State B C :=
  let s := readUpdate s
  match command with
  | some c => carryOut s c
  | none =>
    match s.hdrIn.head with
    | none => s
    | some m => if anyFull then s else takeHdr keepBytes m s

/-- `dup(enable_stream, enable_bth, enable_icrc)`. -/
def dupEnable (anyFull : Bool) (s : State B C) : State B C :=
  let word := dup anyFull s.enableStream.head
  { s with
    enableStream := s.enableStream.readIf word.isSome
    enableBth := s.enableBth.put word
    enableIcrc := s.enableIcrc.put word }

/-- `dup(empty_packet, empty_packet_bth, empty_packet_icrc)`. -/
def dupEmpty (anyFull : Bool) (s : State B C) : State B C :=
  let word := dup anyFull s.emptyPacket.head
  { s with
    emptyPacket := s.emptyPacket.readIf word.isSome
    emptyPacketBth := s.emptyPacketBth.put word
    emptyPacketIcrc := s.emptyPacketIcrc.put word }

/-- `push_bth.reorder`. -/
def reorderBth (outFull : Bool) (s : State B C) : State B C :=
  let t := Merger.step s.bthMerger (.reorder outFull)
  { s with
    pushBth := t.reg
    bth := t.extra
    emptyPacketBth := t.empty
    enableBth := t.enable
    dataIn := t.data
    dataBthToIcrc := t.out }

/-- `push_icrc.reorder`. -/
def reorderIcrc (outFull : Bool) (s : State B C) : State B C :=
  let t := Merger.step s.icrcMerger (.reorder outFull)
  { s with
    pushIcrc := t.reg
    icrc := t.extra
    emptyPacketIcrc := t.empty
    enableIcrc := t.enable
    dataBthToIcrc := t.data
    dataOut := t.out }

/-! ### The system -/

/-- A call of a unit, with whether it finds a stream that it writes full. -/
inductive Call
  | ringHdrs (command : Option GatewayCommand) (anyFull : Bool)
  | dupEnable (anyFull : Bool)
  | dupEmpty (anyFull : Bool)
  | reorderBth (outFull : Bool)
  | reorderIcrc (outFull : Bool)
deriving DecidableEq, Repr

def call (keepBytes : ℕ → BitVec 32) (s : State B C) : Call → State B C
  | .ringHdrs command full => ringHdrs keepBytes command full s
  | .dupEnable full => dupEnable full s
  | .dupEmpty full => dupEmpty full s
  | .reorderBth full => reorderBth full s
  | .reorderIcrc full => reorderIcrc full s

/-- One step: a call, an arrival, or a source address written by the gateway. -/
inductive Act
  | call (c : Call)
  | arriveHdr (m : Metadata)
  | arriveData (b : AxiData)
  | updateMetadata (p : PacketMetadata)
deriving DecidableEq, Repr

def step (keepBytes : ℕ → BitVec 32) (s : State B C) : Act → State B C
  | .call c => call keepBytes s c
  | .arriveHdr m => { s with hdrIn := s.hdrIn.write m }
  | .arriveData b => { s with dataIn := s.dataIn.write b }
  | .updateMetadata p => { s with metadataUpdates := s.metadataUpdates.write p }

end Nica.Hls.CustomRxRing

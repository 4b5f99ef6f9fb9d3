import Nica.Lib.Fifo
import Nica.Lib.Run
import Nica.Hls.UdpHeaders
import Mathlib.Logic.Function.Basic

/-!
# The receive path (`nica/hls/udp.cpp`, `nica/hls/mlx.cpp`, `nica/hls/nica.cpp`)

`mlxMetadata` takes the metadata off the network beats and `split` separates the 42 bytes of headers
from the data.  The steering units `hdrChecks`, `checksToAction` and `updateStatsActions` turn the
headers and the flow table's results into one decision per packet, which `udpDropper` applies.
`findLength` and `cutData` cut the Ethernet padding off, `crossbar` distributes the packets to the
engines, and `splitUdpHdrStream` makes the ikernel's metadata.

Every unit is a function of its registers, of the heads of the streams it reads and of which streams
it finds full; it returns the new registers and what it reads and writes in that call, which is at
most one element of each stream.  `step` connects the units by streams.  The statistics counters and
the debug fields are left out.

The enumeration of the beats of a packet (`ntl::enum_first`) and `axi_data::keep_bytes` come from the
`ntl` submodule: the enumerated beats are the input of the model and `keepBytes` is a parameter.
-/

namespace Nica.Hls.Udp

open Nica.Lib

/-! ### `mlx::extract_metadata` -/

/-- What one call of `mlx_metadata` does. -/
structure MlxMetadataIo where
  read : Bool
  metadata : Option MlxMetadata
  data : Option AxiData
deriving DecidableEq, Repr

/-- `extract_metadata::mlx_metadata`: the metadata of a packet is taken from its first beat. -/
def mlxMetadata (outMetadataFull outDataFull : Bool) (peek : Option (Nat × Axi4s)) :
    MlxMetadataIo :=
  match peek with
  | none => ⟨false, none, none⟩
  | some (count, flit) =>
    if outDataFull then ⟨false, none, none⟩
    else if count = 0 then
      if outMetadataFull then ⟨false, none, none⟩
      else ⟨true, some (splitMetadata flit).1, some (splitMetadata flit).2⟩
    else ⟨true, none, some (splitMetadata flit).2⟩

/-! ### `header_data_split` -/

inductive SplitState
  | idle
  | readingHeader
  | stream
  | last
deriving DecidableEq, Repr

/-- The registers of `header_data_split`. -/
structure Split where
  state : SplitState
  meta_ : MlxMetadata
  buffer : BitVec 256
deriving DecidableEq, Repr

/-- What one call of `split` does. -/
structure SplitIo where
  readMetadata : Bool
  readData : Bool
  header : Option HeaderBuffer
  data : Option AxiData
deriving DecidableEq, Repr

/-- `HEADER_BUFFER` of `split`: the headers are the first beat and the first 10 bytes of the second;
`data_start` is bit 176 of the second beat. -/
def splitHeader (m : MlxMetadata) (buffer cur : BitVec 256) : HeaderBuffer :=
  ⟨buffer ++ cur.extractLsb' 176 80, m.id, m.user, false⟩

/-- A data beat: the last 22 bytes of one input beat and the first 10 bytes of the next. -/
def splitBeat (buffer cur : BitVec 256) : AxiData :=
  ⟨buffer.extractLsb' 0 176 ++ cur.extractLsb' 176 80, 0xffffffff, false⟩

/-- The final data beat: the last 22 bytes of the last input beat. -/
def splitFinal (keepBytes : Nat → BitVec 32) (buffer : BitVec 256) : AxiData :=
  ⟨buffer.extractLsb' 0 176 ++ 0#80, keepBytes (32 - 176 / 8), true⟩

/-- The label `idle` of `split`: start on a packet. -/
def splitIdle (u : Split) : Option MlxMetadata → Option AxiData → Split × Bool
  | some m, some cur => ({ u with buffer := cur.data, meta_ := m, state := .readingHeader }, true)
  | _, _ => (u, false)

/-- `header_data_split::split`. -/
def split (keepBytes : Nat → BitVec 32) (headerFull dataFull : Bool) (u : Split)
    (m : Option MlxMetadata) (cur : Option AxiData) : Split × SplitIo :=
  match u.state, cur with
  | .idle, cur =>
    let (u', read) := splitIdle u m cur
    (u', ⟨read, read, none, none⟩)
  | .readingHeader, some cur =>
    if headerFull then (u, ⟨false, false, none, none⟩)
    else
      ({ u with buffer := cur.data, state := if cur.last then .last else .stream },
        ⟨false, true, some (splitHeader u.meta_ u.buffer cur.data), none⟩)
  | .stream, some cur =>
    if dataFull then (u, ⟨false, false, none, none⟩)
    else
      ({ u with buffer := cur.data, state := if cur.last then .last else .stream },
        ⟨false, true, none, some (splitBeat u.buffer cur.data)⟩)
  | .last, cur =>
    if dataFull then (u, ⟨false, false, none, none⟩)
    else
      -- `goto idle`: the next packet may start in the same call
      let (u', read) := splitIdle { u with state := .idle } m cur
      (u', ⟨read, read, none, some (splitFinal keepBytes u.buffer)⟩)
  | _, none => (u, ⟨false, false, none, none⟩)

/-! ### `steering` -/

/-- `steering::checks`, before the flow table's result is filled in. -/
structure Checks where
  disabled : Bool
  notIpv4 : Bool
  badLength : Bool
  notUdp : Bool
deriving DecidableEq, Repr

/-- The checks of one header; `sizeof(iphdr) + sizeof(udphdr)` is 28. -/
def checkHeader (enable : Bool) (buf : HeaderBuffer) : Checks where
  disabled := !enable
  notIpv4 := buf.parse.eth.proto ≠ ethPIp
  badLength := buf.parse.ip.totLen < 28
  notUdp := buf.parse.ip.protocol ≠ ipprotoUdp

/-- `steering::hdr_checks`. -/
def hdrChecks (enable checksToActionsFull : Bool) (buf : Option HeaderBuffer) : Option Checks :=
  if checksToActionsFull then none else buf.map (checkHeader enable)

/-- The result a packet with the checks `c` is handled by. -/
def applyChecks (c : Checks) (r : FlowTableResult) : FlowTableResult :=
  if c.disabled || c.notIpv4 || c.badLength || c.notUdp then
    { r with v := { r.v with action := .passthrough } }
  else r

/-- What one call of `checks_to_action` does. -/
structure ChecksToActionIo where
  read : Bool
  ftResult : Option FlowTableResult
  resultOut : Option FlowTableResult
deriving DecidableEq, Repr

/-- `steering::checks_to_action`. -/
def checksToAction (ftResultsFull resultOutFull : Bool) :
    Option Checks → Option FlowTableResult → ChecksToActionIo
  | some c, some r =>
    if ftResultsFull || resultOutFull then ⟨false, none, none⟩
    else
      let r' := applyChecks c r
      ⟨true, some r', if r'.v.action = .ikernel then some r' else none⟩
  | _, _ => ⟨false, none, none⟩

/-- `steering::update_stats_actions`: whether the packet goes to an ikernel and whether it passes
through raw. -/
def updateStatsActions (matchedFull passRawFull : Bool) (ft : Option FlowTableResult) :
    Option (Bool × Bool) :=
  if matchedFull || passRawFull then none
  else ft.map fun r => (r.v.action = .ikernel, r.v.action = .passthrough)

/-! ### `udp_dropper` -/

inductive DropperState
  | idle
  | stream
deriving DecidableEq, Repr

/-- The registers of `udp_dropper`. -/
structure Dropper where
  state : DropperState
  drop : Bool
  dataBuf : Option AxiData
deriving DecidableEq, Repr

/-- What one call of `udp_dropper_step` does. -/
structure DropperIo where
  readHeader : Bool
  readData : Bool
  header : Option HeaderBuffer
  data : Option AxiData
deriving DecidableEq, Repr

/-- Refill an empty data register from a stream. -/
def refill (dataBuf dataIn : Option AxiData) : Option AxiData × Bool :=
  match dataBuf, dataIn with
  | none, some word => (some word, true)
  | dataBuf, _ => (dataBuf, false)

/-- `udp_dropper::udp_dropper_step`. -/
def udpDropperStep (emptyPacketsHaveData headerOutFull dataOutFull : Bool) (u : Dropper)
    (pass : Option Bool) (headerIn : Option HeaderBuffer) (dataIn : Option AxiData) :
    Dropper × DropperIo :=
  match u.state with
  | .idle =>
    match pass, headerIn with
    | some pass, some buf =>
      if headerOutFull then (u, ⟨false, false, none, none⟩)
      else
        let header := if pass then some buf else none
        if !buf.parse.udp.emptyPacket then
          ({ u with state := .stream, drop := !pass }, ⟨true, false, header, none⟩)
        else if emptyPacketsHaveData then
          ({ u with state := .stream, drop := true }, ⟨true, false, header, none⟩)
        else ({ u with drop := !pass }, ⟨true, false, header, none⟩)
    | _, _ => (u, ⟨false, false, none, none⟩)
  | .stream =>
    match u.dataBuf, dataOutFull with
    | some word, false =>
      let (dataBuf, read) := refill none dataIn
      ({ u with state := if word.last then .idle else .stream, dataBuf },
        ⟨false, read, none, if u.drop then none else some word⟩)
    | _, _ =>
      let (dataBuf, read) := refill u.dataBuf dataIn
      ({ u with dataBuf }, ⟨false, read, none, none⟩)

/-! ### `length_adjust` -/

/-- `length_adjust::packet_metadata`. -/
structure PacketLength where
  wordCount : BitVec 11
  totLen : BitVec 16
  lastWordData : BitVec 5
  pktId : BitVec 3
deriving DecidableEq, Repr

/-- The lengths `find_length` takes from a header. -/
def packetLength (buf : HeaderBuffer) : PacketLength :=
  let totLen := buf.parse.ip.totLen
  let dataLength := totLen - 28
  let lastWordData := dataLength.extractLsb' 0 5
  { wordCount := dataLength.extractLsb' 5 11 + (if lastWordData ≠ 0 then 1 else 0)
    totLen, lastWordData
    pktId := buf.pktId }

/-- `length_adjust::find_length`. -/
def findLength (packetsFull : Bool) (buf : Option HeaderBuffer) : Option PacketLength :=
  if packetsFull then none else buf.map packetLength

inductive CutState
  | idle
  | count
  | consume
deriving DecidableEq, Repr

/-- The registers of `length_adjust`. -/
structure Cut where
  state : CutState
  pkt : PacketLength
  dataBuf : Option AxiData
deriving DecidableEq, Repr

/-- What one call of `cut_data` does. -/
structure CutIo where
  readPacket : Bool
  readData : Bool
  data : Option AxiData
deriving DecidableEq, Repr

/-- `length_adjust::cut_data`. -/
def cutData (dataOutFull : Bool) (u : Cut) (packet : Option PacketLength)
    (dataIn : Option AxiData) : Cut × CutIo :=
  match u.state with
  | .idle =>
    match packet with
    | some pkt =>
      ({ u with pkt, state := if pkt.wordCount ≠ 0 then .count else .idle }, ⟨true, false, none⟩)
    | none => (u, ⟨false, false, none⟩)
  | .count =>
    match u.dataBuf, dataOutFull with
    | some word, false =>
      let (dataBuf, read) := refill none dataIn
      let pkt := { u.pkt with wordCount := u.pkt.wordCount - 1 }
      if pkt.wordCount = 0 then
        ({ pkt, dataBuf, state := if word.last then .idle else .consume },
          ⟨false, read, some
            { word with keep := lastWordKeepNumBytesValid pkt.lastWordData, last := true }⟩)
      else
        ({ pkt, dataBuf, state := if word.last then .idle else .count },
          ⟨false, read, some word⟩)
    | _, _ =>
      let (dataBuf, read) := refill u.dataBuf dataIn
      ({ u with dataBuf }, ⟨false, read, none⟩)
  | .consume =>
    let state := match u.dataBuf with
      | some word => if word.last then .idle else .consume
      | none => .consume
    let (dataBuf, read) := refill none dataIn
    ({ u with state, dataBuf }, ⟨false, read, none⟩)

/-! ### `crossbar` -/

inductive CrossbarState
  | idle
  | stream
deriving DecidableEq, Repr

/-- The registers of the crossbar. -/
structure Crossbar where
  state : CrossbarState
  currentSteeringDecision : FlowTableResult
deriving DecidableEq, Repr

/-- What one call of `crossbar` does; the outputs go to the engine of the decision. -/
structure CrossbarIo (n : Nat) where
  readResult : Bool
  readHeader : Bool
  readData : Bool
  header : Option (Fin n × HeaderBuffer × FlowTableResult)
  data : Option (Fin n × AxiData)
deriving DecidableEq, Repr

/-- The engine of a result, if there is one with its number. -/
def engineOf (n : Nat) (r : FlowTableResult) : Option (Fin n) :=
  if h : r.v.engineId.toNat < n then some ⟨r.v.engineId.toNat, h⟩ else none

/-- `udp::crossbar` for `n` engines.  `buf` is the header buffer as it is before it is assigned: the
header is read only if the result is for one of the engines. -/
def crossbar (n : Nat) (anyHdrOutFull dataOutFull : Bool) (buf : HeaderBuffer) (u : Crossbar)
    (steerResult : Option FlowTableResult) (hdrIn : Option HeaderBuffer)
    (dataIn : Option AxiData) : Crossbar × CrossbarIo n :=
  match u.state with
  | .idle =>
    match steerResult, hdrIn with
    | some r, some hdr =>
      if anyHdrOutFull then (u, ⟨false, false, false, none, none⟩)
      else
        let buf := if (engineOf n r).isSome then hdr else buf
        ({ currentSteeringDecision := r
           state := if buf.parse.udp.emptyPacket then .idle else .stream },
          ⟨true, (engineOf n r).isSome, false, (engineOf n r).map (·, hdr, r), none⟩)
    | _, _ => (u, ⟨false, false, false, none, none⟩)
  | .stream =>
    match engineOf n u.currentSteeringDecision, dataIn with
    | some e, some word =>
      if dataOutFull then (u, ⟨false, false, false, none, none⟩)
      else
        ({ u with state := if word.last then .idle else .stream },
          ⟨false, false, true, none, some (e, word)⟩)
    | _, _ => (u, ⟨false, false, false, none, none⟩)

/-! ### `split_udp_hdr_stream` -/

/-- The metadata of a packet for the ikernel. -/
def headerMetadata (buf : HeaderBuffer) (r : FlowTableResult) : Metadata where
  pktType := 0
  flowId := r.flowId
  ikernelId := r.v.ikernelId
  var := .inl
    { ethDst := buf.parse.eth.dest
      ethSrc := buf.parse.eth.source
      ipDst := buf.parse.ip.daddr
      ipSrc := buf.parse.ip.saddr
      udpDst := buf.parse.udp.dest
      udpSrc := buf.parse.udp.source }
  ringId := 0
  ipIdentification := buf.parse.ip.id
  length := buf.parse.udp.length - 8

/-- `header_to_metadata_and_private::split_udp_hdr_stream`. -/
def splitUdpHdrStream (metadataOutFull : Bool) :
    Option HeaderBuffer → Option FlowTableResult → Option Metadata
  | some buf, some r => if metadataOutFull then none else some (headerMetadata buf r)
  | _, _ => none

/-! ### The system -/

/-- The registers of the units and the streams between them, for `n` engines.  `metadataOut` and
`dataOut` are all that was delivered to the ikernels, and `passRaw` all raw decisions. -/
structure State (n : Nat) where
  enumOut : Fifo (Nat × Axi4s)
  outMetadata : Fifo MlxMetadata
  outData : Fifo AxiData
  split : Split
  headerSplitToSteer : Fifo HeaderBuffer
  dataSplitToSteer : Fifo AxiData
  hdrDupToDropper : Fifo HeaderBuffer
  hdrDupToChecks : Fifo HeaderBuffer
  hdrDupToFlowTable : Fifo HeaderBuffer
  checksToActions : Fifo Checks
  ftToAction : Fifo FlowTableResult
  ftResults : Fifo FlowTableResult
  steerResults : Fifo FlowTableResult
  matched : Fifo Bool
  passRaw : List Bool
  dropper : Dropper
  headerSteerToDup : Fifo HeaderBuffer
  dataSteerToLength : Fifo AxiData
  headerDupToLength : Fifo HeaderBuffer
  headerDupToCrossbar : Fifo HeaderBuffer
  packets : Fifo PacketLength
  cut : Cut
  dataLengthToCrossbar : Fifo AxiData
  crossbar : Crossbar
  hdrOut : Fin n → Fifo HeaderBuffer
  ftResultsOut : Fin n → Fifo FlowTableResult
  dataOut : Fin n → List AxiData
  metadataOut : Fin n → List Metadata

variable {n : Nat}

/-- The receive path after reset. -/
def State.init : State n where
  enumOut := .nil
  outMetadata := .nil
  outData := .nil
  split := ⟨.idle, ⟨0, 0⟩, 0⟩
  headerSplitToSteer := .nil
  dataSplitToSteer := .nil
  hdrDupToDropper := .nil
  hdrDupToChecks := .nil
  hdrDupToFlowTable := .nil
  checksToActions := .nil
  ftToAction := .nil
  ftResults := .nil
  steerResults := .nil
  matched := .nil
  passRaw := []
  dropper := ⟨.idle, false, none⟩
  headerSteerToDup := .nil
  dataSteerToLength := .nil
  headerDupToLength := .nil
  headerDupToCrossbar := .nil
  packets := .nil
  cut := ⟨.idle, ⟨0, 0, 0, 0⟩, none⟩
  dataLengthToCrossbar := .nil
  crossbar := ⟨.idle, ⟨⟨.passthrough, 0, 0⟩, 0⟩⟩
  hdrOut _ := .nil
  ftResultsOut _ := .nil
  dataOut _ := []
  metadataOut _ := []

/-- One step of the system: a beat arrives, or a unit is called.  The flags say which of the streams
it writes a unit finds full, `enable` is the configuration flag at that call and `result` what the
flow table answers. -/
inductive Act (n : Nat)
  | arrive (count : Nat) (flit : Axi4s)
  | mlxMetadata (outMetadataFull outDataFull : Bool)
  | split (headerFull dataFull : Bool)
  | hdrDup3 (anyFull : Bool)
  | hdrChecks (enable checksToActionsFull : Bool)
  | ftStep (result : FlowTableResult)
  | checksToAction (ftResultsFull resultOutFull : Bool)
  | updateStatsActions (matchedFull passRawFull : Bool)
  | udpDropperStep (headerOutFull dataOutFull : Bool)
  | hdrDup2 (anyFull : Bool)
  | findLength (packetsFull : Bool)
  | cutData (dataOutFull : Bool)
  | crossbar (anyHdrOutFull dataOutFull : Bool) (buf : HeaderBuffer)
  | splitUdpHdrStream (e : Fin n) (metadataOutFull : Bool)
deriving DecidableEq, Repr

/-- Write to the stream of one engine. -/
def putAt {α : Type} (f : Fin n → Fifo α) : Option (Fin n × α) → Fin n → Fifo α
  | none => f
  | some (e, x) => Function.update f e ((f e).put (some x))

/-- Append to the output of one engine. -/
def appendAt {α : Type} (f : Fin n → List α) : Option (Fin n × α) → Fin n → List α
  | none => f
  | some (e, x) => Function.update f e (f e ++ [x])

/-- One step. -/
def step (keepBytes : Nat → BitVec 32) (s : State n) : Act n → State n
  | .arrive count flit => { s with enumOut := s.enumOut.write (count, flit) }
  | .mlxMetadata mFull dFull =>
    let io := Udp.mlxMetadata mFull dFull s.enumOut.head
    { s with
      enumOut := s.enumOut.readIf io.read
      outMetadata := s.outMetadata.put io.metadata
      outData := s.outData.put io.data }
  | .split hFull dFull =>
    let (u, io) := Udp.split keepBytes hFull dFull s.split s.outMetadata.head s.outData.head
    { s with
      split := u
      outMetadata := s.outMetadata.readIf io.readMetadata
      outData := s.outData.readIf io.readData
      headerSplitToSteer := s.headerSplitToSteer.put io.header
      dataSplitToSteer := s.dataSplitToSteer.put io.data }
  | .hdrDup3 full =>
    let word := dup full s.headerSplitToSteer.head
    { s with
      headerSplitToSteer := s.headerSplitToSteer.readIf word.isSome
      hdrDupToDropper := s.hdrDupToDropper.put word
      hdrDupToChecks := s.hdrDupToChecks.put word
      hdrDupToFlowTable := s.hdrDupToFlowTable.put word }
  | .hdrChecks enable full =>
    let c := Udp.hdrChecks enable full s.hdrDupToChecks.head
    { s with
      hdrDupToChecks := s.hdrDupToChecks.readIf c.isSome
      checksToActions := s.checksToActions.put c }
  | .ftStep result =>
    let word := s.hdrDupToFlowTable.head
    { s with
      hdrDupToFlowTable := s.hdrDupToFlowTable.readIf word.isSome
      ftToAction := s.ftToAction.put (word.map fun _ => result) }
  | .checksToAction rFull oFull =>
    let io := Udp.checksToAction rFull oFull s.checksToActions.head s.ftToAction.head
    { s with
      checksToActions := s.checksToActions.readIf io.read
      ftToAction := s.ftToAction.readIf io.read
      ftResults := s.ftResults.put io.ftResult
      steerResults := s.steerResults.put io.resultOut }
  | .updateStatsActions mFull pFull =>
    let out := Udp.updateStatsActions mFull pFull s.ftResults.head
    { s with
      ftResults := s.ftResults.readIf out.isSome
      matched := s.matched.put (out.map (·.1))
      passRaw := s.passRaw ++ (out.map (·.2)).toList }
  | .udpDropperStep hFull dFull =>
    let (u, io) := Udp.udpDropperStep true hFull dFull s.dropper s.matched.head
      s.hdrDupToDropper.head s.dataSplitToSteer.head
    { s with
      dropper := u
      matched := s.matched.readIf io.readHeader
      hdrDupToDropper := s.hdrDupToDropper.readIf io.readHeader
      dataSplitToSteer := s.dataSplitToSteer.readIf io.readData
      headerSteerToDup := s.headerSteerToDup.put io.header
      dataSteerToLength := s.dataSteerToLength.put io.data }
  | .hdrDup2 full =>
    let word := dup full s.headerSteerToDup.head
    { s with
      headerSteerToDup := s.headerSteerToDup.readIf word.isSome
      headerDupToLength := s.headerDupToLength.put word
      headerDupToCrossbar := s.headerDupToCrossbar.put word }
  | .findLength full =>
    let pkt := Udp.findLength full s.headerDupToLength.head
    { s with
      headerDupToLength := s.headerDupToLength.readIf pkt.isSome
      packets := s.packets.put pkt }
  | .cutData full =>
    let (u, io) := Udp.cutData full s.cut s.packets.head s.dataSteerToLength.head
    { s with
      cut := u
      packets := s.packets.readIf io.readPacket
      dataSteerToLength := s.dataSteerToLength.readIf io.readData
      dataLengthToCrossbar := s.dataLengthToCrossbar.put io.data }
  | .crossbar hFull dFull buf =>
    let (u, io) := Udp.crossbar n hFull dFull buf s.crossbar s.steerResults.head
      s.headerDupToCrossbar.head s.dataLengthToCrossbar.head
    { s with
      crossbar := u
      steerResults := s.steerResults.readIf io.readResult
      headerDupToCrossbar := s.headerDupToCrossbar.readIf io.readHeader
      dataLengthToCrossbar := s.dataLengthToCrossbar.readIf io.readData
      hdrOut := putAt s.hdrOut (io.header.map fun o => (o.1, o.2.1))
      ftResultsOut := putAt s.ftResultsOut (io.header.map fun o => (o.1, o.2.2))
      dataOut := appendAt s.dataOut io.data }
  | .splitUdpHdrStream e full =>
    let m := Udp.splitUdpHdrStream full (s.hdrOut e).head (s.ftResultsOut e).head
    { s with
      hdrOut := Function.update s.hdrOut e ((s.hdrOut e).readIf m.isSome)
      ftResultsOut := Function.update s.ftResultsOut e ((s.ftResultsOut e).readIf m.isSome)
      metadataOut := appendAt s.metadataOut (m.map (e, ·)) }

end Nica.Hls.Udp

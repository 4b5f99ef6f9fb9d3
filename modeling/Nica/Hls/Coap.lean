import Nica.Lib.Lanes
import Nica.Lib.Run
import Nica.Hls.Types
import Mathlib.Logic.Function.Basic

/-!
# The CoAP ikernel (`ikernels/hls/coap.cpp`, `ikernels/hls/coap.hpp`)

The packets from the network are duplicated: one copy is parsed, the other one waits for the decision.
`parsePacket` takes the token and the signature out of a packet and files them under the traffic class
of the packet.  `readKey` serves the traffic classes in the order of the scheduler and reads the key
and the ring of a packet's ikernel; `firstPass` and `secondPass` feed the two SHA units with the blocks
of the HMAC; `verifySig` compares the digest with the signature.  `actionResolution` takes a decision
for each packet that waits and `dropOrPass` applies it to the data.

A unit is a function of its registers, the heads of the streams it reads and which streams it finds
full, and returns the new registers and what it reads and writes; `step` connects the units.  The
statistics counters, the unused `_request` register and the direction from the host to the network
are left out.

Three parts are not in the repository or not modelled further: the scheduler (`ntl::scheduler`), whose
answers to `next_flow` are inputs of `readKey`; the digest of the SHA units, the parameter `hash`; and
`axi_data::set_data`, the parameter `setData`.  `logNumTc` is the logarithm of `NUM_TC`.
-/

namespace Nica.Hls.Coap

open Nica.Lib

/-- A byte.  The long words `ap_uint<512>`, `ap_uint<256>` and `ap_uint<344>` are only accessed by
`get_byte`, `write_byte` and `memcpy`, so they are lists of bytes here, byte 0 first. -/
abbrev Byte := BitVec 8

/-! ### The data that travels between the units -/

/-- `coap_hmac_key`. -/
structure HmacKey (logNumTc : Nat) where
  buff : List Byte
  tc : BitVec logNumTc
deriving DecidableEq, Repr

/-- `coap_parsed_data`. -/
structure ParsedData where
  firstWord : List Byte
  secondWord : List Byte
deriving DecidableEq, Repr

/-- `coap_decision`. -/
structure Decision where
  pass : Bool
  ringId : BitVec 7
deriving DecidableEq, Repr

/-- `coap_sha_request`. -/
structure ShaRequest where
  data : List Byte
  last : Bool
deriving DecidableEq, Repr

/-- `coap_verify_sig_request`. -/
structure VerifySigRequest (logNumTc : Nat) where
  ringId : BitVec 7
  tc : BitVec logNumTc
deriving DecidableEq, Repr

/-- `coap_packet_action`. -/
structure PacketAction where
  pass : Bool
  ringId : BitVec 7
  srcPort : BitVec 16
  srcIp : BitVec 32
deriving DecidableEq, Repr

variable {logNumTc : Nat}

/-! ### Bytes -/

/-- The loop that writes the bytes `src` at the offset `off`. -/
def writeBytes (dest : List Byte) (off : Nat) (src : List Byte) : List Byte :=
  dest.take off ++ src ++ dest.drop (off + src.length)

/-- `int_to_bytes`: the four bytes of a word. -/
def intToBytes (src : BitVec 32) : List Byte :=
  [src.extractLsb' 24 8, src.extractLsb' 16 8, src.extractLsb' 8 8, src.extractLsb' 0 8]

/-- `JWT_BASE64_HEADER`. -/
def jwtBase64Header : List Byte :=
  ['e', 'y', 'J', 'h', 'b', 'G', 'c', 'i', 'O', 'i', 'J', 'I', 'U', 'z', 'I', '1', 'N', 'i', 'I',
   's', 'I', 'n', 'R', '5', 'c', 'C', 'I', '6', 'I', 'k', 'p', 'X', 'V', 'C', 'J', '9', '.'].map
    fun c => BitVec.ofNat 8 c.toNat

/-- `basis_64`. -/
def basis64 (val : Byte) : Byte :=
  if val ≤ 25 then 65 + val
  else if val ≤ 51 then 97 + (val - 26)
  else if val ≤ 61 then 48 + (val - 52)
  else if val = 62 then 45
  else if val = 63 then 95
  else 0

/-- `base64_encode`: 32 bytes give 43 characters. -/
def base64Encode : List Byte → List Byte
  | x :: y :: z :: rest =>
    basis64 ((x >>> 2) &&& 0x3f) :: basis64 (((x &&& 0x3) <<< 4) ||| ((y &&& 0xf0) >>> 4)) ::
      basis64 (((y &&& 0xf) <<< 2) ||| ((z &&& 0xc0) >>> 6)) :: basis64 (z &&& 0x3f) ::
      base64Encode rest
  | [x, y] =>
    [basis64 ((x >>> 2) &&& 0x3f), basis64 (((x &&& 0x3) <<< 4) ||| ((y &&& 0xf0) >>> 4)),
      basis64 ((y &&& 0xf) <<< 2)]
  | _ => []

/-- The eight bytes of the message length at the end of a padded block. -/
def lengthBytes (messageLength : BitVec 64) : List Byte :=
  (List.range 8).map fun i => messageLength.extractLsb' (8 * (7 - i)) 8

/-- `pad_block`, with the lengths in bits as in the source. -/
def padBlock (length : Nat) (messageLength : BitVec 64) (src : List Byte) : List Byte :=
  src.take (length / 8) ++ [0x80] ++ List.replicate (55 - length / 8) 0 ++
    lengthBytes messageLength

/-- The key with every byte combined with a pad. -/
def xorPad (pad : Byte) (key : List Byte) : List Byte :=
  key.map (· ^^^ pad)

/-- `IPAD` and `OPAD`. -/
def ipad : Byte := 0x36
def opad : Byte := 0x5c

/-! ### The configuration -/

/-- The context tables: `_keys` and the rings of `_contexts`. -/
structure Config where
  keys : Fin 16 → BitVec 6 → BitVec 32
  ringId : BitVec 6 → BitVec 7

/-- A write through the gateway (`coap::rpc`), which the table's `update` applies. -/
inductive ConfigWrite
  | key (n : Fin 16) (ikernelId : BitVec 6) (v : BitVec 32)
  | ring (ikernelId : BitVec 6) (v : BitVec 7)
deriving DecidableEq, Repr

def Config.write (c : Config) : ConfigWrite → Config
  | .key n id v => { c with keys := Function.update c.keys n (Function.update (c.keys n) id v) }
  | .ring id v => { c with ringId := Function.update c.ringId id v }

/-- The key of an ikernel, put together from its 16 words. -/
def Config.key (c : Config) (id : BitVec 6) : List Byte :=
  (List.finRange 16).flatMap fun n => intToBytes (c.keys n id)

/-! ### `coap::parse_packet` -/

inductive InState
  | inMetadata
  | firstWord
  | secondWord
  | thirdWord
  | fourthWord
  | fifthWord
  | otherWords
deriving DecidableEq, Repr

/-- The registers of `parse_packet`. -/
structure Parser (logNumTc : Nat) where
  inState : InState
  metadata : Metadata
  currTc : BitVec logNumTc
  parsedData : ParsedData
  sig : List Byte
deriving DecidableEq, Repr

/-- Which of its output streams a call of `parse_packet` finds full. -/
structure ParseFull where
  parsedData : Bool
  sig : Bool
  ikernelId : Bool
  packetTc : Bool
  parsedPackets : Bool
deriving DecidableEq, Repr

/-- What one call of `parse_packet` reads and writes.  The streams `_parsed_data_stream`, `_sig_stream`
and `_ikernel_id_per_tc` that it writes are those of the class in `currTc`. -/
structure ParseIo (logNumTc : Nat) where
  readMetadata : Bool := false
  readData : Bool := false
  parsedData : Option ParsedData := none
  sig : Option (List Byte) := none
  ikernelId : Option (BitVec 6) := none
  packetTc : Option (BitVec logNumTc) := none
deriving DecidableEq, Repr

/-- `calc_tc`: the low bits of the ikernel id. -/
def calcTc (logNumTc : Nat) (m : Metadata) : BitVec logNumTc :=
  m.ikernelId.setWidth logNumTc

def parsePacket (full : ParseFull) (u : Parser logNumTc) (metadata : Option Metadata)
    (data : Option AxiData) : Parser logNumTc × ParseIo logNumTc :=
  match u.inState with
  | .inMetadata =>
    match metadata with
    | none => (u, {})
    | some m =>
      ({ u with metadata := m, currTc := calcTc logNumTc m, inState := .firstWord },
        { readMetadata := true })
  | .firstWord =>
    match data with
    | none => (u, {})
    | some _ => ({ u with inState := .secondWord }, { readData := true })
  | .secondWord =>
    match data with
    | none => (u, {})
    | some d =>
      let parsedData :=
        { u.parsedData with
          firstWord := writeBytes u.parsedData.firstWord 37 ((bytesOf d.data).drop 30) }
      ({ u with parsedData, inState := .thirdWord }, { readData := true })
  | .thirdWord =>
    match data with
    | none => (u, {})
    | some d =>
      let parsedData :=
        { firstWord := writeBytes u.parsedData.firstWord 39 ((bytesOf d.data).take 25)
          secondWord := writeBytes u.parsedData.secondWord 0 ((bytesOf d.data).drop 25) }
      ({ u with parsedData, inState := .fourthWord }, { readData := true })
  | .fourthWord =>
    match data with
    | none => (u, {})
    | some d =>
      if full.parsedData then (u, {})
      else
        let parsedData :=
          { u.parsedData with
            secondWord := writeBytes u.parsedData.secondWord 7 ((bytesOf d.data).take 10) }
        ({ u with
            parsedData, sig := writeBytes u.sig 0 ((bytesOf d.data).drop 11), inState := .fifthWord },
          { readData := true, parsedData := some parsedData })
  | .fifthWord =>
    match data with
    | none => (u, {})
    | some d =>
      if full.sig || full.ikernelId || full.packetTc then (u, {})
      else
        let sig := writeBytes u.sig 21 ((bytesOf d.data).take 22)
        ({ u with sig, inState := .otherWords },
          { readData := true
            sig := some sig
            ikernelId := some u.metadata.ikernelId
            packetTc := some u.currTc })
  | .otherWords =>
    match data with
    | none => (u, {})
    | some d =>
      if full.parsedPackets then (u, {})
      else ({ u with inState := if d.last then .inMetadata else .otherWords }, { readData := true })

/-! ### `coap::read_key` -/

inductive SchedState
  | findNextIkernel
  | passRequests
  | updateQuota
deriving DecidableEq, Repr

/-- The registers of `read_key`. -/
structure ReadKey (logNumTc : Nat) where
  state : SchedState
  currTc : BitVec logNumTc
  quota : BitVec 32
  tcEmpty : Bool
deriving DecidableEq, Repr

/-- What the environment decides in a call of `read_key`: whether the scheduler has an update to
apply, which writes the context tables apply, the answer of `next_flow` if it is asked, and which
output streams are full. -/
structure ReadKeyIn (logNumTc : Nat) where
  schedUpdate : Bool
  updates : List ConfigWrite
  nextFlow : Option (BitVec logNumTc × BitVec 32)
  firstPassFull : Bool
  secondPassFull : Bool
  requestFull : Bool
deriving DecidableEq, Repr

/-- `PASS_REQUESTS`: the new registers, and the ikernel id that is read from the queue of the current
class when its head becomes a request. -/
def passRequests (i : ReadKeyIn logNumTc) (u : ReadKey logNumTc) (id : Option (BitVec 6)) :
    ReadKey logNumTc × Option (BitVec 6) :=
  match id with
  | none => ({ u with tcEmpty := true, state := .updateQuota }, none)
  | some id =>
    if u.quota = 0 then ({ u with tcEmpty := false, state := .updateQuota }, none)
    else if i.firstPassFull || i.secondPassFull || i.requestFull then
      ({ u with tcEmpty := false }, none)
    else ({ u with tcEmpty := false, quota := u.quota - 1 }, some id)

/-- Whether the call returns because it applied an update. -/
def ReadKeyIn.busy (i : ReadKeyIn logNumTc) : Bool :=
  i.schedUpdate || !i.updates.isEmpty

/-- `read_key`, with the heads of the queues `_ikernel_id_per_tc`. -/
def readKey (i : ReadKeyIn logNumTc) (u : ReadKey logNumTc)
    (ids : BitVec logNumTc → Option (BitVec 6)) : ReadKey logNumTc × Option (BitVec 6) :=
  if i.busy then (u, none)
  else
    match u.state with
    | .findNextIkernel =>
      match i.nextFlow with
      | none => (u, none)
      | some (tc, quota) =>
        -- the case falls through to `PASS_REQUESTS`
        passRequests i { u with currTc := tc, quota, state := .passRequests } (ids tc)
    | .passRequests => passRequests i u (ids u.currTc)
    | .updateQuota => ({ u with state := .findNextIkernel }, none)

/-! ### `coap::first_pass` and `coap::second_pass` -/

inductive FirstPassState
  | readRequest
  | firstBlock
  | secondBlock
deriving DecidableEq, Repr

/-- The registers of `first_pass`. -/
structure FirstPass (logNumTc : Nat) where
  state : FirstPassState
  currTc : BitVec logNumTc
  data : ParsedData
deriving DecidableEq, Repr

structure FirstPassIo where
  readKey : Bool := false
  readData : Bool := false
  request : Option ShaRequest := none
deriving DecidableEq, Repr

/-- `first_pass`, with the head of the parsed data of the current class. -/
def firstPass (u : FirstPass logNumTc) (key : Option (HmacKey logNumTc)) (data : Option ParsedData) :
    FirstPass logNumTc × FirstPassIo :=
  match u.state with
  | .readRequest =>
    match key with
    | none => (u, {})
    | some key =>
      ({ u with currTc := key.tc, state := .firstBlock },
        { readKey := true, request := some ⟨xorPad ipad key.buff, false⟩ })
  | .firstBlock =>
    match data with
    | none => (u, {})
    | some d =>
      ({ u with data := d, state := .secondBlock },
        { readData := true, request := some ⟨d.firstWord, false⟩ })
  | .secondBlock =>
    ({ u with state := .readRequest },
      { request := some ⟨padBlock 136 (2 * 512 + 136) u.data.secondWord, true⟩ })

inductive SecondPassState
  | hashKey
  | hashFirstPass
deriving DecidableEq, Repr

structure SecondPassIo where
  readKey : Bool := false
  readDigest : Bool := false
  request : Option ShaRequest := none
deriving DecidableEq, Repr

/-- `second_pass`. -/
def secondPass (u : SecondPassState) (key : Option (HmacKey logNumTc))
    (digest : Option (List Byte)) : SecondPassState × SecondPassIo :=
  match u with
  | .hashKey =>
    match key with
    | none => (u, {})
    | some key =>
      (.hashFirstPass, { readKey := true, request := some ⟨xorPad opad key.buff, false⟩ })
  | .hashFirstPass =>
    match digest with
    | none => (u, {})
    | some d =>
      (.hashKey, { readDigest := true, request := some ⟨padBlock 256 (512 + 256) d, true⟩ })

/-! ### The SHA units -/

/-- A SHA unit collects the blocks of a message and answers the last one with the digest
(`sha256_stream.v`): the blocks it holds afterwards, and the digest. -/
def shaUnit (hash : List (List Byte) → List Byte) (blocks : List (List Byte))
    (req : Option ShaRequest) : List (List Byte) × Option (List Byte) :=
  match req with
  | none => (blocks, none)
  | some req =>
    if req.last then ([], some (hash (blocks ++ [req.data]))) else (blocks ++ [req.data], none)

/-! ### `coap::verify_sig`, `coap::action_resolution` and `coap::drop_or_pass` -/

/-- `verify_sig`.  The signature is read without a test whether there is one; the unit waits for it. -/
def verifySig (decisionFull : Bool) (digest : Option (List Byte))
    (req : Option (VerifySigRequest logNumTc)) (sig : Option (List Byte)) : Option Decision :=
  match digest, req, sig with
  | some digest, some req, some sig =>
    if decisionFull then none else some ⟨base64Encode digest == sig, req.ringId⟩
  | _, _, _ => none

/-- What the environment decides in a call of `action_resolution`: whether it applies a credit update
instead, whether `can_transmit` finds room on the way to the host, and which streams are full. -/
structure ActionIn where
  update : Bool
  canTransmit : Bool
  actionFull : Bool
  backpressureDropFull : Bool
  actionCountFull : Bool
deriving DecidableEq, Repr

/-- The metadata that a packet with a passing decision is written with. -/
def outMetadata (m : Metadata) (ringId : BitVec 7) : Metadata :=
  if ringId = 0 then m
  else { m with ringId, length := m.length + 32, var := .inr ⟨1⟩ }

/-- The action of a packet.  The addresses are only set for a ring, and only read then. -/
def packetAction (m : Metadata) (action : Bool) (ringId : BitVec 7) : PacketAction where
  pass := action
  ringId := ringId
  srcPort := if action && ringId != 0 then (getPacketMetadata m).udpSrc else 0
  srcIp := if action && ringId != 0 then (getPacketMetadata m).ipSrc else 0

/-- `action_resolution`: the action and the metadata written to the host, if any. -/
def actionResolution (i : ActionIn) (metadata : Option Metadata) (decision : Option Decision) :
    Option (PacketAction × Option Metadata) :=
  match metadata, decision with
  | some m, some d =>
    if i.update || i.actionFull || i.backpressureDropFull || i.actionCountFull then none
    else
      let action := d.pass && i.canTransmit
      some (packetAction m action d.ringId, if action then some (outMetadata m d.ringId) else none)
  | _, _ => none

inductive DropperState
  | decision
  | data
deriving DecidableEq, Repr

/-- The registers of `drop_or_pass`. -/
structure Dropper where
  state : DropperState
  action : PacketAction
deriving DecidableEq, Repr

structure DropperIo where
  readAction : Bool := false
  readData : Bool := false
  data : Option AxiData := none
deriving DecidableEq, Repr

/-- The beat in front of a packet for a ring: the port and the address of its sender. -/
def senderBeat (setData : List Byte → AxiData) (a : PacketAction) : AxiData :=
  { setData
      ([a.srcPort.extractLsb' 8 8, a.srcPort.extractLsb' 0 8] ++ intToBytes a.srcIp ++
        List.replicate 26 0) with last := false }

/-- `drop_or_pass`. -/
def dropOrPass (setData : List Byte → AxiData) (unitStateFull : Bool) (u : Dropper)
    (action : Option PacketAction) (data : Option AxiData) : Dropper × DropperIo :=
  if unitStateFull then (u, {})
  else
    match u.state with
    | .decision =>
      match action with
      | none => (u, {})
      | some a =>
        ({ state := .data, action := a },
          { readAction := true
            data := if a.pass && a.ringId != 0 then some (senderBeat setData a) else none })
    | .data =>
      match data with
      | none => (u, {})
      | some d =>
        ({ u with state := if d.last then .decision else .data },
          { readData := true, data := if u.action.pass then some d else none })

/-! ### The ikernel -/

/-- A well-formed packet from the network: its metadata and at least six beats of data. -/
structure Request where
  metadata : Metadata
  beats : List AxiData
  isPacket : IsPacket beats
  long : 6 ≤ beats.length

/-- One request that `read_key` made, for the history of a run: the class, the ikernel id that was
read and the configuration at that time. -/
structure Dispatch (logNumTc : Nat) where
  tc : BitVec logNumTc
  ikernelId : BitVec 6
  config : Config

/-- The key that is sent to `first_pass` and `second_pass`. -/
def Dispatch.key (d : Dispatch logNumTc) : HmacKey logNumTc :=
  ⟨d.config.key d.ikernelId, d.tc⟩

/-- The request that is sent to `verify_sig`. -/
def Dispatch.request (d : Dispatch logNumTc) : VerifySigRequest logNumTc :=
  ⟨d.config.ringId d.ikernelId, d.tc⟩

/-- The registers and streams of the ikernel and of the SHA units, with what was written to the host.
`dispatched` is the history of `read_key`. -/
structure State (logNumTc : Nat) where
  netMetadata : Fifo Metadata
  netData : Fifo AxiData
  parserMetadata : Fifo Metadata
  bufferMetadata : Fifo Metadata
  parserData : Fifo AxiData
  bufferData : Fifo AxiData
  parser : Parser logNumTc
  parsedDataStream : BitVec logNumTc → Fifo ParsedData
  sigStream : BitVec logNumTc → Fifo (List Byte)
  ikernelIdPerTc : BitVec logNumTc → Fifo (BitVec 6)
  parsedPacketTc : Fifo (BitVec logNumTc)
  config : Config
  readKey : ReadKey logNumTc
  dispatched : List (Dispatch logNumTc)
  toFirstPass : Fifo (HmacKey logNumTc)
  toSecondPass : Fifo (HmacKey logNumTc)
  verifySigRequest : Fifo (VerifySigRequest logNumTc)
  firstPass : FirstPass logNumTc
  firstShaIn : Fifo ShaRequest
  firstSha : List (List Byte)
  firstShaOut : Fifo (List Byte)
  secondPass : SecondPassState
  secondShaIn : Fifo ShaRequest
  secondSha : List (List Byte)
  secondShaOut : Fifo (List Byte)
  decision : Fifo Decision
  action : Fifo PacketAction
  dropper : Dropper
  metadataOutput : List Metadata
  dataOutput : List AxiData

/-- The zero of `coap_parsed_data`, with the constant header that its constructor writes. -/
def ParsedData.init : ParsedData :=
  ⟨jwtBase64Header ++ List.replicate 27 0, List.replicate 64 0⟩

/-- The state before anything has moved, with all packets of the run waiting on the network ports.
When a packet arrives is when the duplicators take it up. -/
def State.init (config : Config) (packets : List Request) : State logNumTc where
  netMetadata := ⟨[], packets.map (·.metadata)⟩
  netData := ⟨[], packets.flatMap (·.beats)⟩
  parserMetadata := .nil
  bufferMetadata := .nil
  parserData := .nil
  bufferData := .nil
  parser := ⟨.inMetadata, ⟨0, 0, 0, .inl ⟨0, 0, 0, 0, 0, 0⟩, 0, 0, 0⟩, 0, .init, List.replicate 43 0⟩
  parsedDataStream := fun _ => .nil
  sigStream := fun _ => .nil
  ikernelIdPerTc := fun _ => .nil
  parsedPacketTc := .nil
  config := config
  readKey := ⟨.findNextIkernel, 0, 0, false⟩
  dispatched := []
  toFirstPass := .nil
  toSecondPass := .nil
  verifySigRequest := .nil
  firstPass := ⟨.readRequest, 0, .init⟩
  firstShaIn := .nil
  firstSha := []
  firstShaOut := .nil
  secondPass := .hashKey
  secondShaIn := .nil
  secondSha := []
  secondShaOut := .nil
  decision := .nil
  action := .nil
  dropper := ⟨.decision, ⟨false, 0, 0, 0⟩⟩
  metadataOutput := []
  dataOutput := []

/-- Which unit is called, and what the environment decides in the call. -/
inductive Act (logNumTc : Nat)
  | dupMetadata (anyFull : Bool)
  | dupData (anyFull : Bool)
  | parsePacket (full : ParseFull)
  | readKey (i : ReadKeyIn logNumTc)
  | firstPass
  | firstSha
  | secondPass
  | secondSha
  | verifySig (decisionFull : Bool)
  | actionResolution (i : ActionIn)
  | dropOrPass (unitStateFull : Bool)
deriving DecidableEq, Repr

/-- The request that a call of `read_key` makes, if it makes one. -/
def State.dispatch (s : State logNumTc) (i : ReadKeyIn logNumTc) : Option (Dispatch logNumTc) :=
  let (u, id) := Coap.readKey i s.readKey (fun tc => (s.ikernelIdPerTc tc).head)
  id.map fun id => ⟨u.currTc, id, s.config⟩

/-- One call of one unit. -/
def step (hash : List (List Byte) → List Byte) (setData : List Byte → AxiData)
    (s : State logNumTc) : Act logNumTc → State logNumTc
  | .dupMetadata anyFull =>
    let word := dup anyFull s.netMetadata.head
    { s with
      netMetadata := s.netMetadata.readIf word.isSome
      parserMetadata := s.parserMetadata.put word
      bufferMetadata := s.bufferMetadata.put word }
  | .dupData anyFull =>
    let word := dup anyFull s.netData.head
    { s with
      netData := s.netData.readIf word.isSome
      parserData := s.parserData.put word
      bufferData := s.bufferData.put word }
  | .parsePacket full =>
    let (u, io) := Coap.parsePacket full s.parser s.parserMetadata.head s.parserData.head
    { s with
      parser := u
      parserMetadata := s.parserMetadata.readIf io.readMetadata
      parserData := s.parserData.readIf io.readData
      parsedDataStream := putLane s.parsedDataStream s.parser.currTc io.parsedData
      sigStream := putLane s.sigStream s.parser.currTc io.sig
      ikernelIdPerTc := putLane s.ikernelIdPerTc s.parser.currTc io.ikernelId
      parsedPacketTc := s.parsedPacketTc.put io.packetTc }
  | .readKey i =>
    let u := (Coap.readKey i s.readKey (fun tc => (s.ikernelIdPerTc tc).head)).1
    let d := s.dispatch i
    { s with
      readKey := u
      config := if i.schedUpdate then s.config else i.updates.foldl Config.write s.config
      -- the class that is read is handed to `_sched.schedule`
      parsedPacketTc := s.parsedPacketTc.readIf (!i.busy)
      ikernelIdPerTc := readLane s.ikernelIdPerTc u.currTc d.isSome
      toFirstPass := s.toFirstPass.put (d.map Dispatch.key)
      toSecondPass := s.toSecondPass.put (d.map Dispatch.key)
      verifySigRequest := s.verifySigRequest.put (d.map Dispatch.request)
      dispatched := s.dispatched ++ d.toList }
  | .firstPass =>
    let tc := s.firstPass.currTc
    let (u, io) := Coap.firstPass s.firstPass s.toFirstPass.head (s.parsedDataStream tc).head
    { s with
      firstPass := u
      toFirstPass := s.toFirstPass.readIf io.readKey
      parsedDataStream := readLane s.parsedDataStream tc io.readData
      firstShaIn := s.firstShaIn.put io.request }
  | .firstSha =>
    let (blocks, digest) := shaUnit hash s.firstSha s.firstShaIn.head
    { s with
      firstSha := blocks
      firstShaIn := s.firstShaIn.readIf true
      firstShaOut := s.firstShaOut.put digest }
  | .secondPass =>
    let (u, io) := Coap.secondPass s.secondPass s.toSecondPass.head s.firstShaOut.head
    { s with
      secondPass := u
      toSecondPass := s.toSecondPass.readIf io.readKey
      firstShaOut := s.firstShaOut.readIf io.readDigest
      secondShaIn := s.secondShaIn.put io.request }
  | .secondSha =>
    let (blocks, digest) := shaUnit hash s.secondSha s.secondShaIn.head
    { s with
      secondSha := blocks
      secondShaIn := s.secondShaIn.readIf true
      secondShaOut := s.secondShaOut.put digest }
  | .verifySig decisionFull =>
    match s.verifySigRequest.head with
    | none => s
    | some req =>
      let d := Coap.verifySig decisionFull s.secondShaOut.head (some req) (s.sigStream req.tc).head
      { s with
        secondShaOut := s.secondShaOut.readIf d.isSome
        verifySigRequest := s.verifySigRequest.readIf d.isSome
        sigStream := readLane s.sigStream req.tc d.isSome
        decision := s.decision.put d }
  | .actionResolution i =>
    let r := Coap.actionResolution i s.bufferMetadata.head s.decision.head
    { s with
      bufferMetadata := s.bufferMetadata.readIf r.isSome
      decision := s.decision.readIf r.isSome
      action := s.action.put (r.map (·.1))
      metadataOutput := s.metadataOutput ++ (r.bind (·.2)).toList }
  | .dropOrPass unitStateFull =>
    let (u, io) := Coap.dropOrPass setData unitStateFull s.dropper s.action.head s.bufferData.head
    { s with
      dropper := u
      action := s.action.readIf io.readAction
      bufferData := s.bufferData.readIf io.readData
      dataOutput := s.dataOutput ++ io.data.toList }

end Nica.Hls.Coap

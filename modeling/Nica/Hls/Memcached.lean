import Nica.Hls.MemcachedCache
import Nica.Hls.Credits
import Nica.Hls.Types

/-!
# The memcached ikernel (`ikernels/hls/memcached.cpp`, `ikernels/hls/memcached-ik.hpp`)

A request from the network is duplicated: one copy is parsed, the other one waits for its action.
`parsePacket` makes a `ParsedRequest` of the first beat; `handleParsedPacket` posts the access to the cache
and `handleMemoryResponses` takes the answer, generates the reply of a hit and writes the action bit.
`actionResolution` joins the bit with the metadata that waits and `dropOrPass` applies the outcome to the
data.  On the way from the host, `interceptOut` passes the packets on and takes the values out of the `VALUE`
responses, for `handleParsedPacket` to insert; `arbitrate` merges them with the replies of
`replyCachedValue`.

A unit is a function of its registers, the heads of the streams it reads and what the environment decides in
the call: which streams it finds full, what `can_transmit` answers, and whether a command of the gateway
keeps it busy.  `step` connects the units.  The trace events are left out; `axi_data::set_data` (`ntl`) is
the parameter `setData`.
-/

namespace Nica.Hls.Memcached

open Nica.Lib

abbrev Byte := BitVec 8

/-! ### Bytes -/

/-- Byte `i` of a beat: `d.data.range(top, bottom)` in the loops of the parsers. -/
def beatByte (d : AxiData) (i : ℕ) : Byte := d.data.extractLsb' (8 * (31 - i)) 8

/-- The `byte_array` with `data[i] = f i`. -/
def byteArray (n : ℕ) (f : ℕ → Byte) : BitVec (8 * n) :=
  (List.range n).foldr (fun i a => a <<< 8 ||| (f i).setWidth _) 0

/-- A loop over the bytes of a beat that stores byte `i` in `data[index i]` for the `i` that it selects. -/
def storeBytes {n : ℕ} (a : BitVec (8 * n)) (d : AxiData) (select : ℕ → Bool) (index : ℕ → ℤ) :
    BitVec (8 * n) :=
  byteArray n fun j =>
    match (List.range 32).find? (fun i => select i && index i == j) with
    | some i => beatByte d i
    | none => byteAt a j

/-- The bytes of an array. -/
def bytes {n : ℕ} (a : BitVec (8 * n)) : List Byte := (List.range n).map (byteAt a)

/-- A string of the sources. -/
def ascii (s : String) : List Byte := s.toList.map fun c => BitVec.ofNat 8 c.toNat

/-! ### The data that travels between the units -/

inductive RequestType
  | GET | SET | OTHER
deriving DecidableEq, Repr

/-- `memcached_parsed_request`. -/
structure ParsedRequest (z : Sizes) where
  udpHeader : BitVec (8 * 8)
  key : Key z
  type : RequestType
  metadata : Metadata
deriving DecidableEq

/-- `memcached_key_value_pair`. -/
structure KeyValuePair (z : Sizes) where
  key : Key z
  value : Value z
  ikernelId : BitVec 6
deriving DecidableEq

/-- `packet_action`. -/
structure PacketAction where
  action : Bool
  metadata : Metadata
  srcPort : BitVec 16
  srcIp : BitVec 32
deriving DecidableEq, Repr

/-- `h2n_packet_type`. -/
inductive H2nPacketType
  | getResponse | unknown
deriving DecidableEq, Repr

/-- `cache_stats_type`. -/
inductive CacheStatsType
  | hitGen | hitDrop | hitTcBackpressure | miss
deriving DecidableEq, Repr

/-- `enum state`. -/
inductive PacketState
  | metadata | data
deriving DecidableEq, Repr

/-! ### `memcached::parse_packet` -/

/-- The registers of `parse_packet`. -/
structure Parser (z : Sizes) where
  inState : PacketState
  inOffset : ℕ
  parsedRequest : ParsedRequest z
deriving DecidableEq

structure ParseIo (z : Sizes) where
  readMetadata : Bool := false
  readData : Bool := false
  stat : Option (BitVec 6 × RequestType) := none
  request : Option (ParsedRequest z) := none
deriving DecidableEq

/-- The type that the command has by its first letter. -/
def requestType (c : Byte) : RequestType :=
  if c = 0x67#8 then .GET else if c = 0x73#8 then .SET else .OTHER

variable {z : Sizes}

/-- What the first beat of a packet is parsed into; `parse_in_payload` is inlined. -/
def parseFirst (r : ParsedRequest z) (d : AxiData) : ParsedRequest z :=
  { r with
    type := requestType (beatByte d 8)
    udpHeader := storeBytes r.udpHeader d (fun i => i < 8) (fun i => i)
    key := storeBytes r.key d (fun i => 12 ≤ i ∧ i ≤ 12 + z.key - 1) (fun i => i - 12) }

/-- The registers after a beat of data: only the first one is looked at. -/
def Parser.look (u : Parser z) (d : AxiData) : Parser z :=
  if u.inOffset = 0 then { u with parsedRequest := parseFirst u.parsedRequest d, inOffset := u.inOffset + 1 }
  else u

/-- `parse_packet`, with `_req_prs2mem.full()`. -/
def parsePacket (requestsFull : Bool) (u : Parser z) (metadata : Option Metadata) (data : Option AxiData) :
    Parser z × ParseIo z :=
  match u.inState with
  | .metadata =>
    match metadata with
    | none => (u, {})
    | some m =>
      ({ u with parsedRequest := { u.parsedRequest with metadata := m }, inState := .data },
        { readMetadata := true })
  | .data =>
    match data with
    | none => (u, {})
    | some d =>
      if requestsFull then (u, {})
      else
        let u := u.look d
        if d.last then
          ({ u with inOffset := 0, inState := .metadata },
            { readData := true
              stat := some (u.parsedRequest.metadata.ikernelId, u.parsedRequest.type)
              request := some u.parsedRequest })
        else (u, { readData := true })

/-! ### `memcached::handle_parsed_packet` -/

/-- What the environment decides in a call of `handle_parsed_packet`: a command of the gateway that
`cache_ctx.update()` carries out instead (with the entry that it writes, if it is a write), whether
`outstanding_reads` and `_req_mem2mem` are full. -/
structure HandleIn where
  update : Bool
  write : Option (BitVec 6 × ℕ)
  outstandingFull : Bool
  mem2memFull : Bool
deriving DecidableEq, Repr

/-- What `handle_parsed_packet` does with a call. -/
inductive HandleOp (z : Sizes)
  | none
  | insert (kv : KeyValuePair z)
  | request (r : ParsedRequest z)

/-- The choice of `handle_parsed_packet`: pairs to be inserted go before requests. -/
def handleParsedPacket (i : HandleIn) (kv : Option (KeyValuePair z)) (request : Option (ParsedRequest z)) :
    HandleOp z :=
  if i.update then .none
  else
    match kv, request with
    | some kv, _ => .insert kv
    | none, none => .none
    | none, some r => if i.outstandingFull || i.mem2memFull then .none else .request r

/-- The access to the cache of a request. -/
def ParsedRequest.access (r : ParsedRequest z) : Option (CacheAction z) :=
  match r.type with
  | .GET => some (.find false r.metadata.ikernelId.toNat r.key)
  | .SET => some (.erase r.metadata.ikernelId.toNat r.key)
  | .OTHER => none

/-! ### `memcached::handle_memory_responses` -/

/-- `memcached_response`, with what `generate_response` fills in: the header, the key and the value. -/
def generateResponse (r : ParsedRequest z) (value : Value z) : List Byte :=
  bytes r.udpHeader ++ ascii "VALUE " ++ bytes r.key ++ ascii " 0 " ++
    ((ascii (toString z.value)) ++ [0]).take 2 ++ ascii "\r\n" ++ bytes value ++ ascii "\r\nEND\r\n"

/-- `REPLY_SIZE`. -/
def replySize (z : Sizes) : ℕ := 8 + 6 + z.key + 3 + 2 + 2 + z.value + 7

/-- `packet_metadata::reply`. -/
def replyAddresses (p : PacketMetadata) : PacketMetadata := p.reply

/-- `metadata::reply`. -/
def replyMetadata (m : Metadata) (length : ℕ) : Metadata :=
  { m with
    var := if m.ringId = 0 then .inl (replyAddresses (getPacketMetadata m)) else m.var
    length := BitVec.ofNat 16 length }

/-- What the environment decides in a call of `handle_memory_responses`: whether the action stream is full,
whether `can_transmit` finds room on the way to the network, and whether a reply stream is full. -/
structure MemoryIn where
  actionFull : Bool
  canTransmit : Bool
  replyFull : Bool
deriving DecidableEq, Repr

/-- What becomes of a request in `handle_memory_responses`. -/
inductive Fate (z : Sizes)
  | pass
  | miss
  | hit (value : Value z)
  | hitDrop
  | hitTcBackpressure
deriving DecidableEq

/-- The action bit. -/
def Fate.action : Fate z → Bool
  | .pass | .miss => true
  | _ => false

/-- The fate of a request.  A `GET` has the answer of `get_find_result`. -/
def fate (i : MemoryIn) (found : Option (Value z)) : Fate z :=
  match found with
  | none => .miss
  | some v =>
    if !i.canTransmit then .hitTcBackpressure
    else if !i.replyFull then .hit v
    else .hitDrop

/-- The event in `_stats_cache`. -/
def Fate.stat : Fate z → Option CacheStatsType
  | .pass => none
  | .miss => some .miss
  | .hit _ => some .hitGen
  | .hitDrop => some .hitDrop
  | .hitTcBackpressure => some .hitTcBackpressure

/-- The reply of a hit. -/
def Fate.reply (r : ParsedRequest z) : Fate z → Option (Metadata × List Byte)
  | .hit v => some (replyMetadata r.metadata (replySize z), generateResponse r v)
  | _ => none

/-- The request that `handle_memory_responses` works on: the one it waits for, or the next one. -/
def memRespRequest (i : MemoryIn) (waiting next : Option (ParsedRequest z)) : Option (ParsedRequest z) :=
  match waiting with
  | some r => some r
  | none => if i.actionFull then none else next

/-! ### `memcached::action_resolution` -/

/-- What the environment decides in a call of `action_resolution`: a command of the gateway that
`ctx.update()` carries out instead or a credit update, whether `can_transmit` finds room on the way to the
host, and which streams are full. -/
structure ActionIn where
  update : Bool
  write : Option (BitVec 6 × RingId)
  canTransmit : Bool
  backpressureDropFull : Bool
  packetActionFull : Bool
deriving DecidableEq, Repr

/-- How `action_resolution` resolves an action: it drops the packet because the bit says so or because the
host is not ready, or passes it on to the network stack or to a custom ring. -/
inductive Resolution
  | drop
  | backpressure
  | pass (ringId : RingId)
deriving DecidableEq, Repr

/-- The decision for an action bit and the ring of the packet's ikernel. -/
def resolve (canTransmit action : Bool) (ringId : RingId) : Resolution :=
  if action then if canTransmit then .pass ringId else .backpressure else .drop

/-- The `packet_action`.  The addresses are set for a custom ring and only read then. -/
def packetAction (m : Metadata) : Resolution → PacketAction
  | .drop | .backpressure => ⟨false, m, 0, 0⟩
  | .pass ringId =>
    if ringId ≠ 0 then
      ⟨true, { m with ringId := ringId, length := m.length + 32, var := .inr ⟨1⟩ },
        (getPacketMetadata m).udpSrc, (getPacketMetadata m).ipSrc⟩
    else ⟨true, m, 0, 0⟩

/-- `action_resolution`, with the ring of an ikernel. -/
def actionResolution (i : ActionIn) (ring : BitVec 6 → RingId) (metadata : Option Metadata)
    (action : Option Bool) : Option (Metadata × Resolution) :=
  match metadata, action with
  | some m, some action =>
    if i.update || i.backpressureDropFull || i.packetActionFull then none
    else some (m, resolve i.canTransmit action (ring m.ikernelId))
  | _, _ => none

/-! ### `memcached::drop_or_pass` -/

/-- The registers of `drop_or_pass`. -/
structure Dropper where
  state : PacketState
  action : Bool
deriving DecidableEq, Repr

structure DropperIo where
  readAction : Bool := false
  readData : Bool := false
  metadata : Option Metadata := none
  data : Option AxiData := none
deriving DecidableEq, Repr

/-- The beat in front of a packet for a ring: the port and the address of its sender, in the order of the
bytes in memory. -/
def senderBeat (setData : List Byte → AxiData) (a : PacketAction) : AxiData :=
  { setData
      ([a.srcPort.extractLsb' 0 8, a.srcPort.extractLsb' 8 8, a.srcIp.extractLsb' 0 8,
        a.srcIp.extractLsb' 8 8, a.srcIp.extractLsb' 16 8, a.srcIp.extractLsb' 24 8] ++
        List.replicate 26 0) with last := false }

/-- `drop_or_pass`. -/
def dropOrPass (setData : List Byte → AxiData) (u : Dropper) (action : Option PacketAction)
    (data : Option AxiData) : Dropper × DropperIo :=
  match u.state with
  | .metadata =>
    match action with
    | none => (u, {})
    | some a =>
      (⟨.data, a.action⟩,
        { readAction := true
          metadata := if a.action then some a.metadata else none
          data := if a.metadata.ringId ≠ 0 then some (senderBeat setData a) else none })
  | .data =>
    match data with
    | none => (u, {})
    | some d =>
      ({ u with state := if d.last then .metadata else .data },
        { readData := true, data := if u.action then some d else none })

/-! ### `memcached::reply_cached_value` -/

inductive ReplyState
  | requestMetadata | readRequest | generateResponse
deriving DecidableEq, Repr

/-- The registers of `reply_cached_value`. -/
structure Replier where
  state : ReplyState
  currentResponse : List Byte
  replyWord : Bool
deriving DecidableEq, Repr

structure ReplyIo where
  readData : Bool := false
  metadata : Option Metadata := none
  data : Option AxiData := none
deriving DecidableEq, Repr

/-- `READ_REQUEST`. -/
def readRequest (u : Replier) (response : Option (List Byte)) (metadata : Option Metadata) :
    Replier × ReplyIo :=
  match response with
  | none => ({ u with state := .readRequest }, { metadata })
  | some r => ({ u with currentResponse := r, state := .generateResponse }, { readData := true, metadata })

/-- `reply_cached_value`, with `m2.full()` and `d2.full()`. -/
def replyCachedValue (setData : List Byte → AxiData) (m2Full d2Full : Bool) (u : Replier)
    (metadata : Option Metadata) (response : Option (List Byte)) : Replier × ReplyIo :=
  match u.state with
  | .requestMetadata =>
    match metadata with
    | none => (u, {})
    | some m => if m2Full then (u, {}) else readRequest u response (some m)
  | .readRequest => readRequest u response none
  | .generateResponse =>
    if d2Full then (u, {})
    else if u.replyWord then
      ({ u with state := .requestMetadata, replyWord := false },
        { data := some { setData (u.currentResponse.drop 32) with last := true } })
    else
      ({ u with replyWord := true },
        { data := some { setData (u.currentResponse.take 32) with last := false } })

/-! ### `memcached::intercept_out` -/

/-- `VALUE_POS`. -/
def valuePos (z : Sizes) : ℕ := 19 + z.key + 2

/-- The registers of `intercept_out`. -/
structure Interceptor (z : Sizes) where
  outState : PacketState
  outMetadata : Metadata
  tcBackpressure : Bool
  outWord : Bool
  responseTypeChar : Byte
  parsedResponse : KeyValuePair z
deriving DecidableEq

/-- What the environment decides in a call of `intercept_out`: which streams are full, and whether
`can_transmit` finds room on the way to the network. -/
structure InterceptIn where
  m1Full : Bool
  d1Full : Bool
  kvFull : Bool
  canTransmit : Bool
deriving DecidableEq, Repr

structure InterceptIo (z : Sizes) where
  readMetadata : Bool := false
  readData : Bool := false
  metadata : Option Metadata := none
  data : Option AxiData := none
  kv : Option (KeyValuePair z) := none
  stat : Option (BitVec 6 × H2nPacketType) := none
deriving DecidableEq

/-- The index in `value` of byte `i` of a beat behind the first one. -/
def valueIndex (z : Sizes) (i : ℕ) : ℤ :=
  if valuePos z > 32 then (32 + i : ℤ) - valuePos z
  else ((32 + i : ℤ) - valuePos z) + (31 - valuePos z)

/-- `parse_out_payload`: `wordOffset` is 0 for the first beat and 1 for every other one. -/
def parseOutPayload (d : AxiData) (wordOffset : Bool) (p : KeyValuePair z) : KeyValuePair z :=
  if wordOffset then
    { p with
      value := storeBytes p.value d
        (fun i => (valuePos z : ℤ) - 32 ≤ i ∧ (i : ℤ) ≤ valuePos z + z.value - 1 - 32) (valueIndex z) }
  else
    { p with
      key := storeBytes p.key d (fun i => 14 ≤ i ∧ i ≤ 14 + z.key - 1) (fun i => i - 14)
      value := storeBytes p.value d (fun i => valuePos z ≤ i) (fun i => i - valuePos z) }

/-- `intercept_out`. -/
def interceptOut (i : InterceptIn) (u : Interceptor z) (metadata : Option Metadata) (data : Option AxiData) :
    Interceptor z × InterceptIo z :=
  match u.outState with
  | .metadata =>
    match metadata with
    | none => (u, {})
    | some m =>
      if i.m1Full then (u, {})
      else
        ({ u with
            outMetadata := m
            tcBackpressure := !i.canTransmit
            parsedResponse := { u.parsedResponse with ikernelId := m.ikernelId }
            outState := .data },
          { readMetadata := true, metadata := if i.canTransmit then some m else none })
  | .data =>
    match data with
    | none => (u, {})
    | some d =>
      if i.kvFull || i.d1Full then (u, {})
      else
        let type := if u.outWord then u.responseTypeChar else beatByte d 8
        let response := parseOutPayload d u.outWord u.parsedResponse
        -- 'V' is the first letter of a response to a `get`
        let value := d.last && type == 0x56#8
        ({ u with
            outState := if d.last then .metadata else .data
            outWord := !d.last
            responseTypeChar := type
            parsedResponse := response },
          { readData := true
            data := if u.tcBackpressure then none else some d
            kv := if value then some response else none
            stat := if d.last then
              some (u.outMetadata.ikernelId, if value then .getResponse else .unknown) else none })

/-! ### `ikernel_arbiter::arbitrate` -/

/-- The registers of the arbiter: `cur` is the port of the packet that is being streamed, and `none` between
two packets. -/
abbrev Arbiter := Option Bool

structure ArbitrateIo where
  readMetadata : Option Bool := none
  readData : Option Bool := none
  metadata : Option Metadata := none
  data : Option AxiData := none
deriving DecidableEq, Repr

/-- `STREAM`, for the port `cur` (`true` for the second one). -/
def stream (cur : Bool) (d1 d2 : Option AxiData) (io : ArbitrateIo) : Arbiter × ArbitrateIo :=
  match if cur then d2 else d1 with
  | none => (some cur, io)
  | some d => (if d.last then none else some cur, { io with readData := some cur, data := some d })

/-- `arbitrate`: the first port has priority. -/
def arbitrate (u : Arbiter) (m1 m2 : Option Metadata) (d1 d2 : Option AxiData) : Arbiter × ArbitrateIo :=
  match u with
  | some cur => stream cur d1 d2 {}
  | none =>
    match m1, m2 with
    | some m, _ => stream false d1 d2 { readMetadata := some false, metadata := some m }
    | none, some m => stream true d1 d2 { readMetadata := some true, metadata := some m }
    | none, none => (none, {})

/-! ### `memcached::update_stats` and the registers -/

/-- `memcached_stats_context`. -/
structure StatsContext where
  getRequests : BitVec 32
  getReqHit : BitVec 32
  getReqDroppedHits : BitVec 32
  getReqMiss : BitVec 32
  setRequests : BitVec 32
  n2hUnknown : BitVec 32
  getResponse : BitVec 32
  h2nUnknown : BitVec 32
  backpressureDropCount : BitVec 32
  tcBackpressureDropCount : BitVec 32
deriving DecidableEq, Repr

namespace StatsContext

def init : StatsContext := ⟨0, 0, 0, 0, 0, 0, 0, 0, 0, 0⟩

def countRequest (c : StatsContext) : RequestType → StatsContext
  | .GET => { c with getRequests := c.getRequests + 1 }
  | .SET => { c with setRequests := c.setRequests + 1 }
  | .OTHER => { c with n2hUnknown := c.n2hUnknown + 1 }

def countResponse (c : StatsContext) : H2nPacketType → StatsContext
  | .getResponse => { c with getResponse := c.getResponse + 1 }
  | .unknown => { c with h2nUnknown := c.h2nUnknown + 1 }

def countCache (c : StatsContext) : CacheStatsType → StatsContext
  | .hitGen => { c with getReqHit := c.getReqHit + 1 }
  | .hitDrop => { c with getReqDroppedHits := c.getReqDroppedHits + 1 }
  | .hitTcBackpressure => { c with tcBackpressureDropCount := c.tcBackpressureDropCount + 1 }
  | .miss => { c with getReqMiss := c.getReqMiss + 1 }

def countBackpressure (c : StatsContext) : StatsContext :=
  { c with backpressureDropCount := c.backpressureDropCount + 1 }

end StatsContext

/-- Change the entry of the ikernel that an event belongs to. -/
def countEvent {E : Type} (f : StatsContext → E → StatsContext) (t : BitVec 6 → StatsContext)
    (event : Option (BitVec 6 × E)) : BitVec 6 → StatsContext :=
  match event with
  | none => t
  | some (id, e) => Function.update t id (f (t id) e)

/-- `update_stats`: at most one event of each stream. -/
def updateStats (t : BitVec 6 → StatsContext) (n2h : Option (BitVec 6 × RequestType))
    (h2n : Option (BitVec 6 × H2nPacketType)) (cache : Option (BitVec 6 × CacheStatsType))
    (backpressure : Option (BitVec 6 × Bool)) : BitVec 6 → StatsContext :=
  countEvent (fun c _ => c.countBackpressure)
    (countEvent StatsContext.countCache
      (countEvent StatsContext.countResponse (countEvent StatsContext.countRequest t n2h) h2n) cache)
    backpressure

/-! ### The ikernel -/

/-- A packet from the network: at least one beat of data, and the addresses of a UDP packet. -/
structure NetPacket where
  metadata : Metadata
  beats : List AxiData
  isPacket : IsPacket beats
  ringId_eq : metadata.ringId = 0

/-- A packet from the host. -/
structure HostPacket where
  metadata : Metadata
  beats : List AxiData
  isPacket : IsPacket beats

/-- The registers and streams of the ikernel, with what was written to its outputs.  `fates`,
`resolutions` and `transmits` are the histories of `handle_memory_responses`, `action_resolution` and
`intercept_out`. -/
structure State (z : Sizes) where
  netMetadata : Fifo Metadata
  netData : Fifo AxiData
  parserMetadata : Fifo Metadata
  bufferMetadata : Fifo Metadata
  parserData : Fifo AxiData
  bufferData : Fifo AxiData
  parser : Parser z
  n2hStats : Fifo (BitVec 6 × RequestType)
  reqPrs2mem : Fifo (ParsedRequest z)
  logSize : BitVec 6 → ℕ
  cache : CacheRun z
  reqMem2mem : Fifo (ParsedRequest z)
  memRespReq : Option (ParsedRequest z)
  fates : List (Fate z)
  statsCache : Fifo (BitVec 6 × CacheStatsType)
  replyMetadata : Fifo Metadata
  replyData : Fifo (List Byte)
  actionStream : Fifo Bool
  ringId : BitVec 6 → RingId
  resolutions : List Resolution
  backpressureDrop : Fifo (BitVec 6 × Bool)
  packetAction : Fifo PacketAction
  dropper : Dropper
  netMetadataOutput : List Metadata
  netDataOutput : List AxiData
  hostMetadata : Fifo Metadata
  hostData : Fifo AxiData
  interceptor : Interceptor z
  kvPairs : Fifo (KeyValuePair z)
  h2nStats : Fifo (BitVec 6 × H2nPacketType)
  transmits : List Bool
  replier : Replier
  m1 : Fifo Metadata
  d1 : Fifo AxiData
  m2 : Fifo Metadata
  d2 : Fifo AxiData
  arbiter : Arbiter
  hostMetadataOutput : List Metadata
  hostDataOutput : List AxiData
  stats : BitVec 6 → StatsContext

/-- The zero of a metadata. -/
def noMetadata : Metadata := ⟨0, 0, 0, .inl ⟨0, 0, 0, 0, 0, 0⟩, 0, 0, 0⟩

/-- The state before anything has moved, with the packets of the run waiting on the ports. -/
def State.init (cells : BitVec 64 → BitVec 512) (logSize : BitVec 6 → ℕ) (ringId : BitVec 6 → RingId)
    (packets : List NetPacket) (hostPackets : List HostPacket) : State z where
  netMetadata := ⟨[], packets.map (·.metadata)⟩
  netData := ⟨[], packets.flatMap (·.beats)⟩
  parserMetadata := .nil
  bufferMetadata := .nil
  parserData := .nil
  bufferData := .nil
  parser := ⟨.metadata, 0, ⟨0, 0, .GET, noMetadata⟩⟩
  n2hStats := .nil
  reqPrs2mem := .nil
  logSize := logSize
  cache := .init cells
  reqMem2mem := .nil
  memRespReq := none
  fates := []
  statsCache := .nil
  replyMetadata := .nil
  replyData := .nil
  actionStream := .nil
  ringId := ringId
  resolutions := []
  backpressureDrop := .nil
  packetAction := .nil
  dropper := ⟨.metadata, false⟩
  netMetadataOutput := []
  netDataOutput := []
  hostMetadata := ⟨[], hostPackets.map (·.metadata)⟩
  hostData := ⟨[], hostPackets.flatMap (·.beats)⟩
  interceptor := ⟨.metadata, noMetadata, false, false, 0, ⟨0, 0, 0⟩⟩
  kvPairs := .nil
  h2nStats := .nil
  transmits := []
  replier := ⟨.requestMetadata, [], false⟩
  m1 := .nil
  d1 := .nil
  m2 := .nil
  d2 := .nil
  arbiter := none
  hostMetadataOutput := []
  hostDataOutput := []
  stats := fun _ => .init

/-- Which unit is called, and what the environment decides in the call. -/
inductive Act
  | dupMetadata (anyFull : Bool)
  | dupData (anyFull : Bool)
  | parsePacket (requestsFull : Bool)
  | handleParsedPacket (i : HandleIn)
  | memory
  | handleMemoryResponses (i : MemoryIn)
  | actionResolution (i : ActionIn)
  | dropOrPass
  | replyCachedValue (m2Full d2Full : Bool)
  | interceptOut (i : InterceptIn)
  | arbitrate
  | updateStats (update : Bool)
deriving DecidableEq, Repr

namespace State

/-- The contexts of the cache after a command of the gateway. -/
def logSizeAfter (s : State z) (i : HandleIn) : BitVec 6 → ℕ :=
  match i.update, i.write with
  | true, some (id, log) => Function.update s.logSize id log
  | _, _ => s.logSize

/-- `handle_parsed_packet`. -/
def handleParsedPacket (s : State z) (i : HandleIn) : State z :=
  let cacheStep (a : CacheAction z) := s.cache.step (fun id => s.logSize (BitVec.ofNat 6 id)) a
  match Memcached.handleParsedPacket i s.kvPairs.head s.reqPrs2mem.head with
  | .none => { s with logSize := s.logSizeAfter i }
  | .insert kv =>
    { s with
      kvPairs := s.kvPairs.pop
      cache := cacheStep (.insert kv.ikernelId.toNat kv.key kv.value) }
  | .request r =>
    { s with
      reqPrs2mem := s.reqPrs2mem.pop
      cache := (r.access.map cacheStep).getD s.cache
      reqMem2mem := s.reqMem2mem.write r }

/-- A request leaves `handle_memory_responses`. -/
def complete (s : State z) (r : ParsedRequest z) (f : Fate z) : State z :=
  { s with
    memRespReq := none
    fates := s.fates ++ [f]
    statsCache := s.statsCache.put (f.stat.map (r.metadata.ikernelId, ·))
    replyMetadata := s.replyMetadata.put ((f.reply r).map (·.1))
    replyData := s.replyData.put ((f.reply r).map (·.2))
    actionStream := s.actionStream.write f.action }

/-- `handle_memory_responses`; the write responses are read and ignored. -/
def handleMemoryResponses (s : State z) (i : MemoryIn) : State z :=
  match memRespRequest i s.memRespReq s.reqMem2mem.head with
  | none => s
  | some r =>
    let s := { s with
      memRespReq := some r
      reqMem2mem := s.reqMem2mem.readIf s.memRespReq.isNone }
    match r.type with
    | .GET =>
      match s.cache.cache.getFindResult.1 with
      | none => s
      | some found =>
        { s with cache := s.cache.step (fun id => s.logSize (BitVec.ofNat 6 id)) .getFindResult }.complete r
          (fate i found)
    | .SET | .OTHER => s.complete r .pass

/-- `action_resolution`. -/
def actionResolution (s : State z) (i : ActionIn) : State z :=
  match Memcached.actionResolution i s.ringId s.bufferMetadata.head s.actionStream.head with
  | none =>
    { s with
      ringId := match i.update, i.write with
        | true, some (id, ring) => Function.update s.ringId id ring
        | _, _ => s.ringId }
  | some (m, r) =>
    { s with
      bufferMetadata := s.bufferMetadata.pop
      actionStream := s.actionStream.pop
      resolutions := s.resolutions ++ [r]
      backpressureDrop := s.backpressureDrop.put (if r = .backpressure then some (m.ikernelId, true) else none)
      packetAction := s.packetAction.write (Memcached.packetAction m r) }

end State

/-- One call of one unit. -/
def step (setData : List Byte → AxiData) (s : State z) : Act → State z
  | .dupMetadata anyFull =>
    let word := dup anyFull s.netMetadata.head
    { s with
      netMetadata := s.netMetadata.readIf word.isSome
      parserMetadata := s.parserMetadata.put word
      bufferMetadata := s.bufferMetadata.put word }
  | .dupData anyFull =>
    let word := dup anyFull s.netData.head
    { s with
      netData := s.netData.readIf word.isSome
      parserData := s.parserData.put word
      bufferData := s.bufferData.put word }
  | .parsePacket requestsFull =>
    let (u, io) := Memcached.parsePacket requestsFull s.parser s.parserMetadata.head s.parserData.head
    { s with
      parser := u
      parserMetadata := s.parserMetadata.readIf io.readMetadata
      parserData := s.parserData.readIf io.readData
      n2hStats := s.n2hStats.put io.stat
      reqPrs2mem := s.reqPrs2mem.put io.request }
  | .handleParsedPacket i => s.handleParsedPacket i
  | .memory => { s with cache := s.cache.step (fun id => s.logSize (BitVec.ofNat 6 id)) .serve }
  | .handleMemoryResponses i => s.handleMemoryResponses i
  | .actionResolution i => s.actionResolution i
  | .dropOrPass =>
    let (u, io) := Memcached.dropOrPass setData s.dropper s.packetAction.head s.bufferData.head
    { s with
      dropper := u
      packetAction := s.packetAction.readIf io.readAction
      bufferData := s.bufferData.readIf io.readData
      netMetadataOutput := s.netMetadataOutput ++ io.metadata.toList
      netDataOutput := s.netDataOutput ++ io.data.toList }
  | .replyCachedValue m2Full d2Full =>
    let (u, io) := Memcached.replyCachedValue setData m2Full d2Full s.replier s.replyMetadata.head
      s.replyData.head
    { s with
      replier := u
      replyMetadata := s.replyMetadata.readIf io.metadata.isSome
      replyData := s.replyData.readIf io.readData
      m2 := s.m2.put io.metadata
      d2 := s.d2.put io.data }
  | .interceptOut i =>
    let (u, io) := Memcached.interceptOut i s.interceptor s.hostMetadata.head s.hostData.head
    { s with
      interceptor := u
      hostMetadata := s.hostMetadata.readIf io.readMetadata
      hostData := s.hostData.readIf io.readData
      m1 := s.m1.put io.metadata
      d1 := s.d1.put io.data
      kvPairs := s.kvPairs.put io.kv
      h2nStats := s.h2nStats.put io.stat
      transmits := s.transmits ++ if io.readMetadata then [i.canTransmit] else [] }
  | .arbitrate =>
    let (u, io) := Memcached.arbitrate s.arbiter s.m1.head s.m2.head s.d1.head s.d2.head
    { s with
      arbiter := u
      m1 := s.m1.readIf (io.readMetadata == some false)
      m2 := s.m2.readIf (io.readMetadata == some true)
      d1 := s.d1.readIf (io.readData == some false)
      d2 := s.d2.readIf (io.readData == some true)
      hostMetadataOutput := s.hostMetadataOutput ++ io.metadata.toList
      hostDataOutput := s.hostDataOutput ++ io.data.toList }
  | .updateStats update =>
    if update then s
    else
      { s with
        stats := Memcached.updateStats s.stats s.n2hStats.head s.h2nStats.head s.statsCache.head
          s.backpressureDrop.head
        n2hStats := s.n2hStats.readIf true
        h2nStats := s.h2nStats.readIf true
        statsCache := s.statsCache.readIf true
        backpressureDrop := s.backpressureDrop.readIf true }

end Nica.Hls.Memcached

import Nica.Lib.Run

/-!
# The socket between `libnica` and the manager

Both ends of the connection: `global_state::call` with the functions that use it (`libnica/nica.cpp`,
`libnica/nicamgr.h`), and the decorator `rpc` with the handlers of `NICAManagerProtocol`
(`manager/nica_manager.py`).  What a request and a response say is left open; their sizes are those of the
structures that either end uses.

The two directions of the socket are streams of bytes, read in chunks of any size; a byte that the client
sends can carry a file descriptor.  Both ends move in any order.  `chosen` and `returned` are ghost state: the
replies of the manager and what the calls of the client returned.
-/

namespace Nica.Libnica.Wire

/-! ### Structures -/

/-- The members of the structures of the protocol. -/
inductive Member
  | u16
  | u32
  | chars (n : ℕ)
deriving DecidableEq, Repr

def Member.size : Member → ℕ
  | .u16 => 2
  | .u32 => 4
  | .chars n => n

def Member.align : Member → ℕ
  | .u16 => 2
  | .u32 => 4
  | .chars _ => 1

/-- The size of a structure with natural alignment, in C and in `struct.Struct`; none of them needs padding at
its end. -/
def sizeOf (members : List Member) : ℕ :=
  members.foldl (fun offset m => (offset + m.align - 1) / m.align * m.align + m.size) 0

abbrev Byte := BitVec 8

/-- `nicamgr_header`, and `RPC.hdr`. -/
structure Header where
  opcode : BitVec 16
  length : BitVec 16
  flags : BitVec 16
  status : BitVec 16
deriving DecidableEq, Repr

def headerSize : ℕ := sizeOf [.u16, .u16, .u16, .u16]

/-- A 16-bit member, low byte first. -/
def bytes16 (x : BitVec 16) : List Byte := [x.extractLsb' 0 8, x.extractLsb' 8 8]

/-- The bytes of a header. -/
def Header.pack (h : Header) : List Byte :=
  bytes16 h.opcode ++ bytes16 h.length ++ bytes16 h.flags ++ bytes16 h.status

/-- The 16-bit member at an offset. -/
def member16 (bs : List Byte) (offset : ℕ) : BitVec 16 := bs.getD (offset + 1) 0 ++ bs.getD offset 0

/-- The header in the first bytes. -/
def Header.unpack (bs : List Byte) : Header :=
  ⟨member16 bs 0, member16 bs 2, member16 bs 4, member16 bs 6⟩

/-! ### The client -/

/-- The functions of `libnica` that talk to the manager. -/
inductive Call
  | ikCreateAttrs | ikDestroy | ikRpc | ikAttach | ikDetach | crCreate | crDestroy | crUpdateCredits
deriving DecidableEq, Repr

namespace Call

/-- `nicamgr_opcode`. -/
def opcode : Call → BitVec 16
  | .ikDestroy => 2
  | .ikRpc => 3
  | .ikAttach => 4
  | .ikDetach => 5
  | .crCreate => 6
  | .crDestroy => 7
  | .crUpdateCredits => 8
  | .ikCreateAttrs => 9

/-- The structure `req` of each function. -/
def req : Call → List Member
  | .ikCreateAttrs => [.u32, .chars 16, .chars 16, .u32]
  | .ikDestroy => [.u32]
  | .ikRpc => [.u32, .u32, .u32, .u32]
  | .ikAttach => [.u32]
  | .ikDetach => [.u32]
  | .crCreate => [.u32, .u32]
  | .crDestroy => [.u32]
  | .crUpdateCredits => [.u32, .u32]

/-- The structure `resp` of each function; `ik_detach` declares a `nica_resp_ik_attach` and
`custom_ring_destroy` a `nica_resp_cr_create`. -/
def resp : Call → List Member
  | .ikCreateAttrs => [.u32, .u32]
  | .ikDestroy => [.u32]
  | .ikRpc => [.u32]
  | .ikAttach => [.u32, .u32]
  | .ikDetach => [.u32, .u32]
  | .crCreate => [.u32]
  | .crDestroy => [.u32]
  | .crUpdateCredits => [.u32]

end Call

/-- What a call comes to: the response, or `errno`.  `interrupted` is a callback that returns an error. -/
inductive Reply
  | response (body : List Byte)
  | error (status : BitVec 16)
  | interrupted (status : BitVec 16)
deriving DecidableEq, Repr

/-- Where the client is: between two calls, in the callback of `ik_attach`, or reading the response. -/
inductive Client
  | idle
  | readyHeader (call : Call)
  | readyBody (call : Call) (hdr : Header)
  | respHeader (call : Call)
  | respBody (call : Call) (hdr : Header)
  | aborted
deriving DecidableEq, Repr

/-! ### The manager -/

/-- A handler: the structures of the decorator, and whether the handler receives a descriptor. -/
structure Rpc where
  req : List Member
  resp : List Member
  receivesFd : Bool
deriving DecidableEq, Repr

/-- `EMPTY_STRUCT`. -/
def emptyStruct : List Member := [.u32]

/-- `opcode_handlers` of `NICAManagerProtocol`. -/
def opcodeHandlers (opcode : BitVec 16) : Option Rpc :=
  if opcode = 1 then some ⟨[.chars 16, .chars 16], [.u32], false⟩
  else if opcode = 2 then some ⟨[.u32], emptyStruct, false⟩
  else if opcode = 3 then some ⟨[.u32, .u32, .u32, .u32], [.u32], false⟩
  else if opcode = 4 then some ⟨[.u32], [.u32, .u32], true⟩
  else if opcode = 5 then some ⟨[.u32], [.u32], true⟩
  else if opcode = 6 then some ⟨[.u32, .u32], [.u32], false⟩
  else if opcode = 7 then some ⟨[.u32], emptyStruct, false⟩
  else if opcode = 8 then some ⟨[.u32, .u32], emptyStruct, false⟩
  else if opcode = 9 then some ⟨[.u32, .chars 16, .chars 16, .u32], [.u32, .u32], false⟩
  else none

/-- `cur_handler`, or the loop of `receive_fd`, which blocks the event loop. -/
inductive Handler
  | headerDataReceived
  | rpc (r : Rpc)
  | receiveFd (r : Rpc)
deriving DecidableEq, Repr

/-- What the manager decides about a request: a response, or an error status. -/
inductive Outcome
  | response (body : List Byte)
  | error (status : BitVec 16)
deriving DecidableEq, Repr

def Outcome.reply : Outcome → Reply
  | .response body => .response body
  | .error status => .error status

/-- `errno.ENOSYS` and `errno.EINVAL`. -/
def enosys : BitVec 16 := 38
def einval : BitVec 16 := 22

/-! ### The connection -/

/-- A byte on its way to the manager, and whether a descriptor came with it. -/
structure SentByte where
  byte : Byte
  fd : Bool
deriving DecidableEq, Repr

structure Connection where
  client : Client
  toManager : List SentByte
  toClient : List Byte
  curHandler : Handler
  curHdr : Header
  buf : List Byte
  chosen : List (BitVec 16 × Reply)
  returned : List (Call × Reply)
deriving DecidableEq, Repr

def Connection.init : Connection := ⟨.idle, [], [], .headerDataReceived, ⟨0, 0, 0, 0⟩, [], [], []⟩

inductive Action
  | call (c : Call) (req : List Byte)
  | client
  | dataReceived (n : ℕ)
  | handle (o : Outcome)
  | recvmsg (o : Outcome)
deriving DecidableEq, Repr

namespace Connection

/-- Plain bytes. -/
def plain (bs : List Byte) : List SentByte := bs.map (⟨·, false⟩)

/-- `send_fd`: one byte with the descriptor. -/
def sendFd (s : Connection) : Connection := { s with toManager := s.toManager ++ [⟨0, true⟩] }

/-- `global_state::call` up to its first `read`; the request is one structure. -/
def startCall (s : Connection) (c : Call) (req : List Byte) : Connection :=
  if s.client = .idle ∧ req.length = sizeOf c.req then
    let hdr : Header := ⟨c.opcode, BitVec.ofNat 16 (sizeOf c.req), 1, 0⟩
    let s := { s with toManager := s.toManager ++ plain (hdr.pack ++ req) }
    match c with
    | .ikAttach => { s with client := .readyHeader c }
    | .ikDetach => { s.sendFd with client := .respHeader c }
    | _ => { s with client := .respHeader c }
  else s

/-- The call returns. -/
def finish (s : Connection) (c : Call) (r : Reply) : Connection :=
  { s with client := .idle, returned := s.returned ++ [(c, r)] }

/-- The client reads `n` bytes, if they have arrived. -/
def clientRead (s : Connection) (n : ℕ) (next : List Byte → Connection → Connection) : Connection :=
  if n ≤ s.toClient.length then next (s.toClient.take n) { s with toClient := s.toClient.drop n } else s

/-- The number of bytes that follow a header: the body of an error, or the response. -/
def bodySize (c : Call) (hdr : Header) : ℕ := if hdr.status ≠ 0 then hdr.length.toNat else sizeOf c.resp

/-- One `read` of the client and what follows it up to the next one. -/
def clientStep (s : Connection) : Connection :=
  match s.client with
  | .idle => s
  | .aborted => s
  | .readyHeader c =>
    s.clientRead headerSize fun bs s =>
      let hdr := Header.unpack bs
      if hdr.opcode = Call.ikAttach.opcode ∧ hdr.length = 4 then { s with client := .readyBody c hdr }
      else { s with client := .aborted }
  | .readyBody c hdr =>
    s.clientRead 4 fun _ s =>
      if hdr.status ≠ 0 then s.finish c (.interrupted hdr.status)
      else { s.sendFd with client := .respHeader c }
  | .respHeader c =>
    s.clientRead headerSize fun bs s =>
      let hdr := Header.unpack bs
      if hdr.opcode = c.opcode ∧ hdr.flags.getLsbD 0 = false ∧
          (hdr.status ≠ 0 ∨ hdr.length.toNat = sizeOf c.resp) then
        { s with client := .respBody c hdr }
      else { s with client := .aborted }
  | .respBody c hdr =>
    s.clientRead (bodySize c hdr) fun bs s =>
      s.finish c (if hdr.status ≠ 0 then .error hdr.status else .response bs)

/-- `RPC.send_msg`. -/
def sendMsg (s : Connection) (opcode : BitVec 16) (members : List Member) (body : List Byte)
    (status : BitVec 16) : Connection :=
  { s with
    toClient := s.toClient ++ ((Header.pack ⟨opcode, BitVec.ofNat 16 (sizeOf members), 0, status⟩) ++ body) }

/-- The end of `func_wrapper`: the response or the error. -/
def respond (s : Connection) (r : Rpc) (o : Outcome) : Connection :=
  let s :=
    { s with curHandler := .headerDataReceived, chosen := s.chosen ++ [(s.curHdr.opcode, o.reply)] }
  match o with
  | .response body => s.sendMsg s.curHdr.opcode r.resp body 0
  | .error status => s.sendMsg s.curHdr.opcode emptyStruct [0, 0, 0, 0] status

/-- A response fills its structure, and an error has a status. -/
def fits (r : Rpc) : Outcome → Bool
  | .response body => body.length = sizeOf r.resp
  | .error status => status ≠ 0

/-- One round of the loop of `data_received`. -/
def handle (s : Connection) (o : Outcome) : Connection :=
  match s.curHandler with
  | .headerDataReceived =>
    if headerSize ≤ s.buf.length then
      let hdr := Header.unpack (s.buf.take headerSize)
      let s := { s with curHdr := hdr, buf := s.buf.drop headerSize }
      match opcodeHandlers hdr.opcode with
      | some r => { s with curHandler := .rpc r }
      | none => s.sendMsg hdr.opcode emptyStruct [0, 0, 0, 0] enosys
    else s
  | .rpc r =>
    if sizeOf r.req ≤ s.buf.length then
      if r.receivesFd then
        -- the message that the manager is ready for the descriptor
        sendMsg { s with buf := s.buf.drop (sizeOf r.req), curHandler := .receiveFd r } s.curHdr.opcode
          emptyStruct [0, 0, 0, 0] 0
      else if fits r o then respond { s with buf := s.buf.drop (sizeOf r.req) } r o
      else s
    else s
  | .receiveFd _ => s

/-- `recvmsg` in the loop of `receive_fd`, and the rest of the handler. -/
def recvmsg (s : Connection) (o : Outcome) : Connection :=
  match s.curHandler, s.toManager with
  | .receiveFd r, b :: bs =>
    if b.fd then if fits r o then respond { s with toManager := bs } r o else s
    else respond { s with toManager := bs } r (.error einval)
  | _, _ => s

/-- `data_received` with a chunk of `n` bytes; descriptors that come with them are lost. -/
def dataReceived (s : Connection) (n : ℕ) : Connection :=
  match s.curHandler with
  | .receiveFd _ => s
  | _ => { s with buf := s.buf ++ (s.toManager.take n).map (·.byte), toManager := s.toManager.drop n }

def step (s : Connection) : Action → Connection
  | .call c req => s.startCall c req
  | .client => s.clientStep
  | .dataReceived n => s.dataReceived n
  | .handle o => s.handle o
  | .recvmsg o => s.recvmsg o

end Connection

end Nica.Libnica.Wire

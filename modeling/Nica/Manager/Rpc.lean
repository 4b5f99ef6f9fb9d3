import Nica.Libnica.Wire
import Nica.Manager.Protocol

/-!
# The manager's parser (`manager/nica_manager.py`)

`NICAManagerProtocolBase`: the bytes that arrive on a connection are collected in `buf`, and the loop of
`data_received` calls `cur_handler` on them, which is `header_data_received` or a handler that `rpc` has
wrapped, until one of them has not enough bytes.

`Protocol` is the parser for any table of handlers.  `clientHandlers` and `vmHandlers` are the tables of the
two protocols; their handlers are those of `Manager.Client` and `Manager.Hypervisor`, with the structures that
`rpc` gives them.

An exception that leaves a handler ends `data_received`; the event loop reports it, and the connection goes
on.  What `recvmsg` finds in `receive_fd` is given by `descriptors`.
-/

namespace Nica.Manager.Rpc

open Nica.Lib Nica.Libnica
open Nica.Libnica.Wire (Byte Member Header headerSize emptyStruct opcodeHandlers enosys member16)

/-! ### Messages -/

/-- What `send_msg` writes; the length is that of the structure. -/
def message (opcode : BitVec 16) (members : List Member) (body : List Byte) (status : BitVec 16) :
    List Byte :=
  Header.pack ⟨opcode, BitVec.ofNat 16 (Wire.sizeOf members), 0, status⟩ ++ body

/-- `send_msg` of an `EMPTY_TUPLE`. -/
def emptyMessage (opcode status : BitVec 16) : List Byte := message opcode emptyStruct [0, 0, 0, 0] status

/-! ### The parser -/

/-- What a wrapped handler comes to: the messages that it sends, whether an exception leaves it, and its effect. -/
structure Served (σ : Type) where
  sent : List (List Byte)
  raises : Bool
  env : σ

/-- An entry of `opcode_handlers`: the size of the structure `req`, and the rest of `func_wrapper`. -/
structure Entry (σ : Type) where
  size : ℕ
  serve : List Byte → σ → Served σ

/-- The object of a connection, with what it shares with the others (`env`).  `curHandler` is
`header_data_received` or the handler of an opcode.  `sent`, `handled` and `escaped` are ghost state: the
messages written, the handlers executed with their arguments, and the number of exceptions that left one. -/
structure Protocol (σ : Type) where
  buf : List Byte
  curHandler : Option (BitVec 16)
  curHdr : Option Header
  env : σ
  sent : List (List Byte)
  handled : List (BitVec 16 × List Byte)
  escaped : ℕ

/-- One call of `cur_handler`: it returns `True` or `False`, or an exception leaves it. -/
inductive Round (σ : Type)
  | again (p : Protocol σ)
  | enough (p : Protocol σ)
  | raised (p : Protocol σ)

namespace Protocol

variable {σ : Type} (table : BitVec 16 → Option (Entry σ))

/-- A new connection. -/
def init (env : σ) : Protocol σ := ⟨[], none, none, env, [], [], 0⟩

/-- `send_msg`. -/
def sendMsg (p : Protocol σ) (bs : List Byte) : Protocol σ := { p with sent := p.sent ++ [bs] }

/-- The header in the buffer. -/
def header (p : Protocol σ) : Header := Header.unpack (p.buf.take headerSize)

/-- `self.cur_hdr = self.unpack_chunk(self.hdr)`. -/
def takeHeader (p : Protocol σ) : Protocol σ :=
  { p with buf := p.buf.drop headerSize, curHdr := some p.header }

/-- `header_data_received`; the body of a request with an unknown opcode stays in the buffer. -/
def headerDataReceived (p : Protocol σ) : Round σ :=
  if headerSize ≤ p.buf.length then
    match table p.header.opcode with
    | some _ => .again { p.takeHeader with curHandler := some p.header.opcode }
    | none => .again (p.takeHeader.sendMsg (emptyMessage p.header.opcode enosys))
  else .enough { p with curHdr := none }

/-- What the handler comes to with the arguments in the buffer. -/
def served (p : Protocol σ) (e : Entry σ) : Served σ := e.serve (p.buf.take e.size) p.env

/-- The handler was called. -/
def answer (p : Protocol σ) (opcode : BitVec 16) (e : Entry σ) : Protocol σ :=
  { p with
    buf := p.buf.drop e.size
    env := (p.served e).env
    sent := p.sent ++ (p.served e).sent
    handled := p.handled ++ [(opcode, p.buf.take e.size)] }

/-- `func_wrapper` of the handler of an opcode; an exception leaves `cur_handler` as it is. -/
def funcWrapper (opcode : BitVec 16) (e : Entry σ) (p : Protocol σ) : Round σ :=
  if e.size ≤ p.buf.length then
    if (p.served e).raises then .raised { p.answer opcode e with escaped := p.escaped + 1 }
    else .again { p.answer opcode e with curHandler := none }
  else .enough p

/-- `self.cur_handler(self)`. -/
def round (p : Protocol σ) : Round σ :=
  match p.curHandler with
  | none => headerDataReceived table p
  | some opcode =>
    match table opcode with
    | some e => funcWrapper opcode e p
    | none => .enough p

/-- The loop of `data_received`. -/
def loop : ℕ → Protocol σ → Protocol σ
  | 0, p => p
  | n + 1, p =>
    match round table p with
    | .again p' => loop n p'
    | .enough p' => p'
    | .raised p' => p'

/-- A bound on the rounds of the loop: a handler consumes its structure, which may be empty, and the header
of the next request comes before the next handler. -/
def rounds (p : Protocol σ) : ℕ := 2 * p.buf.length + (if p.curHandler.isSome then 1 else 0)

/-- `data_received`. -/
def dataReceived (p : Protocol σ) (data : List Byte) : Protocol σ :=
  let p := { p with buf := p.buf ++ data }
  loop table (p.rounds + 1) p

end Protocol

/-! ### The tables -/

/-- `opcode_handlers` of `NICAManagerHypervisorProtocol`. -/
def hypervisorHandlers (opcode : BitVec 16) : Option Wire.Rpc :=
  if opcode = 1 then some ⟨[.chars 6, .u32], emptyStruct, false⟩
  else if opcode = 2 then some ⟨[], emptyStruct, false⟩
  else if opcode = 3 then some ⟨[], [.chars 16], false⟩
  else if opcode = 4 then some ⟨[.chars 16, .u32], [.u32], false⟩
  else if opcode = 5 then some ⟨[.u32], emptyStruct, false⟩
  else if opcode = 6 then some ⟨[.u32, .u16, .u32], [.u32, .u32], false⟩
  else if opcode = 7 then some ⟨[.u32, .u16, .u32], emptyStruct, false⟩
  else if opcode = 8 then some ⟨[.u32, .u32], [.u32], false⟩
  else if opcode = 9 then some ⟨[.u32], emptyStruct, false⟩
  else if opcode = 10 then some ⟨[.u32, .u32], emptyStruct, false⟩
  else if opcode = 11 then some ⟨[.u32, .u32, .u32, .u32], [.u32], false⟩
  else none

/-- A 32-bit member, low byte first. -/
def bytes32 (x : BitVec 32) : List Byte :=
  [x.extractLsb' 0 8, x.extractLsb' 8 8, x.extractLsb' 16 8, x.extractLsb' 24 8]

/-- The 32-bit member at an offset. -/
def member32 (bs : List Byte) (offset : ℕ) : BitVec 32 :=
  bs.getD (offset + 3) 0 ++ bs.getD (offset + 2) 0 ++ bs.getD (offset + 1) 0 ++ bs.getD offset 0

/-- The number of `n` bytes, the first of which counts most: `UUID(bytes=...)`, or a MAC address. -/
def bigEndian (n : ℕ) (bs : List Byte) (offset : ℕ) : ℕ :=
  ((bs.drop offset).take n).foldl (fun acc b => acc * 256 + b.toNat) 0

def uuidAt (bs : List Byte) (offset : ℕ) : Uuid := BitVec.ofNat 128 (bigEndian 16 bs offset)

/-- The arguments of the handlers of a client, as `unpack_chunk` finds them. -/
def clientRequest (opcode : BitVec 16) (bs : List Byte) (fd : Descriptor) : ClientRequest :=
  if opcode = 1 then .ikCreate (bs.take 16) (uuidAt bs 16)
  else if opcode = 2 then .ikDestroy (member32 bs 0)
  else if opcode = 3 then .ikRpc (member32 bs 0) (member32 bs 4) (member32 bs 8) (member32 bs 12)
  else if opcode = 4 then .ikAttach (member32 bs 0) fd
  else if opcode = 5 then .ikDetach (member32 bs 0) fd
  else if opcode = 6 then .crCreate (member32 bs 0) (member32 bs 4)
  else if opcode = 7 then .crDestroy (member32 bs 0)
  else if opcode = 8 then .crUpdateCredits (member32 bs 0) (member32 bs 4)
  else .ikCreateAttrs (member32 bs 0) ((bs.drop 4).take 16) (uuidAt bs 20) (member32 bs 36)

/-- The arguments of the handlers of a VM. -/
def vmRequest (opcode : BitVec 16) (bs : List Byte) : VmRequest :=
  if opcode = 1 then .configureCustomRing (BitVec.ofNat 48 (bigEndian 6 bs 0)) (member32 bs 8)
  else if opcode = 2 then .numRings
  else if opcode = 3 then .getUuids
  else if opcode = 4 then .allocateIkernel (uuidAt bs 0) (member32 bs 16)
  else if opcode = 5 then .deallocateIkernel (member32 bs 0)
  else if opcode = 6 then .attach (member32 bs 0) (member16 bs 4) (member32 bs 8)
  else if opcode = 7 then .detach (member32 bs 0) (member16 bs 4) (member32 bs 8)
  else if opcode = 8 then .crCreate (member32 bs 0) (member32 bs 4)
  else if opcode = 9 then .crDestroy (member32 bs 0)
  else if opcode = 10 then .updateCredits (member32 bs 0) (member32 bs 4)
  else .invokeIkernelRpc (member32 bs 0) (member32 bs 4) (member32 bs 8) (member32 bs 12)

/-- The values of `errno`. -/
def code : Errno → BitVec 16
  | .EPERM => 1
  | .ENOENT => 2
  | .EINTR => 4
  | Errno.EIO => 5
  | Errno.ENXIO => 6
  | .EBADF => 9
  | .EAGAIN => 11
  | .ENOMEM => 12
  | .EFAULT => 14
  | .ENODEV => 19
  | .EINVAL => 22
  | .ENOSYS => 38
  | .ENOTSOCK => 88
  | .EADDRINUSE => 98
  | .ETIMEDOUT => 110

/-- `strct.pack` of a response: its members are 32-bit words, or the four words of a UUID. -/
def packResponse (members : List Member) (values : List ℤ) : Option (List Byte) :=
  if Wire.sizeOf members = 4 * values.length ∧ ∀ x ∈ values, 0 ≤ x ∧ x < 2 ^ 32 then
    some (values.flatMap fun x => bytes32 (BitVec.ofInt 32 x))
  else none

/-- What the connections share: the manager, and the descriptors that will be passed on this one. -/
structure Env where
  mgr : State
  descriptors : List Descriptor

/-- The end of `func_wrapper`.  The header is written before the response is packed. -/
def respond (opcode : BitVec 16) (resp : List Member) : Reply → List (List Byte) × Bool
  | .sent ⟨some errno, _⟩ => ([emptyMessage opcode (code errno)], false)
  | .sent ⟨none, values⟩ =>
    match packResponse resp values with
    | some body => ([message opcode resp body 0], false)
    | none => ([message opcode resp [] 0], true)
  | .silent _ => ([], true)

/-- `func_wrapper` for the connection `c`, once the arguments are there; `receive_fd` sends a message of its
own. -/
def serve (c : ℕ) (opcode : BitVec 16) (r : Wire.Rpc) (handler : List Byte → Descriptor → Mgr Response)
    (args : List Byte) (env : Env) : Served Env :=
  let fd := env.descriptors.head?.getD .missing
  let (outcome, s) := (handler args fd).exec { env.mgr with caller := c }
  let (response, raises) := respond opcode r.resp (reply outcome)
  { sent := if r.receivesFd then emptyMessage opcode 0 :: response else response
    raises := raises
    env := ⟨s, if r.receivesFd then env.descriptors.tail else env.descriptors⟩ }

/-- The table of the connection `c` of a client. -/
def clientHandlers (c : ℕ) (opcode : BitVec 16) : Option (Entry Env) :=
  (opcodeHandlers opcode).map fun (r : Wire.Rpc) =>
    ⟨Wire.sizeOf r.req, serve c opcode r fun args fd => Client.handler (clientRequest opcode args fd)⟩

/-- The table of the connection `c` of a VM. -/
def vmHandlers (c : ℕ) (opcode : BitVec 16) : Option (Entry Env) :=
  (hypervisorHandlers opcode).map fun (r : Wire.Rpc) =>
    ⟨Wire.sizeOf r.req, serve c opcode r fun args _ => Hypervisor.handler (vmRequest opcode args)⟩

end Nica.Manager.Rpc

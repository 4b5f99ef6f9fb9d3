import Nica.Lib.Run
import Nica.Manager.Netdev

/-!
# The manager's protocols (`manager/nica_manager.py`)

The handlers of `NICAManagerProtocol` (clients) and of `NICAManagerHypervisorProtocol` (VMs), the `rpc`
decorator that turns their results and exceptions into a reply, and the manager as a machine: each step
is a new connection, a request on a connection, the loss of a connection, or the shutdown.

A handler returns the tuple of the source: a status and the values of the response.  An exception that
`rpc` does not catch ends the request without a reply.
-/

namespace Nica.Manager

open Nica.Lib

/-- The tuple that a handler returns. -/
structure Response where
  status : Option Errno
  values : List ℤ
deriving DecidableEq

/-- `(0, ...)`. -/
def Response.ok (values : List ℤ) : Response := ⟨none, values⟩

/-- `(errno, )`. -/
def Response.error (errno : Errno) : Response := ⟨some errno, []⟩

/-- What the socket of an attach or detach request turns out to be: `receive_fd` wants one descriptor, and
`flow_from_fd` asks its name. -/
inductive Descriptor
  | missing
  | notSocket
  | bound (flow : Flow)
deriving DecidableEq

/-- Requests of the clients. -/
inductive ClientRequest
  | ikCreate (netdev : List (BitVec 8)) (uuid : Uuid)
  | ikDestroy (ikernelHandle : BitVec 32)
  | ikRpc (ikernelHandle address value write : BitVec 32)
  | ikAttach (ikernelHandle : BitVec 32) (fd : Descriptor)
  | ikDetach (ikernelHandle : BitVec 32) (fd : Descriptor)
  | crCreate (ikernelHandle qpNum : BitVec 32)
  | crDestroy (ringId : BitVec 32)
  | crUpdateCredits (ringId maxMsn : BitVec 32)
  | ikCreateAttrs (size : BitVec 32) (netdev : List (BitVec 8)) (uuid : Uuid) (logDramSize : BitVec 32)
deriving DecidableEq

/-- Requests of the VMs. -/
inductive VmRequest
  | configureCustomRing (mac : BitVec 48) (ipAddr : Ip)
  | numRings
  | getUuids
  | allocateIkernel (uuid : Uuid) (logDramSize : BitVec 32)
  | deallocateIkernel (ikernelId : BitVec 32)
  | attach (flowIp : Ip) (flowPort : BitVec 16) (ikernelId : BitVec 32)
  | detach (flowIp : Ip) (flowPort : BitVec 16) (ikernelId : BitVec 32)
  | invokeIkernelRpc (ikernelId address value write : BitVec 32)
  | crCreate (ikernelId qpNum : BitVec 32)
  | crDestroy (ringId : BitVec 32)
  | updateCredits (ringId msnMax : BitVec 32)
deriving DecidableEq

/-- A handle as a Python integer. -/
def handle (h : BitVec 32) : ℤ := h.toNat

/-- The protocol object whose request is handled changes. -/
def State.modifyConn (s : State) (f : Conn → Conn) : State :=
  { s with conns := Function.update s.conns s.caller (f (s.conns s.caller)) }

/-- `self`. -/
def self : Mgr Conn := do
  let s ← get
  return s.conns s.caller

/-- `self.ikernels.add`. -/
def addHeld (x : Held) : Mgr Unit :=
  modify (fun s => s.modifyConn (fun conn => { conn with ikernels := conn.ikernels.insert x }))

/-- `self.ikernels.remove`. -/
def removeHeld (x : Held) : Mgr Unit := do
  if x ∉ (← self).ikernels then throw .keyError
  modify (fun s => s.modifyConn (fun conn => { conn with ikernels := remove conn.ikernels x }))

/-- `self.custom_ring_ikernels[ring_id] = ikernel`. -/
def addRing (ring : ℤ) (r : Ref) : Mgr Unit :=
  modify (fun s => s.modifyConn (fun conn =>
    { conn with customRingIkernels := conn.customRingIkernels.insert ring r }))

/-- `del self.custom_ring_ikernels[ring_id]`. -/
def delRing (ring : ℤ) : Mgr Unit := do
  if ring ∉ (← self).customRingIkernels then throw .keyError
  modify (fun s => s.modifyConn (fun conn =>
    { conn with customRingIkernels := conn.customRingIkernels.erase ring }))

/-! ### Clients -/

/-- The bounds of the bytes that follow the first byte of a character in UTF-8; there are no overlong forms
and no surrogates. -/
def continuation (b : BitVec 8) : Option (List (BitVec 8 × BitVec 8)) :=
  if b < 0x80 then some []
  else if 0xc2 ≤ b ∧ b ≤ 0xdf then some [(0x80, 0xbf)]
  else if b = 0xe0 then some [(0xa0, 0xbf), (0x80, 0xbf)]
  else if b = 0xed then some [(0x80, 0x9f), (0x80, 0xbf)]
  else if 0xe1 ≤ b ∧ b ≤ 0xef then some [(0x80, 0xbf), (0x80, 0xbf)]
  else if b = 0xf0 then some [(0x90, 0xbf), (0x80, 0xbf), (0x80, 0xbf)]
  else if b = 0xf4 then some [(0x80, 0x8f), (0x80, 0xbf), (0x80, 0xbf)]
  else if 0xf1 ≤ b ∧ b ≤ 0xf3 then some [(0x80, 0xbf), (0x80, 0xbf), (0x80, 0xbf)]
  else none

/-- `bytes.decode()` does not raise, after a character of which `expected` is missing. -/
def decodesFrom (expected : List (BitVec 8 × BitVec 8)) : List (BitVec 8) → Bool
  | [] => expected.isEmpty
  | b :: bs =>
    match expected with
    | (lo, hi) :: rest => lo ≤ b ∧ b ≤ hi ∧ decodesFrom rest bs
    | [] => (continuation b).any fun expected => decodesFrom expected bs

/-- `bytes.decode()` does not raise. -/
def decodes (bs : List (BitVec 8)) : Bool := decodesFrom [] bs

namespace Client

/-- The body that `ik_create` and `ik_create_attrs` share. -/
def create (netdev : List (BitVec 8)) (uuid : Uuid) (logDramSize : ℕ) (header : List ℤ) :
    Mgr Response := do
  -- the name ends at the first zero byte
  if !decodes (netdev.takeWhile (fun b => b ≠ 0)) then throw .unicodeDecodeError
  if netdev.takeWhile (fun b => b ≠ 0) ≠ (← get).ifname then return .error .ENODEV
  let r ← Manager.ikCreate uuid logDramSize none
  addHeld (.object r)
  return .ok (header ++ [((← get).heap r).ikernelId])

/-- `ik_create`. -/
def ikCreate (netdev : List (BitVec 8)) (uuid : Uuid) : Mgr Response :=
  create netdev uuid 0 []

/-- `ik_create_attrs`. -/
def ikCreateAttrs (netdev : List (BitVec 8)) (uuid : Uuid) (logDramSize : ℕ) : Mgr Response :=
  create netdev uuid logDramSize [8]

/-- `ik_destroy`: any registered handle is destroyed; only the last line asks whose it is. -/
def ikDestroy (ikernelHandle : ℤ) : Mgr Response :=
  tryCatch
    (do
      match (← get).ikernels.lookup ikernelHandle with
      | none => throw .keyError
      | some r =>
        destroy r
        modify (fun s => { s with ikernels := s.ikernels.erase ikernelHandle })
        removeHeld (.object r)
        return .ok [0])
    (fun e => if e = .keyError then return .error .ENOENT else throw e)

/-- `ik_rpc`. -/
def ikRpc (ikernelHandle : ℤ) (address value : BitVec 32) (write : Bool) : Mgr Response := do
  let value ← Manager.ikRpc ikernelHandle address value write
  return .ok [value.toNat]

/-- `receive_fd` and `flow_from_fd`. -/
def receiveFlow (fd : Descriptor) : Mgr Flow :=
  match fd with
  | .missing => throw (exception .EINVAL)
  | .notSocket => throw (exception .ENOTSOCK)
  | .bound flow => return flow

/-- `ik_attach`. -/
def ikAttach (ikernelHandle : ℤ) (fd : Descriptor) : Mgr Response := do
  let flow ← receiveFlow fd
  let (h2nFlowId, n2hFlowId) ← Manager.ikAttach ikernelHandle flow
  return .ok [h2nFlowId.toNat, n2hFlowId.toNat]

/-- `ik_detach`; the errors of the descriptor become its own status, as `rpc` would make them. -/
def ikDetach (ikernelHandle : ℤ) (fd : Descriptor) : Mgr Response := do
  let flow ← receiveFlow fd
  Manager.ikDetach ikernelHandle flow
  return .ok [0]

/-- `cr_create`. -/
def crCreate (ikernelHandle : ℤ) (qpNum : BitVec 32) : Mgr Response := do
  match (← get).ikernels.lookup ikernelHandle with
  | none => return .error .ENOENT
  | some r =>
    let ring ← ikernelCrCreate r qpNum
    addRing ring r
    return .ok [ring]

/-- `cr_destroy`. -/
def crDestroy (ring : ℤ) : Mgr Response := do
  match (← self).customRingIkernels.lookup ring with
  | none => return .error .ENOENT
  | some r =>
    ikernelCrDestroy r ring
    delRing ring
    return .ok [0]

/-- `cr_update_credits`. -/
def crUpdateCredits (ring : ℤ) (maxMsn : ℕ) : Mgr Response := do
  match (← self).customRingIkernels.lookup ring with
  | none => return .error .ENOENT
  | some _ =>
    updateCredits ring maxMsn false
    return .ok [0]

/-- The handler of a request. -/
def handler : ClientRequest → Mgr Response
  | .ikCreate netdev uuid => ikCreate netdev uuid
  | .ikDestroy h => ikDestroy (handle h)
  | .ikRpc h address value write => ikRpc (handle h) address value (write ≠ 0)
  | .ikAttach h fd => ikAttach (handle h) fd
  | .ikDetach h fd => ikDetach (handle h) fd
  | .crCreate h qpNum => crCreate (handle h) qpNum
  | .crDestroy ring => crDestroy (handle ring)
  | .crUpdateCredits ring maxMsn => crUpdateCredits (handle ring) maxMsn.toNat
  | .ikCreateAttrs _ netdev uuid logDramSize => ikCreateAttrs netdev uuid logDramSize.toNat

end Client

/-! ### VMs -/

namespace Hypervisor

/-- `configure_custom_ring`. -/
def configureCustomRing (mac : BitVec 48) (ipAddr : Ip) : Mgr Response := do
  modify (fun s => s.modifyConn (fun conn =>
    { conn with customRingMac := .text mac, customRingIp := some ipAddr }))
  return .ok [0]

/-- `num_rings`. -/
def numRings : Mgr Response := do
  let num ← access (fun _ hw => hw)
  return .ok [num.toNat]

/-- `get_uuids`: four words of the hardware. -/
def getUuids : Mgr Response := do
  let w₀ ← access (fun _ hw => hw)
  let w₁ ← access (fun _ hw => hw)
  let w₂ ← access (fun _ hw => hw)
  let w₃ ← access (fun _ hw => hw)
  return .ok [w₀.toNat, w₁.toNat, w₂.toNat, w₃.toNat]

/-- The traffic class of a connection. -/
def trafficClass (conn : Conn) : Option (Fin 3) :=
  match conn.kind with
  | .client => none
  | .hypervisor tc => tc

/-- `allocate_ikernel`: the connection keeps the id, not the object. -/
def allocateIkernel (uuid : Uuid) (logDramSize : ℕ) : Mgr Response := do
  let r ← Manager.ikCreate uuid logDramSize (trafficClass (← self))
  let id := ((← get).heap r).ikernelId
  addHeld (.id id)
  return .ok [id]

/-- `deallocate_ikernel`: the status of `NICA.ik_destroy` is dropped. -/
def deallocateIkernel (ikernelId : ℤ) : Mgr Response := do
  if .id ikernelId ∉ (← self).ikernels then return .error .ENOENT
  let _ ← Manager.ikDestroy ikernelId
  removeHeld (.id ikernelId)
  return .ok [0]

/-- `ikernel_id not in self.ikernels`. -/
def checkIkernel (ikernelId : ℤ) : Mgr Unit := do
  if .id ikernelId ∉ (← self).ikernels then throw (exception .ENOENT)

/-- `attach`. -/
def attach (flow : Flow) (ikernelId : ℤ) : Mgr Response := do
  checkIkernel ikernelId
  if some flow.ip ≠ (← self).customRingIp then throw (exception .EPERM)
  let (h2nFlowId, n2hFlowId) ← Manager.ikAttach ikernelId flow
  return .ok [h2nFlowId.toNat, n2hFlowId.toNat]

/-- `detach`. -/
def detach (flow : Flow) (ikernelId : ℤ) : Mgr Response := do
  checkIkernel ikernelId
  Manager.ikDetach ikernelId flow
  return .ok [0]

/-- `invoke_ikernel_rpc`. -/
def invokeIkernelRpc (ikernelId : ℤ) (address value : BitVec 32) (write : Bool) : Mgr Response := do
  checkIkernel ikernelId
  let ret ← Manager.ikRpc ikernelId address value write
  return .ok [ret.toNat]

/-- `cr_create`: the ring is not added to the rings of the ikernel. -/
def crCreate (ikernelId : ℤ) (qpNum : BitVec 32) : Mgr Response := do
  checkIkernel ikernelId
  let r ← getIkernel ikernelId
  let conn ← self
  let ring ← Manager.crCreate r qpNum (some conn.customRingMac) conn.customRingIp
  addRing ring r
  return .ok [ring]

/-- `check_ring_id`. -/
def checkRingId (ring : ℤ) : Mgr Unit := do
  if ring ∉ (← self).customRingIkernels then throw (exception .ENOENT)

/-- `cr_destroy`. -/
def crDestroy (ring : ℤ) : Mgr Response := do
  checkRingId ring
  Manager.crDestroy ring
  delRing ring
  return .ok [0]

/-- `update_credits`. -/
def updateCredits (ring : ℤ) (msnMax : ℕ) : Mgr Response := do
  checkRingId ring
  Manager.updateCredits ring msnMax false
  return .ok [0]

/-- The handler of a request. -/
def handler : VmRequest → Mgr Response
  | .configureCustomRing mac ipAddr => configureCustomRing mac ipAddr
  | .numRings => numRings
  | .getUuids => getUuids
  | .allocateIkernel uuid logDramSize => allocateIkernel uuid logDramSize.toNat
  | .deallocateIkernel id => deallocateIkernel (handle id)
  | .attach ip port id => attach ⟨ip, port⟩ (handle id)
  | .detach ip port id => detach ⟨ip, port⟩ (handle id)
  | .invokeIkernelRpc id address value write =>
    invokeIkernelRpc (handle id) address value (write ≠ 0)
  | .crCreate id qpNum => crCreate (handle id) qpNum
  | .crDestroy ring => crDestroy (handle ring)
  | .updateCredits ring msnMax => updateCredits (handle ring) msnMax.toNat

end Hypervisor

/-! ### The manager -/

/-- What the peer gets: a response, or nothing because of an exception that `rpc` lets through. -/
inductive Reply
  | sent (response : Response)
  | silent (e : Exn)
deriving DecidableEq

/-- The decorator `rpc`.  `int(exc.errno)` of an `OSError` without errno raises a `TypeError`. -/
def reply : Except Exn Response → Reply
  | .ok response => .sent response
  | .error .timeoutError => .sent (.error .ETIMEDOUT)
  | .error (.osError (some errno)) => .sent (.error errno)
  | .error (.osError none) => .silent .typeError
  | .error e => .silent e

/-- `connection_lost`: the elements of `self.ikernels` are destroyed as objects. -/
def connectionLost : Mgr Unit := do
  (← self).ikernels.forM fun x =>
    match x with
    | .object r => destroy r
    | .id _ => throw .attributeError

/-- A new iteration order for every set and dictionary that is iterated. -/
structure Order where
  ikernelIds : List ℤ
  customRingIds : List ℤ
  flowsOf : Ref → List Flow
  customRingsOf : Ref → List ℤ
  held : ℕ → List Held
  ikernels : Dict ℤ Ref

/-- The order `new`, if it is one of the set `xs`. -/
def reorder {α : Type} [DecidableEq α] (new xs : List α) : List α :=
  if new.Perm xs then new else xs

/-- What happens next, with the outcomes of the commands to the hardware. -/
inductive Action
  | connect (kind : Kind)
  | client (c : ℕ) (req : ClientRequest) (hw : List Outcome)
  | vm (c : ℕ) (req : VmRequest) (hw : List Outcome)
  | connectionLost (c : ℕ) (hw : List Outcome)
  | shutdown (hw : List Outcome)
  | rehash (order : Order)

/-- The state in which the program of an action starts. -/
def State.enter (s : State) (c : ℕ) (hw : List Outcome) : State :=
  { s with caller := c, hw := { s.hw with outcomes := hw } }

/-- A new protocol object. -/
def newConn (kind : Kind) : Conn :=
  { kind := kind, isOpen := true, ikernels := [], customRingIkernels := ∅, customRingMac := .bytes,
    customRingIp := none }

/-- A set may be iterated in another order after any step. -/
def State.rehash (s : State) (order : Order) : State :=
  { s with
    ikernelIds := { s.ikernelIds with idsFree := reorder order.ikernelIds s.ikernelIds.idsFree }
    customRingIds :=
      { s.customRingIds with idsFree := reorder order.customRingIds s.customRingIds.idsFree }
    flowsOf := fun r => reorder (order.flowsOf r) (s.flowsOf r)
    customRingsOf := fun r => reorder (order.customRingsOf r) (s.customRingsOf r)
    conns := fun c => { s.conns c with ikernels := reorder (order.held c) (s.conns c).ikernels }
    ikernels := if order.ikernels.entries.Perm s.ikernels.entries then order.ikernels else s.ikernels }

/-- The connection is there and of the kind whose handlers serve the request. -/
def State.serves (s : State) (c : ℕ) (client : Bool) : Bool :=
  (s.conns c).isOpen ∧ ((s.conns c).kind = .client ↔ client)

/-- One step of the manager; nothing happens on a closed connection or after the shutdown. -/
def step (s : State) (a : Action) : State :=
  if s.running then
    match a with
    | .connect kind =>
      { s with
        conns := Function.update s.conns s.connections (newConn kind)
        connections := s.connections + 1 }
    | .client c req hw =>
      if s.serves c true then ((Client.handler req).exec (s.enter c hw)).2 else s
    | .vm c req hw =>
      if s.serves c false then ((Hypervisor.handler req).exec (s.enter c hw)).2 else s
    | .connectionLost c hw =>
      if (s.conns c).isOpen then
        (connectionLost.exec (s.enter c hw)).2.modifyConn (fun conn => { conn with isOpen := false })
      else s
    | .shutdown hw => { (shutdown.exec (s.enter s.caller hw)).2 with running := false }
    | .rehash order => s.rehash order
  else s

/-- The reply to a client's request. -/
def clientReply (s : State) (c : ℕ) (req : ClientRequest) (hw : List Outcome) : Reply :=
  reply ((Client.handler req).exec (s.enter c hw)).1

/-- What `init_nica` finds. -/
structure Config where
  ifname : List (BitVec 8)
  ipAddr : Ip
  mac : BitVec 48
  uuid : Uuid
  numRings : BitVec 32

/-- `closed`, for the connections that are not made yet. -/
def noConn : Conn := { newConn .client with isOpen := false }

/-- The manager when it starts to serve. -/
def init (cfg : Config) : State where
  ifname := cfg.ifname
  ipAddr := cfg.ipAddr
  customRingMac := cfg.mac
  uuids := [cfg.uuid]
  ikernelIds := .init (-1) (some 1024)
  customRingIds := .init 0 (some cfg.numRings.toNat)
  ikernels := ∅
  flows := ∅
  freeList := [(0, 2 ^ 31)]
  objects := 0
  heap := fun _ => ⟨0, 0, 0, 0, 0, false, 0⟩
  flowsOf := fun _ => []
  customRingsOf := fun _ => []
  hw :=
    { h2n := ∅, n2h := ∅, ringContexts := ∅, mmu := [], gateway := [], credits := [], outcomes := [] }
  connections := 0
  conns := fun _ => noConn
  running := true
  caller := 0
  flowCount := 0
  flowLog := fun _ => ⟨⟨0, 0⟩, 0, 0⟩
  rings := ∅
  ringCount := 0
  ringLog := fun _ => ⟨0, 0, 0, 0⟩

/-- The state after the actions `acts`. -/
abbrev runFrom (s : State) (acts : List Action) : State := Lib.run step s acts

end Nica.Manager

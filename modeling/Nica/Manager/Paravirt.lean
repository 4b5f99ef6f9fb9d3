import Nica.Manager.Rpc

/-!
# The para-virtual interface (`manager/nica_manager.py`)

`NetdevParavirt`, the manager's device inside a VM: each operation is one `RPC.invoke`, which writes the request
to the virtio-serial port of the VM and reads the response.  The other end of the port is the
`NICAManagerHypervisorProtocol` of the connection.

The port is opened without a buffer, so `read` returns what one system call finds: at most the bytes that it is
asked for, and maybe fewer.
-/

namespace Nica.Manager.Paravirt

open Nica.Lib Nica.Libnica Nica.Manager.Rpc
open Nica.Libnica.Wire (Byte Member Header headerSize emptyStruct bytes16)

/-- `n` bytes of a number, the first of which counts most: `uuid.bytes` and `str_to_mac`. -/
def bytesBE : ℕ → ℕ → List Byte
  | 0, _ => []
  | n + 1, x => bytesBE n (x / 256) ++ [BitVec.ofNat 8 x]

/-- The arguments of `invoke`, with the request packed. -/
structure Call where
  opcode : BitVec 16
  structReq : List Member
  req : List Byte
  structResp : List Member

/-- The operations of `NetdevParavirt`; native alignment puts zeros between the members. -/
def call : VmRequest → Call
  | .configureCustomRing mac ipAddr =>
    ⟨1, [.chars 6, .u32], bytesBE 6 mac.toNat ++ [0, 0] ++ bytes32 ipAddr, emptyStruct⟩
  | .numRings => ⟨2, [], [], [.u32]⟩
  | .getUuids => ⟨3, [], [], [.chars 16]⟩
  | .allocateIkernel uuid logDramSize =>
    ⟨4, [.chars 16, .u32], bytesBE 16 uuid.toNat ++ bytes32 logDramSize, [.u32]⟩
  | .deallocateIkernel ikernelId => ⟨5, [.u32], bytes32 ikernelId, emptyStruct⟩
  | .attach flowIp flowPort ikernelId =>
    ⟨6, [.u32, .u16, .u32], bytes32 flowIp ++ bytes16 flowPort ++ [0, 0] ++ bytes32 ikernelId, [.u32, .u32]⟩
  | .detach flowIp flowPort ikernelId =>
    ⟨7, [.u32, .u16, .u32], bytes32 flowIp ++ bytes16 flowPort ++ [0, 0] ++ bytes32 ikernelId, emptyStruct⟩
  | .crCreate ikernelId qpNum => ⟨8, [.u32, .u32], bytes32 ikernelId ++ bytes32 qpNum, [.u32]⟩
  | .crDestroy ringId => ⟨9, [.u32], bytes32 ringId, emptyStruct⟩
  | .updateCredits ringId msnMax => ⟨10, [.u32, .u32], bytes32 ringId ++ bytes32 msnMax, emptyStruct⟩
  | .invokeIkernelRpc ikernelId address value write =>
    ⟨11, [.u32, .u32, .u32, .u32], bytes32 ikernelId ++ bytes32 address ++ bytes32 value ++ bytes32 write,
      [.u32]⟩

/-- The two ends: `buf` of the VM's object, the bytes in the port that it has not read, and the hypervisor's
object. -/
structure Link where
  buf : List Byte
  port : List Byte
  hypervisor : Protocol Env

/-- A new connection. -/
def Link.init (env : Env) : Link := ⟨[], [], .init env⟩

/-- What an `invoke` comes to: the values of the response, `None` if its bytes are not there, or an exception
with an errno. -/
inductive Result
  | values (body : List Byte)
  | nothing
  | exception (errno : BitVec 16)
deriving DecidableEq

/-- `errno.EPIPE`. -/
def epipe : BitVec 16 := 32

namespace Link

/-- `send_msg`, which writes the header and then the structure; the hypervisor receives both, and what it sends
is in the port. -/
def sendMsg (c : ℕ) (l : Link) (req : Call) : Link :=
  let header := Header.pack ⟨req.opcode, BitVec.ofNat 16 (Wire.sizeOf req.structReq), 1, 0⟩
  let hypervisor := run (Protocol.dataReceived (vmHandlers c)) l.hypervisor [header, req.req]
  { l with
    port := l.port ++ (hypervisor.sent.drop l.hypervisor.sent.length).flatten
    hypervisor := hypervisor }

/-- `self.buf += self.transport.read(n)`, when the system call finds `k` bytes. -/
def read (l : Link) (n k : ℕ) : Link :=
  { l with buf := l.buf ++ l.port.take (min n k), port := l.port.drop (min n k) }

/-- `unpack_chunk`. -/
def unpackChunk (l : Link) (size : ℕ) : Option (List Byte) × Link :=
  if size ≤ l.buf.length then (some (l.buf.take size), { l with buf := l.buf.drop size }) else (none, l)

/-- The header that an `invoke` read, its result, and what it leaves. -/
structure Invoked where
  header : Option Header
  result : Result
  link : Link

/-- `RPC.invoke`; its two reads find `k₁` and `k₂` bytes. -/
def invoke (c : ℕ) (l : Link) (req : Call) (k₁ k₂ : ℕ) : Invoked :=
  match ((l.sendMsg c req).read headerSize k₁).unpackChunk headerSize with
  | (none, l) => ⟨none, .exception epipe, l⟩
  | (some bs, l) =>
    let hdr := Header.unpack bs
    if hdr.length.toNat ≠ Wire.sizeOf req.structResp then ⟨hdr, .exception Wire.einval, l⟩
    else if hdr.opcode ≠ req.opcode then ⟨hdr, .exception Wire.einval, l⟩
    else if hdr.status ≠ 0 then ⟨hdr, .exception hdr.status, l⟩
    else
      match (l.read hdr.length.toNat k₂).unpackChunk (Wire.sizeOf req.structResp) with
      | (some body, l) => ⟨hdr, .values body, l⟩
      | (none, l) => ⟨hdr, .nothing, l⟩

end Link

/-- A call of the VM, and the bytes that its two reads find. -/
structure Action where
  req : VmRequest
  k₁ : ℕ
  k₂ : ℕ

/-- The call on the connection `c`. -/
def invoked (c : ℕ) (l : Link) (a : Action) : Link.Invoked := l.invoke c (call a.req) a.k₁ a.k₂

def step (c : ℕ) (l : Link) (a : Action) : Link := (invoked c l a).link

end Nica.Manager.Paravirt

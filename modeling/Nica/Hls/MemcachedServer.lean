import Nica.Hls.Memcached

/-!
# The memcached ikernel in front of a memcached server

The host runs a memcached server for each ikernel.  It takes the packets that `drop_or_pass` wrote, executes
one at a time and answers each; the answer goes back through `intercept_out`.  The server is not part of the
sources: `Protocol` is its reading and writing of packets, and what it keeps is a value for each key.

The sizes of the caches are not changed by the gateway while the servers run.
-/

namespace Nica.Hls.Memcached

open Nica.Lib

variable {z : Sizes}

/-- A command of the memcached protocol: `update` stands for the commands that change a value in another way
than `set` (`delete`, `append`, `incr`, ...), and `other` for those that change none. -/
inductive Command (z : Sizes)
  | get (key : Key z)
  | set (key : Key z) (value : Value z)
  | update (key : Key z) (f : Option (Value z) → Option (Value z))
  | other

namespace Command

/-- The key that a command asks for. -/
def gotKey : Command z → Option (Key z)
  | .get key => some key
  | _ => none

/-- The key whose value a command changes. -/
def mutatedKey : Command z → Option (Key z)
  | .set key _ => some key
  | .update key _ => some key
  | _ => none

/-- What a command makes of the values. -/
def apply (values : Key z → Option (Value z)) : Command z → Key z → Option (Value z)
  | .set key value => Function.update values key (some value)
  | .update key f => Function.update values key (f (values key))
  | _ => values

end Command

/-- What a server reads and writes: the command in the data of a request, and the answer to a command with
the value that was found. -/
structure Protocol (z : Sizes) where
  decode : List AxiData → Command z
  respond : Metadata → Command z → Option (Value z) → HostPacket

/-- Byte `n` of a message of two beats. -/
def messageByte (b₀ b₁ : AxiData) (n : ℕ) : Byte := if n < 32 then beatByte b₀ n else beatByte b₁ (n - 32)

/-- The format of the protocol, as far as the ikernel relies on it: where a `get` has its key, that the answer
to a `get` that finds a value is `VALUE <key> <flags> <bytes>\r\n<value>` and that no other answer starts with
a `V`. -/
structure Protocol.Lawful (P : Protocol z) : Prop where
  get_letter : ∀ {beats key}, P.decode beats = .get key → ∃ b₀ rest, beats = b₀ :: rest ∧
    beatByte b₀ 8 = 0x67#8 ∧ ∀ i < z.key, beatByte b₀ (12 + i) = byteAt key i
  respond_value : ∀ m key value, ∃ b₀ b₁, (P.respond m (.get key) (some value)).beats = [b₀, b₁] ∧
    beatByte b₀ 8 = 0x56#8 ∧ (∀ i < z.key, beatByte b₀ (14 + i) = byteAt key i) ∧
    ∀ i < z.value, messageByte b₀ b₁ (valuePos z + i) = byteAt value i
  respond_other : ∀ m c found, (c.gotKey = none ∨ found = none) →
    ∃ b₀ rest, (P.respond m c found).beats = b₀ :: rest ∧ beatByte b₀ 8 ≠ 0x56#8
  respond_ikernelId : ∀ m c found, (P.respond m c found).metadata.ikernelId = m.ikernelId

/-- The packets in a sequence of beats, without the last one if it is not complete. -/
def frames : List AxiData → List (List AxiData)
  | [] => []
  | b :: bs =>
    if b.last then [b] :: frames bs
    else
      match frames bs with
      | [] => []
      | f :: fs => (b :: f) :: fs

/-- An answer that the server has sent. -/
structure Answer (z : Sizes) where
  metadata : Metadata
  command : Command z
  found : Option (Value z)

/-- The ikernel and the servers: what they keep and what they have answered. -/
structure Server (z : Sizes) where
  ikernel : State z
  store : BitVec 6 → Key z → Option (Value z)
  answers : List (Answer z)

inductive ServerAct
  | ikernel (a : Act)
  | execute
deriving DecidableEq

/-- The call without a change of the size of a cache. -/
def Act.keepSizes : Act → Act
  | .handleParsedPacket i => .handleParsedPacket { i with write := none }
  | a => a

namespace Server

def init (cells : BitVec 64 → BitVec 512) (logSize : BitVec 6 → ℕ) (ringId : BitVec 6 → RingId)
    (store : BitVec 6 → Key z → Option (Value z)) (packets : List NetPacket) : Server z :=
  ⟨.init cells logSize ringId packets [], store, []⟩

/-- The answer to a packet: on a ring, a beat with the addresses comes first. -/
def answer (P : Protocol z) (s : Server z) (m : Metadata) (beats : List AxiData) : Answer z :=
  let c := P.decode (if m.ringId = 0 then beats else beats.tail)
  ⟨m, c, c.gotKey.bind (s.store m.ikernelId)⟩

/-- The server of the next packet executes it and answers. -/
def execute (P : Protocol z) (s : Server z) : Server z :=
  match s.ikernel.netMetadataOutput[s.answers.length]?,
    (frames s.ikernel.netDataOutput)[s.answers.length]? with
  | some m, some beats =>
    let a := s.answer P m beats
    let response := P.respond a.metadata a.command a.found
    { ikernel := { s.ikernel with
        hostMetadata := s.ikernel.hostMetadata.write response.metadata
        hostData := { s.ikernel.hostData with queue := s.ikernel.hostData.queue ++ response.beats } }
      store := Function.update s.store m.ikernelId (a.command.apply (s.store m.ikernelId))
      answers := s.answers ++ [a] }
  | _, _ => s

def step (setData : List Byte → AxiData) (P : Protocol z) (s : Server z) : ServerAct → Server z
  | .ikernel a => { s with ikernel := Memcached.step setData s.ikernel a.keepSizes }
  | .execute => s.execute P

end Server

end Nica.Hls.Memcached

import Nica.Lib.OnesComplement
import Nica.Lib.Packing
import Nica.Lib.Run
import Nica.Hls.UdpHeaders

/-!
# The checksum unit (`nica/hls/udp.cpp`, `class checksum`)

`checksum_header_and_data` adds the words of a header and then those of its data to accumulators of 32 bits, eight
for the UDP checksum and two for the IP checksum; `finish_checksum` adds the accumulators of a packet up and brings the
carries around.  `checksum_validate` compares the result with what the header says.
-/

namespace Nica.Hls.Checksum

open Nica.Lib
open Nica.Lib.OnesComplement (fold total total_nil total_cons total_append)

/-- `checksum_t`. -/
structure Checksums where
  ipChecksum : BitVec 16
  udpChecksum : BitVec 16
deriving DecidableEq, Repr

/-- An accumulator, and the words that were added to it (ghost). -/
structure Accumulator where
  value : BitVec 32
  added : List (BitVec 16)
  value_eq : value = BitVec.ofNat 32 (total added)

namespace Accumulator

def zero : Accumulator := ⟨0, [], rfl⟩

def add (a : Accumulator) (w : BitVec 16) : Accumulator where
  value := a.value + w.setWidth 32
  added := a.added ++ [w]
  value_eq := by
    rw [a.value_eq, total_append, total_cons, total_nil, Nat.add_zero, BitVec.ofNat_add, BitVec.ofNat_toNat]

/-- Nothing was lost as long as the sum of the words fits. -/
theorem toNat_value {a : Accumulator} (h : total a.added < 2 ^ 32) : a.value.toNat = total a.added := by
  rw [a.value_eq, BitVec.toNat_ofNat, Nat.mod_eq_of_lt h]

end Accumulator

/-- `intermediate_checksum`; `ip_splits` is 2 and `num_splits` is 8. -/
structure Intermediate where
  ipChecksum : Fin 2 → Accumulator
  udpChecksum : Fin 8 → Accumulator

namespace Intermediate

def zero : Intermediate := ⟨fun _ => .zero, fun _ => .zero⟩

def addIp (c : Intermediate) (i : Fin 2) (w : BitVec 16) : Intermediate :=
  { c with ipChecksum := Function.update c.ipChecksum i ((c.ipChecksum i).add w) }

def addUdp (c : Intermediate) (i : Fin 8) (w : BitVec 16) : Intermediate :=
  { c with udpChecksum := Function.update c.udpChecksum i ((c.udpChecksum i).add w) }

end Intermediate

/-! ### The header -/

/-- One accumulator of `ipv4_checksum`: five words of the header, from bit `80 * split` on. -/
def ipSplit (d : BitVec 160) (c : Intermediate) (split : Fin 2) : Intermediate :=
  (List.range 5).foldl (fun c j => c.addIp split (d.extractLsb' (80 * split + 16 * j) 16))
    { c with ipChecksum := Function.update c.ipChecksum split .zero }

/-- `ipv4_checksum`. -/
def ipv4Checksum (hdr : IpHeader) (c : Intermediate) : Intermediate :=
  (List.finRange 2).foldl (ipSplit { hdr with check := 0 }.toBits) c

/-- The words of `udp_pseudoheader_checksum`, in the order of the accumulators. -/
def pseudoheaderWords (hdr : HeaderParser) : List (BitVec 16) :=
  [hdr.ip.saddr.extractLsb' 0 16, hdr.ip.saddr.extractLsb' 16 16, hdr.ip.daddr.extractLsb' 0 16,
    hdr.ip.daddr.extractLsb' 16 16, hdr.ip.protocol ++ 0#8, hdr.udp.length, hdr.udp.source, hdr.udp.dest,
    hdr.udp.length]

/-- Words are added to the accumulators in turn. -/
def addInTurn (ws : List (BitVec 16)) (c : Intermediate) : Intermediate :=
  ws.zipIdx.foldl (fun c w => c.addUdp ⟨w.2 % 8, Nat.mod_lt _ (by decide)⟩ w.1) c

/-- `udp_pseudoheader_checksum`. -/
def udpPseudoheaderChecksum (hdr : HeaderParser) (c : Intermediate) : Intermediate :=
  addInTurn (pseudoheaderWords hdr) { c with udpChecksum := fun _ => .zero }

/-! ### The data -/

/-- A byte of `mask_last_word`, counted from the last one. -/
def maskedByte (word : AxiData) (i : ℕ) : BitVec 8 :=
  if word.last && !word.keep.getLsbD (32 - 1 - i) then 0 else word.data.extractLsb' (8 * i) 8

/-- `mask_last_word`. -/
def maskLastWord (word : AxiData) : BitVec 256 :=
  (List.range 32).foldl (fun result i => setRange result (8 * i) (maskedByte word i)) 0

/-- The words of `checksum_step_data_loop`, in the order of the accumulators. -/
def dataWords (d : BitVec 256) : List (BitVec 16) := (List.range 16).map fun i => d.extractLsb' (16 * i) 16

/-- A beat of the data. -/
def checksumData (c : Intermediate) (word : AxiData) : Intermediate := addInTurn (dataWords (maskLastWord word)) c

/-! ### The result -/

/-- `finish_checksum`. -/
def finishChecksum (cur : Intermediate) : Checksums :=
  let udpResult := (List.finRange 8).foldl (fun r i => r + (cur.udpChecksum i).value) 0
  let ipResult := (List.finRange 2).foldl (fun r i => r + (cur.ipChecksum i).value) 0
  { ipChecksum := (~~~(fold (fold ipResult))).setWidth 16
    udpChecksum := (~~~(fold (fold udpResult))).setWidth 16 }

/-- `checksum_validate`. -/
def checksumValidate (sum : Checksums) (buf : HeaderBuffer) : Bool :=
  let hdr := buf.parse
  sum.ipChecksum == hdr.ip.check && (sum.udpChecksum == hdr.udp.checksum || hdr.udp.checksum == 0)

/-! ### The unit -/

inductive Phase
  | idle
  | data
deriving DecidableEq, Repr

/-- The registers and the streams of the unit; `checksum` is all that was written to the output. -/
structure State where
  hdrIn : Fifo HeaderBuffer
  dataIn : Fifo AxiData
  state : Phase
  curChecksum : Intermediate
  intermediateStream : Fifo Intermediate
  checksum : List Checksums

def State.init : State := ⟨.nil, .nil, .idle, .zero, .nil, []⟩

/-- The accumulators after a header. -/
def headerChecksum (hdr : HeaderParser) (c : Intermediate) : Intermediate :=
  udpPseudoheaderChecksum hdr (ipv4Checksum hdr.ip c)

/-- `checksum_header_and_data`. -/
def checksumHeaderAndData (intermediateFull : Bool) (s : State) : State :=
  match s.state with
  | .idle =>
    match s.hdrIn.head with
    | none => s
    | some buf =>
      if intermediateFull then s
      else
        let cur := headerChecksum buf.parse s.curChecksum
        if buf.parse.udp.emptyPacket then
          { s with
            hdrIn := s.hdrIn.readIf true
            curChecksum := cur
            intermediateStream := s.intermediateStream.write cur }
        else { s with hdrIn := s.hdrIn.readIf true, curChecksum := cur, state := .data }
  | .data =>
    match s.dataIn.head with
    | none => s
    | some word =>
      if intermediateFull then s
      else
        let cur := checksumData s.curChecksum word
        if word.last then
          { s with
            dataIn := s.dataIn.readIf true
            curChecksum := cur
            intermediateStream := s.intermediateStream.write cur
            state := .idle }
        else { s with dataIn := s.dataIn.readIf true, curChecksum := cur }

/-- `finish_checksum` with its streams. -/
def finishStep (checksumFull : Bool) (s : State) : State :=
  match s.intermediateStream.head with
  | none => s
  | some cur =>
    if checksumFull then s
    else
      { s with
        intermediateStream := s.intermediateStream.readIf true
        checksum := s.checksum ++ [finishChecksum cur] }

/-- One step: an arrival, or a call of one of the two functions of `checksum_step`. -/
inductive Act
  | arriveHeader (buf : HeaderBuffer)
  | arriveData (word : AxiData)
  | checksumHeaderAndData (intermediateFull : Bool)
  | finishChecksum (checksumFull : Bool)
deriving DecidableEq, Repr

def step (s : State) : Act → State
  | .arriveHeader buf => { s with hdrIn := s.hdrIn.write buf }
  | .arriveData word => { s with dataIn := s.dataIn.write word }
  | .checksumHeaderAndData full => Checksum.checksumHeaderAndData full s
  | .finishChecksum full => finishStep full s

end Nica.Hls.Checksum

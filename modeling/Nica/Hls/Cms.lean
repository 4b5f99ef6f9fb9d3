import Nica.Hls.Types

/-!
# The Count-Min sketch ikernel (`ikernels/hls/cms.cpp`, `ikernels/hls/cms-ikernel.cpp`)

`CountMinSketch` has `DEPTH` rows of `WIDTH` counters, and `netIngress` takes one value from each packet, which
`writeToHeap` counts and sends to the heap with its new estimate.  The coefficients of the hash functions are
written through the gateway.

Reading the heap back (`read_heap`, `reg_read`) is left out, and so are the sketch's operations on strings, which
the ikernel does not use.
-/

namespace Nica.Hls

open Nica.Lib

/-! ### The sketch -/

namespace CountMinSketch

/-- `DEPTH`. -/
abbrev depth : ℕ := 3

/-- `WIDTH`. -/
abbrev width : ℕ := 272

/-- `std::numeric_limits<int>::max()`. -/
def intMax : BitVec 32 := 0x7fffffff

end CountMinSketch

open CountMinSketch

/-- `CountMinSketch`; `int` and `unsigned int` are words of 32 bits. -/
structure CountMinSketch where
  total : BitVec 32
  C : Fin depth → Fin width → BitVec 32
  hashes : Fin depth → Fin 2 → BitVec 32

namespace CountMinSketch

/-- A sketch with these coefficients. -/
def new (hashes : Fin depth → Fin 2 → BitVec 32) : CountMinSketch := ⟨0, fun _ _ => 0, hashes⟩

/-- The column of an item in row `j`; the arithmetic is that of `unsigned int`. -/
def hashval (hashes : Fin depth → Fin 2 → BitVec 32) (j : Fin depth) (item : BitVec 32) : Fin width :=
  ⟨(hashes j 0 * item + hashes j 1).toNat % width, Nat.mod_lt _ (by decide)⟩

/-- `C[j][k] = C[j][k] + c`. -/
def addCell (s : CountMinSketch) (j : Fin depth) (k : Fin width) (c : BitVec 32) : CountMinSketch :=
  { s with C := Function.update s.C j (Function.update (s.C j) k (s.C j k + c)) }

/-- `update`. -/
def update (s : CountMinSketch) (item c : BitVec 32) : CountMinSketch :=
  (List.finRange depth).foldl (fun s j => s.addCell j (hashval s.hashes j item) c)
    { s with total := s.total + c }

/-- `updateByAddress`, for an address below `2 * DEPTH`. -/
def updateByAddress (s : CountMinSketch) (address : Fin (2 * depth)) (value : BitVec 32) : CountMinSketch :=
  let row : Fin depth := ⟨address / 2, by omega⟩
  let column : Fin 2 := ⟨address % 2, by omega⟩
  { s with hashes := Function.update s.hashes row (Function.update (s.hashes row) column value) }

/-- `std::min` of two `int`. -/
def intMin (a b : BitVec 32) : BitVec 32 := if b.slt a then b else a

/-- `estimate`. -/
def estimate (s : CountMinSketch) (item : BitVec 32) : BitVec 32 :=
  (List.finRange depth).foldl (fun minval j => intMin minval (s.C j (hashval s.hashes j item))) intMax

end CountMinSketch

/-! ### The ikernel -/

namespace Cms

/-- `value_and_frequency`. -/
structure ValueAndFrequency where
  entity : BitVec 32
  frequency : BitVec 32
deriving DecidableEq, Repr

inductive Phase
  | metadata
  | firstWord
  | otherWords
deriving DecidableEq, Repr

/-- The ikernel with the streams it reads; `toHeap` is all that was sent to the heap. -/
structure State where
  metadataInput : Fifo Metadata
  dataInput : Fifo AxiData
  phase : Phase
  valuesStream : Fifo (BitVec 32)
  hashesAddresses : Fifo (Fin (2 * depth))
  hashesValues : Fifo (BitVec 32)
  sketch : CountMinSketch
  toHeap : List ValueAndFrequency

/-- The ikernel with these coefficients, before the first packet. -/
def State.init (hashes : Fin depth → Fin 2 → BitVec 32) : State :=
  ⟨.nil, .nil, .metadata, .nil, .nil, .nil, .new hashes, []⟩

/-- The value in a packet: the 4 bytes from byte 14 on. -/
def valueOf (d : AxiData) : BitVec 32 := d.data.extractLsb' 112 32

/-- `cms::net_ingress`. -/
def netIngress (valuesFull : Bool) (s : State) : State :=
  match s.phase with
  | .metadata =>
    match s.metadataInput.head with
    | none => s
    | some _ => { s with metadataInput := s.metadataInput.readIf true, phase := .firstWord }
  | .firstWord =>
    match s.dataInput.head with
    | none => s
    | some d =>
      if valuesFull then s
      else
        { s with
          dataInput := s.dataInput.readIf true
          valuesStream := s.valuesStream.write (valueOf d)
          phase := if d.last then .metadata else .otherWords }
  | .otherWords =>
    match s.dataInput.head with
    | none => s
    | some d =>
      { s with
        dataInput := s.dataInput.readIf true
        phase := if d.last then .metadata else .otherWords }

/-- The first half of `cms::write_to_heap`: a coefficient that was written through the gateway. -/
def takeHash (s : State) : State :=
  match s.hashesAddresses.head, s.hashesValues.head with
  | some address, some v =>
    { s with
      hashesAddresses := s.hashesAddresses.readIf true
      hashesValues := s.hashesValues.readIf true
      sketch := s.sketch.updateByAddress address v }
  | _, _ => s

/-- The second half: a value is counted and sent. -/
def countValue (s : State) : State :=
  match s.valuesStream.head with
  | none => s
  | some val =>
    let sketch := s.sketch.update val 1
    { s with
      valuesStream := s.valuesStream.readIf true
      sketch := sketch
      toHeap := s.toHeap ++ [⟨val, sketch.estimate val⟩] }

/-- `cms::write_to_heap`. -/
def writeToHeap (s : State) : State := countValue (takeHash s)

/-- `HASHES_BASE`. -/
def hashesBase : ℤ := 3

/-- `cms::reg_write`, with its result; address 0, `READ_TOP_K`, is a request to read the heap. -/
def regWrite (address : ℤ) (value : BitVec 32) (s : State) : State × ℤ :=
  if address = 0 then (s, 0)
  else if h : 0 ≤ address - hashesBase ∧ address - hashesBase < (2 * depth : ℕ) then
    ({ s with
        hashesAddresses := s.hashesAddresses.write ⟨(address - hashesBase).toNat, by omega⟩
        hashesValues := s.hashesValues.write value }, 0)
  else (s, -1)

/-- One step: a call, or an arrival. -/
inductive Act
  | netIngress (valuesFull : Bool)
  | writeToHeap
  | regWrite (address : ℤ) (value : BitVec 32)
  | arriveMeta (m : Metadata)
  | arriveData (b : AxiData)
deriving DecidableEq, Repr

def step (s : State) : Act → State
  | .netIngress valuesFull => netIngress valuesFull s
  | .writeToHeap => writeToHeap s
  | .regWrite address value => (regWrite address value s).1
  | .arriveMeta m => { s with metadataInput := s.metadataInput.write m }
  | .arriveData b => { s with dataInput := s.dataInput.write b }

end Cms

end Nica.Hls

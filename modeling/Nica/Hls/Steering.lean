import Nica.Hls.FlowTable
import Nica.Hls.PassthroughWrapper

/-!
# Steering (`nica/hls/nica.cpp`, `nica/hls/udp.cpp`, `nica/hls/flow_table.cpp`)

`raw_dup` copies every beat of the network port: one copy goes through `ntl::enum_first` into the receive path, the
other one to `passthrough_wrapper`.  The receive path takes the headers off, looks their flow up and decides what
becomes of the frame; `update_stats_actions` tells its own dropper (`matched`) and the wrapper (`pass_raw`), and
`checks_to_action` tells the crossbar (`steer_results`).

The units are those of `Nica.Hls.Udp`, `Nica.Hls.FlowTable` and `Nica.Hls.PassthroughWrapper`; here they get their
streams.  `ntl::enum_first` is a parameter.  The hash table answers its lookups in order from a finite map, which the
gateway does not change in the meantime.
-/

namespace Nica.Hls.Steering

open Nica.Lib

/-- `ntl::enum_first`: its register, and the number it gives to the next beat. -/
structure EnumFirst where
  Reg : Type
  init : Reg
  call : Reg → Axi4s → ℕ × Reg

/-- The number 0 marks the first beat of every packet, and no other; `first` says that a packet is about to start. -/
structure EnumFirst.Marks (E : EnumFirst) (first : E.Reg → Prop) : Prop where
  init : first E.init
  count : ∀ r w, (E.call r w).1 = 0 ↔ first r
  next : ∀ r w, first (E.call r w).2 ↔ w.last = true

variable {n k : ℕ} {E : EnumFirst} {N : Arbiter.Ntl (k + 1)} {M : Merger AxiData}

/-- The registers and streams from the network port to the crossbar and to the last traffic class, for `n` engines and
`NUM_TC = k + 1`. -/
structure State (n k : ℕ) (E : EnumFirst) (N : Arbiter.Ntl (k + 1)) (M : Merger AxiData) where
  port : Fifo Axi4s
  rawInToUdp : Fifo Axi4s
  enumFirst : E.Reg
  udp : Udp.State n
  lookups : Fifo FlowTable.Flow
  results : Fifo (Option (BitVec 11 × FlowTableValue))
  wrapper : PassthroughWrapper.State k N M

/-- Everything after reset. -/
def State.init (n : ℕ) (E : EnumFirst) (M : Merger AxiData) (sched : N.Sched) : State n k E N M where
  port := .nil
  rawInToUdp := .nil
  enumFirst := E.init
  udp := .init
  lookups := .nil
  results := .nil
  wrapper := .init M sched

/-- The flow table with its streams. -/
def State.flowUnit (table : FlowTable.Table) (s : State n k E N M) : FlowTable.FlowUnit :=
  ⟨table, s.udp.hdrDupToFlowTable, s.lookups, s.results, s.udp.ftToAction⟩

/-- The streams of the flow table put back. -/
def State.withFlowUnit (s : State n k E N M) (u : FlowTable.FlowUnit) : State n k E N M :=
  { s with
    lookups := u.lookups
    results := u.results
    udp := { s.udp with hdrDupToFlowTable := u.header, ftToAction := u.out } }

/-- One step: a beat arrives at the port, or a unit is called.  The flags say which of the streams it writes a unit
finds full. -/
inductive Act (n k : ℕ)
  | arrive (w : Axi4s)
  | rawDup2 (anyFull : Bool)
  | enumFirst (outFull : Bool)
  | ftWrapper (lookupsFull resultFull : Bool)
  | hashTable (resultsFull : Bool)
  | updateStatsActions (matchedFull passRawFull : Bool)
  | udp (a : Udp.Act n)
  | wrapper (a : PassthroughWrapper.Act k)
deriving DecidableEq, Repr

/-- The steps of the receive path that touch a stream to another part. -/
def ofOthers : Udp.Act n → Bool
  | .arrive _ _ => true
  | .ftStep _ => true
  | .updateStatsActions _ _ => true
  | _ => false

/-- The steps of the wrapper that are arrivals. -/
def isArrival : PassthroughWrapper.Act k → Bool
  | .arriveRaw _ => true
  | .arrivePass _ => true
  | _ => false

/-- One step. -/
def step (keepBytes : ℕ → BitVec 32) (table : FlowTable.Table) (s : State n k E N M) : Act n k → State n k E N M
  | .arrive w => { s with port := s.port.write w }
  | .rawDup2 full =>
    let word := dup full s.port.head
    { s with
      port := s.port.readIf word.isSome
      rawInToUdp := s.rawInToUdp.put word
      wrapper := run (PassthroughWrapper.step keepBytes) s.wrapper (word.toList.map .arriveRaw) }
  | .enumFirst full =>
    match dup full s.rawInToUdp.head with
    | none => s
    | some w =>
      { s with
        rawInToUdp := s.rawInToUdp.readIf true
        enumFirst := (E.call s.enumFirst w).2
        udp := Udp.step keepBytes s.udp (.arrive (E.call s.enumFirst w).1 w) }
  | .ftWrapper lookupsFull resultFull => s.withFlowUnit ((s.flowUnit table).ftWrapper lookupsFull resultFull)
  | .hashTable full => s.withFlowUnit ((s.flowUnit table).hashTable full)
  | .updateStatsActions mFull pFull =>
    let out := Udp.updateStatsActions mFull pFull s.udp.ftResults.head
    { s with
      udp := Udp.step keepBytes s.udp (.updateStatsActions mFull pFull)
      wrapper := run (PassthroughWrapper.step keepBytes) s.wrapper ((out.map (·.2)).toList.map .arrivePass) }
  | .udp a => if ofOthers a then s else { s with udp := Udp.step keepBytes s.udp a }
  | .wrapper a => if isArrival a then s else { s with wrapper := PassthroughWrapper.step keepBytes s.wrapper a }

end Nica.Hls.Steering

import Nica.Manager.Equiv.Responses
import Nica.Manager.Paravirt

/-!
# A VM and the hypervisor stay in step

Between two calls there must be no byte of a response in the port or in the buffer of the VM.  A call that
succeeds and whose reads find all bytes keeps it so; after a response with an error status the VM does not read
the structure that follows the header (`inSync_iff`).
-/

namespace Nica.Manager.Paravirt

open Nica.Lib Nica.Lib.Prog Nica.Libnica Nica.Manager.Rpc
open Nica.Libnica.Wire (Byte Member Header headerSize bytes16 member16)

/-! ### The requests arrive -/

theorem length_bytesBE (n x : ℕ) : (bytesBE n x).length = n := by
  induction n generalizing x with
  | zero => rfl
  | succ n ih => rw [bytesBE, List.length_append, ih, List.length_singleton]

theorem foldl_bytesBE (n x : ℕ) :
    (bytesBE n x).foldl (fun acc b => acc * 256 + b.toNat) 0 = x % 256 ^ n := by
  induction n generalizing x with
  | zero => exact (Nat.mod_one x).symm
  | succ n ih =>
    have hpow : 256 ^ (n + 1) = 256 * 256 ^ n := pow_succ' 256 n
    rw [bytesBE, List.foldl_append, ih, List.foldl_cons, List.foldl_nil, BitVec.toNat_ofNat, hpow, Nat.mod_mul]
    omega

/-- A number of `n` bytes at the start of a structure. -/
theorem bigEndian_bytesBE {n x : ℕ} (hx : x < 256 ^ n) (rest : List Byte) :
    bigEndian n (bytesBE n x ++ rest) 0 = x := by
  unfold bigEndian
  rw [List.drop_zero, List.take_left' (length_bytesBE n x), foldl_bytesBE, Nat.mod_eq_of_lt hx]

/-- A word at the start of a structure. -/
theorem member32_bytes32 (x : BitVec 32) (rest : List Byte) : member32 (bytes32 x ++ rest) 0 = x := by
  show x.extractLsb' 24 8 ++ x.extractLsb' 16 8 ++ x.extractLsb' 8 8 ++ x.extractLsb' 0 8 = x
  have h₁ : x.extractLsb' 24 8 ++ x.extractLsb' 16 8 = x.extractLsb' 16 16 :=
    BitVec.extractLsb'_append_extractLsb'_eq_extractLsb' rfl
  have h₂ : x.extractLsb' 16 16 ++ x.extractLsb' 8 8 = x.extractLsb' 8 24 :=
    BitVec.extractLsb'_append_extractLsb'_eq_extractLsb' rfl
  have h₃ : x.extractLsb' 8 24 ++ x.extractLsb' 0 8 = x.extractLsb' 0 32 :=
    BitVec.extractLsb'_append_extractLsb'_eq_extractLsb' rfl
  rw [h₁, h₂, h₃]
  exact BitVec.extractLsb'_eq_self

theorem member32_append {pre : List Byte} {offset : ℕ} (h : pre.length = offset) (bs : List Byte) :
    member32 (pre ++ bs) offset = member32 bs 0 := by
  have hget : ∀ k, (pre ++ bs).getD (offset + k) 0 = bs.getD k 0 := by
    intro k
    rw [List.getD_eq_getElem?_getD, List.getElem?_append_right (by omega),
      show offset + k - pre.length = k by omega, ← List.getD_eq_getElem?_getD]
  unfold member32
  rw [hget, hget, hget, Nat.zero_add, Nat.zero_add, Nat.zero_add]
  congr 1
  exact hget 0

/-- The hypervisor's handler gets the arguments of the VM's call. -/
theorem vmRequest_call (req : VmRequest) : vmRequest (call req).opcode (call req).req = req := by
  cases req with
  | configureCustomRing mac ip =>
    have hmac := bigEndian_bytesBE (n := 6) (x := mac.toNat) mac.isLt ([0, 0] ++ bytes32 ip)
    have hip : member32 (bytesBE 6 mac.toNat ++ [0, 0] ++ bytes32 ip) 8 = ip := by
      rw [member32_append (by rw [List.length_append, length_bytesBE]; rfl)]
      exact member32_bytes32 ip []
    show VmRequest.configureCustomRing
      (BitVec.ofNat 48 (bigEndian 6 (bytesBE 6 mac.toNat ++ [0, 0] ++ bytes32 ip) 0))
      (member32 (bytesBE 6 mac.toNat ++ [0, 0] ++ bytes32 ip) 8) = _
    rw [hip, List.append_assoc, hmac, BitVec.ofNat_toNat, BitVec.setWidth_eq]
  | numRings => rfl
  | getUuids => rfl
  | allocateIkernel uuid log =>
    have huuid := bigEndian_bytesBE (n := 16) (x := uuid.toNat) uuid.isLt (bytes32 log)
    have hlog : member32 (bytesBE 16 uuid.toNat ++ bytes32 log) 16 = log := by
      rw [member32_append (length_bytesBE 16 _)]
      exact member32_bytes32 log []
    show VmRequest.allocateIkernel (BitVec.ofNat 128 (bigEndian 16 (bytesBE 16 uuid.toNat ++ bytes32 log) 0))
      (member32 (bytesBE 16 uuid.toNat ++ bytes32 log) 16) = _
    rw [hlog, huuid, BitVec.ofNat_toNat, BitVec.setWidth_eq]
  | deallocateIkernel id => exact congrArg VmRequest.deallocateIkernel (member32_bytes32 id [])
  | attach ip port id =>
    have hip := member32_bytes32 ip (bytes16 port ++ [0, 0] ++ bytes32 id)
    have hport := Wire.member16_bytes16 port
    have hid := member32_bytes32 id []
    exact congr (congr (congrArg VmRequest.attach hip) hport) hid
  | detach ip port id =>
    have hip := member32_bytes32 ip (bytes16 port ++ [0, 0] ++ bytes32 id)
    have hport := Wire.member16_bytes16 port
    have hid := member32_bytes32 id []
    exact congr (congr (congrArg VmRequest.detach hip) hport) hid
  | crCreate id qpNum =>
    exact congr (congrArg VmRequest.crCreate (member32_bytes32 id _)) (member32_bytes32 qpNum [])
  | crDestroy ring => exact congrArg VmRequest.crDestroy (member32_bytes32 ring [])
  | updateCredits ring msnMax =>
    exact congr (congrArg VmRequest.updateCredits (member32_bytes32 ring _)) (member32_bytes32 msnMax [])
  | invokeIkernelRpc id address value write =>
    exact congr (congr (congr (congrArg VmRequest.invokeIkernelRpc (member32_bytes32 id _))
      (member32_bytes32 address (bytes32 value ++ bytes32 write))) (member32_bytes32 value (bytes32 write)))
      (member32_bytes32 write [])

/-- Both ends use the same structures. -/
theorem hypervisorHandlers_call (req : VmRequest) :
    hypervisorHandlers (call req).opcode = some ⟨(call req).structReq, (call req).structResp, false⟩ := by
  cases req <;> rfl

theorem length_call (req : VmRequest) : (call req).req.length = Wire.sizeOf (call req).structReq := by
  cases req with
  | configureCustomRing mac ip =>
    show (bytesBE 6 mac.toNat ++ [0, 0] ++ bytes32 ip).length = 12
    rw [List.length_append, List.length_append, length_bytesBE]
    rfl
  | allocateIkernel uuid log =>
    show (bytesBE 16 uuid.toNat ++ bytes32 log).length = 20
    rw [List.length_append, length_bytesBE]
    rfl
  | _ => rfl

theorem sizeOf_structReq_lt (req : VmRequest) : Wire.sizeOf (call req).structReq < 2 ^ 16 := by
  cases req <;> exact Nat.le_of_ble_eq_true rfl

/-- The responses have at least one byte. -/
theorem sizeOf_structResp (req : VmRequest) :
    0 < Wire.sizeOf (call req).structResp ∧ Wire.sizeOf (call req).structResp < 2 ^ 16 := by
  cases req <;> exact ⟨Nat.le_of_ble_eq_true rfl, Nat.le_of_ble_eq_true rfl⟩

/-- The request as it is on the wire. -/
def frame (req : VmRequest) : Frame :=
  ⟨(call req).opcode, 1, 0, (call req).req, by rw [length_call]; exact sizeOf_structReq_lt req⟩

/-! ### The hypervisor answers -/

/-- What the hypervisor's handler of an operation returns or raises. -/
def outcome (c : ℕ) (env : Env) (req : VmRequest) : Except Exn Response :=
  ((Hypervisor.handler req).exec (env.enter c)).1

/-- The operation has an outcome: no exception leaves its handler. -/
def HasOutcome (c : ℕ) (env : Env) (req : VmRequest) : Prop := Sends (vmWords req) (outcome c env req)

/-- The operation returns a status of 0. -/
def Succeeds (c : ℕ) (env : Env) (req : VmRequest) : Prop := ∃ values, outcome c env req = .ok (.ok values)

/-- The manager after an operation. -/
def afterCall (c : ℕ) (env : Env) (req : VmRequest) : Env := after (vmHandlers c) env (frame req)

/-- The hypervisor waits for a request. -/
structure Idle (p : Protocol Env) : Prop where
  buf : p.buf = []
  curHandler : p.curHandler = none
  curHdr : p.curHdr = none

theorem Idle.settled {p : Protocol Env} {c : ℕ} (h : Idle p) : Protocol.Settled (vmHandlers c) p := by
  obtain ⟨buf, curHandler, curHdr, env, sent, handled, escaped⟩ := p
  obtain ⟨hbuf, hcur, hhdr⟩ := h
  cases hbuf
  cases hcur
  cases hhdr
  exact Protocol.round_short rfl (show 0 < headerSize by decide)

/-- The entry of an operation in the hypervisor's table. -/
theorem vmHandlers_call (c : ℕ) (req : VmRequest) :
    vmHandlers c (frame req).opcode = some ⟨Wire.sizeOf (call req).structReq,
      serve c (call req).opcode ⟨(call req).structReq, (call req).structResp, false⟩ fun args _ =>
        Hypervisor.handler (vmRequest (call req).opcode args)⟩ := by
  show (hypervisorHandlers (call req).opcode).map _ = _
  rw [hypervisorHandlers_call]
  rfl

theorem bytes_frame (req : VmRequest) :
    (frame req).bytes = Header.pack ⟨(call req).opcode,
      BitVec.ofNat 16 (Wire.sizeOf (call req).structReq), 1, 0⟩ ++ (call req).req := by
  rw [← length_call]
  rfl

/-- One response to a request: of the structure of the operation, or with an error status. -/
theorem hypervisor_spec {c : ℕ} {p : Protocol Env} (hidle : Idle p) (req : VmRequest)
    (hout : HasOutcome c p.env req) :
    ∃ p' members body status, run (Protocol.dataReceived (vmHandlers c)) p
        [Header.pack ⟨(call req).opcode, BitVec.ofNat 16 (Wire.sizeOf (call req).structReq), 1, 0⟩,
          (call req).req] = p' ∧
      Idle p' ∧ p'.env = afterCall c p.env req ∧
      p'.sent = p.sent ++ [message (call req).opcode members body status] ∧
      body.length = Wire.sizeOf members ∧
      members = (if status = 0 then (call req).structResp else Wire.emptyStruct) ∧
      (status = 0 ↔ Succeeds c p.env req) := by
  have htable := vmHandlers_call c req
  -- the handler has the arguments of the call
  have hexec : ((fun args (_ : Descriptor) => Hypervisor.handler (vmRequest (call req).opcode args))
      (frame req).body p.env.fd).exec (p.env.enter c) = (Hypervisor.handler req).exec (p.env.enter c) := by
    show (Hypervisor.handler (vmRequest (call req).opcode (call req).req)).exec _ = _
    rw [vmRequest_call]
  have hwords : Wire.sizeOf (call req).structResp = 4 * vmWords req := by
    have hsize : Wire.sizeOf (call req).structResp =
        4 * wordsOf (.hypervisor none) (call req).opcode (call req).req .missing :=
      @sizeOf_resp (.hypervisor none) _ _ (hypervisorHandlers_call req) (call req).req .missing
    rw [show wordsOf (.hypervisor none) (call req).opcode (call req).req .missing =
      vmWords (vmRequest (call req).opcode (call req).req) from rfl, vmRequest_call] at hsize
    exact hsize
  obtain ⟨hraises, hresponse⟩ := respond_spec (call req).opcode hwords (outcome c p.env req)
  obtain ⟨members, body, status, hlen, hmembers, hstatus, hsent⟩ := hresponse hout
  have hok : FrameOk (vmHandlers c) p.env (frame req) := by
    unfold FrameOk
    rw [htable]
    refine ⟨length_call req, ?_⟩
    rw [serve_raises, hexec]
    exact hraises.mpr hout
  have hanswers : answersTo (vmHandlers c) p.env (frame req) =
      [message (call req).opcode members body status] := by
    unfold answersTo
    rw [htable, ← hsent]
    show (serve _ _ _ _ _ _).sent = _
    rw [serve_sent, hexec]
    rfl
  obtain ⟨handled, hnext⟩ := dataReceived_frame hidle.buf hidle.curHandler hok
  rw [bytes_frame, hanswers] at hnext
  -- two writes are as good as one
  let chunks := [Header.pack ⟨(call req).opcode, BitVec.ofNat 16 (Wire.sizeOf (call req).structReq), 1, 0⟩,
    (call req).req]
  have hflat : chunks.flatten = Header.pack ⟨(call req).opcode,
      BitVec.ofNat 16 (Wire.sizeOf (call req).structReq), 1, 0⟩ ++ (call req).req := by
    simp [chunks]
  have hrun : run (Protocol.dataReceived (vmHandlers c)) p chunks =
      Protocol.dataReceived (vmHandlers c) p chunks.flatten := by
    refine Protocol.run_eq_dataReceived hidle.settled ?_
    refine Protocol.escaped_run_of_dataReceived hidle.settled ?_
    rw [hflat, hnext]
  rw [hflat, hnext] at hrun
  exact ⟨_, members, body, status, hrun, ⟨hidle.buf, hidle.curHandler, rfl⟩, rfl, rfl, hlen, hmembers, hstatus⟩

/-! ### A call -/

/-- The bytes that the hypervisor sent during a call. -/
def response (l l' : Link) : List Byte := (l'.hypervisor.sent.drop l.hypervisor.sent.length).flatten

/-- The header that the call reads is that of its own response, of which it leaves no byte unread. -/
structure InStep (c : ℕ) (l : Link) (a : Action) : Prop where
  header : (invoked c l a).header = some (Header.unpack ((response l (step c l a)).take headerSize))
  port : (step c l a).port = []
  buf : (step c l a).buf = []

/-- Both reads of a call find all bytes that they are asked for. -/
def Action.readsAll (a : Action) : Prop := headerSize ≤ a.k₁ ∧ Wire.sizeOf (call a.req).structResp ≤ a.k₂

/-- Nothing is on its way. -/
structure Ready (l : Link) : Prop where
  buf : l.buf = []
  port : l.port = []
  hypervisor : Idle l.hypervisor

theorem hypervisor_unpackChunk (l : Link) (size : ℕ) : (l.unpackChunk size).2.hypervisor = l.hypervisor := by
  unfold Link.unpackChunk
  split <;> rfl

theorem port_unpackChunk (l : Link) (size : ℕ) : (l.unpackChunk size).2.port = l.port := by
  unfold Link.unpackChunk
  split <;> rfl

/-- The hypervisor has its part of the call behind it before the VM reads. -/
theorem hypervisor_invoke (c : ℕ) (l : Link) (req : Call) (k₁ k₂ : ℕ) :
    (l.invoke c req k₁ k₂).link.hypervisor = (l.sendMsg c req).hypervisor := by
  have hfirst := hypervisor_unpackChunk ((l.sendMsg c req).read headerSize k₁) headerSize
  unfold Link.invoke
  rcases hchunk : ((l.sendMsg c req).read headerSize k₁).unpackChunk headerSize with ⟨_ | bs, l₁⟩ <;>
    rw [hchunk] at hfirst
  · exact hfirst
  · simp only
    split_ifs
    · exact hfirst
    · exact hfirst
    · exact hfirst
    · have hsecond := hypervisor_unpackChunk (l₁.read (Header.unpack bs).length.toNat k₂)
        (Wire.sizeOf req.structResp)
      rcases hbody : (l₁.read (Header.unpack bs).length.toNat k₂).unpackChunk (Wire.sizeOf req.structResp) with
        ⟨_ | body, l₂⟩ <;> rw [hbody] at hsecond <;> exact hsecond.trans hfirst

section Invoke

variable {c : ℕ} {l : Link} {req : Call} {k₁ k₂ : ℕ} {hdr : Header} {body : List Byte}

theorem invoke_short (hbuf : (l.sendMsg c req).buf = []) (hk : k₁ < headerSize) :
    (l.invoke c req k₁ k₂).header = none := by
  have hchunk : ((l.sendMsg c req).read headerSize k₁).unpackChunk headerSize =
      (none, (l.sendMsg c req).read headerSize k₁) := by
    refine if_neg ?_
    simp only [Link.read, hbuf, List.nil_append, List.length_take]
    omega
  unfold Link.invoke
  rw [hchunk]

/-- The header was read. -/
theorem unpackChunk_header (hbuf : (l.sendMsg c req).buf = [])
    (hport : (l.sendMsg c req).port = hdr.pack ++ body) (hk : headerSize ≤ k₁) :
    ((l.sendMsg c req).read headerSize k₁).unpackChunk headerSize =
      (some hdr.pack, { l.sendMsg c req with buf := [], port := body }) := by
  have hread : (l.sendMsg c req).read headerSize k₁ =
      { l.sendMsg c req with buf := hdr.pack, port := body } := by
    unfold Link.read
    rw [hbuf, hport, Nat.min_eq_left hk, Wire.take_pack, Wire.drop_pack, List.nil_append]
  rw [hread]
  exact if_pos (Nat.le_refl _)

/-- A response with an error status: its structure stays in the port. -/
theorem invoke_error (hbuf : (l.sendMsg c req).buf = [])
    (hport : (l.sendMsg c req).port = hdr.pack ++ body) (hk : headerSize ≤ k₁) (hstatus : hdr.status ≠ 0) :
    (l.invoke c req k₁ k₂).link.port = body := by
  unfold Link.invoke
  rw [unpackChunk_header hbuf hport hk]
  simp only [Wire.unpack_pack]
  rw [if_pos hstatus]
  split_ifs <;> rfl

/-- A response with a status of 0. -/
theorem invoke_values (k₂ : ℕ) (hbuf : (l.sendMsg c req).buf = [])
    (hport : (l.sendMsg c req).port = hdr.pack ++ body) (hk : headerSize ≤ k₁) (hstatus : hdr.status = 0)
    (hopcode : hdr.opcode = req.opcode) (hlength : hdr.length.toNat = Wire.sizeOf req.structResp)
    (hbody : body.length = Wire.sizeOf req.structResp) :
    (l.invoke c req k₁ k₂).header = some hdr ∧
      (l.invoke c req k₁ k₂).link.port = body.drop k₂ ∧
      (body.length ≤ k₂ → (l.invoke c req k₁ k₂).link.buf = []) := by
  have hdrop : body.drop (min (Wire.sizeOf req.structResp) k₂) = body.drop k₂ := by
    rw [← hbody]
    rcases Nat.le_total body.length k₂ with h | h
    · rw [Nat.min_eq_left h, List.drop_length, List.drop_eq_nil_of_le h]
    · rw [Nat.min_eq_right h]
  unfold Link.invoke
  rw [unpackChunk_header hbuf hport hk]
  simp only [Wire.unpack_pack]
  rw [if_neg (not_not.mpr hlength), if_neg (not_not.mpr hopcode), if_neg (not_not.mpr hstatus), hlength]
  generalize hl : ({ l.sendMsg c req with buf := [], port := body } : Link) = l₁
  have hl₁ : l₁.buf = [] ∧ l₁.port = body := by
    rw [← hl]
    exact ⟨rfl, rfl⟩
  have hsecond := port_unpackChunk (l₁.read (Wire.sizeOf req.structResp) k₂) (Wire.sizeOf req.structResp)
  have hport₂ : (l₁.read (Wire.sizeOf req.structResp) k₂).port = body.drop k₂ := by
    unfold Link.read
    rw [hl₁.2]
    exact hdrop
  rw [hport₂] at hsecond
  refine ⟨?_, ?_, ?_⟩
  · split <;> rfl
  · split <;> rename_i h <;> rw [h] at hsecond <;> exact hsecond
  · intro hle
    have hall : (l₁.read (Wire.sizeOf req.structResp) k₂).buf = body := by
      unfold Link.read
      rw [hl₁.1, hl₁.2, List.nil_append, ← hbody, Nat.min_eq_left hle, List.take_length]
    have hunpack : (l₁.read (Wire.sizeOf req.structResp) k₂).unpackChunk (Wire.sizeOf req.structResp) =
        (some body, { l₁.read (Wire.sizeOf req.structResp) k₂ with buf := [] }) := by
      unfold Link.unpackChunk
      rw [hall, ← hbody, if_pos (Nat.le_refl _), List.take_length, List.drop_length]
    rw [hunpack]

end Invoke

/-- A call keeps the two ends in step exactly if it succeeds and its reads find all bytes. -/
theorem inStep_iff {c : ℕ} {l : Link} (hready : Ready l) (a : Action)
    (hout : HasOutcome c l.hypervisor.env a.req) :
    (InStep c l a ↔ Succeeds c l.hypervisor.env a.req ∧ a.readsAll) ∧
      Idle (step c l a).hypervisor ∧
      (step c l a).hypervisor.env = afterCall c l.hypervisor.env a.req := by
  obtain ⟨p', members, body, status, hrun, hidle, henv, hsent, hlen, hmembers, hstatus⟩ :=
    hypervisor_spec hready.hypervisor a.req hout
  have hsend : l.sendMsg c (call a.req) =
      ⟨[], message (call a.req).opcode members body status, p'⟩ := by
    simp only [Link.sendMsg, hrun, hsent, List.drop_left, hready.buf, hready.port, List.nil_append,
      List.flatten_cons, List.flatten_nil, List.append_nil]
  have hhyp : (step c l a).hypervisor = p' := by
    unfold step invoked
    rw [hypervisor_invoke, hsend]
  have hresp : response l (step c l a) = message (call a.req).opcode members body status := by
    unfold response
    rw [hhyp, hsent, List.drop_left]
    simp
  have hbuf : (l.sendMsg c (call a.req)).buf = [] := by rw [hsend]
  have hport : (l.sendMsg c (call a.req)).port =
      Header.pack ⟨(call a.req).opcode, BitVec.ofNat 16 (Wire.sizeOf members), 0, status⟩ ++ body := by
    rw [hsend]
    rfl
  refine ⟨?_, by rw [hhyp]; exact hidle, by rw [hhyp]; exact henv⟩
  rcases Nat.lt_or_ge a.k₁ headerSize with hk | hk
  · -- not even the header was read
    refine iff_of_false ?_ fun h => absurd h.2.1 (Nat.not_le.mpr hk)
    intro h
    have hheader := h.header
    unfold invoked at hheader
    rw [invoke_short hbuf hk] at hheader
    cases hheader
  by_cases hzero : status = 0
  · rw [if_pos hzero] at hmembers
    subst hmembers
    obtain ⟨hpos, hbound⟩ := sizeOf_structResp a.req
    have hlength : (BitVec.ofNat 16 (Wire.sizeOf (call a.req).structResp)).toNat =
        Wire.sizeOf (call a.req).structResp := by
      rw [BitVec.toNat_ofNat, Nat.mod_eq_of_lt hbound]
    obtain ⟨hheader, hleft, hempty⟩ := invoke_values a.k₂ hbuf hport hk hzero rfl hlength hlen
    constructor
    · intro h
      refine ⟨hstatus.mp hzero, hk, ?_⟩
      have hnil := h.port
      unfold step invoked at hnil
      rw [hleft, List.drop_eq_nil_iff, hlen] at hnil
      exact hnil
    · rintro ⟨-, -, hall⟩
      refine ⟨?_, ?_, hempty (hlen.le.trans hall)⟩
      · rw [hresp]
        refine hheader.trans (congrArg some ?_)
        unfold message
        rw [Wire.take_pack, Wire.unpack_pack]
      · refine hleft.trans ?_
        rw [List.drop_eq_nil_iff, hlen]
        exact hall
  · rw [if_neg hzero] at hmembers
    refine iff_of_false ?_ fun h => hzero (hstatus.mpr h.1)
    intro h
    have hnil := h.port
    unfold step invoked at hnil
    rw [invoke_error hbuf hport hk hzero] at hnil
    rw [hnil, hmembers] at hlen
    cases hlen

/-! ### Sequences of calls -/

/-- Every call of the sequence has an outcome, a success or an error status. -/
def HaveOutcomes (c : ℕ) : Env → List Action → Prop :=
  Along (fun env a => afterCall c env a.req) (fun env a => HasOutcome c env a.req)

/-- Every call of the sequence succeeds, and its reads find all bytes. -/
def AllSucceed (c : ℕ) : Env → List Action → Prop :=
  Along (fun env a => afterCall c env a.req) (fun env a => Succeeds c env a.req ∧ a.readsAll)

/-- The VM and the hypervisor are in step through all calls of the sequence. -/
def InSync (c : ℕ) : Link → List Action → Prop := Along (step c) (InStep c)

/-- **A VM and the hypervisor stay in step** through a sequence of calls exactly if every one of them succeeds
and is read completely. -/
theorem inSync_iff (c : ℕ) (env : Env) (actions : List Action) (hout : HaveOutcomes c env actions) :
    InSync c (.init env) actions ↔ AllSucceed c env actions := by
  -- by induction on the calls, from any state in which nothing is on its way
  suffices ∀ l : Link, Ready l → HaveOutcomes c l.hypervisor.env actions →
      (InSync c l actions ↔ AllSucceed c l.hypervisor.env actions) from
    this (.init env) ⟨rfl, rfl, rfl, rfl, rfl⟩ hout
  clear hout
  induction actions with
  | nil => exact fun _ _ _ => Iff.rfl
  | cons a actions ih =>
    intro l hready hout
    obtain ⟨hiff, hidle, henv⟩ := inStep_iff hready a hout.1
    refine (and_congr_right fun hstep => ?_).trans (and_congr_left fun _ => hiff)
    have hnext := ih (step c l a) ⟨hstep.buf, hstep.port, hidle⟩ (by rw [henv]; exact hout.2)
    rwa [henv] at hnext

/-- A VM that asks for the number of rings. -/
theorem inSync_numRings :
    HaveOutcomes 1 exampleEnv [⟨.numRings, 8, 4⟩] ∧ InSync 1 (.init exampleEnv) [⟨.numRings, 8, 4⟩] := by
  have hout : HaveOutcomes 1 exampleEnv [⟨.numRings, 8, 4⟩] :=
    ⟨(decides_vm _ .numRings).iff.mpr trivial, trivial⟩
  refine ⟨hout, (inSync_iff 1 exampleEnv _ hout).mpr ⟨⟨⟨_, rfl⟩, ?_⟩, trivial⟩⟩
  exact ⟨Nat.le_refl _, Nat.le_refl _⟩

/-- A VM that gives back an ikernel which it does not have, and then asks for the number of rings: the second
call takes the structure of the first response for a header. -/
theorem not_inSync_deallocate :
    HaveOutcomes 1 exampleEnv [⟨.deallocateIkernel 7, 8, 4⟩, ⟨.numRings, 8, 4⟩] ∧
      ¬ InSync 1 (.init exampleEnv) [⟨.deallocateIkernel 7, 8, 4⟩, ⟨.numRings, 8, 4⟩] ∧
      (invoked 1 (step 1 (.init exampleEnv) ⟨.deallocateIkernel 7, 8, 4⟩) ⟨.numRings, 8, 4⟩).result =
        .exception Wire.einval := by
  refine ⟨⟨(decides_vm _ (.deallocateIkernel 7)).iff.mpr trivial, (decides_vm _ .numRings).iff.mpr trivial,
    trivial⟩, ?_, by decide +kernel⟩
  intro h
  exact absurd h.1.port (by decide +kernel)

end Nica.Manager.Paravirt

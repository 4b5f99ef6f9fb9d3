import Nica.Libnica.Wire
import Mathlib.Data.List.Basic

/-!
# The client and the manager stay in step

`InStep` lists the states of the connection that occur while a call is on its way, with everything that is in
the two streams in each of them.  Every step of either end leads from one of them to another, whatever the
sizes of the chunks and the outcomes are, except that `ik_detach` does not wait for the message that the
manager is ready (`Agrees`).
-/

namespace Nica.Libnica.Wire

open Nica.Lib

/-! ### Headers -/

theorem member16_bytes16 (x : BitVec 16) : member16 (bytes16 x) 0 = x := by
  unfold member16 bytes16
  ext i hi
  simp only [List.getD_cons_succ, List.getD_cons_zero]
  rw [← BitVec.getLsbD_eq_getElem, ← BitVec.getLsbD_eq_getElem, BitVec.getLsbD_append,
    BitVec.getLsbD_extractLsb', BitVec.getLsbD_extractLsb']
  by_cases h : i < 8
  · rw [if_pos h, decide_eq_true h, Bool.true_and, Nat.zero_add]
  · have hlow : i - 8 < 8 := by omega
    have hsum : 8 + (i - 8) = i := by omega
    rw [if_neg h, decide_eq_true hlow, Bool.true_and, hsum]

@[simp]
theorem length_pack (h : Header) : h.pack.length = 8 := rfl

theorem unpack_pack (h : Header) : Header.unpack h.pack = h := by
  obtain ⟨opcode, length, flags, status⟩ := h
  have := member16_bytes16 opcode
  have := member16_bytes16 length
  have := member16_bytes16 flags
  have := member16_bytes16 status
  unfold Header.unpack
  congr 1

theorem take_pack (h : Header) (bs : List Byte) : (h.pack ++ bs).take headerSize = h.pack :=
  List.take_left' rfl

theorem drop_pack (h : Header) (bs : List Byte) : (h.pack ++ bs).drop headerSize = bs :=
  List.drop_left' rfl

/-! ### The states of a call -/

/-- The handler takes and answers the structures that the call sends and expects, and it receives a
descriptor exactly when the call waits until it is ready for one. -/
structure Agrees (c : Call) (r : Rpc) : Prop where
  handler : opcodeHandlers c.opcode = some r
  req : sizeOf r.req = sizeOf c.req
  resp : sizeOf r.resp = sizeOf c.resp
  fd : r.receivesFd = true ↔ c = .ikAttach

theorem exists_agrees {c : Call} (hc : c ≠ .ikDetach) : ∃ r, Agrees c r := by
  cases c with
  | ikDetach => exact absurd rfl hc
  | _ => exact ⟨_, rfl, by decide, by decide, by decide⟩

/-- The first thing the client waits for. -/
def Call.first (c : Call) : Client := if c = .ikAttach then .readyHeader c else .respHeader c

/-- The header of a request. -/
def Call.header (c : Call) : Header := ⟨c.opcode, BitVec.ofNat 16 (sizeOf c.req), 1, 0⟩

/-- The header of the message that the manager is ready for the descriptor. -/
def Call.readyHdr (c : Call) : Header := ⟨c.opcode, 4, 0, 0⟩

/-- The header and the body of the manager's reply. -/
def replyHdr (c : Call) (r : Rpc) : Outcome → Header
  | .response _ => ⟨c.opcode, BitVec.ofNat 16 (sizeOf r.resp), 0, 0⟩
  | .error status => ⟨c.opcode, 4, 0, status⟩

def replyBody : Outcome → List Byte
  | .response body => body
  | .error _ => [0, 0, 0, 0]

/-- Every reply was returned by the call with its opcode. -/
def Attributed (returned : List (Call × Reply)) (chosen : List (BitVec 16 × Reply)) : Prop :=
  returned.map (fun p => (p.1.opcode, p.2)) = chosen

open Connection in
/-- The states of the connection. -/
inductive InStep : Connection → Prop
  | between {hdr chosen returned} (h : Attributed returned chosen) :
    InStep ⟨.idle, [], [], .headerDataReceived, hdr, [], chosen, returned⟩
  | requested {c r hdr buf rest req chosen returned} (h : Attributed returned chosen) (hr : Agrees c r)
      (hreq : req.length = sizeOf c.req) (hbuf : buf ++ rest = c.header.pack ++ req) :
    InStep ⟨c.first, plain rest, [], .headerDataReceived, hdr, buf, chosen, returned⟩
  | opened {c r hdr buf rest chosen returned} (h : Attributed returned chosen) (hr : Agrees c r)
      (hreq : (buf ++ rest).length = sizeOf c.req) (hop : hdr.opcode = c.opcode) :
    InStep ⟨c.first, plain rest, [], .rpc r, hdr, buf, chosen, returned⟩
  | ready {r hdr chosen returned} (h : Attributed returned chosen) (hr : Agrees .ikAttach r)
      (hop : hdr.opcode = Call.ikAttach.opcode) :
    InStep ⟨.readyHeader .ikAttach, [], Call.ikAttach.readyHdr.pack ++ [0, 0, 0, 0], .receiveFd r, hdr, [],
      chosen, returned⟩
  | readyRead {r hdr chosen returned} (h : Attributed returned chosen) (hr : Agrees .ikAttach r)
      (hop : hdr.opcode = Call.ikAttach.opcode) :
    InStep ⟨.readyBody .ikAttach Call.ikAttach.readyHdr, [], [0, 0, 0, 0], .receiveFd r, hdr, [], chosen,
      returned⟩
  | fdSent {r hdr chosen returned} (h : Attributed returned chosen) (hr : Agrees .ikAttach r)
      (hop : hdr.opcode = Call.ikAttach.opcode) :
    InStep ⟨.respHeader .ikAttach, [⟨0, true⟩], [], .receiveFd r, hdr, [], chosen, returned⟩
  | responded {c r o hdr chosen returned} (h : Attributed returned chosen) (hr : Agrees c r)
      (ho : fits r o = true) :
    InStep ⟨.respHeader c, [], (replyHdr c r o).pack ++ replyBody o, .headerDataReceived, hdr, [],
      chosen ++ [(c.opcode, o.reply)], returned⟩
  | respondedRead {c r o hdr chosen returned} (h : Attributed returned chosen) (hr : Agrees c r)
      (ho : fits r o = true) :
    InStep ⟨.respBody c (replyHdr c r o), [], replyBody o, .headerDataReceived, hdr, [],
      chosen ++ [(c.opcode, o.reply)], returned⟩

/-- The client waits for a header. -/
theorem Call.first_ne_idle (c : Call) : c.first ≠ .idle := by
  unfold first
  split <;> exact Client.noConfusion

theorem Call.first_ne_aborted (c : Call) : c.first ≠ .aborted := by
  unfold first
  split <;> exact Client.noConfusion

theorem Call.first_ne_respBody (c : Call) {c' : Call} {hdr : Header} : c.first ≠ .respBody c' hdr := by
  unfold first
  split <;> exact Client.noConfusion

namespace Connection

variable {s : Connection}

/-- The request of a call that does not send a descriptor at once. -/
theorem startCall_eq {c : Call} {req : List Byte} (hc : c ≠ .ikDetach) :
    s.startCall c req =
      if s.client = .idle ∧ req.length = sizeOf c.req then
        { s with toManager := s.toManager ++ plain (c.header.pack ++ req), client := c.first }
      else s := by
  cases c with
  | ikDetach => exact absurd rfl hc
  | _ => rfl

theorem inStep_call (h : InStep s) {c : Call} {req : List Byte} (hc : c ≠ .ikDetach) :
    InStep (s.startCall c req) := by
  rw [startCall_eq hc]
  split
  · rename_i hidle
    obtain ⟨hidle, hreq⟩ := hidle
    obtain ⟨r, hr⟩ := exists_agrees hc
    cases h with
    | between h => exact .requested h hr hreq (List.nil_append _)
    | requested => exact absurd hidle (Call.first_ne_idle _)
    | opened => exact absurd hidle (Call.first_ne_idle _)
    | _ => cases hidle
  · exact h

/-- Nothing has arrived for the client. -/
theorem clientStep_nil (h : s.toClient = []) (hbody : ∀ c hdr, s.client ≠ .respBody c hdr) :
    s.clientStep = s := by
  have hread : ∀ n next, 0 < n → s.clientRead n next = s := by
    intro n next hn
    rw [clientRead, h]
    exact if_neg (Nat.not_le.mpr hn)
  unfold clientStep
  split
  · rfl
  · rfl
  · exact hread _ _ (by decide)
  · exact hread _ _ (by decide)
  · exact hread _ _ (by decide)
  · rename_i c hdr hclient
    exact absurd hclient (hbody c hdr)

/-- The client reads a header that has arrived. -/
theorem clientRead_header {hdr : Header} {bs : List Byte} (h : s.toClient = hdr.pack ++ bs)
    (next : List Byte → Connection → Connection) :
    s.clientRead headerSize next = next hdr.pack { s with toClient := bs } := by
  rw [clientRead, h, take_pack, drop_pack, if_pos]
  rw [List.length_append, length_pack]
  exact Nat.le_add_right _ _

/-- The client reads all that has arrived. -/
theorem clientRead_all {n : ℕ} (h : s.toClient.length = n)
    (next : List Byte → Connection → Connection) :
    s.clientRead n next = next s.toClient { s with toClient := [] } := by
  rw [clientRead, if_pos (Nat.le_of_eq h.symm), List.take_of_length_le (Nat.le_of_eq h),
    List.drop_of_length_le (Nat.le_of_eq h)]

theorem clientStep_readyHeader {c : Call} {hdr : Header} {bs : List Byte}
    (hclient : s.client = .readyHeader c) (h : s.toClient = hdr.pack ++ bs)
    (hassert : hdr.opcode = Call.ikAttach.opcode ∧ hdr.length = 4) :
    s.clientStep = { s with toClient := bs, client := .readyBody c hdr } := by
  unfold clientStep
  rw [hclient]
  simp only [clientRead_header h, unpack_pack, if_pos hassert]

theorem clientStep_respHeader {c : Call} {hdr : Header} {bs : List Byte}
    (hclient : s.client = .respHeader c) (h : s.toClient = hdr.pack ++ bs)
    (hassert : hdr.opcode = c.opcode ∧ hdr.flags.getLsbD 0 = false ∧
      (hdr.status ≠ 0 ∨ hdr.length.toNat = sizeOf c.resp)) :
    s.clientStep = { s with toClient := bs, client := .respBody c hdr } := by
  unfold clientStep
  rw [hclient]
  simp only [clientRead_header h, unpack_pack, if_pos hassert]

theorem clientStep_respBody {c : Call} {hdr : Header} (hclient : s.client = .respBody c hdr)
    (h : s.toClient.length = bodySize c hdr) :
    s.clientStep = finish { s with toClient := [] } c
      (if hdr.status ≠ 0 then .error hdr.status else .response s.toClient) := by
  conv_lhs => unfold clientStep; rw [hclient]
  simp only [clientRead_all h]

/-- The structures are small. -/
theorem sizeOf_resp_lt (c : Call) : sizeOf c.resp < 2 ^ 16 := by
  cases c <;> decide

/-- The assertions of the client hold of the reply. -/
theorem replyHdr_asserted {c : Call} {r : Rpc} {o : Outcome} (hr : Agrees c r) (ho : fits r o = true) :
    (replyHdr c r o).opcode = c.opcode ∧ (replyHdr c r o).flags.getLsbD 0 = false ∧
      ((replyHdr c r o).status ≠ 0 ∨ (replyHdr c r o).length.toNat = sizeOf c.resp) := by
  cases o with
  | response body =>
    refine ⟨rfl, by simp [replyHdr], .inr ?_⟩
    show (BitVec.ofNat 16 (sizeOf r.resp)).toNat = _
    rw [hr.resp, BitVec.toNat_ofNat, Nat.mod_eq_of_lt (sizeOf_resp_lt c)]
  | error status => exact ⟨rfl, by simp [replyHdr], .inl (of_decide_eq_true ho)⟩

/-- The body of the reply is what the client reads after the header. -/
theorem length_replyBody {c : Call} {r : Rpc} {o : Outcome} (hr : Agrees c r) (ho : fits r o = true) :
    (replyBody o).length = bodySize c (replyHdr c r o) := by
  cases o with
  | response body =>
    have hlen : body.length = sizeOf r.resp := of_decide_eq_true ho
    exact hlen.trans hr.resp
  | error status =>
    have hne : status ≠ 0 := of_decide_eq_true ho
    exact (if_pos hne).symm

/-- What the client makes of the reply. -/
theorem reply_eq {c : Call} {r : Rpc} {o : Outcome} (ho : fits r o = true) :
    (if (replyHdr c r o).status ≠ 0 then Reply.error (replyHdr c r o).status
      else .response (replyBody o)) = o.reply := by
  cases o with
  | response body => rfl
  | error status =>
    have hne : status ≠ 0 := of_decide_eq_true ho
    exact if_pos hne

theorem Attributed.snoc {returned : List (Call × Reply)} {chosen : List (BitVec 16 × Reply)}
    (h : Attributed returned chosen) (c : Call) (r : Reply) :
    Attributed (returned ++ [(c, r)]) (chosen ++ [(c.opcode, r)]) := by
  unfold Attributed at h ⊢
  rw [List.map_append, h]
  rfl

theorem inStep_client (h : InStep s) : InStep s.clientStep := by
  cases h with
  | between h => exact .between h
  | requested h hr hreq hbuf =>
    rw [clientStep_nil rfl (fun c hdr => Call.first_ne_respBody _)]
    exact .requested h hr hreq hbuf
  | opened h hr hreq hop =>
    rw [clientStep_nil rfl (fun c hdr => Call.first_ne_respBody _)]
    exact .opened h hr hreq hop
  | ready h hr hop =>
    rw [clientStep_readyHeader rfl rfl ⟨rfl, rfl⟩]
    exact .readyRead h hr hop
  | readyRead h hr hop => exact .fdSent h hr hop
  | fdSent h hr hop =>
    rw [clientStep_nil rfl (fun c hdr => Client.noConfusion)]
    exact .fdSent h hr hop
  | responded h hr ho =>
    rw [clientStep_respHeader rfl rfl (replyHdr_asserted hr ho)]
    exact .respondedRead h hr ho
  | respondedRead h hr ho =>
    rw [clientStep_respBody rfl (length_replyBody hr ho), reply_eq ho]
    exact .between (Attributed.snoc h _ _)

theorem plain_take_drop (bs : List Byte) (n : ℕ) :
    ((plain bs).take n).map (·.byte) = bs.take n ∧ (plain bs).drop n = plain (bs.drop n) := by
  unfold plain
  constructor
  · rw [← List.map_take, List.map_map]
    exact List.map_id _
  · exact List.map_drop.symm

/-- No bytes are on their way. -/
theorem dataReceived_nil (h : s.toManager = []) (n : ℕ) : s.dataReceived n = s := by
  obtain ⟨client, toManager, toClient, curHandler, curHdr, buf, chosen, returned⟩ := s
  cases h
  unfold dataReceived
  split
  · rfl
  · simp

/-- A chunk of plain bytes is moved to the buffer. -/
theorem dataReceived_plain {rest : List Byte} (h : s.toManager = plain rest)
    (hh : ∀ r, s.curHandler ≠ .receiveFd r) (n : ℕ) :
    s.dataReceived n = { s with buf := s.buf ++ rest.take n, toManager := plain (rest.drop n) } := by
  unfold dataReceived
  split
  · rename_i r hr
    exact absurd hr (hh r)
  · rw [h, (plain_take_drop rest n).1, (plain_take_drop rest n).2]

theorem inStep_dataReceived (h : InStep s) (n : ℕ) : InStep (s.dataReceived n) := by
  cases h with
  | between h =>
    rw [dataReceived_nil rfl]
    exact .between h
  | requested h hr hreq hbuf =>
    rw [dataReceived_plain rfl (fun r => Handler.noConfusion)]
    refine .requested h hr hreq ?_
    rw [List.append_assoc, List.take_append_drop]
    exact hbuf
  | opened h hr hreq hop =>
    rw [dataReceived_plain rfl (fun r => Handler.noConfusion)]
    refine .opened h hr ?_ hop
    rw [List.append_assoc, List.take_append_drop]
    exact hreq
  | ready h hr hop => exact .ready h hr hop
  | readyRead h hr hop => exact .readyRead h hr hop
  | fdSent h hr hop => exact .fdSent h hr hop
  | responded h hr ho =>
    rw [dataReceived_nil rfl]
    exact .responded h hr ho
  | respondedRead h hr ho =>
    rw [dataReceived_nil rfl]
    exact .respondedRead h hr ho

/-- The manager answers a call that waits for the response. -/
theorem inStep_respond {c : Call} {r : Rpc} {o : Outcome} {hdr : Header} {handler : Handler}
    {chosen : List (BitVec 16 × Reply)} {returned : List (Call × Reply)} (h : Attributed returned chosen)
    (hr : Agrees c r) (hop : hdr.opcode = c.opcode) (ho : fits r o = true) :
    InStep (respond ⟨.respHeader c, [], [], handler, hdr, [], chosen, returned⟩ r o) := by
  cases o with
  | response body =>
    simp only [respond, sendMsg, hop]
    exact .responded (o := .response body) h hr ho
  | error status =>
    simp only [respond, sendMsg, hop]
    exact .responded (o := .error status) h hr ho

theorem inStep_recvmsg (h : InStep s) (o : Outcome) : InStep (s.recvmsg o) := by
  cases h with
  | between h => exact .between h
  | requested h hr hreq hbuf => exact .requested h hr hreq hbuf
  | opened h hr hreq hop => exact .opened h hr hreq hop
  | ready h hr hop => exact .ready h hr hop
  | readyRead h hr hop => exact .readyRead h hr hop
  | fdSent h hr hop =>
    simp only [recvmsg, if_true]
    split
    · rename_i ho
      exact inStep_respond h hr hop ho
    · exact .fdSent h hr hop
  | responded h hr ho => exact .responded h hr ho
  | respondedRead h hr ho => exact .respondedRead h hr ho

/-- The manager takes the header of a request. -/
theorem handle_header {hdr : Header} {bs : List Byte} {r : Rpc} (hh : s.curHandler = .headerDataReceived)
    (hbuf : s.buf = hdr.pack ++ bs) (hr : opcodeHandlers hdr.opcode = some r) (o : Outcome) :
    s.handle o = { s with curHdr := hdr, buf := bs, curHandler := .rpc r } := by
  have hlen : headerSize ≤ s.buf.length := by
    rw [hbuf, List.length_append]
    exact Nat.le_add_right _ _
  unfold handle
  rw [hh]
  simp only [if_pos hlen]
  rw [hbuf, take_pack, drop_pack, unpack_pack, hr]

/-- The manager waits for more bytes. -/
theorem handle_short (hlen : match s.curHandler with
      | .headerDataReceived => s.buf.length < headerSize
      | .rpc r => s.buf.length < sizeOf r.req
      | .receiveFd _ => True) (o : Outcome) : s.handle o = s := by
  unfold handle
  split
  · rename_i hh
    rw [hh] at hlen
    exact if_neg (Nat.not_le.mpr hlen)
  · rename_i r hh
    rw [hh] at hlen
    exact if_neg (Nat.not_le.mpr hlen)
  · rfl

theorem inStep_handle (h : InStep s) (o : Outcome) : InStep (s.handle o) := by
  cases h with
  | between h =>
    rw [handle_short (show ([] : List Byte).length < headerSize by decide)]
    exact .between h
  | @requested c r hdr buf rest req chosen returned h hr hreq hbuf =>
    by_cases hlen : headerSize ≤ buf.length
    · obtain ⟨bs, rfl⟩ : ∃ bs, buf = c.header.pack ++ bs := by
        have hle : c.header.pack <+: buf :=
          List.prefix_of_prefix_length_le (hbuf ▸ List.prefix_append _ _) (List.prefix_append buf rest) hlen
        exact hle.imp (fun _ => Eq.symm)
      rw [List.append_assoc, List.append_cancel_left_eq] at hbuf
      rw [handle_header rfl rfl hr.handler]
      exact .opened h hr (by rw [hbuf, hreq]) rfl
    · rw [handle_short (Nat.lt_of_not_le hlen)]
      exact .requested h hr hreq hbuf
  | @opened c r hdr buf rest chosen returned h hr hreq hop =>
    by_cases hlen : sizeOf r.req ≤ buf.length
    · -- the request is complete, so nothing is left on the way
      obtain rfl : rest = [] := by
        rw [List.length_append] at hreq
        rw [hr.req] at hlen
        exact List.length_eq_zero_iff.mp (by omega)
      have hdrop : buf.drop (sizeOf r.req) = [] := by
        rw [List.length_append, List.length_nil, Nat.add_zero] at hreq
        exact List.drop_of_length_le (Nat.le_of_eq (hreq.trans hr.req.symm))
      simp only [handle, if_pos hlen, hdrop]
      by_cases hfd : r.receivesFd = true
      · obtain rfl := hr.fd.mp hfd
        rw [if_pos hfd]
        simp only [sendMsg, hop]
        exact .ready h hr hop
      · have hfirst : c.first = .respHeader c := if_neg (fun hc => hfd (hr.fd.mpr hc))
        rw [if_neg hfd, hfirst]
        split
        · rename_i ho
          exact inStep_respond h hr hop ho
        · have hopened : InStep ⟨c.first, plain [], [], .rpc r, hdr, buf, chosen, returned⟩ :=
            .opened h hr hreq hop
          rw [hfirst] at hopened
          exact hopened
    · rw [handle_short (Nat.lt_of_not_le hlen)]
      exact .opened h hr hreq hop
  | ready h hr hop => exact .ready h hr hop
  | readyRead h hr hop => exact .readyRead h hr hop
  | fdSent h hr hop => exact .fdSent h hr hop
  | responded h hr ho =>
    rw [handle_short (show ([] : List Byte).length < headerSize by decide)]
    exact .responded h hr ho
  | respondedRead h hr ho =>
    rw [handle_short (show ([] : List Byte).length < headerSize by decide)]
    exact .respondedRead h hr ho

/-- Every call but `ik_detach`. -/
def NoDetach : Action → Prop
  | .call c _ => c ≠ .ikDetach
  | _ => True

theorem inStep_step (h : InStep s) {a : Action} (ha : NoDetach a) : InStep (s.step a) := by
  cases a with
  | call c req => exact inStep_call h ha
  | client => exact inStep_client h
  | dataReceived n => exact inStep_dataReceived h n
  | handle o => exact inStep_handle h o
  | recvmsg o => exact inStep_recvmsg h o

/-- No assertion of the client failed; and between two calls nothing is left in either stream, the manager
waits for a header, and the replies were returned by the calls that they belong to. -/
def InSync (s : Connection) : Prop :=
  s.client ≠ .aborted ∧
    (s.client = .idle → s.toManager = [] ∧ s.toClient = [] ∧ s.curHandler = .headerDataReceived ∧ s.buf = [] ∧
      Attributed s.returned s.chosen)

theorem inSync_of_inStep (h : InStep s) : s.InSync := by
  cases h with
  | between h => exact ⟨Client.noConfusion, fun _ => ⟨rfl, rfl, rfl, rfl, h⟩⟩
  | requested => exact ⟨Call.first_ne_aborted _, fun hidle => absurd hidle (Call.first_ne_idle _)⟩
  | opened => exact ⟨Call.first_ne_aborted _, fun hidle => absurd hidle (Call.first_ne_idle _)⟩
  | _ => exact ⟨Client.noConfusion, Client.noConfusion⟩

instance : ∀ a, Decidable (NoDetach a)
  | .call c _ => inferInstanceAs (Decidable (c ≠ .ikDetach))
  | .client => .isTrue trivial
  | .dataReceived _ => .isTrue trivial
  | .handle _ => .isTrue trivial
  | .recvmsg _ => .isTrue trivial

/-- An `ik_attach` that succeeds and an `ik_rpc` that fails, with requests that arrive in pieces. -/
def attachAndRpc : List Action :=
  [.call .ikAttach [3, 0, 0, 0], .dataReceived 5, .handle (.error einval), .dataReceived 7,
    .handle (.error einval), .handle (.error einval), .client, .client,
    .recvmsg (.response [1, 0, 0, 0, 2, 0, 0, 0]), .client, .client,
    .call .ikRpc [3, 0, 0, 0, 16, 0, 0, 0, 0, 0, 0, 0, 0, 0, 0, 0], .dataReceived 24,
    .handle (.error einval), .handle (.error 110), .client, .client]

/-- An `ik_detach`, as far as the first header that the client reads. -/
def detach : List Action :=
  [.call .ikDetach [3, 0, 0, 0], .dataReceived 12, .handle (.error einval), .handle (.error einval), .client]

end Connection

end Nica.Libnica.Wire

import Nica.Manager.Equiv.Replies

/-!
# Which requests the manager answers

A request gets its response if it has the length of its structure and no exception leaves its handler.
`answered_iff` says so for every sequence of requests on a connection, whatever the manager's state.
-/

namespace Nica.Manager.Rpc

open Nica.Lib Nica.Lib.Prog Nica.Libnica Protocol
open Nica.Libnica.Wire (Byte Member)

/-! ### Requests and responses -/

/-- The structures that `rpc` gives the handler of an opcode. -/
def structures : Kind → BitVec 16 → Option Wire.Rpc
  | .client => Wire.opcodeHandlers
  | .hypervisor _ => hypervisorHandlers

/-- The handler of an opcode with its arguments. -/
def handlerOf (kind : Kind) (opcode : BitVec 16) (args : List Byte) (fd : Descriptor) : Mgr Response :=
  match kind with
  | .client => Client.handler (clientRequest opcode args fd)
  | .hypervisor _ => Hypervisor.handler (vmRequest opcode args)

/-- The state in which a handler of the connection `c` starts. -/
def Env.enter (env : Env) (c : ℕ) : State := { env.mgr with caller := c }

/-- The descriptor that `receive_fd` finds. -/
def Env.fd (env : Env) : Descriptor := env.descriptors.head?.getD .missing

/-- What the handler of a request returns or raises. -/
def outcomeOf (kind : Kind) (c : ℕ) (env : Env) (f : Frame) : Except Exn Response :=
  ((handlerOf kind f.opcode f.body env.fd).exec (env.enter c)).1

/-- The opcode is known, and its handler returns a status of 0. -/
def Succeeds (kind : Kind) (c : ℕ) (env : Env) (f : Frame) : Prop :=
  (structures kind f.opcode).isSome ∧ ∃ values, outcomeOf kind c env f = .ok (.ok values)

/-- The messages for a request are those of `receive_fd`, if it is called, and one response with the opcode of
the request.  Its status is an error unless the request succeeds. -/
def Responds (kind : Kind) (c : ℕ) (env : Env) (f : Frame) (response : List (List Byte)) : Prop :=
  ∃ members body status, body.length = Wire.sizeOf members ∧ (status = 0 ↔ Succeeds kind c env f) ∧
    response = (if receivesFd kind f.opcode then [emptyMessage f.opcode 0] else []) ++
      [message f.opcode members body status]

/-- No exception leaves the handler of a request. -/
def Replies (kind : Kind) (c : ℕ) (env : Env) (f : Frame) : Prop :=
  match kind with
  | .client => ClientReplies (env.enter c) (clientRequest f.opcode f.body env.fd)
  | .hypervisor _ => VmReplies (env.enter c) (vmRequest f.opcode f.body)

/-- The request has the length of the structure of its opcode, or none if the opcode is unknown, and no
exception leaves its handler. -/
def Meets (kind : Kind) (c : ℕ) (env : Env) (f : Frame) : Prop :=
  match structures kind f.opcode with
  | none => f.body = []
  | some r => f.body.length = Wire.sizeOf r.req ∧ Replies kind c env f

theorem handlers_eq (kind : Kind) (c : ℕ) (opcode : BitVec 16) :
    handlers kind c opcode = (structures kind opcode).map fun r =>
      ⟨Wire.sizeOf r.req, serve c opcode r (handlerOf kind opcode)⟩ := by
  cases kind <;> rfl

theorem mem_of_opcodeHandlers {opcode : BitVec 16} {r : Wire.Rpc} (h : Wire.opcodeHandlers opcode = some r) :
    opcode ∈ ([1, 2, 3, 4, 5, 6, 7, 8, 9] : List (BitVec 16)) := by
  unfold Wire.opcodeHandlers at h
  by_contra hnot
  simp only [List.mem_cons, List.not_mem_nil, or_false, not_or] at hnot
  obtain ⟨h₁, h₂, h₃, h₄, h₅, h₆, h₇, h₈, h₉⟩ := hnot
  rw [if_neg h₁, if_neg h₂, if_neg h₃, if_neg h₄, if_neg h₅, if_neg h₆, if_neg h₇, if_neg h₈, if_neg h₉] at h
  cases h

theorem mem_of_hypervisorHandlers {opcode : BitVec 16} {r : Wire.Rpc} (h : hypervisorHandlers opcode = some r) :
    opcode ∈ ([1, 2, 3, 4, 5, 6, 7, 8, 9, 10, 11] : List (BitVec 16)) := by
  unfold hypervisorHandlers at h
  by_contra hnot
  simp only [List.mem_cons, List.not_mem_nil, or_false, not_or] at hnot
  obtain ⟨h₁, h₂, h₃, h₄, h₅, h₆, h₇, h₈, h₉, h₁₀, h₁₁⟩ := hnot
  rw [if_neg h₁, if_neg h₂, if_neg h₃, if_neg h₄, if_neg h₅, if_neg h₆, if_neg h₇, if_neg h₈, if_neg h₉,
    if_neg h₁₀, if_neg h₁₁] at h
  cases h

theorem receivesFd_eq {kind : Kind} {opcode : BitVec 16} {r : Wire.Rpc} (h : structures kind opcode = some r) :
    r.receivesFd = receivesFd kind opcode := by
  cases kind with
  | client =>
    have hmem := mem_of_opcodeHandlers h
    simp only [List.mem_cons, List.not_mem_nil, or_false] at hmem
    rcases hmem with rfl | rfl | rfl | rfl | rfl | rfl | rfl | rfl | rfl <;> cases h <;> rfl
  | hypervisor tc =>
    have hmem := mem_of_hypervisorHandlers h
    simp only [List.mem_cons, List.not_mem_nil, or_false] at hmem
    rcases hmem with rfl | rfl | rfl | rfl | rfl | rfl | rfl | rfl | rfl | rfl | rfl <;> cases h <;> rfl

theorem receivesFd_unknown {kind : Kind} {opcode : BitVec 16} (h : structures kind opcode = none) :
    receivesFd kind opcode = false := by
  cases kind with
  | client =>
    refine decide_eq_false ?_
    rintro ⟨-, rfl | rfl⟩ <;> cases h
  | hypervisor tc => rfl

/-- The number of words in the response to a request. -/
def wordsOf (kind : Kind) (opcode : BitVec 16) (args : List Byte) (fd : Descriptor) : ℕ :=
  match kind with
  | .client => clientWords (clientRequest opcode args fd)
  | .hypervisor _ => vmWords (vmRequest opcode args)

theorem sizeOf_resp {kind : Kind} {opcode : BitVec 16} {r : Wire.Rpc} (h : structures kind opcode = some r)
    (args : List Byte) (fd : Descriptor) : Wire.sizeOf r.resp = 4 * wordsOf kind opcode args fd := by
  cases kind with
  | client =>
    have hmem := mem_of_opcodeHandlers h
    simp only [List.mem_cons, List.not_mem_nil, or_false] at hmem
    rcases hmem with rfl | rfl | rfl | rfl | rfl | rfl | rfl | rfl | rfl <;> cases h <;> rfl
  | hypervisor tc =>
    have hmem := mem_of_hypervisorHandlers h
    simp only [List.mem_cons, List.not_mem_nil, or_false] at hmem
    rcases hmem with rfl | rfl | rfl | rfl | rfl | rfl | rfl | rfl | rfl | rfl | rfl <;> cases h <;> rfl

theorem sends_iff_replies (kind : Kind) (c : ℕ) (env : Env) (f : Frame) :
    Sends (wordsOf kind f.opcode f.body env.fd) (outcomeOf kind c env f) ↔ Replies kind c env f := by
  cases kind with
  | client => exact (decides_client _ _).iff
  | hypervisor tc => exact (decides_vm _ _).iff

/-! ### What `rpc` sends -/

theorem sends_iff_packResponse {resp : List Member} {words : ℕ} (hwords : Wire.sizeOf resp = 4 * words)
    (values : List ℤ) : (packResponse resp values).isSome ↔ Sends words (.ok (.ok values)) := by
  unfold packResponse
  split
  · rename_i hfits
    refine iff_of_true rfl ⟨?_, hfits.2⟩
    have := hfits.1
    omega
  · rename_i hfits
    refine iff_of_false (by simp) ?_
    rintro ⟨hlen, hall⟩
    exact hfits ⟨by omega, hall⟩

theorem length_packResponse {resp : List Member} {values : List ℤ} {body : List Byte}
    (h : packResponse resp values = some body) : body.length = Wire.sizeOf resp := by
  unfold packResponse at h
  split at h
  · rename_i hfits
    cases h
    have hlen : ∀ xs : List ℤ, (xs.flatMap fun x => bytes32 (BitVec.ofInt 32 x)).length = 4 * xs.length := by
      intro xs
      induction xs with
      | nil => rfl
      | cons x xs ih =>
        rw [List.flatMap_cons, List.length_append, ih, List.length_cons]
        show 4 + 4 * xs.length = _
        omega
    rw [hlen, hfits.1]
  · cases h

theorem code_ne_zero (errno : Errno) : code errno ≠ 0 := by
  cases errno <;> decide

/-- `rpc` sends one whole message, with a status of 0 exactly if the handler returned one, or the request is
not answered. -/
theorem respond_spec (opcode : BitVec 16) {resp : List Member} {words : ℕ}
    (hwords : Wire.sizeOf resp = 4 * words) (o : Except Exn Response) :
    ((respond opcode resp (reply o)).2 = false ↔ Sends words o) ∧
      (Sends words o → ∃ members body status, body.length = Wire.sizeOf members ∧
        members = (if status = 0 then resp else Wire.emptyStruct) ∧
        (status = 0 ↔ ∃ values, o = .ok (.ok values)) ∧
        (respond opcode resp (reply o)).1 = [message opcode members body status]) := by
  -- an error status, whatever raised it
  have herror : ∀ (o : Except Exn Response) (errno : Errno), (∀ values, o ≠ .ok (.ok values)) →
      ∃ members body status, body.length = Wire.sizeOf members ∧
        members = (if status = 0 then resp else Wire.emptyStruct) ∧
        (status = 0 ↔ ∃ values, o = .ok (.ok values)) ∧
        [emptyMessage opcode (code errno)] = [message opcode members body status] := by
    intro o errno ho
    refine ⟨_, _, _, ?_, (if_neg (code_ne_zero errno)).symm, iff_of_false (code_ne_zero errno) ?_, rfl⟩
    · decide
    · rintro ⟨values, h⟩
      exact ho values h
  rcases o with e | ⟨_ | errno, values⟩
  · rcases e with (_ | errno) | _
    case osError.some => exact ⟨iff_of_true rfl trivial, fun _ => herror _ errno fun _ h => by cases h⟩
    case timeoutError => exact ⟨iff_of_true rfl trivial, fun _ => herror _ .ETIMEDOUT fun _ h => by cases h⟩
    all_goals exact ⟨iff_of_false (show ¬ true = false by decide) fun h => h, fun h => absurd h fun h => h⟩
  · have hiff := sends_iff_packResponse hwords values
    rcases hpack : packResponse resp values with _ | body
    · rw [hpack] at hiff
      have hnot : ¬ Sends words (.ok (.ok values)) := fun h => by cases hiff.mpr h
      refine ⟨iff_of_false ?_ hnot, fun h => absurd h hnot⟩
      simp [reply, respond, hpack]
    · rw [hpack] at hiff
      refine ⟨iff_of_true ?_ (hiff.mp rfl), fun _ => ⟨resp, body, 0, length_packResponse hpack, ?_, ?_, ?_⟩⟩
      · simp [reply, respond, hpack]
      · exact (if_pos rfl).symm
      · exact iff_of_true rfl ⟨values, rfl⟩
      · simp [reply, respond, hpack]
  · exact ⟨iff_of_true rfl trivial, fun _ => herror _ errno fun _ h => by cases h⟩

section Tables

variable (kind : Kind) (c : ℕ)

theorem serve_raises (opcode : BitVec 16) (r : Wire.Rpc) (handler : List Byte → Descriptor → Mgr Response)
    (args : List Byte) (env : Env) :
    (serve c opcode r handler args env).raises =
      (respond opcode r.resp (reply ((handler args env.fd).exec (env.enter c)).1)).2 := rfl

theorem serve_sent (opcode : BitVec 16) (r : Wire.Rpc) (handler : List Byte → Descriptor → Mgr Response)
    (args : List Byte) (env : Env) :
    (serve c opcode r handler args env).sent =
      (if r.receivesFd then [emptyMessage opcode 0] else []) ++
        (respond opcode r.resp (reply ((handler args env.fd).exec (env.enter c)).1)).1 := by
  show (if r.receivesFd then _ :: _ else _) = _
  split <;> rfl

/-- The condition on the lengths and the outcome is the one on the lengths and the state. -/
theorem frameOk_iff_meets (env : Env) (f : Frame) : FrameOk (handlers kind c) env f ↔ Meets kind c env f := by
  unfold FrameOk Meets
  rw [handlers_eq]
  rcases hr : structures kind f.opcode with _ | r
  · exact Iff.rfl
  · have hspec := respond_spec f.opcode (sizeOf_resp hr f.body env.fd) (outcomeOf kind c env f)
    exact and_congr Iff.rfl (hspec.1.trans (sends_iff_replies kind c env f))

theorem responds_of_frameOk (env : Env) (f : Frame) (hok : FrameOk (handlers kind c) env f) :
    Responds kind c env f (answersTo (handlers kind c) env f) := by
  unfold Responds Succeeds
  unfold FrameOk at hok
  unfold answersTo
  rw [handlers_eq] at hok ⊢
  rcases hr : structures kind f.opcode with _ | r
  · rw [receivesFd_unknown hr]
    refine ⟨Wire.emptyStruct, [0, 0, 0, 0], Wire.enosys, rfl, ?_, rfl⟩
    exact iff_of_false (by decide) fun h => by cases h.1
  · rw [hr] at hok
    have hspec := respond_spec f.opcode (sizeOf_resp hr f.body env.fd) (outcomeOf kind c env f)
    obtain ⟨members, body, status, hlen, -, hstatus, hsent⟩ := hspec.2 (hspec.1.mp hok.2)
    refine ⟨members, body, status, hlen, hstatus.trans ⟨fun h => ⟨rfl, h⟩, fun h => h.2⟩, ?_⟩
    rw [← receivesFd_eq hr, ← hsent]
    exact serve_sent c f.opcode r _ f.body env

/-- The number of messages for a request that is answered. -/
def messagesFor (opcode : BitVec 16) : ℕ := if receivesFd kind opcode then 2 else 1

theorem length_responds (env : Env) (f : Frame) (response : List (List Byte))
    (h : Responds kind c env f response) : response.length = messagesFor kind f.opcode := by
  obtain ⟨members, body, status, -, -, rfl⟩ := h
  unfold messagesFor
  split <;> rfl

theorem talks_handlers : Talks (handlers kind c) (messagesFor kind) where
  unknown opcode h := by
    rw [handlers_eq, Option.map_eq_none_iff] at h
    unfold messagesFor
    rw [receivesFd_unknown h]
    rfl
  served opcode e h args env hraises := by
    rw [handlers_eq] at h
    obtain ⟨r, hr, rfl⟩ := Option.map_eq_some_iff.mp h
    have hspec := respond_spec opcode (sizeOf_resp hr args env.fd)
      ((handlerOf kind opcode args env.fd).exec (env.enter c)).1
    obtain ⟨members, body, status, -, -, -, hsent⟩ := hspec.2 (hspec.1.mp hraises)
    have hall := serve_sent c opcode r (handlerOf kind opcode) args env
    rw [hsent, receivesFd_eq hr] at hall
    show (serve c opcode r (handlerOf kind opcode) args env).sent.length = _
    rw [hall]
    unfold messagesFor
    split <;> rfl
  pos opcode := by
    unfold messagesFor
    split <;> decide

end Tables

/-- A request with an opcode that no handler has. -/
def unknownFrame : Frame := ⟨99, 0, 0, [2, 0, 0, 0], by decide⟩

/-- The manager of a device with one custom ring, and a client. -/
def oneRingEnv : Env :=
  ⟨runFrom (Manager.init ⟨[0x65], 0x0a000002, 0x02, 0x2b49fec3d30c464da6a1171f9e4443f1, 1⟩)
    [.connect .client], []⟩

/-- `ik_create` on the interface `e`, and `cr_create` for the ikernel that it gives. -/
def ringFrames : List Frame :=
  [⟨1, 0, 0, 0x65 :: List.replicate 15 0 ++ [0x2b, 0x49, 0xfe, 0xc3, 0xd3, 0x0c, 0x46, 0x4d, 0xa6, 0xa1, 0x17,
      0x1f, 0x9e, 0x44, 0x43, 0xf1], by decide⟩,
    ⟨6, 0, 0, [0, 0, 0, 0, 5, 0, 0, 0], by decide⟩]

end Nica.Manager.Rpc

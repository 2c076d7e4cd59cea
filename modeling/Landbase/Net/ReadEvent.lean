import Landbase.Net.ResultSet

/-! # Any request of a client

What `MysqlCommunicator::read_event` does with whatever a client sends. A request that comes in whole is answered at once, or
goes on as an event with the query: the header of the class says so of the handshake, and `Server::recv` takes a success
without an event. What can go wrong lies in the length that the request announces. It is the signed length of a vector, of
which four bytes are read before the handshake, and one byte after it.
-/

namespace Landbase.Net
open PacketBuffer
set_option autoImplicit false

/-! ## What comes in -/

namespace Incoming

/-- So many bytes and what is left, when they come in before the connection fails or ends. -/
def take (incoming : Incoming) (size : ℕ) : Option (Bytes × Incoming) :=
  match incoming.readn size with
  | (ret, got, rest) => if ret ≠ 0 then none else some (got, rest)

/-- The length in the header, without a sign. -/
def announced (incoming : Incoming) : ℕ := ofLowBytes (incoming.bytes.take 3)

/-- The header of a request and its payload, and what is left. -/
def packet (incoming : Incoming) : Option (Bytes × Bytes × Incoming) :=
  (incoming.take 4).bind fun header => (header.2.take incoming.announced).map fun payload => (header.1, payload)

end Incoming

/-- What a payload asks for. -/
inductive Request
  | handshake (capabilities : UInt32)
  | versionComment
  | query (text : Bytes)
  | other

namespace Request

/-- Only a query goes on. -/
def event : Request → Option Bytes
  | .query text => some text
  | _ => none

/-- The packets that answer the request at once. -/
def answer (capabilities : UInt32) : Request → List Bytes
  | .handshake capabilities => [okPayload capabilities 0]
  | .versionComment => MysqlCommunicator.resultSetPayloads capabilities [([], text "@@version_comment")] [[text "MiniOB"]]
  | .query _ => []
  | .other => [okPayload capabilities 0]

def rc (closeRc : RC) : Request → RC
  | .versionComment => closeRc
  | _ => .success

/-- The capabilities that hold from now on. -/
def agreed (capabilities : UInt32) : Request → UInt32
  | .handshake capabilities => capabilities
  | _ => capabilities

end Request

namespace MysqlCommunicator

def request (comm : MysqlCommunicator) (payload : Bytes) : Request :=
  if comm.authed then
    if payload.head? = some 3 then
      if text "select @@version_comment" <:+: payload.tail ++ text ";" then .versionComment
      else .query (payload.tail ++ text ";")
    else .other
  else .handshake (UInt32.ofNat (ofLowBytes (payload.take 4)))

/-- If a header comes in, it announces the length of a vector; and if the payload does too, it has the bytes that are read. -/
def Served (comm : MysqlCommunicator) (incoming : Incoming) : Prop :=
  ∀ header rest, incoming.take 4 = some (header, rest) → incoming.announced < 2 ^ 23 ∧
    ∀ payload, rest.take incoming.announced = some payload → (if comm.authed then 1 else 4) ≤ incoming.announced

/-- The vector has the length that was announced, and the call either fails or has handled exactly that payload. -/
structure Handles (comm : MysqlCommunicator) (incoming : Incoming) (handled : Handled) : Prop where
  buf : ∀ length, handled.buf = some length → length = incoming.announced
  request : (handled.rc ≠ .success ∧ handled.event = none) ∨
    ∃ header payload, incoming.bytes = header ++ payload ++ handled.incoming.bytes ∧ header.length = 4 ∧
      payload.length = incoming.announced ∧ handled.buf = some payload.length ∧
      handled.event = (comm.request payload).event ∧ handled.comm.authed = true ∧
      handled.comm.clientCapabilitiesFlag = (comm.request payload).agreed comm.clientCapabilitiesFlag

/-- These bytes are sent and flushed, and the answer is `a`; or the descriptor accepts too little of them. -/
def Replies {α : Type} (bytes : Bytes) (comm : MysqlCommunicator) (result : Except Stop α) (a : α → Prop)
    (after : α → MysqlCommunicator) : Prop :=
  ∀ c sent q, 1 ≤ c → c ≤ 2 ^ 30 → Sent c comm.writer comm.channel sent q →
    (result = .error .waits ∧ comm.channel.room < (sent ++ bytes).length) ∨
      ∃ done q', result = .ok done ∧ a done ∧ Sent c (after done).writer (after done).channel (sent ++ bytes) q' ∧
        (bytes = [] ∨ q' = [])

/-- A call stops only where the writer waits for the client, and one that comes back has handled the request. Nothing is
sent for a request that does not come in; one that does is answered by the packets that are due, with consecutive numbers. -/
structure Safe (comm : MysqlCommunicator) (incoming : Incoming) (closeRc : RC) (result : Except Stop Handled) : Prop where
  stops : ∀ stop, result = .error stop → stop = .waits
  handles : ∀ handled, result = .ok handled → Handles comm incoming handled
  fails : incoming.packet = none → ∃ handled, result = .ok handled ∧ handled.rc = .ioerrRead ∧
    handled.comm.writer = comm.writer ∧ handled.comm.channel = comm.channel
  answers : ∀ header payload rest, incoming.packet = some (header, payload, rest) →
    Replies (numbered (Net.sequenceId header + 1) ((comm.request payload).answer comm.clientCapabilitiesFlag)) comm result
      (fun handled => handled.rc = (comm.request payload).rc closeRc) Handled.comm

/-- That every call fails or has an event with the query that was sent. -/
def Queries (comm : MysqlCommunicator) (incoming : Incoming) (closeRc : RC) : Prop :=
  ∃ handled, comm.readEvent incoming closeRc = .ok handled ∧
    (∀ length, handled.buf = some length → length = incoming.announced) ∧
    (handled.rc ≠ .success ∨
      ∃ header payload, incoming.bytes = header ++ payload ++ handled.incoming.bytes ∧ header.length = 4 ∧
        payload.length = incoming.announced ∧ handled.buf = some payload.length ∧
        handled.event = some (payload.tail ++ text ";"))

end MysqlCommunicator

/-! ## Reading -/

theorem readnLoop_spec (script : List SysRead) (bytes : Bytes) (size : ℕ) :
    ∃ ret got incoming, readnLoop script bytes size = (ret, got, incoming) ∧ bytes = got ++ incoming.bytes ∧
      (ret = 0 → got.length = size) := by
  induction script generalizing bytes size with
  | nil =>
    cases size with
    | zero => exact ⟨0, [], _, rfl, rfl, fun _ => rfl⟩
    | succ size => exact ⟨-1, [], _, rfl, rfl, fun h => absurd h (by decide)⟩
  | cons answer script ih =>
    cases size with
    | zero => exact ⟨0, [], _, by rw [readnLoop], rfl, fun _ => rfl⟩
    | succ size =>
      cases answer with
      | again => exact ih bytes (size + 1)
      | intr => exact ih bytes (size + 1)
      | error errno =>
        refine ⟨errno, [], _, rfl, rfl, fun h => ?_⟩
        have hpos := errno.pos
        omega
      | deliver n =>
        rw [readnLoop]
        by_cases hnone : bytes.take (min n (size + 1)) = []
        · exact ⟨-1, [], ⟨bytes, script⟩, if_pos hnone, rfl, fun h => absurd h (by decide)⟩
        · have hle : (bytes.take (min n (size + 1))).length ≤ size + 1 := by
            rw [List.length_take]
            omega
          obtain ⟨ret, more, incoming, hread, hbytes, hlength⟩ :=
            ih (bytes.drop (bytes.take (min n (size + 1))).length) (size + 1 - (bytes.take (min n (size + 1))).length)
          refine ⟨ret, bytes.take (min n (size + 1)) ++ more, incoming, ?_, ?_, fun hret => ?_⟩
          · simp only [if_neg hnone, hread]
          · rw [List.append_assoc, ← hbytes]
            exact List.prefix_append_drop (List.take_prefix _ bytes)
          · rw [List.length_append, hlength hret]
            omega

theorem payloadLength_eq {header : Bytes} (h : ofLowBytes (header.take 3) < 2 ^ 23) :
    payloadLength header = ofLowBytes (header.take 3) := by
  exact Int.bmod_eq_of_le_mul_two (by omega) (by omega)

theorem ofLowBytes_lt (bytes : Bytes) : ofLowBytes bytes < 256 ^ bytes.length := by
  induction bytes with
  | nil => exact Nat.one_pos
  | cons byte bytes ih =>
    have hbyte := byte.toNat_lt
    rw [ofLowBytes, List.length_cons, pow_succ]
    omega

theorem payloadLength_neg {header : Bytes} (h : 2 ^ 23 ≤ ofLowBytes (header.take 3)) : payloadLength header < 0 := by
  have hlt : ofLowBytes (header.take 3) < 2 ^ 24 := by
    have hpow : 256 ^ (header.take 3).length ≤ 256 ^ 3 := Nat.pow_le_pow_right (by decide) (List.length_take_le 3 header)
    exact (ofLowBytes_lt _).trans_le hpow
  unfold payloadLength
  generalize ofLowBytes (header.take 3) = length at h hlt
  rw [Int.bmod_eq_emod]
  split
  · omega
  · next hlow => exact absurd (show (length : ℤ) % (2 ^ 24 : ℕ) ≥ ((2 ^ 24 : ℕ) + 1) / 2 by omega) hlow

namespace Incoming

/-- The call either delivers the bytes at the front of the stream or fails. -/
theorem readn_cases (incoming : Incoming) (size : ℕ) :
    (∃ got rest, incoming.readn size = (0, got, rest) ∧ incoming.take size = some (got, rest) ∧
      incoming.bytes = got ++ rest.bytes ∧ got.length = size) ∨
      ∃ ret got rest, incoming.readn size = (ret, got, rest) ∧ ret ≠ 0 ∧ incoming.take size = none := by
  obtain ⟨ret, got, rest, hread, hbytes, hlength⟩ := readnLoop_spec incoming.script incoming.bytes size
  have hreadn : incoming.readn size = (ret, got, rest) := hread
  by_cases hret : ret = 0
  · subst hret
    exact Or.inl ⟨got, rest, hreadn, by rw [take, hreadn]; rfl, hbytes, hlength rfl⟩
  · exact Or.inr ⟨ret, got, rest, hreadn, hret, by rw [take, hreadn]; exact if_pos hret⟩

theorem announced_eq {incoming rest : Incoming} {header : Bytes} (hbytes : incoming.bytes = header ++ rest.bytes)
    (hlength : header.length = 4) : incoming.announced = ofLowBytes (header.take 3) := by
  rw [announced, hbytes, List.take_append_of_le_length (by omega)]

end Incoming

/-! ## Stopping -/

namespace MysqlCommunicator

/-- A computation that stops only where the writer waits, and leaves the handshake as it is. -/
structure Steady {α : Type} (comm : MysqlCommunicator) (result : Except Stop (α × MysqlCommunicator)) : Prop where
  stops : ∀ stop, result = .error stop → stop = .waits
  keeps : ∀ a comm', result = .ok (a, comm') →
    comm'.authed = comm.authed ∧ comm'.clientCapabilitiesFlag = comm.clientCapabilitiesFlag

namespace Steady

variable {α β : Type} {comm comm' : MysqlCommunicator} {result : Except Stop (α × MysqlCommunicator)}

theorem ok (a : α) (hauthed : comm'.authed = comm.authed)
    (hcapabilities : comm'.clientCapabilitiesFlag = comm.clientCapabilitiesFlag) : Steady comm (.ok (a, comm')) where
  stops _ h := by cases h
  keeps _ _ h := by
    cases h
    exact ⟨hauthed, hcapabilities⟩

theorem bind {next : α × MysqlCommunicator → Except Stop (β × MysqlCommunicator)} (h : Steady comm result)
    (hnext : ∀ a comm', Steady comm' (next (a, comm'))) : Steady comm (result >>= next) := by
  cases result with
  | error stop =>
    refine ⟨fun stop' hstop => ?_, fun _ _ hok => by cases hok⟩
    cases hstop
    exact h.stops stop rfl
  | ok done =>
    obtain ⟨a, comm₁⟩ := done
    obtain ⟨hauthed, hcapabilities⟩ := h.keeps a comm₁ rfl
    refine ⟨(hnext a comm₁).stops, fun b comm₂ hok => ?_⟩
    obtain ⟨hauthed', hcapabilities'⟩ := (hnext a comm₁).keeps b comm₂ hok
    exact ⟨hauthed'.trans hauthed, hcapabilities'.trans hcapabilities⟩

theorem ite {p : Prop} [Decidable p] {result' : Except Stop (α × MysqlCommunicator)} (h : Steady comm result)
    (h' : Steady comm result') : Steady comm (if p then result else result') := by
  split
  · exact h
  · exact h'

theorem wrote (comm : MysqlCommunicator) (call : Option (RC × BufferedWriter × Channel)) : Steady comm (comm.wrote call) := by
  cases call with
  | none =>
    refine ⟨fun stop hstop => ?_, fun _ _ hok => by cases hok⟩
    cases hstop
    rfl
  | some done => exact ok done.1 rfl rfl

theorem packet (comm : MysqlCommunicator) {encoded : Option Bytes} {bytes : Bytes} (h : encoded = some bytes) :
    Steady comm (comm.sendPacket encoded) := by
  subst h
  exact wrote comm _

theorem counted (comm : MysqlCommunicator) {encoded : Option Bytes} {bytes : Bytes} (h : encoded = some bytes) :
    Steady comm (comm.countUp.sendPacket encoded) := by
  have hsteady := packet comm.countUp h
  exact ⟨hsteady.stops, hsteady.keeps⟩

end Steady

theorem sendDefinitions_steady (comm : MysqlCommunicator) {specs : List (Bytes × Bytes)}
    (h : ∀ spec ∈ specs, 4 + (columnPayload spec).length ≤ 1024) : Steady comm (comm.sendDefinitions specs) := by
  induction specs generalizing comm with
  | nil => exact Steady.ok _ rfl rfl
  | cons spec specs ih =>
    have hencode := encodeColumnDefinition_eq comm.sequenceId spec (h spec List.mem_cons_self)
    refine (Steady.counted comm hencode).bind fun _ comm' => ?_
    exact Steady.ite (Steady.ok _ rfl rfl) (ih comm' fun other hmem => h other (List.mem_cons_of_mem spec hmem))

theorem sendMetadataEnd_steady (comm : MysqlCommunicator) : Steady comm comm.sendMetadataEnd := by
  have hencode := EofPacket.encode_packet { sequenceId := comm.sequenceId, statusFlags := 0x02 }
    comm.clientCapabilitiesFlag rfl rfl
  unfold sendMetadataEnd
  refine Steady.ite ?_ (Steady.ok _ rfl rfl)
  exact (Steady.counted comm hencode).bind fun _ _ => Steady.ok _ rfl rfl

theorem sendColumnDefinition_steady (comm : MysqlCommunicator) {specs : List (Bytes × Bytes)}
    (h : ∀ spec ∈ specs, 4 + (columnPayload spec).length ≤ 1024) : Steady comm (comm.sendColumnDefinition specs) := by
  unfold sendColumnDefinition
  refine Steady.ite (Steady.ok _ rfl rfl) ?_
  refine (Steady.counted comm (encodeColumnCount_eq _ _ _)).bind fun _ _ => Steady.ite (Steady.ok _ rfl rfl) ?_
  refine (sendDefinitions_steady _ h).bind fun _ _ => Steady.ite (Steady.ok _ rfl rfl) ?_
  exact sendMetadataEnd_steady _

theorem sendRows_steady (comm : MysqlCommunicator) {rows : List (List Bytes)}
    (h : ∀ cells ∈ rows, 4 + (rowPayload cells).length ≤ 4 * 1024 * 1024) : Steady comm (comm.sendRows rows) := by
  induction rows generalizing comm with
  | nil => exact Steady.ok _ rfl rfl
  | cons cells rows ih =>
    have hrest := fun comm' => ih comm' fun other hmem => h other (List.mem_cons_of_mem _ hmem)
    cases cells with
    | nil => exact hrest comm
    | cons cell cells =>
      refine (Steady.counted comm (encodeRow_eq comm.sequenceId _ (h _ List.mem_cons_self))).bind fun _ comm' => ?_
      exact Steady.ite (Steady.ok _ rfl rfl) (hrest comm')

theorem sendResultRows_steady (comm : MysqlCommunicator) {rows : List (List Bytes)} (noColumnDef : Bool)
    (h : ∀ cells ∈ rows, 4 + (rowPayload cells).length ≤ 4 * 1024 * 1024) :
    Steady comm (comm.sendResultRows rows noColumnDef) := by
  unfold sendResultRows
  refine (sendRows_steady comm h).bind fun _ comm' => Steady.ite (Steady.ok _ rfl rfl) (Steady.ite ?_ ?_)
  · exact Steady.counted comm' (OkPacket.encode_packet _ _ _)
  · exact Steady.counted comm' (EofPacket.encode_packet _ _ rfl rfl)

theorem writeResult_steady (comm : MysqlCommunicator) {specs : List (Bytes × Bytes)} {rows : List (List Bytes)}
    (h : Fits specs rows) (closeRc : RC) : Steady comm (comm.writeResult specs rows closeRc) := by
  have hcolumns := sendColumnDefinition_steady comm fun spec hspec => (h.definitions spec hspec).2.2
  unfold writeResult
  refine hcolumns.bind fun _ comm₁ => Steady.ite (Steady.ok _ rfl rfl) ?_
  refine (sendResultRows_steady comm₁ _ fun cells hcells => (h.cells cells hcells).2.2).bind fun _ comm₂ => ?_
  exact (Steady.wrote comm₂ _).bind fun _ _ => Steady.ok _ rfl rfl

/-! ## Answering -/

/-- The result of the version comment. -/
theorem fits_versionComment : Fits [([], text "@@version_comment")] [[text "MiniOB"]] :=
  ⟨by simp, by decide, by decide +kernel, by decide +kernel⟩

theorem Replies.changed {α : Type} {bytes : Bytes} {comm comm' : MysqlCommunicator} {result : Except Stop α} {a : α → Prop}
    {after : α → MysqlCommunicator} (h : Replies bytes comm' result a after) (hwriter : comm'.writer = comm.writer)
    (hchannel : comm'.channel = comm.channel) : Replies bytes comm result a after := by
  intro c sent q hpos hc hsent
  rw [← hchannel]
  exact h c sent q hpos hc (hwriter.symm ▸ hchannel.symm ▸ hsent)

/-- What is done with the answer does not touch the writer. -/
theorem Replies.map {α β : Type} {bytes : Bytes} {comm : MysqlCommunicator} {result : Except Stop α} {a : α → Prop}
    {after : α → MysqlCommunicator} {b : β → Prop} {after' : β → MysqlCommunicator} (h : Replies bytes comm result a after)
    (f : α → β) (hf : ∀ done, a done → b (f done)) (hafter : ∀ done, after' (f done) = after done) :
    Replies bytes comm (result >>= fun done => .ok (f done)) b after' := by
  intro c sent q hpos hc hsent
  rcases h c sent q hpos hc hsent with ⟨hwaits, hroom⟩ | ⟨done, q', hok, hdone, hsent', hflushed⟩
  · exact Or.inl ⟨by rw [hwaits]; rfl, hroom⟩
  · exact Or.inr ⟨f done, q', by rw [hok]; rfl, hf done hdone, (hafter done).symm ▸ hsent', hflushed⟩

/-- A packet is sent and flushed. -/
theorem replies_packet {α : Type} {bytes : Bytes} {comm : MysqlCommunicator} {encoded : Option Bytes}
    {next : RC × MysqlCommunicator → Except Stop (α × MysqlCommunicator)} (hencoded : encoded = some bytes) {a : α}
    (done : MysqlCommunicator → MysqlCommunicator)
    (hdone : ∀ comm', (done comm').writer = comm'.writer ∧ (done comm').channel = comm'.channel)
    (hnext : ∀ comm', next (.success, comm') = comm'.flush >>= fun flushed => .ok (a, done flushed.2)) :
    Replies bytes comm (comm.sendPacket encoded >>= next) (fun result => result.1 = a) Prod.snd := by
  subst hencoded
  intro c sent q hpos hc hsent
  have hwriten := hsent.writen hpos hc (le_refl (bytes.length : ℤ))
  rw [Int.toNat_natCast, List.take_length] at hwriten
  have hsend : comm.sendPacket (some bytes) = comm.wrote (comm.writer.writen comm.channel bytes bytes.length) := rfl
  rcases hwriten with ⟨hnone, hroom⟩ | ⟨w, ch, hcall, hroom, q', hsent'⟩
  · exact Or.inl ⟨by rw [hsend, hnone]; rfl, hroom⟩
  have hwritten : comm.sendPacket (some bytes) >>= next = next (.success, { comm with writer := w, channel := ch }) := by
    rw [hsend, hcall]
    rfl
  rw [hwritten, hnext]
  rcases hsent'.flush hc with ⟨hnone, hroom'⟩ | ⟨w', ch', hcall', -, hsent''⟩
  · refine Or.inl ⟨?_, hroom.trans_lt hroom'⟩
    show wrote { comm with writer := w, channel := ch } (w.flush ch) >>= _ = _
    rw [hnone]
    rfl
  · obtain ⟨hwriter, hchannel⟩ := hdone { comm with writer := w', channel := ch' }
    refine Or.inr ⟨(a, done { comm with writer := w', channel := ch' }), [], ?_, rfl, ?_, Or.inr rfl⟩
    · show wrote { comm with writer := w, channel := ch } (w.flush ch) >>= _ = _
      rw [hcall']
      rfl
    · rw [hwriter, hchannel]
      exact hsent''

theorem ok_packet (comm : MysqlCommunicator) :
    ({ sequenceId := comm.sequenceId } : OkPacket).encode comm.clientCapabilitiesFlag =
      some (numbered comm.sequenceId [okPayload comm.clientCapabilitiesFlag 0]) := by
  rw [numbered, numbered, List.append_nil]
  exact OkPacket.encode_packet comm.clientCapabilitiesFlag comm.sequenceId 0

/-! ## The handshake -/

theorem authenticate_replies (comm : MysqlCommunicator) {buf : Bytes} (hbuf : 4 ≤ buf.length) :
    Replies (numbered comm.sequenceId [okPayload (UInt32.ofNat (ofLowBytes (buf.take 4))) 0]) comm (comm.authenticate buf)
      (fun done => done.1 = .success) Prod.snd := by
  let agreed := { comm with clientCapabilitiesFlag := UInt32.ofNat (ofLowBytes (buf.take 4)) }
  unfold authenticate
  rw [if_neg (by omega)]
  have hreplies : Replies (numbered agreed.sequenceId [okPayload agreed.clientCapabilitiesFlag 0]) agreed
      (agreed.sendPacket (({ sequenceId := agreed.sequenceId } : OkPacket).encode agreed.clientCapabilitiesFlag) >>=
        fun sent => sent.2.flush >>= fun flushed => .ok (sent.1, { flushed.2 with authed := true }))
      (fun done => done.1 = RC.success) Prod.snd :=
    replies_packet (ok_packet agreed) (fun comm' => { comm' with authed := true }) (fun _ => ⟨rfl, rfl⟩) fun _ => rfl
  exact hreplies.changed rfl rfl

theorem authenticate_safe (comm : MysqlCommunicator) {buf : Bytes} (hbuf : 4 ≤ buf.length) :
    (∀ stop, comm.authenticate buf = .error stop → stop = .waits) ∧
      ∀ rc comm', comm.authenticate buf = .ok (rc, comm') →
        comm'.authed = true ∧ comm'.clientCapabilitiesFlag = UInt32.ofNat (ofLowBytes (buf.take 4)) := by
  let agreed := { comm with clientCapabilitiesFlag := UInt32.ofNat (ofLowBytes (buf.take 4)) }
  let answered : Except Stop (RC × MysqlCommunicator) :=
    agreed.sendPacket (({ sequenceId := agreed.sequenceId } : OkPacket).encode agreed.clientCapabilitiesFlag) >>= fun sent =>
      sent.2.flush >>= fun flushed => .ok (sent.1, flushed.2)
  have hanswered : Steady agreed answered := by
    refine (Steady.packet agreed (ok_packet agreed)).bind fun _ comm₁ => ?_
    exact (Steady.wrote comm₁ _).bind fun _ _ => Steady.ok _ rfl rfl
  have hauthenticate : comm.authenticate buf = answered >>= fun done => .ok (done.1, { done.2 with authed := true }) := by
    unfold authenticate
    rw [if_neg (by omega), bind_assoc]
    refine bind_congr fun sent => ?_
    rw [bind_assoc]
    rfl
  rw [hauthenticate]
  cases hresult : answered with
  | error stop =>
    refine ⟨fun stop' hstop => ?_, fun _ _ hok => by cases hok⟩
    cases hstop
    exact hanswered.stops stop hresult
  | ok done =>
    refine ⟨(fun _ hstop => by cases hstop), fun rc comm' hok => ?_⟩
    cases hok
    exact ⟨rfl, (hanswered.keeps done.1 done.2 hresult).2⟩

/-! ## Requests after the handshake -/

theorem command_cons (comm : MysqlCommunicator) (hauthed : comm.authed = true) (commandType : UInt8) (rest : Bytes)
    (closeRc : RC) :
    comm.command (commandType :: rest) closeRc = match comm.request (commandType :: rest) with
      | .query query => .ok ((.success, some query), comm)
      | .versionComment => comm.handleVersionComment closeRc >>= fun done => .ok ((done.1, none), done.2)
      | _ => comm.sendPacket (({ sequenceId := comm.sequenceId } : OkPacket).encode comm.clientCapabilitiesFlag) >>=
          fun sent => if sent.1 ≠ .success then .ok ((sent.1, none), sent.2)
            else sent.2.flush >>= fun flushed => .ok ((sent.1, none), flushed.2) := by
  unfold command request
  rw [if_pos hauthed, List.head?_cons, List.tail_cons]
  by_cases hquery : commandType = 3
  · subst hquery
    simp only [if_true]
    rw [decodeQueryPacket, if_neg (List.cons_ne_nil _ _), List.drop_one, List.tail_cons]
    by_cases hcomment : text "select @@version_comment" <:+: rest ++ text ";"
    · simp only [if_pos hcomment]
      exact if_pos hcomment
    · simp only [if_neg hcomment]
      exact if_neg hcomment
  · simp only [hquery, if_false, Option.some.injEq]

theorem request_of_authed {comm : MysqlCommunicator} (hauthed : comm.authed = true) (payload : Bytes) :
    (∃ query, comm.request payload = .query query) ∨ comm.request payload = .versionComment ∨
      comm.request payload = .other := by
  unfold request
  rw [if_pos hauthed]
  split
  · split
    · exact Or.inr (Or.inl rfl)
    · exact Or.inl ⟨_, rfl⟩
  · exact Or.inr (Or.inr rfl)

theorem command_steady (comm : MysqlCommunicator) (hauthed : comm.authed = true) {buf : Bytes} (hbuf : buf ≠ [])
    (closeRc : RC) : Steady comm (comm.command buf closeRc) := by
  obtain ⟨commandType, rest, rfl⟩ := List.exists_cons_of_ne_nil hbuf
  rw [command_cons comm hauthed]
  rcases request_of_authed hauthed (commandType :: rest) with ⟨query, hrequest⟩ | hrequest | hrequest
  · rw [hrequest]
    exact Steady.ok _ rfl rfl
  · rw [hrequest]
    exact (writeResult_steady comm fits_versionComment closeRc).bind fun _ _ => Steady.ok _ rfl rfl
  · rw [hrequest]
    refine (Steady.packet comm (ok_packet comm)).bind fun _ comm₁ => Steady.ite (Steady.ok _ rfl rfl) ?_
    exact (Steady.wrote comm₁ _).bind fun _ _ => Steady.ok _ rfl rfl

/-- Only a query has an event. -/
theorem command_event {comm comm' : MysqlCommunicator} (hauthed : comm.authed = true) {buf : Bytes} (hbuf : buf ≠ [])
    {closeRc rc : RC} {event : Option Bytes} (h : comm.command buf closeRc = .ok ((rc, event), comm')) :
    event = (comm.request buf).event := by
  obtain ⟨commandType, rest, rfl⟩ := List.exists_cons_of_ne_nil hbuf
  rw [command_cons comm hauthed] at h
  rcases request_of_authed hauthed (commandType :: rest) with ⟨query, hrequest⟩ | hrequest | hrequest
  · rw [hrequest] at h ⊢
    cases h
    rfl
  · rw [hrequest] at h ⊢
    cases hresult : comm.handleVersionComment closeRc with
    | error stop =>
      simp only [hresult] at h
      cases h
    | ok done =>
      simp only [hresult] at h
      cases h
      rfl
  · rw [hrequest] at h ⊢
    simp only at h
    cases hresult : comm.sendPacket (({ sequenceId := comm.sequenceId } : OkPacket).encode comm.clientCapabilitiesFlag) with
    | error stop =>
      rw [hresult] at h
      cases h
    | ok sent =>
      rw [hresult] at h
      change (if sent.1 ≠ .success then _ else _) = _ at h
      split at h
      · cases h
        rfl
      · cases hflush : sent.2.flush with
        | error stop =>
          rw [hflush] at h
          cases h
        | ok flushed =>
          rw [hflush] at h
          cases h
          rfl

theorem command_replies (comm : MysqlCommunicator) (hauthed : comm.authed = true) {buf : Bytes} (hbuf : buf ≠ [])
    (closeRc : RC) :
    Replies (numbered comm.sequenceId ((comm.request buf).answer comm.clientCapabilitiesFlag)) comm
      (comm.command buf closeRc) (fun done => done.1.1 = (comm.request buf).rc closeRc) Prod.snd := by
  obtain ⟨commandType, rest, rfl⟩ := List.exists_cons_of_ne_nil hbuf
  rw [command_cons comm hauthed]
  rcases request_of_authed hauthed (commandType :: rest) with ⟨query, hrequest⟩ | hrequest | hrequest
  · rw [hrequest]
    intro c sent q _ _ hsent
    have hsilent : numbered comm.sequenceId (Request.answer comm.clientCapabilitiesFlag (.query query)) = [] := rfl
    rw [hsilent, List.append_nil]
    exact Or.inr ⟨_, q, rfl, rfl, hsent, Or.inl rfl⟩
  · rw [hrequest]
    intro c sent q hpos hc hsent
    rcases comm.writeResult_delivers fits_versionComment closeRc hpos hc hsent with ⟨hwaits, hroom⟩ | ⟨comm', hok, hsent'⟩
    · exact Or.inl ⟨by rw [handleVersionComment, hwaits]; rfl, hroom⟩
    · exact Or.inr ⟨_, [], by rw [handleVersionComment, hok]; rfl, rfl, hsent', Or.inr rfl⟩
  · rw [hrequest]
    intro c sent q hpos hc hsent
    have hreplies : Replies (numbered comm.sequenceId [okPayload comm.clientCapabilitiesFlag 0]) comm
        (comm.sendPacket (({ sequenceId := comm.sequenceId } : OkPacket).encode comm.clientCapabilitiesFlag) >>=
          fun sent => if sent.1 ≠ .success then .ok ((sent.1, none), sent.2)
            else sent.2.flush >>= fun flushed => .ok ((sent.1, none), flushed.2))
        (fun done => done.1 = (RC.success, (none : Option Bytes))) Prod.snd :=
      replies_packet (ok_packet comm) id (fun _ => ⟨rfl, rfl⟩) fun _ => if_neg fun h => h rfl
    rcases hreplies c sent q hpos hc hsent with hwaits | ⟨done, q', hok, hdone, hsent', hflushed⟩
    · exact Or.inl hwaits
    · exact Or.inr ⟨done, q', hok, congrArg Prod.fst hdone, hsent', hflushed⟩

/-! ## `read_event` -/

section

variable {comm : MysqlCommunicator} {incoming rest rest' : Incoming} {header payload : Bytes}

theorem received_keeps (comm : MysqlCommunicator) (header : Bytes) :
    (comm.received header).authed = comm.authed ∧ (comm.received header).writer = comm.writer ∧
      (comm.received header).channel = comm.channel ∧
      (comm.received header).clientCapabilitiesFlag = comm.clientCapabilitiesFlag := by
  simp only [received, and_self]

theorem readEvent_length (closeRc : RC) (hread : incoming.readn 4 = (0, header, rest)) (hneg : payloadLength header < 0) :
    comm.readEvent incoming closeRc = .error .lengthError := by
  unfold readEvent
  simp only [hread, ne_eq, not_true_eq_false, if_false, if_pos hneg]

theorem readEvent_cut (closeRc : RC) (hread : incoming.readn 4 = (0, header, rest)) {n : ℕ} (hlength : payloadLength header = n)
    {ret : ℤ} (hread' : rest.readn n = (ret, payload, rest')) (hret : ret ≠ 0) :
    comm.readEvent incoming closeRc = .ok ⟨.ioerrRead, none, some n, comm.received header, rest'⟩ := by
  have hsign : ¬(n : ℤ) < 0 := by omega
  unfold readEvent
  simp only [hread, hlength, hread', Int.toNat_natCast, if_neg hsign, ne_eq, not_true_eq_false, if_false, hret,
    not_false_eq_true, if_true]

theorem readEvent_payload (closeRc : RC) (hread : incoming.readn 4 = (0, header, rest)) {n : ℕ}
    (hlength : payloadLength header = n) (hread' : rest.readn n = (0, payload, rest')) :
    comm.readEvent incoming closeRc =
      if comm.authed then (comm.received header).command payload closeRc >>= fun done =>
        .ok ⟨done.1.1, done.1.2, some n, done.2, rest'⟩
      else (comm.received header).authenticate payload >>= fun done =>
        .ok ⟨done.1, none, some n, done.2, rest'⟩ := by
  have hsign : ¬(n : ℤ) < 0 := by omega
  unfold readEvent
  simp only [hread, hlength, hread', Int.toNat_natCast, if_neg hsign, ne_eq, not_true_eq_false, if_false,
    (received_keeps comm header).1]

/-- A request that does not come in whole. -/
theorem safe_of_failed {closeRc : RC} {buf : Option ℕ} {comm' : MysqlCommunicator} (hwriter : comm'.writer = comm.writer)
    (hchannel : comm'.channel = comm.channel) (hbuf : ∀ length, buf = some length → length = incoming.announced)
    (hpacket : incoming.packet = none) :
    Safe comm incoming closeRc (.ok ⟨.ioerrRead, none, buf, comm', rest⟩) where
  stops _ hstop := by cases hstop
  handles := by
    intro handled hhandled
    cases hhandled
    exact ⟨hbuf, Or.inl ⟨RC.noConfusion, rfl⟩⟩
  fails _ := ⟨_, rfl, rfl, hwriter, hchannel⟩
  answers _ _ _ hsome := absurd (hpacket.symm.trans hsome) (Option.some_ne_none _).symm

/-- A request that comes in whole, is handled by `result` and is `handled` then. -/
theorem safe_of_replies {α : Type} {closeRc : RC} {result : Except Stop (α × MysqlCommunicator)}
    (hpacket : incoming.packet = some (header, payload, rest)) (handled : α × MysqlCommunicator → Handled)
    (hstops : ∀ stop, result = .error stop → stop = .waits)
    (hhandles : ∀ done, result = .ok done → Handles comm incoming (handled done))
    (hcomm : ∀ done, (handled done).comm = done.2)
    (hreplies : Replies (numbered (Net.sequenceId header + 1) ((comm.request payload).answer comm.clientCapabilitiesFlag))
      (comm.received header) result (fun done => (handled done).rc = (comm.request payload).rc closeRc) Prod.snd) :
    Safe comm incoming closeRc (result >>= fun done => .ok (handled done)) where
  stops stop hstop := by
    cases hresult : result with
    | error first =>
      rw [hresult] at hstop
      cases hstop
      exact hstops stop hresult
    | ok done =>
      rw [hresult] at hstop
      cases hstop
  handles out hout := by
    cases hresult : result with
    | error stop =>
      rw [hresult] at hout
      cases hout
    | ok done =>
      rw [hresult] at hout
      cases hout
      exact hhandles done hresult
  fails hnone := absurd (hpacket.symm.trans hnone) (Option.some_ne_none _)
  answers header' payload' rest' hsome := by
    obtain ⟨rfl, hsame⟩ := Prod.mk.inj (Option.some.inj (hpacket.symm.trans hsome))
    obtain ⟨rfl, rfl⟩ := Prod.mk.inj hsame
    obtain ⟨-, hwriter, hchannel, -⟩ := received_keeps comm header
    exact (hreplies.changed hwriter hchannel).map handled (fun _ h => h) hcomm

/-- The number of the answer is one more than that of the request. -/
theorem received_sequence (comm : MysqlCommunicator) (header : Bytes) (payloads : List Bytes) :
    numbered (comm.received header).sequenceId payloads = numbered (Net.sequenceId header + 1) payloads := by
  have hnumber : ∀ number : ℤ, toInt8 number % 256 = number % 256 := fun _ => Int.bmod_emod
  have hreceived : (comm.received header).sequenceId = toInt8 (Net.sequenceId header + 1) := by
    simp only [received]
  have hsame := numbered_congr (hnumber (Net.sequenceId header + 1)) payloads
  rw [hreceived, hsame]

theorem request_received (comm : MysqlCommunicator) (header payload : Bytes) :
    (comm.received header).request payload = comm.request payload := by
  unfold request
  rw [(received_keeps comm header).1]

/-- A command that comes in whole. -/
theorem safe_command (closeRc : RC) (hpacket : incoming.packet = some (header, payload, rest))
    (hstream : incoming.bytes = header ++ payload ++ rest.bytes) (hheader : header.length = 4)
    (hpayload : payload.length = incoming.announced) (hauthed : comm.authed = true) (hempty : payload ≠ []) :
    Safe comm incoming closeRc ((comm.received header).command payload closeRc >>= fun done =>
      .ok ⟨done.1.1, done.1.2, some incoming.announced, done.2, rest⟩) := by
  have hreceived : (comm.received header).authed = true := (received_keeps comm header).1.trans hauthed
  have hcapabilities := (received_keeps comm header).2.2.2
  have hsteady := command_steady (comm.received header) hreceived hempty closeRc
  refine safe_of_replies hpacket (fun done => ⟨done.1.1, done.1.2, some incoming.announced, done.2, rest⟩) hsteady.stops
    (fun done hok => ?_) (fun _ => rfl) ?_
  · obtain ⟨⟨rc, event⟩, comm'⟩ := done
    obtain ⟨hauthed', hcapabilities'⟩ := hsteady.keeps _ _ hok
    have hevent := command_event hreceived hempty hok
    rw [request_received] at hevent
    refine ⟨fun _ hsome => (Option.some.inj hsome).symm, Or.inr ⟨header, payload, hstream, hheader, hpayload,
      congrArg some hpayload.symm, hevent, hauthed'.trans hreceived, ?_⟩⟩
    rcases request_of_authed hauthed payload with ⟨query, hrequest⟩ | hrequest | hrequest <;>
      exact hrequest.symm ▸ hcapabilities'.trans hcapabilities
  · have hreplies := command_replies (comm.received header) hreceived hempty closeRc
    rw [request_received, received_sequence, hcapabilities] at hreplies
    exact hreplies

/-- A handshake that comes in whole. -/
theorem safe_handshake (closeRc : RC) (hpacket : incoming.packet = some (header, payload, rest))
    (hstream : incoming.bytes = header ++ payload ++ rest.bytes) (hheader : header.length = 4)
    (hpayload : payload.length = incoming.announced) (hauthed : ¬comm.authed = true) (hfour : 4 ≤ payload.length) :
    Safe comm incoming closeRc ((comm.received header).authenticate payload >>= fun done =>
      .ok ⟨done.1, none, some incoming.announced, done.2, rest⟩) := by
  have hrequest : comm.request payload = .handshake (UInt32.ofNat (ofLowBytes (payload.take 4))) := if_neg hauthed
  obtain ⟨hstops, hkeeps⟩ := authenticate_safe (comm.received header) hfour
  refine safe_of_replies hpacket (fun done => ⟨done.1, none, some incoming.announced, done.2, rest⟩) hstops
    (fun done hok => ?_) (fun _ => rfl) ?_
  · obtain ⟨rc, comm'⟩ := done
    obtain ⟨hauthed', hcapabilities'⟩ := hkeeps rc comm' hok
    refine ⟨fun _ hsome => (Option.some.inj hsome).symm, Or.inr ⟨header, payload, hstream, hheader, hpayload,
      congrArg some hpayload.symm, ?_, hauthed', ?_⟩⟩
    · rw [hrequest]
      rfl
    · rw [hrequest]
      exact hcapabilities'
  · have hreplies := authenticate_replies (comm.received header) hfour
    rw [received_sequence] at hreplies
    rw [hrequest]
    exact hreplies

/-- Requests are handled safely if and only if their length is one that is expected. -/
theorem readEvent_safe_iff (comm : MysqlCommunicator) (incoming : Incoming) (closeRc : RC) :
    Safe comm incoming closeRc (comm.readEvent incoming closeRc) ↔ comm.Served incoming := by
  rcases incoming.readn_cases 4 with ⟨header, rest, hread, htake, hbytes, hheader⟩ | ⟨ret, header, rest, hread, hret, htake⟩
  case inr =>
    have hfailed : comm.readEvent incoming closeRc = .ok ⟨.ioerrRead, none, none, comm, rest⟩ := by
      unfold readEvent
      simp only [hread, ne_eq, hret, not_false_eq_true, if_true]
    rw [hfailed]
    refine iff_of_true (safe_of_failed rfl rfl (fun _ hsome => by cases hsome) ?_) fun header' rest' hsome => ?_
    · rw [Incoming.packet, htake, Option.bind_none]
    · rw [htake] at hsome
      cases hsome
  have hannounced := Incoming.announced_eq hbytes hheader
  by_cases hshort : incoming.announced < 2 ^ 23
  case neg =>
    rw [readEvent_length closeRc hread (payloadLength_neg (by omega))]
    refine iff_of_false (fun h => ?_) fun h => hshort (h header rest htake).1
    cases h.stops _ rfl
  have hlength : payloadLength header = incoming.announced := by
    rw [hannounced] at hshort ⊢
    exact payloadLength_eq hshort
  obtain ⟨-, hwriter, hchannel, -⟩ := received_keeps comm header
  rcases rest.readn_cases incoming.announced with
    ⟨payload, rest', hread', htake', hbytes', hpayload⟩ | ⟨ret, payload, rest', hread', hret, htake'⟩
  case inr =>
    rw [readEvent_cut closeRc hread hlength hread' hret]
    refine iff_of_true (safe_of_failed hwriter hchannel (fun _ hsome => (Option.some.inj hsome).symm) ?_)
      fun header' rest'' hsome => ?_
    · rw [Incoming.packet, htake, Option.bind_some, htake', Option.map_none]
    · obtain ⟨rfl, rfl⟩ := Prod.mk.inj (Option.some.inj (htake.symm.trans hsome))
      refine ⟨hshort, fun payload' hsome' => ?_⟩
      rw [htake'] at hsome'
      cases hsome'
  have hpacket : incoming.packet = some (header, payload, rest') := by
    rw [Incoming.packet, htake, Option.bind_some, htake', Option.map_some]
  have hstream : incoming.bytes = header ++ payload ++ rest'.bytes := by
    rw [List.append_assoc, ← hbytes', ← hbytes]
  have hserved : comm.Served incoming ↔ (if comm.authed then 1 else 4) ≤ payload.length := by
    rw [hpayload]
    constructor
    · exact fun h => (h header rest htake).2 _ htake'
    · rintro hle header' rest'' hsome
      exact ⟨hshort, fun _ _ => hle⟩
  rw [readEvent_payload closeRc hread hlength hread', hserved]
  by_cases hauthed : comm.authed = true
  · rw [if_pos hauthed, if_pos hauthed]
    by_cases hempty : payload = []
    · -- the first byte of an empty vector is read
      rw [hempty]
      refine iff_of_false (fun h => ?_) (by simp)
      cases h.stops .outOfBounds rfl
    exact iff_of_true (safe_command closeRc hpacket hstream hheader hpayload hauthed hempty)
      (List.length_pos_of_ne_nil hempty)
  · rw [if_neg hauthed, if_neg hauthed]
    by_cases hfour : 4 ≤ payload.length
    · exact iff_of_true (safe_handshake closeRc hpacket hstream hheader hpayload hauthed hfour) hfour
    · -- four bytes are read from a shorter vector
      have hbounds : (comm.received header).authenticate payload = .error .outOfBounds := if_pos (by omega)
      rw [hbounds]
      refine iff_of_false (fun h => ?_) hfour
      cases h.stops .outOfBounds rfl

end

/-- After the handshake, a packet without a payload; and a packet of 2^24 - 1 bytes, whose length becomes -1. -/
theorem readEvent_unsafe :
    let authed : MysqlCommunicator := { connected with authed := true }
    let empty : Incoming := ⟨[0, 0, 0, 0], [.deliver 4]⟩
    let long : Incoming := ⟨[0xFF, 0xFF, 0xFF, 0], [.deliver 4]⟩
    authed.readEvent empty .success = .error .outOfBounds ∧ authed.readEvent long .success = .error .lengthError ∧
      ¬Queries authed empty .success ∧ ¬Queries authed long .success ∧
      ¬Safe authed empty .success (authed.readEvent empty .success) ∧
      ¬Safe authed long .success (authed.readEvent long .success) := by
  intro authed empty long
  have hreadEmpty : empty.readn 4 = (0, [0, 0, 0, 0], ⟨[], []⟩) := by simp [empty, Incoming.readn, readnLoop]
  have hreadLong : long.readn 4 = (0, [0xFF, 0xFF, 0xFF, 0], ⟨[], []⟩) := by simp [long, Incoming.readn, readnLoop]
  have hempty : authed.readEvent empty .success = .error .outOfBounds :=
    (readEvent_payload (n := 0) .success hreadEmpty (by decide) rfl).trans (if_pos rfl)
  have hlong : authed.readEvent long .success = .error .lengthError :=
    readEvent_length .success hreadLong (payloadLength_neg (by decide))
  refine ⟨hempty, hlong, ?_, ?_, fun h => ?_, fun h => ?_⟩
  · rintro ⟨handled, hok, -⟩
    cases hempty.symm.trans hok
  · rintro ⟨handled, hok, -⟩
    cases hlong.symm.trans hok
  · cases h.stops .outOfBounds hempty
  · cases h.stops .lengthError hlong

end MysqlCommunicator
end Landbase.Net

import Nameserver.Stub
import Nameserver.Proofs.Responder.Answers
/-!
# What a stub resolver gets from the server

A stub resolver takes the first reply that is not passed over.  The server's response to its query
is such a reply, and nothing on the way cuts it, so the resolver has the answer from the zone as it
was before it was sent.
-/

namespace Nameserver.Stub

variable {query m : Message} {q : Question} {datagram reply : Octets} {replies : List Octets}

/-! ## 1. The query -/

/-- A query is sent in its wire form, if that is short enough for a datagram. -/
theorem datagram_eq_ok_iff :
    Stub.datagram query = .ok datagram ↔
      query.opcode.number ≤ 15 ∧ query.code.number ≤ 15 ∧ query.Fits ∧
        query.wireLength ≤ maximumDatagram ∧ datagram = query.wire := by
  have hwritten : ((Writer.ofBuffer (List.replicate maximumDatagram 0)).extend
      query.wire).written.toList = query.wire := by
    simp [Writer.ofBuffer, Writer.extend]
  rw [Stub.datagram]
  constructor
  · intro h
    split at h
    next w hencode =>
      obtain ⟨hopcode, hcode, hfits, hlength, rfl⟩ := Message.encode_eq_ok_iff.1 hencode
      rw [List.length_replicate] at hlength
      rw [hwritten] at h
      exact ⟨hopcode, hcode, hfits, hlength, (Except.ok.inj h).symm⟩
    next => cases h
    next => cases h
  · rintro ⟨hopcode, hcode, hfits, hlength, rfl⟩
    rw [Message.encode_eq_ok_iff.2 ⟨hopcode, hcode, hfits, by rwa [List.length_replicate], rfl⟩]
    exact congrArg Except.ok hwritten

/-! ## 2. Replies -/

/-- A reply that is no attempt to respond to the query. -/
inductive PassedOver (query : Message) (reply : Octets) : Prop
  | undecodable {e : Message.DecodeError}
      (undecoded : Message.decode (reply.take maximumReply) = .error e)
  | notResponse {m : Message} {length : Nat}
      (decoded : Message.decode (reply.take maximumReply) = .ok (m, length))
      (isQuery : m.isResponse = false)
  | otherId {m : Message} {length : Nat}
      (decoded : Message.decode (reply.take maximumReply) = .ok (m, length))
      (id : m.id ≠ query.id)
  | questionCount {m : Message} {length : Nat}
      (decoded : Message.decode (reply.take maximumReply) = .ok (m, length))
      (count : m.questions.length ≠ 1)
  | otherQuestion {m : Message} {length : Nat} {q : Question}
      (decoded : Message.decode (reply.take maximumReply) = .ok (m, length))
      (question : m.questions = [q]) (different : query.questions.head?.any q.same = false)

theorem decodeReply?_eq_some_iff :
    decodeReply? reply = some m ↔
      ∃ length, Message.decode (reply.take maximumReply) = .ok (m, length) := by
  rw [decodeReply?, toOption_map_fst_eq_some_iff]

/-- A reply is accepted if it is a response with the identifier and the question of the query. -/
theorem accepts_eq_true_iff :
    accepts query m = true ↔ m.isResponse = true ∧ m.id = query.id ∧
      ∃ q, m.questions = [q] ∧ query.questions.head?.any q.same = true := by
  rw [accepts, Bool.and_eq_true, Bool.and_eq_true, beq_iff_eq, and_assoc]
  refine and_congr_right fun _ => and_congr_right fun _ => ?_
  split
  next q hq => simp [hq]
  next hnone =>
    refine iff_of_false Bool.false_ne_true ?_
    rintro ⟨q, hq, -⟩
    exact hnone q hq

/-- The reasons to pass a reply over are all there are. -/
theorem passedOver_iff : PassedOver query reply ↔
    ∀ m, decodeReply? reply = some m → accepts query m = false := by
  constructor
  · intro h m hm
    obtain ⟨length, hm⟩ := decodeReply?_eq_some_iff.1 hm
    rw [← Bool.not_eq_true, accepts_eq_true_iff]
    -- Each reason contradicts one of the conditions of an accepted reply.
    rintro ⟨hresponse, hid, q, hq, hsame⟩
    cases h with
    | undecodable undecoded =>
      rw [undecoded] at hm
      cases hm
    | notResponse decoded isQuery =>
      rw [hm] at decoded
      cases decoded
      rw [hresponse] at isQuery
      cases isQuery
    | otherId decoded id =>
      rw [hm] at decoded
      cases decoded
      exact id hid
    | questionCount decoded count =>
      rw [hm] at decoded
      cases decoded
      exact count (congrArg List.length hq)
    | otherQuestion decoded question different =>
      rw [hm] at decoded
      cases decoded
      cases hq.symm.trans question
      rw [hsame] at different
      cases different
  · intro h
    cases decoded : Message.decode (reply.take maximumReply) with
    | error e => exact .undecodable decoded
    | ok result =>
      obtain ⟨m, length⟩ := result
      have hrejected := h m (decodeReply?_eq_some_iff.2 ⟨length, decoded⟩)
      rw [← Bool.not_eq_true, accepts_eq_true_iff] at hrejected
      -- One of the four conditions of an accepted reply fails, each for a reason of its own.
      by_cases hresponse : m.isResponse = true
      · by_cases hid : m.id = query.id
        · by_cases hcount : m.questions.length = 1
          · obtain ⟨q, hq⟩ := List.length_eq_one_iff.1 hcount
            refine .otherQuestion decoded hq (Bool.eq_false_iff.2 fun hsame => ?_)
            exact hrejected ⟨hresponse, hid, q, hq, hsame⟩
          · exact .questionCount decoded hcount
        · exact .otherId decoded hid
      · exact .notResponse decoded (Bool.eq_false_iff.2 hresponse)

/-! ## 3. The reply that is taken -/

theorem passedOver_iff_any :
    PassedOver query reply ↔ (decodeReply? reply).any (accepts query) = false := by
  rw [passedOver_iff]
  cases decodeReply? reply <;> simp

/-- The first reply that is not passed over is taken. -/
theorem select?_eq_some_iff :
    select? query replies = some m ↔ ∃ before reply after,
      replies = before ++ reply :: after ∧ (∀ r ∈ before, PassedOver query r) ∧
        decodeReply? reply = some m ∧ accepts query m = true := by
  unfold select?
  rw [List.find?_filterMap]
  constructor
  · intro h
    obtain ⟨reply, hfind, hdecode⟩ := Option.bind_eq_some_iff.1 h
    -- The reply that is found comes after others that are not accepted.
    obtain ⟨haccepts, before, after, hreplies, hbefore⟩ := List.find?_eq_some_iff_append.1 hfind
    rw [hdecode, Option.any_some] at haccepts
    refine ⟨before, reply, after, hreplies, fun r hr => ?_, hdecode, haccepts⟩
    simpa [passedOver_iff_any] using hbefore r hr
  · intro h
    obtain ⟨before, reply, after, hreplies, hbefore, hdecode, haccepts⟩ := h
    apply Option.bind_eq_some_iff.2
    refine ⟨reply, List.find?_eq_some_iff_append.2 ⟨?_, before, after, hreplies, ?_⟩, hdecode⟩
    · rw [hdecode, Option.any_some]
      exact haccepts
    · intro r hr
      rw [passedOver_iff_any.1 (hbefore r hr)]
      rfl

/-- No reply is taken just if all of them are passed over. -/
theorem select?_eq_none_iff :
    select? query replies = none ↔ ∀ r ∈ replies, PassedOver query r := by
  simp only [select?, List.find?_eq_none, List.mem_filterMap, passedOver_iff, Bool.not_eq_true]
  exact ⟨fun h r hr m hm => h m ⟨r, hr, hm⟩, fun h m ⟨r, hr, hm⟩ => h r hr m hm⟩

/-- The resolver has the reply that it takes, or it waits until the time is over. -/
theorem resolve_replies (sent : Stub.datagram query = .ok datagram) (replies : List Octets) :
    resolve query (.replies replies) =
      match select? query replies with
      | some response => .ok response
      | none => .error .timedOut := by
  unfold resolve
  rw [sent]
  show (match select? query replies with | some response => _ | none => _) = _
  split <;> rfl

/-! ## 4. The response of the server -/

/-- A query for an answer to one question. -/
structure Asks (query : Message) (q : Question) : Prop where
  isQuery : query.isResponse = false
  opcode : query.opcode = .query
  question : query.questions = [q]
  noRecords : query.records = []

theorem Asks.normalized (h : Asks query q) : Asks query.normalized q.normalized where
  isQuery := h.isQuery
  opcode := by
    show query.opcode.normalized = _
    rw [h.opcode]
    rfl
  question := by
    show query.questions.map Question.normalized = _
    rw [h.question]
    rfl
  noRecords := by
    obtain ⟨hanswers, hauthorities, hadditionals⟩ := Message.records_eq_nil_iff.1 h.noRecords
    simp [Message.records, Message.normalized, hanswers, hauthorities, hadditionals]

/-- The server reads the query that was sent, with types and classes by their names. -/
theorem decode_datagram (hasks : Asks query q) (sent : Stub.datagram query = .ok datagram) :
    Message.decode datagram = .ok (query.normalized, datagram.length) := by
  obtain ⟨hopcode, hcode, hfits, -, rfl⟩ := datagram_eq_ok_iff.1 sent
  apply Message.decode_of_takes
  apply Message.takes_reader hopcode hcode
  apply Message.spells_wire hfits
  rw [hasks.noRecords]
  exact fun r hr => absurd hr List.not_mem_nil

open Responder (Handled Decides Response)

variable {zone : DomainTree} {source : SocketAddress} {buffer : Octets}
  {handled : Logged (Option Response)} {response : Response}

/-- A response to the query, if there is one, is the answer from the zone in its wire form. -/
theorem encodesAs_of_handle (hasks : Asks query q) (sent : Stub.datagram query = .ok datagram)
    (hhandle : Responder.handle zone source buffer datagram = .ok handled)
    (hvalue : handled.value = some response) :
    (zone.answer q.normalized query.normalized.response).value.EncodesAs maximumDatagram
      response.octets := by
  have hhandled := Responder.handled_of_handle hhandle
  rw [hvalue] at hhandled
  cases hhandled with
  | @sent query' r length octets decoded isQuery decides encodes size =>
    rw [decode_datagram hasks sent] at decoded
    cases decoded
    -- The server decides on the query that it has read.
    have hquestion := Responder.question_eq_ok hasks.normalized.opcode hasks.normalized.question
      hasks.normalized.noRecords
    have hrespond : (Responder.respond zone source query.normalized).value = r :=
      Responder.respond_of_decides decides
    have hanswer : (zone.answer q.normalized query.normalized.response).value = r := by
      rw [← hrespond, Responder.respond, hquestion]
    have hoctets : Response.octets ⟨octets.length, octets ++ buffer.drop octets.length⟩ = octets :=
      List.take_left
    rw [hanswer, hoctets]
    exact encodes

/-- The response is a reply that is taken, and it says what the zone answered. -/
theorem decodeReply?_response {strictness : Name.Strictness} {file : Octets}
    {loaded : Logged DomainTree} (hload : DomainTree.load strictness file = .ok loaded)
    (hasks : Asks query q)
    (hencodes : (loaded.value.answer q.normalized query.normalized.response).value.EncodesAs
      maximumDatagram reply) :
    decodeReply? reply = some (loaded.value.answer q query.response).value.normalized := by
  obtain ⟨hopcode, hcode, hfits, hlength, rfl⟩ := Message.encodesAs_iff.1 hencodes
  have hplain := DomainTree.plainData_of_mem_answer hload query.normalized q.normalized
  -- The response is shorter than the part of a reply that is looked at.
  have htake : (loaded.value.answer q.normalized query.normalized.response).value.wire.take
      maximumReply =
      (loaded.value.answer q.normalized query.normalized.response).value.wire := by
    apply List.take_of_length_le
    rw [Message.length_wire]
    exact Nat.le_trans hlength (by decide)
  rw [decodeReply?_eq_some_iff, htake, ← DomainTree.answer_normalized loaded.value q hasks.opcode]
  exact ⟨_, Message.decode_of_takes
    (Message.takes_reader hopcode hcode (Message.spells_wire hfits hplain))⟩

/-- An answer to the query is a reply that is taken. -/
theorem accepts_answer (hasks : Asks query q) (zone : DomainTree) :
    accepts query (zone.answer q query.response).value.normalized = true := by
  obtain ⟨hresponse, hid, -⟩ := DomainTree.header_answer zone query q
  rw [accepts_eq_true_iff]
  refine ⟨hresponse, hid, q.normalized, ?_, ?_⟩
  · show (zone.answer q query.response).value.questions.map Question.normalized = _
    rw [DomainTree.questions_answer]
    rfl
  · rw [hasks.question]
    simp [Question.same, Question.normalized, RecordType.same, RecordClass.same]

/-- The resolver gets the answer from the zone, octet for octet, if the server's response comes
after replies that are passed over; from such replies alone it gets nothing. -/
theorem resolve_response (sent : Stub.datagram query = .ok datagram) :
    (∀ {strictness file loaded source buffer handled response q before} (after : List Octets),
      DomainTree.load strictness file = .ok loaded → Asks query q →
      Responder.handle loaded.value source buffer datagram = .ok handled →
      handled.value = some response → (∀ reply ∈ before, PassedOver query reply) →
      ∃ m, resolve query (.replies (before ++ response.octets :: after)) = .ok m ∧
        m.toHeader = (loaded.value.answer q query.response).value.toHeader ∧
        m.SameFields (loaded.value.answer q query.response).value) ∧
    ∀ replies, (∀ reply ∈ replies, PassedOver query reply) →
      resolve query (.replies replies) = .error .timedOut := by
  constructor
  · intro strictness file loaded source buffer handled response q before after hload hasks hhandle
      hvalue hbefore
    have hdecode := decodeReply?_response hload hasks
      (encodesAs_of_handle hasks sent hhandle hvalue)
    -- The replies before the response are passed over, and those after it are not looked at.
    have hselect := select?_eq_some_iff.2
      ⟨before, _, after, rfl, hbefore, hdecode, accepts_answer hasks loaded.value⟩
    refine ⟨_, by rw [resolve_replies sent, hselect], ?_, Message.sameFields_normalized _⟩
    exact DomainTree.normalized_header_answer loaded.value q hasks.opcode
  · intro replies hreplies
    rw [resolve_replies sent, select?_eq_none_iff.2 hreplies]

/-- A question for the address of a name with a semicolon, a null octet and a space in its label. -/
def exampleQuestion : Question :=
  ⟨⟨[⟨[0x3b, 0, 0x20], by decide⟩, DomainTree.singleLabel 0x5a], by decide, by decide⟩, .a,
    .internet⟩

def exampleDatagram : Octets :=
  [0, 7, 0, 0, 0, 1, 0, 0, 0, 0, 0, 0, 3, 0x3b, 0, 0x20, 1, 0x5a, 0, 0, 1, 0, 1]

/-- Two replies that are passed over: no message, and the query itself. -/
def exampleNoise : List Octets := [[], exampleDatagram]

/-- No message can be read from the first, and the second is no response. -/
theorem passedOver_exampleNoise :
    ∀ reply ∈ exampleNoise, PassedOver (.query 7 exampleQuestion) reply := by
  have hnone : ∀ reply ∈ exampleNoise,
      (decodeReply? reply).any (accepts (.query 7 exampleQuestion)) = false := by
    decide +kernel
  exact fun reply hreply => passedOver_iff_any.2 (hnone reply hreply)

theorem resolve_unsortedFile_example :
    ∃ loaded handled response m,
      Stub.datagram (.query 7 exampleQuestion) = .ok exampleDatagram ∧
      DomainTree.load .relaxed DomainTree.unsortedFile = .ok loaded ∧
      Responder.handle loaded.value ⟨.v4 192 0 2 1, 53, 0⟩ (List.replicate 512 0)
        exampleDatagram = .ok handled ∧
      handled.value = some response ∧
      resolve (.query 7 exampleQuestion) (.replies (exampleNoise ++ [response.octets])) = .ok m ∧
      m.SameFields
        (loaded.value.answer exampleQuestion (Message.query 7 exampleQuestion).response).value ∧
      resolve (.query 7 exampleQuestion) (.replies exampleNoise) = .error .timedOut := by
  have sent : Stub.datagram (.query 7 exampleQuestion) = .ok exampleDatagram :=
    datagram_eq_ok_iff.2 ⟨by decide, by decide, by decide, by decide, by decide⟩
  have hresponds : ((DomainTree.load .relaxed DomainTree.unsortedFile).toOption.bind fun loaded =>
      (Responder.handle loaded.value ⟨.v4 192 0 2 1, 53, 0⟩ (List.replicate 512 0)
        exampleDatagram).toOption.bind Logged.value).isSome = true := by
    decide +kernel
  obtain ⟨response, hresponse⟩ := Option.isSome_iff_exists.1 hresponds
  obtain ⟨loaded, hloaded, hresponse⟩ := Option.bind_eq_some_iff.1 hresponse
  obtain ⟨handled, hhandled, hvalue⟩ := Option.bind_eq_some_iff.1 hresponse
  have hload := toOption_eq_some_iff.1 hloaded
  have hhandle := toOption_eq_some_iff.1 hhandled
  have hasks : Asks (.query 7 exampleQuestion) exampleQuestion := ⟨rfl, rfl, rfl, rfl⟩
  obtain ⟨m, hresolve, -, hsame⟩ :=
    (resolve_response sent).1 [] hload hasks hhandle hvalue passedOver_exampleNoise
  exact ⟨loaded, handled, response, m, sent, hload, hhandle, hvalue, hresolve, hsame,
    (resolve_response sent).2 _ passedOver_exampleNoise⟩

end Nameserver.Stub

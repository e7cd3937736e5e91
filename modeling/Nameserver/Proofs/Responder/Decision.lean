import Nameserver.Responder
import Nameserver.Proofs.Message.Decoded
/-!
# What becomes of a datagram

`Decides` says which response a query gets, and `Handled` what is done with a datagram and a buffer.
Every datagram is handled in exactly one way, and no rejection is ever dropped.
-/

namespace Nameserver

/-! ## 1. Messages without records -/

namespace Message

theorem records_eq_nil_iff {m : Message} :
    m.records = [] ↔ m.answers = [] ∧ m.authorities = [] ∧ m.additionals = [] := by
  rw [records, List.append_eq_nil_iff, List.append_eq_nil_iff, and_assoc]

end Message

namespace DomainTree

/-! ## 2. Verdicts -/

theorem questions_putInto (v : Verdict) (m : Message) : (v.putInto m).questions = m.questions := by
  cases v <;> rfl

theorem opcode_putInto (v : Verdict) (m : Message) : (v.putInto m).opcode = m.opcode := by
  cases v <;> rfl

/-- Only a refusal is a rejection, and it has no records. -/
theorem code_putInto (v : Verdict) (m : Message) :
    ((v.putInto m).code = .noError ∨ (v.putInto m).code = .nameError) ∨
      (v.putInto m).code = .refused ∧ (v.putInto m).records = m.records := by
  cases v with
  | nonexistent _ => exact .inl (.inr rfl)
  | found _ => exact .inl (.inl rfl)
  | referral _ => exact .inl (.inl rfl)
  | refused => exact .inr ⟨rfl, rfl⟩

end DomainTree

namespace Responder

variable {zone : DomainTree} {source : SocketAddress} {buffer datagram : Octets}
  {query r : Message} {q : Question}

/-! ## 3. The response to a query -/

/-- The response that a query calls for. -/
inductive Decides (zone : DomainTree) (query : Message) : Message → Prop
  | notImplemented (opcode : query.opcode ≠ .query) :
      Decides zone query (query.response.withCode .notImplemented)
  | formatError (opcode : query.opcode = .query)
      (malformed : query.questions.length ≠ 1 ∨ query.records ≠ []) :
      Decides zone query (query.response.withCode .formatError)
  | answered {q : Question} {r : Message} (opcode : query.opcode = .query)
      (question : query.questions = [q]) (noRecords : query.records = [])
      (populated : (zone.answer q query.response).value = r) (echoed : r.questions = [q]) :
      Decides zone query r

/-- A query that does not ask just one question, or that has records, is malformed. -/
theorem question_eq_error (opcode : query.opcode = .query)
    (malformed : query.questions.length ≠ 1 ∨ query.records ≠ []) :
    ∃ e, query.question = .error e ∧ e.code = .formatError := by
  rw [Message.question, if_neg (not_not_intro opcode)]
  -- With one question the records are at fault, whichever section they are in.
  split
  next => exact ⟨_, rfl, rfl⟩
  next q hq =>
    have hrecords : query.records ≠ [] := malformed.resolve_left (by simp [hq])
    split
    next => exact ⟨_, rfl, rfl⟩
    next hanswers =>
      split
      next => exact ⟨_, rfl, rfl⟩
      next hauthorities =>
        split
        next => exact ⟨_, rfl, rfl⟩
        next hadditionals =>
          exact absurd (Message.records_eq_nil_iff.2 ⟨by simpa using hanswers,
            by simpa using hauthorities, by simpa using hadditionals⟩) hrecords
  next => exact ⟨_, rfl, rfl⟩

theorem question_eq_ok (opcode : query.opcode = .query) (question : query.questions = [q])
    (noRecords : query.records = []) : query.question = .ok q := by
  obtain ⟨hanswers, hauthorities, hadditionals⟩ := Message.records_eq_nil_iff.1 noRecords
  rw [Message.question, if_neg (not_not_intro opcode), question, hanswers, hauthorities,
    hadditionals]
  rfl

/-- A query gets the response that it calls for. -/
theorem respond_of_decides (h : Decides zone query r) : (respond zone source query).value = r := by
  rw [respond]
  cases h with
  | notImplemented opcode =>
    rw [Message.question, if_pos opcode]
    rfl
  | formatError opcode malformed =>
    obtain ⟨e, he, hcode⟩ := question_eq_error opcode malformed
    rw [he]
    show query.response.withCode e.code = _
    rw [hcode]
  | answered opcode question noRecords populated =>
    rw [question_eq_ok opcode question noRecords]
    exact populated

/-- Every query calls for some response. -/
theorem exists_decides (zone : DomainTree) (query : Message) : ∃ r, Decides zone query r := by
  by_cases opcode : query.opcode = .query
  · by_cases malformed : query.questions.length ≠ 1 ∨ query.records ≠ []
    · exact ⟨_, .formatError opcode malformed⟩
    · push Not at malformed
      obtain ⟨q, hq⟩ := List.length_eq_one_iff.1 malformed.1
      refine ⟨_, .answered opcode hq malformed.2 rfl ?_⟩
      rw [DomainTree.answer, DomainTree.questions_putInto]
      rfl
  · exact ⟨_, .notImplemented opcode⟩

/-- The codes of rejections. -/
def IsRejection (c : ResponseCode) : Prop := c = .notImplemented ∨ c = .formatError ∨ c = .refused

instance (c : ResponseCode) : Decidable (IsRejection c) := inferInstanceAs (Decidable (_ ∨ _))

/-- A response keeps the opcode of its query, and a rejection holds at most the question. -/
theorem Decides.opcode_and_code (h : Decides zone query r) :
    r.opcode = query.opcode ∧
      (r.code = .noError ∨ r.code = .nameError ∨ IsRejection r.code ∧ r.wireLength ≤ 271) := by
  have hempty : query.response.wireLength ≤ 271 := by
    show 12 ≤ 271
    omega
  cases h with
  | notImplemented opcode => exact ⟨rfl, .inr (.inr ⟨.inl rfl, hempty⟩)⟩
  | formatError opcode malformed => exact ⟨rfl, .inr (.inr ⟨.inr (.inl rfl), hempty⟩)⟩
  | @answered q r opcode question noRecords populated echoed =>
    rw [DomainTree.answer] at populated
    subst populated
    refine ⟨DomainTree.opcode_putInto _ _, ?_⟩
    rcases DomainTree.code_putInto (zone.verdict q) (query.response.addQuestions [q]) with
      (hcode | hcode) | ⟨hcode, hrecords⟩
    · exact .inl hcode
    · exact .inr (.inl hcode)
    · -- A refusal is as long as its question, and a name has at most 255 octets.
      refine .inr (.inr ⟨.inr (.inr hcode), ?_⟩)
      have hname := q.qname.wireLength_le
      rw [Message.wireLength, hrecords, echoed]
      show 12 + (q.qname.wireLength + 4) + 0 ≤ 271
      rw [Name.wireLength]
      omega

/-! ## 4. What is done with a datagram -/

/-- What becomes of a datagram: dropped as no message or as no query, or responded to, in the front
of the buffer, unless the response does not get into the size of a datagram. -/
inductive Handled (zone : DomainTree) (buffer datagram : Octets) : Option Response → Prop
  | undecodable {e : Message.DecodeError} (undecoded : Message.decode datagram = .error e) :
      Handled zone buffer datagram none
  | unsolicited {query : Message} {length : Nat}
      (decoded : Message.decode datagram = .ok (query, length))
      (isResponse : query.isResponse = true) : Handled zone buffer datagram none
  | sent {query r : Message} {length : Nat} {octets : Octets}
      (decoded : Message.decode datagram = .ok (query, length))
      (isQuery : query.isResponse = false) (decides : Decides zone query r)
      (encodes : r.EncodesAs maximumDatagram octets) (size : octets.length = r.wireLength) :
      Handled zone buffer datagram
        (some ⟨octets.length, octets ++ buffer.drop octets.length⟩)
  | tooLong {query r : Message} {length : Nat}
      (decoded : Message.decode datagram = .ok (query, length))
      (isQuery : query.isResponse = false) (decides : Decides zone query r)
      (truncated : ∀ scratch : Octets, scratch.length = maximumDatagram →
        r.encode scratch = .error .truncated)
      (noRejection : ¬ IsRejection r.code) : Handled zone buffer datagram none

/-- Every datagram can be handled. -/
theorem exists_handled (zone : DomainTree) (buffer datagram : Octets) :
    ∃ value, Handled zone buffer datagram value := by
  cases decoded : Message.decode datagram with
  | error e => exact ⟨_, .undecodable decoded⟩
  | ok result =>
    obtain ⟨query, length⟩ := result
    cases isResponse : query.isResponse with
    | true => exact ⟨_, .unsolicited decoded isResponse⟩
    | false =>
      obtain ⟨r, hdecides⟩ := exists_decides zone query
      obtain ⟨hopcode, hkind⟩ := hdecides.opcode_and_code
      have hopcode : r.opcode.number ≤ 15 := by
        rw [hopcode]
        exact (Message.asRead_of_decode decoded).opcode
      -- Opcode and code fit four bits, so only the size can keep the response from being written.
      have hcode : r.code.number ≤ 15 := by
        rcases hkind with h | h | ⟨h | h | h, -⟩ <;> rw [h] <;> decide
      -- A message within 512 octets fits all its counts.
      by_cases hlength : r.wireLength ≤ maximumDatagram
      · have hfits := Message.fits_of_wireLength_le (Nat.le_trans hlength (by decide))
        exact ⟨_, .sent decoded isResponse hdecides
          (Message.encodesAs_iff.2 ⟨hopcode, hcode, hfits, hlength, rfl⟩) r.length_wire⟩
      · refine ⟨_, .tooLong decoded isResponse hdecides ?_ ?_⟩
        · intro scratch hscratch
          rw [Message.encode_eq, if_neg (UInt8.not_lt.2 hopcode), if_neg (UInt8.not_lt.2 hcode),
            if_neg (by rw [hscratch]; exact fun h => hlength h.2)]
        · intro hrejection
          rcases hkind with h | h | ⟨-, h⟩
          · rw [h] at hrejection
            exact absurd hrejection (by decide)
          · rw [h] at hrejection
            exact absurd hrejection (by decide)
          · exact hlength (Nat.le_trans h (by decide))

/-- What is left of the buffer is left alone. -/
theorem send_of_encodesAs {octets : Octets} (hbuffer : maximumDatagram ≤ buffer.length)
    (h : r.EncodesAs maximumDatagram octets) :
    send source buffer r = ⟨some ⟨octets.length, octets ++ buffer.drop octets.length⟩, []⟩ := by
  obtain ⟨hopcode, hcode, hfits, hlength, rfl⟩ := Message.encodesAs_iff.1 h
  have hscratch : (buffer.take maximumDatagram).length = maximumDatagram :=
    List.length_take_of_le hbuffer
  have hencode := Message.encode_eq_ok_iff.2
    ⟨hopcode, hcode, hfits, Nat.le_trans hlength (Nat.le_of_eq hscratch.symm), rfl⟩
  have hrest : (buffer.take maximumDatagram).drop r.wire.length ++ buffer.drop maximumDatagram =
      buffer.drop r.wire.length := by
    rw [← List.drop_append_of_le_length (by rw [hscratch, r.length_wire]; exact hlength),
      List.take_append_drop]
  rw [send, hencode]
  dsimp only
  rw [Writer.position_extend_ofBuffer, Writer.buffer_extend_ofBuffer, List.append_assoc, hrest]

/-- However a datagram can be handled, it is handled in that way. -/
theorem handle_of_handled (source : SocketAddress) {value : Option Response}
    (hbuffer : maximumDatagram ≤ buffer.length) (h : Handled zone buffer datagram value) :
    ∃ log, handle zone source buffer datagram = .ok ⟨value, log⟩ := by
  have hscratch : (buffer.take maximumDatagram).length = maximumDatagram :=
    List.length_take_of_le hbuffer
  rw [handle, if_neg (Nat.not_lt.2 hbuffer)]
  cases h with
  | undecodable undecoded => exact ⟨_, by rw [undecoded]⟩
  | unsolicited decoded isResponse =>
    rw [decoded]
    dsimp only
    rw [isResponse]
    exact ⟨_, rfl⟩
  | @sent query r length octets decoded isQuery decides encodes size =>
    rw [decoded]
    dsimp only
    rw [isQuery, respond_of_decides decides, send_of_encodesAs hbuffer encodes]
    exact ⟨_, rfl⟩
  | @tooLong query r length decoded isQuery decides truncated =>
    rw [decoded]
    dsimp only
    rw [isQuery, respond_of_decides decides, send, truncated _ hscratch]
    exact ⟨_, rfl⟩

/-- What is done with a datagram is one of the ways to handle it. -/
theorem handled_of_handle {handled : Logged (Option Response)}
    (h : handle zone source buffer datagram = .ok handled) :
    Handled zone buffer datagram handled.value := by
  -- A buffer that is too small is an error, and there was none.
  have hbuffer : maximumDatagram ≤ buffer.length := by
    by_contra hsmall
    rw [handle, if_pos (Nat.lt_of_not_le hsmall)] at h
    cases h
  obtain ⟨value, hvalue⟩ := exists_handled zone buffer datagram
  obtain ⟨log, hlog⟩ := handle_of_handled source hbuffer hvalue
  rw [hlog] at h
  cases h
  exact hvalue

/-- A datagram is handled in exactly one way, whatever the datagram, the zones and the buffer are. -/
theorem handle_value_iff (zone : DomainTree) (source : SocketAddress) (datagram : Octets)
    (hbuffer : maximumDatagram ≤ buffer.length) :
    ∃ handled, handle zone source buffer datagram = .ok handled ∧
      ∀ value, handled.value = value ↔ Handled zone buffer datagram value := by
  -- Some way exists, every way is what `handle` does, and `handle` does one thing.
  obtain ⟨value, hvalue⟩ := exists_handled zone buffer datagram
  obtain ⟨log, hlog⟩ := handle_of_handled source hbuffer hvalue
  refine ⟨_, hlog, fun value' => ⟨?_, ?_⟩⟩
  · rintro rfl
    exact hvalue
  · intro hvalue'
    obtain ⟨log', hlog'⟩ := handle_of_handled source hbuffer hvalue'
    rw [hlog] at hlog'
    cases hlog'
    rfl

/-- A query for the address of `a.`. -/
def exampleDatagram : Octets := [0, 9, 1, 0, 0, 1, 0, 0, 0, 0, 0, 0, 1, 0x61, 0, 0, 1, 0, 1]

/-- The refusal of the query, in a longer buffer. -/
def exampleRefusal : Response :=
  ⟨19, [0, 9, 0x81, 5, 0, 1, 0, 0, 0, 0, 0, 0, 1, 0x61, 0, 0, 1, 0, 1] ++ List.replicate 581 7⟩

theorem handled_refusal_example :
    maximumDatagram ≤ (List.replicate 600 (7 : UInt8)).length ∧
      Handled .empty (List.replicate 600 7) exampleDatagram (some exampleRefusal) := by
  have hbuffer : maximumDatagram ≤ (List.replicate 600 (7 : UInt8)).length := by decide +kernel
  obtain ⟨handled, hhandle, hvalue⟩ :=
    handle_value_iff .empty ⟨.v4 192 0 2 1, 53, 0⟩ exampleDatagram hbuffer
  refine ⟨hbuffer, (hvalue _).1 ?_⟩
  have hrefusal : (handle .empty ⟨.v4 192 0 2 1, 53, 0⟩ (List.replicate 600 7)
      exampleDatagram).toOption.map Logged.value = some (some exampleRefusal) := by
    decide +kernel
  rw [hhandle] at hrefusal
  exact Option.some.inj hrefusal

end Responder

end Nameserver

import Nameserver.Proofs.Message.RoundTrip
import Nameserver.Proofs.Responder.Decision
import Nameserver.Proofs.Zone.Answer
import Nameserver.Proofs.Zone.Dump
/-!
# Answers from loaded zones

A zone file writes out every name in the data of its records, so no answer from it holds data that a
receiver could take for compressed names.  A query is answered alike before and after it went
through the wire.
-/

namespace Nameserver

/-! ## 1. Data from text -/

namespace RecordData

open DataField (LaidOut)

theorem laidOut_integers : ∀ integers : List UInt32,
    LaidOut (integers.map fun _ => .octets 4) (integers.flatMap Octets.ofUInt32)
  | [] => .nil
  | n :: integers => .octets (Octets.ofUInt32 n) (laidOut_integers integers)

theorem laidOut_name (target : Name) : LaidOut [.name] target.wire := by
  have h := LaidOut.name target .nil
  rwa [List.append_nil] at h

/-- What a text says of record data follows the layout of the type, if it has one. -/
theorem Value.laidOut {rtype : RecordType} {v : Value} (h : RecordData.form rtype = .ok v.form) :
    rtype = .a ∨ ∃ fields, rtype.normalized.layout? = some fields ∧ LaidOut fields v.data := by
  cases v with
  | address a b c d =>
    cases rtype with
    | a => exact .inl rfl
    | _ => cases h
  | name target =>
    cases rtype with
    | ns | cname | ptr => exact .inr ⟨_, rfl, laidOut_name target⟩
    | _ => cases h
  -- A preference takes two octets, and then comes the name.
  | exchange preference target =>
    cases rtype with
    | mx => exact .inr ⟨_, rfl, .octets (Octets.ofUInt16 preference) (laidOut_name target)⟩
    | _ => cases h
  | authority mname rname integers five =>
    cases rtype with
    | soa =>
      have hintegers := laidOut_integers integers
      rw [List.map_const', five] at hintegers
      exact .inr ⟨_, rfl, .name mname (.name rname hintegers)⟩
    | _ => cases h

end RecordData

namespace Record

variable {r : Record}

/-- A record that was read from a line has data that writes a value. -/
theorem IsRead.exists_value (h : r.IsRead) :
    ∃ v : RecordData.Value, RecordData.form r.rtype = .ok v.form ∧ r.data = v.data := by
  obtain ⟨_, _, hline⟩ := h
  obtain ⟨_, ht⟩ := (writable_of_ofText hline).2.hasText
  obtain ⟨v, hform, hdata, -⟩ := text_eq_ok_iff.1 ht
  exact ⟨v, hform, hdata⟩

theorem IsRead.isNamed (h : r.IsRead) : r.rtype.IsNamed := by
  obtain ⟨v, hform, -⟩ := h.exists_value
  have hsix : ∀ t ∈ [RecordType.a, .ns, .cname, .ptr, .mx, .soa], t.IsNamed := by decide
  exact hsix _ (RecordData.mem_of_form hform)

theorem IsRead.rclass_eq (h : r.IsRead) : r.rclass = .internet := by
  obtain ⟨_, _, hline⟩ := h
  exact (writable_of_ofText hline).1

/-- The data of a record from a line has its names written out. -/
theorem IsRead.plainData (h : r.IsRead) : r.PlainData := by
  obtain ⟨v, hform, hdata⟩ := h.exists_value
  intro hnumber
  rcases v.laidOut hform with haddress | hlaid
  · rw [haddress] at hnumber
    exact absurd hnumber (by decide)
  · rw [hdata]
    exact .inr hlaid

end Record

theorem Question.normalized_normalized (q : Question) : q.normalized.normalized = q.normalized := by
  have htype : q.qtype.normalized.normalized = q.qtype.normalized :=
    RecordType.normalized_ofNumber _
  have hclass : q.qclass.normalized.normalized = q.qclass.normalized :=
    RecordClass.normalized_ofNumber _
  rw [normalized, normalized, htype, hclass]

/-! ## 2. Records of an answer -/

namespace Lookup

variable {records : List Record} {query : Message} {q : Question} {c : List Octets}
  {g : Option (List Octets)} {r : Record}

theorem mem_of_mem_ownedOfType {k : List Octets} {rtype : RecordType}
    (h : r ∈ ownedOfType records k rtype) : r ∈ records :=
  List.mem_of_mem_filter (List.mem_of_mem_filter h)

theorem mem_of_mem_asked {k : List Octets} (h : r ∈ asked records k q) : r ∈ records :=
  List.mem_of_mem_filter (List.mem_of_mem_filter h)

/-- Every record of an answer is one of the zone's, where a wildcard stood in with its owner
changed. -/
theorem exists_of_mem_replyUnder (h : r ∈ (replyUnder records query q c g).records) :
    ∃ r' ∈ records, r = r' ∨ r = r'.withOwner q.qname := by
  have hreply : ∀ authoritative code answers authorities,
      (reply query q authoritative code answers authorities).records = answers ++ authorities :=
    fun _ _ _ _ => List.append_nil _
  cases g with
  | none => cases h
  | some d =>
    -- One case for each kind of answer: referral, exact, wildcard, no such name.
    rw [replyUnder] at h
    split at h
    · rw [hreply, List.nil_append] at h
      exact ⟨r, mem_of_mem_ownedOfType h, .inl rfl⟩
    split at h
    · rw [hreply, List.append_nil] at h
      exact ⟨r, mem_of_mem_asked h, .inl rfl⟩
    split at h
    · rw [hreply, List.append_nil] at h
      obtain ⟨r', hr', rfl⟩ := List.mem_map.1 h
      exact ⟨r', mem_of_mem_asked hr', .inr rfl⟩
    · rw [hreply, List.nil_append] at h
      exact ⟨r, mem_of_mem_ownedOfType (List.mem_of_mem_take h), .inl rfl⟩

end Lookup

namespace DomainTree

variable {records : List Record} {r : Record}

/-- Every record of an answer from a tree is one that the tree was made of. -/
theorem exists_of_mem_answer (hnamed : ∀ r ∈ records, r.rtype.IsNamed) (query : Message)
    (q : Question) (h : r ∈ ((ofRecords records).answer q query.response).value.records) :
    ∃ r' ∈ records, r = r' ∨ r = r'.withOwner q.qname := by
  obtain ⟨c, g, -, -, hvalue⟩ := answer_eq_replyUnder hnamed query q
  rw [hvalue] at h
  exact Lookup.exists_of_mem_replyUnder h

/-- A receiver of an answer from a loaded zone keeps all data as it was sent. -/
theorem plainData_of_mem_answer {strictness : Name.Strictness} {file : Octets}
    {loaded : Logged DomainTree} (hload : load strictness file = .ok loaded) (query : Message)
    (q : Question) : ∀ r ∈ (loaded.value.answer q query.response).value.records, r.PlainData := by
  obtain ⟨records, holds, rfl⟩ := load_eq_ok_iff.1 hload
  intro r hr
  obtain ⟨r', hr', heq⟩ :=
    exists_of_mem_answer (fun r hr => (holds.isRead r hr).isNamed) query q hr
  have hplain := (holds.isRead r' hr').plainData
  -- Another owner does not change the data.
  rcases heq with rfl | rfl
  · exact hplain
  · exact hplain

/-! ## 3. Answers to a query off the wire -/

variable {zone : DomainTree} {query : Message} {q : Question}

/-- Types are compared by their numbers, so their names make no difference to a search. -/
theorem recordsAsked_normalized (t : DomainTree) (q : Question) :
    t.recordsAsked q.normalized = t.recordsAsked q := by
  simp only [recordsAsked, Question.normalized, RecordType.same, RecordType.number_normalized]

theorem verdict_normalized (zone : DomainTree) (q : Question) :
    zone.verdict q.normalized = zone.verdict q := by
  simp only [verdict, recordsAsked_normalized]
  rfl

theorem questions_answer (zone : DomainTree) (query : Message) (q : Question) :
    (zone.answer q query.response).value.questions = [q] := by
  rw [answer, questions_putInto]
  rfl

/-- An answer is a response with the identifier and the opcode of its query. -/
theorem header_answer (zone : DomainTree) (query : Message) (q : Question) :
    (zone.answer q query.response).value.isResponse = true ∧
      (zone.answer q query.response).value.id = query.id ∧
      (zone.answer q query.response).value.opcode = query.opcode := by
  rw [answer]
  cases zone.verdict q <;> exact ⟨rfl, rfl, rfl⟩

/-- An answer has its opcode and response code by their names. -/
theorem normalized_header_answer (zone : DomainTree) (q : Question)
    (opcode : query.opcode = .query) :
    (zone.answer q query.response).value.toHeader.normalized =
      (zone.answer q query.response).value.toHeader := by
  refine Header.normalized_eq_iff.2 ⟨?_, ?_⟩
  · rw [(header_answer zone query q).2.2, opcode]
    rfl
  · rw [answer]
    cases zone.verdict q <;> rfl

/-- The answer to a query does not tell whether the query gave types by name or by number. -/
theorem answer_normalized (zone : DomainTree) (q : Question) (opcode : query.opcode = .query) :
    (zone.answer q.normalized query.normalized.response).value.normalized =
      (zone.answer q query.response).value.normalized := by
  have hresponse : query.normalized.response = query.response := by
    have hquery : query.normalized.opcode = query.opcode := by
      show query.opcode.normalized = _
      rw [opcode]
      rfl
    rw [Message.response, Message.response, hquery]
    rfl
  have hquestion : q.normalized.normalized = q.normalized := q.normalized_normalized
  rw [hresponse, answer, answer, verdict_normalized]
  cases zone.verdict q <;> simp [Verdict.putInto, Message.normalized, Message.withCode,
    Message.addQuestions, Message.addAnswers, Message.addAuthorities, Message.response, hquestion]

end DomainTree

end Nameserver

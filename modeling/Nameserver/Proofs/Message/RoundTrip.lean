import Nameserver.Proofs.Message.Spelling
/-!
# Messages that are written and read again

A message is built from the empty one by edits.  If it can be written, then reading what was written
gives it back, as long as no record data looks like compressed names.
-/

namespace Nameserver.Message

/-! ## 1. Edits -/

/-- One change to a message. -/
inductive Edit where
  | setId (id : UInt16)
  | setResponse (flag : Bool)
  | setOpcode (opcode : Opcode)
  | setAuthoritative (flag : Bool)
  | setTruncated (flag : Bool)
  | setRecursionDesired (flag : Bool)
  | setRecursionAvailable (flag : Bool)
  | setCode (code : ResponseCode)
  | addQuestion (question : Question)
  | addAnswer (record : Record)
  | addAuthority (record : Record)
  | addAdditional (record : Record)

def Edit.apply (m : Message) : Edit → Message
  | setId id => { m with id }
  | setResponse flag => { m with isResponse := flag }
  | setOpcode opcode => m.withOpcode opcode
  | setAuthoritative flag => { m with authoritative := flag }
  | setTruncated flag => { m with truncated := flag }
  | setRecursionDesired flag => { m with recursionDesired := flag }
  | setRecursionAvailable flag => { m with recursionAvailable := flag }
  | setCode code => m.withCode code
  | addQuestion question => m.addQuestions [question]
  | addAnswer record => m.addAnswers [record]
  | addAuthority record => m.addAuthorities [record]
  | addAdditional record => m.addAdditionals [record]

/-- The message that edits make of the empty one. -/
def built (edits : List Edit) : Message := edits.foldl Edit.apply {}

/-- One edit keeps the opcode and the response code by their names. -/
theorem normalized_apply {m : Message} (h : m.toHeader.normalized = m.toHeader) (edit : Edit) :
    (edit.apply m).toHeader.normalized = (edit.apply m).toHeader := by
  rw [Header.normalized_eq_iff] at h ⊢
  obtain ⟨hopcode, hcode⟩ := h
  -- Two edits set what the invariant speaks of, and both do it by name.
  cases edit with
  | setOpcode o => exact ⟨o.normalized_normalized, hcode⟩
  | setCode c => exact ⟨hopcode, c.normalized_normalized⟩
  | _ => exact ⟨hopcode, hcode⟩

/-- Edits keep the opcode and the response code by their names. -/
theorem normalized_foldl {m : Message} (h : m.toHeader.normalized = m.toHeader)
    (edits : List Edit) :
    (edits.foldl Edit.apply m).toHeader.normalized = (edits.foldl Edit.apply m).toHeader := by
  induction edits generalizing m with
  | nil => exact h
  | cons edit edits ih => exact ih (normalized_apply h edit)

/-- A built message has its opcode and response code by their names. -/
theorem normalized_built (edits : List Edit) :
    (built edits).toHeader.normalized = (built edits).toHeader :=
  normalized_foldl rfl edits

/-! ## 2. The round trip -/

variable {m : Message} {buffer : Octets} {w : Writer}

/-- The wire form of a message spells it with every table, if no data looks like compressed names.
-/
theorem spells_wire {table : PointerTable} (hfits : m.Fits)
    (hplain : ∀ r ∈ m.records, r.PlainData) : m.Spells table m.wire := by
  obtain ⟨hcounts, hdata⟩ := hfits
  have hall : ∀ s : List Record, (∀ r ∈ s, r ∈ m.records) →
      SpelledAll (Record.Spells table) s (s.flatMap Record.wire) := fun s hs =>
    spelledAll_flatMap fun r hr => Record.spells_wire (hplain r (hs r hr)) (hdata r (hs r hr))
  rw [wire_eq_sections]
  -- Names are written without pointers, so no entry of the table is asked for.
  refine .sections hcounts ?_ (hall _ fun r hr => mem_records.2 (.inl hr))
    (hall _ fun r hr => mem_records.2 (.inr (.inl hr)))
    (hall _ fun r hr => mem_records.2 (.inr (.inr hr)))
  exact spelledAll_flatMap fun q _ => .parts (q.qname.spells_wire table)

/-- A message that was written is read again. -/
theorem decode_take_of_encode (hplain : ∀ r ∈ m.records, r.PlainData)
    (h : m.encode buffer = .ok w) :
    decode (w.buffer.take w.position) = .ok (m.normalized, w.position) := by
  obtain ⟨hopcode, hcode, hfits, -, rfl⟩ := encode_eq_ok_iff.1 h
  -- What is read is cut off at the position, so the rest of the buffer has no part in it.
  rw [Writer.buffer_extend_ofBuffer, Writer.position_extend_ofBuffer, List.take_left]
  exact decode_of_takes (takes_reader hopcode hcode (spells_wire hfits hplain))

/-- Every message that edits make and that can be written is read again, field for field. -/
theorem decode_encode {edits : List Edit} (hplain : ∀ r ∈ (built edits).records, r.PlainData)
    (h : (built edits).encode buffer = .ok w) :
    ∃ m, decode (w.buffer.take w.position) = .ok (m, w.position) ∧
      m.toHeader = (built edits).toHeader ∧ m.SameFields (built edits) :=
  ⟨_, decode_take_of_encode hplain h, normalized_built edits, sameFields_normalized _⟩

/-- A name with one label, an octet that could start a pointer. -/
def exampleName : Name := ⟨[⟨[0xc3], by decide⟩], by decide, by decide⟩

/-- A response with the server of a name, in the layout, and an address. -/
def exampleEdits : List Edit :=
  [.setId 7, .setResponse true, .setOpcode (.unassigned 4), .addQuestion ⟨exampleName, .any, .internet⟩,
    .addAnswer ⟨exampleName, .other 2, .internet, 300, [1, 0xc3, 0]⟩, .setCode .noError,
    .addAdditional ⟨exampleName, .a, .internet, 300, [192, 0, 2, 1]⟩]

/-- The server's data follows its layout, and no pointer can start in the address. -/
theorem plainData_exampleEdits : ∀ r ∈ (built exampleEdits).records, r.PlainData := by
  intro r hr
  rcases List.mem_pair.1 hr with rfl | rfl
  · exact fun _ => .inr ⟨[.name], rfl, .name exampleName .nil⟩
  · intro h
    exact absurd h (by decide)

/-- The response with an octet that could start a pointer is read again. -/
theorem decode_encode_example :
    (∀ r ∈ (built exampleEdits).records, r.PlainData) ∧
      ∃ w, (built exampleEdits).encode (List.replicate 64 0) = .ok w ∧
        ∃ m, decode (w.buffer.take w.position) = .ok (m, w.position) ∧
          m.toHeader = (built exampleEdits).toHeader ∧ m.SameFields (built exampleEdits) := by
  have hencode : (built exampleEdits).encode (List.replicate 64 0) = .ok _ :=
    encode_eq_ok_iff.2 ⟨by decide, by decide, by decide, by decide, rfl⟩
  exact ⟨plainData_exampleEdits, _, hencode, decode_encode plainData_exampleEdits hencode⟩

end Nameserver.Message

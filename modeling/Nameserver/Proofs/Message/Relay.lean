import Mathlib.Control.Monad.Basic
import Nameserver.Proofs.Message.Decoded
/-!
# Messages that are passed on

A message that was read can be written again, without pointers, and the next reader makes a pointer
table of its own from what was written.  Data that did not follow the layout of its type stands
there as it was received, so it may follow the layout now; all else is read as it was.
-/

namespace Nameserver

/-! ## 1. Reading data again -/

/-- The record as it is read from its wire form with a table. -/
def Record.reread (table : PointerTable) (r : Record) : Record :=
  { r with data := r.rtype.expand table r.data }

theorem Record.reread_eq_self_iff {table : PointerTable} {r : Record} :
    r.reread table = r ↔ r.rtype.expand table r.data = r.data := by
  cases r
  simp [reread]

/-- Data is read again as it was if it follows the layout of its type, if the type has none, or if
no pointer can start in it. -/
theorem Record.reread_eq_self (table : PointerTable) {r : Record} (hnamed : r.normalized = r)
    (h : r.PlainData) : r.reread table = r := by
  have htype : r.rtype.normalized = r.rtype := congrArg rtype hnamed
  -- Plain data spells itself, so it expands to itself.
  have hdata : RecordType.SpellsData table r.rtype.normalized r.data r.data := h.spellsData
  rw [htype] at hdata
  exact reread_eq_self_iff.2 (RecordType.expand_of_spellsData hdata)

/-- A record is read from its wire form but for its data, which is expanded once more. -/
theorem Record.takes_wire {table : PointerTable} {r : Record} (hnamed : r.normalized = r)
    (fits : r.data.length ≤ 65535) : (reader table).Takes r.wire (r.reread table) := by
  have htype : r.rtype.normalized = r.rtype := congrArg rtype hnamed
  have htakes := takes_reader_expand (r.owner.spells_wire table) fits
  rw [hnamed, htype] at htakes
  exact htakes

namespace Message

/-- The message as it is read from its wire form with a table. -/
def reread (table : PointerTable) (m : Message) : Message :=
  { m with
    answers := m.answers.map (Record.reread table)
    authorities := m.authorities.map (Record.reread table)
    additionals := m.additionals.map (Record.reread table) }

theorem reread_eq_self_iff {table : PointerTable} {m : Message} :
    m.reread table = m ↔ ∀ r ∈ m.records, r.rtype.expand table r.data = r.data := by
  simp only [← Record.reread_eq_self_iff, mem_records, or_imp, forall_and, ← map_eq_self_iff]
  cases m
  simp [reread]

/-! ## 2. Reading a message again -/

variable {m : Message} {octets buffer : Octets} {length : Nat}

/-- A message whose numbers fit is read from its wire form but for the data of its records. -/
theorem decode_wire (hm : m.AsRead) :
    decode m.wire = .ok (m.reread (.ofMessage m.wire), m.wireLength) := by
  obtain ⟨hopcode, hcode, ⟨hcounts, hdata⟩, hnormalized⟩ := hm
  obtain ⟨hheader, hquestion, hrecord⟩ := normalized_eq_self_iff.1 hnormalized
  -- The wire form spells all names without pointers, so only the data depends on the table.
  have hquestions : SpelledAll (fun q xs =>
      (Question.reader (.ofMessage m.wire)).Takes xs q.normalized) m.questions
      (m.questions.flatMap Question.wire) :=
    spelledAll_flatMap fun q _ => Question.takes_reader (.parts (q.qname.spells_wire _))
  have hsection : ∀ s : List Record, (∀ r ∈ s, r ∈ m.records) →
      SpelledAll (fun r xs => (Record.reader (.ofMessage m.wire)).Takes xs
        (r.reread (.ofMessage m.wire))) s (s.flatMap Record.wire) := fun s hs =>
    spelledAll_flatMap fun r hr => Record.takes_wire (hrecord r (hs r hr)) (hdata r (hs r hr))
  have htakes := takes_sections hopcode hcode hcounts hquestions
    (hsection m.answers fun r hr => mem_records.2 (.inl hr))
    (hsection m.authorities fun r hr => mem_records.2 (.inr (.inl hr)))
    (hsection m.additionals fun r hr => mem_records.2 (.inr (.inr hr)))
  rw [hheader, map_eq_self_iff.2 hquestion] at htakes
  rw [← wire_eq_sections] at htakes
  rw [decode_of_takes htakes, length_wire]
  rfl

/-- A message that was read is written into every buffer of its size. -/
theorem encode_of_decode (h : decode octets = .ok (m, length))
    (hroom : m.wireLength ≤ buffer.length) :
    m.encode buffer = .ok ((Writer.ofBuffer buffer).extend m.wire) := by
  have hm := asRead_of_decode h
  exact encode_eq_ok_iff.2 ⟨hm.opcode, hm.code, hm.fits, hroom, rfl⟩

/-- A message that was read can be passed on in every buffer of its size.  What arrives is the same
message just if data that looks like compressed names, and does not follow the layout of its type,
is not taken for compressed names with the table of what was written. -/
theorem relayed_iff (h : decode octets = .ok (m, length)) (hroom : m.wireLength ≤ buffer.length) :
    ∃ w, m.encode buffer = .ok w ∧
      (decode (w.buffer.take w.position) = .ok (m, w.position) ↔
        ∀ r ∈ m.records, ¬ r.PlainData →
          r.rtype.expand (.ofMessage m.wire) r.data = r.data) := by
  have hm := asRead_of_decode h
  have hrecord := (normalized_eq_self_iff.1 hm.normalized).2.2
  refine ⟨_, encode_of_decode h hroom, ?_⟩
  -- What arrives is the message as it is read from its wire form.
  rw [Writer.buffer_extend_ofBuffer, Writer.position_extend_ofBuffer, List.take_left,
    decode_wire hm, length_wire]
  constructor
  · intro hsame r hr _
    have hreread := congrArg Prod.fst (Except.ok.inj hsame)
    exact reread_eq_self_iff.1 hreread r hr
  · intro hdata
    -- Plain data is read again as it was with any table, so nothing is asked about it.
    have hreread : m.reread (.ofMessage m.wire) = m := by
      refine reread_eq_self_iff.2 fun r hr => ?_
      by_cases hplain : r.PlainData
      · exact Record.reread_eq_self_iff.1 (Record.reread_eq_self _ (hrecord r hr) hplain)
      · exact hdata r hr hplain
    rw [hreread]

/-- The response in which `a.` is a pointer is passed on without pointers and arrives as it was. -/
theorem relayed_example :
    decode exampleOctets = .ok (exampleResponse, 35) ∧
      exampleResponse.wireLength ≤ (List.replicate 64 (0 : UInt8)).length ∧
      ∃ w, exampleResponse.encode (List.replicate 64 0) = .ok w ∧
        decode (w.buffer.take w.position) = .ok (exampleResponse, w.position) := by
  have hread : decode exampleOctets = .ok (exampleResponse, 35) := by decide +kernel
  have hroom : exampleResponse.wireLength ≤ (List.replicate 64 (0 : UInt8)).length := by decide
  obtain ⟨w, hencode, hiff⟩ := relayed_iff hread hroom
  have hdata : ∀ r ∈ exampleResponse.records,
      r.rtype.expand (.ofMessage exampleResponse.wire) r.data = r.data := by decide +kernel
  exact ⟨hread, hroom, w, hencode, hiff.2 fun r hr _ => hdata r hr⟩

/-- A question with the root as a pointer, and a server whose data is a pointer to no name.  Without
the first pointer the question is shorter by one octet, so that the second leads to a name. -/
def shiftingOctets : Octets :=
  [0, 7, 0, 0, 0, 1, 0, 1, 0, 0, 0, 0, 0xc0, 0, 0, 0xff, 0, 1] ++
    [0, 0, 2, 0, 1, 0, 0, 0, 0, 0, 2, 0xc0, 15]

def shiftingMessage : Message where
  id := 7
  questions := [⟨.root, .any, .internet⟩]
  answers := [⟨.root, .ns, .internet, 0, [0xc0, 15]⟩]

/-- A message can be another one after it was passed on. -/
theorem relaying_can_change_data :
    ¬ ∀ (octets buffer : Octets) (m : Message) (length : Nat), decode octets = .ok (m, length) →
      m.wireLength ≤ buffer.length →
        ∃ w, m.encode buffer = .ok w ∧ decode (w.buffer.take w.position) = .ok (m, w.position) := by
  intro h
  have hread : decode shiftingOctets = .ok (shiftingMessage, 31) := by decide +kernel
  have hroom : shiftingMessage.wireLength ≤ (List.replicate 64 (0 : UInt8)).length := by decide
  obtain ⟨w, hencode, hdecode⟩ := h _ _ _ _ hread hroom
  rw [encode_of_decode hread hroom] at hencode
  cases hencode
  rw [Writer.buffer_extend_ofBuffer, Writer.position_extend_ofBuffer, List.take_left] at hdecode
  exact absurd hdecode (by decide +kernel)

end Message

end Nameserver

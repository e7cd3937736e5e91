import Mathlib.Algebra.GroupWithZero.Nat
import Mathlib.Algebra.Order.BigOperators.Group.List
import Mathlib.Algebra.Order.Group.Nat
import Mathlib.Tactic.ByContra
import Nameserver.Proofs.Message.Header
import Nameserver.Proofs.Record.Wire
/-!
# The octets of a message

A message that has a wire form is written as that form, whatever the buffer holds, if the form fits
the buffer; no other message is written.
-/

namespace Nameserver

/-! ## 1. Questions -/

namespace Question

/-- The wire form of a question. -/
def wire (q : Question) : Octets :=
  q.qname.wire ++ (Octets.ofUInt16 q.qtype.number ++ Octets.ofUInt16 q.qclass.number)

theorem length_wire (q : Question) : q.wire.length = q.wireLength := by
  rw [wire, List.length_append, Name.length_wire]
  rfl

/-- A question is put in its wire form, in one piece. -/
theorem write_eq_put (q : Question) (w : Writer) : q.write w = w.put q.wire := by
  rw [write]
  by_cases h : w.hasRoom q.wireLength = true
  · rw [if_pos h]
    simp only [Name.write_eq_put, Writer.putUInt16, Writer.put_bind_put, wire]
  -- The check of the room fails just where the one put would.
  · rw [if_neg h]
    rw [Writer.hasRoom_iff] at h
    rw [Writer.put_of_lt (by rw [length_wire]; omega)]
    rfl

end Question

namespace Message

/-! ## 2. Messages -/

/-- Sixteen bits hold the number of entries of each section. -/
def CountsFit (m : Message) : Prop :=
  m.questions.length ≤ 65535 ∧ m.answers.length ≤ 65535 ∧ m.authorities.length ≤ 65535 ∧
    m.additionals.length ≤ 65535

/-- Sixteen bits hold the number of entries of each section and the length of each record's data. -/
def Fits (m : Message) : Prop := m.CountsFit ∧ ∀ r ∈ m.records, r.data.length ≤ 65535

instance (m : Message) : Decidable m.CountsFit := inferInstanceAs (Decidable (_ ∧ _))

instance (m : Message) : Decidable m.Fits := inferInstanceAs (Decidable (_ ∧ _))

/-- The identifier, the flags and the counts. -/
def headerWire (m : Message) : Octets :=
  Octets.ofUInt16 m.id ++ (Octets.ofUInt16 (UInt16.ofNat m.flags) ++
    (Octets.ofUInt16 (UInt16.ofNat m.questions.length) ++
      (Octets.ofUInt16 (UInt16.ofNat m.answers.length) ++
        (Octets.ofUInt16 (UInt16.ofNat m.authorities.length) ++
          Octets.ofUInt16 (UInt16.ofNat m.additionals.length)))))

/-- The wire form of a message: the header and then the entries in order. -/
def wire (m : Message) : Octets :=
  m.headerWire ++ (m.questions.flatMap Question.wire ++ m.records.flatMap Record.wire)

/-- The records are written as one list and read as three sections. -/
theorem wire_eq_sections (m : Message) :
    m.wire = m.headerWire ++ (m.questions.flatMap Question.wire ++
      (m.answers.flatMap Record.wire ++
        (m.authorities.flatMap Record.wire ++ m.additionals.flatMap Record.wire))) := by
  rw [wire, records, List.flatMap_append, List.flatMap_append, List.append_assoc]

theorem mem_records {m : Message} {r : Record} :
    r ∈ m.records ↔ r ∈ m.answers ∨ r ∈ m.authorities ∨ r ∈ m.additionals := by
  rw [records, List.mem_append, List.mem_append, or_assoc]

@[simp] theorem length_headerWire (m : Message) : m.headerWire.length = 12 := rfl

theorem wireLength_eq_sum (m : Message) :
    m.wireLength =
      12 + (m.questions.map Question.wireLength).sum + (m.records.map Record.wireLength).sum := rfl

/-- The wire form of a message has the length that is computed for it. -/
theorem length_wire (m : Message) : m.wire.length = m.wireLength := by
  rw [wire, List.length_append, List.length_append, length_headerWire, List.length_flatMap,
    List.length_flatMap, wireLength_eq_sum, Nat.add_assoc]
  simp only [Question.length_wire, Record.length_wire]

/-- A message of limited size fits sixteen bits. -/
theorem fits_of_wireLength_le {m : Message} (h : m.wireLength ≤ 65535) : m.Fits := by
  have hquestions := List.length_le_sum_of_one_le (m.questions.map Question.wireLength) (by
    intro n hn
    obtain ⟨q, -, rfl⟩ := List.mem_map.1 hn
    exact Nat.le_add_left 1 _)
  have hrecords := List.length_le_sum_of_one_le (m.records.map Record.wireLength) (by
    intro n hn
    obtain ⟨r, -, rfl⟩ := List.mem_map.1 hn
    have := r.owner.one_le_wireLength
    rw [Record.wireLength]
    omega)
  rw [List.length_map] at hquestions hrecords
  rw [wireLength_eq_sum] at h
  have hlengths : m.records.length =
      m.answers.length + m.authorities.length + m.additionals.length := by
    rw [records, List.length_append, List.length_append]
  -- Every entry takes an octet at least, so there are no more entries than octets.
  refine ⟨⟨by omega, by omega, by omega, by omega⟩, ?_⟩
  intro r hr
  have hwire := List.le_sum_of_mem (List.mem_map_of_mem (f := Record.wireLength) hr)
  rw [Record.wireLength] at hwire
  omega

/-- Records are put in one piece, unless the data of one is too long. -/
theorem foldlM_write_records (records : List Record) (w : Writer) :
    records.foldlM (fun w r => r.write w) w =
      if ∀ r ∈ records, r.data.length ≤ 65535 then w.put (records.flatMap Record.wire)
      else .error .truncated := by
  split
  next h => exact Writer.foldlM_put (fun r hr w => Record.write_eq_put (h r hr) w) w
  -- Some data is too long: writing stops there, if it has not stopped before for want of room.
  next h =>
    induction records generalizing w with
    | nil => exact absurd (by simp) h
    | cons r records ih =>
      rw [List.foldlM_cons]
      by_cases hr : r.data.length ≤ 65535
      · rw [Record.write_eq_put hr]
        by_cases hroom : r.wire.length ≤ w.room
        · rw [Writer.put_of_le hroom]
          apply ih
          intro hall
          exact h (List.forall_mem_cons.2 ⟨hr, hall⟩)
        · rw [Writer.put_of_lt (Nat.lt_of_not_le hroom)]
          rfl
      · rw [Record.write_eq_error (Nat.lt_of_not_le hr)]
        rfl

/-- A number of entries that fits 16 bits is put as these bits. -/
theorem putCount_of_le {count : Nat} (h : count ≤ 65535) (w : Writer) :
    putCount count w = w.put (Octets.ofUInt16 (UInt16.ofNat count)) := by
  rw [putCount, if_pos h]
  rfl

/-- A message that fits sixteen bits is put in one piece. -/
theorem writeParts_of_fits {m : Message} (h : m.Fits) (w : Writer) :
    m.writeParts w = w.put m.wire := by
  obtain ⟨⟨hquestions, hanswers, hauthorities, hadditionals⟩, hdata⟩ := h
  rw [writeParts]
  have hfold : ∀ w : Writer, m.questions.foldlM (fun w q => q.write w) w =
      w.put (m.questions.flatMap Question.wire) :=
    Writer.foldlM_put fun q _ w => q.write_eq_put w
  simp only [putCount_of_le hquestions, putCount_of_le hanswers, putCount_of_le hauthorities,
    putCount_of_le hadditionals, Writer.putUInt16, hfold, foldlM_write_records, if_pos hdata,
    Writer.put_bind_put, wire, headerWire, List.append_assoc]

/-- Only a number of entries that fits 16 bits is put. -/
theorem le_of_putCount_eq_ok {count : Nat} {w w' : Writer} (h : putCount count w = .ok w') :
    count ≤ 65535 := by
  by_contra hlong
  rw [putCount, if_neg hlong] at h
  cases h

/-- Only a message that fits sixteen bits is put. -/
theorem fits_of_writeParts {m : Message} {w w' : Writer} (h : m.writeParts w = .ok w') :
    m.Fits := by
  obtain ⟨w₁, -, h⟩ := bind_eq_ok h
  obtain ⟨w₂, -, h⟩ := bind_eq_ok h
  obtain ⟨w₃, hquestions, h⟩ := bind_eq_ok h
  obtain ⟨w₄, hanswers, h⟩ := bind_eq_ok h
  obtain ⟨w₅, hauthorities, h⟩ := bind_eq_ok h
  obtain ⟨w₆, hadditionals, h⟩ := bind_eq_ok h
  obtain ⟨w₇, -, h⟩ := bind_eq_ok h
  refine ⟨⟨le_of_putCount_eq_ok hquestions, le_of_putCount_eq_ok hanswers,
    le_of_putCount_eq_ok hauthorities, le_of_putCount_eq_ok hadditionals⟩, ?_⟩
  -- The lengths of data are checked as the records are written.
  by_contra hlong
  rw [foldlM_write_records, if_neg hlong] at h
  cases h

/-- What writing a message into a buffer comes to. -/
theorem encode_eq (m : Message) (buffer : Octets) :
    m.encode buffer =
      if m.opcode.number > 15 then .error (.opcodeOutOfRange m.opcode.number)
      else if m.code.number > 15 then .error (.codeOutOfRange m.code.number)
      else if m.Fits ∧ m.wireLength ≤ buffer.length then
        .ok ((Writer.ofBuffer buffer).extend m.wire)
      else .error .truncated := by
  rw [encode]
  split
  next => rfl
  next =>
    split
    next => rfl
    next =>
      have hroom : (Writer.ofBuffer buffer).room = buffer.length := rfl
      by_cases hfits : m.Fits
      · rw [writeParts_of_fits hfits]
        by_cases hlength : m.wireLength ≤ buffer.length
        · rw [if_pos ⟨hfits, hlength⟩, Writer.put_of_le (by rw [length_wire, hroom]; exact hlength)]
          rfl
        · rw [if_neg (fun h => hlength h.2), Writer.put_of_lt (by rw [length_wire, hroom]; omega)]
          rfl
      · -- What does not fit sixteen bits is reported like what does not fit the buffer.
        rw [if_neg (fun h => hfits h.1)]
        cases h : m.writeParts (Writer.ofBuffer buffer) with
        | error e => rfl
        | ok w => exact absurd (fits_of_writeParts h) hfits

/-- A message is written exactly when its numbers fit their bits and its wire form the buffer. -/
theorem encode_eq_ok_iff {m : Message} {buffer : Octets} {w : Writer} :
    m.encode buffer = .ok w ↔
      m.opcode.number ≤ 15 ∧ m.code.number ≤ 15 ∧ m.Fits ∧ m.wireLength ≤ buffer.length ∧
        w = (Writer.ofBuffer buffer).extend m.wire := by
  rw [encode_eq]
  constructor
  · intro h
    split at h
    next => cases h
    next hopcode =>
      split at h
      next => cases h
      next hcode =>
        split at h
        next hfits =>
          cases h
          exact ⟨UInt8.not_lt.1 hopcode, UInt8.not_lt.1 hcode, hfits.1, hfits.2, rfl⟩
        next => cases h
  · rintro ⟨hopcode, hcode, hfits, hlength, rfl⟩
    rw [if_neg (UInt8.not_lt.2 hopcode), if_neg (UInt8.not_lt.2 hcode), if_pos ⟨hfits, hlength⟩]

/-- A message gets these octets in a buffer of some size, whatever the buffer holds. -/
def EncodesAs (m : Message) (size : Nat) (octets : Octets) : Prop :=
  ∀ scratch : Octets, scratch.length = size →
    ∃ w, m.encode scratch = .ok w ∧ w.position = octets.length ∧ w.buffer.take w.position = octets

/-- The octets of a message are its wire form, and a message has octets only if it fits. -/
theorem encodesAs_iff {m : Message} {size : Nat} {octets : Octets} :
    m.EncodesAs size octets ↔
      m.opcode.number ≤ 15 ∧ m.code.number ≤ 15 ∧ m.Fits ∧ m.wireLength ≤ size ∧
        octets = m.wire := by
  constructor
  · intro h
    -- One buffer is enough to see what the octets are.
    obtain ⟨w, hencode, -, htake⟩ := h (List.replicate size 0) List.length_replicate
    obtain ⟨hopcode, hcode, hfits, hlength, rfl⟩ := encode_eq_ok_iff.1 hencode
    rw [List.length_replicate] at hlength
    rw [Writer.buffer_extend_ofBuffer, Writer.position_extend_ofBuffer, List.take_left] at htake
    exact ⟨hopcode, hcode, hfits, hlength, htake.symm⟩
  · rintro ⟨hopcode, hcode, hfits, hlength, rfl⟩ scratch rfl
    refine ⟨_, encode_eq_ok_iff.2 ⟨hopcode, hcode, hfits, hlength, rfl⟩, ?_, ?_⟩
    · exact Writer.position_extend_ofBuffer _ _
    · rw [Writer.buffer_extend_ofBuffer, Writer.position_extend_ofBuffer, List.take_left]

end Message

end Nameserver

import Nameserver.Proofs.Message.Spelling
/-!
# Messages that were read

A message that was read has its opcode, response code, types and classes by their names, and all its
numbers fit their bits: whatever was received, it can be written again.
-/

namespace Nameserver

theorem Opcode.number_ofBits_le (n : Nat) : (ofBits n).number ≤ 15 := by
  rw [ofBits, number_normalized, UInt8.le_iff_toNat_le]
  show (UInt8.ofNat (n % 16)).toNat ≤ 15
  rw [UInt8.toNat_ofNat']
  omega

theorem ResponseCode.number_ofBits_le (n : Nat) : (ofBits n).number ≤ 15 := by
  rw [ofBits, number_normalized, UInt8.le_iff_toNat_le]
  show (UInt8.ofNat (n % 16)).toNat ≤ 15
  rw [UInt8.toNat_ofNat']
  omega

/-- A header that was read has its opcode and response code by their names. -/
theorem Header.normalized_ofFlags (id : UInt16) (flags : Nat) :
    (ofFlags id flags).normalized = ofFlags id flags :=
  normalized_eq_iff.2 ⟨Opcode.normalized_normalized _, ResponseCode.normalized_normalized _⟩

/-- A string that was read after 16 bits of length has a length of 16 bits. -/
theorem Reader.length_le_of_string16 {input rest data : Octets}
    (h : string16 input = .ok (data, rest)) : data.length ≤ 65535 := by
  obtain ⟨length, middle, -, hdata⟩ := bind_eq_ok_iff.1 h
  have hlength := (octets_eq_ok_iff.1 hdata).1
  have hlt := length.toNat_lt
  omega

/-- Entries whose number was read are few enough for it, and what a reader gives they all have. -/
theorem Reader.of_count_toNat {ε ε' α : Type} {r : Reader ε α} {f : ε → ε'} {p : α → Prop}
    {count : UInt16} {input rest : Octets} {entries : List α}
    (hp : ∀ {input rest a}, r input = .ok (a, rest) → p a)
    (h : (r.mapError f).count count.toNat input = .ok (entries, rest)) :
    entries.length ≤ 65535 ∧ ∀ a ∈ entries, p a := by
  obtain ⟨hlength, hread⟩ := of_count_eq_ok h
  have hlt := count.toNat_lt
  refine ⟨by omega, fun a ha => ?_⟩
  obtain ⟨input, rest, hentry⟩ := hread a ha
  exact hp (mapError_eq_ok_iff.1 hentry)

/-- A question that was read has its type and class by their names. -/
theorem Question.normalized_of_reader {table : PointerTable} {input rest : Octets} {q : Question}
    (h : reader table input = .ok (q, rest)) : q.normalized = q := by
  obtain ⟨qname, input, -, h⟩ := Reader.bind_eq_ok_iff.1 h
  obtain ⟨qtype, input, -, h⟩ := Reader.bind_eq_ok_iff.1 h
  obtain ⟨qclass, input, -, h⟩ := Reader.bind_eq_ok_iff.1 h
  cases h
  rw [normalized, RecordType.normalized_ofNumber, RecordClass.normalized_ofNumber]

/-- A record that was read has its type and class by their names, and its data is short enough to be
written. -/
theorem Record.of_reader {table : PointerTable} {input rest : Octets} {r : Record}
    (h : reader table input = .ok (r, rest)) : r.normalized = r ∧ r.data.length ≤ 65535 := by
  obtain ⟨owner, input, -, h⟩ := Reader.bind_eq_ok_iff.1 h
  obtain ⟨rtype, input, -, h⟩ := Reader.bind_eq_ok_iff.1 h
  obtain ⟨rclass, input, -, h⟩ := Reader.bind_eq_ok_iff.1 h
  obtain ⟨ttl, input, -, h⟩ := Reader.bind_eq_ok_iff.1 h
  obtain ⟨data, input, hdata, h⟩ := Reader.bind_eq_ok_iff.1 h
  cases h
  constructor
  · rw [normalized, RecordType.normalized_ofNumber, RecordClass.normalized_ofNumber]
  -- Expanding data with the names of a table keeps it short enough.
  · have hlength := Reader.length_le_of_string16 (Reader.failingWith_eq_ok_iff.1 hdata)
    exact RecordType.length_expand_le table hlength

namespace Message

variable {octets : Octets} {m : Message} {length : Nat}

/-- What every message that was read has: names for all numbers that have one, and numbers that fit
their bits. -/
structure AsRead (m : Message) : Prop where
  opcode : m.opcode.number ≤ 15
  code : m.code.number ≤ 15
  fits : m.Fits
  normalized : m.normalized = m

theorem map_eq_self_iff {α : Type} {f : α → α} {entries : List α} :
    entries.map f = entries ↔ ∀ entry ∈ entries, f entry = entry := by
  have h := List.map_inj_left (f := f) (g := id) (l := entries)
  rw [List.map_id] at h
  exact h

/-- A message is by names if all its parts are. -/
theorem normalized_eq_self_iff :
    m.normalized = m ↔ m.toHeader.normalized = m.toHeader ∧
      (∀ q ∈ m.questions, q.normalized = q) ∧ ∀ r ∈ m.records, r.normalized = r := by
  simp only [mem_records, or_imp, forall_and, ← map_eq_self_iff]
  cases m
  simp [Message.normalized]

/-- Whatever was received, a message that came of it has all that a message needs to be written. -/
theorem asRead_of_decode (h : decode octets = .ok (m, length)) : m.AsRead := by
  rw [decode] at h
  split at h
  next message rest hread =>
    cases h
    -- Six numbers, and then a section for each of the last four.
    obtain ⟨id, _, -, hread⟩ := Reader.bind_eq_ok_iff.1 hread
    obtain ⟨flags, _, -, hread⟩ := Reader.bind_eq_ok_iff.1 hread
    obtain ⟨questionCount, _, -, hread⟩ := Reader.bind_eq_ok_iff.1 hread
    obtain ⟨answerCount, _, -, hread⟩ := Reader.bind_eq_ok_iff.1 hread
    obtain ⟨authorityCount, _, -, hread⟩ := Reader.bind_eq_ok_iff.1 hread
    obtain ⟨additionalCount, _, -, hread⟩ := Reader.bind_eq_ok_iff.1 hread
    obtain ⟨questions, _, hquestions, hread⟩ := Reader.bind_eq_ok_iff.1 hread
    obtain ⟨answers, _, hanswers, hread⟩ := Reader.bind_eq_ok_iff.1 hread
    obtain ⟨authorities, _, hauthorities, hread⟩ := Reader.bind_eq_ok_iff.1 hread
    obtain ⟨additionals, _, hadditionals, hread⟩ := Reader.bind_eq_ok_iff.1 hread
    cases hread
    obtain ⟨hquestionCount, hquestion⟩ :=
      Reader.of_count_toNat Question.normalized_of_reader hquestions
    obtain ⟨hanswerCount, hanswer⟩ := Reader.of_count_toNat Record.of_reader hanswers
    obtain ⟨hauthorityCount, hauthority⟩ := Reader.of_count_toNat Record.of_reader hauthorities
    obtain ⟨hadditionalCount, hadditional⟩ := Reader.of_count_toNat Record.of_reader hadditionals
    -- The three sections are told apart by their counts alone.
    have hrecord : ∀ r ∈ answers ++ authorities ++ additionals,
        r.normalized = r ∧ r.data.length ≤ 65535 := by
      simp only [List.forall_mem_append]
      exact ⟨⟨hanswer, hauthority⟩, hadditional⟩
    refine ⟨Opcode.number_ofBits_le _, ResponseCode.number_ofBits_le _, ⟨?_, ?_⟩, ?_⟩
    · exact ⟨hquestionCount, hanswerCount, hauthorityCount, hadditionalCount⟩
    · exact fun r hr => (hrecord r hr).2
    · have hheader := Header.normalized_ofFlags id flags.toNat
      exact normalized_eq_self_iff.2 ⟨hheader, hquestion, fun r hr => (hrecord r hr).1⟩
  next => cases h

end Message

end Nameserver

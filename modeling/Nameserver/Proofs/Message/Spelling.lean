import Mathlib.Data.List.Forall2
import Nameserver.Proofs.Message.Encoding
/-!
# Spellings of a message

A sender may spell each name of a message, also inside record data, with or without pointers.  All
spellings of a message are read as that message.
-/

namespace Nameserver

/-! ## 1. The same message, field for field -/

/-- The same question, with its type and class by their names. -/
def Question.normalized (q : Question) : Question :=
  { q with qtype := q.qtype.normalized, qclass := q.qclass.normalized }

/-- The same message, with all opcodes, response codes, types and classes by their names. -/
def Message.normalized (m : Message) : Message :=
  { m.toHeader.normalized with
    questions := m.questions.map Question.normalized
    answers := m.answers.map Record.normalized
    authorities := m.authorities.map Record.normalized
    additionals := m.additionals.map Record.normalized }

structure Header.SameFields (a b : Header) : Prop where
  id : a.id = b.id
  isResponse : a.isResponse = b.isResponse
  opcode : a.opcode.number = b.opcode.number
  authoritative : a.authoritative = b.authoritative
  truncated : a.truncated = b.truncated
  recursionDesired : a.recursionDesired = b.recursionDesired
  recursionAvailable : a.recursionAvailable = b.recursionAvailable
  code : a.code.number = b.code.number

structure Question.SameFields (a b : Question) : Prop where
  qname : a.qname = b.qname
  qtype : a.qtype.number = b.qtype.number
  qclass : a.qclass.number = b.qclass.number

structure Record.SameFields (a b : Record) : Prop where
  owner : a.owner = b.owner
  rtype : a.rtype.number = b.rtype.number
  rclass : a.rclass.number = b.rclass.number
  ttl : a.ttl = b.ttl
  data : a.data = b.data

/-- Messages with the same entries in the same order; names are the same with their letter case. -/
structure Message.SameFields (a b : Message) : Prop where
  header : a.toHeader.SameFields b.toHeader
  questions : a.questions.Forall₂ Question.SameFields b.questions
  answers : a.answers.Forall₂ Record.SameFields b.answers
  authorities : a.authorities.Forall₂ Record.SameFields b.authorities
  additionals : a.additionals.Forall₂ Record.SameFields b.additionals

theorem Header.sameFields_normalized (h : Header) : h.normalized.SameFields h :=
  ⟨rfl, rfl, h.opcode.number_normalized, rfl, rfl, rfl, rfl, h.code.number_normalized⟩

theorem Question.sameFields_normalized (q : Question) : q.normalized.SameFields q :=
  ⟨rfl, q.qtype.number_normalized, q.qclass.number_normalized⟩

theorem Record.sameFields_normalized (r : Record) : r.normalized.SameFields r :=
  ⟨rfl, r.rtype.number_normalized, r.rclass.number_normalized, rfl, rfl⟩

theorem forall₂_map_self {α : Type} {p : α → α → Prop} {f : α → α} (h : ∀ a, p (f a) a)
    (entries : List α) : (entries.map f).Forall₂ p entries := by
  rw [List.forall₂_map_left_iff, List.forall₂_same]
  exact fun a _ => h a

/-- Names for numbers do not change what a message says. -/
theorem Message.sameFields_normalized (m : Message) : m.normalized.SameFields m where
  header := m.toHeader.sameFields_normalized
  questions := forall₂_map_self Question.sameFields_normalized _
  answers := forall₂_map_self Record.sameFields_normalized _
  authorities := forall₂_map_self Record.sameFields_normalized _
  additionals := forall₂_map_self Record.sameFields_normalized _

/-! ## 2. Reading a spelling -/

/-- Some octets of a message spell a question. -/
inductive Question.Spells (table : PointerTable) (q : Question) : Octets → Prop
  | parts {name : Octets} (nameSpelled : Name.Spells table q.qname.labels name) :
      Spells table q
        (name ++ (Octets.ofUInt16 q.qtype.number ++ Octets.ofUInt16 q.qclass.number))

theorem Question.takes_reader {table : PointerTable} {q : Question} {octets : Octets}
    (h : Spells table q octets) : (reader table).Takes octets q.normalized := by
  obtain ⟨nameSpelled⟩ := h
  refine (Name.takes_reader nameSpelled).bind ?_
  refine ((Reader.takes_uint16 _).failingWith _).bind ?_
  exact ((Reader.takes_uint16 _).failingWith _).bind_pure rfl

namespace Message

variable {table : PointerTable} {m : Message} {octets : Octets}

/-- Some octets spell a message: its header, and then its entries in order, each name in any
spelling that the table allows. -/
inductive Spells (table : PointerTable) (m : Message) : Octets → Prop
  | sections {questions answers authorities additionals : Octets} (counts : m.CountsFit)
      (questionsSpelled : SpelledAll (Question.Spells table) m.questions questions)
      (answersSpelled : SpelledAll (Record.Spells table) m.answers answers)
      (authoritiesSpelled : SpelledAll (Record.Spells table) m.authorities authorities)
      (additionalsSpelled : SpelledAll (Record.Spells table) m.additionals additionals) :
      Spells table m (m.headerWire ++ (questions ++ (answers ++ (authorities ++ additionals))))

theorem takes_questions {questions : List Question} (fits : questions.length ≤ 65535)
    (h : SpelledAll (fun q xs => (Question.reader table).Takes xs q.normalized) questions octets) :
    (((Question.reader table).mapError DecodeError.invalidQuestion).count
      (UInt16.ofNat questions.length).toNat).Takes octets (questions.map Question.normalized) := by
  rw [UInt16.toNat_ofNat_of_lt' (Nat.lt_succ_of_le fits)]
  exact Reader.takes_count (h.imp fun _ _ _ hq => hq.mapError _)

theorem takes_section {records : List Record} {f : Record → Record}
    (fits : records.length ≤ 65535)
    (h : SpelledAll (fun r xs => (Record.reader table).Takes xs (f r)) records octets) :
    (sectionReader table (UInt16.ofNat records.length)).Takes octets (records.map f) := by
  rw [sectionReader, UInt16.toNat_ofNat_of_lt' (Nat.lt_succ_of_le fits)]
  exact Reader.takes_count (h.imp fun _ _ _ hr => hr.mapError _)

/-- If each entry of a message is read from its octets, then the message is read from its header and
the octets of its entries in order. -/
theorem takes_sections {f : Record → Record} {questions answers authorities additionals : Octets}
    (hopcode : m.opcode.number ≤ 15) (hcode : m.code.number ≤ 15) (counts : m.CountsFit)
    (hquestions : SpelledAll (fun q xs => (Question.reader table).Takes xs q.normalized)
      m.questions questions)
    (hanswers : SpelledAll (fun r xs => (Record.reader table).Takes xs (f r)) m.answers answers)
    (hauthorities : SpelledAll (fun r xs => (Record.reader table).Takes xs (f r))
      m.authorities authorities)
    (hadditionals : SpelledAll (fun r xs => (Record.reader table).Takes xs (f r))
      m.additionals additionals) :
    (reader table).Takes
      (m.headerWire ++ (questions ++ (answers ++ (authorities ++ additionals))))
      { m.toHeader.normalized with
        questions := m.questions.map Question.normalized
        answers := m.answers.map f
        authorities := m.authorities.map f
        additionals := m.additionals.map f } := by
  have field : ∀ v, headerField.Takes (Octets.ofUInt16 v) v := fun v =>
    (Reader.takes_uint16 v).failingWith _
  -- The flags fit 16 bits, so they come back as they were.
  have hflags : Header.ofFlags m.id (UInt16.ofNat m.flags).toNat = m.toHeader.normalized := by
    rw [UInt16.toNat_ofNat_of_lt' m.flags_lt, Header.ofFlags_flags hopcode hcode]
  rw [headerWire]
  simp only [List.append_assoc]
  -- The header gives the counts, and each section is read as often as its count says.
  refine (field _).bind ((field _).bind ?_)
  refine (field _).bind ((field _).bind ((field _).bind ((field _).bind ?_)))
  refine (takes_questions counts.1 hquestions).bind ?_
  refine (takes_section counts.2.1 hanswers).bind ?_
  refine (takes_section counts.2.2.1 hauthorities).bind ?_
  refine (takes_section counts.2.2.2 hadditionals).bind_pure ?_
  rw [hflags]

/-- Reading takes every spelling of a message. -/
theorem takes_reader (hopcode : m.opcode.number ≤ 15) (hcode : m.code.number ≤ 15)
    (h : m.Spells table octets) : (reader table).Takes octets m.normalized := by
  obtain ⟨counts, questionsSpelled, answersSpelled, authoritiesSpelled, additionalsSpelled⟩ := h
  -- A spelled record is read by its name, whatever pointers spell it.
  have takes_records : ∀ {records : List Record} {octets : Octets},
      SpelledAll (Record.Spells table) records octets →
      SpelledAll (fun r xs => (Record.reader table).Takes xs r.normalized) records octets :=
    fun h => h.imp fun _ _ _ hr => Record.takes_reader hr
  exact takes_sections hopcode hcode counts
    (questionsSpelled.imp fun _ _ _ hq => Question.takes_reader hq) (takes_records answersSpelled)
    (takes_records authoritiesSpelled) (takes_records additionalsSpelled)

theorem decode_of_takes (h : (reader (PointerTable.ofMessage octets)).Takes octets m) :
    decode octets = .ok (m, octets.length) := by
  -- Nothing comes after the message here.
  have hread := h []
  rw [List.append_nil] at hread
  rw [decode, hread]
  rfl

/-- Octets that spell a message, with pointers into those octets themselves, are read as that
message, whichever names its sender chose to compress. -/
theorem decode_of_spells (hopcode : m.opcode.number ≤ 15) (hcode : m.code.number ≤ 15)
    (h : m.Spells (PointerTable.ofMessage octets) octets) :
    decode octets = .ok (m.normalized, octets.length) ∧ m.normalized.SameFields m :=
  ⟨decode_of_takes (takes_reader hopcode hcode h), m.sameFields_normalized⟩

/-- The name `a.`. -/
def exampleOwner : Name := ⟨[⟨[0x61], by decide⟩], by decide, by decide⟩

/-- The response that the server of `a.` is `b.a.`. -/
def exampleResponse : Message where
  id := 1
  isResponse := true
  questions := [⟨exampleOwner, .ns, .internet⟩]
  answers := [⟨exampleOwner, .ns, .internet, 300, [1, 0x62, 1, 0x61, 0]⟩]

/-- The response with `a.` as a pointer in the answer, for its owner and in its data. -/
def exampleOctets : Octets :=
  [0, 1, 0x80, 0, 0, 1, 0, 1, 0, 0, 0, 0, 1, 0x61, 0, 0, 2, 0, 1] ++
    [0xc0, 12, 0, 2, 0, 1, 0, 0, 1, 0x2c, 0, 4, 1, 0x62, 0xc0, 12]

/-- The octets spell the response with the table that is made from them. -/
theorem spells_exampleOctets :
    exampleResponse.Spells (PointerTable.ofMessage exampleOctets) exampleOctets := by
  have hfound : (PointerTable.ofMessage exampleOctets).get? 12 = some exampleOwner := by
    decide +kernel
  -- The same two octets stand for the owner and for the end of the name in the data.
  have howner := Name.Spells.pointer (by decide) hfound
  have hserver := howner.label (l := ⟨[0x62], by decide⟩) (by decide)
  have hdata : RecordType.SpellsData (PointerTable.ofMessage exampleOctets) .ns
      [1, 0x62, 1, 0x61, 0] [1, 0x62, 0xc0, 12] :=
    .fields rfl (.name (n := ⟨_, by decide, by decide⟩) hserver .nil)
  have hcounts : exampleResponse.CountsFit := by decide
  have hquestion := Question.Spells.parts (q := ⟨exampleOwner, .ns, .internet⟩)
    (Name.spells_wire (PointerTable.ofMessage exampleOctets) exampleOwner)
  have hanswer := Record.Spells.parts (r := ⟨exampleOwner, .ns, .internet, 300, _⟩) howner hdata
    (by decide)
  exact .sections hcounts (.cons hquestion .nil) (.cons hanswer .nil) .nil .nil

/-- The response is read from its compressed octets. -/
theorem decode_compressed_example :
    exampleResponse.opcode.number ≤ 15 ∧ exampleResponse.code.number ≤ 15 ∧
      exampleResponse.Spells (PointerTable.ofMessage exampleOctets) exampleOctets ∧
      decode exampleOctets = .ok (exampleResponse.normalized, exampleOctets.length) ∧
      exampleResponse.normalized.SameFields exampleResponse :=
  ⟨by decide, by decide, spells_exampleOctets,
    decode_of_spells (by decide) (by decide) spells_exampleOctets⟩

end Message

end Nameserver

import Nameserver.Record.Wire
import Nameserver.Proofs.Record.Layout
import Nameserver.Proofs.Record.Normalized
/-!
# Spellings of a record

A record is spelled by spellings of its owner and of its data around the numbers between them.
Reading takes every spelling of a record, and a record is written in the one without pointers.
-/

namespace Nameserver.Record

/-- The octets between the owner of a record and its data, which takes `length` octets. -/
def middle (r : Record) (length : Nat) : Octets :=
  Octets.ofUInt16 r.rtype.number ++ Octets.ofUInt16 r.rclass.number ++ Octets.ofUInt32 r.ttl ++
    Octets.ofUInt16 (UInt16.ofNat length)

@[simp] theorem length_middle (r : Record) (length : Nat) : (r.middle length).length = 10 := rfl

/-- Some octets of a message spell a record: its owner, the numbers with the length of the data as
it stands there, and the data. -/
inductive Spells (table : PointerTable) (r : Record) : Octets → Prop
  | parts {owner data : Octets} (ownerSpelled : Name.Spells table r.owner.labels owner)
      (dataSpelled : RecordType.SpellsData table r.rtype.normalized r.data data)
      (fits : data.length ≤ 65535) :
      Spells table r (owner ++ (r.middle data.length ++ data))

/-- A record is read with its type and class by name, and with what its type makes of the octets
that stand for its data. -/
theorem takes_reader_expand {table : PointerTable} {r : Record} {owner data : Octets}
    (ownerSpelled : Name.Spells table r.owner.labels owner) (fits : data.length ≤ 65535) :
    (reader table).Takes (owner ++ (r.middle data.length ++ data))
      { r.normalized with data := r.rtype.normalized.expand table data } := by
  rw [middle, List.append_assoc, List.append_assoc, List.append_assoc]
  -- One reader for each part, in the order of the parts.
  refine (Name.takes_reader ownerSpelled).bind ?_
  refine ((Reader.takes_uint16 _).failingWith _).bind ?_
  refine ((Reader.takes_uint16 _).failingWith _).bind ?_
  refine ((Reader.takes_uint32 _).failingWith _).bind ?_
  exact ((Reader.takes_string16 fits).failingWith _).bind_pure rfl

/-- Reading takes every spelling of a record. -/
theorem takes_reader {table : PointerTable} {r : Record} {octets : Octets}
    (h : Spells table r octets) : (reader table).Takes octets r.normalized := by
  obtain ⟨ownerSpelled, dataSpelled, fits⟩ := h
  have htakes := takes_reader_expand ownerSpelled fits
  rw [RecordType.expand_of_spellsData dataSpelled] at htakes
  exact htakes

/-! ## The spelling without pointers -/

/-- The wire form of a record. -/
def wire (r : Record) : Octets := r.owner.wire ++ (r.middle r.data.length ++ r.data)

theorem length_wire (r : Record) : r.wire.length = r.wireLength := by
  rw [wire, List.length_append, List.length_append, length_middle, Name.length_wire, wireLength]
  omega

/-- If the data may hold compressed names, then no pointer can start in it, or it follows the
layout of its type with all names written out. -/
def PlainData (r : Record) : Prop :=
  r.rtype.number ∈ [2, 5, 6, 12, 15] → (∀ o ∈ r.data, o < 0xc0) ∨
    ∃ fields, r.rtype.normalized.layout? = some fields ∧ DataField.LaidOut fields r.data

/-- Plain data spells itself, with any table. -/
theorem PlainData.spellsData {table : PointerTable} {r : Record} (h : r.PlainData) :
    RecordType.SpellsData table r.rtype.normalized r.data r.data := by
  by_cases hnumber : r.rtype.number ∈ [2, 5, 6, 12, 15]
  · rcases h hnumber with hsmall | ⟨fields, hlayout, hlaid⟩
    · exact .small hsmall
    · exact .fields hlayout hlaid.spells
  · exact .verbatim (RecordType.layout?_eq_none hnumber)

/-- The wire form of a record spells it, if its data is plain. -/
theorem spells_wire {table : PointerTable} {r : Record} (hdata : r.PlainData)
    (fits : r.data.length ≤ 65535) : Spells table r r.wire :=
  .parts (Name.spells_wire table r.owner) hdata.spellsData fits

/-- A record is put in its wire form, in one piece, if its data is not too long. -/
theorem write_eq_put {r : Record} (fits : r.data.length ≤ 65535) (w : Writer) :
    r.write w = w.put r.wire := by
  rw [write]
  by_cases h : w.hasRoom r.wireLength = true
  · rw [if_pos (by simp [fits, h])]
    simp only [Name.write_eq_put, Writer.putUInt16, Writer.putUInt32, Writer.put_bind_put, wire,
      middle, List.append_assoc]
  -- Too little room is reported before anything is written, as one put reports it.
  · rw [if_neg (by simp [h])]
    rw [Writer.hasRoom_iff] at h
    rw [Writer.put_of_lt (by rw [length_wire]; omega)]
    rfl

theorem write_eq_error {r : Record} (long : 65535 < r.data.length) (w : Writer) :
    r.write w = .error .truncated := by
  rw [write, if_neg (by simp; omega)]
  rfl

end Nameserver.Record

import Nameserver.Proofs.Checked.Name
import Nameserver.Proofs.Message.Progress
/-!
# Messages read with every access checked

Each part of a message is read by a checked reader that implements the reader of the part.  The data
of a record is looked at a second time, in the window of the message that ends with it, so that its
names can point to the front of the message.
-/

namespace Nameserver

open CheckedReader (Agrees Implements checking checking_bind bind_of_ok bind_of_error
  failingWith_of_ok failingWith_of_error implements_pure implements_octets implements_uint16
  implements_uint32)

variable {limit : Nat} {table : PointerTable}

/-! ## 1. Record data -/

namespace DataField

def checkedReader (limit : Nat) (table : PointerTable) : DataField → CheckedReader NameError Octets
  | name => do
    let n ← Name.checkedReader limit table
    let _ ← checking (Checked.wireLength limit 0 n.allLabels)
    return n.wire
  | octets count => (CheckedReader.octets limit count).failingWith .unexpectedEnd

def checkedReadAll (limit : Nat) (table : PointerTable) :
    List DataField → CheckedReader NameError Octets
  | [] => pure []
  | field :: fields => do
    let first ← field.checkedReader limit table
    let others ← checkedReadAll limit table fields
    return first ++ others

theorem implements_reader (hlimit : 510 ≤ limit) (field : DataField) :
    Implements limit (field.checkedReader limit table) (field.reader table) := by
  cases field with
  | name =>
    refine (Name.implements_reader hlimit table).bind fun n v hv => ?_
    rw [checking_bind (Checked.wireLength_allLabels hlimit n)]
    exact implements_pure n.wire v hv
  | octets count => exact (implements_octets count).failingWith _

theorem implements_readAll (hlimit : 510 ≤ limit) (table : PointerTable)
    (fields : List DataField) :
    Implements limit (checkedReadAll limit table fields) (readAll table fields) := by
  induction fields with
  | nil => exact implements_pure []
  | cons field fields ih =>
    exact (implements_reader hlimit field).bind fun first =>
      ih.bind fun others => implements_pure (first ++ others)

end DataField

namespace RecordType

/-- The octets of a window from the place on, as they are. -/
def verbatim (v : View) : Except Fault Octets :=
  Checked.slice v.buffer v.position v.buffer.length

/-- The data of a record as it is kept; the window ends with the data, and the place is where the
data starts. -/
def checkedExpand (limit : Nat) (rtype : RecordType) (table : PointerTable) (v : View) :
    Except Fault Octets :=
  match rtype.layout? with
  | none => verbatim v
  | some fields => do
    let _ ← v.remaining
    match ← DataField.checkedReadAll limit table fields v with
    | .ok (expanded, v') => if (← v'.remaining) = 0 then return expanded else verbatim v
    | .error _ => verbatim v

/-- From a valid view the octets to the end of the window are sliced without a fault. -/
theorem verbatim_eq {v : View} (hv : v.Valid limit) : verbatim v = .ok v.rest := by
  rw [verbatim, Checked.slice_of_le hv.within (Nat.le_refl _), List.take_length]
  rfl

theorem checkedExpand_eq (hlimit : 510 ≤ limit) (rtype : RecordType) {v : View}
    (hv : v.Valid limit) :
    rtype.checkedExpand limit table v = .ok (rtype.expand table v.rest) := by
  rw [checkedExpand, expand]
  cases rtype.layout? with
  | none => exact verbatim_eq hv
  | some fields =>
    have hread := DataField.implements_readAll hlimit table fields v hv
    dsimp only
    rw [hv.remaining_eq, ok_bind]
    generalize DataField.readAll table fields v.rest = x at hread
    generalize DataField.checkedReadAll limit table fields v = y at hread
    -- A field that cannot be read leaves the data as it is, whatever has been read before.
    cases hread with
    | error => exact verbatim_eq hv
    | @ok expanded position forward within =>
      have hleft : View.remaining ⟨v.buffer, position⟩ = .ok (v.buffer.drop position).length :=
        View.Valid.remaining_eq ⟨within, hv.counted⟩
      rw [ok_bind]
      dsimp only
      rw [hleft, ok_bind]
      -- Data that does not end with its last field is kept as it is.
      cases v.buffer.drop position with
      | nil => rfl
      | cons o rest => exact verbatim_eq hv

end RecordType

/-! ## 2. Entries -/

def Question.checkedReader (limit : Nat) (table : PointerTable) :
    CheckedReader NameError Question := do
  let qname ← Name.checkedReader limit table
  let qtype := RecordType.ofNumber (← (CheckedReader.uint16 limit).failingWith .unexpectedEnd)
  let qclass := RecordClass.ofNumber (← (CheckedReader.uint16 limit).failingWith .unexpectedEnd)
  return { qname, qtype, qclass }

theorem Question.implements_reader (hlimit : 510 ≤ limit) (table : PointerTable) :
    Implements limit (checkedReader limit table) (reader table) := by
  -- One step of the reader for each field of the question.
  refine (Name.implements_reader hlimit table).bind fun qname => ?_
  refine (implements_uint16.failingWith _).bind fun qtype => ?_
  exact (implements_uint16.failingWith _).bind fun qclass => implements_pure _

namespace Record

/-- Takes the data of a record, which has a known length, by way of the window that ends with it. -/
def checkedWindow (limit : Nat) (rtype : RecordType) (table : PointerTable) (length : Nat) :
    CheckedReader NameError Octets := do
  let start ← CheckedReader.view
  let _ ← (CheckedReader.octets limit length).failingWith NameError.unexpectedEnd
  let stop ← checking (Checked.add limit start.position length)
  let window ← checking (Checked.slice start.buffer 0 stop)
  checking (rtype.checkedExpand limit table (View.ofBuffer window start.position))

def checkedData (limit : Nat) (rtype : RecordType) (table : PointerTable) :
    CheckedReader NameError Octets := do
  let length ← (CheckedReader.uint16 limit).failingWith .unexpectedEnd
  checkedWindow limit rtype table length.toNat

def checkedReader (limit : Nat) (table : PointerTable) : CheckedReader NameError Record := do
  let owner ← Name.checkedReader limit table
  let rtype := RecordType.ofNumber (← (CheckedReader.uint16 limit).failingWith .unexpectedEnd)
  let rclass := RecordClass.ofNumber (← (CheckedReader.uint16 limit).failingWith .unexpectedEnd)
  let ttl ← (CheckedReader.uint32 limit).failingWith .unexpectedEnd
  let data ← checkedData limit rtype table
  return { owner, rtype, rclass, ttl, data }

/-- Looking at data in its window is looking at the octets of the data alone. -/
theorem implements_window (hlimit : 510 ≤ limit) (rtype : RecordType) (length : Nat) :
    Implements limit (checkedWindow limit rtype table length)
      ((Reader.octets length).failingWith .unexpectedEnd >>= fun data =>
        pure (rtype.expand table data)) := by
  intro v hv
  have hview : (CheckedReader.view : CheckedReader NameError View) v = .ok (.ok (v, v)) := rfl
  by_cases h : length ≤ v.rest.length
  · have hread : ((Reader.octets length).failingWith NameError.unexpectedEnd >>= fun data =>
        pure (rtype.expand table data)) v.rest =
          .ok (rtype.expand table (v.rest.take length), v.rest.drop length) := by
      refine Reader.bind_eq_ok_iff.2 ⟨_, _, Reader.failingWith_eq_ok_iff.2 ?_, rfl⟩
      exact Reader.octets_of_le h
    have hstop : v.position + length ≤ v.buffer.length := (hv.advance h).within
    -- The window starts with the message, so that offsets in it are those of the message.
    have hslice : Checked.slice v.buffer 0 (v.position + length) =
        .ok (v.buffer.take (v.position + length)) :=
      Checked.slice_of_le (Nat.zero_le _) hstop
    -- What is left of the window at the place where the data starts is the data.
    have hwindow : (View.ofBuffer (v.buffer.take (v.position + length)) v.position).rest =
        v.rest.take length := by
      rw [View.rest_ofBuffer (by rw [List.length_take_of_le hstop]; omega), View.rest,
        List.drop_take, Nat.add_sub_cancel_left]
    have hvalid : (View.ofBuffer (v.buffer.take (v.position + length)) v.position).Valid limit :=
      View.valid_ofBuffer (by
        rw [List.length_take_of_le hstop]
        exact Nat.le_trans hstop hv.counted) _
    rw [hread, checkedWindow, bind_of_ok hview,
      bind_of_ok (failingWith_of_ok (CheckedReader.octets_of_le hv h) _),
      checking_bind (Checked.add_of_le (Nat.le_trans hstop hv.counted)), checking_bind hslice,
      checking, RecordType.checkedExpand_eq hlimit rtype hvalid, hwindow]
    exact CheckedReader.agrees_advance hv h _
  · have hlt : v.rest.length < length := Nat.lt_of_not_le h
    have hread : ((Reader.octets length).failingWith NameError.unexpectedEnd >>= fun data =>
        pure (rtype.expand table data)) v.rest = .error .unexpectedEnd := by
      show ((Reader.octets length).failingWith NameError.unexpectedEnd v.rest >>= _) = _
      rw [Reader.failingWith, Reader.octets_of_lt hlt]
      rfl
    rw [hread, checkedWindow, bind_of_ok hview,
      bind_of_error (failingWith_of_error (CheckedReader.octets_of_lt hv hlt) _)]
    exact .error

theorem implements_data (hlimit : 510 ≤ limit) (table : PointerTable) (rtype : RecordType) :
    Implements limit (checkedData limit rtype table)
      (Reader.string16.failingWith .unexpectedEnd >>= fun data =>
        pure (rtype.expand table data)) := by
  rw [Reader.string16, Reader.failingWith_bind, bind_assoc]
  exact (implements_uint16.failingWith _).bind fun length => implements_window hlimit rtype _

/-- A record is read field by field, and its data by way of the window. -/
theorem implements_reader (hlimit : 510 ≤ limit) :
    Implements limit (checkedReader limit table) (reader table) := by
  refine (Name.implements_reader hlimit table).bind fun owner => ?_
  refine (implements_uint16.failingWith _).bind fun rtype => ?_
  refine (implements_uint16.failingWith _).bind fun rclass => ?_
  refine (implements_uint32.failingWith _).bind fun ttl => ?_
  have hdata := (implements_data hlimit table (RecordType.ofNumber rtype)).bind
    fun data => implements_pure (⟨owner, .ofNumber rtype, .ofNumber rclass, ttl, data⟩ : Record)
  rw [bind_assoc] at hdata
  exact hdata

end Record

/-! ## 3. Messages -/

namespace Message

def checkedField (limit : Nat) : CheckedReader DecodeError UInt16 :=
  (CheckedReader.uint16 limit).failingWith .headerTooShort

def checkedSection (limit : Nat) (table : PointerTable) (count : UInt16) :
    CheckedReader DecodeError (List Record) :=
  ((Record.checkedReader limit table).mapError .invalidRecord).count count.toNat

/-- Reads a message; the pointer table is made from all octets received. -/
def checkedReader (limit : Nat) (octets : Octets) : CheckedReader DecodeError Message := do
  let id ← checkedField limit
  let flags ← checkedField limit
  let questionCount ← checkedField limit
  let answerCount ← checkedField limit
  let authorityCount ← checkedField limit
  let additionalCount ← checkedField limit
  let table ← checking (PointerTable.checkedOfMessage limit octets)
  let questions ←
    ((Question.checkedReader limit table).mapError .invalidQuestion).count questionCount.toNat
  let answers ← checkedSection limit table answerCount
  let authorities ← checkedSection limit table authorityCount
  let additionals ← checkedSection limit table additionalCount
  return { Header.ofFlags id flags.toNat with questions, answers, authorities, additionals }

/-- The message that some octets start with, and how many of them it takes. -/
def checkedDecode (limit : Nat) (octets : Octets) :
    Except Fault (Except DecodeError (Message × Nat)) := do
  match ← checkedReader limit octets (View.ofBuffer octets 0) with
  | .ok (message, v) => return .ok (message, v.position)
  | .error e => return .error e

variable {octets : Octets}

theorem implements_section (hlimit : 510 ≤ limit) (count : UInt16) :
    Implements limit (checkedSection limit table count) (sectionReader table count) :=
  ((Record.implements_reader hlimit).mapError _).count _

/-- With the pointer table of its octets, a message is read without a fault. -/
theorem implements_reader (hlimit : 510 ≤ limit) (hcounted : octets.length ≤ limit) :
    Implements limit (checkedReader limit octets) (reader (PointerTable.ofMessage octets)) := by
  have field : Implements limit (checkedField limit) headerField :=
    implements_uint16.failingWith _
  have hquestion := Question.implements_reader hlimit (PointerTable.ofMessage octets)
  refine field.bind fun id => field.bind fun flags => field.bind fun questionCount => ?_
  refine field.bind fun answerCount => field.bind fun authorityCount => ?_
  refine field.bind fun additionalCount => ?_
  rw [PointerTable.checkedOfMessage_eq hlimit hcounted]
  -- With the table at hand, the four sections are read in turn.
  refine ((hquestion.mapError _).count _).bind fun questions => ?_
  refine (implements_section hlimit answerCount).bind fun answers => ?_
  refine (implements_section hlimit authorityCount).bind fun authorities => ?_
  refine (implements_section hlimit additionalCount).bind fun additionals => ?_
  exact implements_pure _

/-- Whatever octets a machine can hold, it decodes them without a fault. -/
theorem checkedDecode_eq (hlimit : 510 ≤ limit) (hcounted : octets.length ≤ limit) :
    checkedDecode limit octets = .ok (decode octets) := by
  have hread := implements_reader hlimit hcounted _ (View.valid_ofBuffer hcounted 0)
  rw [View.rest_ofBuffer (Nat.zero_le _), List.drop_zero] at hread
  rw [checkedDecode, decode]
  generalize reader (PointerTable.ofMessage octets) octets = x at hread
  generalize checkedReader limit octets (View.ofBuffer octets 0) = y at hread
  cases hread with
  | error => rfl
  | @ok m position forward within =>
    -- The place is how many octets have been taken, which the model counts from what is left.
    have hposition : octets.length - (octets.drop position).length = position := by
      have hwithin : position ≤ octets.length := within
      rw [List.length_drop]
      omega
    show Except.ok (Except.ok (m, position)) =
      Except.ok (Except.ok (m, octets.length - (octets.drop position).length))
    rw [hposition]

/-- Any octets that a machine can count are decoded without a fault, and with an outcome that the
octets bound: they are too short for a header, an entry in them cannot be read, or they hold a
message that is no larger than they are.  The largest sum on the way, that of the lengths of labels,
is 510. -/
theorem checkedDecode_outcome (hlimit : 510 ≤ limit) (hcounted : octets.length ≤ limit) :
    checkedDecode limit octets = .ok (decode octets) ∧
      (decode octets = .error .headerTooShort ↔ octets.length < 12) ∧
      Outcome octets (decode octets) :=
  ⟨checkedDecode_eq hlimit hcounted, decode_eq_headerTooShort_iff, outcome_decode octets⟩

theorem checkedDecode_exampleOctets :
    510 ≤ 2 ^ 64 - 1 ∧ exampleOctets.length ≤ 2 ^ 64 - 1 ∧
      checkedDecode (2 ^ 64 - 1) exampleOctets =
        .ok (.ok (exampleResponse.normalized, exampleOctets.length)) ∧
      exampleResponse.normalized.ReadFrom exampleOctets exampleOctets.length := by
  have hdecode : decode exampleOctets = .ok (exampleResponse.normalized, exampleOctets.length) :=
    decode_of_takes (takes_reader (by decide) (by decide) spells_exampleOctets)
  have hcounted : exampleOctets.length ≤ 2 ^ 64 - 1 := by decide
  obtain ⟨hchecked, -, houtcome⟩ := @checkedDecode_outcome (2 ^ 64 - 1) exampleOctets (by decide)
    hcounted
  rw [hdecode] at hchecked houtcome
  cases houtcome with
  | read long sound => exact ⟨by decide, hcounted, hchecked, sound⟩

end Message

end Nameserver

import Mathlib.Control.Monad.Basic
import Nameserver.Proofs.Record.Wire
/-!
# The data of a record in its message

The data of a record takes up a slice of its message.  If the fields of its type's layout fill the
slice, then their octets are kept, with the names written out; otherwise the slice is kept as it is.
-/

namespace Nameserver

/-! ## 1. Slices -/

/-- The octets of a buffer from the offset `start` up to the offset `stop`. -/
def Octets.slice (buffer : Octets) (start stop : Nat) : Octets := (buffer.take stop).drop start

/-- What stands between two offsets of a buffer of which the rest is known. -/
theorem Octets.slice_of_drop_eq {buffer taken rest : Octets} {start : Nat}
    (h : buffer.drop start = taken ++ rest) :
    slice buffer start (start + taken.length) = taken := by
  unfold slice
  rw [List.drop_take, h, Nat.add_sub_cancel_left]
  exact List.take_left

/-- Behind what stands at an offset comes the rest. -/
theorem Octets.drop_of_drop_eq {buffer taken rest : Octets} {start : Nat}
    (h : buffer.drop start = taken ++ rest) : buffer.drop (start + taken.length) = rest := by
  rw [← List.drop_drop, h]
  exact List.drop_left

/-- A reader that succeeds takes the cursor to the octets that it leaves. -/
theorem Cursor.exists_rest_of_read {ε α : Type} {r : Reader ε α} {buffer : Octets}
    {position : Nat} {a : α} {c : Cursor} (h : (ofBuffer buffer position).read r = (.ok a, c)) :
    ∃ rest, r (buffer.drop position) = .ok (a, rest) ∧
      c = ⟨min position buffer.length + ((buffer.drop position).length - rest.length), rest⟩ := by
  unfold read ofBuffer at h
  dsimp only at h
  split at h
  next value rest hread =>
    cases h
    exact ⟨rest, hread, rfl⟩
  next => cases h

namespace DataField

/-! ## 2. Values of fields -/

/-- What a field of record data holds. -/
inductive Value where
  | name (target : Name)
  | octets (value : Octets)
  deriving DecidableEq

namespace Value

/-- The field that holds the value. -/
def field : Value → DataField
  | name _ => .name
  | octets value => .octets value.length

/-- The octets of the value; a name is written out. -/
def wire : Value → Octets
  | name target => target.wire
  | octets value => value

/-- Some octets of a message stand for the value.  A name may end in a pointer. -/
def SpelledBy (table : PointerTable) : Value → Octets → Prop
  | name target, spelling => Name.Spells table target.labels spelling
  | octets value, spelling => spelling = value

def reader (table : PointerTable) : DataField → Reader NameError Value
  | .name => do return name (← Name.reader table)
  | .octets count => do return octets (← (Reader.octets count).failingWith .unexpectedEnd)

/-- Takes fields one after another, for their values. -/
def readAll (table : PointerTable) : List DataField → Reader NameError (List Value)
  | [] => pure []
  | field :: fields => do
    let first ← reader table field
    let others ← readAll table fields
    return first :: others

variable {table : PointerTable} {v : Value} {values : List Value} {fields : List DataField}
  {input rest : Octets}

/-- A value is read just from octets that stand for it. -/
theorem reader_eq_ok_iff {f : DataField} :
    reader table f input = .ok (v, rest) ↔
      v.field = f ∧ ∃ taken, input = taken ++ rest ∧ v.SpelledBy table taken := by
  cases f with
  | name =>
    rw [reader, Reader.bind_eq_ok_iff]
    constructor
    · rintro ⟨target, after, hname, h⟩
      cases h
      exact ⟨rfl, Name.spells_of_reader hname⟩
    · rintro ⟨hfield, taken, rfl, hspells⟩
      cases v with
      | name target => exact ⟨target, rest, Name.takes_reader hspells rest, rfl⟩
      -- Octets stand for themselves alone.
      | octets value => cases hfield
  | octets count =>
    rw [reader, Reader.bind_eq_ok_iff]
    simp only [Reader.failingWith_eq_ok_iff, Reader.octets_eq_ok_iff]
    constructor
    · rintro ⟨taken, after, ⟨hlength, rfl⟩, h⟩
      cases h
      exact ⟨congrArg DataField.octets hlength, taken, rfl, rfl⟩
    · rintro ⟨hfield, taken, rfl, hspells⟩
      cases v with
      | name target => cases hfield
      | octets value =>
        have htaken : taken = value := hspells
        subst htaken
        exact ⟨taken, rest, ⟨DataField.octets.inj hfield, rfl⟩, rfl⟩

/-- Values are read just from octets that stand for them, one after another. -/
theorem readAll_eq_ok_iff :
    readAll table fields input = .ok (values, rest) ↔
      values.map field = fields ∧
        ∃ taken, input = taken ++ rest ∧ SpelledAll (SpelledBy table) values taken := by
  induction fields generalizing values input rest with
  | nil =>
    constructor
    · intro h
      cases h
      exact ⟨rfl, [], rfl, .nil⟩
    · rintro ⟨hfields, taken, rfl, hspelled⟩
      cases List.map_eq_nil_iff.1 hfields
      cases hspelled
      rfl
  | cons f fields ih =>
    rw [readAll, Reader.bind_eq_ok_iff]
    simp only [reader_eq_ok_iff, Reader.bind_eq_ok_iff, ih]
    constructor
    -- The octets of the first value come before those of the others.
    · rintro ⟨first, middle, ⟨rfl, xs, rfl, hfirst⟩, others, after, ⟨rfl, ys, rfl, hothers⟩, h⟩
      cases h
      exact ⟨rfl, xs ++ ys, (List.append_assoc _ _ _).symm, .cons hfirst hothers⟩
    · rintro ⟨hfields, taken, rfl, hspelled⟩
      cases hspelled with
      | nil => cases hfields
      | @cons first others xs ys head tail =>
        obtain ⟨hfirst, hothers⟩ := List.cons.inj hfields
        exact ⟨first, ys ++ rest, ⟨hfirst, xs, List.append_assoc _ _ _, head⟩, others, rest,
          ⟨hothers, ys, rfl, tail⟩, rfl⟩

/-- Values that are written out are read from their octets with any table. -/
theorem readAll_flatMap_wire (table : PointerTable) (values : List Value) :
    readAll table (values.map field) (values.flatMap wire) = .ok (values, []) := by
  have hspelled : SpelledAll (SpelledBy table) values (values.flatMap wire) := by
    apply spelledAll_flatMap
    intro v _
    -- A name written out is one of its spellings, with any table.
    cases v with
    | name target => exact target.spells_wire table
    | octets value => rfl
  exact readAll_eq_ok_iff.2 ⟨rfl, _, (List.append_nil _).symm, hspelled⟩

end Value

/-- The octets of fields are read by way of the fields' values. -/
theorem readAll_eq (table : PointerTable) (fields : List DataField) :
    readAll table fields = do
      let values ← Value.readAll table fields
      return values.flatMap Value.wire := by
  induction fields with
  | nil => simp [readAll, Value.readAll]
  | cons f fields ih =>
    have hfirst : f.reader table = do return (← Value.reader table f).wire := by
      cases f <;> simp [reader, Value.reader, Value.wire]
    simp [readAll, Value.readAll, ih, hfirst]

end DataField

open DataField (Value)

/-! ## 3. Data that is kept -/

namespace RecordType

variable {table : PointerTable} {rtype : RecordType} {data : Octets} {values : List Value}

/-- The types with a layout are NS, CNAME, SOA, PTR and MX. -/
theorem IsNamed.isSome_layout?_iff (h : rtype.IsNamed) :
    rtype.layout?.isSome = true ↔ rtype.number ∈ [2, 5, 6, 12, 15] := by
  cases rtype with
  | other n =>
    have hother : other n = ofNumber n := h
    -- A type without a name of its own has none of the five numbers.
    have hnot : n ∉ [2, 5, 6, 12, 15] := by
      intro hn
      simp only [List.mem_cons, List.not_mem_nil, or_false] at hn
      rcases hn with rfl | rfl | rfl | rfl | rfl <;> cases hother
    exact iff_of_false Bool.false_ne_true hnot
  | _ => decide

/-- Some octets stand for values of the fields in the type's layout, and for nothing else. -/
def Fills (table : PointerTable) (rtype : RecordType) (values : List Value) (data : Octets) : Prop :=
  rtype.layout? = some (values.map Value.field) ∧
    SpelledAll (Value.SpelledBy table) values data

/-- Data fills a layout just if the fields of the layout are read from all of it. -/
theorem fills_iff : rtype.Fills table values data ↔
    ∃ fields, rtype.layout? = some fields ∧ Value.readAll table fields data = .ok (values, []) := by
  simp only [Fills, Value.readAll_eq_ok_iff, List.append_nil]
  constructor
  · rintro ⟨layout, hspelled⟩
    exact ⟨_, layout, rfl, data, rfl, hspelled⟩
  · rintro ⟨fields, layout, rfl, taken, rfl, hspelled⟩
    exact ⟨layout, hspelled⟩

/-- Data that fills the layout is kept with its names written out. -/
theorem Fills.expand_eq (h : rtype.Fills table values data) :
    rtype.expand table data = values.flatMap Value.wire := by
  obtain ⟨fields, layout, hread⟩ := fills_iff.1 h
  have hall : DataField.readAll table fields data = .ok (values.flatMap Value.wire, []) := by
    rw [DataField.readAll_eq, Reader.bind_eq_ok_iff]
    exact ⟨values, [], hread, rfl⟩
  unfold expand
  rw [layout]
  dsimp only
  rw [hall]

/-- Data that does not is kept as it is. -/
theorem expand_of_not_fills (h : ¬ ∃ values, rtype.Fills table values data) :
    rtype.expand table data = data := by
  unfold expand
  split
  next => rfl
  next fields layout =>
    split
    next expanded hall =>
      -- Had the fields been read, their values would fill the layout.
      rw [DataField.readAll_eq, Reader.bind_eq_ok_iff] at hall
      obtain ⟨values, after, hread, hpure⟩ := hall
      cases hpure
      exact absurd ⟨values, fills_iff.2 ⟨fields, layout, hread⟩⟩ h
    next => rfl

end RecordType

/-! ## 4. Records in place -/

namespace Record

variable {table : PointerTable} {r : Record} {input rest : Octets}

/-- What a record is read from: a spelling of its owner, the ten octets of its numbers, and octets
that its type makes its data of. -/
theorem exists_of_reader (h : reader table input = .ok (r, rest)) :
    r.rtype.IsNamed ∧ ∃ owner data, Name.Spells table r.owner.labels owner ∧
      input = owner ++ r.middle data.length ++ (data ++ rest) ∧
      r.data = r.rtype.expand table data := by
  obtain ⟨ownerName, input₁, howner, h⟩ := Reader.bind_eq_ok_iff.1 h
  obtain ⟨rtype, input₂, htype, h⟩ := Reader.bind_eq_ok_iff.1 h
  obtain ⟨rclass, input₃, hclass, h⟩ := Reader.bind_eq_ok_iff.1 h
  obtain ⟨ttl, input₄, httl, h⟩ := Reader.bind_eq_ok_iff.1 h
  obtain ⟨data, after, hdata, h⟩ := Reader.bind_eq_ok_iff.1 h
  cases h
  obtain ⟨owner, rfl, hspells⟩ := Name.spells_of_reader howner
  -- The length of the data is read before the data, and is the last of the ten octets.
  obtain ⟨length, input₅, hlength, hoctets⟩ :=
    Reader.bind_eq_ok_iff.1 (Reader.failingWith_eq_ok_iff.1 hdata)
  rw [Reader.failingWith_eq_ok_iff, Reader.uint16_eq_ok_iff] at htype hclass
  rw [Reader.failingWith_eq_ok_iff, Reader.uint32_eq_ok_iff] at httl
  rw [Reader.uint16_eq_ok_iff] at hlength
  obtain ⟨hcount, rfl⟩ := Reader.octets_eq_ok_iff.1 hoctets
  refine ⟨(RecordType.normalized_ofNumber rtype).symm, owner, data, hspells, ?_, rfl⟩
  simp [htype, hclass, httl, hlength, middle, hcount]

/-- A record stands in a message at a position: first its owner and its numbers, the last of which
is the length of its data, and then its data from `start` up to `stop`. -/
structure LiesAt (message : Octets) (position : Nat) (r : Record) (start stop : Nat) : Prop where
  forward : start ≤ stop
  within : stop ≤ message.length
  front : ∃ owner, Name.Spells (.ofMessage message) r.owner.labels owner ∧
    Octets.slice message position start = owner ++ r.middle (stop - start)

/-- A record stands where the octets from a position on are those that it is read from. -/
theorem liesAt_of_drop_eq {message owner data : Octets} {position start : Nat}
    (hspells : Name.Spells (.ofMessage message) r.owner.labels owner)
    (h : message.drop position = owner ++ r.middle data.length ++ (data ++ rest))
    (hstart : start = position + (owner ++ r.middle data.length).length) :
    r.LiesAt message position start (start + data.length) ∧
      Octets.slice message start (start + data.length) = data ∧
      message.drop (start + data.length) = rest := by
  subst hstart
  have hdrop := Octets.drop_of_drop_eq h
  have hlength := congrArg List.length h
  simp only [List.length_drop, List.length_append, length_middle] at hlength
  -- All of the record was there to be read, so it ends within the message.
  have hwithin : position + (owner ++ r.middle data.length).length + data.length ≤
      message.length := by
    simp only [List.length_append, length_middle]
    omega
  refine ⟨⟨Nat.le_add_right _ _, hwithin, owner, hspells, ?_⟩, ?_, ?_⟩
  · rw [Nat.add_sub_cancel_left]
    exact Octets.slice_of_drop_eq h
  · exact Octets.slice_of_drop_eq hdrop
  · exact Octets.drop_of_drop_eq hdrop

/-- A record that is read anywhere in a message is read up to the end of its data, wherever pointers
in the data lead.  If its type is one of the five with a layout and the data fills that, the data is
kept with its names written out, and its values are read again from what is kept without a table.
In every other case the data is kept as it stands in the message. -/
theorem data_expanded_or_kept {message : Octets} {position : Nat} {c : Cursor}
    (h : (Cursor.ofBuffer message position).read (reader (.ofMessage message)) = (.ok r, c)) :
    ∃ start stop, r.LiesAt message position start stop ∧ c = .ofBuffer message stop ∧
      (r.rtype.layout?.isSome = true ↔ r.rtype.number ∈ [2, 5, 6, 12, 15]) ∧
      (∀ values, r.rtype.Fills (.ofMessage message) values (Octets.slice message start stop) →
        r.data = values.flatMap Value.wire ∧
          Value.readAll .empty (values.map Value.field) r.data = .ok (values, [])) ∧
      ((¬ ∃ values, r.rtype.Fills (.ofMessage message) values (Octets.slice message start stop)) →
        r.data = Octets.slice message start stop) := by
  obtain ⟨rest, hread, rfl⟩ := Cursor.exists_rest_of_read h
  obtain ⟨hnamed, owner, data, hspells, hinput, hdata⟩ := exists_of_reader hread
  obtain ⟨hlies, hslice, hdrop⟩ := liesAt_of_drop_eq hspells hinput rfl
  refine ⟨_, _, hlies, ?_, hnamed.isSome_layout?_iff, ?_, ?_⟩
  · -- What the reader took is the front of the record and its data.
    have hwithin := hlies.within
    have hlength := congrArg List.length hinput
    rw [Cursor.ofBuffer, hdrop, Nat.min_eq_left hwithin]
    simp only [List.length_append, length_middle, List.length_drop] at hlength hwithin ⊢
    congr 1
    omega
  · intro values hfills
    rw [hslice] at hfills
    rw [hdata, hfills.expand_eq]
    exact ⟨rfl, Value.readAll_flatMap_wire .empty values⟩
  · intro hnot
    rw [hslice] at hnot ⊢
    rw [hdata, RecordType.expand_of_not_fills hnot]

/-- The name `m.`, and after it its mail exchange `x.m.`, with pointers to that name. -/
def exchangeMessage : Octets :=
  [1, 0x6d, 0] ++ [0xc0, 0] ++ [0, 15, 0, 1, 0, 0, 0, 60, 0, 6] ++ [0, 10, 1, 0x78, 0xc0, 0]

def exchangeRecord : Record :=
  ⟨⟨[⟨[0x6d], by decide⟩], by decide, by decide⟩, .mx, .internet, 60, [0, 10, 1, 0x78, 1, 0x6d, 0]⟩

/-- The data of the record is longer than what stands for it in the message. -/
theorem data_of_exchangeMessage :
    (Cursor.ofBuffer exchangeMessage 3).read (reader (.ofMessage exchangeMessage)) =
        (.ok exchangeRecord, .ofBuffer exchangeMessage 21) ∧
      ∃ start values, exchangeRecord.LiesAt exchangeMessage 3 start 21 ∧
        exchangeRecord.rtype.Fills (.ofMessage exchangeMessage) values
          (Octets.slice exchangeMessage start 21) ∧
        exchangeRecord.data = values.flatMap Value.wire := by
  have hread : (Cursor.ofBuffer exchangeMessage 3).read (reader (.ofMessage exchangeMessage)) =
      (.ok exchangeRecord, .ofBuffer exchangeMessage 21) := by decide +kernel
  obtain ⟨start, stop, hlies, hcursor, -, hexpanded, hkept⟩ := data_expanded_or_kept hread
  have hstop : stop = 21 := by
    have hposition : 21 = min stop 21 := congrArg Cursor.position hcursor
    have hwithin : stop ≤ 21 := hlies.within
    omega
  subst hstop
  refine ⟨hread, start, ?_⟩
  by_cases hfills : ∃ values, exchangeRecord.rtype.Fills (.ofMessage exchangeMessage) values
      (Octets.slice exchangeMessage start 21)
  · obtain ⟨values, hfills⟩ := hfills
    exact ⟨values, hlies, hfills, (hexpanded values hfills).1⟩
  · -- The data is seven octets, which do not stand in the message.
    have hslice := hkept hfills
    have hlength : 7 = 21 - start := by
      have hlength := congrArg List.length hslice
      unfold Octets.slice at hlength
      rw [List.length_drop] at hlength
      exact hlength
    have hstart : start = 14 := by omega
    rw [hstart] at hslice
    exact absurd hslice (by decide)

end Record

end Nameserver

import Nameserver.Proofs.Name.Construction
/-!
# Names without pointers

The octets of a name without pointers and the name stand for each other, one to one.  Main
statement: all octets are read as the one name whose wire form they are or as none, a name is found
wherever its wire form stands, and what is written of a name is its wire form.
-/

namespace Nameserver

/-! ## 1. The octets of strings -/

namespace LabelStrings

/-- Strings, each of them after its length. -/
def wire (strings : List Octets) : Octets :=
  strings.flatMap fun s => UInt8.ofNat s.length :: s

/-- The wire form of a name is that of its strings. -/
theorem wire_strings (n : Name) : wire n.strings = n.wire := by
  rw [wire, Name.strings, List.flatMap_map]
  rfl

end LabelStrings

/-! ## 2. Reading and writing -/

namespace Name

/-- The octets of a name are its wire form and nothing after it. -/
theorem ofWire_eq_ok_iff {octets : Octets} {n : Name} :
    ofWire octets = .ok n ↔ octets = n.wire := by
  -- What is read has to take up all octets.
  have hreader : ofWire octets = .ok n ↔ reader .empty octets = .ok (n, []) := by
    rw [ofWire]
    cases reader .empty octets with
    | error e =>
      constructor
      · intro h
        cases h
      · intro h
        cases h
    | ok result =>
      obtain ⟨m, after⟩ := result
      constructor
      · intro h
        cases after with
        | nil =>
          cases h
          rfl
        | cons o after => cases h
      · intro h
        cases h
        rfl
  rw [hreader, reader_empty_eq_ok_iff, List.append_nil]

/-- Strings are checked as they are read and not by their type. -/
theorem ofWire_strings_eq_ok_iff {octets : Octets} {strings : List Octets} :
    LabelStrings.ofWire octets = .ok strings ↔
      LabelStrings.IsName strings ∧ octets = LabelStrings.wire strings := by
  rw [LabelStrings.ofWire_eq]
  constructor
  · intro h
    obtain ⟨n, hn, rfl⟩ := map_eq_ok h
    exact ⟨LabelStrings.isName_strings n, by rw [LabelStrings.wire_strings, ofWire_eq_ok_iff.1 hn]⟩
  -- Strings that are checked are those of a name, so they are read as that name.
  · rintro ⟨hname, rfl⟩
    obtain ⟨n, rfl⟩ := hname.exists_name
    rw [LabelStrings.wire_strings, ofWire_eq_ok_iff.2 rfl]
    rfl

/-- A name is read wherever its wire form stands, and reading stops behind it. -/
theorem read_ofBuffer_wire (table : PointerTable) (n : Name) (before after : Octets) :
    (Cursor.ofBuffer (before ++ (n.wire ++ after)) before.length).read (reader table) =
      (.ok n, ⟨before.length + n.wireLength, after⟩) := by
  have hcursor : Cursor.ofBuffer (before ++ (n.wire ++ after)) before.length =
      ⟨before.length, n.wire ++ after⟩ := by
    rw [Cursor.ofBuffer, List.drop_left, List.length_append, Nat.min_eq_left (Nat.le_add_right _ _)]
  -- The position moves on by what the reader has taken.
  have htaken : (n.wire ++ after).length - after.length = n.wireLength := by
    rw [List.length_append, Nat.add_sub_cancel, length_wire]
  rw [hcursor, Cursor.read_of_ok (takes_reader (n.spells_wire table) after), htaken]

/-- A name is written just if there is room for its wire form. -/
theorem write_eq_ite (n : Name) (w : Writer) :
    n.write w = if n.wireLength ≤ w.room then .ok (w.extend n.wire) else .error .truncated := by
  rw [write_eq_put, ← length_wire]
  split
  next h => exact Writer.put_of_le h
  next h => exact Writer.put_of_lt (Nat.lt_of_not_le h)

/-- The wire forms are the octets of the names, one to one: they are read as these names, alone and
between other octets, and they are what is written. -/
theorem uncompressed_bijection :
    (∀ (octets : Octets) (n : Name), ofWire octets = .ok n ↔ octets = n.wire) ∧
    (∀ (octets : Octets) (strings : List Octets), LabelStrings.ofWire octets = .ok strings ↔
      LabelStrings.IsName strings ∧ octets = LabelStrings.wire strings) ∧
    (∀ (table : PointerTable) (n : Name) (before after : Octets),
      (Cursor.ofBuffer (before ++ (n.wire ++ after)) before.length).read (reader table) =
        (.ok n, ⟨before.length + n.wireLength, after⟩)) ∧
    (∀ (n : Name) (w : Writer), n.write w =
      if n.wireLength ≤ w.room then .ok (w.extend n.wire) else .error .truncated) ∧
    ∀ n : Name, n.wire = LabelStrings.wire n.strings ∧ n.wire.length = n.wireLength :=
  ⟨fun _ _ => ofWire_eq_ok_iff, fun _ _ => ofWire_strings_eq_ok_iff, read_ofBuffer_wire,
    write_eq_ite, fun n => ⟨(LabelStrings.wire_strings n).symm, n.length_wire⟩⟩

end Name

end Nameserver

import Nameserver.Record.Basic
/-!
# Types and classes by their names

The octets of a message give types and classes by number, and reading gives every number that has a
name its name.  So a record comes back from its octets in normalized form.
-/

namespace Nameserver

/-- The same type, by its name if its number has one. -/
def RecordType.normalized (t : RecordType) : RecordType := ofNumber t.number

/-- The same class, by its name if its number has one. -/
def RecordClass.normalized (c : RecordClass) : RecordClass := ofNumber c.number

/-- The same record, with its type and class by their names. -/
def Record.normalized (r : Record) : Record :=
  { r with rtype := r.rtype.normalized, rclass := r.rclass.normalized }

@[simp] theorem RecordType.number_normalized (t : RecordType) : t.normalized.number = t.number :=
  number_ofNumber t.number

@[simp] theorem RecordClass.number_normalized (c : RecordClass) : c.normalized.number = c.number :=
  number_ofNumber c.number

/-- A type that comes from a number has the number's name already. -/
theorem RecordType.normalized_ofNumber (n : UInt16) : (ofNumber n).normalized = ofNumber n := by
  rw [normalized, number_ofNumber]

theorem RecordClass.normalized_ofNumber (n : UInt16) : (ofNumber n).normalized = ofNumber n := by
  rw [normalized, number_ofNumber]

/-- A type that goes by its name if its number has one, as types that were read do. -/
def RecordType.IsNamed (t : RecordType) : Prop := t = t.normalized

instance (t : RecordType) : Decidable t.IsNamed := inferInstanceAs (Decidable (_ = _))

/-- Of types that go by their names, equal numbers make equal types. -/
theorem RecordType.IsNamed.eq_iff_same {s t : RecordType} (hs : s.IsNamed) (ht : t.IsNamed) :
    s = t ↔ s.same t = true := by
  rw [same, beq_iff_eq]
  constructor
  · exact congrArg number
  · intro h
    rw [hs, ht, normalized, normalized, h]

end Nameserver

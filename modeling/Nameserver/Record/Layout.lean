import Nameserver.Name.Wire
import Nameserver.RecordType
/-!
# Layouts of record data

The data of five types may hold compressed names in a message.  A layout lists the fields of such
data; data that follows its layout is kept with its names written out, and data that does not is
kept as it is, so that the record can still be passed on.
-/

namespace Nameserver

/-- A field of record data: a name, or a fixed count of octets. -/
inductive DataField where
  | name
  | octets (count : Nat)
  deriving DecidableEq, Repr

/-- The fields of a type's data, if the data may hold compressed names. -/
def RecordType.layout? : RecordType → Option (List DataField)
  | .ns | .cname | .ptr => some [.name]
  | .mx => some [.octets 2, .name]
  | .soa => some [.name, .name, .octets 4, .octets 4, .octets 4, .octets 4, .octets 4]
  | _ => none

namespace DataField

/-- Takes a field, for its octets with the name written out. -/
def reader (table : PointerTable) : DataField → Reader NameError Octets
  | name => do return (← Name.reader table).wire
  | octets count => (Reader.octets count).failingWith .unexpectedEnd

/-- Takes fields one after another, for their octets with the names written out. -/
def readAll (table : PointerTable) : List DataField → Reader NameError Octets
  | [] => pure []
  | field :: fields => do
    let first ← field.reader table
    let others ← readAll table fields
    return first ++ others

end DataField

/-- The data of a record as it is kept, from its octets in a message. -/
def RecordType.expand (rtype : RecordType) (table : PointerTable) (data : Octets) : Octets :=
  match rtype.layout? with
  | none => data
  | some fields =>
    match DataField.readAll table fields data with
    | .ok (expanded, []) => expanded
    | _ => data

end Nameserver

import Nameserver.Name.Basic
import Nameserver.RecordClass
import Nameserver.RecordType
/-!
# Resource records

A record ties data to the name that owns it.  The data is kept as the octets of its wire form with
all names uncompressed.
-/

namespace Nameserver

structure Record where
  owner : Name
  rtype : RecordType
  rclass : RecordClass
  ttl : UInt32
  data : Octets
  deriving DecidableEq

namespace Record

/-- How many octets the record takes on the wire: beside the owner and the data, ten for type, class,
TTL and the length of the data. -/
def wireLength (r : Record) : Nat := r.owner.wireLength + 10 + r.data.length

def withOwner (r : Record) (owner : Name) : Record := { r with owner }

/-- Equality of records: owners by their labels without regard to letter case, types and classes by
their numbers. -/
def same (a b : Record) : Bool :=
  a.owner.same b.owner && a.rtype.same b.rtype && a.rclass.same b.rclass && a.ttl == b.ttl &&
    a.data == b.data

/-! ## Errors of the text form -/

/-- What is wrong with the text of a record's data. -/
inductive DataFault where
  | wrongFormat
  | malformedAddress
  | preferenceOutOfRange
  | integerOutOfRange
  deriving DecidableEq, Repr

/-- The wording of a fault, as it follows the type. -/
def DataFault.message : DataFault → String
  | wrongFormat => "has the wrong format"
  | malformedAddress => "has a malformed IP address"
  | preferenceOutOfRange => "has an out-of-range PREFERENCE"
  | integerOutOfRange => "has an out-of-range integer field"

/-- Why a text is no record, or a record has no text. -/
inductive Error where
  | wrongFormat
  | ttlOutOfRange
  | unsupportedClass
  | unknownType
  | unsupportedType (rtype : RecordType)
  | knownButUnsupported (rtype : RecordType)
  | badData (rtype : RecordType) (fault : DataFault)
  | invalidWireData (rtype : RecordType)
  | name (error : NameError)
  deriving DecidableEq, Repr

namespace Error

def message : Error → String
  | wrongFormat => "record has the wrong format"
  | ttlOutOfRange => "record has an out-of-range TTL"
  | unsupportedClass => "record has a class other than IN"
  | unknownType => "record has an unrecognized type"
  | unsupportedType rtype => "record has unsupported type " ++ rtype.text.toAscii
  | knownButUnsupported rtype =>
    "text form of " ++ rtype.text.toAscii ++ " records is known but unsupported"
  | badData rtype fault => rtype.text.toAscii ++ " record " ++ fault.message
  | invalidWireData rtype => rtype.text.toAscii ++ " record has invalid RDATA"
  | name error => "bad name: " ++ error.message

/-- Whether the text may be right but uses what this library does not support. -/
def isUnsupported : Error → Bool
  | unsupportedClass | unknownType | unsupportedType _ | knownButUnsupported _ => true
  | name error => error.isUnsupported
  | _ => false

end Error

end Record

end Nameserver

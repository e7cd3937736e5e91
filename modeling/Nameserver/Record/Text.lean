import Nameserver.Record.Data
/-!
# The text of a record

A line of a zone file is a record: owner, TTL, class, type and data, with blanks between them.  The
class is always `IN`.  A printed record has the same parts in columns.
-/

namespace Nameserver.Record

/-- The largest TTL that text can give. -/
def maximumTtl : Nat := 999999999

def ttlOfText (field : Text) : Except Error UInt32 :=
  match Text.number? maximumTtl field with
  | some (ttl + 1) => .ok (UInt32.ofNat (ttl + 1))
  | _ => .error .ttlOutOfRange

def readField (t : Text) : Except Error (Text × Text) :=
  match Text.nextField? t with
  | some result => .ok result
  | none => .error .wrongFormat

def requireInternet (field : Text) : Except Error Unit :=
  match RecordClass.ofText field with
  | .ok .internet => .ok ()
  | _ => .error .unsupportedClass

def ofText (strictness : Name.Strictness) (line : Text) : Except Error Record := do
  let (owner, rest) ← (Name.read strictness (Text.trimStart line)).mapError .name
  let (ttl, rest) ← readField rest
  let (rclass, rest) ← readField rest
  let (rtype, rest) ← readField rest
  let data := Text.trim rest
  if data.isEmpty || !ttl.all Text.isDigit then throw .wrongFormat
  let ttl ← ttlOfText ttl
  requireInternet rclass
  let rtype ← (RecordType.ofText rtype).mapError fun _ => .unknownType
  let data ← RecordData.ofText strictness rtype data
  return { owner, rtype, rclass := .internet, ttl, data }

def ofString (s : String) : Except Error Record := ofText .trailingDot (Text.ofString s)

def ownerWidth : Nat := 32

/-- The record's columns, with a text for the data. -/
def withData (r : Record) (data : Text) : Text :=
  Text.joinAtTabStops (Text.padToWidth ownerWidth r.owner.text)
    [Text.decimal r.ttl.toNat, r.rclass.text ++ Text.space :: r.rtype.text, data]

/-- The text of a record whose data has a text form. -/
def text (r : Record) : Except Error Text :=
  (RecordData.text r.rtype r.data).map r.withData

/-- The text of any record: where the data has no text form of its own, the generic one stands. -/
def display (r : Record) : Text :=
  match RecordData.text r.rtype r.data with
  | .ok data => r.withData data
  | .error _ => r.withData (RecordData.genericText r.data)

end Nameserver.Record

import Nameserver.Text.Basic
/-!
# Response codes

The response code of a message says how a query fared.  It has four bits on the wire.
-/

namespace Nameserver

/-- A response code.  `unassigned v` may hold any octet; one that does not fit four bits has no wire
form. -/
inductive ResponseCode where
  | noError
  | formatError
  | serverFailure
  | nameError
  | notImplemented
  | refused
  | nameExists
  | recordSetExists
  | noRecordSet
  | notAuthoritative
  | notInZone
  | unknownStatefulType
  | unassigned (value : UInt8)
  deriving DecidableEq, Repr

namespace ResponseCode

/-- The codes that have a name, in the order of their numbers from zero on. -/
def named : List ResponseCode :=
  [noError, formatError, serverFailure, nameError, notImplemented, refused, nameExists,
    recordSetExists, noRecordSet, notAuthoritative, notInZone, unknownStatefulType]

/-- The code with a number, if the number fits four bits. -/
def ofNumber? (n : UInt8) : Option ResponseCode :=
  match named[n.toNat]? with
  | some code => some code
  | none => if n ≤ 15 then some (unassigned n) else none

def number : ResponseCode → UInt8
  | noError => 0
  | formatError => 1
  | serverFailure => 2
  | nameError => 3
  | notImplemented => 4
  | refused => 5
  | nameExists => 6
  | recordSetExists => 7
  | noRecordSet => 8
  | notAuthoritative => 9
  | notInZone => 10
  | unknownStatefulType => 11
  | unassigned v => v

/-- The same code, by its name if its number has one. -/
def normalized (c : ResponseCode) : ResponseCode := (ofNumber? c.number).getD c

def ofBits (n : Nat) : ResponseCode := (unassigned (UInt8.ofNat (n % 16))).normalized

/-- The wording of the error of a number that is no response code. -/
def notACode : String := "not a valid RCODE"

def text : ResponseCode → Text
  | noError => Text.ofString "NOERROR"
  | formatError => Text.ofString "FORMERR"
  | serverFailure => Text.ofString "SERVFAIL"
  | nameError => Text.ofString "NXDOMAIN"
  | notImplemented => Text.ofString "NOTIMP"
  | refused => Text.ofString "REFUSED"
  | nameExists => Text.ofString "YXDOMAIN"
  | recordSetExists => Text.ofString "YXRRSET"
  | noRecordSet => Text.ofString "NXRRSET"
  | notAuthoritative => Text.ofString "NOTAUTH"
  | notInZone => Text.ofString "NOTZONE"
  | unknownStatefulType => Text.ofString "DSOTYPENI"
  | unassigned v => Text.ofString "RCODE" ++ Text.decimal v.toNat

end ResponseCode

end Nameserver

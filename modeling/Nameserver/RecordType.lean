import Nameserver.Text.Basic
/-!
# Record types

A type is a number of 16 bits.  A few types have a name of their own; text writes the others as
`TYPE` and the number.
-/

namespace Nameserver

/-- A type of records, or of what a question asks for.  `other n` is the type with number `n`, also
where that number has a name: it equals the named type, but its data is not interpreted. -/
inductive RecordType where
  | a
  | ns
  | cname
  | soa
  | ptr
  | mx
  | txt
  | any
  | other (number : UInt16)
  deriving DecidableEq, Repr

namespace RecordType

/-- The type with a number, by its name if it has one. -/
def ofNumber (n : UInt16) : RecordType :=
  if n == 1 then a
  else if n == 2 then ns
  else if n == 5 then cname
  else if n == 6 then soa
  else if n == 12 then ptr
  else if n == 15 then mx
  else if n == 16 then txt
  else if n == 255 then any
  else other n

def number : RecordType → UInt16
  | a => 1
  | ns => 2
  | cname => 5
  | soa => 6
  | ptr => 12
  | mx => 15
  | txt => 16
  | any => 255
  | other n => n

@[simp] theorem number_ofNumber (n : UInt16) : (ofNumber n).number = n := by
  unfold ofNumber
  repeat' split
  all_goals simp_all [number]

/-- Types are equal when their numbers are. -/
def same (s t : RecordType) : Bool := s.number == t.number

/-! ## Text -/

def mnemonic? (t : RecordType) : Option String :=
  match ofNumber t.number with
  | a => some "A"
  | ns => some "NS"
  | cname => some "CNAME"
  | soa => some "SOA"
  | ptr => some "PTR"
  | mx => some "MX"
  | txt => some "TXT"
  | any => some "ANY"
  | other _ => none

def text (t : RecordType) : Text :=
  match t.mnemonic? with
  | some mnemonic => Text.ofString mnemonic
  | none => Text.ofString "TYPE" ++ Text.decimal t.number.toNat

/-- The texts that name a type, in capital letters. -/
def named : List (Text × RecordType) :=
  [a, ns, cname, soa, ptr, mx, txt, any].map (fun t => (t.text, t)) ++ [([Text.asterisk], any)]

/-- Why a text is no type. -/
inductive Error where
  | badNumber
  | unknown
  deriving DecidableEq, Repr

def Error.message : Error → String
  | badNumber => "type value is not a valid unsigned 16-bit integer"
  | unknown => "unknown type"

/-- The type that a text names, in any letter case. -/
def ofText (t : Text) : Except Error RecordType :=
  match named.find? fun entry => Text.sameIgnoringCase entry.1 t with
  | some (_, rtype) => .ok rtype
  | none =>
    match Text.after? (Text.ofString "TYPE") t with
    | none => .error .unknown
    | some digits =>
      match Text.signedNumber? 65535 digits with
      | some n => .ok (ofNumber (UInt16.ofNat n))
      | none => .error .badNumber

end RecordType

end Nameserver

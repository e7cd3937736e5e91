import Nameserver.Text.Basic
/-!
# Record classes

A class is a number of 16 bits.  A few classes have a name of their own; text writes the others as
`CLASS` and the number.
-/

namespace Nameserver

/-- A class of records, or of what a question asks for.  `other n` is the class with number `n`, also
where that number has a name. -/
inductive RecordClass where
  | internet
  | csnet
  | chaos
  | hesiod
  | any
  | other (number : UInt16)
  deriving DecidableEq, Repr

namespace RecordClass

/-- The class with a number, by its name if it has one. -/
def ofNumber (n : UInt16) : RecordClass :=
  if n == 1 then internet
  else if n == 2 then csnet
  else if n == 3 then chaos
  else if n == 4 then hesiod
  else if n == 255 then any
  else other n

def number : RecordClass → UInt16
  | internet => 1
  | csnet => 2
  | chaos => 3
  | hesiod => 4
  | any => 255
  | other n => n

@[simp] theorem number_ofNumber (n : UInt16) : (ofNumber n).number = n := by
  unfold ofNumber
  repeat' split
  all_goals simp_all [number]

/-- Classes are equal when their numbers are. -/
def same (a b : RecordClass) : Bool := a.number == b.number

/-! ## Text -/

def mnemonic? (c : RecordClass) : Option String :=
  match ofNumber c.number with
  | internet => some "IN"
  | csnet => some "CS"
  | chaos => some "CH"
  | hesiod => some "HS"
  | any => some "ANY"
  | other _ => none

def text (c : RecordClass) : Text :=
  match c.mnemonic? with
  | some mnemonic => Text.ofString mnemonic
  | none => Text.ofString "CLASS" ++ Text.decimal c.number.toNat

def named : List RecordClass := [internet, csnet, chaos, hesiod, any]

/-- Why a text is no class. -/
inductive Error where
  | badNumber
  | unknown
  deriving DecidableEq, Repr

def Error.message : Error → String
  | badNumber => "class value is not a valid unsigned 16-bit integer"
  | unknown => "unknown class"

/-- The class that a text names, in any letter case. -/
def ofText (t : Text) : Except Error RecordClass :=
  match named.find? fun c => Text.sameIgnoringCase c.text t with
  | some c => .ok c
  | none =>
    match Text.after? (Text.ofString "CLASS") t with
    | none => .error .unknown
    | some digits =>
      match Text.signedNumber? 65535 digits with
      | some n => .ok (ofNumber (UInt16.ofNat n))
      | none => .error .badNumber

end RecordClass

end Nameserver

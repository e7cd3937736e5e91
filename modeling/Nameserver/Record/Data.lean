import Nameserver.Name.Text
import Nameserver.Name.Wire
import Nameserver.Record.Basic
import Nameserver.Text.Blank
import Nameserver.Text.Columns
/-!
# The text of record data

Six types have a text form for their data: an address for `A`, a name for `NS`, `CNAME` and `PTR`, a
preference and a name for `MX`, two names and five numbers for `SOA`.  Any data has the generic form
`\# <length> <hexadecimal digits>`, which is printed but not read.
-/

namespace Nameserver

namespace RecordData

open Record (DataFault)

/-- How the data of a type is written in text. -/
inductive Form where
  | address
  | name
  | exchange
  | authority
  deriving DecidableEq, Repr

def form : RecordType → Except Record.Error Form
  | .a => .ok .address
  | .ns | .cname | .ptr => .ok .name
  | .mx => .ok .exchange
  | .soa => .ok .authority
  | .txt => .error (.knownButUnsupported .txt)
  | rtype => .error (.unsupportedType rtype)

/-! ## Reading -/

/-- Why a text is no data of some form. -/
inductive Error where
  | fault (fault : DataFault)
  | name (error : NameError)
  deriving DecidableEq, Repr

def readName (strictness : Name.Strictness) (t : Text) : Except Error (Name × Text) :=
  (Name.read strictness t).mapError .name

/-- Takes the field of a number that is at most `limit`. -/
def readNumber (limit : Nat) (outOfRange : DataFault) (t : Text) : Except Error (Nat × Text) :=
  match Text.nextField? t with
  | none => .error (.fault .wrongFormat)
  | some (field, rest) =>
    if field.all Text.isDigit then
      match Text.number? limit field with
      | some n => .ok (n, rest)
      | none => .error (.fault outOfRange)
    else .error (.fault .wrongFormat)

/-- Passes if `condition` holds of the rest of the text. -/
def require (condition : Bool) : Except Error Unit :=
  if condition then .ok () else .error (.fault .wrongFormat)

/-- Four numbers up to 255 with dots between them. -/
def readAddress (t : Text) : Except Error Octets :=
  match (Text.split Text.dot t).mapM (Text.number? 255) with
  | some [a, b, c, d] => .ok [UInt8.ofNat a, UInt8.ofNat b, UInt8.ofNat c, UInt8.ofNat d]
  | _ => .error (.fault .malformedAddress)

def readExchange (strictness : Name.Strictness) (t : Text) : Except Error Octets :=
  match Text.nextField? t with
  | none => .error (.fault .wrongFormat)
  | some (field, rest) => do
    require (field.all Text.isDigit && Text.startsWithSpace rest)
    match Text.number? 65535 field with
    | none => throw (.fault .preferenceOutOfRange)
    | some preference =>
      let (exchange, rest) ← readName strictness (Text.trimStart rest)
      require rest.isEmpty
      return Octets.ofUInt16 (UInt16.ofNat preference) ++ exchange.wire

/-- Numbers of 32 bits, each after a blank, for their octets and the rest of the text. -/
def readIntegers : Nat → Text → Except Error (Octets × Text)
  | 0, t => .ok ([], t)
  | count + 1, t => do
    require (Text.startsWithSpace t)
    let (n, rest) ← readNumber 4294967295 .integerOutOfRange t
    let (others, rest) ← readIntegers count rest
    return (Octets.ofUInt32 (UInt32.ofNat n) ++ others, rest)

def readAuthority (strictness : Name.Strictness) (t : Text) : Except Error Octets := do
  let (mname, rest) ← readName strictness t
  require (Text.startsWithSpace rest)
  let (rname, rest) ← readName strictness (Text.trimStart rest)
  let (integers, rest) ← readIntegers 5 rest
  require rest.isEmpty
  return mname.wire ++ rname.wire ++ integers

def Form.read (strictness : Name.Strictness) : Form → Text → Except Error Octets
  | address, t => readAddress t
  | name, t => do
    let (target, rest) ← readName strictness t
    require rest.isEmpty
    return target.wire
  | exchange, t => readExchange strictness t
  | authority, t => readAuthority strictness t

/-- The octets of data of a type, from the whole of its text. -/
def ofText (strictness : Name.Strictness) (rtype : RecordType) (t : Text) :
    Except Record.Error Octets := do
  let form ← form rtype
  match form.read strictness t with
  | .ok data => return data
  | .error (.fault fault) => throw (.badData rtype fault)
  | .error (.name error) => throw (.name error)

/-! ## Printing -/

/-- Runs a reader that has to take all of the data. -/
def complete? {α : Type} (r : Reader NameError α) (data : Octets) : Option α :=
  match r data with
  | .ok (value, []) => some value
  | _ => none

def exchangeText : Reader NameError Text := do
  let preference ← Reader.uint16.failingWith .unexpectedEnd
  let exchange ← Name.reader .empty
  return Text.padToTabStop (Text.decimal preference.toNat) ++ exchange.text

def authorityText : Reader NameError Text := do
  let mname ← Name.reader .empty
  let rname ← Name.reader .empty
  let integers ← (Reader.uint32.failingWith .unexpectedEnd).count 5
  return Text.join Text.space
    (mname.text :: rname.text :: integers.map fun n => Text.decimal n.toNat)

/-- The text of data in a form, unless the data does not have that form. -/
def Form.text? : Form → Octets → Option Text
  | address, data =>
    if data.length = 4 then some (Text.join Text.dot (data.map fun o => Text.decimal o.toNat))
    else none
  | name, data => (complete? (Name.reader .empty) data).map Name.text
  | exchange, data => complete? exchangeText data
  | authority, data => complete? authorityText data

def text (rtype : RecordType) (data : Octets) : Except Record.Error Text := do
  let form ← form rtype
  match form.text? data with
  | some t => return t
  | none => throw (.invalidWireData rtype)

def genericText (data : Octets) : Text :=
  Text.ofString "\\# " ++ Text.decimal data.length ++
    if data.isEmpty then [] else Text.space :: Text.hex data

end RecordData

end Nameserver

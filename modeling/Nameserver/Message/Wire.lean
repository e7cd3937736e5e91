import Nameserver.Message.Basic
import Nameserver.Record.Wire
/-!
# The wire form of a message

The header is six numbers of 16 bits: the identifier, the flags and the counts of the four sections.
The entries of the sections follow in order.  What comes after the last entry is no part of the
message, although the pointer table is made from all octets received.
-/

namespace Nameserver

/-! ## The flags -/

/-- The flags of a header as a number: the response bit, four bits of opcode, the four single flags,
three unused bits and four bits of response code. -/
def Header.flags (h : Header) : Nat :=
  h.isResponse.toNat * 0x8000 + h.opcode.number.toNat % 16 * 0x800 +
    h.authoritative.toNat * 0x400 + h.truncated.toNat * 0x200 +
    h.recursionDesired.toNat * 0x100 + h.recursionAvailable.toNat * 0x80 +
    h.code.number.toNat % 16

def Header.ofFlags (id : UInt16) (flags : Nat) : Header where
  id := id
  isResponse := flags / 0x8000 % 2 == 1
  opcode := Opcode.ofBits (flags / 0x800)
  authoritative := flags / 0x400 % 2 == 1
  truncated := flags / 0x200 % 2 == 1
  recursionDesired := flags / 0x100 % 2 == 1
  recursionAvailable := flags / 0x80 % 2 == 1
  code := ResponseCode.ofBits flags

namespace Message

/-! ## Reading -/

/-- Why octets are no message. -/
inductive DecodeError where
  | headerTooShort
  | invalidQuestion (error : NameError)
  | invalidRecord (error : NameError)
  deriving DecidableEq, Repr

def DecodeError.message : DecodeError → String
  | headerTooShort => "header too short"
  | invalidQuestion error => "invalid question: " ++ error.message
  | invalidRecord error => "invalid record: " ++ error.message

def headerField : Reader DecodeError UInt16 := Reader.uint16.failingWith .headerTooShort

def sectionReader (table : PointerTable) (count : UInt16) : Reader DecodeError (List Record) :=
  ((Record.reader table).mapError .invalidRecord).count count.toNat

def reader (table : PointerTable) : Reader DecodeError Message := do
  let id ← headerField
  let flags ← headerField
  let questionCount ← headerField
  let answerCount ← headerField
  let authorityCount ← headerField
  let additionalCount ← headerField
  let questions ←
    ((Question.reader table).mapError .invalidQuestion).count questionCount.toNat
  let answers ← sectionReader table answerCount
  let authorities ← sectionReader table authorityCount
  let additionals ← sectionReader table additionalCount
  return { Header.ofFlags id flags.toNat with questions, answers, authorities, additionals }

/-- The message that some octets start with, and how many of them it takes. -/
def decode (octets : Octets) : Except DecodeError (Message × Nat) :=
  match reader (PointerTable.ofMessage octets) octets with
  | .ok (message, rest) => .ok (message, octets.length - rest.length)
  | .error e => .error e

/-! ## Writing -/

/-- Why a message cannot be written into a buffer. -/
inductive EncodeError where
  | truncated
  | opcodeOutOfRange (value : UInt8)
  | codeOutOfRange (value : UInt8)
  deriving DecidableEq, Repr

def EncodeError.message : EncodeError → String
  | truncated => "message does not fit into the buffer"
  | opcodeOutOfRange value => "opcode " ++ toString value ++ " does not fit in four bits"
  | codeOutOfRange value => "RCODE " ++ toString value ++ " does not fit in four bits"

/-- Writes how many entries a section has, if 16 bits hold the number. -/
def putCount (count : Nat) (w : Writer) : Except Truncated Writer :=
  if count ≤ 65535 then w.putUInt16 (UInt16.ofNat count) else .error .truncated

def writeParts (m : Message) (w : Writer) : Except Truncated Writer := do
  let w ← w.putUInt16 m.id
  let w ← w.putUInt16 (UInt16.ofNat m.flags)
  let w ← putCount m.questions.length w
  let w ← putCount m.answers.length w
  let w ← putCount m.authorities.length w
  let w ← putCount m.additionals.length w
  let w ← m.questions.foldlM (fun w q => q.write w) w
  m.records.foldlM (fun w r => r.write w) w

/-- Writes a message into a buffer.  On success the writer holds the message and what is left of the
buffer. -/
def encode (m : Message) (buffer : Octets) : Except EncodeError Writer :=
  if m.opcode.number > 15 then .error (.opcodeOutOfRange m.opcode.number)
  else if m.code.number > 15 then .error (.codeOutOfRange m.code.number)
  else (m.writeParts (Writer.ofBuffer buffer)).mapError fun _ => .truncated

def wireLength (m : Message) : Nat :=
  12 + (m.questions.map Question.wireLength).foldr (· + ·) 0 +
    (m.records.map Record.wireLength).foldr (· + ·) 0

end Message

end Nameserver

import Nameserver.Text.Basic
/-!
# Opcodes

The opcode of a message says what kind of query it makes.  It has four bits on the wire.
-/

namespace Nameserver

/-- An opcode.  `unassigned v` may hold any octet; one that does not fit four bits has no wire form. -/
inductive Opcode where
  | query
  | inverseQuery
  | status
  | notify
  | update
  | statefulOperations
  | unassigned (value : UInt8)
  deriving DecidableEq, Repr

namespace Opcode

/-- The opcode with a number, if the number fits four bits. -/
def ofNumber? (n : UInt8) : Option Opcode :=
  if n == 0 then some query
  else if n == 1 then some inverseQuery
  else if n == 2 then some status
  else if n == 4 then some notify
  else if n == 5 then some update
  else if n == 6 then some statefulOperations
  else if n ≤ 15 then some (unassigned n)
  else none

def number : Opcode → UInt8
  | query => 0
  | inverseQuery => 1
  | status => 2
  | notify => 4
  | update => 5
  | statefulOperations => 6
  | unassigned v => v

/-- The same opcode, by its name if its number has one. -/
def normalized (o : Opcode) : Opcode := (ofNumber? o.number).getD o

def ofBits (n : Nat) : Opcode := (unassigned (UInt8.ofNat (n % 16))).normalized

/-- The wording of the error of a number that is no opcode. -/
def notAnOpcode : String := "not a valid opcode"

def text : Opcode → Text
  | query => Text.ofString "QUERY"
  | inverseQuery => Text.ofString "IQUERY"
  | status => Text.ofString "STATUS"
  | notify => Text.ofString "NOTIFY"
  | update => Text.ofString "UPDATE"
  | statefulOperations => Text.ofString "DSO"
  | unassigned v => Text.ofString "OPCODE" ++ Text.decimal v.toNat

end Opcode

end Nameserver

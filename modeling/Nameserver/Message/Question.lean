import Nameserver.Name.Text
import Nameserver.Name.Wire
import Nameserver.RecordClass
import Nameserver.RecordType
import Nameserver.Text.Columns
/-!
# Questions

A question asks for the records of a name that have some type and class.
-/

namespace Nameserver

/-- The question of a query. -/
structure Question where
  qname : Name
  qtype : RecordType
  qclass : RecordClass := .internet
  deriving DecidableEq

namespace Question

def wireLength (q : Question) : Nat := q.qname.wireLength + 4

/-- Equality of questions: names without regard to letter case, types and classes by number. -/
def same (a b : Question) : Bool :=
  a.qname.same b.qname && a.qtype.same b.qtype && a.qclass.same b.qclass

def reader (table : PointerTable) : Reader NameError Question := do
  let qname ← Name.reader table
  let qtype := RecordType.ofNumber (← Reader.uint16.failingWith .unexpectedEnd)
  let qclass := RecordClass.ofNumber (← Reader.uint16.failingWith .unexpectedEnd)
  return { qname, qtype, qclass }

/-- Writes a question, all of it or nothing. -/
def write (q : Question) (w : Writer) : Except Truncated Writer := do
  if w.hasRoom q.wireLength then
    let w ← q.qname.write w
    let w ← w.putUInt16 q.qtype.number
    w.putUInt16 q.qclass.number
  else
    throw .truncated

/-- The text of a question, in the columns of a printed record. -/
def text (q : Question) : Text :=
  Text.joinAtTabStops (Text.padToWidth 32 q.qname.text)
    [q.qclass.text ++ Text.space :: q.qtype.text]

end Question

end Nameserver

import Nameserver.Record.Basic
import Nameserver.Record.Layout
/-!
# The wire form of a record

A record is written as owner, type, class, TTL, length of the data and data.  It is read with the
pointer table of its message and written without compression.
-/

namespace Nameserver.Record

def reader (table : PointerTable) : Reader NameError Record := do
  let owner ← Name.reader table
  let rtype := RecordType.ofNumber (← Reader.uint16.failingWith .unexpectedEnd)
  let rclass := RecordClass.ofNumber (← Reader.uint16.failingWith .unexpectedEnd)
  let ttl ← Reader.uint32.failingWith .unexpectedEnd
  let data ← Reader.string16.failingWith .unexpectedEnd
  return { owner, rtype, rclass, ttl, data := rtype.expand table data }

/-- Writes a record, all of it or nothing. -/
def write (r : Record) (w : Writer) : Except Truncated Writer := do
  if r.data.length ≤ 65535 && w.hasRoom r.wireLength then
    let w ← r.owner.write w
    let w ← w.putUInt16 r.rtype.number
    let w ← w.putUInt16 r.rclass.number
    let w ← w.putUInt32 r.ttl
    let w ← w.putUInt16 (UInt16.ofNat r.data.length)
    w.put r.data
  else
    throw .truncated

end Nameserver.Record

import Nameserver.Octets.Reader
/-!
# Writing octets

A writer fills a buffer of fixed size from the front.  Each write puts all of its octets or fails;
the writer before it is a value of its own, so a failed write leaves no trace.
-/

namespace Nameserver

/-- A buffer that is filled from the front: the octets written, and those that the buffer still
holds from before. -/
structure Writer where
  written : Array UInt8
  unwritten : Octets
  deriving DecidableEq, Repr

namespace Writer

/-- A writer at the front of a buffer. -/
def ofBuffer (buffer : Octets) : Writer := ⟨#[], buffer⟩

def buffer (w : Writer) : Octets := w.written.toList ++ w.unwritten

def position (w : Writer) : Nat := w.written.size

def room (w : Writer) : Nat := w.unwritten.length

/-- Whether `n` octets can still be written; it looks at no more than `n` of them. -/
def hasRoom (w : Writer) (n : Nat) : Bool := (w.unwritten.take n).length == n

theorem hasRoom_iff {w : Writer} {n : Nat} : w.hasRoom n = true ↔ n ≤ w.room := by
  simp only [hasRoom, room, List.length_take, beq_iff_eq]
  omega

def put (octets : Octets) (w : Writer) : Except Truncated Writer :=
  if w.hasRoom octets.length then
    .ok ⟨w.written ++ octets, w.unwritten.drop octets.length⟩
  else
    .error .truncated

def putOctet (o : UInt8) (w : Writer) : Except Truncated Writer := w.put [o]

def putUInt16 (v : UInt16) (w : Writer) : Except Truncated Writer := w.put (Octets.ofUInt16 v)

def putUInt32 (v : UInt32) (w : Writer) : Except Truncated Writer := w.put (Octets.ofUInt32 v)

/-- Writes a string after its length in one octet, if the length fits one. -/
def putString8 (string : Octets) (w : Writer) : Except Truncated Writer := do
  if string.length ≤ 255 && w.hasRoom (1 + string.length) then
    let w ← w.putOctet (UInt8.ofNat string.length)
    w.put string
  else
    throw .truncated

/-- Writes a string after its length in two octets, if the length fits two. -/
def putString16 (string : Octets) (w : Writer) : Except Truncated Writer := do
  if string.length ≤ 65535 && w.hasRoom (2 + string.length) then
    let w ← w.putUInt16 (UInt16.ofNat string.length)
    w.put string
  else
    throw .truncated

end Writer

end Nameserver

import Nameserver.Octets.Writer
import Nameserver.Name.PointerTable
/-!
# The wire form of a name

Each label comes after its length in one octet, and the null label ends the name.  Two octets that
start with the bits `11` are a pointer instead: they end the name with the labels of the name that
starts at the offset in their other fourteen bits.  Names are written without pointers.
-/

namespace Nameserver

/-! ## Writing -/

/-- A label after its length. -/
def Label.wire (l : Label) : Octets := UInt8.ofNat l.length :: l.octets

@[simp] theorem Label.length_wire (l : Label) : l.wire.length = l.length + 1 := rfl

def Label.write (l : Label) (w : Writer) : Except Truncated Writer := w.putString8 l.octets

namespace Name

def wire (n : Name) : Octets := n.allLabels.flatMap Label.wire

/-- The wire length of a name is the number of octets in its wire form. -/
theorem length_wire (n : Name) : n.wire.length = n.wireLength := by
  rw [wire, allLabels, wireLength]
  induction n.labels with
  | nil => rfl
  | cons l labels ih =>
    rw [List.cons_append, List.flatMap_cons, List.length_append, ih]
    rfl

/-- Writes a name, all of it or nothing. -/
def write (n : Name) (w : Writer) : Except Truncated Writer :=
  if w.hasRoom n.wireLength then n.allLabels.foldlM (fun w l => l.write w) w
  else .error .truncated

/-! ## Reading -/

/-- The label that some octets start with, after its length in the octet `first`. -/
def labelAfter (first : UInt8) (h : first < 0x40) (rest : Octets) : Label :=
  ⟨rest.take first.toNat, by
    have : first.toNat < 64 := UInt8.lt_iff_toNat_lt.1 h
    simp only [List.length_take]
    omega⟩

/-- The labels of the name that some octets start with, and the octets after it.  The labels with
the null label may take up to `room` octets on the wire. -/
def scan (table : PointerTable) (room : Nat) : Octets → Except NameError (List Label × Octets)
  | [] => .error .unexpectedEnd
  | first :: rest =>
    if h : first < 0x40 then
      let label := labelAfter first h rest
      if label.length < first.toNat then .error .unexpectedEnd
      else if room < label.length + 1 then .error .nameTooLong
      else if label.isNull then .ok ([], rest)
      else
        match scan table (room - (label.length + 1)) (rest.drop label.length) with
        | .ok (labels, after) => .ok (label :: labels, after)
        | .error e => .error e
    else if first < 0xc0 then .error .unsupportedLabelType
    else
      match rest with
      | [] => .error .unexpectedEnd
      | low :: after =>
        match table.get? ((first.toNat - 0xc0) * 256 + low.toNat) with
        | none => .error .invalidPointer
        | some target =>
          if room < target.wireLength then .error .nameTooLong else .ok (target.labels, after)
termination_by octets => octets.length
decreasing_by
  simp only [List.length_drop, List.length_cons]
  omega

/-- Scanned labels make a name: none of them is null, and they fit the room. -/
theorem scan_labels {table : PointerTable} {room : Nat} {octets after : Octets}
    {labels : List Label} (h : scan table room octets = .ok (labels, after)) :
    (∀ l ∈ labels, l.isNull = false) ∧ Name.wireLengthOf labels ≤ room := by
  fun_induction scan table room octets generalizing labels after
  case case4 label _ hroom hnull =>
    cases h
    simp only [Name.wireLengthOf, List.not_mem_nil, false_implies, implies_true, true_and]
    omega
  case case5 label _ hroom hnull labels' _ hscan ih =>
    cases h
    obtain ⟨hne, hle⟩ := ih hscan
    constructor
    · intro l hl
      rcases List.mem_cons.1 hl with rfl | hl
      · simpa using hnull
      · exact hne l hl
    · rw [Name.wireLengthOf]
      omega
  case case11 target _ hroom =>
    cases h
    exact ⟨target.ne_null, Nat.le_of_not_lt hroom⟩
  all_goals cases h

def reader (table : PointerTable) : Reader NameError Name := fun octets =>
  match h : scan table 255 octets with
  | .ok (labels, after) => .ok (⟨labels, (scan_labels h).1, (scan_labels h).2⟩, after)
  | .error e => .error e

/-- The name whose wire form without pointers the octets are. -/
def ofWire (octets : Octets) : Except NameError Name := do
  let (name, after) ← reader .empty octets
  if after.isEmpty then return name else throw .extraData

end Name

/-! ## Pointer targets -/

namespace PointerTable

/-- The offsets below this can be pointed to. -/
def maximum : Nat := 64

/-- The table with the first `count` offsets of a message.  Each name is read with the table of the
offsets before it, so a pointer in it leads to an earlier offset. -/
def upTo (message : Octets) : Nat → PointerTable
  | 0 => .empty
  | count + 1 =>
    let earlier := upTo message count
    earlier.push ((Name.reader earlier (message.drop count)).toOption.map Prod.fst)

def ofMessage (message : Octets) : PointerTable := upTo message (min maximum message.length)

end PointerTable

end Nameserver

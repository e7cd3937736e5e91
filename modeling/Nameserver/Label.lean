import Nameserver.Text.Basic
/-!
# Labels

A label is a string of at most 63 octets.  Labels are compared without regard to the case of ASCII
letters: equality, order and the input of a hash all go through `Label.folded`.
-/

namespace Nameserver

structure Label where
  octets : Octets
  length_le : octets.length ≤ 63
  deriving DecidableEq

namespace Label

def ofOctets? (octets : Octets) : Option Label :=
  if h : octets.length ≤ 63 then some ⟨octets, h⟩ else none

/-- The label without octets, which ends every name. -/
def null : Label := ⟨[], by decide⟩

/-- The label `*`, which stands for any label in the owner of a wildcard record. -/
def wildcard : Label := ⟨[Text.asterisk], by decide⟩

def isNull (l : Label) : Bool := l.octets.isEmpty

def length (l : Label) : Nat := l.octets.length

/-! ## Comparison -/

/-- The octets with each capital ASCII letter in its small form. -/
def folded (l : Label) : Octets := l.octets.map Text.lower

def same (a b : Label) : Bool := a.folded == b.folded

/-- The order of octet strings: at the first place where they differ the smaller octet comes first,
and a string comes before its continuations. -/
def compareOctets : Octets → Octets → Ordering
  | [], [] => .eq
  | [], _ :: _ => .lt
  | _ :: _, [] => .gt
  | a :: s, b :: t => if a < b then .lt else if b < a then .gt else compareOctets s t

/-- The canonical order of labels. -/
def compare (a b : Label) : Ordering := compareOctets a.folded b.folded

def le (a b : Label) : Bool := a.compare b != .gt

/-- What a hash of the label is computed from: the length, then the folded octets. -/
def hashInput (l : Label) : List Nat := l.length :: l.folded.map UInt8.toNat

/-! ## Text -/

/-- An octet as it stands in the text of a label.  A dot, a backslash and a double quote come after
a backslash; what is not printable ASCII is a backslash and three decimal digits. -/
def escaped (o : UInt8) : Text :=
  if o == Text.dot || o == Text.backslash || o == Text.quote then [Text.backslash, o]
  else if Text.isPrintable o then [o]
  else [Text.backslash, Text.digit (o.toNat / 100), Text.digit (o.toNat / 10), Text.digit o.toNat]

def text (l : Label) : Text := l.octets.flatMap escaped

@[simp] theorem octets_null : null.octets = [] := rfl

theorem same_iff {a b : Label} : a.same b = true ↔ a.folded = b.folded := by
  simp [same]

end Label

end Nameserver

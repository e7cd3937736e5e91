import Nameserver.Label
/-!
# Domain names

A name is the list of its labels, leaf first.  The null label that ends every name is not in the
list, so the root is the empty list.  On the wire a name takes one octet more than its labels with
their length octets, and at most 255.
-/

namespace Nameserver

/-! ## Errors -/

/-- Why octets, labels or a text are no name. -/
inductive NameError where
  | emptyLabel
  | emptyName
  | extraData
  | invalidEscape
  | invalidPointer
  | labelTooLong
  | missingTrailingDot
  | nameTooLong
  | needsQuotes
  | nonNullTerminal
  | nullNonTerminal
  | tooManyLabels
  | unexpectedEnd
  | unsupportedLabelType
  deriving DecidableEq, Repr

namespace NameError

def message : NameError → String
  | emptyLabel => "name contains an empty label"
  | emptyName => "empty name is not allowed; did you mean \".\"?"
  | extraData => "extra data was present"
  | invalidEscape => "invalid escape sequence"
  | invalidPointer => "invalid compression pointer"
  | labelTooLong => "label is longer than 63 octets"
  | missingTrailingDot => "name without trailing dot is confusing"
  | nameTooLong => "name is longer than 255 octets on the wire"
  | needsQuotes => "unusual name requires double quotes"
  | nonNullTerminal => "last label is not null"
  | nullNonTerminal => "non-terminal label is null"
  | tooManyLabels => "name contains more than 255 labels"
  | unexpectedEnd => "unexpected end of input"
  | unsupportedLabelType => "name uses an unsupported label type"

/-- Whether the input may be right but uses what this library does not support. -/
def isUnsupported : NameError → Bool
  | missingTrailingDot | unsupportedLabelType => true
  | _ => false

end NameError

/-! ## Names -/

/-- How many octets labels and the null label after them take on the wire. -/
def Name.wireLengthOf : List Label → Nat
  | [] => 1
  | l :: labels => l.length + 1 + Name.wireLengthOf labels

structure Name where
  labels : List Label
  ne_null : ∀ l ∈ labels, l.isNull = false
  wireLength_le : Name.wireLengthOf labels ≤ 255
  deriving DecidableEq

namespace Name

/-- The name of the root, which has no label but the null label. -/
def root : Name := ⟨[], by simp, by decide⟩

/-- The name with the given labels, unless it is too long or one of them is null. -/
def ofLabels? (labels : List Label) : Except NameError Name :=
  if ne_null : ∀ l ∈ labels, l.isNull = false then
    if wireLength_le : Name.wireLengthOf labels ≤ 255 then .ok ⟨labels, ne_null, wireLength_le⟩
    else .error .nameTooLong
  else .error .nullNonTerminal

/-- The label with the given octets, or the error of a label that is too long. -/
def label (octets : Octets) : Except NameError Label :=
  match Label.ofOctets? octets with
  | some l => .ok l
  | none => .error .labelTooLong

/-- The name whose labels have the given octets; the last of them is the null label. -/
def ofOctets (strings : List Octets) : Except NameError Name := do
  let labels ← strings.mapM label
  match labels.getLast? with
  | none => throw .nonNullTerminal
  | some last => if last.isNull then ofLabels? labels.dropLast else throw .nonNullTerminal

def isRoot (n : Name) : Bool := n.labels.isEmpty

def isWildcard (n : Name) : Bool := n.labels.head?.any (· == Label.wildcard)

def allLabels (n : Name) : List Label := n.labels ++ [Label.null]

/-- The labels from the root down, which is how a tree of names is searched. -/
def labelsFromRoot (n : Name) : List Label := n.labels.reverse

/-- How many octets the name takes on the wire without compression. -/
def wireLength (n : Name) : Nat := wireLengthOf n.labels

/-- Equality of names: the same labels, without regard to letter case. -/
def same (a b : Name) : Bool := a.labels.map Label.folded == b.labels.map Label.folded

theorem ext {a b : Name} (h : a.labels = b.labels) : a = b := by
  cases a
  cases b
  simp_all

theorem same_iff {a b : Name} :
    a.same b = true ↔ a.labels.map Label.folded = b.labels.map Label.folded := by
  simp [same]

@[simp] theorem same_refl (a : Name) : a.same a = true := same_iff.2 rfl

/-- The null label at the end takes an octet, so no name takes none. -/
theorem one_le_wireLength (n : Name) : 1 ≤ n.wireLength := by
  rw [wireLength]
  cases n.labels with
  | nil => exact Nat.le_refl 1
  | cons l labels =>
    rw [wireLengthOf]
    omega

end Name

end Nameserver

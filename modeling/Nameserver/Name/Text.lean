import Nameserver.Name.Basic
/-!
# The text of a name

In a zone file a name is its labels with a dot after each; the root is a dot alone.  An unquoted
name ends before an ASCII blank and holds letters, digits, `-`, `_`, `*` and escapes only.  A name
between double quotes holds anything.  An escape is a backslash with three decimal digits or with
one octet that stands for itself.

Reading has two steps.  `marks` reads the octets up to the end of the name and resolves quotes and
escapes; `gather` splits the marks into labels.  The step that fails at the earlier octet gives the
error.
-/

namespace Nameserver.Name

/-- Whether the names of a zone file may lack the dot at their end. -/
inductive Strictness where
  | trailingDot
  | relaxed
  deriving DecidableEq, Repr

/-! ## Marks -/

/-- What an octet or an escape of a name's text means. -/
inductive Mark where
  | dot
  | octet (o : UInt8)
  deriving DecidableEq, Repr

/-- Whether an octet may stand in a name that is not quoted. -/
def canStandUnquoted (o : UInt8) : Bool :=
  Text.isLetter o || Text.isDigit o || o == Text.hyphen || o == Text.underscore ||
    o == Text.dot || o == Text.backslash || o == Text.asterisk

/-- The octet that the text after a backslash stands for, and the text after the escape. -/
def unescape : Text → Except NameError (UInt8 × Text)
  | [] => .error .invalidEscape
  | [a] => .ok (a, [])
  | [a, b] => .ok (a, [b])
  | a :: b :: c :: rest =>
    if Text.isDigit a && Text.isDigit b && Text.isDigit c then
      if Text.value [a, b, c] ≤ 255 then .ok (UInt8.ofNat (Text.value [a, b, c]), rest)
      else .error .invalidEscape
    else .ok (a, b :: c :: rest)

theorem length_lt_of_unescape {t rest : Text} {o : UInt8} (h : unescape t = .ok (o, rest)) :
    rest.length < t.length := by
  match t with
  | [] => simp [unescape] at h
  | [a] | [a, b] =>
    simp only [unescape, Except.ok.injEq, Prod.mk.injEq] at h
    simp [← h.2]
  | a :: b :: c :: t =>
    simp only [unescape] at h
    split at h
    · split at h
      · simp only [Except.ok.injEq, Prod.mk.injEq] at h
        simp only [← h.2, List.length_cons]
        omega
      · cases h
    · simp only [Except.ok.injEq, Prod.mk.injEq] at h
      simp [← h.2]

/-- The marks of the name that the text starts with, after the opening quote if there is one, up to
the name's end or to the first octet that cannot be read.  The second part is the text after the
name, or what is wrong with that octet. -/
def marks (quoted : Bool) : Text → List Mark × Except NameError Text
  | [] => ([], if quoted then .error .unexpectedEnd else .ok [])
  | o :: rest =>
    if !quoted && Text.isSpace o then ([], .ok (o :: rest))
    else if o == Text.dot then
      let (marks, ending) := marks quoted rest
      (.dot :: marks, ending)
    else if o == Text.backslash then
      match _h : unescape rest with
      | .error e => ([], .error e)
      | .ok (escaped, after) =>
        let (marks, ending) := marks quoted after
        (.octet escaped :: marks, ending)
    else if quoted && o == Text.quote then ([], .ok rest)
    else if !quoted && !canStandUnquoted o then ([], .error .needsQuotes)
    else
      let (marks, ending) := marks quoted rest
      (.octet o :: marks, ending)
termination_by t => t.length
decreasing_by
  · simp
  · have := length_lt_of_unescape _h
    simp only [List.length_cons]
    omega
  · simp

/-! ## Labels -/

/-- Labels that have ended, the last one first, and the octets so far of the one that has not. -/
structure Gathered where
  ended : List Octets := []
  current : Octets := []
  deriving DecidableEq, Repr

namespace Gathered

/-- Whether the text so far starts with a dot, which makes it the root. -/
def isRoot (g : Gathered) : Bool := g.ended.head?.any List.isEmpty

/-- Adds a mark.  A label without octets is allowed only as the first and last one, which is the
root. -/
def add (g : Gathered) : Mark → Except NameError Gathered
  | .dot =>
    if g.isRoot || (g.current.isEmpty && !g.ended.isEmpty) then .error .emptyLabel
    else if g.ended.length ≥ 255 then .error .tooManyLabels
    else .ok ⟨g.current :: g.ended, []⟩
  | .octet o =>
    if g.current.length ≥ 63 then .error .labelTooLong
    else .ok { g with current := g.current ++ [o] }

/-- Ends the text: the octets of the name's labels with the null label at the end.  Octets after the
last dot are a label if the dot at the end may be missing. -/
def finish (strictness : Strictness) (g : Gathered) : Except NameError (List Octets) :=
  if !g.current.isEmpty then
    if strictness = .trailingDot then .error .missingTrailingDot
    else if g.isRoot then .error .emptyLabel
    else .ok ((g.current :: g.ended).reverse ++ [[]])
  else if g.ended.isEmpty then .error .emptyName
  else if g.isRoot then .ok [[]]
  else .ok (g.ended.reverse ++ [[]])

end Gathered

/-- The labels that marks make up. -/
def gather (marks : List Mark) : Except NameError Gathered :=
  marks.foldlM Gathered.add {}

/-! ## Reading -/

/-- The name that the text starts with, and the text after it. -/
def read (strictness : Strictness) (t : Text) : Except NameError (Name × Text) := do
  let quoted := t.head? == some Text.quote
  let (marks, ending) := marks quoted (if quoted then t.tail else t)
  let gathered ← gather marks
  let rest ← ending
  let name ← ofOctets (← gathered.finish strictness)
  return (name, rest)

def ofText (t : Text) : Except NameError Name := do
  let (name, rest) ← read .trailingDot t
  if rest.isEmpty then return name else throw .extraData

def ofString (s : String) : Except NameError Name := ofText (Text.ofString s)

/-! ## Printing -/

/-- The text of a name, in quotes if it needs them. -/
def text (n : Name) : Text :=
  let body := if n.isRoot then [Text.dot] else n.labels.flatMap fun l => l.text ++ [Text.dot]
  if body.all canStandUnquoted then body else Text.quote :: body ++ [Text.quote]

end Nameserver.Name

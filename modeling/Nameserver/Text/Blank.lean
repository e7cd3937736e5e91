import Nameserver.Text.Basic
/-!
# Blank space at the ends of a text

The characters with the Unicode property `White_Space` count as blank at the ends of a line and of
its parts, while a field inside a line ends only at an ASCII blank.
-/

namespace Nameserver.Text

/-- The characters with the property `White_Space`. -/
def blankCharacters : List Char :=
  ['\u0009', '\u000a', '\u000b', '\u000c', '\u000d', '\u0020', '\u0085', '\u00a0', '\u1680',
    '\u2000', '\u2001', '\u2002', '\u2003', '\u2004', '\u2005', '\u2006', '\u2007', '\u2008',
    '\u2009', '\u200a', '\u2028', '\u2029', '\u202f', '\u205f', '\u3000']

/-- The octets of each blank character. -/
def blanks : List Text := blankCharacters.map String.utf8EncodeChar

/-- Takes texts out of `units` off the front as long as there is one. -/
def strip (units : List Text) : Text → Text
  | [] => []
  | o :: rest =>
    match units.find? (·.isPrefixOf (o :: rest)) with
    | none => o :: rest
    | some u => strip units (rest.drop (u.length - 1))
termination_by t => t.length
decreasing_by
  simp only [List.length_drop, List.length_cons]
  omega

def trimStart (t : Text) : Text := strip blanks t

def trimEnd (t : Text) : Text := (strip (blanks.map List.reverse) t.reverse).reverse

def trim (t : Text) : Text := trimEnd (trimStart t)

def startsWithSpace (t : Text) : Bool := t.head?.any isSpace

/-- The next field of a line, which ends before an ASCII blank, and the text after it; blanks before
the field are passed over. -/
def nextField? (t : Text) : Option (Text × Text) :=
  let t := trimStart t
  if t.isEmpty then none
  else some (t.takeWhile fun o => !isSpace o, t.dropWhile fun o => !isSpace o)

end Nameserver.Text

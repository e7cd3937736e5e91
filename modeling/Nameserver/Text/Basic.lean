import Nameserver.Octets.Reader
/-!
# Text

Text is handled as its UTF-8 octets: the zone-file syntax is defined on octets, and every mark it
gives a meaning to is ASCII.  This module has the marks, letter case, and numbers in text.
-/

namespace Nameserver

abbrev Text := Octets

namespace Text

def ofString (s : String) : Text := s.toUTF8.data.toList

/-- The string that the octets encode, if they are valid UTF-8. -/
def toString? (t : Text) : Option String := String.fromUTF8? ⟨t.toArray⟩

/-- The string whose characters have the octets' values.  For ASCII text it is the string encoded. -/
def toAscii (t : Text) : String := String.ofList (t.map fun o => Char.ofNat o.toNat)

/-! ## Marks -/

@[match_pattern] abbrev lineFeed : UInt8 := 0x0a
@[match_pattern] abbrev carriageReturn : UInt8 := 0x0d
@[match_pattern] abbrev space : UInt8 := 0x20
@[match_pattern] abbrev quote : UInt8 := 0x22
@[match_pattern] abbrev asterisk : UInt8 := 0x2a
@[match_pattern] abbrev plus : UInt8 := 0x2b
@[match_pattern] abbrev hyphen : UInt8 := 0x2d
@[match_pattern] abbrev dot : UInt8 := 0x2e
@[match_pattern] abbrev semicolon : UInt8 := 0x3b
@[match_pattern] abbrev backslash : UInt8 := 0x5c
@[match_pattern] abbrev underscore : UInt8 := 0x5f

/-! ## Classes of octets -/

def isDigit (o : UInt8) : Bool := 0x30 ≤ o && o ≤ 0x39

def isLetter (o : UInt8) : Bool := (0x41 ≤ o && o ≤ 0x5a) || (0x61 ≤ o && o ≤ 0x7a)

/-- The ASCII characters that leave a mark or a blank on paper: no control character is among
them. -/
def isPrintable (o : UInt8) : Bool := 0x20 ≤ o && o ≤ 0x7e

/-- The ASCII blanks: space, tab, line feed, form feed and carriage return. -/
def isSpace (o : UInt8) : Bool := o == 0x20 || o == 0x09 || o == 0x0a || o == 0x0c || o == 0x0d

/-- An ASCII capital letter in its small form; any other octet as it is. -/
def lower (o : UInt8) : UInt8 := if 0x41 ≤ o && o ≤ 0x5a then o + 0x20 else o

/-- Equality of texts in which a capital ASCII letter equals its small form. -/
def sameIgnoringCase (s t : Text) : Bool := s.map lower == t.map lower

/-- What follows `word` in the text, if the text starts with it in some letter case. -/
def after? (word t : Text) : Option Text :=
  if sameIgnoringCase word (t.take word.length) then some (t.drop word.length) else none

/-! ## Pieces -/

def consFirst (o : UInt8) : List Text → List Text
  | [] => [[o]]
  | piece :: pieces => (o :: piece) :: pieces

/-- The pieces between the places where `mark` stands. -/
def split (mark : UInt8) : Text → List Text
  | [] => [[]]
  | o :: rest => if o == mark then [] :: split mark rest else consFirst o (split mark rest)

def join (mark : UInt8) : List Text → Text
  | [] => []
  | [t] => t
  | t :: others => t ++ mark :: join mark others

/-! ## Numbers -/

def digit (n : Nat) : UInt8 := UInt8.ofNat (0x30 + n % 10)

/-- The decimal digits of a number, without leading zeros. -/
def decimal (n : Nat) : Text :=
  if n < 10 then [digit n] else decimal (n / 10) ++ [digit n]
termination_by n
decreasing_by omega

/-- The number that decimal digits write. -/
def value (digits : Text) : Nat :=
  digits.foldl (fun v d => v * 10 + (d.toNat - 0x30)) 0

/-- The number that the text writes in one or more decimal digits, if it is at most `limit`.
Leading zeros do not count. -/
def number? (limit : Nat) (t : Text) : Option Nat :=
  if !t.isEmpty && t.all isDigit && value t ≤ limit then some (value t) else none

/-- The number that the text writes in decimal digits, which a plus sign may precede, if it is at
most `limit`. -/
def signedNumber? (limit : Nat) : Text → Option Nat
  | plus :: digits => number? limit digits
  | digits => number? limit digits

/-- The digit that writes `n % 16`, in small letters. -/
def hexDigit (n : Nat) : UInt8 :=
  if n % 16 < 10 then UInt8.ofNat (0x30 + n % 16) else UInt8.ofNat (0x57 + n % 16)

def hex (octets : Octets) : Text :=
  octets.flatMap fun o => [hexDigit (o.toNat / 16), hexDigit o.toNat]

/-- One more digit at the end is ten times the value and the digit. -/
theorem value_append_digit (digits : Text) (n : Nat) :
    value (digits ++ [digit n]) = value digits * 10 + n % 10 := by
  have hdigit : (digit n).toNat - 0x30 = n % 10 := by
    simp only [digit, UInt8.toNat_ofNat']
    omega
  simp only [value, List.foldl_append, List.foldl_cons, List.foldl_nil, hdigit]

/-- The decimal digits of a number have its value. -/
theorem value_decimal (n : Nat) : value (decimal n) = n := by
  fun_induction decimal n with
  | case1 n h =>
    rw [← List.nil_append [digit n], value_append_digit]
    simp only [value, List.foldl_nil]
    omega
  | case2 n h ih =>
    rw [value_append_digit, ih]
    omega

theorem isDigit_of_mem_decimal {n : Nat} : ∀ o ∈ decimal n, isDigit o = true := by
  have hdigit : ∀ k : Nat, isDigit (digit k) = true := by
    intro k
    have hlt : k % 10 < 10 := Nat.mod_lt _ (by decide)
    unfold digit
    generalize k % 10 = r at hlt
    match r, hlt with
    | 0, _ | 1, _ | 2, _ | 3, _ | 4, _ | 5, _ | 6, _ | 7, _ | 8, _ | 9, _ => decide
  fun_induction decimal n with
  | case1 n _ => simp [hdigit]
  | case2 n _ ih =>
    intro o ho
    rcases List.mem_append.1 ho with h | h
    · exact ih o h
    · rw [List.mem_singleton.1 h]
      exact hdigit n

end Text

end Nameserver

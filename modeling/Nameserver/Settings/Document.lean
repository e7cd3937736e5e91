/-!
# Settings documents

A settings file is a TOML document of keys with strings and booleans.  Settings have no other
values, tables or dotted keys, so a document with any of these is rejected like one that is not well
formed.
-/

namespace Nameserver.Settings

inductive Value where
  | string (text : String)
  | boolean (isTrue : Bool)
  deriving DecidableEq, Repr

namespace Document

/-! ## Characters -/

/-- The text with each carriage return before a line feed left out. -/
def foldLineEnds : List Char → List Char
  | '\r' :: '\n' :: rest => '\n' :: foldLineEnds rest
  | c :: rest => c :: foldLineEnds rest
  | [] => []

def isBlank (c : Char) : Bool := c == ' ' || c == '\t'

/-- Whether a character may stand in a key without quotes. -/
def isKeyCharacter (c : Char) : Bool := c.isAlphanum || c == '-' || c == '_'

/-- Whether a character may stand for itself in a string. -/
def isPlain (c : Char) : Bool := c == '\t' || (' ' ≤ c && c != '\u007f')

/-- Whether a character may stand in a comment. -/
def isCommentCharacter (c : Char) : Bool := c == '\t' || ' ' ≤ c

/-! ## Strings -/

def hexValue? (c : Char) : Option Nat :=
  if c.isDigit then some (c.toNat - '0'.toNat)
  else if 'a' ≤ c && c ≤ 'f' then some (c.toNat - 'a'.toNat + 10)
  else if 'A' ≤ c && c ≤ 'F' then some (c.toNat - 'A'.toNat + 10)
  else none

/-- The character whose code point some hexadecimal digits give. -/
def codePoint? (digits : List Char) : Option Char := do
  let values ← digits.mapM hexValue?
  let n := values.foldl (fun v d => v * 16 + d) 0
  if h : n.isValidChar then some (Char.ofNatAux n h) else none

/-- What an escape of one character stands for. -/
def simpleEscape? (c : Char) : Option Char :=
  match c with
  | '"' => some '"'
  | '\\' => some '\\'
  | 'b' => some '\u0008'
  | 'f' => some '\u000c'
  | 'n' => some '\n'
  | 'r' => some '\r'
  | 't' => some '\t'
  | _ => none

/-- What is left after a backslash at the end of a line of a long string: the blanks and line ends
that follow are left out.  Between the backslash and the line end there are blanks only. -/
def afterLineEscape? (cs : List Char) : Option (List Char) :=
  match cs.dropWhile isBlank with
  | '\n' :: rest => some (rest.dropWhile fun c => isBlank c || c == '\n')
  | [] => some []
  | _ => none

/-- Takes the hexadecimal digits of a code point. -/
def readCodePoint? (count : Nat) (cs : List Char) : Option (List Char × List Char) :=
  if (cs.take count).length = count then
    (codePoint? (cs.take count)).map fun character => ([character], cs.drop count)
  else none

/-- Takes an escape of a string between double quotes: the characters it stands for, and the rest.
Only a long string may escape line ends. -/
def readEscape? (long : Bool) : List Char → Option (List Char × List Char)
  | [] => none
  | c :: rest =>
    match simpleEscape? c with
    | some character => some ([character], rest)
    | none =>
      if c == 'u' then readCodePoint? 4 rest
      else if c == 'U' then readCodePoint? 8 rest
      else if long && (isBlank c || c == '\n') then
        (afterLineEscape? (c :: rest)).map fun after => ([], after)
      else none

/-- What is skipped behind an escaped end of line is not put back. -/
theorem length_le_of_afterLineEscape? {cs rest : List Char} (h : afterLineEscape? cs = some rest) :
    rest.length ≤ cs.length := by
  have hdrop : (cs.dropWhile isBlank).length ≤ cs.length :=
    (List.dropWhile_suffix _).length_le
  unfold afterLineEscape? at h
  split at h
  · next after heq =>
    have hafter : (after.dropWhile fun c => isBlank c || c == '\n').length ≤ after.length :=
      (List.dropWhile_suffix _).length_le
    rw [heq] at hdrop
    cases h
    simp only [List.length_cons] at hdrop
    omega
  · cases h
    simp
  · cases h

theorem length_le_of_readCodePoint? {count : Nat} {cs characters rest : List Char}
    (h : readCodePoint? count cs = some (characters, rest)) : rest.length ≤ cs.length := by
  unfold readCodePoint? at h
  split at h
  · obtain ⟨_, _, hpair⟩ := Option.map_eq_some_iff.1 h
    cases hpair
    simp
  · cases h

/-- Reading an escape leaves a text that is no longer than the one it started from. -/
theorem length_le_of_readEscape? {long : Bool} {cs characters rest : List Char}
    (h : readEscape? long cs = some (characters, rest)) : rest.length ≤ cs.length := by
  cases cs with
  | nil => simp [readEscape?] at h
  | cons c cs =>
    simp only [readEscape?] at h
    split at h
    · cases h
      simp
    · split at h
      · exact Nat.le_succ_of_le (length_le_of_readCodePoint? h)
      · split at h
        · exact Nat.le_succ_of_le (length_le_of_readCodePoint? h)
        · split at h
          · obtain ⟨_, hafter, hpair⟩ := Option.map_eq_some_iff.1 h
            cases hpair
            exact length_le_of_afterLineEscape? hafter
          · cases h

/-- Takes the rest of a string on one line, up to the closing quote. -/
def readShort? (quote : Char) : List Char → Option (List Char × List Char)
  | [] => none
  | c :: rest =>
    if c == quote then some ([], rest)
    else if quote == '"' && c == '\\' then
      match _h : readEscape? false rest with
      | none => none
      | some (characters, after) =>
        (readShort? quote after).map fun (others, rest) => (characters ++ others, rest)
    else if isPlain c then
      (readShort? quote rest).map fun (others, rest) => (c :: others, rest)
    else none
termination_by cs => cs.length
decreasing_by
  · have := length_le_of_readEscape? _h
    simp only [List.length_cons]
    omega
  · simp

/-- Takes the rest of a long string, up to three closing quotes.  Up to two quotes right before these
belong to the string. -/
def readLong? (quote : Char) : List Char → Option (List Char × List Char)
  | [] => none
  | c :: rest =>
    if c == quote && (rest.take 2) == [quote, quote] then
      let extra := ((rest.drop 2).take 2).takeWhile (· == quote)
      some (extra, rest.drop (2 + extra.length))
    else if quote == '"' && c == '\\' then
      match _h : readEscape? true rest with
      | none => none
      | some (characters, after) =>
        (readLong? quote after).map fun (others, rest) => (characters ++ others, rest)
    else if c == quote || c == '\n' || isPlain c then
      (readLong? quote rest).map fun (others, rest) => (c :: others, rest)
    else none
termination_by cs => cs.length
decreasing_by
  · have := length_le_of_readEscape? _h
    simp only [List.length_cons]
    omega
  · simp

/-- Takes a string after its first quote.  A line end at the front of a long string is left out. -/
def readString? (quote : Char) (cs : List Char) : Option (List Char × List Char) :=
  if cs.take 2 == [quote, quote] then
    match cs.drop 2 with
    | '\n' :: rest => readLong? quote rest
    | rest => readLong? quote rest
  else readShort? quote cs

/-! ## Lines -/

/-- Takes a key: letters, digits, hyphens and underscores, or a string on one line. -/
def readKey? : List Char → Option (String × List Char)
  | [] => none
  | c :: rest =>
    if c == '"' || c == '\'' then
      (readShort? c rest).map fun (characters, rest) => (String.ofList characters, rest)
    else
      let key := (c :: rest).takeWhile isKeyCharacter
      if key.isEmpty then none
      else some (String.ofList key, (c :: rest).dropWhile isKeyCharacter)

def readValue? : List Char → Option (Value × List Char)
  | [] => none
  | c :: rest =>
    if c == '"' || c == '\'' then
      (readString? c rest).map fun (characters, rest) => (.string (String.ofList characters), rest)
    else
      let word := (c :: rest).takeWhile isKeyCharacter
      let rest := (c :: rest).dropWhile isKeyCharacter
      if word == ['t', 'r', 'u', 'e'] then some (.boolean true, rest)
      else if word == ['f', 'a', 'l', 's', 'e'] then some (.boolean false, rest)
      else none

/-- Takes the end of a line: blanks, a comment if there is one, and the line end or the end of the
text. -/
def readLineEnd? (cs : List Char) : Option (List Char) :=
  let rest :=
    match cs.dropWhile isBlank with
    | '#' :: comment => comment.dropWhile isCommentCharacter
    | rest => rest
  match rest with
  | [] => some []
  | '\n' :: rest => some rest
  | _ => none

def readEntry? (cs : List Char) : Option ((String × Value) × List Char) := do
  let (key, rest) ← readKey? cs
  match rest.dropWhile isBlank with
  | '=' :: rest =>
    let (value, rest) ← readValue? (rest.dropWhile isBlank)
    let rest ← readLineEnd? rest
    return ((key, value), rest)
  | _ => none

/-- The entries of a document in order.  Each line takes at least one character, so `fuel` is enough
if the text is shorter. -/
def readEntries? : (fuel : Nat) → List Char → Option (List (String × Value))
  | 0, _ => none
  | fuel + 1, cs =>
    match readLineEnd? cs with
    | some [] => some []
    | some rest => readEntries? fuel rest
    | none => do
      let (entry, rest) ← readEntry? (cs.dropWhile isBlank)
      let entries ← readEntries? fuel rest
      return entry :: entries

/-- The entries of a document, unless it is not well formed.  A byte order mark at its front does not
count. -/
def read? (text : String) : Option (List (String × Value)) :=
  let cs :=
    match text.toList with
    | '\ufeff' :: rest => rest
    | cs => cs
  readEntries? (cs.length + 1) (foldLineEnds cs)

end Document

end Nameserver.Settings

/-!
# Network addresses

The text of addresses: four decimal numbers for IPv4, eight hexadecimal groups for IPv6 in which
`::` stands for groups of zeros and the last two groups may be an IPv4 address, and a port behind
either.
-/

namespace Nameserver

inductive IpAddress where
  | v4 (a b c d : UInt8)
  | v6 (groups : Vector UInt16 8)
  deriving DecidableEq, Repr

/-- An address of a host with a port.  An IPv6 address may belong to a scope, zero being none. -/
structure SocketAddress where
  ip : IpAddress
  port : UInt16
  scope : UInt32 := 0
  deriving DecidableEq, Repr

/-! ## Reading -/

namespace Address

/-- The value of digits in some base. -/
def valueOf (base : Nat) (digits : List Char) : Nat :=
  digits.foldl
    (fun v c =>
      v * base +
        (if c.isDigit then c.toNat - '0'.toNat else c.toLower.toNat - 'a'.toNat + 10)) 0

def isHexDigit (c : Char) : Bool :=
  c.isDigit || ('a' ≤ c && c ≤ 'f') || ('A' ≤ c && c ≤ 'F')

/-- Takes a decimal number up to `limit`. -/
def readDecimal? (limit : Nat) (cs : List Char) : Option (Nat × List Char) :=
  let digits := cs.takeWhile Char.isDigit
  if !digits.isEmpty && valueOf 10 digits ≤ limit then
    some (valueOf 10 digits, cs.dropWhile Char.isDigit)
  else none

def readChar? (expected : Char) : List Char → Option (List Char)
  | c :: rest => if c == expected then some rest else none
  | [] => none

/-- Takes one of the four numbers of an IPv4 address, which has no leading zeros. -/
def readPart? (cs : List Char) : Option (UInt8 × List Char) := do
  let (n, rest) ← readDecimal? 255 cs
  if cs.head? == some '0' && (cs.takeWhile Char.isDigit).length > 1 then none
  else if (cs.takeWhile Char.isDigit).length > 3 then none
  else some (UInt8.ofNat n, rest)

def readV4? (cs : List Char) : Option ((UInt8 × UInt8 × UInt8 × UInt8) × List Char) := do
  let (a, cs) ← readPart? cs
  let cs ← readChar? '.' cs
  let (b, cs) ← readPart? cs
  let cs ← readChar? '.' cs
  let (c, cs) ← readPart? cs
  let cs ← readChar? '.' cs
  let (d, cs) ← readPart? cs
  return ((a, b, c, d), cs)

/-- Takes a group of one to four hexadecimal digits. -/
def readGroup? (cs : List Char) : Option (UInt16 × List Char) :=
  let digits := cs.takeWhile isHexDigit
  if !digits.isEmpty && digits.length ≤ 4 then
    some (UInt16.ofNat (valueOf 16 digits), cs.dropWhile isHexDigit)
  else none

/-- Takes up to `limit` groups with colons between them.  An IPv4 address counts as two groups and
is the last; the second part says whether there was one. -/
def readGroups (first : Bool) : Nat → List Char → List UInt16 × Bool × List Char
  | 0, cs => ([], false, cs)
  | limit + 1, cs =>
    let start? := if first then some cs else readChar? ':' cs
    match if limit ≥ 1 then start?.bind readV4? else none with
    | some ((a, b, c, d), rest) =>
      ([UInt16.ofNat (a.toNat * 256 + b.toNat), UInt16.ofNat (c.toNat * 256 + d.toNat)], true, rest)
    | none =>
      match start?.bind readGroup? with
      | some (group, rest) =>
        let (groups, endsInV4, rest) := readGroups false limit rest
        (group :: groups, endsInV4, rest)
      | none => ([], false, cs)

/-- The IPv6 address with groups at its two ends and zeros between them. -/
def ofEnds (front back : List UInt16) : IpAddress :=
  .v6 (Vector.ofFn fun i =>
    ((front ++ List.replicate (8 - front.length - back.length) 0 ++ back)[i.val]?).getD 0)

def readV6? (cs : List Char) : Option (IpAddress × List Char) :=
  let (front, endsInV4, rest) := readGroups true 8 cs
  if front.length = 8 then some (ofEnds front [], rest)
  else if endsInV4 then none
  else do
    let rest ← readChar? ':' rest
    let rest ← readChar? ':' rest
    let (back, _, rest) := readGroups true (7 - front.length) rest
    return (ofEnds front back, rest)

def readPort? (cs : List Char) : Option (UInt16 × List Char) := do
  let cs ← readChar? ':' cs
  let (port, cs) ← readDecimal? 65535 cs
  return (UInt16.ofNat port, cs)

/-- Takes a percent sign and a scope, if the text goes on with them. -/
def readScope (cs : List Char) : UInt32 × List Char :=
  match (readChar? '%' cs).bind (readDecimal? 4294967295) with
  | some (scope, rest) => (UInt32.ofNat scope, rest)
  | none => (0, cs)

end Address

open Address

def IpAddress.ofString? (s : String) : Option IpAddress :=
  match readV4? s.toList with
  | some ((a, b, c, d), rest) => if rest.isEmpty then some (.v4 a b c d) else none
  | none =>
    match readV6? s.toList with
    | some (ip, []) => some ip
    | _ => none

def SocketAddress.readV4? (cs : List Char) : Option (SocketAddress × List Char) := do
  let ((a, b, c, d), cs) ← Address.readV4? cs
  let (port, cs) ← readPort? cs
  return ({ ip := .v4 a b c d, port }, cs)

/-- Takes an IPv6 address in brackets with a port. -/
def SocketAddress.readV6? (cs : List Char) : Option (SocketAddress × List Char) := do
  let cs ← readChar? '[' cs
  let (ip, cs) ← Address.readV6? cs
  let (scope, cs) := readScope cs
  let cs ← readChar? ']' cs
  let (port, cs) ← readPort? cs
  return ({ ip, port, scope }, cs)

def SocketAddress.ofString? (s : String) : Option SocketAddress :=
  match (SocketAddress.readV4? s.toList).or (SocketAddress.readV6? s.toList) with
  | some (address, []) => some address
  | _ => none

/-! ## Printing -/

namespace Address

def hexText (n : UInt16) : String := String.ofList (Nat.toDigits 16 n.toNat)

def groupsText (groups : List UInt16) : String := ":".intercalate (groups.map hexText)

/-- How many zeros the groups start with. -/
def zerosAtFront (groups : List UInt16) : Nat := (groups.takeWhile (· == 0)).length

/-- Where the first of the longest runs of zeros starts, and its length. -/
def longestZeros (groups : List UInt16) : Nat × Nat :=
  (List.range groups.length).foldl
    (fun best start =>
      let length := zerosAtFront (groups.drop start)
      if length > best.2 then (start, length) else best)
    (0, 0)

def v4Text (a b c d : Nat) : String :=
  ".".intercalate [toString a, toString b, toString c, toString d]

/-- The text of eight groups: the longest run of at least two zeros is left out, and an IPv4 address
behind `::ffff:` stands in its own form. -/
def v6Text (groups : List UInt16) : String :=
  match groups with
  | [0, 0, 0, 0, 0, 0xffff, g, h] =>
    "::ffff:" ++ v4Text (g.toNat / 256) (g.toNat % 256) (h.toNat / 256) (h.toNat % 256)
  | groups =>
    let (start, length) := longestZeros groups
    if length > 1 then
      groupsText (groups.take start) ++ "::" ++ groupsText (groups.drop (start + length))
    else groupsText groups

end Address

def IpAddress.text : IpAddress → String
  | .v4 a b c d => v4Text a.toNat b.toNat c.toNat d.toNat
  | .v6 groups => v6Text groups.toList

def SocketAddress.text (address : SocketAddress) : String :=
  match address.ip with
  | .v4 .. => address.ip.text ++ ":" ++ toString address.port
  | .v6 _ =>
    let scope := if address.scope == 0 then "" else "%" ++ toString address.scope
    "[" ++ address.ip.text ++ scope ++ "]:" ++ toString address.port

end Nameserver

/-!
# Reading octets

A reader takes a value off the front of the octets that are left and hands on the rest.  A reader
that fails hands on nothing, so whoever ran it still holds what there was before: a reader takes all
of its value or none of it.  `Cursor` counts how far reading has come in a buffer.
-/

namespace Nameserver

/-- A string of octets. -/
abbrev Octets := List UInt8

/-- The error of a buffer that has too few octets left. -/
inductive Truncated where
  | truncated
  deriving DecidableEq, Repr

def Truncated.message : Truncated → String
  | .truncated => "not enough room in the buffer"

/-! ## Numbers, most significant octet first -/

def Octets.toUInt16 (a b : UInt8) : UInt16 :=
  UInt16.ofNat (a.toNat * 256 + b.toNat)

def Octets.toUInt32 (a b c d : UInt8) : UInt32 :=
  UInt32.ofNat (((a.toNat * 256 + b.toNat) * 256 + c.toNat) * 256 + d.toNat)

def Octets.ofUInt16 (v : UInt16) : Octets :=
  [UInt8.ofNat (v.toNat / 256), UInt8.ofNat v.toNat]

def Octets.ofUInt32 (v : UInt32) : Octets :=
  [UInt8.ofNat (v.toNat / 16777216), UInt8.ofNat (v.toNat / 65536),
    UInt8.ofNat (v.toNat / 256), UInt8.ofNat v.toNat]

@[simp] theorem Octets.length_ofUInt16 (v : UInt16) : (Octets.ofUInt16 v).length = 2 := rfl

@[simp] theorem Octets.length_ofUInt32 (v : UInt32) : (Octets.ofUInt32 v).length = 4 := rfl

theorem Octets.toUInt16_ofUInt16 (v : UInt16) :
    Octets.toUInt16 (UInt8.ofNat (v.toNat / 256)) (UInt8.ofNat v.toNat) = v := by
  apply UInt16.toNat_inj.1
  have hv := v.toNat_lt
  simp only [Octets.toUInt16, UInt16.toNat_ofNat', UInt8.toNat_ofNat']
  omega

theorem Octets.toUInt32_ofUInt32 (v : UInt32) :
    Octets.toUInt32 (UInt8.ofNat (v.toNat / 16777216)) (UInt8.ofNat (v.toNat / 65536))
      (UInt8.ofNat (v.toNat / 256)) (UInt8.ofNat v.toNat) = v := by
  apply UInt32.toNat_inj.1
  have hv := v.toNat_lt
  simp only [Octets.toUInt32, UInt32.toNat_ofNat', UInt8.toNat_ofNat']
  omega

/-! ## Readers -/

/-- A reader of an `α` that may fail with an `ε`. -/
abbrev Reader (ε : Type) := StateT Octets (Except ε)

namespace Reader

variable {ε ε' α : Type}

def octet : Reader Truncated UInt8
  | [] => .error .truncated
  | o :: rest => .ok (o, rest)

def octets (n : Nat) : Reader Truncated Octets := fun input =>
  let taken := input.take n
  if taken.length = n then .ok (taken, input.drop n) else .error .truncated

def uint16 : Reader Truncated UInt16
  | a :: b :: rest => .ok (Octets.toUInt16 a b, rest)
  | _ => .error .truncated

def uint32 : Reader Truncated UInt32
  | a :: b :: c :: d :: rest => .ok (Octets.toUInt32 a b c d, rest)
  | _ => .error .truncated

/-- Takes a string that follows its length in one octet. -/
def string8 : Reader Truncated Octets := do
  octets (← octet).toNat

/-- Takes a string that follows its length in two octets. -/
def string16 : Reader Truncated Octets := do
  octets (← uint16).toNat

/-- The same reader, with `e` for each of its failures. -/
def failingWith (e : ε') (r : Reader ε α) : Reader ε' α := fun input =>
  match r input with
  | .ok result => .ok result
  | .error _ => .error e

/-- The same reader, with its failure renamed by `f`. -/
def mapError (f : ε → ε') (r : Reader ε α) : Reader ε' α := fun input =>
  match r input with
  | .ok result => .ok result
  | .error e => .error (f e)

/-- Runs a reader `n` times, for the list of what it takes. -/
def count (r : Reader ε α) : Nat → Reader ε (List α)
  | 0 => pure []
  | n + 1 => do
    let first ← r
    let others ← count r n
    return first :: others

/-- Octets are taken just from an input that starts with as many. -/
theorem octets_eq_ok_iff {n : Nat} {input taken rest : Octets} :
    octets n input = .ok (taken, rest) ↔ taken.length = n ∧ input = taken ++ rest := by
  simp only [octets]
  constructor
  · intro h
    split at h
    · next hlen =>
      cases h
      exact ⟨hlen, (List.take_append_drop n input).symm⟩
    · cases h
  · rintro ⟨rfl, rfl⟩
    simp

/-- A number is read from the octets it is written in, whatever follows them. -/
theorem uint16_ofUInt16 (v : UInt16) (rest : Octets) :
    uint16 (Octets.ofUInt16 v ++ rest) = .ok (v, rest) := by
  simp only [Octets.ofUInt16, List.cons_append, List.nil_append, uint16, Octets.toUInt16_ofUInt16]

theorem uint32_ofUInt32 (v : UInt32) (rest : Octets) :
    uint32 (Octets.ofUInt32 v ++ rest) = .ok (v, rest) := by
  simp only [Octets.ofUInt32, List.cons_append, List.nil_append, uint32, Octets.toUInt32_ofUInt32]

end Reader

/-! ## Cursors -/

/-- A place in a buffer: how many octets lie before it, and the octets after it. -/
structure Cursor where
  position : Nat
  rest : Octets
  deriving DecidableEq, Repr

namespace Cursor

variable {ε α : Type}

/-- The place `offset` octets into a buffer, or its end if the buffer is shorter. -/
def ofBuffer (buffer : Octets) (offset : Nat) : Cursor :=
  ⟨min offset buffer.length, buffer.drop offset⟩

/-- Runs a reader here.  The cursor moves past what was taken, and stays where it was on failure. -/
def read (r : Reader ε α) (c : Cursor) : Except ε α × Cursor :=
  match r c.rest with
  | .ok (value, rest) => (.ok value, ⟨c.position + (c.rest.length - rest.length), rest⟩)
  | .error e => (.error e, c)

def remaining (c : Cursor) : Nat := c.rest.length

end Cursor

end Nameserver

import Nameserver.Proofs.Octets.Reader
/-!
# Readers that check every access

A checked reader works on a buffer and a position in it.  It reaches for octets by their indices and
counts with numbers up to a limit, and every index, slice, sum and difference is checked.  What a
check does not allow is a fault, which is an error of the program and not of its input.  A checked
reader that implements a reader does what that reader does, and never with a fault.
-/

namespace Nameserver

/-- What a program must never do. -/
inductive Fault where
  | outOfBounds
  | overflow
  | underflow
  /-- A loop goes on without having got any further. -/
  | stuck
  /-- Labels are taken for a name that they do not make. -/
  | brokenName
  deriving DecidableEq, Repr

/-! ## 1. Checked steps -/

namespace Checked

/-- Adds numbers of a machine that counts up to `limit`. -/
def add (limit a b : Nat) : Except Fault Nat :=
  if a + b ≤ limit then .ok (a + b) else .error .overflow

def sub (a b : Nat) : Except Fault Nat := if b ≤ a then .ok (a - b) else .error .underflow

def index (buffer : Octets) (i : Nat) : Except Fault UInt8 :=
  match buffer[i]? with
  | some o => .ok o
  | none => .error .outOfBounds

def slice (buffer : Octets) (start stop : Nat) : Except Fault Octets :=
  if start ≤ stop ∧ stop ≤ buffer.length then .ok ((buffer.take stop).drop start)
  else .error .outOfBounds

theorem add_of_le {limit a b : Nat} (h : a + b ≤ limit) : add limit a b = .ok (a + b) := if_pos h

theorem sub_of_le {a b : Nat} (h : b ≤ a) : sub a b = .ok (a - b) := if_pos h

theorem slice_of_le {buffer : Octets} {start stop : Nat} (h : start ≤ stop)
    (hstop : stop ≤ buffer.length) :
    slice buffer start stop = .ok ((buffer.take stop).drop start) := if_pos ⟨h, hstop⟩

end Checked

/-! ## 2. Checked readers -/

/-- A place in a buffer, by its index. -/
structure View where
  buffer : Octets
  position : Nat
  deriving DecidableEq, Repr

namespace View

/-- The place `offset` octets into a buffer, or its end if the buffer is shorter. -/
def ofBuffer (buffer : Octets) (offset : Nat) : View := ⟨buffer, min offset buffer.length⟩

/-- The octets that are left. -/
def rest (v : View) : Octets := v.buffer.drop v.position

/-- The place is in the buffer, and the machine can count the octets of the buffer. -/
structure Valid (limit : Nat) (v : View) : Prop where
  within : v.position ≤ v.buffer.length
  counted : v.buffer.length ≤ limit

/-- A view of a buffer that the machine can count is valid, however far into it the view is asked
for. -/
theorem valid_ofBuffer {limit : Nat} {buffer : Octets} (h : buffer.length ≤ limit) (offset : Nat) :
    (ofBuffer buffer offset).Valid limit := ⟨Nat.min_le_right _ _, h⟩

theorem rest_ofBuffer {buffer : Octets} {offset : Nat} (h : offset ≤ buffer.length) :
    (ofBuffer buffer offset).rest = buffer.drop offset := by
  rw [ofBuffer, rest, Nat.min_eq_left h]

def advance (v : View) (n : Nat) : View := ⟨v.buffer, v.position + n⟩

theorem rest_advance (v : View) (n : Nat) : (v.advance n).rest = v.rest.drop n := by
  rw [rest, rest, List.drop_drop]
  rfl

/-- Moving over octets that are there stays within the buffer. -/
theorem Valid.advance {limit n : Nat} {v : View} (h : v.Valid limit) (hn : n ≤ v.rest.length) :
    (v.advance n).Valid limit := by
  refine ⟨?_, h.counted⟩
  have hwithin := h.within
  rw [rest, List.length_drop] at hn
  show v.position + n ≤ v.buffer.length
  omega

/-- How many octets are left. -/
def remaining (v : View) : Except Fault Nat := Checked.sub v.buffer.length v.position

/-- In a valid view the octets left are counted without going below zero. -/
theorem Valid.remaining_eq {limit : Nat} {v : View} (h : v.Valid limit) :
    v.remaining = .ok v.rest.length := by
  rw [remaining, Checked.sub_of_le h.within, rest, List.length_drop]

end View

/-- A checked reader of an `α`: it has a fault, fails with an `ε`, or moves on. -/
def CheckedReader (ε α : Type) := View → Except Fault (Except ε (α × View))

namespace CheckedReader

instance {ε : Type} : Monad (CheckedReader ε) where
  pure a := fun v => .ok (.ok (a, v))
  bind c f := fun v =>
    match c v with
    | .error fault => .error fault
    | .ok (.error e) => .ok (.error e)
    | .ok (.ok (a, v')) => f a v'

variable {ε ε' α β : Type}

def fail (e : ε) : CheckedReader ε α := fun _ => .ok (.error e)

/-- Where the reader is. -/
def view : CheckedReader ε View := fun v => .ok (.ok (v, v))

/-- A checked step that reads nothing. -/
def checking (x : Except Fault α) : CheckedReader ε α := fun v => x.map fun a => .ok (a, v)

/-- The same reader, with its failure renamed by `f`. -/
def mapError (f : ε → ε') (c : CheckedReader ε α) : CheckedReader ε' α := fun v =>
  (c v).map fun result => result.mapError f

/-- The same reader, with `e` for each of its failures. -/
def failingWith (e : ε') (c : CheckedReader ε α) : CheckedReader ε' α := c.mapError fun _ => e

/-- Runs a reader `n` times, for the list of what it takes. -/
def count (c : CheckedReader ε α) : Nat → CheckedReader ε (List α)
  | 0 => pure []
  | n + 1 => do
    let first ← c
    let others ← count c n
    return first :: others

/-- Takes `n` octets, if there are as many. -/
def octets (limit n : Nat) : CheckedReader Truncated Octets := fun v => do
  let left ← v.remaining
  if left < n then return .error .truncated
  let stop ← Checked.add limit v.position n
  let taken ← Checked.slice v.buffer v.position stop
  return .ok (taken, ⟨v.buffer, stop⟩)

def octet (limit : Nat) : CheckedReader Truncated UInt8 := do
  let taken ← octets limit 1
  checking (Checked.index taken 0)

def uint16 (limit : Nat) : CheckedReader Truncated UInt16 := do
  let taken ← octets limit 2
  checking do return Octets.toUInt16 (← Checked.index taken 0) (← Checked.index taken 1)

def uint32 (limit : Nat) : CheckedReader Truncated UInt32 := do
  let taken ← octets limit 4
  checking do
    return Octets.toUInt32 (← Checked.index taken 0) (← Checked.index taken 1)
      (← Checked.index taken 2) (← Checked.index taken 3)

theorem bind_of_ok {c : CheckedReader ε α} {f : α → CheckedReader ε β} {v v' : View} {a : α}
    (h : c v = .ok (.ok (a, v'))) : (c >>= f) v = f a v' := by
  show (match c v with | .error fault => _ | .ok (.error e) => _ | .ok (.ok (a, v')) => f a v') = _
  rw [h]

theorem bind_of_error {c : CheckedReader ε α} {f : α → CheckedReader ε β} {v : View} {e : ε}
    (h : c v = .ok (.error e)) : (c >>= f) v = .ok (.error e) := by
  show (match c v with | .error fault => _ | .ok (.error e) => _ | .ok (.ok (a, v')) => f a v') = _
  rw [h]

theorem failingWith_of_ok {c : CheckedReader ε α} {v : View} {p : α × View}
    (h : c v = .ok (.ok p)) (e : ε') : c.failingWith e v = .ok (.ok p) := by
  rw [failingWith, mapError, h]
  rfl

theorem failingWith_of_error {c : CheckedReader ε α} {v : View} {e : ε}
    (h : c v = .ok (.error e)) (e' : ε') : c.failingWith e' v = .ok (.error e') := by
  rw [failingWith, mapError, h]
  rfl

/-- A checked step that has no fault only hands on its value. -/
theorem checking_bind {x : Except Fault α} {a : α} (h : x = .ok a) (f : α → CheckedReader ε β)
    (v : View) : (checking x >>= f) v = f a v := by
  rw [h]
  rfl

/-! ## 3. Implementing a reader -/

/-- From a view, a checked reader comes to the same as a reader of the octets left there. -/
inductive Agrees (v : View) :
    Except ε (α × Octets) → Except Fault (Except ε (α × View)) → Prop
  | ok {a : α} {position : Nat} (forward : v.position ≤ position)
      (within : position ≤ v.buffer.length) :
      Agrees v (.ok (a, v.buffer.drop position)) (.ok (.ok (a, ⟨v.buffer, position⟩)))
  | error {e : ε} : Agrees v (.error e) (.ok (.error e))

/-- Wherever it stands, the checked reader does what the reader does. -/
def Implements (limit : Nat) (c : CheckedReader ε α) (r : Reader ε α) : Prop :=
  ∀ v : View, v.Valid limit → Agrees v (r v.rest) (c v)

variable {limit : Nat} {c : CheckedReader ε α} {r : Reader ε α}

theorem Agrees.of_forward {position : Nat} {v : View}
    {x : Except ε (α × Octets)} {y : Except Fault (Except ε (α × View))}
    (h : Agrees ⟨v.buffer, position⟩ x y) (hforward : v.position ≤ position) : Agrees v x y := by
  cases h with
  | ok forward within => exact .ok (Nat.le_trans hforward forward) within
  | error => exact .error

theorem agrees_advance {v : View} {n : Nat} (hv : v.Valid limit) (h : n ≤ v.rest.length) (a : α) :
    Agrees v (.ok (a, v.rest.drop n) : Except ε _) (.ok (.ok (a, v.advance n))) := by
  rw [← View.rest_advance]
  exact .ok (Nat.le_add_right _ _) (hv.advance h).within

theorem implements_pure (a : α) : Implements limit (pure a : CheckedReader ε α) (pure a) :=
  fun _ hv => .ok (Nat.le_refl _) hv.within

/-- Readers that are implemented one by one are implemented in sequence. -/
theorem Implements.bind {f : α → CheckedReader ε β} {g : α → Reader ε β}
    (hc : Implements limit c r) (hf : ∀ a, Implements limit (f a) (g a)) :
    Implements limit (c >>= f) (r >>= g) := by
  intro v hv
  have h := hc v hv
  show Agrees v (r v.rest >>= fun p => g p.1 p.2) ((c >>= f) v)
  generalize r v.rest = x at h
  generalize hy : c v = y at h
  cases h with
  | error =>
    rw [bind_of_error hy]
    exact .error
  | @ok a position forward within =>
    -- The second reader starts where the first one stopped.
    have hnext := hf a ⟨v.buffer, position⟩ ⟨within, hv.counted⟩
    rw [bind_of_ok hy]
    exact hnext.of_forward forward

theorem Implements.mapError (h : Implements limit c r) (f : ε → ε') :
    Implements limit (c.mapError f) (r.mapError f) := by
  intro v hv
  have h := h v hv
  unfold CheckedReader.mapError Reader.mapError
  generalize r v.rest = x at h
  generalize c v = y at h
  -- Only the name of a failure changes, so the two outcomes go on agreeing case by case.
  cases h with
  | error => exact .error
  | ok forward within => exact .ok forward within

theorem Implements.failingWith (h : Implements limit c r) (e : ε') :
    Implements limit (c.failingWith e) (r.failingWith e) := h.mapError fun _ => e

theorem Implements.count (h : Implements limit c r) (n : Nat) :
    Implements limit (c.count n) (r.count n) := by
  induction n with
  | zero => exact implements_pure []
  | succ n ih => exact h.bind fun first => ih.bind fun others => implements_pure (first :: others)

/-! ## 4. Octets and numbers -/

/-- Octets that are there are taken without a fault: the sum is within the buffer, and so is the
slice. -/
theorem octets_of_le {v : View} {n : Nat} (hv : v.Valid limit) (h : n ≤ v.rest.length) :
    octets limit n v = .ok (.ok (v.rest.take n, v.advance n)) := by
  have hstop : v.position + n ≤ v.buffer.length := (hv.advance h).within
  have hslice : (v.buffer.take (v.position + n)).drop v.position = v.rest.take n := by
    rw [View.rest, List.drop_take, Nat.add_sub_cancel_left]
  -- The three checks in the order in which they are made: what is left, the sum, the slice.
  rw [octets, hv.remaining_eq, ok_bind, if_neg (by omega),
    Checked.add_of_le (Nat.le_trans hstop hv.counted), ok_bind,
    Checked.slice_of_le (Nat.le_add_right _ _) hstop, ok_bind, hslice]
  rfl

/-- Octets that are not there are an error of the input, and no index is tried. -/
theorem octets_of_lt {v : View} {n : Nat} (hv : v.Valid limit) (h : v.rest.length < n) :
    octets limit n v = .ok (.error .truncated) := by
  rw [octets, hv.remaining_eq, ok_bind, if_pos h]
  rfl

/-- Octets that are taken together and then looked at one by one. -/
theorem Implements.of_octets {n : Nat} {f : Octets → Except Fault α} {r : Reader Truncated α}
    (hshort : ∀ input : Octets, input.length < n → r input = .error .truncated)
    (hlong : ∀ taken : Octets, taken.length = n →
      ∃ a, f taken = .ok a ∧ ∀ rest, r (taken ++ rest) = .ok (a, rest)) :
    Implements limit (octets limit n >>= fun taken => checking (f taken)) r := by
  intro v hv
  by_cases hlength : n ≤ v.rest.length
  · obtain ⟨a, hf, hr⟩ := hlong (v.rest.take n) (List.length_take_of_le hlength)
    -- What the reader does with just these octets it does whatever follows them.
    have hread := hr (v.rest.drop n)
    rw [List.take_append_drop] at hread
    rw [bind_of_ok (octets_of_le hv hlength), hread, checking, hf]
    exact agrees_advance hv hlength a
  · have hlt : v.rest.length < n := Nat.lt_of_not_le hlength
    rw [bind_of_error (octets_of_lt hv hlt), hshort _ hlt]
    exact .error

/-- Taking octets by their indices is taking them from the front of what is left. -/
theorem implements_octets (n : Nat) : Implements limit (octets limit n) (Reader.octets n) := by
  intro v hv
  by_cases h : n ≤ v.rest.length
  · rw [octets_of_le hv h, Reader.octets_of_le h]
    exact agrees_advance hv h _
  · rw [octets_of_lt hv (Nat.lt_of_not_le h), Reader.octets_of_lt (Nat.lt_of_not_le h)]
    exact .error

theorem octet_of_cons {v : View} {o : UInt8} {after : Octets} (hv : v.Valid limit)
    (h : v.rest = o :: after) : octet limit v = .ok (.ok (o, v.advance 1)) := by
  have hlength : 1 ≤ v.rest.length := by
    rw [h]
    exact Nat.le_add_left 1 _
  rw [octet, bind_of_ok (octets_of_le hv hlength), h]
  rfl

theorem octet_of_nil {v : View} (hv : v.Valid limit) (h : v.rest = []) :
    octet limit v = .ok (.error .truncated) := by
  rw [octet, bind_of_error (octets_of_lt hv (by rw [h]; exact Nat.one_pos))]

/-- A number of 16 bits is put together from two octets whose indices are always there. -/
theorem implements_uint16 : Implements limit (uint16 limit) Reader.uint16 := by
  apply Implements.of_octets
  · intro input h
    match input, h with
    | [], _ | [_], _ => rfl
  -- The length is known, so each index stands for an octet of the list.
  · intro taken h
    match taken, h with
    | [a, b], _ => exact ⟨Octets.toUInt16 a b, rfl, fun _ => rfl⟩

theorem implements_uint32 : Implements limit (uint32 limit) Reader.uint32 := by
  apply Implements.of_octets
  · intro input h
    match input, h with
    | [], _ | [_], _ | [_, _], _ | [_, _, _], _ => rfl
  · intro taken h
    match taken, h with
    | [a, b, c, d], _ => exact ⟨Octets.toUInt32 a b c d, rfl, fun _ => rfl⟩

end CheckedReader

end Nameserver

import Nameserver.Proofs.Message.Progress
import Nameserver.Proofs.Octets.Writer
/-!
# Reading and writing in place

A step in place works on a buffer and a place in it.  It reads by moving the place, it writes over
the octets that are there, and what it has done by the time it fails stays done.  So where a value
of several parts is to be read or written whole or not at all, something has to see to that: a read
goes back to where it began, and a write asks for all of its room before it puts the first octet.
-/

namespace Nameserver

namespace Reader

variable {ε α β : Type} {r : Reader ε α} {f : α → Reader ε β} {input middle : Octets}

theorem bind_of_ok {a : α} (h : r input = .ok (a, middle)) : (r >>= f) input = f a middle := by
  show (r input >>= fun p => f p.1 p.2) = _
  rw [h]
  rfl

theorem bind_of_error {e : ε} (h : r input = .error e) : (r >>= f) input = .error e := by
  show (r input >>= fun p => f p.1 p.2) = _
  rw [h]
  rfl

end Reader

/-- A buffer and a place in it. -/
@[ext] structure Place where
  buffer : Octets
  position : Nat
  within : position ≤ buffer.length
  deriving DecidableEq

namespace Place

/-! ## 1. Places -/

def start (buffer : Octets) : Place := ⟨buffer, 0, Nat.zero_le _⟩

/-- The octets behind the place. -/
def rest (p : Place) : Octets := p.buffer.drop p.position

/-- How many octets there are behind the place. -/
def room (p : Place) : Nat := p.buffer.length - p.position

def moved (p : Place) (n : Nat) (h : n ≤ p.room) : Place where
  buffer := p.buffer
  position := p.position + n
  within := by
    have hroom : n ≤ p.buffer.length - p.position := h
    have hwithin := p.within
    omega

/-- Octets put over those behind the place, with the place behind them. -/
def overwritten (p : Place) (xs : Octets) (h : xs.length ≤ p.room) : Place where
  buffer := p.buffer.take p.position ++ (xs ++ p.buffer.drop (p.position + xs.length))
  position := p.position + xs.length
  within := by
    have hroom : xs.length ≤ p.buffer.length - p.position := h
    have hwithin := p.within
    simp only [List.length_append, List.length_take, List.length_drop]
    omega

@[simp] theorem length_rest (p : Place) : p.rest.length = p.room := List.length_drop

theorem rest_moved (p : Place) (n : Nat) (h : n ≤ p.room) : (p.moved n h).rest = p.rest.drop n := by
  rw [rest, rest, List.drop_drop]
  rfl

/-- The place as one from which readers read. -/
def cursor (p : Place) : Cursor := ⟨p.position, p.rest⟩

/-- The place as one at which writers write. -/
def writer (p : Place) : Writer := ⟨(p.buffer.take p.position).toArray, p.rest⟩

/-- The place of a writer in its buffer. -/
def ofWriter (w : Writer) : Place where
  buffer := w.buffer
  position := w.position
  within := by
    rw [Writer.buffer, Writer.position, List.length_append, Array.length_toList]
    exact Nat.le_add_right _ _

@[simp] theorem ofWriter_writer (p : Place) : ofWriter p.writer = p := by
  apply Place.ext
  · exact List.take_append_drop _ _
  · show (p.buffer.take p.position).toArray.size = _
    rw [List.size_toArray, List.length_take_of_le p.within]

theorem take_written (w : Writer) : w.buffer.take w.written.size = w.written.toList := by
  rw [Writer.buffer, ← Array.length_toList, List.take_left]

@[simp] theorem writer_ofWriter (w : Writer) : (ofWriter w).writer = w := by
  show Writer.mk (w.buffer.take w.written.size).toArray (w.buffer.drop w.written.size) = w
  rw [take_written, Writer.buffer, ← Array.length_toList, List.drop_left]

@[simp] theorem room_ofWriter (w : Writer) : (ofWriter w).room = w.room := by
  rw [room, Writer.room]
  show w.buffer.length - w.written.size = _
  rw [Writer.buffer, List.length_append, Array.length_toList, Nat.add_sub_cancel_left]

theorem room_writer (p : Place) : p.writer.room = p.room := by
  rw [← room_ofWriter, ofWriter_writer]

/-- Octets that a writer puts come over those behind its place. -/
theorem ofWriter_extend (w : Writer) (xs : Octets) (h : xs.length ≤ (ofWriter w).room) :
    ofWriter (w.extend xs) = (ofWriter w).overwritten xs h := by
  have hdrop : w.buffer.drop (w.written.size + xs.length) = w.unwritten.drop xs.length := by
    rw [Writer.buffer, ← Array.length_toList, List.drop_length_add_append]
  apply Place.ext
  · show (w.extend xs).buffer =
      w.buffer.take w.written.size ++ (xs ++ w.buffer.drop (w.written.size + xs.length))
    rw [take_written, hdrop, Writer.extend, Writer.buffer]
    simp
  -- The place moves on by as many octets as are put.
  · show (w.written ++ xs).size = w.written.size + xs.length
    rw [← Array.length_toList, ← Array.length_toList, Array.toList_appendList, List.length_append]

/-- What a reader takes at the cursor of a place is what lies between this place and the one where
the reader stops. -/
theorem read_cursor {ε α : Type} {r : Reader ε α} {p p' : Place} {a : α}
    (h : r p.rest = .ok (a, p'.rest)) (hbuffer : p'.buffer = p.buffer)
    (hforward : p.position ≤ p'.position) : p.cursor.read r = (.ok a, p'.cursor) := by
  have hwithin := p'.within
  have hposition : p.position + (p.rest.length - p'.rest.length) = p'.position := by
    rw [hbuffer] at hwithin
    rw [p.length_rest, p'.length_rest, room, room, hbuffer]
    omega
  rw [Cursor.read_of_ok (c := p.cursor) h]
  show (Except.ok a, Cursor.mk (p.position + (p.rest.length - p'.rest.length)) p'.rest) = _
  rw [hposition]
  rfl

end Place

/-! ## 2. Steps -/

/-- A step in place for an `α`.  Whether it fails with an `ε` or not, it leaves a place. -/
def InPlace (ε α : Type) := Place → Except ε α × Place

namespace InPlace

instance {ε : Type} : Monad (InPlace ε) where
  pure a := fun p => (.ok a, p)
  bind m f := fun p =>
    match m p with
    | (.ok a, p') => f a p'
    | (.error e, p') => (.error e, p')

variable {ε ε' α β : Type}

def fail (e : ε) : InPlace ε α := fun p => (.error e, p)

/-- The same step, with its failure renamed by `f`. -/
def mapError (f : ε → ε') (m : InPlace ε α) : InPlace ε' α := fun p =>
  match m p with
  | (.ok a, p') => (.ok a, p')
  | (.error e, p') => (.error (f e), p')

/-- The same step, with `e` for each of its failures. -/
def failingWith (e : ε') (m : InPlace ε α) : InPlace ε' α := m.mapError fun _ => e

/-- The same step, but where it fails the place is again where it was. -/
def attempt (m : InPlace ε α) : InPlace ε α := fun p =>
  match m p with
  | (.ok a, p') => (.ok a, p')
  | (.error e, _) => (.error e, p)

/-- The same step, but nothing of it is done where what it writes does not fit, or takes more than
there is room for. -/
def reserving (fits : Prop) [Decidable fits] (n : Nat) (m : InPlace Truncated Unit) :
    InPlace Truncated Unit := fun p =>
  if fits ∧ n ≤ p.room then m p else (.error .truncated, p)

theorem bind_of_ok {m : InPlace ε α} {f : α → InPlace ε β} {p p' : Place} {a : α}
    (h : m p = (.ok a, p')) : (m >>= f) p = f a p' := by
  show (match m p with | (.ok a, p') => f a p' | (.error e, p') => (.error e, p')) = _
  rw [h]

theorem bind_of_error {m : InPlace ε α} {f : α → InPlace ε β} {p p' : Place} {e : ε}
    (h : m p = (.error e, p')) : (m >>= f) p = (.error e, p') := by
  show (match m p with | (.ok a, p') => f a p' | (.error e, p') => (.error e, p')) = _
  rw [h]

/-! ## 3. Reading -/

def octets (n : Nat) : InPlace Truncated Octets := fun p =>
  if h : n ≤ p.room then (.ok (p.rest.take n), p.moved n h) else (.error .truncated, p)

/-- Takes octets together and makes a value of them. -/
def ofOctets (n : Nat) (f : Octets → Option α) : InPlace Truncated α := do
  match f (← octets n) with
  | some a => return a
  | none => fail .truncated

def octet : InPlace Truncated UInt8 := ofOctets 1 List.head?

def uint16 : InPlace Truncated UInt16 :=
  ofOctets 2 fun taken => do return Octets.toUInt16 (← taken[0]?) (← taken[1]?)

def uint32 : InPlace Truncated UInt32 :=
  ofOctets 4 fun taken => do
    return Octets.toUInt32 (← taken[0]?) (← taken[1]?) (← taken[2]?) (← taken[3]?)

def string8 : InPlace Truncated Octets := attempt do octets (← octet).toNat

def string16 : InPlace Truncated Octets := attempt do octets (← uint16).toNat

/-- From a place, a step comes to the same as a reader of the octets behind the place.  Where it
fails it may have moved. -/
inductive Agrees (p : Place) : Except ε (α × Octets) → Except ε α × Place → Prop
  | ok {a : α} {p' : Place} (buffer : p'.buffer = p.buffer) (forward : p.position ≤ p'.position) :
      Agrees p (.ok (a, p'.rest)) (.ok a, p')
  | error {e : ε} (p' : Place) : Agrees p (.error e) (.error e, p')

/-- Wherever it is, the step does what the reader does. -/
def Implements (m : InPlace ε α) (r : Reader ε α) : Prop := ∀ p : Place, Agrees p (r p.rest) (m p)

section

variable {m : InPlace ε α} {r : Reader ε α}

theorem Agrees.of_forward {p p' : Place} {x : Except ε (α × Octets)} {y : Except ε α × Place}
    (h : Agrees p' x y) (hbuffer : p'.buffer = p.buffer) (hforward : p.position ≤ p'.position) :
    Agrees p x y := by
  cases h with
  | ok buffer forward => exact .ok (buffer.trans hbuffer) (Nat.le_trans hforward forward)
  | error p'' => exact .error p''

theorem implements_pure (a : α) : Implements (pure a : InPlace ε α) (pure a) :=
  fun _ => .ok rfl (Nat.le_refl _)

theorem implements_fail (e : ε) : Implements (fail e : InPlace ε α) (throw e) := fun p => .error p

/-- Readers that are implemented one by one are implemented in sequence. -/
theorem Implements.bind {f : α → InPlace ε β} {g : α → Reader ε β} (hm : Implements m r)
    (hf : ∀ a, Implements (f a) (g a)) : Implements (m >>= f) (r >>= g) := by
  intro p
  have h := hm p
  show Agrees p (r p.rest >>= fun x => g x.1 x.2) ((m >>= f) p)
  generalize r p.rest = x at h
  generalize hy : m p = y at h
  cases h with
  | error p' =>
    rw [bind_of_error hy]
    exact .error p'
  | @ok a p' buffer forward =>
    -- The second step starts where the first one stopped.
    rw [bind_of_ok hy]
    exact (hf a p').of_forward buffer forward

theorem Implements.mapError (h : Implements m r) (f : ε → ε') :
    Implements (m.mapError f) (r.mapError f) := by
  intro p
  have h := h p
  unfold InPlace.mapError Reader.mapError
  generalize r p.rest = x at h
  generalize m p = y at h
  cases h with
  | error p' => exact .error p'
  | ok buffer forward => exact .ok buffer forward

theorem Implements.failingWith (h : Implements m r) (e : ε') :
    Implements (m.failingWith e) (r.failingWith e) := h.mapError fun _ => e

/-- Going back after a failure makes no difference to what is read. -/
theorem Implements.attempt (h : Implements m r) : Implements m.attempt r := by
  intro p
  have h := h p
  unfold InPlace.attempt
  generalize r p.rest = x at h
  generalize m p = y at h
  cases h with
  | error p' => exact .error p
  | ok buffer forward => exact .ok buffer forward

end

theorem octets_of_le {p : Place} {n : Nat} (h : n ≤ p.room) :
    octets n p = (.ok (p.rest.take n), p.moved n h) := dif_pos h

/-- Octets that are not there are not taken, and the place stays. -/
theorem octets_of_lt {p : Place} {n : Nat} (h : p.room < n) :
    octets n p = (.error .truncated, p) := dif_neg (Nat.not_le.2 h)

theorem agrees_moved {p : Place} {n : Nat} (h : n ≤ p.room) (a : α) :
    Agrees p (.ok (a, p.rest.drop n) : Except ε _) (.ok a, p.moved n h) := by
  rw [← p.rest_moved n h]
  exact .ok rfl (Nat.le_add_right _ _)

/-- Taking octets in place is taking them from the octets behind the place. -/
theorem implements_octets (n : Nat) : Implements (octets n) (Reader.octets n) := by
  intro p
  by_cases h : n ≤ p.room
  · rw [octets_of_le h, Reader.octets_of_le (by rwa [p.length_rest])]
    exact agrees_moved h _
  · have hlt := Nat.lt_of_not_le h
    rw [octets_of_lt hlt, Reader.octets_of_lt (by rwa [p.length_rest])]
    exact .error p

/-- Octets that are taken together and then looked at one by one. -/
theorem implements_ofOctets {n : Nat} {f : Octets → Option α} {r : Reader Truncated α}
    (hshort : ∀ input : Octets, input.length < n → r input = .error .truncated)
    (hlong : ∀ taken : Octets, taken.length = n →
      ∃ a, f taken = some a ∧ ∀ rest, r (taken ++ rest) = .ok (a, rest)) :
    Implements (ofOctets n f) r := by
  intro p
  by_cases h : n ≤ p.room
  · obtain ⟨a, hf, hr⟩ := hlong (p.rest.take n) (List.length_take_of_le (by rwa [p.length_rest]))
    -- What the reader does with just these octets it does whatever follows them.
    have hread := hr (p.rest.drop n)
    rw [List.take_append_drop] at hread
    rw [ofOctets, bind_of_ok (octets_of_le h), hread, hf]
    exact agrees_moved h a
  · have hlt := Nat.lt_of_not_le h
    rw [ofOctets, bind_of_error (octets_of_lt hlt), hshort _ (by rwa [p.length_rest])]
    exact .error p

theorem implements_octet : Implements octet Reader.octet := by
  apply implements_ofOctets
  · intro input h
    match input, h with
    | [], _ => rfl
  · intro taken h
    match taken, h with
    | [o], _ => exact ⟨o, rfl, fun _ => rfl⟩

theorem implements_uint16 : Implements uint16 Reader.uint16 := by
  apply implements_ofOctets
  · intro input h
    match input, h with
    | [], _ | [_], _ => rfl
  · intro taken h
    match taken, h with
    | [a, b], _ => exact ⟨Octets.toUInt16 a b, rfl, fun _ => rfl⟩

theorem implements_uint32 : Implements uint32 Reader.uint32 := by
  apply implements_ofOctets
  · intro input h
    match input, h with
    | [], _ | [_], _ | [_, _], _ | [_, _, _], _ => rfl
  · intro taken h
    match taken, h with
    | [a, b, c, d], _ => exact ⟨Octets.toUInt32 a b c d, rfl, fun _ => rfl⟩

/-- A string is taken by a step for its length and one for its octets. -/
theorem implements_string8 : Implements string8 Reader.string8 :=
  (implements_octet.bind fun length => implements_octets length.toNat).attempt

theorem implements_string16 : Implements string16 Reader.string16 :=
  (implements_uint16.bind fun length => implements_octets length.toNat).attempt

/-! ## 4. Values taken whole -/

/-- What can come of a step that takes a value whole or not at all: from the octets of the buffer,
which stay as they are, one or more behind the place are taken, or the place is where it was. -/
inductive TakenWhole (p : Place) : Except ε α × Place → Prop
  | taken {a : α} {p' : Place} (buffer : p'.buffer = p.buffer) (forward : p.position < p'.position)
      (within : p'.position ≤ p.buffer.length) : TakenWhole p (.ok a, p')
  | left (e : ε) : TakenWhole p (.error e, p)

/-- The step takes its value whole or not at all, and it is the value that the reader takes. -/
def TakesWhole (m : InPlace ε α) (r : Reader ε α) : Prop :=
  ∀ p : Place, TakenWhole p (m p) ∧ p.cursor.read r = ((m p).1, (m p).2.cursor)

/-- Where the step fails, the place is where it was. -/
def Stays (m : InPlace ε α) : Prop := ∀ p e p', m p = (.error e, p') → p' = p

/-- An attempt goes back where it fails. -/
theorem stays_attempt (m : InPlace ε α) : Stays m.attempt := by
  intro p e p' h
  unfold attempt at h
  split at h
  next => cases h
  next => exact (Prod.mk.inj h).2.symm

/-- A step that goes back where it fails takes its value whole, if the value takes an octet. -/
theorem Implements.takesWhole {m : InPlace ε α} {r : Reader ε α} {n : Nat}
    (h : Implements m.attempt r) (hr : r.TakesAtLeast (n + 1)) : TakesWhole m.attempt r := by
  intro p
  have hp := h p
  have hback := stays_attempt m p
  generalize hx : r p.rest = x at hp
  generalize hy : m.attempt p = y at hp hback
  cases hp with
  | error p' =>
    rw [hback _ _ rfl, Cursor.read_of_error (c := p.cursor) hx]
    exact ⟨.left _, rfl⟩
  | @ok a p' buffer forward =>
    -- That the value takes an octet is what moves the place on.
    have hmore := hr _ _ _ hx
    have hwithin := p'.within
    have hbefore := p.within
    rw [p.length_rest, p'.length_rest, Place.room, Place.room, buffer] at hmore
    rw [buffer] at hwithin
    refine ⟨.taken buffer (by omega) hwithin, ?_⟩
    rw [Place.read_cursor hx buffer forward]

/-! ## 5. Writing -/

def putOctets (xs : Octets) : InPlace Truncated Unit := fun p =>
  if h : xs.length ≤ p.room then (.ok (), p.overwritten xs h) else (.error .truncated, p)

def putUInt16 (v : UInt16) : InPlace Truncated Unit := putOctets (Octets.ofUInt16 v)

def putUInt32 (v : UInt32) : InPlace Truncated Unit := putOctets (Octets.ofUInt32 v)

def putString8 (xs : Octets) : InPlace Truncated Unit :=
  reserving (xs.length ≤ 255) (1 + xs.length) do
    putOctets [UInt8.ofNat xs.length]
    putOctets xs

def putString16 (xs : Octets) : InPlace Truncated Unit :=
  reserving (xs.length ≤ 65535) (2 + xs.length) do
    putUInt16 (UInt16.ofNat xs.length)
    putOctets xs

/-- A step comes to what a writer comes to.  Where it fails it may have written. -/
inductive Leads : Except ε Writer → Except ε Unit × Place → Prop
  | ok (w : Writer) : Leads (.ok w) (.ok (), .ofWriter w)
  | error (e : ε) (p : Place) : Leads (.error e) (.error e, p)

/-- Wherever it is, the step does what the writer does. -/
def Tracks (m : InPlace ε Unit) (write : Writer → Except ε Writer) : Prop :=
  ∀ w : Writer, Leads (write w) (m (.ofWriter w))

section

variable {m m' : InPlace ε Unit} {write write' : Writer → Except ε Writer}

theorem tracks_pure : Tracks (pure () : InPlace ε Unit) Except.ok := fun w => .ok w

theorem Tracks.bind (h : Tracks m write) (h' : Tracks m' write') :
    Tracks (m >>= fun _ => m') fun w => write w >>= write' := by
  intro w
  have hw := h w
  show Leads (write w >>= write') _
  generalize write w = x at hw
  generalize hy : m (.ofWriter w) = y at hw
  cases hw with
  -- The second writer goes on from the place that stands for what the first one left.
  | ok w' =>
    rw [bind_of_ok hy]
    exact h' w'
  | error e p =>
    rw [bind_of_error hy]
    exact .error e p

theorem Tracks.mapError (h : Tracks m write) (f : ε → ε') :
    Tracks (m.mapError f) fun w => (write w).mapError f := by
  intro w
  have hw := h w
  show Leads ((write w).mapError f) _
  unfold InPlace.mapError
  generalize write w = x at hw
  generalize m (.ofWriter w) = y at hw
  cases hw with
  | ok w' => exact .ok w'
  | error e p => exact .error (f e) p

theorem Tracks.forM {entries : List α} {m : α → InPlace ε Unit}
    {write : α → Writer → Except ε Writer} (h : ∀ a, Tracks (m a) (write a)) :
    Tracks (entries.forM m) fun w => entries.foldlM (fun w a => write a w) w := by
  induction entries with
  | nil => exact tracks_pure
  | cons a entries ih => exact (h a).bind ih

end

theorem Tracks.reserving {m : InPlace Truncated Unit} {write : Writer → Except Truncated Writer}
    (h : Tracks m write) (fits : Prop) [Decidable fits] (n : Nat) :
    Tracks (m.reserving fits n) fun w =>
      if fits && w.hasRoom n then write w else .error .truncated := by
  intro w
  have hchecks : (fits && w.hasRoom n) = true ↔ fits ∧ n ≤ (Place.ofWriter w).room := by
    rw [Bool.and_eq_true, decide_eq_true_eq, Writer.hasRoom_iff, Place.room_ofWriter]
  rw [InPlace.reserving]
  dsimp only
  by_cases hfits : (fits && w.hasRoom n) = true
  · rw [if_pos hfits, if_pos (hchecks.1 hfits)]
    exact h w
  -- The step refuses before it has written anything.
  · rw [if_neg hfits, if_neg fun hall => hfits (hchecks.2 hall)]
    exact .error _ _

theorem tracks_putOctets (xs : Octets) : Tracks (putOctets xs) (Writer.put xs) := by
  intro w
  by_cases h : xs.length ≤ w.room
  · have hroom : xs.length ≤ (Place.ofWriter w).room := by rwa [Place.room_ofWriter]
    rw [Writer.put_of_le h, putOctets, dif_pos hroom, ← Place.ofWriter_extend w xs hroom]
    exact .ok _
  · have hroom : ¬ xs.length ≤ (Place.ofWriter w).room := by rwa [Place.room_ofWriter]
    rw [Writer.put_of_lt (Nat.lt_of_not_le h), putOctets, dif_neg hroom]
    exact .error _ _

theorem tracks_putUInt16 (v : UInt16) : Tracks (putUInt16 v) (Writer.putUInt16 v) :=
  tracks_putOctets _

theorem tracks_putUInt32 (v : UInt32) : Tracks (putUInt32 v) (Writer.putUInt32 v) :=
  tracks_putOctets _

theorem tracks_putString8 (xs : Octets) : Tracks (putString8 xs) (Writer.putString8 xs) :=
  ((tracks_putOctets _).bind (tracks_putOctets xs)).reserving _ _

theorem tracks_putString16 (xs : Octets) : Tracks (putString16 xs) (Writer.putString16 xs) :=
  ((tracks_putUInt16 _).bind (tracks_putOctets xs)).reserving _ _

/-! ## 6. Values put whole -/

/-- What can come of a step that puts octets whole or not at all, which it does if they fit and
there is room for them: they stand behind the old place and before the new one and all others are
as they were, or nothing has changed. -/
inductive PutWhole (fits : Prop) (p : Place) (xs : Octets) : Except Truncated Unit × Place → Prop
  | put {p' : Place} (fit : fits) (room : xs.length ≤ p.room)
      (position : p'.position = p.position + xs.length)
      (before : p'.buffer.take p.position = p.buffer.take p.position)
      (octets : (p'.buffer.drop p.position).take xs.length = xs)
      (behind : p'.buffer.drop p'.position = p.buffer.drop p'.position) :
      PutWhole fits p xs (.ok (), p')
  | refused (unfit : ¬ fits ∨ p.room < xs.length) : PutWhole fits p xs (.error .truncated, p)

/-- Octets that are written over others stand at the place, and the octets around them stay. -/
theorem putWhole_overwritten {fits : Prop} {p : Place} {xs : Octets} (hfits : fits)
    (h : xs.length ≤ p.room) : PutWhole fits p xs (.ok (), p.overwritten xs h) := by
  have hlength : (p.buffer.take p.position).length = p.position := List.length_take_of_le p.within
  refine .put hfits h rfl ?_ ?_ ?_
  · exact List.take_left' hlength
  · show (List.drop p.position (p.buffer.take p.position ++ _)).take _ = _
    rw [List.drop_left' hlength, List.take_left]
  · show List.drop (p.position + xs.length) (p.buffer.take p.position ++ (xs ++ _)) = _
    rw [← List.append_assoc, List.drop_left' (by rw [List.length_append, hlength])]
    rfl

/-- A step that asks for the room of all its octets puts them whole, if a writer puts them in one
piece.  Behind the checks it cannot fail, because the writer does not. -/
theorem Tracks.putWhole {fits : Prop} [Decidable fits] {m : InPlace Truncated Unit}
    {write : Writer → Except Truncated Writer} {xs : Octets} {n : Nat}
    (h : Tracks (m.reserving fits n) write)
    (hwrite : fits → ∀ w : Writer, write w = w.put xs) (hn : xs.length = n) (p : Place) :
    PutWhole fits p xs (m.reserving fits n p) := by
  subst hn
  by_cases hchecks : fits ∧ xs.length ≤ p.room
  · obtain ⟨hfits, hroom⟩ := hchecks
    have hleads := h p.writer
    have hwriter : xs.length ≤ p.writer.room := by rwa [p.room_writer]
    rw [hwrite hfits, Writer.put_of_le hwriter, Place.ofWriter_writer] at hleads
    generalize m.reserving fits xs.length p = y at hleads
    cases hleads with
    | ok =>
      have hextend := Place.ofWriter_extend p.writer xs (by rwa [Place.ofWriter_writer])
      simp only [Place.ofWriter_writer] at hextend
      rw [hextend]
      exact putWhole_overwritten hfits hroom
  · rw [InPlace.reserving, if_neg hchecks]
    rw [not_and_or, Nat.not_le] at hchecks
    exact .refused hchecks

end InPlace

end Nameserver

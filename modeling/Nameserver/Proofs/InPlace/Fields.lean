import Nameserver.Proofs.InPlace.Entries
/-!
# Runs over fields

Fields are put into a buffer one after another, and one that does not go in is left out.  Main
statement: the buffer then starts with the fields that did go in, which is how they are taken
again; and from a part of these octets fields are taken up to the start of one that is not whole.
-/

namespace Nameserver

/-! ## 1. Runs -/

section Runs

variable {σ κ ε α : Type}

/-- Takes one step after another, whatever comes of them.  The log has what came of each. -/
def runAll (step : κ → σ → Except ε α × σ) : List κ → σ → List (κ × Except ε α) × σ
  | [], s => ([], s)
  | k :: ks, s =>
    let later := runAll step ks (step k s).2
    ((k, (step k s).1) :: later.1, later.2)

/-- The steps in a log that did not fail. -/
def succeeded : List (κ × Except ε α) → List κ
  | [] => []
  | (k, .ok _) :: log => k :: succeeded log
  | (_, .error _) :: log => succeeded log

/-- Takes one step after another up to the first that fails, for the list of their values. -/
def runUntilFailure (step : κ → σ → Except ε α × σ) : List κ → σ → Except ε (List α) × σ
  | [], s => (.ok [], s)
  | k :: ks, s =>
    match step k s with
    | (.error e, s') => (.error e, s')
    | (.ok a, s') =>
      let later := runUntilFailure step ks s'
      (later.1.map (a :: ·), later.2)

variable {step : κ → σ → Except ε α × σ} {k : κ} {ks : List κ} {s s' : σ}

/-- A log has one entry for each step, in their order. -/
theorem runAll_keys (step : κ → σ → Except ε α × σ) (ks : List κ) (s : σ) :
    (runAll step ks s).1.map Prod.fst = ks := by
  induction ks generalizing s with
  | nil => rfl
  | cons k ks ih => exact congrArg (k :: ·) (ih _)

theorem runUntilFailure_of_ok {a : α} (h : step k s = (.ok a, s')) :
    runUntilFailure step (k :: ks) s =
      ((runUntilFailure step ks s').1.map (a :: ·), (runUntilFailure step ks s').2) := by
  rw [runUntilFailure, h]

theorem runUntilFailure_of_error {e : ε} (h : step k s = (.error e, s')) :
    runUntilFailure step (k :: ks) s = (.error e, s') := by
  rw [runUntilFailure, h]

/-- A run ends where a step fails that comes after steps that do not. -/
theorem runUntilFailure_of_stop {before after : List κ} {as : List α} {s'' : σ} {e : ε}
    (h : runUntilFailure step before s = (.ok as, s')) (hk : step k s' = (.error e, s'')) :
    runUntilFailure step (before ++ k :: after) s = (.error e, s'') := by
  induction before generalizing s as with
  | nil =>
    cases h
    exact runUntilFailure_of_error hk
  | cons first before ih =>
    cases hstep : step first s with
    | mk outcome middle =>
      cases outcome with
      | error e' =>
        -- A run that ends well has not failed at its first step.
        rw [runUntilFailure_of_error hstep] at h
        cases h
      | ok a =>
        rw [runUntilFailure_of_ok hstep] at h
        obtain ⟨others, hothers, -⟩ := map_eq_ok (congrArg Prod.fst h)
        have hplace : (runUntilFailure step before middle).2 = s' := congrArg Prod.snd h
        rw [List.cons_append, runUntilFailure_of_ok hstep, ih (Prod.ext hothers hplace)]
        rfl

end Runs

/-- Runs the reader of a key here. -/
def Cursor.readKey {ε κ α : Type} (r : κ → Reader ε α) (k : κ) (c : Cursor) :
    Except ε α × Cursor := c.read (r k)

theorem Writer.extend_nil (w : Writer) : w.extend [] = w :=
  Except.ok.inj ((put_of_le (Nat.zero_le _)).symm.trans w.put_nil)

namespace InPlace

variable {ε α β : Type}

/-! ## 2. Steps that stay where they fail -/

/-- The step does what the reader does at a cursor, and leaves the buffer as it is. -/
def Mirrors (m : InPlace ε α) (r : Reader ε α) : Prop :=
  ∀ p : Place, (m p).2.buffer = p.buffer ∧ p.cursor.read r = ((m p).1, (m p).2.cursor)

/-- Octets are all there or none of them is taken. -/
theorem stays_octets (n : Nat) : Stays (octets n) := by
  intro p e p' h
  by_cases hn : n ≤ p.room
  · rw [octets_of_le hn] at h
    cases h
  · rw [octets_of_lt (Nat.lt_of_not_le hn)] at h
    exact (Prod.mk.inj h).2.symm

/-- Octets of which a value can be made are all that there is to fail for. -/
theorem stays_ofOctets {n : Nat} {f : Octets → Option α}
    (hf : ∀ taken : Octets, taken.length = n → ∃ a, f taken = some a) : Stays (ofOctets n f) := by
  intro p e p' h
  by_cases hn : n ≤ p.room
  · obtain ⟨a, ha⟩ := hf (p.rest.take n) (List.length_take_of_le (by rwa [p.length_rest]))
    rw [ofOctets, bind_of_ok (octets_of_le hn), ha] at h
    cases h
  -- There are too few octets, so the place has not moved.
  · rw [ofOctets, bind_of_error (octets_of_lt (Nat.lt_of_not_le hn))] at h
    exact (Prod.mk.inj h).2.symm

theorem Stays.bind_pure {m : InPlace ε α} (h : Stays m) (f : α → β) :
    Stays (m >>= fun a => pure (f a)) := by
  intro p e p' heq
  cases hm : m p with
  | mk outcome middle =>
    cases outcome with
    | ok a =>
      rw [bind_of_ok hm] at heq
      cases heq
    | error e' =>
      rw [bind_of_error hm] at heq
      cases heq
      exact h _ _ _ hm

/-- A step that implements a reader and stays where it fails is the reader at a cursor. -/
theorem Implements.mirrors {m : InPlace ε α} {r : Reader ε α} (h : Implements m r)
    (hstays : Stays m) : Mirrors m r := by
  intro p
  have hp := h p
  have hback := hstays p
  generalize hx : r p.rest = x at hp
  generalize hy : m p = y at hp hback
  cases hp with
  | error p' =>
    -- A cursor stays where its reader fails, so only a step that stays does the same.
    rw [hback _ _ rfl, Cursor.read_of_error (c := p.cursor) hx]
    exact ⟨rfl, rfl⟩
  | @ok a p' buffer forward =>
    rw [Place.read_cursor hx buffer forward]
    exact ⟨buffer, rfl⟩

/-- Steps that are mirrored one by one are mirrored in a run. -/
theorem Mirrors.run {κ : Type} {m : κ → InPlace ε α} {r : κ → Reader ε α}
    (h : ∀ k, Mirrors (m k) (r k)) (ks : List κ) (p : Place) :
    (runUntilFailure m ks p).2.buffer = p.buffer ∧
      runUntilFailure (Cursor.readKey r) ks p.cursor =
        ((runUntilFailure m ks p).1, (runUntilFailure m ks p).2.cursor) := by
  induction ks generalizing p with
  | nil => exact ⟨rfl, rfl⟩
  | cons k ks ih =>
    obtain ⟨hbuffer, hread⟩ := h k p
    have hread : Cursor.readKey r k p.cursor = _ := hread
    cases hm : m k p with
    | mk outcome p' =>
      rw [hm] at hbuffer hread
      cases outcome with
      -- Both runs stop here, in the same place.
      | error e =>
        rw [runUntilFailure_of_error hm, runUntilFailure_of_error hread]
        exact ⟨hbuffer, rfl⟩
      -- Both go on from the place that the step has reached.
      | ok a =>
        obtain ⟨hlater, hrun⟩ := ih p'
        rw [runUntilFailure_of_ok hm, runUntilFailure_of_ok hread, hrun]
        exact ⟨hlater.trans hbuffer, rfl⟩

/-! ## 3. Fields -/

/-- A number, octets as they are, or a string after its length. -/
inductive Field where
  | uint8 (v : UInt8)
  | uint16 (v : UInt16)
  | uint32 (v : UInt32)
  | octets (xs : Octets)
  | string8 (xs : Octets)
  | string16 (xs : Octets)
  deriving DecidableEq, Repr

/-- What there is to know of a field before it can be taken. -/
inductive Kind where
  | uint8
  | uint16
  | uint32
  | octets (length : Nat)
  | string8
  | string16

theorem putWhole_putOctets (xs : Octets) (p : Place) : PutWhole True p xs (putOctets xs p) := by
  by_cases h : xs.length ≤ p.room
  · rw [putOctets, dif_pos h]
    exact putWhole_overwritten trivial h
  · rw [putOctets, dif_neg h]
    exact .refused (.inr (Nat.lt_of_not_le h))

namespace Field

def kind : Field → Kind
  | uint8 _ => .uint8
  | uint16 _ => .uint16
  | uint32 _ => .uint32
  | octets xs => .octets xs.length
  | string8 _ => .string8
  | string16 _ => .string16

def wire : Field → Octets
  | uint8 v => [v]
  | uint16 v => Octets.ofUInt16 v
  | uint32 v => Octets.ofUInt32 v
  | octets xs => xs
  | string8 xs => UInt8.ofNat xs.length :: xs
  | string16 xs => Octets.ofUInt16 (UInt16.ofNat xs.length) ++ xs

/-- The length of a string fits the octets that there are for it. -/
def Fits : Field → Prop
  | string8 xs => xs.length ≤ 255
  | string16 xs => xs.length ≤ 65535
  | uint8 _ | uint16 _ | uint32 _ | octets _ => True

def write : Field → Writer → Except Truncated Writer
  | uint8 v => Writer.putOctet v
  | uint16 v => Writer.putUInt16 v
  | uint32 v => Writer.putUInt32 v
  | octets xs => Writer.put xs
  | string8 xs => Writer.putString8 xs
  | string16 xs => Writer.putString16 xs

/-- Puts a field in place. -/
def put : Field → InPlace Truncated Unit
  | uint8 v => putOctets [v]
  | uint16 v => putUInt16 v
  | uint32 v => putUInt32 v
  | octets xs => putOctets xs
  | string8 xs => putString8 xs
  | string16 xs => putString16 xs

end Field

namespace Kind

def reader : Kind → Reader Truncated Field
  | uint8 => do return .uint8 (← Reader.octet)
  | uint16 => do return .uint16 (← Reader.uint16)
  | uint32 => do return .uint32 (← Reader.uint32)
  | octets length => do return .octets (← Reader.octets length)
  | string8 => do return .string8 (← Reader.string8)
  | string16 => do return .string16 (← Reader.string16)

/-- Takes a field of this kind in place. -/
def take : Kind → InPlace Truncated Field
  | uint8 => do return .uint8 (← InPlace.octet)
  | uint16 => do return .uint16 (← InPlace.uint16)
  | uint32 => do return .uint32 (← InPlace.uint32)
  | octets length => do return .octets (← InPlace.octets length)
  | string8 => do return .string8 (← InPlace.string8)
  | string16 => do return .string16 (← InPlace.string16)

theorem take_implements (k : Kind) : Implements k.take k.reader := by
  cases k with
  | uint8 => exact implements_octet.bind fun v => implements_pure _
  | uint16 => exact implements_uint16.bind fun v => implements_pure _
  | uint32 => exact implements_uint32.bind fun v => implements_pure _
  | octets length => exact (implements_octets length).bind fun xs => implements_pure _
  | string8 => exact implements_string8.bind fun xs => implements_pure _
  | string16 => exact implements_string16.bind fun xs => implements_pure _

/-- A field that is not whole leaves the place where the field starts. -/
theorem stays_take (k : Kind) : Stays k.take := by
  cases k with
  | uint8 =>
    refine Stays.bind_pure (stays_ofOctets ?_) _
    intro taken h
    match taken, h with
    | [o], _ => exact ⟨o, rfl⟩
  | uint16 =>
    refine Stays.bind_pure (stays_ofOctets ?_) _
    intro taken h
    match taken, h with
    | [a, b], _ => exact ⟨Octets.toUInt16 a b, rfl⟩
  | uint32 =>
    refine Stays.bind_pure (stays_ofOctets ?_) _
    intro taken h
    match taken, h with
    | [a, b, c, d], _ => exact ⟨Octets.toUInt32 a b c d, rfl⟩
  | octets length => exact (stays_octets length).bind_pure _
  -- A string may fail after its length, so it is taken as an attempt.
  | string8 => exact (stays_attempt _).bind_pure _
  | string16 => exact (stays_attempt _).bind_pure _

theorem mirrors_take (k : Kind) : Mirrors k.take k.reader := k.take_implements.mirrors k.stays_take

/-- What a field needs to be read is its own octets. -/
theorem settled_reader (k : Kind) : k.reader.Settled := by
  cases k with
  | uint8 => exact Reader.settled_octet.bind fun v => Reader.settled_pure _
  | uint16 => exact Reader.settled_uint16.bind fun v => Reader.settled_pure _
  | uint32 => exact Reader.settled_uint32.bind fun v => Reader.settled_pure _
  | octets length => exact (Reader.settled_octets length).bind fun xs => Reader.settled_pure _
  | string8 => exact Reader.settled_string8.bind fun xs => Reader.settled_pure _
  | string16 => exact Reader.settled_string16.bind fun xs => Reader.settled_pure _

end Kind

namespace Field

/-- A field whose length fits is put in one piece. -/
theorem write_eq_put {f : Field} (h : f.Fits) (w : Writer) : f.write w = w.put f.wire := by
  cases f with
  | uint8 v => rfl
  | uint16 v => rfl
  | uint32 v => rfl
  | octets xs => rfl
  | string8 xs => exact Writer.putString8_eq_put h w
  | string16 xs => exact Writer.putString16_eq_put h w

theorem tracks_put (f : Field) : Tracks f.put f.write := by
  cases f with
  | uint8 v => exact tracks_putOctets _
  | uint16 v => exact tracks_putUInt16 v
  | uint32 v => exact tracks_putUInt32 v
  | octets xs => exact tracks_putOctets xs
  | string8 xs => exact tracks_putString8 xs
  | string16 xs => exact tracks_putString16 xs

theorem putWhole_put (f : Field) (p : Place) : PutWhole f.Fits p f.wire (f.put p) := by
  cases f with
  | uint8 v => exact putWhole_putOctets [v] p
  | uint16 v => exact putWhole_putOctets _ p
  | uint32 v => exact putWhole_putOctets _ p
  | octets xs => exact putWhole_putOctets xs p
  | string8 xs => exact putWhole_putString8 xs p
  | string16 xs => exact putWhole_putString16 xs p

/-- A field is taken from its octets, whatever comes after them. -/
theorem takes_reader {f : Field} (h : f.Fits) : f.kind.reader.Takes f.wire f := by
  cases f with
  | uint8 v => exact (Reader.takes_octet v).bind_pure rfl
  | uint16 v => exact (Reader.takes_uint16 v).bind_pure rfl
  | uint32 v => exact (Reader.takes_uint32 v).bind_pure rfl
  | octets xs => exact (Reader.takes_octets xs).bind_pure rfl
  | string8 xs => exact (Reader.takes_string8 h).bind_pure rfl
  | string16 xs => exact (Reader.takes_string16 h).bind_pure rfl

/-! ## 4. Putting fields -/

/-- Writes a field if it goes in. -/
def attempt (f : Field) (w : Writer) : Except Truncated Unit × Writer :=
  match f.write w with
  | .ok w' => (.ok (), w')
  | .error e => (.error e, w)

/-- What an attempt leaves in place is what it leaves of the writer. -/
theorem put_ofWriter (f : Field) (w : Writer) :
    f.put (.ofWriter w) = ((f.attempt w).1, .ofWriter (f.attempt w).2) := by
  have hleads := f.tracks_put w
  have hwhole := f.putWhole_put (.ofWriter w)
  rw [attempt]
  generalize f.write w = x at hleads
  generalize f.put (.ofWriter w) = y at hleads hwhole
  cases hleads with
  | ok w' => rfl
  | error e p' =>
    cases hwhole
    rfl

/-- A field that fits goes in if there is room for it. -/
theorem attempt_of_le {f : Field} {w : Writer} (hfits : f.Fits) (hroom : f.wire.length ≤ w.room) :
    f.attempt w = (.ok (), w.extend f.wire) := by
  rw [attempt, write_eq_put hfits, Writer.put_of_le hroom]

/-- A field that does not go in leaves nothing of itself in the writer. -/
theorem attempt_of_not {f : Field} {w : Writer} (h : ¬ (f.Fits ∧ f.wire.length ≤ w.room)) :
    f.attempt w = (.error .truncated, w) := by
  have hwhole := f.putWhole_put (.ofWriter w)
  rw [put_ofWriter, attempt] at hwhole
  rw [attempt]
  -- A field that is put has fitted and has had room.
  cases hwrite : f.write w with
  | error e =>
    cases e
    rfl
  | ok w' =>
    rw [hwrite] at hwhole
    cases hwhole with
    | put fit room =>
      rw [Place.room_ofWriter] at room
      exact absurd ⟨fit, room⟩ h

/-- A run of puts in place has the outcomes of the run of the writer. -/
theorem runAll_put (fields : List Field) (w : Writer) :
    runAll put fields (.ofWriter w) =
      ((runAll attempt fields w).1, .ofWriter (runAll attempt fields w).2) := by
  induction fields generalizing w with
  | nil => rfl
  | cons f fields ih =>
    show ((f, (f.put (.ofWriter w)).1) :: (runAll put fields (f.put (.ofWriter w)).2).1,
      (runAll put fields (f.put (.ofWriter w)).2).2) = _
    rw [put_ofWriter, ih]
    rfl

/-- A run extends what is written by the fields that go in, one after another. -/
theorem runAll_attempt (fields : List Field) (w : Writer) :
    (runAll attempt fields w).2 =
        w.extend ((succeeded (runAll attempt fields w).1).flatMap wire) ∧
      ((succeeded (runAll attempt fields w).1).flatMap wire).length ≤ w.room ∧
      ∀ f ∈ succeeded (runAll attempt fields w).1, f.Fits := by
  induction fields generalizing w with
  | nil => exact ⟨w.extend_nil.symm, Nat.zero_le _, fun f hf => absurd hf List.not_mem_nil⟩
  | cons f fields ih =>
    by_cases h : f.Fits ∧ f.wire.length ≤ w.room
    · obtain ⟨hfits, hroom⟩ := h
      obtain ⟨hwriter, hlength, hall⟩ := ih (w.extend f.wire)
      rw [Writer.room_extend] at hlength
      rw [runAll, attempt_of_le hfits hroom]
      dsimp only [succeeded]
      rw [List.flatMap_cons, List.length_append, hwriter, Writer.extend_append]
      exact ⟨rfl, by omega, List.forall_mem_cons.2 ⟨hfits, hall⟩⟩
    · -- A field that does not go in leaves the writer to the others.
      rw [runAll, attempt_of_not h]
      exact ih w

/-! ## 5. Taking fields -/

/-- Where the octets of a list are cut, they end within those of one entry. -/
theorem exists_cut {α β : Type} {wire : α → List β} {entries : List α} {n : Nat}
    (h : n < (entries.flatMap wire).length) :
    ∃ before entry after m, entries = before ++ entry :: after ∧ m < (wire entry).length ∧
      (entries.flatMap wire).take n = before.flatMap wire ++ (wire entry).take m := by
  induction entries generalizing n with
  | nil => exact absurd h (Nat.not_lt_zero n)
  | cons entry entries ih =>
    rw [List.flatMap_cons, List.length_append] at h
    by_cases hn : n < (wire entry).length
    · refine ⟨[], entry, entries, n, rfl, hn, ?_⟩
      rw [List.flatMap_cons, List.take_append_of_le_length (Nat.le_of_lt hn)]
      rfl
    -- The cut is behind this entry, so it is in one of the others.
    · obtain ⟨before, other, after, m, rfl, hm, htake⟩ := ih (n := n - (wire entry).length) (by omega)
      refine ⟨entry :: before, other, after, m, rfl, hm, ?_⟩
      rw [List.flatMap_cons, List.take_append, List.take_of_length_le (by omega), htake,
        List.flatMap_cons, List.append_assoc]

theorem readKey_wire {f : Field} (h : f.Fits) (position : Nat) (rest : Octets) :
    Cursor.readKey Kind.reader f.kind ⟨position, f.wire ++ rest⟩ =
      (.ok f, ⟨position + f.wire.length, rest⟩) := by
  rw [Cursor.readKey, Cursor.read_of_ok (takes_reader h rest)]
  simp

/-- The octets of fields are read as these fields, up to where they end. -/
theorem run_wire {fields : List Field} (h : ∀ f ∈ fields, f.Fits) (position : Nat)
    (rest : Octets) :
    runUntilFailure (Cursor.readKey Kind.reader) (fields.map kind)
        ⟨position, fields.flatMap wire ++ rest⟩ =
      (.ok fields, ⟨position + (fields.flatMap wire).length, rest⟩) := by
  induction fields generalizing position with
  | nil => rfl
  | cons f fields ih =>
    obtain ⟨hf, hfields⟩ := List.forall_mem_cons.1 h
    rw [List.map_cons, List.flatMap_cons, List.append_assoc,
      runUntilFailure_of_ok (readKey_wire hf _ _), ih hfields, List.length_append, Nat.add_assoc]
    rfl

end Field

/-- The octets are taken as the fields, to their end.  If they are cut, fields are taken up to the
start of the one that is not whole. -/
structure TakenAs (fields : List Field) (octets : Octets) : Prop where
  whole : ∃ p, runUntilFailure Kind.take (fields.map Field.kind) (.start octets) =
    (.ok fields, p) ∧ p.buffer = octets ∧ p.position = octets.length
  cut : ∀ n < octets.length, ∃ before f after p, fields = before ++ f :: after ∧
    runUntilFailure Kind.take (before.map Field.kind) (.start (octets.take n)) = (.ok before, p) ∧
    p.buffer = octets.take n ∧ p.position = (before.flatMap Field.wire).length ∧
    f.kind.take p = (.error .truncated, p) ∧
    runUntilFailure Kind.take (fields.map Field.kind) (.start (octets.take n)) =
      (.error .truncated, p)

/-- Fields are taken in place as they are read at a cursor. -/
theorem run_start {ks : List Kind} {octets : Octets} {c : Cursor} {x : Except Truncated (List Field)}
    (h : runUntilFailure (Cursor.readKey Kind.reader) ks ⟨0, octets⟩ = (x, c)) :
    ∃ p, runUntilFailure Kind.take ks (.start octets) = (x, p) ∧ p.buffer = octets ∧
      p.cursor = c := by
  obtain ⟨hbuffer, hrun⟩ := Mirrors.run Kind.mirrors_take ks (.start octets)
  obtain ⟨hvalue, hcursor⟩ := Prod.mk.inj (hrun.symm.trans h)
  exact ⟨(runUntilFailure Kind.take ks (.start octets)).2, Prod.ext hvalue rfl, hbuffer, hcursor⟩

/-- From the octets of fields the fields are taken, and from a part of them as many as are whole. -/
theorem takenAs_wire {fields : List Field} (h : ∀ f ∈ fields, f.Fits) :
    TakenAs fields (fields.flatMap Field.wire) := by
  constructor
  · have hrun := Field.run_wire h 0 []
    rw [List.append_nil, Nat.zero_add] at hrun
    obtain ⟨p, hp, hbuffer, hcursor⟩ := run_start hrun
    exact ⟨p, hp, hbuffer, congrArg Cursor.position hcursor⟩
  · intro n hn
    obtain ⟨before, f, after, m, rfl, hm, htake⟩ := Field.exists_cut hn
    -- The fields before the cut are whole, so they are all taken.
    have hbefore : ∀ f ∈ before, f.Fits := fun f hf => h f (List.mem_append_left _ hf)
    have hf : f.Fits := h f (List.mem_append_right _ List.mem_cons_self)
    rw [htake]
    have hrun := Field.run_wire hbefore 0 (f.wire.take m)
    rw [Nat.zero_add] at hrun
    obtain ⟨p, hp, hbuffer, hcursor⟩ := run_start hrun
    -- What is left is part of the octets of `f`, from which `f` is not taken.
    obtain ⟨e, he⟩ := f.kind.settled_reader.error_of_cut (Field.takes_reader hf) hm
    have hstop : f.kind.take p = (.error .truncated, p) := by
      have hmirrors := (f.kind.mirrors_take p).2
      rw [hcursor, Cursor.read_of_error he] at hmirrors
      cases hstep : f.kind.take p with
      | mk outcome p' =>
        rw [hstep] at hmirrors
        cases e
        cases (Prod.mk.inj hmirrors).1
        rw [f.kind.stays_take _ _ _ hstep]
    refine ⟨before, f, after, p, rfl, hp, hbuffer, congrArg Cursor.position hcursor, hstop, ?_⟩
    rw [List.map_append, List.map_cons]
    exact runUntilFailure_of_stop hp hstop

/-! ## 6. There and back -/

theorem start_eq_ofWriter (buffer : Octets) : Place.start buffer = .ofWriter (.ofBuffer buffer) := by
  apply Place.ext
  · exact (List.nil_append buffer).symm
  · rfl

/-- After any run, the buffer starts with the octets of the fields that went in and is for the rest
as it was, and from these octets the fields are taken again.  A run in place does what the writer
does, and taking in place what the readers do. -/
theorem fields_roundTrip :
    (∀ (fields : List Field) (buffer : Octets), ∃ log p written,
      runAll Field.put fields (.start buffer) = (log, p) ∧ log.map Prod.fst = fields ∧
      written = (succeeded log).flatMap Field.wire ∧
      p.buffer = written ++ buffer.drop written.length ∧ p.position = written.length ∧
      p.buffer.length = buffer.length ∧ TakenAs (succeeded log) written ∧
      runAll Field.attempt fields (.ofBuffer buffer) = (log, p.writer)) ∧
    ∀ (kinds : List Kind) (p : Place),
      runUntilFailure (Cursor.readKey Kind.reader) kinds p.cursor =
        ((runUntilFailure Kind.take kinds p).1, (runUntilFailure Kind.take kinds p).2.cursor) := by
  refine ⟨fun fields buffer => ?_, fun kinds p => (Mirrors.run Kind.mirrors_take kinds p).2⟩
  obtain ⟨hwriter, hlength, hfits⟩ := Field.runAll_attempt fields (.ofBuffer buffer)
  have hkeys := runAll_keys Field.attempt fields (.ofBuffer buffer)
  have hput := Field.runAll_put fields (.ofBuffer buffer)
  -- What there is to know of the run is now said of what it leaves.
  generalize runAll Field.attempt fields (.ofBuffer buffer) = run at *
  obtain ⟨log, w⟩ := run
  dsimp only at hwriter hlength hfits hkeys hput
  have hbuffer : w.buffer = _ := hwriter ▸ Writer.buffer_extend_ofBuffer buffer _
  have hposition : w.position = _ := hwriter ▸ Writer.position_extend_ofBuffer buffer _
  refine ⟨log, .ofWriter w, _, (start_eq_ofWriter buffer).symm ▸ hput, hkeys, rfl, hbuffer,
    hposition, ?_, takenAs_wire hfits, ?_⟩
  · show w.buffer.length = _
    have hroom : _ ≤ buffer.length := hlength
    rw [hbuffer, List.length_append, List.length_drop]
    omega
  · rw [Place.writer_ofWriter]

/-- Octets that are too many and a string that does not go in are left out.  Of four of the six
octets that are written the number is taken, and then nothing of the string behind it. -/
theorem fields_roundTrip_example :
    ∃ log p before f after p',
      runAll Field.put [.uint16 258, .octets (List.replicate 9 1), .string8 [97, 98],
        .string16 [99], .uint8 7] (.start (List.replicate 7 0)) = (log, p) ∧
      succeeded log = [.uint16 258, .string8 [97, 98], .uint8 7] ∧
      p.buffer = [1, 2, 2, 97, 98, 7, 0] ∧ p.position = 6 ∧
      4 < ([1, 2, 2, 97, 98, 7] : Octets).length ∧ succeeded log = before ++ f :: after ∧
      runUntilFailure Kind.take (before.map Field.kind) (.start [1, 2, 2, 97]) = (.ok before, p') ∧
      f.kind.take p' = (.error .truncated, p') := by
  obtain ⟨log, p, written, hrun, -, hwritten, hbuffer, hposition, -, htaken, -⟩ :=
    fields_roundTrip.1 [.uint16 258, .octets (List.replicate 9 1), .string8 [97, 98],
      .string16 [99], .uint8 7] (List.replicate 7 0)
  have hlog : succeeded log = [.uint16 258, .string8 [97, 98], .uint8 7] := by
    rw [show log = _ from (congrArg Prod.fst hrun).symm]
    decide +kernel
  obtain rfl : written = [1, 2, 2, 97, 98, 7] := by
    rw [hwritten, hlog]
    decide +kernel
  obtain ⟨before, f, after, p', hfields, htake, -, -, hstop, -⟩ := htaken.cut 4 (by decide)
  exact ⟨log, p, before, f, after, p', hrun, hlog, hbuffer, hposition, by decide, hfields, htake,
    hstop⟩

end InPlace

end Nameserver

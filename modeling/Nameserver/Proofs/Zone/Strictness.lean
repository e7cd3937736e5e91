import Nameserver.Proofs.Zone.Load
/-!
# Strictness

A zone file is read with names that have to end in a dot or with names that may lack it.  Both runs
do the same up to the first name without its dot, which is the only thing that one of them minds and
the other does not.
-/

namespace Nameserver

/-! ## 1. Two runs -/

/-- The first of two runs ends as the second does, or it stops with an error of its own. -/
def SameOr {ε α : Type} (e : ε) (x y : Except ε α) : Prop := x = y ∨ x = .error e

namespace SameOr

variable {ε ε' α β : Type} {e : ε} {x y : Except ε α}

theorem refl (e : ε) (x : Except ε α) : SameOr e x x := .inl rfl

theorem bind (h : SameOr e x y) {f g : α → Except ε β} (hf : ∀ a, SameOr e (f a) (g a)) :
    SameOr e (x >>= f) (y >>= g) := by
  rcases h with rfl | rfl
  · cases x with
    | error e' => exact refl e _
    | ok a => exact hf a
  · exact .inr rfl

theorem mapError (h : SameOr e x y) (f : ε → ε') :
    SameOr (f e) (x.mapError f) (y.mapError f) := by
  rcases h with rfl | rfl
  · exact refl _ _
  · exact .inr rfl

theorem map (h : SameOr e x y) (f : α → β) : SameOr e (x.map f) (y.map f) := by
  rcases h with rfl | rfl
  · exact refl _ _
  · exact .inr rfl

end SameOr

/-! ## 2. Names -/

namespace Name

/-- The end of a name is the one place where strictness is asked for. -/
theorem Gathered.finish_sameOr (g : Gathered) :
    SameOr .missingTrailingDot (g.finish .trailingDot) (g.finish .relaxed) := by
  unfold finish
  split
  next => exact .inr rfl
  next => exact .refl _ _

/-- Only the end of a name's text is read in two ways. -/
theorem read_sameOr (t : Text) :
    SameOr .missingTrailingDot (read .trailingDot t) (read .relaxed t) := by
  unfold read
  apply SameOr.bind (.refl _ _)
  intro g
  apply SameOr.bind (.refl _ _)
  intro rest
  apply SameOr.bind g.finish_sameOr
  intro strings
  exact .refl _ _

end Name

/-! ## 3. Records -/

namespace RecordData

/-- A name in record data is read alike, unless it lacks its dot. -/
theorem readName_sameOr (t : Text) :
    SameOr (.name .missingTrailingDot) (readName .trailingDot t) (readName .relaxed t) :=
  (Name.read_sameOr t).mapError Error.name

theorem readExchange_sameOr (t : Text) :
    SameOr (.name .missingTrailingDot) (readExchange .trailingDot t) (readExchange .relaxed t) := by
  -- The preference is read in the same way, so only the name after it can make a difference.
  unfold readExchange
  split
  next => exact .refl _ _
  next field rest _ =>
    apply SameOr.bind (.refl _ _)
    intro _
    split
    next => exact .refl _ _
    next preference _ => exact (readName_sameOr _).bind fun _ => .refl _ _

/-- An authority has two names, and its numbers are read alike. -/
theorem readAuthority_sameOr (t : Text) :
    SameOr (.name .missingTrailingDot) (readAuthority .trailingDot t)
      (readAuthority .relaxed t) := by
  unfold readAuthority
  apply (readName_sameOr t).bind
  intro ⟨mname, rest⟩
  apply SameOr.bind (.refl _ _)
  intro _
  exact (readName_sameOr _).bind fun _ => .refl _ _

theorem Form.read_sameOr (form : Form) (t : Text) :
    SameOr (.name .missingTrailingDot) (form.read .trailingDot t) (form.read .relaxed t) := by
  cases form with
  | address => exact .refl _ _
  | name => exact (readName_sameOr t).bind fun _ => .refl _ _
  | exchange => exact readExchange_sameOr t
  | authority => exact readAuthority_sameOr t

theorem ofText_sameOr (rtype : RecordType) (t : Text) :
    SameOr (.name .missingTrailingDot) (ofText .trailingDot rtype t) (ofText .relaxed rtype t) := by
  unfold ofText
  apply SameOr.bind (.refl _ _)
  intro form
  rcases form.read_sameOr t with h | h
  · rw [h]
    exact .refl _ _
  · rw [h]
    exact .inr rfl

end RecordData

namespace Record

/-- A line may have up to three names.  The runs part at the first one that lacks its dot. -/
theorem ofText_sameOr (line : Text) :
    SameOr (.name .missingTrailingDot) (ofText .trailingDot line) (ofText .relaxed line) := by
  unfold ofText
  apply ((Name.read_sameOr _).mapError Error.name).bind
  intro ⟨owner, rest⟩
  apply SameOr.bind (.refl _ _)
  intro ⟨ttl, rest⟩
  apply SameOr.bind (.refl _ _)
  intro ⟨rclass, rest⟩
  apply SameOr.bind (.refl _ _)
  intro ⟨rtype, rest⟩
  dsimp only
  split
  next => exact .refl _ _
  next =>
    apply SameOr.bind (.refl _ _)
    intro ttl
    apply SameOr.bind (.refl _ _)
    intro _
    apply SameOr.bind (.refl _ _)
    intro rtype
    exact (RecordData.ofText_sameOr rtype _).bind fun _ => .refl _ _

end Record

/-! ## 4. Zone files -/

namespace DomainTree

/-- A line is passed over in both runs, or read in both. -/
theorem readLine_sameOr (line : Text) :
    SameOr (.name .missingTrailingDot) (readLine .trailingDot line) (readLine .relaxed line) := by
  unfold readLine
  dsimp only
  split
  next => exact .refl _ _
  next => exact (Record.ofText_sameOr _).map some

/-- The line with the given number is the first one on which a name has to end in a dot and does
not.  The lines before it are read alike whether names have to or not. -/
def FirstWithoutDot (lines : List Octets) (number : Nat) : Prop :=
  ∃ before line after, lines = before ++ line :: after ∧ number = before.length + 1 ∧
    (∀ l ∈ before, ∃ found, readLine .trailingDot l = .ok found ∧ readLine .relaxed l = .ok found) ∧
    readLine .trailingDot line = .error (.name .missingTrailingDot)

/-- Of two runs over lines that come after `offset` others, the first ends as the second does, or it
stops at the first line without a dot. -/
def SameUntilDot {α : Type} (offset : Nat) (lines : List Octets) (x y : Except LoadError α) :
    Prop :=
  x = y ∨ ∃ number, FirstWithoutDot lines number ∧
    x = .error (.line (offset + number) (.name .missingTrailingDot))

variable {line : Octets} {lines : List Octets} {offset : Nat}

theorem sameUntilDot_head {α : Type}
    (h : readLine .trailingDot line = .error (.name .missingTrailingDot)) (lines : List Octets)
    (y : Except LoadError α) :
    SameUntilDot offset (line :: lines)
      (.error (.line (offset + 1) (.name .missingTrailingDot))) y :=
  .inr ⟨1, ⟨[], line, lines, rfl, rfl, fun _ hl => absurd hl List.not_mem_nil, h⟩, rfl⟩

/-- Behind a line that is read alike, the first line without a dot is still the first one. -/
theorem SameUntilDot.cons {α : Type} {x y : Except LoadError α}
    (h : SameUntilDot (offset + 1) lines x y) {found : Option Record}
    (hstrict : readLine .trailingDot line = .ok found)
    (hrelaxed : readLine .relaxed line = .ok found) :
    SameUntilDot offset (line :: lines) x y := by
  rcases h with h | ⟨number, ⟨before, missing, after, rfl, rfl, hbefore, hmissing⟩, rfl⟩
  · exact .inl h
  · have hall := List.forall_mem_cons.2 ⟨⟨found, hstrict, hrelaxed⟩, hbefore⟩
    refine .inr ⟨_, ⟨line :: before, missing, after, rfl, rfl, hall, hmissing⟩, ?_⟩
    rw [List.length_cons, Nat.add_right_comm offset, Nat.add_assoc offset]

/-- As long as both loads read the same lines, they have the same tree. -/
theorem loadLines_sameUntilDot (t : DomainTree) (offset : Nat) (lines : List Octets) :
    SameUntilDot offset lines (loadLines .trailingDot t (offset + 1) lines)
      (loadLines .relaxed t (offset + 1) lines) := by
  induction lines generalizing t offset with
  | nil => exact .inl rfl
  | cons line lines ih =>
    unfold loadLines
    split
    next =>
      -- The runs part here, or they go on with the same tree.
      rcases readLine_sameOr line with h | h
      · cases hrelaxed : readLine .relaxed line with
        | error e =>
          rw [h, hrelaxed]
          exact .inl rfl
        | ok found =>
          rw [hrelaxed] at h
          rw [h]
          cases found with
          | none => exact (ih t (offset + 1)).cons h hrelaxed
          | some r => exact (ih (t.add r) (offset + 1)).cons h hrelaxed
      · rw [h]
        exact sameUntilDot_head h lines _
    next => exact .inl rfl

/-- Whether names have to end in a dot changes nothing but that.  A name, a line and a zone file are
read to the same result, or with the same error, unless a dot is asked for and missing; and then it
is the first line without one that a load reports. -/
theorem strictness_only_asks_for_dots :
    (∀ t, SameOr .missingTrailingDot (Name.read .trailingDot t) (Name.read .relaxed t)) ∧
    (∀ line, SameOr (.name .missingTrailingDot) (Record.ofText .trailingDot line)
      (Record.ofText .relaxed line)) ∧
    ∀ file, load .trailingDot file = load .relaxed file ∨
      ∃ number, FirstWithoutDot (Text.lines file) number ∧
        load .trailingDot file = .error (.line number (.name .missingTrailingDot)) := by
  refine ⟨Name.read_sameOr, Record.ofText_sameOr, fun file => ?_⟩
  rcases loadLines_sameUntilDot empty 0 (Text.lines file) with h | ⟨number, hfirst, h⟩
  · left
    rw [load, load, h]
  · right
    refine ⟨number, hfirst, ?_⟩
    rw [load, h, Nat.zero_add]
    rfl

end DomainTree

end Nameserver

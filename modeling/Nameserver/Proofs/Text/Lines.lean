import Nameserver.Proofs.Text.Blank
import Nameserver.Proofs.Text.Utf8
/-!
# The lines of a text

Each line of a text has an end, a line feed or a carriage return and a line feed, but the last line
may have none.  There is one way to part a text so.  Main statements: lines that come in between are
lines in between, and a line is the same with either end.
-/

namespace Nameserver.Text

variable {t front back line : Text} {ls : List Text}

/-! ## 1. Lines and their ends -/

/-- The two ends that a line may have. -/
inductive LineEnd where
  | lineFeed
  | returnAndLineFeed
  deriving DecidableEq

def LineEnd.octets : LineEnd → Text
  | lineFeed => [Text.lineFeed]
  | returnAndLineFeed => [carriageReturn, Text.lineFeed]

/-- The end is the whole end of the line: no line feed comes before it, and no carriage return that
would belong to it. -/
structure LineEnd.Ends (e : LineEnd) (line : Text) : Prop where
  no_lineFeed : Text.lineFeed ∉ line
  no_return : e = lineFeed → line.getLast? ≠ some carriageReturn

/-- A text and the lines that it is made of. -/
inductive HasLines : Text → List Text → Prop
  | nil : HasLines [] []
  | unended {line : Text} (ne_nil : line ≠ []) (no_lineFeed : lineFeed ∉ line) :
      HasLines line [line]
  | ended {line rest : Text} {ls : List Text} {e : LineEnd} (ends : e.Ends line)
      (others : HasLines rest ls) : HasLines (line ++ (e.octets ++ rest)) (line :: ls)

/-- An octet that ends no line stands in front of the first line. -/
theorem lines_cons {o : UInt8} (hne : o ≠ lineFeed)
    (hreturn : o = carriageReturn → t.head? ≠ some lineFeed) :
    lines (o :: t) = consFirst o (lines t) := by
  rw [lines]
  · rintro rest rfl rfl
    exact hreturn rfl rfl
  · exact hne

theorem lines_unended (hne : line ≠ []) (h : lineFeed ∉ line) : lines line = [line] := by
  induction line with
  | nil => exact absurd rfl hne
  | cons o line ih =>
    rw [List.mem_cons, not_or] at h
    have hhead : line.head? ≠ some lineFeed := fun hhead => h.2 (List.mem_of_head? hhead)
    rw [lines_cons (Ne.symm h.1) fun _ => hhead]
    by_cases hnil : line = []
    · rw [hnil]
      rfl
    · rw [ih hnil h.2]
      rfl

/-- A line with its end is the first line, and the others are those of the rest. -/
theorem lines_ended {e : LineEnd} (h : e.Ends line) (rest : Text) :
    lines (line ++ (e.octets ++ rest)) = line :: lines rest := by
  induction line with
  | nil => cases e <;> rfl
  | cons o line ih =>
    obtain ⟨hno, hreturn⟩ := h
    rw [List.mem_cons, not_or] at hno
    have hends : e.Ends line := by
      refine ⟨hno.2, fun he hlast => hreturn he ?_⟩
      rw [List.getLast?_cons, hlast]
      rfl
    have hhead : o = carriageReturn → (line ++ (e.octets ++ rest)).head? ≠ some lineFeed := by
      rintro rfl hhead
      cases line with
      | cons o line =>
        rw [List.cons_append, List.head?_cons, Option.some_inj] at hhead
        exact hno.2 (hhead ▸ List.mem_cons_self)
      | nil =>
        -- Behind a carriage return at the end there is another one.
        cases e with
        | lineFeed => exact hreturn rfl rfl
        | returnAndLineFeed => cases hhead
    rw [List.cons_append, lines_cons (Ne.symm hno.1) hhead, ih hends, consFirst]

theorem HasLines.lines_eq (h : HasLines t ls) : lines t = ls := by
  induction h with
  | nil => rfl
  | unended ne_nil no_lineFeed => exact lines_unended ne_nil no_lineFeed
  | ended ends others ih => rw [lines_ended ends, ih]

/-- Up to its first line feed a text has a line with its end. -/
theorem exists_ends_of_mem (h : lineFeed ∈ t) :
    ∃ line e rest, t = line ++ (LineEnd.octets e ++ rest) ∧ e.Ends line := by
  obtain ⟨front, rest, rfl, hfront⟩ := List.eq_append_cons_of_mem h
  by_cases hreturn : front.getLast? = some carriageReturn
  -- A carriage return right before the line feed belongs to the end.
  · obtain ⟨line, rfl⟩ := List.getLast?_eq_some_iff.1 hreturn
    refine ⟨line, .returnAndLineFeed, rest, by simp [LineEnd.octets], ?_, nofun⟩
    exact fun hline => hfront (List.mem_append_left _ hline)
  · exact ⟨front, .lineFeed, rest, rfl, hfront, fun _ => hreturn⟩

theorem hasLines_lines (t : Text) : HasLines t (lines t) := by
  by_cases h : lineFeed ∈ t
  · obtain ⟨line, e, rest, ht, ends⟩ := exists_ends_of_mem h
    -- The end takes an octet at least, so there is less text behind the line.
    have hshorter : rest.length < t.length := by
      have hpos : 0 < e.octets.length := by cases e <;> decide
      rw [ht, List.length_append, List.length_append]
      omega
    have hlines := HasLines.ended ends (hasLines_lines rest)
    rwa [← lines_ended ends, ← ht] at hlines
  · by_cases hnil : t = []
    · rw [hnil]
      exact .nil
    · rw [lines_unended hnil h]
      exact .unended hnil h
termination_by t.length

/-- There is one way to part a text into lines. -/
theorem lines_eq_iff : lines t = ls ↔ HasLines t ls := by
  constructor
  · rintro rfl
    exact hasLines_lines t
  · exact HasLines.lines_eq

/-! ## 2. Texts behind each other -/

/-- A line starts behind the text. -/
def AtLineStart (t : Text) : Prop := t = [] ∨ t.getLast? = some lineFeed

/-- Behind a whole line, the lines of another text follow. -/
theorem lines_append (h : AtLineStart front) (back : Text) :
    lines (front ++ back) = lines front ++ lines back := by
  have hfront := hasLines_lines front
  generalize lines front = ls at hfront
  induction hfront with
  | nil => rfl
  | unended ne_nil no_lineFeed =>
    exact absurd (List.mem_of_getLast? (h.resolve_left ne_nil)) no_lineFeed
  | @ended line rest ls e ends others ih =>
    have hrest : AtLineStart rest := by
      rcases List.eq_nil_or_concat rest with rfl | ⟨init, o, rfl⟩
      · exact .inl rfl
      · refine .inr ?_
        have hlast := h.resolve_left (by cases e <;> simp [LineEnd.octets])
        simpa [List.getLast?_append] using hlast
    rw [List.append_assoc, List.append_assoc, lines_ended ends, ih hrest, List.cons_append]

/-- A line between two texts is a line between theirs. -/
theorem lines_append_ended {e : LineEnd} (hfront : AtLineStart front) (ends : e.Ends line)
    (back : Text) :
    lines (front ++ (line ++ (e.octets ++ back))) = lines front ++ line :: lines back := by
  rw [lines_append hfront, lines_ended ends]

/-- The lines of a text are text. -/
theorem isUtf8_of_mem_lines (h : isUtf8 t = true) : ∀ line ∈ lines t, isUtf8 line = true := by
  have hlines := hasLines_lines t
  generalize lines t = ls at hlines
  induction hlines with
  | nil => exact fun line hline => absurd hline List.not_mem_nil
  | unended _ _ =>
    intro line hline
    rwa [List.mem_singleton.1 hline]
  | @ended line rest ls e ends others ih =>
    have hparts : isUtf8 line = true ∧ isUtf8 rest = true := by
      cases e with
      | lineFeed =>
        have hsplit := isUtf8_append_cons (o := lineFeed) (by decide) line rest
        rw [← Bool.and_eq_true, ← hsplit]
        exact h
      | returnAndLineFeed =>
        have hsplit := isUtf8_append_cons (o := carriageReturn) (by decide) line (lineFeed :: rest)
        have hrest : isUtf8 (lineFeed :: rest) = isUtf8 rest :=
          (isUtf8_append_cons (by decide) [] rest).trans (Bool.true_and _)
        rw [← Bool.and_eq_true, ← hrest, ← hsplit]
        exact h
    exact List.forall_mem_cons.2 ⟨hparts.1, ih hparts.2⟩

end Nameserver.Text

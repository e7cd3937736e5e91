import Nameserver.Proofs.Text.Blank
import Nameserver.Text.Columns
/-!
# Printed text

Printed texts are printable ASCII with no blank at either end.  Blanks that are put around such a
text, as columns are, come off again, and a number in decimal digits is read as that number.
-/

namespace Nameserver.Text

/-! ## 1. Visible octets -/

/-- The printable octets but the space. -/
def isVisible (o : UInt8) : Bool := 0x21 ≤ o && o ≤ 0x7e

theorem isVisible_iff {o : UInt8} : isVisible o = true ↔ 0x21 ≤ o.toNat ∧ o.toNat ≤ 0x7e := by
  rw [isVisible, Bool.and_eq_true, decide_eq_true_eq, decide_eq_true_eq, UInt8.le_iff_toNat_le,
    UInt8.le_iff_toNat_le]
  rfl

theorem isPrintable_iff {o : UInt8} : isPrintable o = true ↔ 0x20 ≤ o.toNat ∧ o.toNat ≤ 0x7e := by
  rw [isPrintable, Bool.and_eq_true, decide_eq_true_eq, decide_eq_true_eq, UInt8.le_iff_toNat_le,
    UInt8.le_iff_toNat_le]
  rfl

theorem isPrintable_of_isVisible {o : UInt8} (h : isVisible o = true) : isPrintable o = true := by
  rw [isVisible_iff] at h
  rw [isPrintable_iff]
  omega

theorem isSpace_eq_false {o : UInt8} (h : isVisible o = true) : isSpace o = false := by
  -- None of the five blanks is visible.
  have hne : ∀ b : UInt8, isVisible b = false → (o == b) = false := by
    intro b hb
    rw [beq_eq_false_iff_ne]
    rintro rfl
    rw [h] at hb
    cases hb
  rw [isSpace, hne 0x20 rfl, hne 0x09 rfl, hne 0x0a rfl, hne 0x0c rfl, hne 0x0d rfl]
  rfl

/-- Every digit is visible. -/
theorem isVisible_of_isDigit {o : UInt8} (h : isDigit o = true) : isVisible o = true := by
  rw [isDigit, Bool.and_eq_true, decide_eq_true_eq, decide_eq_true_eq, UInt8.le_iff_toNat_le,
    UInt8.le_iff_toNat_le] at h
  have hlow : 0x30 ≤ o.toNat := h.1
  have hhigh : o.toNat ≤ 0x39 := h.2
  rw [isVisible_iff]
  omega

/-! ## 2. Blanks at the ends -/

/-- No blank character starts or ends with a visible octet. -/
theorem blanks_ends : ∀ u ∈ blanks, u ≠ [] ∧ (u.head?.all fun o => !isVisible o) = true ∧
    (u.getLast?.all fun o => !isVisible o) = true := by
  decide +kernel

/-- No blank text starts with an octet that can be seen. -/
theorem isVisible_of_isBlank {o : UInt8} {t : Text} (h : IsBlank (o :: t)) : isVisible o = false := by
  obtain ⟨u, hu⟩ := exists_cons_mem_blanks h
  simpa using (blanks_ends _ hu).2.1

/-- A text that starts with a visible octet starts with no blank. -/
theorem not_prefix_cons {o : UInt8} (ho : isVisible o = true) (t : Text) :
    ∀ u ∈ blanks, ¬ u <+: o :: t := by
  intro u hu hstarts
  obtain ⟨hne, hhead, -⟩ := blanks_ends u hu
  obtain ⟨first, u, rfl⟩ := List.exists_cons_of_ne_nil hne
  rw [(List.cons_prefix_cons.1 hstarts).1, List.head?_cons, Option.all_some, ho] at hhead
  cases hhead

/-- A text that ends with a visible octet ends with no blank. -/
theorem not_suffix_concat {o : UInt8} (ho : isVisible o = true) (t : Text) :
    ∀ u ∈ blanks, ¬ u <:+ t ++ [o] := by
  rintro u hu ⟨front, hfront⟩
  obtain ⟨hne, -, hlast⟩ := blanks_ends u hu
  have hlast' : (front ++ u).getLast? = u.getLast? := by
    rw [List.getLast?_append, List.getLast?_eq_some_getLast hne]
    rfl
  rw [← hlast', hfront, List.getLast?_concat, Option.all_some, ho] at hlast
  cases hlast

theorem trimStart_of_visible {o : UInt8} (ho : isVisible o = true) (t : Text) :
    trimStart (o :: t) = o :: t :=
  trimStart_eq_iff.2 ⟨[], isBlank_nil, rfl, not_prefix_cons ho t⟩

theorem trimEnd_of_visible {o : UInt8} (ho : isVisible o = true) (t : Text) :
    trimEnd (t ++ [o]) = t ++ [o] :=
  trimEnd_eq_iff.2 ⟨[], isBlank_nil, (List.append_nil _).symm, not_suffix_concat ho t⟩

theorem trimStart_spaces (n : Nat) (t : Text) :
    trimStart (List.replicate n space ++ t) = trimStart t :=
  trimStart_append_of_isBlank (isBlank_spaces n) t

theorem trimStart_space (t : Text) : trimStart (space :: t) = trimStart t := trimStart_spaces 1 t

/-! ## 3. Printed texts -/

/-- A text that can stand as a field of a line: one or more visible octets. -/
structure IsField (t : Text) : Prop where
  nonempty : t ≠ []
  visible : t.all isVisible = true

instance (t : Text) : Decidable t.IsField :=
  decidable_of_iff (t ≠ [] ∧ t.all isVisible = true)
    ⟨fun ⟨hne, hall⟩ => ⟨hne, hall⟩, fun ⟨hne, hall⟩ => ⟨hne, hall⟩⟩

theorem IsField.append {s t : Text} (hs : s.IsField) (ht : t.all isVisible = true) :
    (s ++ t).IsField := by
  refine ⟨List.append_ne_nil_of_left_ne_nil hs.nonempty t, ?_⟩
  rw [List.all_append, hs.visible, ht]
  rfl

/-- A text of printable octets that starts and ends with a visible one. -/
structure Printed (t : Text) : Prop where
  printable : t.all isPrintable = true
  first : t.head?.any isVisible = true
  last : t.getLast?.any isVisible = true

instance (t : Text) : Decidable t.Printed :=
  decidable_of_iff (t.all isPrintable = true ∧ t.head?.any isVisible = true ∧
    t.getLast?.any isVisible = true)
    ⟨fun ⟨hall, hfirst, hlast⟩ => ⟨hall, hfirst, hlast⟩,
      fun ⟨hall, hfirst, hlast⟩ => ⟨hall, hfirst, hlast⟩⟩

theorem IsField.printed {t : Text} (h : t.IsField) : t.Printed := by
  have hvisible := List.all_eq_true.1 h.visible
  refine ⟨?_, ?_, ?_⟩
  · rw [List.all_eq_true]
    exact fun o ho => isPrintable_of_isVisible (hvisible o ho)
  · rw [List.head?_eq_some_head h.nonempty, Option.any_some]
    exact hvisible _ (List.head_mem h.nonempty)
  · rw [List.getLast?_eq_some_getLast h.nonempty, Option.any_some]
    exact hvisible _ (List.getLast_mem h.nonempty)

namespace Printed

variable {s t : Text}

theorem exists_cons (h : t.Printed) : ∃ o rest, t = o :: rest ∧ isVisible o = true := by
  cases t with
  | nil => cases h.first
  | cons o rest => exact ⟨o, rest, rfl, h.first⟩

theorem exists_append_singleton (h : t.Printed) :
    ∃ rest o, t = rest ++ [o] ∧ isVisible o = true := by
  cases hlast : t.getLast? with
  | none =>
    have hvisible := h.last
    rw [hlast] at hvisible
    cases hvisible
  | some o =>
    obtain ⟨rest, rfl⟩ := List.getLast?_eq_some_iff.1 hlast
    have hvisible := h.last
    rw [hlast] at hvisible
    exact ⟨rest, o, rfl, hvisible⟩

/-- Two printed texts with printable octets between them are a printed text. -/
theorem append (hs : s.Printed) (ht : t.Printed) {gap : Text} (hgap : gap.all isPrintable = true) :
    (s ++ (gap ++ t)).Printed := by
  obtain ⟨o, rest, rfl, ho⟩ := hs.exists_cons
  obtain ⟨front, p, rfl, hp⟩ := ht.exists_append_singleton
  refine ⟨?_, ho, ?_⟩
  · rw [List.all_append, List.all_append, hs.printable, hgap, ht.printable]
    rfl
  · rw [← List.append_assoc, ← List.append_assoc, List.getLast?_concat]
    exact hp

theorem trimStart_append (h : t.Printed) (rest : Text) : trimStart (t ++ rest) = t ++ rest := by
  obtain ⟨o, after, rfl, ho⟩ := h.exists_cons
  exact trimStart_of_visible ho _

theorem trimStart_eq (h : t.Printed) : trimStart t = t := by
  have htrim := h.trimStart_append []
  rwa [List.append_nil] at htrim

/-- Blanks in front of a printed text come off, and nothing else does. -/
theorem trim_spaces (h : t.Printed) (n : Nat) : trim (List.replicate n space ++ t) = t := by
  rw [trim, trimStart_spaces, h.trimStart_eq]
  obtain ⟨rest, o, rfl, ho⟩ := h.exists_append_singleton
  exact trimEnd_of_visible ho rest

end Printed

theorem all_replicate_space (n : Nat) : (List.replicate n space).all isPrintable = true := by
  rw [List.all_replicate]
  split <;> rfl

/-! ## 4. Fields -/

/-- A text before which a field ends: nothing, or an ASCII blank and what comes after it. -/
def EndsField (rest : Text) : Prop := rest.head?.all isSpace = true

instance (rest : Text) : Decidable (EndsField rest) := inferInstanceAs (Decidable (_ = _))

/-- A field ends at the first blank, which is where the rest starts. -/
theorem takeWhile_append_dropWhile_of_endsField {field rest : Text}
    (hfield : field.all isVisible = true) (hrest : EndsField rest) :
    ((field ++ rest).takeWhile fun o => !isSpace o) = field ∧
      ((field ++ rest).dropWhile fun o => !isSpace o) = rest := by
  have hinside : ∀ o ∈ field, (!isSpace o) = true := by
    intro o ho
    rw [isSpace_eq_false (List.all_eq_true.1 hfield o ho)]
    rfl
  rw [List.takeWhile_append_of_pos hinside, List.dropWhile_append_of_pos hinside]
  cases rest with
  | nil => exact ⟨List.append_nil _, rfl⟩
  | cons o rest =>
    have ho : isSpace o = true := hrest
    rw [List.takeWhile_cons, List.dropWhile_cons, ho]
    exact ⟨List.append_nil _, rfl⟩

/-- A field is taken off a line with the blanks before it, and what is left starts with an ASCII
blank, if anything is left. -/
theorem exists_gap_of_nextField? {t field rest : Text} (h : nextField? t = some (field, rest)) :
    ∃ gap, IsBlank gap ∧ t = gap ++ (field ++ rest) ∧ field ≠ [] ∧ EndsField rest ∧
      ∀ u ∈ blanks, ¬ u <+: field ++ rest := by
  obtain ⟨gap, hgap, ht, hnot⟩ := trimStart_eq_iff.1 (rfl : trimStart t = trimStart t)
  unfold nextField? at h
  generalize trimStart t = trimmed at h ht hnot
  dsimp only at h
  split at h
  next => cases h
  next hnonempty =>
    cases h
    refine ⟨gap, hgap, by rw [List.takeWhile_append_dropWhile]; exact ht, ?_, ?_,
      by rw [List.takeWhile_append_dropWhile]; exact hnot⟩
    · cases trimmed with
      | nil => exact absurd rfl hnonempty
      | cons o trimmed =>
        -- What is left after trimming starts with no blank, so the field is not empty.
        have ho : isSpace o = false := by
          rw [Bool.eq_false_iff]
          exact fun hspace => hnot _ (singleton_mem_blanks hspace) (List.prefix_append [o] trimmed)
        rw [List.takeWhile_cons, ho]
        exact List.cons_ne_nil _ _
    · have hhead := List.head?_dropWhile_not (fun o => !isSpace o) trimmed
      unfold EndsField
      split at hhead
      next o ho =>
        rw [ho]
        simpa using hhead
      next hnone =>
        rw [hnone]
        rfl

/-- A field of visible octets is taken off the front of a line, with the blanks before it. -/
theorem nextField?_of_isField {gap field rest : Text} (hgap : IsBlank gap) (hfield : field.IsField)
    (hrest : EndsField rest) : nextField? (gap ++ (field ++ rest)) = some (field, rest) := by
  obtain ⟨htake, hdrop⟩ := takeWhile_append_dropWhile_of_endsField hfield.visible hrest
  obtain ⟨o, after, rfl, ho⟩ := hfield.printed.exists_cons
  have htrim : trimStart (gap ++ (o :: after ++ rest)) = o :: after ++ rest :=
    trimStart_eq_iff.2 ⟨gap, hgap, rfl, not_prefix_cons ho (after ++ rest)⟩
  rw [nextField?, htrim, htake, hdrop]
  rfl

theorem nextField?_spaces {field rest : Text} (hfield : field.IsField) (hrest : EndsField rest)
    (n : Nat) : nextField? (List.replicate n space ++ (field ++ rest)) = some (field, rest) :=
  nextField?_of_isField (isBlank_spaces n) hfield hrest

/-! ## 5. Columns -/

/-- A column is filled up with one or more spaces. -/
theorem exists_padToTabStop (t : Text) :
    ∃ n, padToTabStop t = t ++ List.replicate (n + 1) space := by
  have hgap : 8 - t.length % 8 = 7 - t.length % 8 + 1 := by omega
  exact ⟨7 - t.length % 8, by rw [padToTabStop, hgap]⟩

theorem exists_padToWidth (width : Nat) (t : Text) :
    ∃ n, padToWidth width t = t ++ List.replicate (n + 1) space := by
  have hgap : max 1 (width - t.length) = max 1 (width - t.length) - 1 + 1 := by omega
  exact ⟨max 1 (width - t.length) - 1, by rw [padToWidth, ← hgap]⟩

/-- Columns come one after another, each with one or more spaces before it. -/
theorem exists_joinAtTabStops (t : Text) (columns : List Text) :
    ∃ gaps : List Nat, gaps.length = columns.length ∧
      joinAtTabStops t columns = t ++ (List.zipWith
        (fun gap column => List.replicate (gap + 1) space ++ column) gaps columns).flatten := by
  induction columns generalizing t with
  | nil => exact ⟨[], rfl, (List.append_nil t).symm⟩
  | cons column columns ih =>
    obtain ⟨gap, hpad⟩ := exists_padToTabStop t
    obtain ⟨gaps, hlength, hjoin⟩ := ih (padToTabStop t ++ column)
    refine ⟨gap :: gaps, congrArg (· + 1) hlength, ?_⟩
    rw [joinAtTabStops, hjoin, hpad, List.zipWith_cons_cons, List.flatten_cons, List.append_assoc,
      List.append_assoc, List.append_assoc]

namespace Printed

variable {s t : Text}

theorem padToTabStop_append (hs : s.Printed) (ht : t.Printed) : (padToTabStop s ++ t).Printed := by
  obtain ⟨n, hpad⟩ := exists_padToTabStop s
  rw [hpad, List.append_assoc]
  exact hs.append ht (all_replicate_space _)

/-- Printed columns stand in a printed line. -/
theorem joinAtTabStops (ht : t.Printed) {columns : List Text} (h : ∀ c ∈ columns, c.Printed) :
    (joinAtTabStops t columns).Printed := by
  induction columns generalizing t with
  | nil => exact ht
  | cons c columns ih =>
    obtain ⟨hc, hcolumns⟩ := List.forall_mem_cons.1 h
    exact ih (ht.padToTabStop_append hc) hcolumns

/-- So they do where the first column has a width, if there is a second one. -/
theorem joinAtTabStops_padToWidth (ht : t.Printed) (width : Nat) {c : Text} {columns : List Text}
    (h : ∀ c' ∈ c :: columns, c'.Printed) :
    (Text.joinAtTabStops (padToWidth width t) (c :: columns)).Printed := by
  obtain ⟨m, hwidth⟩ := exists_padToWidth width t
  obtain ⟨n, hpad⟩ := exists_padToTabStop (padToWidth width t)
  obtain ⟨hc, hcolumns⟩ := List.forall_mem_cons.1 h
  have hfirst : (padToTabStop (padToWidth width t) ++ c).Printed := by
    rw [hpad, hwidth, List.append_assoc, List.append_assoc, ← List.append_assoc (List.replicate _ _),
      List.replicate_append_replicate]
    exact ht.append hc (all_replicate_space _)
  exact hfirst.joinAtTabStops hcolumns

end Printed

/-! ## 6. Numbers -/

theorem isDigit_digit (n : Nat) : isDigit (digit n) = true := by
  have hsame : digit (n % 10) = digit n := by rw [digit, digit, Nat.mod_mod]
  -- The digit is what a number below ten is printed as.
  have hdecimal : decimal (n % 10) = [digit (n % 10)] := by
    rw [decimal, if_pos (Nat.mod_lt n (by decide))]
  exact isDigit_of_mem_decimal (digit n) (by rw [hdecimal, hsame]; exact List.mem_singleton_self _)

theorem decimal_ne_nil (n : Nat) : decimal n ≠ [] := by
  rw [decimal]
  split
  · exact List.cons_ne_nil _ _
  · exact List.append_ne_nil_of_right_ne_nil _ (List.cons_ne_nil _ _)

theorem all_isDigit_decimal (n : Nat) : (decimal n).all isDigit = true :=
  List.all_eq_true.2 isDigit_of_mem_decimal

theorem isField_decimal (n : Nat) : (decimal n).IsField :=
  ⟨decimal_ne_nil n,
    List.all_eq_true.2 fun o ho => isVisible_of_isDigit (isDigit_of_mem_decimal o ho)⟩

theorem isVisible_hexDigit (n : Nat) : isVisible (hexDigit n) = true := by
  have hlt : n % 16 < 16 := Nat.mod_lt n (by decide)
  rw [isVisible_iff, hexDigit]
  split
  next => rw [UInt8.toNat_ofNat_of_lt' (by rw [UInt8.size]; omega)]; omega
  next => rw [UInt8.toNat_ofNat_of_lt' (by rw [UInt8.size]; omega)]; omega

theorem all_isVisible_hex (octets : Octets) : (hex octets).all isVisible = true := by
  rw [hex, List.all_flatMap, List.all_eq_true]
  intro o _
  rw [List.all_cons, List.all_cons, isVisible_hexDigit, isVisible_hexDigit, List.all_nil]
  rfl

/-- A number is read from its decimal digits. -/
theorem number?_decimal {limit n : Nat} (h : n ≤ limit) : number? limit (decimal n) = some n := by
  have hnonempty : (decimal n).isEmpty = false := List.isEmpty_eq_false_iff.2 (decimal_ne_nil n)
  rw [number?, value_decimal, all_isDigit_decimal, hnonempty, decide_eq_true h]
  rfl

theorem le_of_number? {limit n : Nat} {t : Text} (h : number? limit t = some n) : n ≤ limit := by
  rw [number?] at h
  split at h
  next hconditions =>
    cases h
    rw [Bool.and_eq_true, decide_eq_true_eq] at hconditions
    exact hconditions.2
  next => cases h

/-! ## 7. Pieces -/

theorem split_of_ne {mark : UInt8} {t : Text} (h : ∀ o ∈ t, o ≠ mark) : split mark t = [t] := by
  induction t with
  | nil => rfl
  | cons o t ih =>
    have ho : (o == mark) = false := beq_eq_false_iff_ne.2 (h o List.mem_cons_self)
    rw [split, ho, ih fun a ha => h a (List.mem_cons_of_mem _ ha)]
    rfl

theorem split_append {mark : UInt8} {t : Text} (h : ∀ o ∈ t, o ≠ mark) (rest : Text) :
    split mark (t ++ mark :: rest) = t :: split mark rest := by
  induction t with
  | nil => rw [List.nil_append, split, if_pos (beq_self_eq_true mark)]
  | cons o t ih =>
    have ho : (o == mark) = false := beq_eq_false_iff_ne.2 (h o List.mem_cons_self)
    rw [List.cons_append, split, ho, ih fun a ha => h a (List.mem_cons_of_mem _ ha)]
    rfl

/-- Pieces without the mark in them come apart again. -/
theorem split_join {mark : UInt8} {pieces : List Text} (hne : pieces ≠ [])
    (h : ∀ t ∈ pieces, ∀ o ∈ t, o ≠ mark) : split mark (join mark pieces) = pieces := by
  induction pieces with
  | nil => exact absurd rfl hne
  | cons t pieces ih =>
    have ht := h t List.mem_cons_self
    cases pieces with
    | nil => exact split_of_ne ht
    | cons s pieces =>
      rw [join, split_append ht, ih (List.cons_ne_nil _ _)
        fun u hu => h u (List.mem_cons_of_mem _ hu)]
      exact List.cons_ne_nil _ _

/-! ## 8. Lines -/

theorem isUtf8_of_printable {t : Text} (h : t.all isPrintable = true) : isUtf8 t = true := by
  induction t with
  | nil => rfl
  | cons o t ih =>
    rw [List.all_cons, Bool.and_eq_true, isPrintable_iff] at h
    have hascii : o ≤ 0x7f := by
      rw [UInt8.le_iff_toNat_le]
      exact Nat.le_succ_of_le h.1.2
    rw [isUtf8.eq_def]
    exact (if_pos hascii).trans (ih h.2)

/-- A line feed behind printable octets ends their line. -/
theorem lines_append_lineFeed {t : Text} (h : t.all isPrintable = true) (rest : Text) :
    lines (t ++ lineFeed :: rest) = t :: lines rest := by
  induction t with
  | nil => rfl
  | cons o t ih =>
    rw [List.all_cons, Bool.and_eq_true, isPrintable_iff] at h
    -- Neither line feeds nor carriage returns are printable.
    have hne : ∀ p : UInt8, p.toNat < 0x20 → o ≠ p := by
      rintro p hp rfl
      omega
    rw [List.cons_append, lines, ih h.2, consFirst]
    · rintro rest rfl
      exact absurd rfl (hne _ (by decide))
    · exact hne _ (by decide)

/-- With a line feed after each, printable texts make up a text of printable octets and line feeds. -/
theorem isPrintable_or_eq_lineFeed_of_mem_flatMap {ts : List Text}
    (h : ∀ t ∈ ts, t.all isPrintable = true) {o : UInt8}
    (ho : o ∈ ts.flatMap fun t => t ++ [lineFeed]) : isPrintable o = true ∨ o = lineFeed := by
  obtain ⟨t, ht, ho⟩ := List.mem_flatMap.1 ho
  rcases List.mem_append.1 ho with ho | ho
  · exact .inl (List.all_eq_true.1 (h t ht) o ho)
  · exact .inr (List.mem_singleton.1 ho)

/-- Printable texts with a line feed after each are the lines of the text they make up. -/
theorem lines_flatMap {ts : List Text} (h : ∀ t ∈ ts, t.all isPrintable = true) :
    lines (ts.flatMap fun t => t ++ [lineFeed]) = ts := by
  induction ts with
  | nil => rfl
  | cons t ts ih =>
    obtain ⟨ht, hts⟩ := List.forall_mem_cons.1 h
    rw [List.flatMap_cons, List.append_assoc, List.singleton_append, lines_append_lineFeed ht,
      ih hts]

end Nameserver.Text

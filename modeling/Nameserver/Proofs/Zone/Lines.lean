import Mathlib.Data.List.Forall2
import Mathlib.Logic.Relation
import Nameserver.Proofs.Record.Margins
import Nameserver.Proofs.Text.Lines
import Nameserver.Proofs.Zone.Load
/-!
# The lines of a zone file

A load reads line by line up to the first line that should hold a record and does not.  Main
statement: beside these lines nothing in the file matters.  Other lines may come and go, and each
line may have either end; where a load fails, it fails at the same line with another number.
-/

namespace Nameserver.DomainTree

open Text (IsBlank LineEnd AtLineStart)

variable {strictness : Name.Strictness} {t t' : DomainTree} {line lead trail : Text}
  {lines lines' : List Text} {records : List Record} {error : Record.Error} {number : Nat}

/-! ## 1. Lines that are passed over -/

/-- There is nothing on the line but blanks, or a semicolon comes right behind them. -/
def IsPassedOver (line : Text) : Prop :=
  ∃ lead rest, IsBlank lead ∧ line = lead ++ rest ∧
    (rest = [] ∨ rest.head? = some Text.semicolon)

theorem trimStart_of_comment {rest : Text} (h : rest = [] ∨ rest.head? = some Text.semicolon) :
    Text.trimStart rest = rest := by
  rcases h with rfl | h
  · rw [Text.trimStart, Text.strip]
  · obtain ⟨rest, rfl⟩ := List.head?_eq_some_iff.1 h
    exact Text.trimStart_of_visible (by decide) rest

/-- A line is passed over by what is left of it when the blanks in front have been trimmed off. -/
theorem isPassedOver_iff :
    IsPassedOver line ↔ ((Text.trimStart line).isEmpty ||
      (Text.trimStart line).head? == some Text.semicolon) = true := by
  rw [Bool.or_eq_true, List.isEmpty_iff, beq_iff_eq]
  constructor
  · rintro ⟨lead, rest, hlead, rfl, h⟩
    rwa [Text.trimStart_append_of_isBlank hlead, trimStart_of_comment h]
  · intro h
    obtain ⟨lead, hlead, hline, -⟩ := Text.trimStart_eq_iff.1 (rfl : Text.trimStart line = _)
    exact ⟨lead, _, hlead, hline, h⟩

instance : DecidablePred IsPassedOver := fun _ => decidable_of_iff _ isPassedOver_iff.symm

/-- The lines that should hold records. -/
def content (lines : List Text) : List Text := lines.filter (¬ IsPassedOver ·)

theorem content_append (lines lines' : List Text) :
    content (lines ++ lines') = content lines ++ content lines' := List.filter_append ..

theorem content_cons_of_isPassedOver (h : IsPassedOver line) (lines : List Text) :
    content (line :: lines) = content lines :=
  List.filter_cons_of_neg (by simpa using h)

theorem content_cons (h : ¬ IsPassedOver line) (lines : List Text) :
    content (line :: lines) = line :: content lines :=
  List.filter_cons_of_pos (by simpa using h)

theorem readLine_of_isPassedOver (h : IsPassedOver line) : readLine strictness line = .ok none := by
  rw [readLine]
  exact if_pos (isPassedOver_iff.1 h)

/-- A line that is not passed over is read as a record. -/
theorem readLine_eq (h : ¬ IsPassedOver line) :
    readLine strictness line = (Record.ofText strictness line).map some := by
  rw [isPassedOver_iff] at h
  rw [readLine, ← Record.ofText_trimStart strictness line]
  exact if_neg h

/-! ## 2. Blanks around a line -/

theorem isPassedOver_append_lead (hlead : IsBlank lead) :
    IsPassedOver (lead ++ line) ↔ IsPassedOver line := by
  rw [isPassedOver_iff, isPassedOver_iff, Text.trimStart_append_of_isBlank hlead]

/-- Blanks behind a line do not decide whether it is passed over. -/
theorem isPassedOver_append_trail (htrail : IsBlank trail) :
    IsPassedOver (line ++ trail) ↔ IsPassedOver line := by
  constructor
  · rintro ⟨lead, rest, hlead, heq, hrest⟩
    rcases List.append_eq_append_iff.1 heq with ⟨back, rfl, rfl⟩ | ⟨back, rfl, rfl⟩
    -- The blanks behind the line start before its comment, so there is no comment on it.
    · have hhead : rest.head?.all (fun o => !Text.isContinuation o) = true := by
        rcases hrest with rfl | hrest
        · rfl
        · rw [hrest]
          rfl
      have hback := (Text.isBlank_of_append htrail hhead).1
      exact ⟨line, [], hlead.of_append hback, (List.append_nil line).symm, .inl rfl⟩
    · refine ⟨lead, back, hlead, rfl, ?_⟩
      cases back with
      | nil => exact .inl rfl
      | cons o back => exact .inr (hrest.resolve_left (List.cons_ne_nil _ _))
  · rintro ⟨lead, rest, hlead, rfl, hrest⟩
    rcases hrest with rfl | hrest
    · refine ⟨lead ++ trail, [], hlead.append htrail, ?_, .inl rfl⟩
      rw [List.append_nil, List.append_nil]
    · refine ⟨lead, rest ++ trail, hlead, List.append_assoc .., .inr ?_⟩
      rw [List.head?_append, hrest]
      rfl

/-- Blanks around a line make no difference to what is found on it. -/
theorem readLine_append (hlead : IsBlank lead) (htrail : IsBlank trail) {found : Option Record} :
    readLine strictness (lead ++ (line ++ trail)) = .ok found ↔
      readLine strictness line = .ok found := by
  have hsame : IsPassedOver (lead ++ (line ++ trail)) ↔ IsPassedOver line :=
    (isPassedOver_append_lead hlead).trans (isPassedOver_append_trail htrail)
  have hmap : ∀ line : Text, (Record.ofText strictness line).map some = .ok found ↔
      ∃ r, Record.ofText strictness line = .ok r ∧ some r = found := by
    intro line
    constructor
    · exact map_eq_ok
    · rintro ⟨r, hr, rfl⟩
      rw [hr]
      rfl
  by_cases h : IsPassedOver line
  · rw [readLine_of_isPassedOver h, readLine_of_isPassedOver (hsame.2 h)]
  · rw [readLine_eq h, readLine_eq (mt hsame.1 h), hmap, hmap, Record.ofText_append_lead hlead]
    simp only [Record.ofText_append_trail htrail]

/-! ## 3. A load -/

/-- The records that the lines have, line by line. -/
abbrev HaveRecords (strictness : Name.Strictness) : List Text → List Record → Prop :=
  List.Forall₂ fun line r => Record.ofText strictness line = .ok r

/-- Of the lines that should hold records, the one with this number among all lines is the first one
that is read as no record. -/
def FirstBadLine (strictness : Name.Strictness) (lines : List Text) (number : Nat)
    (error : Record.Error) : Prop :=
  ∃ before line after, lines = before ++ line :: after ∧ number = before.length + 1 ∧
    (∃ records, HaveRecords strictness (content before) records) ∧
    ¬ IsPassedOver line ∧ Record.ofText strictness line = .error error

/-- A file holds some records just if its lines are text and those that are not passed over have
these records. -/
theorem holds_iff :
    Holds strictness lines records ↔
      (∀ line ∈ lines, Text.isUtf8 line = true) ∧
        HaveRecords strictness (content lines) records := by
  constructor
  · intro h
    induction h with
    | nil => exact ⟨fun _ h => absurd h List.not_mem_nil, .nil⟩
    | @passedOver line lines records utf8 blank others ih =>
      refine ⟨List.forall_mem_cons.2 ⟨utf8, ih.1⟩, ?_⟩
      by_cases h : IsPassedOver line
      · rw [content_cons_of_isPassedOver h]
        exact ih.2
      · rw [readLine_eq h] at blank
        obtain ⟨r, -, hr⟩ := map_eq_ok blank
        cases hr
    | @record line lines r records utf8 read others ih =>
      refine ⟨List.forall_mem_cons.2 ⟨utf8, ih.1⟩, ?_⟩
      by_cases h : IsPassedOver line
      · rw [readLine_of_isPassedOver h] at read
        cases read
      · rw [readLine_eq h] at read
        obtain ⟨r', hr, heq⟩ := map_eq_ok read
        cases heq
        rw [content_cons h]
        exact .cons hr ih.2
  -- Line by line again: only a line with content takes a record off the list.
  · rintro ⟨utf8, h⟩
    induction lines generalizing records with
    | nil =>
      cases h
      exact .nil
    | cons line lines ih =>
      rw [List.forall_mem_cons] at utf8
      by_cases hline : IsPassedOver line
      · rw [content_cons_of_isPassedOver hline] at h
        exact .passedOver utf8.1 (readLine_of_isPassedOver hline) (ih utf8.2 h)
      · rw [content_cons hline] at h
        cases h with
        | cons hr hrecords =>
          refine .record utf8.1 ?_ (ih utf8.2 hrecords)
          rw [readLine_eq hline, hr]
          rfl

/-- A line that is passed over or has a record leaves it to the others whether all have theirs. -/
theorem exists_haveRecords_cons
    (h : IsPassedOver line ∨ ∃ r, Record.ofText strictness line = .ok r) :
    (∃ records, HaveRecords strictness (content (line :: lines)) records) ↔
      ∃ records, HaveRecords strictness (content lines) records := by
  by_cases hline : IsPassedOver line
  · rw [content_cons_of_isPassedOver hline]
  · obtain ⟨r, hr⟩ := h.resolve_left hline
    rw [content_cons hline]
    constructor
    · rintro ⟨_, hrecords⟩
      cases hrecords with
      | cons _ hrecords => exact ⟨_, hrecords⟩
    · rintro ⟨records, hrecords⟩
      exact ⟨r :: records, .cons hr hrecords⟩

/-- Behind a line that is not bad, the first bad line is the one of the others. -/
theorem firstBadLine_cons (h : IsPassedOver line ∨ ∃ r, Record.ofText strictness line = .ok r) :
    FirstBadLine strictness (line :: lines) number error ↔
      ∃ n, number = n + 1 ∧ FirstBadLine strictness lines n error := by
  constructor
  · rintro ⟨before, bad, after, heq, rfl, hbefore, hcontent, hbad⟩
    cases before with
    -- The first line is not bad, so something comes before the bad one.
    | nil =>
      obtain ⟨rfl, rfl⟩ := List.cons.inj heq
      obtain ⟨r, hr⟩ := h.resolve_left hcontent
      cases hbad.symm.trans hr
    | cons first before =>
      obtain ⟨rfl, rfl⟩ := List.cons.inj heq
      exact ⟨_, rfl, before, bad, after, rfl, rfl, (exists_haveRecords_cons h).1 hbefore, hcontent,
        hbad⟩
  · rintro ⟨n, rfl, before, bad, after, rfl, rfl, hbefore, hcontent, hbad⟩
    exact ⟨line :: before, bad, after, rfl, rfl, (exists_haveRecords_cons h).2 hbefore, hcontent,
      hbad⟩

/-- Where a line is read as no record, the lines behind it make no difference. -/
theorem firstBadLine_cons_of_error (hline : ¬ IsPassedOver line)
    {e : Record.Error} (h : Record.ofText strictness line = .error e) :
    FirstBadLine strictness (line :: lines) number error ↔ number = 1 ∧ error = e := by
  constructor
  · rintro ⟨before, bad, after, heq, rfl, ⟨records, hbefore⟩, hcontent, hbad⟩
    cases before with
    | nil =>
      obtain ⟨rfl, rfl⟩ := List.cons.inj heq
      exact ⟨rfl, Except.error.inj (hbad.symm.trans h)⟩
    | cons first before =>
      obtain ⟨rfl, rfl⟩ := List.cons.inj heq
      rw [content_cons hline] at hbefore
      cases hbefore with
      | cons hr _ => cases h.symm.trans hr
  · rintro ⟨rfl, rfl⟩
    exact ⟨[], line, lines, rfl, rfl, ⟨[], .nil⟩, hline, h⟩

/-- Reading lines fails just at the first bad one, and reports its number. -/
theorem loadLines_eq_error_iff (utf8 : ∀ line ∈ lines, Text.isUtf8 line = true) {offset : Nat}
    {e : LoadError} :
    loadLines strictness t (offset + 1) lines = .error e ↔
      ∃ number error, FirstBadLine strictness lines number error ∧
        e = .line (offset + number) error := by
  induction lines generalizing t offset with
  | nil =>
    constructor
    · intro h
      cases h
    · rintro ⟨_, _, ⟨before, bad, after, heq, -⟩, -⟩
      exact absurd heq.symm (List.append_ne_nil_of_right_ne_nil before (List.cons_ne_nil bad after))
  | cons line lines ih =>
    rw [List.forall_mem_cons] at utf8
    -- The others start one line later, so their numbers are one larger.
    have hlater : ∀ t : DomainTree,
        (IsPassedOver line ∨ ∃ r, Record.ofText strictness line = .ok r) →
        (loadLines strictness t (offset + 1 + 1) lines = .error e ↔
          ∃ number error, FirstBadLine strictness (line :: lines) number error ∧
            e = .line (offset + number) error) := by
      intro t hline
      rw [ih utf8.2]
      simp only [firstBadLine_cons hline]
      constructor
      · rintro ⟨n, error, h, rfl⟩
        exact ⟨n + 1, error, ⟨n, rfl, h⟩, by rw [Nat.add_assoc, Nat.add_comm 1]⟩
      · rintro ⟨_, error, ⟨n, rfl, h⟩, rfl⟩
        exact ⟨n, error, h, by rw [Nat.add_assoc, Nat.add_comm 1]⟩
    rw [loadLines, if_pos utf8.1]
    by_cases hline : IsPassedOver line
    · rw [readLine_of_isPassedOver hline]
      exact hlater t (.inl hline)
    · rw [readLine_eq hline]
      cases hr : Record.ofText strictness line with
      | ok r => exact hlater (t.add r) (.inr ⟨r, hr⟩)
      | error bad =>
        simp only [firstBadLine_cons_of_error hline hr]
        constructor
        · intro h
          cases h
          exact ⟨1, bad, ⟨rfl, rfl⟩, rfl⟩
        · rintro ⟨_, _, ⟨rfl, rfl⟩, rfl⟩
          rfl

variable {file file' : Text}

/-- A file is loaded just if each line that should hold a record does. -/
theorem load_eq_ok_iff_haveRecords (utf8 : Text.isUtf8 file = true)
    {loaded : Logged DomainTree} :
    load strictness file = .ok loaded ↔
      ∃ records, HaveRecords strictness (content (Text.lines file)) records ∧
        loaded = loadedTree (ofRecords records) := by
  rw [load_eq_ok_iff]
  simp only [holds_iff, and_iff_right (Text.isUtf8_of_mem_lines utf8)]

/-- A load fails just at the first line that should hold a record and does not. -/
theorem load_eq_error_iff (utf8 : Text.isUtf8 file = true) {e : LoadError} :
    load strictness file = .error e ↔
      ∃ number error, FirstBadLine strictness (Text.lines file) number error ∧
        e = .line number error := by
  have hlines : loadLines strictness empty (0 + 1) (Text.lines file) = .error e ↔ _ :=
    loadLines_eq_error_iff (Text.isUtf8_of_mem_lines utf8)
  simp only [Nat.zero_add] at hlines
  rw [← hlines, load]
  constructor
  · intro h
    cases ht : loadLines strictness empty 1 (Text.lines file) with
    | ok t =>
      rw [ht] at h
      cases h
    | error e' =>
      rw [ht] at h
      cases h
      rfl
  · intro h
    rw [h]
    rfl

/-! ## 4. Two loads -/

/-- Two files are loaded alike: they give the same tree, or the same line is read as no record in
both, where it has the same lines with records before it. -/
inductive LoadedAlike (lines lines' : List Text) :
    Except LoadError (Logged DomainTree) → Except LoadError (Logged DomainTree) → Prop
  | loaded (tree : Logged DomainTree) : LoadedAlike lines lines' (.ok tree) (.ok tree)
  | failed {before before' after after' : List Text} {line : Text} (error : Record.Error)
      (split : lines = before ++ line :: after) (split' : lines' = before' ++ line :: after')
      (same : content before = content before') :
      LoadedAlike lines lines' (.error (.line (before.length + 1) error))
        (.error (.line (before'.length + 1) error))

/-- A line that should hold a record is in each file with the same such lines, between the same. -/
theorem exists_split {before after : List Text} (hline : ¬ IsPassedOver line)
    (h : content (before ++ line :: after) = content lines') :
    ∃ before' after', lines' = before' ++ line :: after' ∧ content before' = content before := by
  rw [content_append, content_cons hline] at h
  obtain ⟨front, back, rfl, hfront, hback⟩ := List.filter_eq_append_iff.1 h.symm
  -- Between the lines that come before and the line itself, there may be lines that are passed
  -- over.
  obtain ⟨passed, after', rfl, hpassed, -, -⟩ := List.filter_eq_cons_iff.1 hback
  refine ⟨front ++ passed, after', (List.append_assoc ..).symm, ?_⟩
  have hnil : content passed = [] := List.filter_eq_nil_iff.2 hpassed
  rw [content_append, hnil, List.append_nil]
  exact hfront

/-- Two files whose lines with records are the same are loaded alike. -/
theorem loadedAlike_of_content_eq (utf8 : Text.isUtf8 file = true)
    (utf8' : Text.isUtf8 file' = true)
    (h : content (Text.lines file) = content (Text.lines file')) :
    LoadedAlike (Text.lines file) (Text.lines file') (load strictness file)
      (load strictness file') := by
  cases hload : load strictness file with
  | ok loaded =>
    rw [load_eq_ok_iff_haveRecords utf8, h, ← load_eq_ok_iff_haveRecords utf8'] at hload
    rw [hload]
    exact .loaded loaded
  | error e =>
    obtain ⟨_, error, ⟨before, line, after, hsplit, rfl, hbefore, hline, hbad⟩, rfl⟩ :=
      (load_eq_error_iff utf8).1 hload
    -- The bad line is in the other file too, with the same lines before it.
    obtain ⟨before', after', hsplit', hsame⟩ := exists_split hline (hsplit ▸ h)
    have hload' : load strictness file' = .error (.line (before'.length + 1) error) :=
      (load_eq_error_iff utf8').2 ⟨_, error, ⟨before', line, after', hsplit', rfl,
        hsame.symm ▸ hbefore, hline, hbad⟩, rfl⟩
    rw [hload']
    exact .failed error hsplit hsplit' hsame.symm

/-! ## 5. Edits -/

/-- A change of a file that leaves the lines with records as they are: a line that is passed over
comes in, a line gets the other end, or the last line gets an end. -/
inductive Edit : Text → Text → Prop
  | insert {front line back : Text} {e : LineEnd} (start : AtLineStart front)
      (passedOver : IsPassedOver line) (ends : e.Ends line) :
      Edit (front ++ back) (front ++ (line ++ (e.octets ++ back)))
  | switch {front line back : Text} {e e' : LineEnd} (start : AtLineStart front)
      (ends : e.Ends line) (ends' : e'.Ends line) :
      Edit (front ++ (line ++ (e.octets ++ back))) (front ++ (line ++ (e'.octets ++ back)))
  | close {front line : Text} {e : LineEnd} (start : AtLineStart front) (ne_nil : line ≠ [])
      (ends : e.Ends line) : Edit (front ++ line) (front ++ (line ++ e.octets))

/-- An edit leaves the lines with records as they are. -/
theorem Edit.content_eq (h : Edit file file') :
    content (Text.lines file) = content (Text.lines file') := by
  cases h with
  | insert start passedOver ends =>
    rw [Text.lines_append start, Text.lines_append_ended start ends, content_append,
      content_append, content_cons_of_isPassedOver passedOver]
  | switch start ends ends' =>
    rw [Text.lines_append_ended start ends, Text.lines_append_ended start ends']
  | @close front line e start ne_nil ends =>
    have hended := Text.lines_append_ended start ends []
    rw [List.append_nil] at hended
    rw [Text.lines_append start, Text.lines_unended ne_nil ends.no_lineFeed, hended]
    rfl

theorem content_eq_of_edits (h : Relation.EqvGen Edit file file') :
    content (Text.lines file) = content (Text.lines file') := by
  induction h with
  | rel _ _ h => exact h.content_eq
  | refl _ => rfl
  | symm _ _ _ ih => exact ih.symm
  | trans _ _ _ _ _ ih ih' => exact ih.trans ih'

/-! ## 6. Other blanks -/

/-- The lines have the same on them, with other blanks around it. -/
def SameButBlanks (line line' : Text) : Prop :=
  ∃ lead lead' middle trail trail',
    (IsBlank lead ∧ IsBlank trail ∧ line = lead ++ (middle ++ trail)) ∧
    IsBlank lead' ∧ IsBlank trail' ∧ line' = lead' ++ (middle ++ trail')

theorem sameButBlanks_append (htrail : IsBlank trail) (line : Text) :
    SameButBlanks line (line ++ trail) :=
  ⟨[], [], line, [], trail, ⟨Text.isBlank_nil, Text.isBlank_nil, (List.append_nil line).symm⟩,
    Text.isBlank_nil, htrail, rfl⟩

theorem SameButBlanks.readLine_eq_ok_iff {line' : Text} (h : SameButBlanks line line')
    {found : Option Record} :
    readLine strictness line = .ok found ↔ readLine strictness line' = .ok found := by
  obtain ⟨lead, lead', middle, trail, trail', ⟨hlead, htrail, rfl⟩, hlead', htrail', rfl⟩ := h
  rw [readLine_append hlead htrail, readLine_append hlead' htrail']

/-- Both of two loads give the same, or both fail at the line with the same number. -/
inductive EndAlike {α : Type} : Except LoadError α → Except LoadError α → Prop
  | ok (a : α) : EndAlike (.ok a) (.ok a)
  | error (number : Nat) (error error' : Record.Error) :
      EndAlike (.error (.line number error)) (.error (.line number error'))

/-- Line by line, other blanks change nothing of where reading ends. -/
theorem loadLines_endAlike (h : List.Forall₂ SameButBlanks lines lines')
    (utf8 : ∀ line ∈ lines, Text.isUtf8 line = true)
    (utf8' : ∀ line ∈ lines', Text.isUtf8 line = true) :
    EndAlike (loadLines strictness t number lines) (loadLines strictness t number lines') := by
  induction h generalizing t number with
  | nil => exact .ok t
  | @cons line line' lines lines' hline _ ih =>
    rw [List.forall_mem_cons] at utf8 utf8'
    rw [loadLines, loadLines, if_pos utf8.1, if_pos utf8'.1]
    cases hread : readLine strictness line with
    | ok found =>
      rw [hline.readLine_eq_ok_iff.1 hread]
      cases found with
      | none => exact ih utf8.2 utf8'.2
      | some r => exact ih utf8.2 utf8'.2
    | error e =>
      cases hread' : readLine strictness line' with
      | ok found => cases hread.symm.trans (hline.readLine_eq_ok_iff.2 hread')
      | error e' => exact .error number e e'

theorem load_endAlike (utf8 : Text.isUtf8 file = true) (utf8' : Text.isUtf8 file' = true)
    (h : List.Forall₂ SameButBlanks (Text.lines file) (Text.lines file')) :
    EndAlike (load strictness file) (load strictness file') := by
  have hlines : EndAlike (loadLines strictness empty 1 (Text.lines file))
      (loadLines strictness empty 1 (Text.lines file')) :=
    loadLines_endAlike h (Text.isUtf8_of_mem_lines utf8) (Text.isUtf8_of_mem_lines utf8')
  rw [load, load]
  generalize loadLines strictness empty 1 (Text.lines file) = x at hlines
  generalize loadLines strictness empty 1 (Text.lines file') = y at hlines
  cases hlines with
  | ok t => exact .ok (loadedTree t)
  | error number e e' => exact .error number e e'

/-- A load reads the lines of a file up to the first one that should hold a record and does not, and
nothing else in the file matters: not the lines that are passed over, nor the ends of lines, nor
blanks around what is on them. -/
theorem load_depends_on_content (strictness : Name.Strictness) :
    (∀ (file : Text) (lines : List Text), Text.lines file = lines ↔ Text.HasLines file lines) ∧
    (∀ file : Text, Text.isUtf8 file = true →
      (∀ loaded, load strictness file = .ok loaded ↔
        ∃ records, HaveRecords strictness (content (Text.lines file)) records ∧
          loaded = loadedTree (ofRecords records)) ∧
      ∀ e, load strictness file = .error e ↔
        ∃ number error, FirstBadLine strictness (Text.lines file) number error ∧
          e = .line number error) ∧
    ∀ file file' : Text, Text.isUtf8 file = true → Text.isUtf8 file' = true →
      (Relation.EqvGen Edit file file' →
        LoadedAlike (Text.lines file) (Text.lines file') (load strictness file)
          (load strictness file')) ∧
      (List.Forall₂ SameButBlanks (Text.lines file) (Text.lines file') →
        EndAlike (load strictness file) (load strictness file')) :=
  ⟨fun _ _ => Text.lines_eq_iff,
    fun _ utf8 => ⟨fun _ => load_eq_ok_iff_haveRecords utf8, fun _ => load_eq_error_iff utf8⟩,
    fun _ _ utf8 utf8' =>
      ⟨fun h => loadedAlike_of_content_eq utf8 utf8' (content_eq_of_edits h),
        load_endAlike utf8 utf8'⟩⟩

/-- A zone file whose second line has a broken address. -/
def brokenFile : Text := Text.ofString "q. 60 IN A 192.0.2.1\nq. 60 IN A 192.0.2\n"

/-- The same lines behind a comment, and the first of them with another end. -/
def commentedFile : Text :=
  Text.ofString "; q\r\nq. 60 IN A 192.0.2.1\r\nq. 60 IN A 192.0.2\n"

theorem edits_commentedFile : Relation.EqvGen Edit brokenFile commentedFile := by
  have hbroken : brokenFile = [] ++ (Text.ofString "q. 60 IN A 192.0.2.1" ++
      (LineEnd.lineFeed.octets ++ Text.ofString "q. 60 IN A 192.0.2\n")) := by decide +kernel
  have hcommented : commentedFile = [] ++ (Text.ofString "; q" ++
      (LineEnd.returnAndLineFeed.octets ++ ([] ++ (Text.ofString "q. 60 IN A 192.0.2.1" ++
        (LineEnd.returnAndLineFeed.octets ++ Text.ofString "q. 60 IN A 192.0.2\n"))))) := by
    decide +kernel
  rw [hbroken, hcommented]
  refine .trans _ _ _ (.rel _ _ (.switch (.inl rfl) ?_ ?_)) (.rel _ _ (.insert (.inl rfl) ?_ ?_))
  · exact ⟨by decide +kernel, fun _ => by decide +kernel⟩
  · exact ⟨by decide +kernel, nofun⟩
  · exact ⟨[], _, Text.isBlank_nil, rfl, .inr rfl⟩
  · exact ⟨by decide +kernel, nofun⟩

/-- The same lines once more, with a carriage return too many at the end of the first one. -/
def returnedFile : Text := Text.ofString "q. 60 IN A 192.0.2.1\r\r\nq. 60 IN A 192.0.2\n"

theorem sameButBlanks_returnedFile :
    List.Forall₂ SameButBlanks (Text.lines brokenFile) (Text.lines returnedFile) := by
  have hbroken : Text.lines brokenFile =
      [Text.ofString "q. 60 IN A 192.0.2.1", Text.ofString "q. 60 IN A 192.0.2"] := by decide +kernel
  have hreturned : Text.lines returnedFile =
      [Text.ofString "q. 60 IN A 192.0.2.1" ++ [Text.carriageReturn],
        Text.ofString "q. 60 IN A 192.0.2"] := by decide +kernel
  have hblank : IsBlank [Text.carriageReturn] :=
    ⟨[[Text.carriageReturn]], by decide +kernel, rfl⟩
  rw [hbroken, hreturned]
  exact .cons (sameButBlanks_append hblank _)
    (.cons (by simpa using sameButBlanks_append Text.isBlank_nil _) .nil)

theorem load_commentedFile :
    Text.isUtf8 brokenFile = true ∧ Text.isUtf8 commentedFile = true ∧
      Text.isUtf8 returnedFile = true ∧ Relation.EqvGen Edit brokenFile commentedFile ∧
      List.Forall₂ SameButBlanks (Text.lines brokenFile) (Text.lines returnedFile) ∧
      load .trailingDot brokenFile = .error (.line 2 (.badData .a .malformedAddress)) ∧
      load .trailingDot commentedFile = .error (.line 3 (.badData .a .malformedAddress)) ∧
      (∃ number error, FirstBadLine .trailingDot (Text.lines brokenFile) number error) ∧
      LoadedAlike (Text.lines brokenFile) (Text.lines commentedFile)
        (load .trailingDot brokenFile) (load .trailingDot commentedFile) ∧
      EndAlike (load .trailingDot brokenFile) (load .trailingDot returnedFile) := by
  have utf8 : Text.isUtf8 brokenFile = true := by decide +kernel
  have utf8' : Text.isUtf8 commentedFile = true := by decide +kernel
  have utf8'' : Text.isUtf8 returnedFile = true := by decide +kernel
  have hload : load .trailingDot brokenFile = .error (.line 2 (.badData .a .malformedAddress)) :=
    map_eq_error (show (load .trailingDot brokenFile).map (fun _ => ()) = _ by decide +kernel)
  have hload' : load .trailingDot commentedFile =
      .error (.line 3 (.badData .a .malformedAddress)) :=
    map_eq_error (show (load .trailingDot commentedFile).map (fun _ => ()) = _ by decide +kernel)
  obtain ⟨-, hsingle, htwo⟩ := load_depends_on_content .trailingDot
  obtain ⟨number, error, hbad, -⟩ := ((hsingle _ utf8).2 _).1 hload
  exact ⟨utf8, utf8', utf8'', edits_commentedFile, sameButBlanks_returnedFile, hload, hload',
    ⟨number, error, hbad⟩, (htwo _ _ utf8 utf8').1 edits_commentedFile,
    (htwo _ _ utf8 utf8'').2 sameButBlanks_returnedFile⟩

end Nameserver.DomainTree

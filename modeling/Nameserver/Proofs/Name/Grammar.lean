import Mathlib.Control.Monad.Basic
import Nameserver.Proofs.Name.Construction
import Nameserver.Proofs.Text.Utf8
/-!
# The grammar of a name's text

The text of a name is a body before a blank, or a body between quotes.  A body is labels with dots
after them, and a label is items: octets that stand for themselves, and escapes.  Reading accepts
the texts that start so and no others, and it parts a text only where a character ends.
-/

namespace Nameserver.Name

open Text (isDigit isLetter isSpace isVisible EndsField)

/-! ## 1. The grammar -/

/-- Whether a text starts with three digits, which all belong to a backslash before them. -/
def startsWithDigits : Text → Bool
  | a :: b :: c :: _ => isDigit a && isDigit b && isDigit c
  | _ => false

/-- Whether an octet of a label stands for itself. -/
def standsForItself (quoted : Bool) (o : UInt8) : Bool :=
  if quoted then o != Text.dot && o != Text.backslash && o != Text.quote
  else isLetter o || isDigit o || o == Text.hyphen || o == Text.underscore || o == Text.asterisk

/-- The texts of an octet, with `after` behind them: the octet alone or an escape.  A backslash
before three digits is an escape with all three of them. -/
inductive Item (quoted : Bool) (after : Text) : UInt8 → Text → Prop
  | decimal {a b c : UInt8} (digits : startsWithDigits [a, b, c] = true)
      (value_le : Text.value [a, b, c] ≤ 255) :
      Item quoted after (UInt8.ofNat (Text.value [a, b, c])) [Text.backslash, a, b, c]
  | escaped {o : UInt8} (single : startsWithDigits (o :: after) = false) :
      Item quoted after o [Text.backslash, o]
  | plain {o : UInt8} (stands : standsForItself quoted o = true) : Item quoted after o [o]

/-- The texts of marks: a dot for a dot, and an item for an octet. -/
inductive Marked (quoted : Bool) : List Mark → Text → Prop
  | nil : Marked quoted [] []
  | dot {marks : List Mark} {t : Text} (others : Marked quoted marks t) :
      Marked quoted (.dot :: marks) (Text.dot :: t)
  | item {o : UInt8} {marks : List Mark} {s t : Text} (item : Item quoted t o s)
      (others : Marked quoted marks t) : Marked quoted (.octet o :: marks) (s ++ t)

/-- The texts of a label: one to 63 items. -/
structure LabelText (quoted : Bool) (octets : Octets) (t : Text) : Prop where
  items : Marked quoted (octets.map .octet) t
  nonempty : octets ≠ []
  length_le : octets.length ≤ 63

/-- The texts of labels with a dot after each. -/
inductive Dotted (quoted : Bool) : List Octets → Text → Prop
  | nil : Dotted quoted [] []
  | cons {octets : Octets} {labels : List Octets} {s t : Text} (label : LabelText quoted octets s)
      (others : Dotted quoted labels t) : Dotted quoted (octets :: labels) (s ++ Text.dot :: t)

/-- The bodies of a name's text: a dot alone for the root, or labels.  The last label may come
without a dot unless that is asked for. -/
inductive Body (strictness : Strictness) (quoted : Bool) : List Octets → Text → Prop
  | root : Body strictness quoted [] [Text.dot]
  | dotted {labels : List Octets} {t : Text} (nonempty : labels ≠ [])
      (all : Dotted quoted labels t) : Body strictness quoted labels t
  | undotted {labels : List Octets} {octets : Octets} {s t : Text}
      (relaxed : strictness = .relaxed) (front : Dotted quoted labels s)
      (last : LabelText quoted octets t) : Body strictness quoted (labels ++ [octets]) (s ++ t)

/-- The texts that start with the name of some labels and go on with `rest`. -/
inductive StartsWith (strictness : Strictness) (labels : List Octets) (rest : Text) : Text → Prop
  | unquoted {body : Text} (named : Body strictness false labels body) (ends : EndsField rest) :
      StartsWith strictness labels rest (body ++ rest)
  | quoted {body : Text} (named : Body strictness true labels body) :
      StartsWith strictness labels rest (Text.quote :: body ++ Text.quote :: rest)

/-! ## 2. Items -/

variable {quoted : Bool} {strictness : Strictness} {o : UInt8} {s t after rest : Text}
  {ms : List Mark} {labels : List Octets}

/-- Whether the text starts with no digit, so that no escape before it goes on into it. -/
def StopsDigits (t : Text) : Prop := t.head?.all (fun o => !isDigit o) = true

theorem stopsDigits_dot (t : Text) : StopsDigits (Text.dot :: t) := rfl

/-- What comes after a text makes no difference to its digits, unless it starts with one. -/
theorem startsWithDigits_append (hrest : StopsDigits rest) (t : Text) :
    startsWithDigits (t ++ rest) = startsWithDigits t := by
  cases rest with
  | nil => rw [List.append_nil]
  | cons d rest =>
    have hd : isDigit d = false := by simpa [StopsDigits] using hrest
    -- A text of fewer than three octets is followed by an octet that is no digit.
    match t with
    | a :: b :: c :: t => rfl
    | [a, b] => simp [startsWithDigits, hd]
    | [a] => cases rest <;> simp [startsWithDigits, hd]
    | [] => rcases rest with _ | ⟨_, _ | _⟩ <;> simp [startsWithDigits, hd]

/-- An item is one too if more text comes after it, unless that text starts with a digit. -/
theorem item_append_iff (hrest : StopsDigits rest) :
    Item quoted (after ++ rest) o s ↔ Item quoted after o s := by
  have hsame := startsWithDigits_append hrest
  constructor
  · intro h
    cases h with
    | decimal digits value_le => exact .decimal digits value_le
    | escaped single => exact .escaped (by rw [← hsame]; exact single)
    | plain stands => exact .plain stands
  · intro h
    cases h with
    | decimal digits value_le => exact .decimal digits value_le
    | escaped single =>
      refine .escaped ?_
      rw [← List.cons_append, hsame]
      exact single
    | plain stands => exact .plain stands

/-- Three digits of an octet are taken for that octet. -/
theorem unescape_of_startsWithDigits {a b c : UInt8} (h : startsWithDigits [a, b, c] = true)
    (hle : Text.value [a, b, c] ≤ 255) (t : Text) :
    unescape (a :: b :: c :: t) = .ok (UInt8.ofNat (Text.value [a, b, c]), t) := by
  rw [unescape]
  exact (if_pos h).trans (if_pos hle)

/-- An octet that does not start three digits is taken as it is. -/
theorem unescape_of_not_startsWithDigits (h : startsWithDigits (o :: t) = false) :
    unescape (o :: t) = .ok (o, t) := by
  -- With fewer than two octets after it there are no three digits to look at.
  match t with
  | [] => rfl
  | [b] => rfl
  | b :: c :: t =>
    rw [unescape]
    exact if_neg (by rw [startsWithDigits] at h; simp [h])

/-- What a backslash and the text after it stand for is an item. -/
theorem exists_item_of_unescape (h : unescape t = .ok (o, after)) :
    ∃ s, t = s ++ after ∧ Item quoted after o (Text.backslash :: s) := by
  match t with
  | [] => cases h
  | [a] =>
    cases h
    exact ⟨[o], rfl, .escaped rfl⟩
  | [a, b] =>
    cases h
    exact ⟨[o], rfl, .escaped rfl⟩
  | a :: b :: c :: t =>
    rw [unescape] at h
    split at h
    next digits =>
      split at h
      next value_le =>
        cases h
        exact ⟨[a, b, c], rfl, .decimal digits value_le⟩
      next => cases h
    next single =>
      cases h
      exact ⟨[o], rfl, .escaped (Bool.eq_false_iff.2 single)⟩

/-! ## 3. Marks -/

theorem ne_quote_of_canStandUnquoted (h : canStandUnquoted o = true) : o ≠ Text.quote := by
  rintro rfl
  cases h

/-- The octets that stand for themselves are those that no other rule of reading is about. -/
theorem standsForItself_iff :
    standsForItself quoted o = true ↔
      o ≠ Text.dot ∧ o ≠ Text.backslash ∧ ¬ (quoted && o == Text.quote) = true ∧
        ¬ (!quoted && !canStandUnquoted o) = true := by
  cases quoted with
  | true => simp [standsForItself, and_assoc]
  | false =>
    have hplain : standsForItself false o = true → o ≠ Text.dot ∧ o ≠ Text.backslash := by
      intro h
      constructor
      · rintro rfl
        cases h
      · rintro rfl
        cases h
    have hcan : canStandUnquoted o = true ↔
        standsForItself false o = true ∨ o = Text.dot ∨ o = Text.backslash := by
      simp only [standsForItself, canStandUnquoted, Bool.false_eq_true, if_false, Bool.or_eq_true,
        beq_iff_eq]
      tauto
    simp only [Bool.false_and, Bool.not_false, Bool.true_and, Bool.not_eq_true', hcan,
      Bool.not_eq_false]
    tauto

theorem marks_item (h : Item quoted t o s) :
    marks quoted (s ++ t) = (.octet o :: (marks quoted t).1, (marks quoted t).2) := by
  cases h with
  | decimal digits value_le => exact marks_escape (unescape_of_startsWithDigits digits value_le t)
  | escaped single => exact marks_escape (unescape_of_not_startsWithDigits single)
  | plain stands =>
    obtain ⟨hdot, hbackslash, hquote, hcan⟩ := standsForItself_iff.1 stands
    -- An octet that stands for itself is none of those that have a rule of their own.
    have hfree : quoted = false → canStandUnquoted o = true := by
      rintro rfl
      simpa using hcan
    have hnot : o ≠ Text.quote := by
      cases quoted with
      | true => simpa using hquote
      | false => exact ne_quote_of_canStandUnquoted (hfree rfl)
    exact marks_plain (beq_eq_false_iff_ne.2 hdot) (beq_eq_false_iff_ne.2 hbackslash)
      (beq_eq_false_iff_ne.2 hnot) hfree

/-- The text of marks is read as these marks, whatever comes after it. -/
theorem marks_append (h : Marked quoted ms t) (hrest : StopsDigits rest) :
    marks quoted (t ++ rest) = (ms ++ (marks quoted rest).1, (marks quoted rest).2) := by
  induction h with
  | nil => rfl
  | dot _ ih =>
    rw [List.cons_append, marks_dot, ih]
    rfl
  | item item _ ih =>
    rw [List.append_assoc, marks_item ((item_append_iff hrest).2 item), ih]
    rfl

/-- What stands after the body of a name's text: a quote if there is one before it. -/
inductive Closes (rest : Text) : Bool → Text → Prop
  | unquoted (ends : EndsField rest) : Closes rest false rest
  | quoted : Closes rest true (Text.quote :: rest)

theorem Closes.stopsDigits {ending : Text} (h : Closes rest quoted ending) :
    StopsDigits ending := by
  cases h with
  | quoted => rfl
  | unquoted ends =>
    cases rest with
    | nil => rfl
    | cons o rest =>
      -- A blank cannot be seen, and a digit can.
      have hspace : isSpace o = true := ends
      rw [StopsDigits, List.head?_cons, Option.all_some, Bool.not_eq_true', Bool.eq_false_iff]
      intro hdigit
      rw [Text.isSpace_eq_false (Text.isVisible_of_isDigit hdigit)] at hspace
      cases hspace

/-- Where a body has to end, reading ends. -/
theorem marks_of_closes {ending : Text} (h : Closes rest quoted ending) :
    marks quoted ending = ([], .ok rest) := by
  cases h with
  | unquoted ends => exact marks_of_endsField ends
  | quoted => exact marks_quote rest

/-- Marks are read up to the end of a name just if a text of them stands before that end. -/
theorem marks_eq_ok_iff :
    marks quoted t = (ms, .ok rest) ↔
      ∃ body ending, t = body ++ ending ∧ Marked quoted ms body ∧ Closes rest quoted ending := by
  constructor
  · intro h
    fun_induction marks quoted t generalizing ms with
    | case1 =>
      cases quoted with
      | true => cases h
      | false =>
        cases h
        exact ⟨[], [], rfl, .nil, .unquoted rfl⟩
    | case2 o t hspace =>
      rw [Bool.and_eq_true, Bool.not_eq_true'] at hspace
      obtain ⟨rfl, hspace⟩ := hspace
      cases h
      exact ⟨[], o :: t, rfl, .nil, .unquoted hspace⟩
    -- A dot, and then the marks of the others.
    | case3 o t _ hdot front stop hmarks ih =>
      cases h
      obtain ⟨body, ending, rfl, hmarked, hcloses⟩ := ih hmarks
      exact ⟨o :: body, ending, rfl, beq_iff_eq.1 hdot ▸ .dot hmarked, hcloses⟩
    | case4 => cases h
    -- An escape.  How far it goes is settled by the text that follows in the body.
    | case5 o t _ _ hbackslash escaped after hescaped front stop hmarks ih =>
      cases h
      obtain ⟨body, ending, rfl, hmarked, hcloses⟩ := ih hmarks
      obtain ⟨s, rfl, item⟩ := exists_item_of_unescape hescaped
      have hitem := (item_append_iff hcloses.stopsDigits).1 item
      rw [beq_iff_eq] at hbackslash
      refine ⟨Text.backslash :: s ++ body, ending, ?_, .item hitem hmarked, hcloses⟩
      rw [hbackslash, List.append_assoc, List.cons_append]
    | case6 o t _ _ _ hquote =>
      rw [Bool.and_eq_true, beq_iff_eq] at hquote
      obtain ⟨rfl, rfl⟩ := hquote
      cases h
      exact ⟨[], Text.quote :: rest, rfl, .nil, .quoted⟩
    | case7 => cases h
    -- An octet for itself: it got past the checks for all others.
    | case8 o t _ hdot hbackslash hquote hcan front stop hmarks ih =>
      cases h
      obtain ⟨body, ending, rfl, hmarked, hcloses⟩ := ih hmarks
      rw [beq_iff_eq] at hdot hbackslash
      have hstands := standsForItself_iff.2 ⟨hdot, hbackslash, hquote, hcan⟩
      exact ⟨[o] ++ body, ending, rfl, .item (.plain hstands) hmarked, hcloses⟩
  · rintro ⟨body, ending, rfl, hmarked, hcloses⟩
    rw [marks_append hmarked hcloses.stopsDigits, marks_of_closes hcloses, List.append_nil]

/-! ## 4. Labels -/

/-- The marks of labels with a dot after each. -/
def dottedMarks (labels : List Octets) : List Mark :=
  labels.flatMap fun octets => octets.map .octet ++ [.dot]

theorem dottedMarks_map (labels : List Label) :
    dottedMarks (labels.map Label.octets) = labelsMarks labels := by
  rw [dottedMarks, labelsMarks, List.flatMap_map]

/-- A dot parts the text of marks. -/
theorem Marked.exists_of_dot {others : List Mark} (h : Marked quoted (ms ++ .dot :: others) t) :
    ∃ s after, t = s ++ Text.dot :: after ∧ Marked quoted ms s ∧ Marked quoted others after := by
  induction ms generalizing t with
  | nil =>
    cases h with
    | dot h => exact ⟨[], _, rfl, .nil, h⟩
  | cons m ms ih =>
    cases h with
    | dot h =>
      obtain ⟨s, after, rfl, hs, hafter⟩ := ih h
      exact ⟨Text.dot :: s, after, rfl, .dot hs, hafter⟩
    | @item o _ front t item h =>
      obtain ⟨s, after, rfl, hs, hafter⟩ := ih h
      have hitem := (item_append_iff (stopsDigits_dot after)).1 item
      exact ⟨front ++ s, after, by simp, .item hitem hs, hafter⟩

/-- In a text of marks, the labels with a dot after each come first. -/
theorem Marked.exists_dotted (h : Marked quoted (dottedMarks labels ++ ms) t)
    (hfit : ∀ octets ∈ labels, octets ≠ [] ∧ octets.length ≤ 63) :
    ∃ front last, t = front ++ last ∧ Dotted quoted labels front ∧ Marked quoted ms last := by
  induction labels generalizing t with
  | nil => exact ⟨[], t, rfl, .nil, h⟩
  | cons octets labels ih =>
    rw [List.forall_mem_cons] at hfit
    rw [dottedMarks, List.flatMap_cons, ← dottedMarks, List.append_assoc, List.append_assoc] at h
    obtain ⟨s, after, rfl, hs, hafter⟩ := h.exists_of_dot
    obtain ⟨front, last, rfl, hfront, hlast⟩ := ih hafter hfit.2
    exact ⟨s ++ Text.dot :: front, last, by simp, .cons ⟨hs, hfit.1.1, hfit.1.2⟩ hfront, hlast⟩

/-- Labels of a text fit into labels of a name. -/
theorem Dotted.fit (h : Dotted quoted labels t) :
    ∀ octets ∈ labels, octets ≠ [] ∧ octets.length ≤ 63 := by
  induction h with
  | nil => exact fun octets ho => absurd ho List.not_mem_nil
  | cons label _ ih => exact List.forall_mem_cons.2 ⟨⟨label.nonempty, label.length_le⟩, ih⟩

theorem marks_dotted (h : Dotted quoted labels t) (rest : Text) :
    marks quoted (t ++ rest) =
      (dottedMarks labels ++ (marks quoted rest).1, (marks quoted rest).2) := by
  induction h with
  | nil => rfl
  | @cons octets labels s t label _ ih =>
    rw [List.append_assoc, List.cons_append, marks_append label.items (stopsDigits_dot _),
      marks_dot, ih]
    simp [dottedMarks]

/-! ## 5. Gathered labels -/

namespace Gathered

/-- The marks that have been gathered. -/
def marks (g : Gathered) : List Mark := dottedMarks g.ended.reverse ++ g.current.map .octet

theorem marks_of_add {g g' : Gathered} {m : Mark} (h : g.add m = .ok g') :
    g'.marks = g.marks ++ [m] := by
  rcases add_cases h with ⟨o, rfl, -, rfl⟩ | ⟨rfl, -, -, rfl⟩
  · simp [marks]
  · simp [marks, dottedMarks]

/-- All marks of a text are in what was gathered. -/
theorem marks_of_foldlM {g g' : Gathered} (h : ms.foldlM add g = .ok g') :
    g'.marks = g.marks ++ ms := by
  induction ms generalizing g with
  | nil =>
    cases h
    rw [List.append_nil]
  | cons m ms ih =>
    obtain ⟨next, hadd, h⟩ := bind_eq_ok h
    rw [ih h, marks_of_add hadd, List.append_assoc, List.singleton_append]

end Gathered

/-- Labels are gathered from their marks, as long as they fit and are not too many. -/
theorem foldlM_dottedMarks (hfit : ∀ octets ∈ labels, octets ≠ [] ∧ octets.length ≤ 63)
    (hcount : labels.length ≤ 255) :
    (dottedMarks labels).foldlM Gathered.add {} = .ok ⟨labels.reverse, []⟩ := by
  obtain ⟨typed, rfl⟩ := LabelStrings.exists_labels fun octets ho => (hfit octets ho).2
  have hne : ∀ l ∈ typed, l.isNull = false := fun l hl =>
    List.isEmpty_eq_false_iff.2 (hfit l.octets (List.mem_map_of_mem hl)).1
  rw [List.length_map] at hcount
  rw [dottedMarks_map, Gathered.foldlM_labelsMarks hne rfl (by simpa using hcount), List.append_nil]

/-! ## 6. Bodies -/

theorem Marked.eq_nil (h : Marked quoted [] t) : t = [] := by
  cases h
  rfl

/-- The text of marks that end as a name is a body of its labels. -/
theorem exists_body_of_finish {g : Gathered} {strings : List Octets}
    (hmarked : Marked quoted g.marks t) (hbounded : g.Bounded)
    (hfinish : g.finish strictness = .ok strings) :
    ∃ labels, strings = labels ++ [[]] ∧ Body strictness quoted labels t := by
  -- Unless the text is the root's, its labels are those that ended and the one that has not.
  have hsplit : g.isRoot = false → ∃ front last, t = front ++ last ∧
      Dotted quoted g.ended.reverse front ∧ Marked quoted (g.current.map .octet) last := by
    intro hroot
    apply hmarked.exists_dotted
    intro octets ho
    rw [List.mem_reverse] at ho
    exact ⟨hbounded.ne_nil hroot octets ho, hbounded.ended_le octets ho⟩
  rcases Gathered.finish_cases hfinish with
    ⟨hrelaxed, hroot, hcurrent, rfl⟩ | ⟨hroot, hcurrent, rfl⟩ | ⟨hroot, hcurrent, hended, rfl⟩
  · obtain ⟨front, last, rfl, hfront, hlast⟩ := hsplit hroot
    exact ⟨_, rfl, .undotted hrelaxed hfront ⟨hlast, hcurrent, hbounded.current_le⟩⟩
  -- The root has one mark, a dot.
  · rw [Gathered.marks, hbounded.ended_eq hroot, hcurrent] at hmarked
    have hdot : Marked quoted [.dot] t := hmarked
    cases hdot with
    | dot others =>
      rw [others.eq_nil]
      exact ⟨[], rfl, .root⟩
  · obtain ⟨front, last, rfl, hfront, hlast⟩ := hsplit hroot
    rw [hcurrent] at hlast
    rw [hlast.eq_nil, List.append_nil]
    exact ⟨_, rfl, .dotted (fun hnil => hended (List.reverse_eq_nil_iff.1 hnil)) hfront⟩

/-- A name has fewer labels than octets. -/
theorem length_lt_wireLength (labels : List Octets) :
    labels.length < LabelStrings.wireLength (labels ++ [[]]) := by
  induction labels with
  | nil => exact Nat.one_pos
  | cons octets labels ih =>
    simp only [LabelStrings.wireLength, List.cons_append, List.map_cons, List.sum_cons,
      List.length_cons] at ih ⊢
    omega

/-- A body is read for its labels, if they are not too long together. -/
theorem Body.exists_gathered {body : Text} (h : Body strictness quoted labels body)
    (hlength : LabelStrings.wireLength (labels ++ [[]]) ≤ 255) (hrest : StopsDigits rest) :
    ∃ ms g, marks quoted (body ++ rest) = (ms ++ (marks quoted rest).1, (marks quoted rest).2) ∧
      gather ms = .ok g ∧ g.finish strictness = .ok (labels ++ [[]]) := by
  have hcount := length_lt_wireLength labels
  cases h with
  | root => exact ⟨[.dot], _, marks_dot quoted rest, rfl, rfl⟩
  | dotted nonempty all =>
    refine ⟨_, _, marks_dotted all rest, foldlM_dottedMarks all.fit (by omega), ?_⟩
    apply Gathered.finish_reverse nonempty
    exact fun octets ho => List.isEmpty_eq_false_iff.2 (all.fit octets ho).1
  -- The labels with dots are gathered first, and then the octets of the last one.
  | @undotted front octets s t relaxed dotted last =>
    rw [List.length_append] at hcount
    have hgather : gather (dottedMarks front ++ octets.map .octet) =
        .ok ⟨front.reverse, octets⟩ := by
      rw [gather, List.foldlM_append, foldlM_dottedMarks dotted.fit (by omega), ok_bind,
        Gathered.foldlM_octets (by simpa using last.length_le)]
      rfl
    refine ⟨dottedMarks front ++ octets.map .octet, _, ?_, hgather, ?_⟩
    · rw [List.append_assoc, marks_dotted dotted, marks_append last.items hrest, List.append_assoc]
    · have hcurrent : octets.isEmpty = false := List.isEmpty_eq_false_iff.2 last.nonempty
      have hroot : Gathered.isRoot ⟨front.reverse, octets⟩ = false := by
        apply Gathered.isRoot_eq_false
        exact fun s hs => (dotted.fit s (List.mem_reverse.1 hs)).1
      rw [Gathered.finish, hcurrent, hroot, relaxed]
      simp

/-! ## 7. Reading -/

/-- A text of marks starts with an octet that may stand outside quotes, if it is to stand there. -/
theorem Marked.exists_cons {m : Mark} (h : Marked false (m :: ms) t) :
    ∃ o after, t = o :: after ∧ canStandUnquoted o = true := by
  cases h with
  | dot => exact ⟨Text.dot, _, rfl, rfl⟩
  | item item _ =>
    cases item with
    | decimal => exact ⟨Text.backslash, _, rfl, rfl⟩
    | escaped => exact ⟨Text.backslash, _, rfl, rfl⟩
    | plain stands =>
      obtain ⟨-, -, -, hcan⟩ := standsForItself_iff.1 stands
      exact ⟨_, _, rfl, by simpa using hcan⟩

theorem LabelText.exists_cons {octets : Octets} (h : LabelText false octets s) (t : Text) :
    ∃ o after, s ++ t = o :: after ∧ canStandUnquoted o = true := by
  obtain ⟨first, octets, rfl⟩ := List.exists_cons_of_ne_nil h.nonempty
  obtain ⟨o, after, rfl, ho⟩ := h.items.exists_cons
  exact ⟨o, after ++ t, rfl, ho⟩

/-- A body outside quotes starts with an octet that may stand there. -/
theorem Body.exists_cons (h : Body strictness false labels t) :
    ∃ o after, t = o :: after ∧ canStandUnquoted o = true := by
  cases h with
  | root => exact ⟨Text.dot, [], rfl, rfl⟩
  | dotted nonempty all =>
    cases all with
    | nil => exact absurd rfl nonempty
    | cons label _ => exact label.exists_cons _
  -- Without a label before it, the last label is what the text starts with.
  | undotted _ front last =>
    cases front with
    | nil =>
      obtain ⟨o, after, heq, ho⟩ := last.exists_cons []
      exact ⟨o, after, by rw [← heq, List.append_nil]; rfl, ho⟩
    | cons label _ =>
      rw [List.append_assoc]
      exact label.exists_cons _

/-- A text is taken for a quoted one by its first octet, and a body of an unquoted one does not
start with a quote. -/
theorem StartsWith.exists_closes (h : StartsWith strictness labels rest t) :
    ∃ quoted body ending, (t.head? == some Text.quote) = quoted ∧
      (if quoted then t.tail else t) = body ++ ending ∧ Body strictness quoted labels body ∧
      Closes rest quoted ending := by
  cases h with
  | @unquoted body named ends =>
    obtain ⟨o, after, rfl, ho⟩ := named.exists_cons
    refine ⟨false, o :: after, rest, ?_, rfl, named, .unquoted ends⟩
    simpa using ne_quote_of_canStandUnquoted ho
  | @quoted body named => exact ⟨true, body, _, rfl, rfl, named, .quoted⟩

/-- A body and what closes it make a text that starts with the name. -/
theorem startsWith_of_closes {body ending : Text} (hquoted : (t.head? == some Text.quote) = quoted)
    (ht : (if quoted then t.tail else t) = body ++ ending)
    (hbody : Body strictness quoted labels body) (hcloses : Closes rest quoted ending) :
    StartsWith strictness labels rest t := by
  cases hcloses with
  | unquoted ends =>
    rw [if_neg Bool.false_ne_true] at ht
    rw [ht]
    exact .unquoted hbody ends
  | quoted =>
    cases t with
    | nil => cases hquoted
    | cons o t =>
      rw [if_pos rfl, List.tail_cons] at ht
      have ho : o = Text.quote := by simpa using hquoted
      rw [ht, ho]
      exact .quoted hbody

/-- Strings are read just from the texts of a name that is not too long. -/
theorem strings_read_eq_ok_iff {strings : List Octets} :
    LabelStrings.read strictness t = .ok (strings, rest) ↔
      ∃ labels, strings = labels ++ [[]] ∧ StartsWith strictness labels rest t ∧
        LabelStrings.wireLength strings ≤ 255 := by
  rw [LabelStrings.read]
  constructor
  · intro h
    dsimp only at h
    generalize hquoted : (t.head? == some Text.quote) = quoted at h
    generalize ht : (if quoted then t.tail else t) = after at h
    generalize hmarks : marks quoted after = result at h
    obtain ⟨ms, stop⟩ := result
    obtain ⟨g, hgather, h⟩ := bind_eq_ok h
    obtain ⟨rest', hending, h⟩ := bind_eq_ok h
    obtain ⟨finished, hfinish, h⟩ := bind_eq_ok h
    obtain ⟨kept, hkept, h⟩ := bind_eq_ok h
    cases h
    cases hending
    rw [LabelStrings.bounded] at hkept
    split at hkept
    next => cases hkept
    next hlength =>
      cases hkept
      obtain ⟨body, ending, rfl, hmarked, hcloses⟩ := marks_eq_ok_iff.1 hmarks
      -- The marks say which text was read, and how they ended says which labels it has.
      have hgathered : g.marks = ms := Gathered.marks_of_foldlM hgather
      rw [← hgathered] at hmarked
      obtain ⟨labels, rfl, hbody⟩ :=
        exists_body_of_finish hmarked (Gathered.bounded_empty.foldlM hgather) hfinish
      exact ⟨labels, rfl, startsWith_of_closes hquoted ht hbody hcloses, by omega⟩
  · rintro ⟨labels, rfl, hstarts, hlength⟩
    obtain ⟨quoted, body, ending, hquoted, ht, hbody, hcloses⟩ := hstarts.exists_closes
    obtain ⟨ms, g, hmarks, hgather, hfinish⟩ := hbody.exists_gathered hlength hcloses.stopsDigits
    rw [marks_of_closes hcloses] at hmarks
    dsimp only
    rw [hquoted, ht, hmarks, List.append_nil, hgather, ok_bind, ok_bind, hfinish, ok_bind]
    rw [LabelStrings.bounded, if_neg (by omega), ok_bind]
    rfl

/-- Reading gives the strings of a name just if it gives that name. -/
theorem exists_read_iff {strings : List Octets} :
    (∃ n, read strictness t = .ok (n, rest) ∧ n.strings = strings) ↔
      LabelStrings.read strictness t = .ok (strings, rest) := by
  rw [LabelStrings.read_eq]
  constructor
  · rintro ⟨n, hn, rfl⟩
    rw [hn]
    rfl
  · intro h
    obtain ⟨⟨n, after⟩, hn, hpair⟩ := map_eq_ok h
    obtain ⟨rfl, rfl⟩ := Prod.ext_iff.1 hpair
    exact ⟨n, hn, rfl⟩

/-- What comes after a name is text, wherever the name's text has cut characters apart. -/
theorem StartsWith.isUtf8_rest (h : StartsWith strictness labels rest t)
    (ht : Text.isUtf8 t = true) : Text.isUtf8 rest = true := by
  cases h with
  | @quoted body _ =>
    rw [Text.isUtf8_append_cons (by decide), Bool.and_eq_true] at ht
    exact ht.2
  | @unquoted body _ ends =>
    cases rest with
    | nil => rfl
    | cons o rest =>
      -- Blanks are ASCII characters, and a text may be cut before any of these.
      have ho : o ≤ 0x7f := by
        have hspace : isSpace o = true := ends
        simp only [isSpace, Bool.or_eq_true, beq_iff_eq] at hspace
        rcases hspace with (((rfl | rfl) | rfl) | rfl) | rfl <;> decide
      rw [Text.isUtf8_append_cons ho, Bool.and_eq_true] at ht
      rw [← List.nil_append (o :: rest), Text.isUtf8_append_cons ho, ht.2]
      rfl

theorem strings_inj {m n : Name} (h : m.strings = n.strings) : m = n := by
  have hm := ofOctets_allLabels m
  rw [← strings, h, strings, ofOctets_allLabels n] at hm
  exact (Except.ok.inj hm).symm

/-- What is read as a name is a text of that name, and what comes after it. -/
theorem read_eq_ok_iff {n : Name} :
    read strictness t = .ok (n, rest) ↔
      StartsWith strictness (n.labels.map Label.octets) rest t := by
  have hread : read strictness t = .ok (n, rest) ↔
      LabelStrings.read strictness t = .ok (n.strings, rest) := by
    rw [← exists_read_iff]
    constructor
    · exact fun h => ⟨n, h, rfl⟩
    · rintro ⟨m, hm, hstrings⟩
      rw [← strings_inj hstrings]
      exact hm
  rw [hread, strings_read_eq_ok_iff, LabelStrings.wireLength_strings,
    LabelStrings.strings_eq_append]
  constructor
  · rintro ⟨labels, hlabels, hstarts, -⟩
    rw [List.append_cancel_right hlabels]
    exact hstarts
  · exact fun h => ⟨_, rfl, h, n.wireLength_le⟩

/-- The text of a name can be cut off what comes after it. -/
theorem StartsWith.exists_taken (h : StartsWith strictness labels rest t) :
    ∃ taken, t = taken ++ rest ∧ StartsWith strictness labels [] taken ∧
      (EndsField rest ∨ taken.head? = some Text.quote) := by
  cases h with
  | @unquoted body named ends =>
    refine ⟨body, rfl, ?_, .inl ends⟩
    have halone : StartsWith strictness labels [] (body ++ []) := .unquoted named rfl
    rwa [List.append_nil] at halone
  | @quoted body named =>
    exact ⟨Text.quote :: body ++ [Text.quote], by simp, .quoted named, .inr rfl⟩

/-- The text of a name may come before other text, unless it needs a blank and finds none. -/
theorem StartsWith.append (h : StartsWith strictness labels [] t)
    (hrest : EndsField rest ∨ t.head? = some Text.quote) :
    StartsWith strictness labels rest (t ++ rest) := by
  cases h with
  | @unquoted body named _ =>
    obtain ⟨o, after, rfl, ho⟩ := named.exists_cons
    have hne := ne_quote_of_canStandUnquoted ho
    rw [List.append_nil] at hrest ⊢
    exact .unquoted named (hrest.resolve_right (by simpa using hne))
  | @quoted body named =>
    rw [List.append_assoc]
    exact .quoted named

/-- The text of a name is read alone as it is before other text, before which it has to end. -/
theorem read_eq_ok_iff_exists_taken {n : Name} :
    read strictness t = .ok (n, rest) ↔
      ∃ taken, t = taken ++ rest ∧ read strictness taken = .ok (n, []) ∧
        (EndsField rest ∨ taken.head? = some Text.quote) := by
  simp only [read_eq_ok_iff]
  constructor
  · exact fun h => h.exists_taken
  · rintro ⟨taken, rfl, htaken, hrest⟩
    exact htaken.append hrest

/-- The text of a name starts with no blank. -/
theorem exists_cons_of_read {n : Name} (h : read strictness t = .ok (n, rest)) :
    ∃ o after, t = o :: after ∧ isVisible o = true := by
  cases read_eq_ok_iff.1 h with
  | unquoted named _ =>
    obtain ⟨o, after, rfl, ho⟩ := named.exists_cons
    exact ⟨o, after ++ rest, rfl, isVisible_of_canStandUnquoted ho⟩
  | quoted => exact ⟨Text.quote, _, rfl, rfl⟩

/-- A text is read as a name just if it starts with a text of that name, in quotes or before a
blank, and the name is not too long.  The name's text ends where a character does. -/
theorem read_accepts_grammar (strictness : Strictness) (t : Text) :
    (∀ labels rest,
      (∃ n, read strictness t = .ok (n, rest) ∧ n.strings = labels ++ [[]]) ↔
        StartsWith strictness labels rest t ∧ LabelStrings.wireLength (labels ++ [[]]) ≤ 255) ∧
    (Text.isUtf8 t = true → ∀ n rest, read strictness t = .ok (n, rest) →
      rest = t.drop (t.length - rest.length) ∧ Text.IsBoundary t (t.length - rest.length)) := by
  constructor
  · intro labels rest
    rw [exists_read_iff, strings_read_eq_ok_iff]
    simp
  · intro ht n rest hn
    have hstarts := read_eq_ok_iff.1 hn
    obtain ⟨taken, rfl, -⟩ := hstarts.exists_taken
    have hlength : (taken ++ rest).length - rest.length = taken.length := by simp
    -- Text does not start inside a character.
    have hrest := Text.head?_of_isUtf8 (hstarts.isUtf8_rest ht)
    rw [hlength, Text.IsBoundary, List.drop_left]
    exact ⟨rfl, by simp, hrest⟩

/-- A text in quotes with the character U+00E9 after a backslash, which so takes only the first of
the two octets, and an escape with a digit after its three. -/
def brokenCharacter : Text := Text.ofString "\"\\é\\0331.\"é 60"

/-- The escape cuts a character apart, and what is left after the name is text all the same. -/
theorem read_brokenCharacter :
    Text.isUtf8 brokenCharacter = true ∧ ∃ n rest,
      read .trailingDot brokenCharacter = .ok (n, rest) ∧
      n.strings = [[0xc3, 0xa9, 0x21, 0x31], []] ∧ rest = brokenCharacter.drop 11 ∧
      Text.IsBoundary brokenCharacter 11 ∧
      StartsWith .trailingDot [[0xc3, 0xa9, 0x21, 0x31]] rest brokenCharacter := by
  have hutf8 : Text.isUtf8 brokenCharacter = true := by decide +kernel
  have hread : LabelStrings.read .trailingDot brokenCharacter =
      .ok ([[0xc3, 0xa9, 0x21, 0x31], []], brokenCharacter.drop 11) := by decide +kernel
  obtain ⟨n, hn, hstrings⟩ := exists_read_iff.2 hread
  obtain ⟨hgrammar, hboundary⟩ := read_accepts_grammar .trailingDot brokenCharacter
  have hlength : brokenCharacter.length - (brokenCharacter.drop 11).length = 11 := by decide +kernel
  have hoffset := hboundary hutf8 n _ hn
  rw [hlength] at hoffset
  exact ⟨hutf8, n, _, hn, hstrings, hoffset.1, hoffset.2, ((hgrammar _ _).1 ⟨n, hn, hstrings⟩).1⟩

end Nameserver.Name

import Nameserver.Name.Text
import Nameserver.Proofs.Name.Pointers
import Nameserver.Proofs.Text.Printed
/-!
# The text of a name, read again

The printed text of a name is read as that name, octet for octet, whatever octets its labels have.
A quoted text ends at its closing quote; an unquoted one has to end the field it stands in.
-/

namespace Nameserver

namespace Name

open Text (isVisible isVisible_iff isSpace isSpace_eq_false isPrintable isDigit digit EndsField)

/-! ## 1. Octets as they are printed -/

/-- What may stand outside quotes can be seen. -/
theorem isVisible_of_canStandUnquoted {o : UInt8} (h : canStandUnquoted o = true) :
    isVisible o = true := by
  simp only [canStandUnquoted, Text.isLetter, Bool.or_eq_true, Bool.and_eq_true, decide_eq_true_eq,
    beq_iff_eq, UInt8.le_iff_toNat_le] at h
  -- Letters and digits are ranges; the five marks are octets of their own.
  rcases h with (((((h | h) | h) | h) | h) | h) | h
  · rw [isVisible_iff]
    rcases h with ⟨hlow, hhigh⟩ | ⟨hlow, hhigh⟩
    · have hlow' : 0x41 ≤ o.toNat := hlow
      have hhigh' : o.toNat ≤ 0x5a := hhigh
      omega
    · have hlow' : 0x61 ≤ o.toNat := hlow
      have hhigh' : o.toNat ≤ 0x7a := hhigh
      omega
  · exact Text.isVisible_of_isDigit h
  all_goals
    subst h
    rfl

/-- An octet after a backslash stands for itself, unless it is a digit. -/
theorem unescape_of_not_digit {o : UInt8} (h : isDigit o = false) (rest : Text) :
    unescape (o :: rest) = .ok (o, rest) := by
  match rest with
  | [] => rfl
  | [_] => rfl
  | b :: c :: rest =>
    rw [unescape, h]
    rfl

/-- Three decimal digits of an octet stand for it. -/
theorem unescape_digits (o : UInt8) (rest : Text) :
    unescape (digit (o.toNat / 100) :: digit (o.toNat / 10) :: digit o.toNat :: rest) =
      .ok (o, rest) := by
  -- The three digits are worth the octet, as each digit is worth its remainder by ten.
  have hvalue : Text.value [digit (o.toNat / 100), digit (o.toNat / 10), digit o.toNat] =
      o.toNat := by
    have hlt := o.toNat_lt
    have hone := Text.value_append_digit [] (o.toNat / 100)
    have htwo := Text.value_append_digit [digit (o.toNat / 100)] (o.toNat / 10)
    have hthree := Text.value_append_digit [digit (o.toNat / 100), digit (o.toNat / 10)] o.toNat
    have hzero : Text.value [] = 0 := rfl
    simp only [List.nil_append, List.cons_append] at hone htwo hthree
    omega
  have hle : o.toNat ≤ 255 := by
    have hlt := o.toNat_lt
    omega
  rw [unescape, Text.isDigit_digit, Text.isDigit_digit, Text.isDigit_digit, hvalue, if_pos (by rfl),
    if_pos hle, UInt8.ofNat_toNat]

/-! ## 2. Marks -/

section

variable (quoted : Bool) (t : Text)

theorem marks_dot :
    marks quoted (Text.dot :: t) = (.dot :: (marks quoted t).1, (marks quoted t).2) := by
  rw [marks.eq_def]
  cases quoted <;> rfl

variable {quoted t}

theorem marks_escape {o : UInt8} {after : Text} (h : unescape t = .ok (o, after)) :
    marks quoted (Text.backslash :: t) =
      (.octet o :: (marks quoted after).1, (marks quoted after).2) := by
  have hspace : (!quoted && isSpace Text.backslash) = false := by cases quoted <;> rfl
  rw [marks.eq_def]
  dsimp only
  rw [hspace, if_neg Bool.false_ne_true, if_neg (by decide), if_pos (by decide)]
  -- The escape is taken apart as it was assumed.
  split
  next e he =>
    rw [h] at he
    cases he
  next escaped rest he =>
    rw [h] at he
    cases he
    rfl

/-- An octet without a rule of its own is read as itself, if it may stand there. -/
theorem marks_plain {o : UInt8} (hdot : (o == Text.dot) = false)
    (hbackslash : (o == Text.backslash) = false) (hquote : (o == Text.quote) = false)
    (h : quoted = false → canStandUnquoted o = true) :
    marks quoted (o :: t) = (.octet o :: (marks quoted t).1, (marks quoted t).2) := by
  rw [marks.eq_def]
  dsimp only
  rw [hdot, hbackslash, hquote]
  cases quoted with
  | true => rfl
  | false => rw [isSpace_eq_false (isVisible_of_canStandUnquoted (h rfl)), h rfl]; rfl

/-- Whatever an octet is, its printed form is read as that octet. -/
theorem marks_escaped {o : UInt8} (h : quoted = false → (Label.escaped o).all canStandUnquoted) :
    marks quoted (Label.escaped o ++ t) =
      (.octet o :: (marks quoted t).1, (marks quoted t).2) := by
  rw [Label.escaped] at h ⊢
  split
  next hspecial =>
    -- None of the three marks is a digit, so one octet is all that the escape takes.
    have hdigit : isDigit o = false := by
      simp only [Bool.or_eq_true, beq_iff_eq] at hspecial
      rcases hspecial with (rfl | rfl) | rfl <;> rfl
    exact marks_escape (unescape_of_not_digit hdigit t)
  next hplain =>
    simp only [Bool.or_eq_true, not_or, Bool.not_eq_true] at hplain
    obtain ⟨⟨hdot, hbackslash⟩, hquote⟩ := hplain
    split
    next hprintable =>
      refine marks_plain hdot hbackslash hquote fun hquoted => ?_
      have hall := h hquoted
      rw [if_neg (by simp only [hdot, hbackslash, hquote]; decide), if_pos hprintable] at hall
      simpa using hall
    next => exact marks_escape (unescape_digits o t)

/-- An unquoted name ends where its field does. -/
theorem marks_of_endsField {rest : Text} (h : EndsField rest) :
    marks false rest = ([], .ok rest) := by
  cases rest with
  | nil => rw [marks.eq_def]; rfl
  | cons o rest =>
    have hspace : isSpace o = true := h
    rw [marks.eq_def]
    dsimp only
    rw [hspace]
    rfl

/-- A quoted name ends at the closing quote. -/
theorem marks_quote (rest : Text) : marks true (Text.quote :: rest) = ([], .ok rest) := by
  rw [marks.eq_def]
  rfl

theorem marks_octets {octets : Octets}
    (h : quoted = false → (octets.flatMap Label.escaped).all canStandUnquoted) :
    marks quoted (octets.flatMap Label.escaped ++ t) =
      (octets.map .octet ++ (marks quoted t).1, (marks quoted t).2) := by
  induction octets with
  | nil => rfl
  | cons o octets ih =>
    simp only [List.flatMap_cons, List.all_append, Bool.and_eq_true] at h
    rw [List.flatMap_cons, List.append_assoc, marks_escaped fun hq => (h hq).1,
      ih fun hq => (h hq).2]
    rfl

end

/-! ## 3. Labels -/

/-- The labels that stand in the text of a name; the text of the root has the null label. -/
def textLabels (n : Name) : List Label := if n.isRoot then [Label.null] else n.labels

/-- The text of labels, each with a dot after it. -/
def labelsText (labels : List Label) : Text := labels.flatMap fun l => l.text ++ [Text.dot]

/-- The text of labels stands between quotes if it has an octet that may not stand outside. -/
theorem text_eq (n : Name) :
    n.text = if (labelsText n.textLabels).all canStandUnquoted then labelsText n.textLabels
      else Text.quote :: labelsText n.textLabels ++ [Text.quote] := by
  rw [text, textLabels]
  split <;> rfl

/-- The marks of labels: their octets, and a dot after each of them. -/
def labelsMarks (labels : List Label) : List Mark :=
  labels.flatMap fun l => l.octets.map .octet ++ [.dot]

theorem marks_labelsText {quoted : Bool} {labels : List Label}
    (h : quoted = false → (labelsText labels).all canStandUnquoted) (t : Text) :
    marks quoted (labelsText labels ++ t) =
      (labelsMarks labels ++ (marks quoted t).1, (marks quoted t).2) := by
  induction labels with
  | nil => rfl
  | cons l labels ih =>
    simp only [labelsText, List.flatMap_cons, List.all_append, Bool.and_eq_true] at h
    have hrest := ih fun hq => (h hq).2
    rw [labelsText, List.flatMap_cons, ← labelsText, List.append_assoc, List.append_assoc,
      Label.text, marks_octets fun hq => (h hq).1.1, List.singleton_append, marks_dot, hrest,
      labelsMarks, labelsMarks, List.flatMap_cons]
    simp only [List.append_assoc, List.cons_append, List.nil_append]

/-! ## 4. Gathering labels -/

namespace Gathered

/-- Octets fill the label that has not ended, as long as there is room in it. -/
theorem foldlM_octets {g : Gathered} {octets : Octets}
    (h : g.current.length + octets.length ≤ 63) :
    (octets.map Mark.octet).foldlM add g = .ok { g with current := g.current ++ octets } := by
  induction octets generalizing g with
  | nil =>
    rw [List.append_nil]
    rfl
  | cons o octets ih =>
    rw [List.length_cons] at h
    -- One more octet goes in, because all of them together do.
    have hstep : g.add (.octet o) = .ok { g with current := g.current ++ [o] } := by
      rw [add, if_neg (by omega)]
    rw [List.map_cons, List.foldlM_cons, hstep, ok_bind,
      ih (by rw [List.length_append, List.length_singleton]; omega), List.append_assoc]
    rfl

/-- Every label that is not null is gathered, as long as there are not too many. -/
theorem foldlM_labelsMarks {labels : List Label} {ended : List Octets}
    (hne : ∀ l ∈ labels, l.isNull = false) (hroot : ended.head?.any List.isEmpty = false)
    (hcount : ended.length + labels.length ≤ 255) :
    (labelsMarks labels).foldlM add ⟨ended, []⟩ =
      .ok ⟨(labels.map Label.octets).reverse ++ ended, []⟩ := by
  induction labels generalizing ended with
  | nil => rfl
  | cons l labels ih =>
    have hnull : l.octets.isEmpty = false := hne l List.mem_cons_self
    rw [List.length_cons] at hcount
    have hlabel : (l.octets.map Mark.octet).foldlM add ⟨ended, []⟩ = .ok ⟨ended, l.octets⟩ :=
      foldlM_octets (by rw [List.length_nil, Nat.zero_add]; exact l.length_le)
    have hdot : add ⟨ended, l.octets⟩ .dot = .ok ⟨l.octets :: ended, []⟩ := by
      rw [add, isRoot, hroot, hnull]
      exact if_neg (by show ¬ ended.length ≥ 255; omega)
    have hroot' : (l.octets :: ended).head?.any List.isEmpty = false := hnull
    have hrest := ih (fun k hk => hne k (List.mem_cons_of_mem _ hk)) hroot'
      (by rw [List.length_cons]; omega)
    -- The octets fill the label, the dot ends it, and the other labels come on top of it.
    rw [labelsMarks, List.flatMap_cons, ← labelsMarks, List.foldlM_append, List.foldlM_append,
      hlabel, ok_bind, List.foldlM_cons, hdot, ok_bind, List.foldlM_nil, pure_bind, hrest,
      List.map_cons, List.reverse_cons, List.append_assoc, List.singleton_append]

/-- Labels that are all ended are a name, with the null label after them. -/
theorem finish_reverse {octets : List Octets} (hne : octets ≠ [])
    (hall : ∀ o ∈ octets, o.isEmpty = false) (strictness : Strictness) :
    finish strictness ⟨octets.reverse, []⟩ = .ok (octets ++ [[]]) := by
  obtain ⟨o, ended, hended⟩ := List.exists_cons_of_ne_nil (List.reverse_ne_nil_iff.2 hne)
  have ho : o.isEmpty = false := by
    apply hall
    rw [← List.mem_reverse, hended]
    exact List.mem_cons_self
  -- The label that ended last is not null, so the labels are not the root's.
  have hroot : isRoot ⟨octets.reverse, []⟩ = false := by
    rw [isRoot, hended]
    exact ho
  have hmany : octets.reverse.isEmpty = false := by rw [hended]; rfl
  rw [finish, hroot]
  dsimp only
  rw [hmany, List.reverse_reverse]
  rfl

end Gathered

theorem length_lt_wireLengthOf (labels : List Label) : labels.length < wireLengthOf labels := by
  induction labels with
  | nil => exact Nat.one_pos
  | cons l labels ih =>
    rw [List.length_cons, wireLengthOf]
    omega

/-- The labels of a name are gathered from its marks, with the null label at the end. -/
theorem exists_gather_labelsMarks (n : Name) (strictness : Strictness) :
    ∃ g, gather (labelsMarks n.textLabels) = .ok g ∧
      g.finish strictness = .ok (n.allLabels.map Label.octets) := by
  by_cases hroot : n.labels = []
  -- The dot of the root ends a null label, which stands for the whole name.
  · rw [textLabels, isRoot, allLabels, hroot]
    exact ⟨⟨[[]], []⟩, rfl, rfl⟩
  · have htext : n.textLabels = n.labels := by
      rw [textLabels, isRoot, List.isEmpty_eq_false_iff.2 hroot]
      rfl
    -- A name of 255 octets has fewer labels than a text may have.
    have hcount := length_lt_wireLengthOf n.labels
    have hlength := n.wireLength_le
    have hgather := Gathered.foldlM_labelsMarks n.ne_null (rfl : ([] : List Octets).head?.any _ = _)
      (by rw [List.length_nil]; omega)
    rw [htext, allLabels, List.map_append]
    refine ⟨_, hgather, ?_⟩
    rw [List.append_nil]
    refine Gathered.finish_reverse ?_ ?_ strictness
    · exact fun hnil => hroot (List.map_eq_nil_iff.1 hnil)
    · intro o ho
      obtain ⟨l, hl, rfl⟩ := List.mem_map.1 ho
      exact n.ne_null l hl

theorem label_octets (l : Label) : label l.octets = .ok l := by
  rw [label, Label.ofOctets?, dif_pos l.length_le]

theorem mapM_label_octets (labels : List Label) :
    (labels.map Label.octets).mapM label = .ok labels := by
  induction labels with
  | nil => rfl
  | cons l labels ih =>
    rw [List.map_cons, List.mapM_cons, label_octets, ih]
    rfl

/-- A name is made again of all its labels. -/
theorem ofOctets_allLabels (n : Name) : ofOctets (n.allLabels.map Label.octets) = .ok n := by
  rw [ofOctets, mapM_label_octets, ok_bind, allLabels, List.getLast?_concat,
    List.dropLast_concat]
  exact ofLabels?_eq_ok_iff.2 rfl

/-! ## 5. Reading a printed name -/

/-- Whether the text of a name stands between quotes. -/
def IsQuoted (n : Name) : Prop := ¬ (labelsText n.textLabels).all canStandUnquoted = true

/-- The text of labels is not empty, and no quote comes first. -/
theorem exists_labelsText_eq_cons (n : Name) :
    ∃ o rest, labelsText n.textLabels = o :: rest ∧ o ≠ Text.quote := by
  rw [textLabels]
  split
  next => exact ⟨Text.dot, [], rfl, by decide⟩
  next hroot =>
    rw [isRoot, Bool.not_eq_true, List.isEmpty_eq_false_iff] at hroot
    obtain ⟨l, labels, hlabels⟩ := List.exists_cons_of_ne_nil hroot
    have hnull := n.ne_null l (by rw [hlabels]; exact List.mem_cons_self)
    rw [Label.isNull, List.isEmpty_eq_false_iff] at hnull
    obtain ⟨o, octets, hoctets⟩ := List.exists_cons_of_ne_nil hnull
    rw [hlabels, labelsText, List.flatMap_cons, Label.text, hoctets, List.flatMap_cons]
    -- A quote is escaped, so the text starts with a backslash where the label starts with one.
    rw [Label.escaped]
    split
    next => exact ⟨Text.backslash, _, rfl, by decide⟩
    next hplain =>
      split
      next =>
        refine ⟨o, _, rfl, ?_⟩
        rintro rfl
        exact hplain rfl
      next => exact ⟨Text.backslash, _, rfl, by decide⟩

/-- A text with the marks of a name is read as that name. -/
theorem read_of_marks {n : Name} {strictness : Strictness} {t rest : Text}
    (h : marks (t.head? == some Text.quote)
      (if t.head? == some Text.quote then t.tail else t) =
        (labelsMarks n.textLabels, .ok rest)) :
    read strictness t = .ok (n, rest) := by
  obtain ⟨g, hgather, hfinish⟩ := exists_gather_labelsMarks n strictness
  have hname := ofOctets_allLabels n
  rw [read]
  dsimp only
  rw [h]
  dsimp only
  rw [hgather, ok_bind, ok_bind, hfinish, ok_bind, hname]
  rfl

/-- A printed name is read as that name, with either strictness, up to the end of its field, or up
to its closing quote. -/
theorem read_text (n : Name) (strictness : Strictness) {rest : Text}
    (h : EndsField rest ∨ n.IsQuoted) : read strictness (n.text ++ rest) = .ok (n, rest) := by
  apply read_of_marks
  obtain ⟨o, after, hbody, ho⟩ := exists_labelsText_eq_cons n
  rw [text_eq]
  by_cases hplain : (labelsText n.textLabels).all canStandUnquoted = true
  · have hends : EndsField rest := h.resolve_right (not_not_intro hplain)
    -- The text does not start with a quote, so it is not taken for a quoted one.
    have hhead : ((labelsText n.textLabels ++ rest).head? == some Text.quote) = false := by
      rw [hbody, List.cons_append, List.head?_cons, beq_eq_false_iff_ne]
      exact fun heq => ho (Option.some.inj heq)
    rw [if_pos hplain, hhead, if_neg Bool.false_ne_true, marks_labelsText fun _ => hplain,
      marks_of_endsField hends, List.append_nil]
  · -- Between quotes every octet may stand, so nothing is asked of the labels.
    have hany : true = false → (labelsText n.textLabels).all canStandUnquoted = true :=
      fun hq => nomatch hq
    rw [if_neg hplain]
    show marks true (labelsText n.textLabels ++ [Text.quote] ++ rest) = _
    rw [List.append_assoc, List.singleton_append, marks_labelsText hany, marks_quote,
      List.append_nil]

/-! ## 6. What a printed name looks like -/

theorem all_isPrintable_escaped (o : UInt8) : (Label.escaped o).all isPrintable = true := by
  have hdigit : ∀ k, isPrintable (digit k) = true := fun k =>
    Text.isPrintable_of_isVisible (Text.isVisible_of_isDigit (Text.isDigit_digit k))
  rw [Label.escaped]
  split
  next hspecial =>
    simp only [Bool.or_eq_true, beq_iff_eq] at hspecial
    rcases hspecial with (rfl | rfl) | rfl <;> rfl
  next =>
    split
    next hprintable => rw [List.all_cons, hprintable, List.all_nil]; rfl
    next =>
      rw [List.all_cons, List.all_cons, List.all_cons, List.all_cons, hdigit, hdigit, hdigit]
      rfl

theorem all_isPrintable_labelsText (labels : List Label) :
    (labelsText labels).all isPrintable = true := by
  have hlabel : ∀ l : Label, l.text.all isPrintable = true := by
    intro l
    rw [Label.text, List.all_flatMap, List.all_eq_true]
    exact fun o _ => all_isPrintable_escaped o
  rw [labelsText, List.all_flatMap, List.all_eq_true]
  intro l _
  rw [List.all_append, hlabel]
  rfl

/-- The text of a name is printable and has no blank at either end, even where labels have. -/
theorem printed_text (n : Name) : n.text.Printed := by
  rw [text_eq]
  split
  next hplain =>
    obtain ⟨o, rest, hbody, -⟩ := exists_labelsText_eq_cons n
    have hfield : Text.IsField (labelsText n.textLabels) := by
      refine ⟨by rw [hbody]; exact List.cons_ne_nil _ _, ?_⟩
      rw [List.all_eq_true] at hplain ⊢
      exact fun o ho => isVisible_of_canStandUnquoted (hplain o ho)
    exact hfield.printed
  next =>
    have hquote : Text.Printed [Text.quote] := by decide
    exact hquote.append hquote (all_isPrintable_labelsText n.textLabels)

/-- No name's text starts with a semicolon. -/
theorem head?_text_ne_semicolon (n : Name) (rest : Text) :
    ((n.text ++ rest).head? == some Text.semicolon) = false := by
  rw [text_eq]
  split
  next hplain =>
    obtain ⟨o, after, hbody, -⟩ := exists_labelsText_eq_cons n
    rw [hbody] at hplain ⊢
    rw [List.all_cons, Bool.and_eq_true] at hplain
    rw [List.cons_append, List.head?_cons, beq_eq_false_iff_ne]
    intro heq
    rw [Option.some.inj heq] at hplain
    exact absurd hplain.1 (by decide)
  next => rfl

/-! ## 7. Where a printed name ends -/

/-- A name is printed in quotes if its text starts with one. -/
theorem isQuoted_iff_head? (n : Name) : n.IsQuoted ↔ n.text.head? = some Text.quote := by
  rw [IsQuoted, text_eq]
  split
  next hplain =>
    obtain ⟨o, after, hbody, ho⟩ := exists_labelsText_eq_cons n
    have hhead : (labelsText n.textLabels).head? ≠ some Text.quote := by
      rw [hbody, List.head?_cons]
      exact fun heq => ho (Option.some.inj heq)
    exact iff_of_false (not_not_intro hplain) hhead
  next hplain => exact iff_of_true hplain rfl

/-- A field ends at the end of the text or at a blank. -/
theorem endsField_iff_eq_nil_or {rest : Text} :
    EndsField rest ↔ rest = [] ∨ ∃ o after, rest = o :: after ∧ isSpace o = true := by
  cases rest with
  | nil => exact iff_of_true rfl (.inl rfl)
  | cons o after => simp [EndsField]

/-- Where marks without quotes come to an end, the field they stand in does. -/
theorem endsField_of_marks {t rest : Text} (h : (marks false t).2 = .ok rest) :
    EndsField rest := by
  generalize hquoted : false = quoted at h
  fun_induction marks quoted t with
  | case1 =>
    subst hquoted
    cases h
    rfl
  | case2 o t hspace =>
    cases h
    rw [Bool.and_eq_true] at hspace
    exact hspace.2
  -- A mark before the end changes nothing of where the end is.
  | case3 o t _ _ marks ending hmarks ih
  | case8 o t _ _ _ _ _ marks ending hmarks ih =>
    rw [hmarks] at ih
    exact ih h
  | case4 o t _ _ _ e he => cases h
  | case5 o t _ _ _ escaped after _ marks ending hmarks ih =>
    rw [hmarks] at ih
    exact ih h
  | case6 o t _ _ _ hend =>
    -- Only a quoted name ends at a quote.
    subst hquoted
    cases hend
  | case7 => cases h

/-- What is left after a name was left when its marks ended. -/
theorem marks_of_read {strictness : Strictness} {t rest : Text} {n : Name}
    (hquote : t.head? ≠ some Text.quote) (h : read strictness t = .ok (n, rest)) :
    (marks false t).2 = .ok rest := by
  have hquoted : (t.head? == some Text.quote) = false := beq_eq_false_iff_ne.2 hquote
  rw [read, hquoted] at h
  obtain ⟨_, _, h⟩ := bind_eq_ok h
  obtain ⟨after, hafter, h⟩ := bind_eq_ok h
  obtain ⟨_, _, h⟩ := bind_eq_ok h
  obtain ⟨_, _, h⟩ := bind_eq_ok h
  cases h
  exact hafter

/-- In front of any text, a printed name is read as that name, and up to its last octet, exactly if
the text ends the name's field or the name is printed in quotes. -/
theorem read_text_append_eq_ok_iff (n : Name) (strictness : Strictness) (rest : Text) :
    read strictness (n.text ++ rest) = .ok (n, rest) ↔
      (rest = [] ∨ ∃ o after, rest = o :: after ∧ isSpace o = true) ∨
        n.text.head? = some Text.quote := by
  rw [← endsField_iff_eq_nil_or, ← isQuoted_iff_head?]
  refine ⟨fun h => ?_, read_text n strictness⟩
  by_cases hquoted : n.IsQuoted
  · exact .inr hquoted
  -- A name without quotes does not start with one, and so it ended with its field.
  · have hquote : (n.text ++ rest).head? ≠ some Text.quote := by
      obtain ⟨o, after, hbody, ho⟩ := exists_labelsText_eq_cons n
      rw [text_eq, if_pos (Decidable.not_not.1 hquoted), hbody, List.cons_append, List.head?_cons]
      exact fun heq => ho (Option.some.inj heq)
    exact .inl (endsField_of_marks (marks_of_read hquote h))

end Name

end Nameserver

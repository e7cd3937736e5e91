import Mathlib.Algebra.GroupWithZero.Nat
import Mathlib.Data.List.Induction
import Nameserver.Proofs.Name.Text
/-!
# Names made of strings

A name carries the bounds of its labels in its type.  Here the names are made again of plain strings,
which carry nothing: each way to make a name checks its input as it goes, and what no check stops is
taken for the labels of a name as it is.  It always is the labels of a name, and the same name that
comes with its bounds.
-/

namespace Nameserver

/-! ## 1. The strings of a name -/

/-- The octets of a name's labels, with the empty string of the null label at the end. -/
def Name.strings (n : Name) : List Octets := n.allLabels.map Label.octets

namespace LabelStrings

/-- How many octets strings take on the wire, each of them after its length. -/
def wireLength (strings : List Octets) : Nat := (strings.map fun s => s.length + 1).sum

/-- The strings fit into labels, and the empty string ends them and stands nowhere else. -/
structure Terminated (strings : List Octets) : Prop where
  last : strings.getLast? = some []
  ne_null : ∀ s ∈ strings.dropLast, s ≠ []
  length_le : ∀ s ∈ strings, s.length ≤ 63

/-- The strings are the labels of a name. -/
structure IsName (strings : List Octets) : Prop extends Terminated strings where
  one_le_wireLength : 1 ≤ wireLength strings
  wireLength_le : wireLength strings ≤ 255

/-- Strings of labels take on the wire what the labels take. -/
theorem wireLength_labels (labels : List Label) :
    wireLength ((labels ++ [Label.null]).map Label.octets) = Name.wireLengthOf labels := by
  induction labels with
  | nil => rfl
  | cons l labels ih =>
    simp only [wireLength, List.cons_append, List.map_cons, List.sum_cons] at ih ⊢
    rw [ih, Name.wireLengthOf]
    rfl

theorem wireLength_strings (n : Name) : wireLength n.strings = n.wireLength :=
  wireLength_labels n.labels

theorem strings_eq_append (n : Name) : n.strings = n.labels.map Label.octets ++ [[]] := by
  rw [Name.strings, Name.allLabels, List.map_append]
  rfl

/-- What is in the type of a name is what its strings need. -/
theorem isName_strings (n : Name) : IsName n.strings where
  last := by rw [strings_eq_append, List.getLast?_concat]
  ne_null := by
    rw [strings_eq_append, List.dropLast_concat]
    intro s hs
    obtain ⟨l, hl, rfl⟩ := List.mem_map.1 hs
    exact List.isEmpty_eq_false_iff.1 (n.ne_null l hl)
  length_le := by
    intro s hs
    obtain ⟨l, -, rfl⟩ := List.mem_map.1 hs
    exact l.length_le
  one_le_wireLength := by
    rw [wireLength_strings]
    exact n.one_le_wireLength
  wireLength_le := by
    rw [wireLength_strings]
    exact n.wireLength_le

/-! ## 2. Labels that are given -/

/-- Takes strings for a name as they are, unless they are too long together. -/
def bounded (strings : List Octets) : Except NameError (List Octets) :=
  if 255 < wireLength strings then .error .nameTooLong else .ok strings

/-- Takes the strings of labels, all of which are given. -/
def ofLabels (given : List Octets) : Except NameError (List Octets) :=
  if given.any fun s => 63 < s.length then .error .labelTooLong
  else
    match given.getLast? with
    | some [] =>
      if given.dropLast.any List.isEmpty then .error .nullNonTerminal else bounded given
    | _ => .error .nonNullTerminal

/-- Strings that are short enough are the octets of labels. -/
theorem exists_labels {given : List Octets} (h : ∀ s ∈ given, s.length ≤ 63) :
    ∃ labels : List Label, labels.map Label.octets = given := by
  induction given with
  | nil => exact ⟨[], rfl⟩
  | cons s given ih =>
    rw [List.forall_mem_cons] at h
    obtain ⟨labels, hlabels⟩ := ih h.2
    exact ⟨⟨s, h.1⟩ :: labels, by rw [List.map_cons, hlabels]⟩

/-- One string that is too long is an error for all of them. -/
theorem mapM_label_of_long {given : List Octets} (h : ∃ s ∈ given, 63 < s.length) :
    given.mapM Name.label = .error .labelTooLong := by
  induction given with
  | nil => simp at h
  | cons s given ih =>
    rw [List.mapM_cons, Name.label, Label.ofOctets?]
    -- The first string is too long itself, or it is one of those behind it.
    by_cases hs : s.length ≤ 63
    · have hgiven : ∃ s ∈ given, 63 < s.length := by
        simp only [List.mem_cons, exists_eq_or_imp] at h
        exact h.resolve_left (by omega)
      rw [dif_pos hs, ih hgiven]
      rfl
    · rw [dif_neg hs]
      rfl

theorem any_long_octets (labels : List Label) :
    ((labels.map Label.octets).any fun s => 63 < s.length) = false := by
  simp only [List.any_map, List.any_eq_false, Function.comp, decide_eq_true_eq]
  intro l _
  have hle := l.length_le
  omega

theorem any_isEmpty_octets (labels : List Label) :
    (labels.map Label.octets).any List.isEmpty = true ↔ ¬ ∀ l ∈ labels, l.isNull = false := by
  simp [Label.isNull]

/-- With the null label at the end, labels are refused just if the labels before it make no name. -/
theorem ofLabels_concat_null (front : List Label) :
    ofLabels ((front ++ [Label.null]).map Label.octets) =
      (Name.ofLabels? front).map Name.strings := by
  have hwire := wireLength_labels front
  have hshort := any_long_octets (front ++ [Label.null])
  have hstrings : (front ++ [Label.null]).map Label.octets = front.map Label.octets ++ [[]] := by
    simp
  rw [hstrings] at hwire hshort ⊢
  unfold ofLabels bounded Name.ofLabels?
  rw [hshort, List.getLast?_concat, List.dropLast_concat, hwire]
  -- Both check for null labels first, and then the length of all labels together.
  by_cases hnull : ∀ l ∈ front, l.isNull = false
  · have hany : ¬ (front.map Label.octets).any List.isEmpty = true := by
      rw [any_isEmpty_octets]
      exact not_not_intro hnull
    rw [dif_pos hnull]
    by_cases hle : Name.wireLengthOf front ≤ 255
    · rw [dif_pos hle]
      simp only [hany, Nat.not_lt.2 hle, if_false]
      exact congrArg Except.ok (strings_eq_append ⟨front, hnull, hle⟩).symm
    · rw [dif_neg hle]
      simp only [hany, Nat.lt_of_not_le hle, if_true]
      rfl
  · rw [dif_neg hnull, (any_isEmpty_octets front).2 hnull]
    rfl

/-- Given labels make the same name with its bounds, or fail in the same way. -/
theorem ofLabels_eq (given : List Octets) :
    ofLabels given = (Name.ofOctets given).map Name.strings := by
  -- A string that is too long is reported before anything else is looked at.
  by_cases hlong : ∃ s ∈ given, 63 < s.length
  · have hany : (given.any fun s => 63 < s.length) = true := by simpa using hlong
    rw [ofLabels, if_pos hany, Name.ofOctets, mapM_label_of_long hlong]
    rfl
  · have hshort : ∀ s ∈ given, s.length ≤ 63 := fun s hs =>
      Nat.le_of_not_lt fun hlt => hlong ⟨s, hs, hlt⟩
    obtain ⟨labels, rfl⟩ := exists_labels hshort
    rw [Name.ofOctets, Name.mapM_label_octets, ok_bind]
    -- What decides next is the last label, so the list is taken apart at its end.
    cases labels using List.reverseRecOn with
    | nil => rfl
    | append_singleton front l =>
      rw [List.getLast?_concat, List.dropLast_concat]
      dsimp only
      by_cases hnull : l.isNull = true
      · have hlast : l = Label.null := Label.octets_inj (List.isEmpty_iff.1 hnull)
        rw [if_pos hnull, hlast, ofLabels_concat_null]
      · obtain ⟨o, octets, hl⟩ := List.exists_cons_of_ne_nil (mt List.isEmpty_iff.2 hnull)
        have hany := any_long_octets (front ++ [l])
        rw [if_neg hnull, ofLabels, hany, List.map_append, List.map_singleton,
          List.getLast?_concat, hl]
        rfl

/-- Strings that are the labels of a name are the strings of one. -/
theorem IsName.exists_name {strings : List Octets} (h : IsName strings) :
    ∃ n : Name, n.strings = strings := by
  obtain ⟨front, rfl⟩ := List.getLast?_eq_some_iff.1 h.last
  have hne := h.ne_null
  rw [List.dropLast_concat] at hne
  obtain ⟨labels, rfl⟩ := exists_labels fun s hs => h.length_le s (List.mem_append_left _ hs)
  have hwire := wireLength_labels labels
  have hle := h.wireLength_le
  rw [List.map_append, List.map_singleton, Label.octets_null] at hwire
  rw [hwire] at hle
  refine ⟨⟨labels, fun l hl => ?_, hle⟩, strings_eq_append _⟩
  exact List.isEmpty_eq_false_iff.2 (hne l.octets (List.mem_map_of_mem hl))

theorem eq_of_ofLabels {given strings : List Octets} (h : ofLabels given = .ok strings) :
    strings = given := by
  unfold ofLabels bounded at h
  repeat' split at h
  all_goals cases h
  rfl

/-- Labels are taken just if they are the labels of a name, and then as they were given. -/
theorem ofLabels_eq_ok_iff {given strings : List Octets} :
    ofLabels given = .ok strings ↔ IsName given ∧ strings = given := by
  constructor
  · intro h
    have hgiven := eq_of_ofLabels h
    rw [ofLabels_eq] at h
    obtain ⟨n, -, hn⟩ := map_eq_ok h
    rw [← hgiven, ← hn]
    exact ⟨isName_strings n, rfl⟩
  · rintro ⟨h, rfl⟩
    obtain ⟨n, rfl⟩ := h.exists_name
    rw [ofLabels_eq, Name.strings, Name.ofOctets_allLabels]
    rfl

/-- All that can be wrong with strings that fit into labels and end well is that they are too long
together. -/
theorem Terminated.bounded_eq {strings : List Octets} (h : Terminated strings) :
    bounded strings = (Name.ofOctets strings).map Name.strings := by
  have hshort : ¬ (strings.any fun s => 63 < s.length) = true := by
    simp only [List.any_eq_true, decide_eq_true_eq, not_exists, not_and, Nat.not_lt]
    exact h.length_le
  have hnull : ¬ strings.dropLast.any List.isEmpty = true := by
    simp only [List.any_eq_true, List.isEmpty_iff, not_exists, not_and]
    exact h.ne_null
  rw [← ofLabels_eq, ofLabels, if_neg hshort, h.last]
  exact (if_neg hnull).symm

/-! ## 3. Labels on the wire -/

/-- For each of the first offsets of a message, the strings of the name that starts there. -/
abbrev Targets := List (Option (List Octets))

/-- Gathers strings behind those that there are, and sums up what they take on the wire.  The
strings at the target of a pointer are taken over as they are. -/
def gather (targets : Targets) (strings : List Octets) (length : Nat) :
    Octets → Except NameError (List Octets × Octets)
  | [] => .error .unexpectedEnd
  | first :: rest =>
    if first < 0x40 then
      let string := rest.take first.toNat
      let total := length + (1 + string.length)
      if string.length < first.toNat then .error .unexpectedEnd
      else if 255 < total then .error .nameTooLong
      else if 63 < string.length then .error .labelTooLong
      else if string.isEmpty then .ok (strings ++ [string], rest)
      else gather targets (strings ++ [string]) total (rest.drop string.length)
    else if first < 0xc0 then .error .unsupportedLabelType
    else
      match rest with
      | [] => .error .unexpectedEnd
      | low :: after =>
        match targets[(first.toNat - 0xc0) * 256 + low.toNat]?.join with
        | none => .error .invalidPointer
        | some target =>
          if 255 < length + wireLength target then .error .nameTooLong
          else .ok (strings ++ target, after)
termination_by octets => octets.length
decreasing_by
  simp only [List.length_drop, List.length_cons]
  omega

def decode (targets : Targets) (octets : Octets) : Except NameError (List Octets × Octets) :=
  gather targets [] 0 octets

/-- The strings at the first `count` offsets of a message, found with those at the offsets before. -/
def targetsUpTo (message : Octets) : Nat → Targets
  | 0 => []
  | count + 1 =>
    let earlier := targetsUpTo message count
    earlier ++ [(decode earlier (message.drop count)).toOption.map Prod.fst]

def targetsOf (message : Octets) : Targets := targetsUpTo message (min 64 message.length)

/-- The strings that have to take up all octets; no pointer leads anywhere. -/
def ofWire (octets : Octets) : Except NameError (List Octets) := do
  let (strings, after) ← decode [] octets
  if after.isEmpty then return strings else throw .extraData

section

variable {table : PointerTable} {front : List Octets} {length : Nat}

/-- The strings of the names in a table. -/
def targetsIn (table : PointerTable) : Targets := table.targets.map (Option.map Name.strings)

/-- The strings at an offset are those of the name that the table has there. -/
theorem join_targetsIn (table : PointerTable) (offset : Nat) :
    (targetsIn table)[offset]?.join = (table.get? offset).map Name.strings := by
  rw [targetsIn, PointerTable.get?, List.getElem?_map]
  cases table.targets[offset]? with
  | none => rfl
  | some target => rfl

/-- A round of gathering takes a label whole. -/
theorem gather_label (targets : Targets) (label : Label) {first : UInt8} {after : Octets}
    (hlabel : first < 0x40) (heq : Name.labelAfter first hlabel after = label)
    (hlong : ¬ label.length < first.toNat) :
    gather targets front length (first :: after) =
      if 255 < length + (1 + label.length) then .error .nameTooLong
      else if label.isNull then .ok (front ++ [label.octets], after)
      else
        gather targets (front ++ [label.octets]) (length + (1 + label.length))
          (after.drop label.length) := by
  subst heq
  have hle : ¬ 63 < (Name.labelAfter first hlabel after).octets.length :=
    Nat.not_lt.2 (Name.labelAfter first hlabel after).length_le
  have hshort : ¬ (after.take first.toNat).length < first.toNat := hlong
  rw [gather.eq_def]
  dsimp only
  rw [if_pos hlabel, if_neg hshort]
  split
  next htotal => exact (if_pos htotal).symm
  next htotal => exact (if_neg hle).trans (if_neg htotal).symm

theorem gather_cut (targets : Targets) {first : UInt8} {after : Octets} (hlabel : first < 0x40)
    (hcut : (Name.labelAfter first hlabel after).length < first.toNat) :
    gather targets front length (first :: after) = .error .unexpectedEnd := by
  have hshort : (after.take first.toNat).length < first.toNat := hcut
  rw [gather.eq_def]
  dsimp only
  rw [if_pos hlabel, if_pos hshort]

/-- A pointer ends the gathering with the strings of its target. -/
theorem gather_pointer (table : PointerTable) {first low : UInt8} {after : Octets}
    (hlabel : ¬ first < 0x40) (hpointer : ¬ first < 0xc0) :
    gather (targetsIn table) front length (first :: low :: after) =
      match table.get? ((first.toNat - 0xc0) * 256 + low.toNat) with
      | none => .error .invalidPointer
      | some target =>
        if 255 < length + target.wireLength then .error .nameTooLong
        else .ok (front ++ target.strings, after) := by
  rw [gather.eq_def]
  dsimp only
  rw [if_neg hlabel, if_neg hpointer, join_targetsIn]
  cases table.get? ((first.toNat - 0xc0) * 256 + low.toNat) with
  | none => rfl
  | some target =>
    dsimp only [Option.map_some]
    rw [wireLength_strings]

/-- Gathering comes to a scan of the octets, in the room that the strings so far leave. -/
theorem gather_eq (hlength : length ≤ 255) (octets : Octets) :
    gather (targetsIn table) front length octets =
      (Name.scan table (255 - length) octets).map fun (labels, after) =>
        (front ++ (labels ++ [Label.null]).map Label.octets, after) := by
  generalize hroom : 255 - length = room
  -- A round for each label of the scan, which ends where the scan does.
  fun_induction Name.scan table room octets generalizing front length
  case case1 =>
    rw [gather.eq_def]
    rfl
  case case2 room first after hlabel label hcut =>
    rw [gather_cut _ hlabel hcut]
    rfl
  case case3 room first after hlabel label hlong hlarge =>
    rw [gather_label _ label hlabel rfl hlong, if_pos (by omega)]
    rfl
  case case4 room first after hlabel label hlong hlarge hnull =>
    have hempty : label.octets = [] := List.isEmpty_iff.1 hnull
    rw [gather_label _ label hlabel rfl hlong, if_neg (by omega), if_pos hnull, hempty]
    rfl
  -- The label is followed by others, which the induction is about.
  case case5 room first after hlabel label hlong hlarge hnull labels rest hscan ih =>
    rw [gather_label _ label hlabel rfl hlong, if_neg (by omega), if_neg hnull, ih (by omega) (by omega),
      hscan]
    simp [Except.map, label]
  case case6 room first after hlabel label hlong hlarge hnull e hscan ih =>
    rw [gather_label _ label hlabel rfl hlong, if_neg (by omega), if_neg hnull, ih (by omega) (by omega),
      hscan]
    rfl
  case case7 room first after hlabel hreserved =>
    rw [gather.eq_def]
    dsimp only
    rw [if_neg hlabel, if_pos hreserved]
    rfl
  case case8 room first hlabel hpointer =>
    rw [gather.eq_def]
    dsimp only
    rw [if_neg hlabel, if_neg hpointer]
    rfl
  -- A pointer: to nothing, to too much, or to a name that still fits.
  case case9 room first hlabel hpointer low after hnone =>
    rw [gather_pointer table hlabel hpointer, hnone]
    rfl
  case case10 room first hlabel hpointer low after target htarget hlarge =>
    rw [gather_pointer table hlabel hpointer, htarget]
    dsimp only
    rw [if_pos (by omega)]
    rfl
  case case11 room first hlabel hpointer low after target htarget hlarge =>
    rw [gather_pointer table hlabel hpointer, htarget]
    dsimp only
    rw [if_neg (by omega)]
    rfl

end

theorem decode_eq (table : PointerTable) (octets : Octets) :
    decode (targetsIn table) octets =
      (Name.reader table octets).map fun (n, after) => (n.strings, after) := by
  -- At the front there are no strings yet, and all the room of a name.
  have hgather : decode (targetsIn table) octets =
      (Name.scan table 255 octets).map fun (labels, after) =>
        ([] ++ (labels ++ [Label.null]).map Label.octets, after) :=
    gather_eq (Nat.zero_le 255) octets
  rw [hgather]
  cases hscan : Name.scan table 255 octets with
  | error e =>
    rw [Name.reader_eq_error hscan]
    rfl
  | ok result =>
    obtain ⟨labels, after⟩ := result
    obtain ⟨ne_null, wireLength_le⟩ := Name.scan_labels hscan
    have hread : Name.reader table octets = .ok (⟨labels, ne_null, wireLength_le⟩, after) :=
      Name.reader_eq_ok_iff.2 hscan
    rw [hread]
    rfl

/-- Offset by offset, the strings that are found are those of the names in the table. -/
theorem targetsUpTo_eq (message : Octets) (count : Nat) :
    targetsUpTo message count = targetsIn (PointerTable.upTo message count) := by
  induction count with
  | zero => rfl
  | succ count ih =>
    rw [targetsUpTo, ih, PointerTable.upTo, decode_eq]
    show _ = List.map _ (_ ++ [_])
    rw [List.map_append, List.map_singleton, targetsIn]
    cases Name.reader (PointerTable.upTo message count) (message.drop count) <;> rfl

/-- The strings at the offsets of a message are those of the names in its table. -/
theorem targetsOf_eq (message : Octets) : targetsOf message = targetsIn (.ofMessage message) :=
  targetsUpTo_eq message _

theorem ofWire_eq (octets : Octets) : ofWire octets = (Name.ofWire octets).map Name.strings := by
  have hdecode := decode_eq .empty octets
  rw [ofWire, Name.ofWire]
  show (decode (targetsIn .empty) octets >>= _) = _
  rw [hdecode]
  cases Name.reader .empty octets with
  | error e => rfl
  | ok result =>
    show (if result.2.isEmpty then _ else _) = Except.map _ (if result.2.isEmpty then _ else _)
    split <;> rfl

/-! ## 4. Labels in text -/

/-- Takes the strings of the labels that a text starts with.  That none of them is empty or too long
was seen to as they were gathered, so only their length together is checked. -/
def read (strictness : Name.Strictness) (t : Text) : Except NameError (List Octets × Text) := do
  let quoted := t.head? == some Text.quote
  let (marks, ending) := Name.marks quoted (if quoted then t.tail else t)
  let gathered ← Name.gather marks
  let rest ← ending
  let strings ← bounded (← gathered.finish strictness)
  return (strings, rest)

def ofText (t : Text) : Except NameError (List Octets) := do
  let (strings, rest) ← read .trailingDot t
  if rest.isEmpty then return strings else throw .extraData

end LabelStrings

namespace Name.Gathered

/-- A step adds an octet to a label that has room for it, or ends a label that may end. -/
theorem add_cases {g g' : Gathered} {mark : Mark} (h : g.add mark = .ok g') :
    (∃ o, mark = .octet o ∧ g.current.length < 63 ∧
      g' = { g with current := g.current ++ [o] }) ∨
    (mark = .dot ∧ g.isRoot = false ∧ (g.current = [] → g.ended = []) ∧
      g' = ⟨g.current :: g.ended, []⟩) := by
  unfold add at h
  cases mark with
  | octet o =>
    dsimp only at h
    split at h
    next => cases h
    next hroom =>
      cases h
      exact .inl ⟨o, rfl, Nat.lt_of_not_le hroom, rfl⟩
  | dot =>
    dsimp only at h
    split at h
    next => cases h
    next hempty =>
      split at h
      next => cases h
      next =>
        cases h
        simp only [Bool.or_eq_true, Bool.and_eq_true, Bool.not_eq_true', not_or, not_and,
          Bool.not_eq_true, Bool.not_eq_false, List.isEmpty_iff] at hempty
        exact .inr ⟨rfl, hempty.1, hempty.2, rfl⟩

/-- A text ends with a label that has no dot, with the dot of the root, or with that of a label. -/
theorem finish_cases {g : Gathered} {strictness : Strictness} {strings : List Octets}
    (h : g.finish strictness = .ok strings) :
    (strictness = .relaxed ∧ g.isRoot = false ∧ g.current ≠ [] ∧
      strings = g.ended.reverse ++ [g.current] ++ [[]]) ∨
    (g.isRoot = true ∧ g.current = [] ∧ strings = [[]]) ∨
    (g.isRoot = false ∧ g.current = [] ∧ g.ended ≠ [] ∧ strings = g.ended.reverse ++ [[]]) := by
  unfold finish at h
  split at h
  -- Octets without a dot after them end a text only if it may be relaxed.
  next hcurrent =>
    rw [Bool.not_eq_true', List.isEmpty_eq_false_iff] at hcurrent
    cases strictness with
    | trailingDot => cases h
    | relaxed =>
      rw [if_neg (by decide)] at h
      split at h
      next => cases h
      next hroot =>
        cases h
        exact .inl ⟨rfl, Bool.eq_false_iff.2 hroot, hcurrent, by rw [List.reverse_cons]⟩
  next hcurrent =>
    rw [Bool.not_eq_true', Bool.not_eq_false, List.isEmpty_iff] at hcurrent
    split at h
    next => cases h
    next hended =>
      rw [List.isEmpty_iff] at hended
      split at h
      next hroot =>
        cases h
        exact .inr (.inl ⟨hroot, hcurrent, rfl⟩)
      next hroot =>
        cases h
        exact .inr (.inr ⟨Bool.eq_false_iff.2 hroot, hcurrent, hended, rfl⟩)

/-- No string is longer than a label may be, and only the first one of all can be empty. -/
structure Bounded (g : Gathered) : Prop where
  current_le : g.current.length ≤ 63
  ended_le : ∀ s ∈ g.ended, s.length ≤ 63
  ended : g.ended = [[]] ∨ ∀ s ∈ g.ended, s ≠ []

theorem bounded_empty : Bounded {} := ⟨by simp, by simp, by simp⟩

theorem Bounded.add {g g' : Gathered} {mark : Mark} (h : g.Bounded) (hadd : g.add mark = .ok g') :
    g'.Bounded := by
  rcases add_cases hadd with ⟨o, rfl, hroom, rfl⟩ | ⟨rfl, hroot, hfirst, rfl⟩
  · refine ⟨?_, h.ended_le, h.ended⟩
    simp only [List.length_append, List.length_singleton]
    omega
  · refine ⟨Nat.zero_le 63, List.forall_mem_cons.2 ⟨h.current_le, h.ended_le⟩, ?_⟩
    by_cases hcurrent : g.current = []
    · rw [hcurrent, hfirst hcurrent]
      exact .inl rfl
    · -- A label in front of the dot, so the text did not start with a dot.
      have hended : g.ended ≠ [[]] := by
        intro hended
        rw [isRoot, hended] at hroot
        cases hroot
      exact .inr (List.forall_mem_cons.2 ⟨hcurrent, h.ended.resolve_left hended⟩)

theorem Bounded.foldlM {g g' : Gathered} {marks : List Mark} (h : g.Bounded)
    (hgather : marks.foldlM Gathered.add g = .ok g') : g'.Bounded := by
  induction marks generalizing g with
  | nil =>
    cases hgather
    exact h
  | cons mark marks ih =>
    obtain ⟨next, hadd, hgather⟩ := bind_eq_ok hgather
    exact ih (h.add hadd) hgather

theorem isRoot_eq_false {g : Gathered} (h : ∀ s ∈ g.ended, s ≠ []) : g.isRoot = false := by
  rw [isRoot, Bool.eq_false_iff]
  intro hroot
  rw [Option.any_eq_true] at hroot
  obtain ⟨s, hs, hempty⟩ := hroot
  exact h s (List.mem_of_head? hs) (List.isEmpty_iff.1 hempty)

/-- The root is the only text that starts with a dot. -/
theorem Bounded.ended_eq {g : Gathered} (h : g.Bounded) (hroot : g.isRoot = true) :
    g.ended = [[]] := by
  apply h.ended.resolve_right
  intro hne
  rw [isRoot_eq_false hne] at hroot
  cases hroot

/-- If the text is not the root, none of its labels is empty. -/
theorem Bounded.ne_nil {g : Gathered} (h : g.Bounded) (hroot : g.isRoot = false) :
    ∀ s ∈ g.ended, s ≠ [] := by
  apply h.ended.resolve_left
  intro hended
  rw [isRoot, hended] at hroot
  cases hroot

/-- The labels of a text come with the null label after them, if they are not that label alone. -/
theorem Bounded.terminated {g : Gathered} {strictness : Strictness} {strings : List Octets}
    (h : g.Bounded) (hfinish : g.finish strictness = .ok strings) :
    LabelStrings.Terminated strings := by
  -- The three ways to end differ in the labels in front of the null label.
  have hclosed : ∀ front : List Octets, (∀ s ∈ front, s.length ≤ 63) → (∀ s ∈ front, s ≠ []) →
      LabelStrings.Terminated (front.reverse ++ [[]]) := by
    intro front hle hne
    refine ⟨List.getLast?_concat, ?_, ?_⟩
    · rw [List.dropLast_concat]
      exact fun s hs => hne s (List.mem_reverse.1 hs)
    · intro s hs
      rcases List.mem_append.1 hs with hs | hs
      · exact hle s (List.mem_reverse.1 hs)
      · rw [List.mem_singleton.1 hs]
        exact Nat.zero_le 63
  rcases finish_cases hfinish with ⟨-, hroot, hcurrent, rfl⟩ | ⟨-, -, rfl⟩ | ⟨hroot, -, -, rfl⟩
  · rw [← List.reverse_cons]
    exact hclosed (g.current :: g.ended)
      (List.forall_mem_cons.2 ⟨h.current_le, h.ended_le⟩)
      (List.forall_mem_cons.2 ⟨hcurrent, h.ne_nil hroot⟩)
  · exact hclosed [] (by simp) (by simp)
  · exact hclosed g.ended h.ended_le (h.ne_nil hroot)

end Name.Gathered

namespace LabelStrings

/-- A text is read as the same name with its bounds, or fails in the same way. -/
theorem read_eq (strictness : Name.Strictness) (t : Text) :
    read strictness t =
      (Name.read strictness t).map fun (n, rest) => (n.strings, rest) := by
  unfold read Name.read
  dsimp only
  generalize Name.marks (t.head? == some Text.quote)
    (if t.head? == some Text.quote then t.tail else t) = result
  obtain ⟨marks, ending⟩ := result
  dsimp only
  cases hgather : Name.gather marks with
  | error e => rfl
  | ok g =>
    rw [ok_bind, ok_bind]
    cases ending with
    | error e => rfl
    | ok rest =>
      rw [ok_bind, ok_bind]
      cases hfinish : g.finish strictness with
      | error e => rfl
      | ok strings =>
        -- What was gathered is bounded, so only the length of all labels together is left to check.
        have hbounded : g.Bounded := Name.Gathered.bounded_empty.foldlM hgather
        rw [ok_bind, ok_bind, (hbounded.terminated hfinish).bounded_eq]
        cases Name.ofOctets strings <;> rfl

theorem ofText_eq (t : Text) : ofText t = (Name.ofText t).map Name.strings := by
  rw [ofText, Name.ofText, read_eq]
  cases Name.read .trailingDot t with
  | error e => rfl
  | ok result =>
    show (if result.2.isEmpty then _ else _) = Except.map _ (if result.2.isEmpty then _ else _)
    split <;> rfl

end LabelStrings

/-! ## 5. All ways to make a name -/

namespace Name

/-- A way to make a name, with all that goes into it. -/
inductive Construction where
  | root
  | ofLabels (given : List Octets)
  /-- At a place in a buffer, with the pointer table of a message or without one. -/
  | decode (message : Option Octets) (buffer : Octets) (position : Nat)
  | ofWire (octets : Octets)
  | read (strictness : Strictness) (t : Text)
  | ofText (t : Text)

namespace Construction

/-- The name made, with its bounds. -/
def name : Construction → Except NameError Name
  | root => .ok Name.root
  | ofLabels given => ofOctets given
  | decode message buffer position =>
    ((Cursor.ofBuffer buffer position).read
      (reader ((message.map PointerTable.ofMessage).getD .empty))).1
  | ofWire octets => Name.ofWire octets
  | read strictness t => (Name.read strictness t).map Prod.fst
  | ofText t => Name.ofText t

/-- The strings taken for the labels of a name. -/
def strings : Construction → Except NameError (List Octets)
  | root => .ok [[]]
  | ofLabels given => LabelStrings.ofLabels given
  | decode message buffer position =>
    ((Cursor.ofBuffer buffer position).read
      (LabelStrings.decode ((message.map LabelStrings.targetsOf).getD []))).1
  | ofWire octets => LabelStrings.ofWire octets
  | read strictness t => (LabelStrings.read strictness t).map Prod.fst
  | ofText t => LabelStrings.ofText t

/-- Whichever way a name is made, its strings are those of the name with its bounds. -/
theorem strings_eq (c : Construction) : c.strings = c.name.map Name.strings := by
  cases c with
  | root => rfl
  | ofLabels given => exact LabelStrings.ofLabels_eq given
  | decode message buffer position =>
    -- With a message or without one, the table and the strings belong to each other.
    have htargets : (message.map LabelStrings.targetsOf).getD [] =
        LabelStrings.targetsIn ((message.map PointerTable.ofMessage).getD .empty) := by
      cases message with
      | none => rfl
      | some message => exact LabelStrings.targetsOf_eq message
    rw [strings, name, htargets]
    unfold Cursor.read
    rw [LabelStrings.decode_eq]
    cases reader _ _ <;> rfl
  | ofWire octets => exact LabelStrings.ofWire_eq octets
  | read strictness t =>
    rw [strings, name, LabelStrings.read_eq]
    cases Name.read strictness t <;> rfl
  | ofText t => exact LabelStrings.ofText_eq t

/-- Every way to make a name gives strings that are the labels of a name, and the name that comes
with its bounds has these labels.  Given labels make a name just if they are the labels of one. -/
theorem strings_eq_and_isName :
    (∀ c : Construction, c.strings = c.name.map Name.strings ∧
      ∀ strings, c.strings = .ok strings → LabelStrings.IsName strings) ∧
    ∀ given strings, (ofLabels given).strings = .ok strings ↔
      LabelStrings.IsName given ∧ strings = given := by
  refine ⟨fun c => ⟨c.strings_eq, fun strings h => ?_⟩, fun given strings => ?_⟩
  · rw [strings_eq] at h
    obtain ⟨n, -, rfl⟩ := map_eq_ok h
    exact LabelStrings.isName_strings n
  · exact LabelStrings.ofLabels_eq_ok_iff

/-- The octets of `a.`, and after them those of `b.` with a pointer to it. -/
def pointerBehind : Octets := [1, 0x61, 0, 1, 0x62, 0xc0, 0]

/-- The strings that a pointer brings in are those of a name too. -/
theorem isName_pointerBehind :
    (decode (some pointerBehind) pointerBehind 3).strings = .ok [[0x62], [0x61], []] ∧
      LabelStrings.IsName [[0x62], [0x61], []] := by
  have h : (decode (some pointerBehind) pointerBehind 3).strings = .ok [[0x62], [0x61], []] := by
    decide +kernel
  exact ⟨h, (strings_eq_and_isName.1 _).2 _ h⟩

end Construction

end Name

end Nameserver

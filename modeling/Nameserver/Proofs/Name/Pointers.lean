import Nameserver.Proofs.Name.Wire
/-!
# Names behind pointers

A pointer table is filled from the front of a message, and each name in it is read with the part
that is there already.  This comes to following each pointer anew: `chase?` reads the labels that
stand at an offset, and goes on at the target of the pointer after them if that lies before the
offset.
-/

namespace Nameserver

namespace Name

/-! ## 1. Labels in place -/

/-- What ends the labels that stand in place: the null label, or a pointer to an offset. -/
inductive Ending where
  | null
  | pointer (offset : Nat)
  deriving DecidableEq, Repr

/-- The labels that an ending stands for, if pointers lead to these targets. -/
def Ending.labels? (target? : Nat → Option Name) : Ending → Option (List Label)
  | null => some []
  | pointer offset => (target? offset).map labels

theorem Ending.labels?_pointer {target? : Nat → Option Name} {offset : Nat} {target : Name}
    (found : target? offset = some target) :
    (pointer offset).labels? target? = some target.labels := by
  rw [labels?, found]
  rfl

/-- The labels that some octets start with up to their ending, the ending, and the octets after it.
No pointer is followed, and the labels may be of any length together. -/
def literal? : Octets → Option (List Label × Ending × Octets)
  | [] => none
  | first :: rest =>
    if h : first < 0x40 then
      if first = 0 then some ([], .null, rest)
      else if rest.length < first.toNat then none
      else
        match literal? (rest.drop first.toNat) with
        | some (labels, ending, after) => some (labelAfter first h rest :: labels, ending, after)
        | none => none
    else if first < 0xc0 then none
    else
      match rest with
      | [] => none
      | low :: after => some ([], .pointer ((first.toNat - 0xc0) * 256 + low.toNat), after)
termination_by octets => octets.length
decreasing_by
  simp only [List.length_drop, List.length_cons]
  omega

variable {table : PointerTable} {labels front tail : List Label} {octets rest : Octets}
  {ending : Ending}

theorem literal?_null (rest : Octets) : literal? (0 :: rest) = some ([], .null, rest) := by
  rw [literal?.eq_def]
  dsimp only
  rw [dif_pos (by decide), if_pos rfl]

theorem literal?_label {l : Label} (hne : l.isNull = false)
    (h : literal? octets = some (front, ending, rest)) :
    literal? (l.wire ++ octets) = some (l :: front, ending, rest) := by
  have hfirst := l.toNat_lengthOctet
  have hlabel := labelAfter_octets l octets
  have hdrop : (l.octets ++ octets).drop l.length = octets := List.drop_left
  -- The length octet is not taken for the null label, and all octets of the label stand there.
  have hnonzero : UInt8.ofNat l.length ≠ 0 := by
    intro hzero
    have hlength : l.octets.length = 0 := by
      rw [hzero] at hfirst
      exact hfirst.symm
    rw [Label.isNull, List.length_eq_zero_iff.1 hlength] at hne
    cases hne
  have hlong : ¬ (l.octets ++ octets).length < l.length := by
    rw [List.length_append, Label.length]
    omega
  show literal? (UInt8.ofNat l.length :: (l.octets ++ octets)) = _
  rw [literal?.eq_def]
  dsimp only
  rw [dif_pos l.lengthOctet_lt, if_neg hnonzero]
  simp only [hfirst, hlabel, hdrop, h]
  rw [if_neg hlong]

/-- A pointer ends the labels in place, wherever it leads. -/
theorem literal?_pointer {offset : Nat} (small : offset < 16384) (rest : Octets) :
    literal? (pointerTo offset ++ rest) = some ([], .pointer offset, rest) := by
  obtain ⟨hlabel, hreserved, hoffset⟩ := pointerTo_octets small
  show literal? (_ :: _ :: rest) = _
  rw [literal?.eq_def]
  dsimp only
  rw [dif_neg hlabel, if_neg hreserved, hoffset]

/-- The octets that spell a name are labels in place and an ending for the labels after them. -/
theorem literal?_of_spells (h : Spells table labels octets) (rest : Octets) :
    ∃ front ending tail, literal? (octets ++ rest) = some (front, ending, rest) ∧
      ending.labels? table.get? = some tail ∧ labels = front ++ tail := by
  induction h with
  | null => exact ⟨[], .null, [], literal?_null rest, rfl, rfl⟩
  | @label l _ octets ne_null _ ih =>
    obtain ⟨front, ending, tail, hliteral, htail, hlabels⟩ := ih
    rw [List.append_assoc]
    exact ⟨l :: front, ending, tail, literal?_label ne_null hliteral, htail,
      congrArg (l :: ·) hlabels⟩
  | @pointer offset target small found =>
    exact ⟨[], .pointer offset, target.labels, literal?_pointer small rest,
      Ending.labels?_pointer found, rfl⟩

/-- Labels in place with the labels of their ending are spelled by the octets that they take. -/
theorem spells_of_literal? (h : literal? octets = some (front, ending, rest))
    (htail : ending.labels? table.get? = some tail) :
    ∃ taken, octets = taken ++ rest ∧ Spells table (front ++ tail) taken := by
  fun_induction literal? octets generalizing front
  -- Three branches give labels: the null label, a label, a pointer.
  case case2 =>
    cases h
    cases htail
    exact ⟨[0], rfl, .null⟩
  -- The label is all there and not null, so it stands after its length.
  case case4 first octets hfirst hnonzero hlong labels ending' after hliteral ih =>
    cases h
    obtain ⟨taken, hdrop, hspells⟩ := ih hliteral
    have hlength : (labelAfter first hfirst octets).length = first.toNat := by
      show (octets.take first.toNat).length = _
      rw [List.length_take]
      omega
    have hwire := wire_labelAfter hfirst (by omega : ¬ (labelAfter first hfirst octets).length < _)
    have hne : (labelAfter first hfirst octets).isNull = false := by
      have hpositive : first.toNat ≠ 0 := fun hzero => hnonzero (UInt8.toNat_inj.1 hzero)
      have hnonempty : (labelAfter first hfirst octets).octets ≠ [] := by
        intro hempty
        exact hpositive (hlength.symm.trans (congrArg List.length hempty))
      exact Bool.eq_false_iff.2 fun hnull => hnonempty (List.isEmpty_iff.1 hnull)
    refine ⟨_, ?_, .label hne hspells⟩
    rw [hwire, hlength, List.append_assoc, ← hdrop]
  -- The two octets are those of a pointer to the offset that they give.
  case case8 first hlabel hreserved low after =>
    cases h
    obtain ⟨target, hfound, rfl⟩ := Option.map_eq_some_iff.1 htail
    have hfirst := first.toNat_lt
    have hlow := low.toNat_lt
    refine ⟨[first, low], rfl, ?_⟩
    rw [← pointerTo_offset hreserved]
    exact .pointer (by omega) hfound
  all_goals cases h

/-- A name is read from the labels in place and those that their ending stands for. -/
theorem reader_eq_ok_iff_literal? {n : Name} :
    reader table octets = .ok (n, rest) ↔
      ∃ front ending tail, literal? octets = some (front, ending, rest) ∧
        ending.labels? table.get? = some tail ∧ n.labels = front ++ tail := by
  constructor
  · intro h
    obtain ⟨taken, rfl, hspells⟩ := spells_of_reader h
    exact literal?_of_spells hspells rest
  · rintro ⟨front, ending, tail, hliteral, htail, hlabels⟩
    obtain ⟨taken, rfl, hspells⟩ := spells_of_literal? hliteral htail
    rw [← hlabels] at hspells
    exact takes_reader hspells rest

/-! ## 2. Following pointers backwards -/

/-- A name is made of its own labels and of no others. -/
theorem ofLabels?_eq_ok_iff {labels : List Label} {n : Name} :
    ofLabels? labels = .ok n ↔ n.labels = labels := by
  rw [ofLabels?]
  constructor
  · intro h
    split at h
    next =>
      split at h
      next =>
        cases h
        rfl
      next => cases h
    next => cases h
  · rintro rfl
    rw [dif_pos n.ne_null, dif_pos n.wireLength_le]

/-- The name that starts at an offset of a message: the labels in place there and, if a pointer ends
them, the labels of the name at its target, which must lie before the offset and among the first 64
octets. -/
def chase? (message : Octets) (start : Nat) : Option Name := do
  let (front, ending, _) ← literal? (message.drop start)
  let tail ← ending.labels? fun offset =>
    if offset < start ∧ offset < 64 then chase? message offset else none
  (ofLabels? (front ++ tail)).toOption
termination_by start
decreasing_by omega

/-- Where the pointers of a name that starts at an offset may lead. -/
def chaseBelow? (message : Octets) (start offset : Nat) : Option Name :=
  if offset < start ∧ offset < 64 then chase? message offset else none

theorem toOption_ofLabels?_eq_some_iff {labels : List Label} {n : Name} :
    (ofLabels? labels).toOption = some n ↔ n.labels = labels := by
  rw [toOption_eq_some_iff, ofLabels?_eq_ok_iff]

/-- What chasing gives is put together from the labels in place and those of their ending. -/
theorem chase?_eq_some_iff {message : Octets} {start : Nat} {n : Name} :
    chase? message start = some n ↔
      ∃ rest front ending tail, literal? (message.drop start) = some (front, ending, rest) ∧
        ending.labels? (chaseBelow? message start) = some tail ∧ n.labels = front ++ tail := by
  have hbelow : (fun offset =>
      if offset < start ∧ offset < 64 then chase? message offset else none) =
        chaseBelow? message start := rfl
  rw [chase?, hbelow]
  simp only [Option.bind_eq_bind, Option.bind_eq_some_iff, Prod.exists,
    toOption_ofLabels?_eq_some_iff]
  constructor
  · rintro ⟨front, ending, rest, hliteral, tail, htail, hlabels⟩
    exact ⟨rest, front, ending, tail, hliteral, htail, hlabels⟩
  · rintro ⟨rest, front, ending, tail, hliteral, htail, hlabels⟩
    exact ⟨front, ending, rest, hliteral, tail, htail, hlabels⟩

/-- A name that is chased starts within the message. -/
theorem lt_length_of_chase? {message : Octets} {start : Nat} {n : Name}
    (h : chase? message start = some n) : start < message.length := by
  obtain ⟨rest, front, ending, tail, hliteral, -⟩ := chase?_eq_some_iff.1 h
  apply Nat.lt_of_not_le
  intro hle
  rw [List.drop_eq_nil_of_le hle, literal?] at hliteral
  cases hliteral

end Name

namespace PointerTable

/-! ## 3. The table of a message -/

/-- A pushed target is at the next offset, and the others stay. -/
theorem get?_push (table : PointerTable) (target : Option Name) (offset : Nat) :
    (table.push target).get? offset =
      if offset = table.targets.length then target else table.get? offset := by
  rw [push, get?, get?]
  by_cases hlast : offset = table.targets.length
  · rw [if_pos hlast, hlast, List.getElem?_concat_length]
    rfl
  · rw [if_neg hlast]
    -- Offsets that are not in the table have no name before or after the push.
    by_cases hbefore : offset < table.targets.length
    · rw [List.getElem?_append_left hbefore]
    · have hafter : table.targets.length + 1 ≤ offset := by omega
      rw [List.getElem?_eq_none (by rw [List.length_append]; exact hafter),
        List.getElem?_eq_none (by omega)]

theorem length_targets_upTo (message : Octets) (count : Nat) :
    (upTo message count).targets.length = count := by
  induction count with
  | zero => rfl
  | succ count ih =>
    rw [upTo]
    show (_ ++ [_]).length = _
    rw [List.length_append, ih]
    rfl

/-- The names of the first offsets of a message are those that chasing pointers gives. -/
theorem get?_upTo (message : Octets) {count : Nat} (h : count ≤ 64) :
    (upTo message count).get? = Name.chaseBelow? message count := by
  induction count with
  | zero =>
    funext offset
    rw [Name.chaseBelow?, if_neg (by omega)]
    rfl
  | succ count ih =>
    have hbefore := ih (by omega)
    funext offset
    rw [upTo, get?_push, length_targets_upTo, Name.chaseBelow?]
    by_cases hlast : offset = count
    · -- The last name is read with the table of the offsets before it.
      subst hlast
      rw [if_pos rfl, if_pos ⟨Nat.lt_succ_self _, h⟩]
      apply Option.ext
      intro n
      rw [toOption_map_fst_eq_some_iff, Name.chase?_eq_some_iff, ← hbefore]
      exact exists_congr fun rest => Name.reader_eq_ok_iff_literal?
    -- Any other offset below has its name from before.
    · have hsame : offset < count + 1 ∧ offset < 64 ↔ offset < count ∧ offset < 64 := by omega
      rw [if_neg hlast, hbefore, Name.chaseBelow?]
      simp only [hsame]

/-- An offset has a name in the table of a message just if chasing pointers from there gives it. -/
theorem get?_ofMessage_eq_some_iff {message : Octets} {offset : Nat} {n : Name} :
    (ofMessage message).get? offset = some n ↔
      offset < min 64 message.length ∧ Name.chase? message offset = some n := by
  rw [ofMessage, maximum, get?_upTo message (Nat.min_le_left _ _), Name.chaseBelow?]
  by_cases h : offset < min 64 message.length
  · rw [if_pos ⟨h, by omega⟩]
    exact ⟨fun hn => ⟨h, hn⟩, And.right⟩
  · rw [if_neg fun hlt => h hlt.1]
    exact ⟨fun hn => (nomatch hn), fun hn => absurd hn.1 h⟩

end PointerTable

namespace Name

/-! ## 4. Reading with a table -/

/-- The labels that some octets start with: those up to the null label, or those up to a pointer to
an offset that has a name in the table, and the labels of that name. -/
inductive Assembles (table : PointerTable) (octets : Octets) : List Label → Prop
  | null {labels : List Label} {rest : Octets}
      (literal : literal? octets = some (labels, .null, rest)) : Assembles table octets labels
  | pointer {front : List Label} {offset : Nat} {rest : Octets} {target : Name}
      (literal : literal? octets = some (front, .pointer offset, rest))
      (found : table.get? offset = some target) : Assembles table octets (front ++ target.labels)

/-- Both ways in which labels are assembled, in one formula. -/
theorem assembles_iff {table : PointerTable} {octets : Octets} {labels : List Label} :
    Assembles table octets labels ↔
      ∃ rest front ending tail, literal? octets = some (front, ending, rest) ∧
        ending.labels? table.get? = some tail ∧ labels = front ++ tail := by
  constructor
  · intro h
    cases h with
    | @null _ rest literal =>
      exact ⟨rest, labels, .null, [], literal, rfl, (List.append_nil labels).symm⟩
    | @pointer front offset rest target literal found =>
      exact ⟨rest, front, .pointer offset, target.labels, literal, Ending.labels?_pointer found,
        rfl⟩
  · rintro ⟨rest, front, ending, tail, hliteral, htail, rfl⟩
    cases ending with
    | null =>
      cases htail
      rw [List.append_nil]
      exact .null hliteral
    | pointer offset =>
      obtain ⟨target, hfound, rfl⟩ := Option.map_eq_some_iff.1 htail
      exact .pointer hliteral hfound

/-- With any table, the labels of a name are read just if they are assembled and not too long. -/
theorem exists_reader_iff {table : PointerTable} {octets : Octets} {labels : List Label} :
    (∃ n, (∃ rest, reader table octets = .ok (n, rest)) ∧ n.labels = labels) ↔
      Assembles table octets labels ∧ wireLengthOf labels ≤ 255 := by
  rw [assembles_iff]
  constructor
  · rintro ⟨n, ⟨rest, hread⟩, rfl⟩
    exact ⟨⟨rest, reader_eq_ok_iff_literal?.1 hread⟩, n.wireLength_le⟩
  · rintro ⟨⟨rest, front, ending, tail, hliteral, htail, rfl⟩, hlength⟩
    obtain ⟨taken, rfl, hspells⟩ := spells_of_literal? hliteral htail
    -- The labels are not taken from a name here, so their length is asked for.
    have hscan := scan_of_spells hspells hlength rest
    exact ⟨⟨_, (scan_labels hscan).1, hlength⟩, ⟨rest, reader_eq_ok_iff.2 hscan⟩, rfl⟩

/-- A name that a pointer ends is read with the table of a message just if its target lies among the
first 64 octets and chasing pointers from there gives a name; where the pointer stands makes no
difference. -/
theorem read_pointer_iff {message octets rest : Octets} {front : List Label} {offset : Nat}
    (h : literal? octets = some (front, .pointer offset, rest)) (n : Name) :
    (∃ after, reader (.ofMessage message) octets = .ok (n, after)) ↔
      offset < 64 ∧ ∃ target, chase? message offset = some target ∧
        n.labels = front ++ target.labels := by
  simp only [reader_eq_ok_iff_literal?, h]
  constructor
  · rintro ⟨after, front', ending, tail, hliteral, htail, hlabels⟩
    cases hliteral
    obtain ⟨target, hfound, rfl⟩ := Option.map_eq_some_iff.1 htail
    obtain ⟨hlt, hchase⟩ := PointerTable.get?_ofMessage_eq_some_iff.1 hfound
    exact ⟨by omega, target, hchase, hlabels⟩
  · rintro ⟨hlt, target, hchase, hlabels⟩
    -- What chasing reaches lies within the message, so the table was filled that far.
    have hlength := lt_length_of_chase? hchase
    have hfound : (PointerTable.ofMessage message).get? offset = some target :=
      PointerTable.get?_ofMessage_eq_some_iff.2 ⟨by omega, hchase⟩
    exact ⟨rest, front, .pointer offset, target.labels, rfl, Ending.labels?_pointer hfound, hlabels⟩

/-- Five octets in which the name `a.` stands behind a pointer that leads forward to it. -/
def pointerBefore : Octets := [0xc0, 2, 1, 0x61, 0]

/-- A pointer in front of its target is followed as any other. -/
theorem read_forward_pointer_example :
    literal? pointerBefore = some ([], .pointer 2, [1, 0x61, 0]) ∧
      ∃ after, reader (.ofMessage pointerBefore) pointerBefore =
        .ok (⟨[⟨[0x61], by decide⟩], by decide, by decide⟩, after) := by
  have hliteral : literal? pointerBefore = some ([], .pointer 2, [1, 0x61, 0]) := by decide +kernel
  have hchase : chase? pointerBefore 2 = some ⟨[⟨[0x61], by decide⟩], by decide, by decide⟩ := by
    decide +kernel
  exact ⟨hliteral, (read_pointer_iff hliteral _).2 ⟨by decide, _, hchase, rfl⟩⟩

end Name

/-- The table of a message has just the names that chasing pointers backwards gives, and with it the
labels of a name are read at any position just if they are assembled there and not too long. -/
theorem PointerTable.get?_iff_chase?_and_read_iff_assembles (message : Octets) :
    (∀ offset n, (ofMessage message).get? offset = some n ↔
      offset < min 64 message.length ∧ Name.chase? message offset = some n) ∧
    ∀ position labels,
      (∃ n, ((Cursor.ofBuffer message position).read (Name.reader (ofMessage message))).1 = .ok n ∧
        n.labels = labels) ↔
      Name.Assembles (ofMessage message) (message.drop position) labels ∧
        Name.wireLengthOf labels ≤ 255 := by
  refine ⟨fun offset n => get?_ofMessage_eq_some_iff, fun position labels => ?_⟩
  simp only [Cursor.exists_read_eq_ok_iff, Cursor.ofBuffer]
  exact Name.exists_reader_iff

example : (Name.chase? [1, 0x61, 0, 1, 0x62, 0xc0, 0] 3).map Name.wire =
    some [1, 0x62, 1, 0x61, 0] := by
  decide +kernel

example : Name.chase? [0xc0, 2, 0] 0 = none := by decide +kernel

end Nameserver

import Nameserver.Name.Wire
import Nameserver.Proofs.Octets.Reader
import Nameserver.Proofs.Octets.Writer
/-!
# Spellings of a name

A name may be spelled in many ways: any suffix of its labels that a table has may stand as a
pointer.  Reading takes exactly the spellings of names that are not too long, and a name is written
in the one spelling without pointers.
-/

namespace Nameserver

theorem Label.octets_inj {a b : Label} (h : a.octets = b.octets) : a = b := by
  cases a
  cases b
  simp_all

/-- A label has at most 63 octets, so the octet of its length is the length and no pointer. -/
theorem Label.toNat_lengthOctet (l : Label) : (UInt8.ofNat l.length).toNat = l.length := by
  have hle := l.length_le
  exact UInt8.toNat_ofNat_of_lt' (by show l.octets.length < 256; omega)

/-- The octet of a label's length is below those of pointers. -/
theorem Label.lengthOctet_lt (l : Label) : UInt8.ofNat l.length < 0x40 := by
  have hle := l.length_le
  rw [UInt8.lt_iff_toNat_lt, l.toNat_lengthOctet]
  show l.octets.length < 64
  omega

/-- A label is put behind its length, in one piece. -/
theorem Label.write_eq_put (l : Label) (w : Writer) : l.write w = w.put l.wire :=
  Writer.putString8_eq_put (by have := l.length_le; omega) w

namespace Name

/-- A label stands after its length octet. -/
theorem labelAfter_octets (l : Label) (rest : Octets) :
    labelAfter (UInt8.ofNat l.length) l.lengthOctet_lt (l.octets ++ rest) = l := by
  apply Label.octets_inj
  show (l.octets ++ rest).take (UInt8.ofNat l.length).toNat = _
  rw [l.toNat_lengthOctet]
  exact List.take_left

/-- The two octets of a pointer to an offset. -/
def pointerTo (offset : Nat) : Octets := [UInt8.ofNat (0xc0 + offset / 256), UInt8.ofNat offset]

/-- The first octet of a pointer starts no label, and the fourteen bits are the offset again. -/
theorem pointerTo_octets {offset : Nat} (small : offset < 16384) :
    ¬ UInt8.ofNat (0xc0 + offset / 256) < 0x40 ∧ ¬ UInt8.ofNat (0xc0 + offset / 256) < 0xc0 ∧
      ((UInt8.ofNat (0xc0 + offset / 256)).toNat - 0xc0) * 256 + (UInt8.ofNat offset).toNat =
        offset := by
  have hhigh : (UInt8.ofNat (0xc0 + offset / 256)).toNat = 0xc0 + offset / 256 :=
    UInt8.toNat_ofNat_of_lt' (by show _ < 256; omega)
  have hlow : (UInt8.ofNat offset).toNat = offset % 256 := UInt8.toNat_ofNat'
  rw [UInt8.lt_iff_toNat_lt, UInt8.lt_iff_toNat_lt, hhigh, hlow]
  refine ⟨?_, ?_, by omega⟩
  · show ¬ _ < 64
    omega
  · show ¬ _ < 192
    omega

/-- The octets spell labels and the null label after them: some labels after their lengths, and then
either the null label or a pointer to the remaining labels. -/
inductive Spells (table : PointerTable) : List Label → Octets → Prop
  | null : Spells table [] [0]
  | label {l : Label} {labels : List Label} {octets : Octets} (ne_null : l.isNull = false)
      (rest : Spells table labels octets) : Spells table (l :: labels) (l.wire ++ octets)
  | pointer {offset : Nat} {target : Name} (small : offset < 16384)
      (found : table.get? offset = some target) :
      Spells table target.labels (pointerTo offset)

/-! ## 1. Reading a spelling -/

theorem scan_null (table : PointerTable) {room : Nat} (h : 1 ≤ room) (rest : Octets) :
    scan table room (0 :: rest) = .ok ([], rest) := by
  have hlength : (labelAfter 0 (by decide) rest).length = 0 := rfl
  rw [scan.eq_def]
  dsimp only
  rw [dif_pos (by decide), hlength, if_neg (by decide), if_neg (by omega), if_pos (by rfl)]

/-- A label that fits the room is scanned and put before those after it. -/
theorem scan_label {table : PointerTable} {room : Nat} {l : Label} {labels : List Label}
    {octets rest : Octets} (hne : l.isNull = false) (h : l.length + 1 ≤ room)
    (hscan : scan table (room - (l.length + 1)) octets = .ok (labels, rest)) :
    scan table room (l.wire ++ octets) = .ok (l :: labels, rest) := by
  have hfirst := l.toNat_lengthOctet
  have hlabel := labelAfter_octets l octets
  have hdrop : (l.octets ++ octets).drop l.length = octets := List.drop_left
  show scan table room (UInt8.ofNat l.length :: (l.octets ++ octets)) = _
  rw [scan.eq_def]
  dsimp only
  rw [dif_pos l.lengthOctet_lt]
  simp only [hlabel, hfirst, hdrop, hscan]
  rw [if_neg (Nat.lt_irrefl _), if_neg (by omega), hne, if_neg (by decide)]

/-- A pointer ends a scan with the labels of its target, if they fit the room. -/
theorem scan_pointer {table : PointerTable} {room offset : Nat} {target : Name}
    (small : offset < 16384) (found : table.get? offset = some target)
    (h : target.wireLength ≤ room) (rest : Octets) :
    scan table room (pointerTo offset ++ rest) = .ok (target.labels, rest) := by
  obtain ⟨hlabel, hreserved, hoffset⟩ := pointerTo_octets small
  show scan table room (_ :: _ :: rest) = _
  rw [scan.eq_def]
  dsimp only
  rw [dif_neg hlabel, if_neg hreserved]
  simp only [hoffset, found]
  rw [if_neg (by omega)]

/-- Every spelling of labels that fit the room is read as those labels. -/
theorem scan_of_spells {table : PointerTable} {labels : List Label} {octets : Octets}
    (h : Spells table labels octets) {room : Nat} (hroom : wireLengthOf labels ≤ room)
    (rest : Octets) : scan table room (octets ++ rest) = .ok (labels, rest) := by
  induction h generalizing room with
  | null => exact scan_null table hroom rest
  | label ne_null _ ih =>
    -- The room goes down by what the label takes, as the length of the rest does.
    rw [wireLengthOf] at hroom
    rw [List.append_assoc]
    exact scan_label ne_null (by omega) (ih (by omega))
  | pointer small found => exact scan_pointer small found hroom rest

/-- A label that was not cut short stands in the octets after its length. -/
theorem wire_labelAfter {first : UInt8} (h : first < 0x40) {rest : Octets}
    (hlong : ¬ (labelAfter first h rest).length < first.toNat) :
    first :: rest =
      (labelAfter first h rest).wire ++ rest.drop (labelAfter first h rest).length := by
  have hlength : (labelAfter first h rest).length = first.toNat := by
    have hle : (labelAfter first h rest).length ≤ first.toNat := List.length_take_le _ _
    omega
  have hfirst : UInt8.ofNat (labelAfter first h rest).length = first := by
    rw [hlength]
    exact UInt8.ofNat_toNat
  show _ = UInt8.ofNat _ :: (rest.take first.toNat ++ _)
  rw [hfirst, hlength, List.take_append_drop]

/-- The two octets of a pointer are those of its offset. -/
theorem pointerTo_offset {first low : UInt8} (h : ¬ first < 0xc0) :
    pointerTo ((first.toNat - 0xc0) * 256 + low.toNat) = [first, low] := by
  have hge : 0xc0 ≤ first.toNat := by
    rw [UInt8.lt_iff_toNat_lt] at h
    exact Nat.le_of_not_lt h
  have hlow := low.toNat_lt
  have hdiv : 0xc0 + ((first.toNat - 0xc0) * 256 + low.toNat) / 256 = first.toNat := by omega
  have hmod : UInt8.ofNat ((first.toNat - 0xc0) * 256 + low.toNat) = low := by
    apply UInt8.toNat_inj.1
    rw [UInt8.toNat_ofNat']
    omega
  rw [pointerTo, hdiv, hmod, UInt8.ofNat_toNat]

/-- Whatever is read is spelled by the octets that were taken. -/
theorem spells_of_scan {table : PointerTable} {room : Nat} {octets rest : Octets}
    {labels : List Label} (h : scan table room octets = .ok (labels, rest)) :
    ∃ taken, octets = taken ++ rest ∧ Spells table labels taken := by
  -- Three branches of the scan give labels: the null label, a label, a pointer.
  fun_induction scan table room octets generalizing labels rest
  -- A null label: its length is zero, and so is its octet.
  case case4 first octets hfirst label hlong hroom hnull =>
    cases h
    have hoctets : label.octets = [] := List.isEmpty_iff.1 hnull
    have hwire := wire_labelAfter hfirst hlong
    refine ⟨[0], ?_, .null⟩
    rw [hwire, Label.wire, show (labelAfter first hfirst octets).octets = [] from hoctets,
      show (labelAfter first hfirst octets).length = 0 from congrArg List.length hoctets]
    rfl
  case case5 first octets hfirst label hlong hroom hnull labels' after hscan ih =>
    cases h
    obtain ⟨taken, hdrop, hspells⟩ := ih hscan
    refine ⟨label.wire ++ taken, ?_, .label (by simpa using hnull) hspells⟩
    rw [wire_labelAfter hfirst hlong, List.append_assoc, ← hdrop]
  -- A pointer: two octets, from which the offset was taken.
  case case11 first hlabel hreserved low after target hfound hroom =>
    cases h
    have hfirst := first.toNat_lt
    have hlow := low.toNat_lt
    refine ⟨[first, low], rfl, ?_⟩
    rw [← pointerTo_offset hreserved]
    exact .pointer (by omega) hfound
  all_goals cases h

/-- Reading a name is a scan with room for all that a name may take. -/
theorem reader_eq_ok_iff {table : PointerTable} {octets rest : Octets} {n : Name} :
    reader table octets = .ok (n, rest) ↔ scan table 255 octets = .ok (n.labels, rest) := by
  rw [reader]
  split
  -- The bounds that make the name come from the scan itself.
  next labels after hscan =>
    constructor
    · intro h
      cases h
      exact hscan
    · intro h
      obtain ⟨rfl, rfl⟩ := Prod.mk.inj (Except.ok.inj (hscan.symm.trans h))
      rfl
  next e hscan =>
    constructor
    · intro h
      cases h
    · intro h
      cases hscan.symm.trans h

theorem reader_eq_error {table : PointerTable} {octets : Octets} {e : NameError}
    (h : scan table 255 octets = .error e) : reader table octets = .error e := by
  rw [reader]
  split
  next hok => cases hok.symm.trans h
  next herror => exact congrArg Except.error (Except.error.inj (herror.symm.trans h))

/-- Reading takes every spelling of a name, whatever comes after it. -/
theorem takes_reader {table : PointerTable} {n : Name} {octets : Octets}
    (h : Spells table n.labels octets) : (reader table).Takes octets n :=
  fun rest => reader_eq_ok_iff.2 (scan_of_spells h n.wireLength_le rest)

/-- A name that is read is spelled by the octets that were taken. -/
theorem spells_of_reader {table : PointerTable} {n : Name} {octets rest : Octets}
    (h : reader table octets = .ok (n, rest)) :
    ∃ taken, octets = taken ++ rest ∧ Spells table n.labels taken :=
  spells_of_scan (reader_eq_ok_iff.1 h)

/-! ## 2. The spelling without pointers -/

theorem wire_eq (n : Name) : n.wire = n.labels.flatMap Label.wire ++ [0] := by
  rw [wire, allLabels, List.flatMap_append]
  rfl

/-- The wire form of a name spells it with any table. -/
theorem spells_wire (table : PointerTable) (n : Name) : Spells table n.labels n.wire := by
  obtain ⟨labels, ne_null, _⟩ := n
  rw [wire_eq]
  induction labels with
  | nil => exact .null
  | cons l labels ih =>
    rw [List.flatMap_cons, List.append_assoc]
    rw [List.forall_mem_cons] at ne_null
    exact .label ne_null.1 (ih ne_null.2 (by rw [wireLengthOf] at *; omega))

/-- Octets in which no pointer can start spell a name in its wire form. -/
theorem eq_wire_of_spells {table : PointerTable} {n : Name} {octets : Octets}
    (h : Spells table n.labels octets) (hsmall : ∀ o ∈ octets, o < 0xc0) : octets = n.wire := by
  rw [wire_eq]
  generalize n.labels = labels at h
  induction h with
  | null => rfl
  | label _ _ ih =>
    rw [List.flatMap_cons, List.append_assoc]
    exact congrArg _ (ih fun o ho => hsmall o (List.mem_append_right _ ho))
  | pointer small _ =>
    -- The first octet of a pointer is not small.
    exact absurd (hsmall _ List.mem_cons_self) (pointerTo_octets small).2.1

/-- Without a table there are no pointers, so only the wire form spells a name. -/
theorem eq_wire_of_spells_empty {n : Name} {octets : Octets} (h : Spells .empty n.labels octets) :
    octets = n.wire := by
  rw [wire_eq]
  generalize n.labels = labels at h
  induction h with
  | null => rfl
  | label _ _ ih =>
    rw [List.flatMap_cons, List.append_assoc]
    exact congrArg _ ih
  | pointer _ found => cases found

/-- Without a table the wire form is the one spelling of a name. -/
theorem reader_empty_eq_ok_iff {n : Name} {octets rest : Octets} :
    reader .empty octets = .ok (n, rest) ↔ octets = n.wire ++ rest := by
  constructor
  · intro h
    obtain ⟨taken, rfl, hspells⟩ := spells_of_reader h
    rw [eq_wire_of_spells_empty hspells]
  · rintro rfl
    exact takes_reader (n.spells_wire .empty) rest

/-! ## 3. Writing -/

/-- A name is put in its wire form, in one piece. -/
theorem write_eq_put (n : Name) (w : Writer) : n.write w = w.put n.wire := by
  rw [write]
  -- The room is asked for once, before the first label.
  by_cases h : w.hasRoom n.wireLength = true
  · rw [if_pos h]
    exact Writer.foldlM_put (fun l _ w => l.write_eq_put w) w
  · rw [if_neg h]
    rw [Writer.hasRoom_iff] at h
    rw [Writer.put_of_lt (by rw [length_wire]; omega)]

end Name

end Nameserver

import Nameserver.Proofs.InPlace.Octets
/-!
# Names in place

A name is taken piece by piece, each of them a label or a pointer, and put label by label.  A name
that breaks off leaves the pieces before it taken, so the read goes back to where it began.
-/

namespace Nameserver.Name

open InPlace (Implements TakesWhole PutWhole Leads Tracks implements_octet implements_octets
  implements_pure implements_fail tracks_putString8)

/-! ## 1. Taking -/

/-- What stands at a place in a name: a label, or a pointer to a name. -/
inductive Piece where
  | label (l : Label)
  | target (n : Name)

def takePiece (table : PointerTable) : InPlace NameError Piece := do
  let first ← InPlace.octet.failingWith .unexpectedEnd
  if first < 0x40 then
    let octets ← (InPlace.octets first.toNat).failingWith .unexpectedEnd
    match Label.ofOctets? octets with
    | none => InPlace.fail .labelTooLong
    | some l => return .label l
  else if first < 0xc0 then InPlace.fail .unsupportedLabelType
  else
    let low ← InPlace.octet.failingWith .unexpectedEnd
    match table.get? ((first.toNat - 0xc0) * 256 + low.toNat) with
    | none => InPlace.fail .invalidPointer
    | some target => return .target target

/-- Takes labels that with the null label may take up to `room` octets on the wire. -/
def takeLabels (table : PointerTable) (room : Nat) : InPlace NameError (List Label) := do
  match ← takePiece table with
  | .label l =>
    if h : room < l.length + 1 then InPlace.fail .nameTooLong
    else if l.isNull then return []
    else
      let labels ← takeLabels table (room - (l.length + 1))
      return l :: labels
  | .target n => if room < n.wireLength then InPlace.fail .nameTooLong else return n.labels
termination_by room

/-- Takes a name, all of it or nothing. -/
def take (table : PointerTable) : InPlace NameError Name := InPlace.attempt do
  let labels ← takeLabels table 255
  match ofLabels? labels with
  | .error e => InPlace.fail e
  | .ok n => return n

/-! ## 2. Scans piece by piece -/

/-- The reader of a piece. -/
def pieceReader (table : PointerTable) : Reader NameError Piece := do
  let first ← Reader.octet.failingWith .unexpectedEnd
  if first < 0x40 then
    let octets ← (Reader.octets first.toNat).failingWith .unexpectedEnd
    match Label.ofOctets? octets with
    | none => throw .labelTooLong
    | some l => return .label l
  else if first < 0xc0 then throw .unsupportedLabelType
  else
    let low ← Reader.octet.failingWith .unexpectedEnd
    match table.get? ((first.toNat - 0xc0) * 256 + low.toNat) with
    | none => throw .invalidPointer
    | some target => return .target target

theorem implements_pieceReader (table : PointerTable) :
    Implements (takePiece table) (pieceReader table) := by
  refine (implements_octet.failingWith _).bind fun first => ?_
  split
  next =>
    -- The three kinds of first octet: a label, a reserved one, a pointer.
    refine ((implements_octets _).failingWith _).bind fun octets => ?_
    split
    next => exact implements_fail _
    next l => exact implements_pure _
  next =>
    split
    next => exact implements_fail _
    next =>
      refine (implements_octet.failingWith _).bind fun low => ?_
      split
      next => exact implements_fail _
      next target => exact implements_pure _

section

variable {first : UInt8} {after : Octets}

theorem octet_cons (first : UInt8) (after : Octets) :
    (Reader.octet.failingWith .unexpectedEnd : Reader NameError UInt8) (first :: after) =
      .ok (first, after) := rfl

theorem pieceReader_cut (table : PointerTable) (hlabel : first < 0x40)
    (hcut : after.length < first.toNat) :
    pieceReader table (first :: after) = .error .unexpectedEnd := by
  have hoctets : ((Reader.octets first.toNat).failingWith .unexpectedEnd : Reader NameError Octets)
      after = .error .unexpectedEnd := by
    rw [Reader.failingWith, Reader.octets_of_lt hcut]
  rw [pieceReader, Reader.bind_of_ok (octet_cons first after), if_pos hlabel,
    Reader.bind_of_error hoctets]

/-- A label that is all there is the next piece. -/
theorem pieceReader_label (table : PointerTable) (hlabel : first < 0x40)
    (hlong : first.toNat ≤ after.length) :
    pieceReader table (first :: after) =
      .ok (.label (labelAfter first hlabel after), after.drop first.toNat) := by
  have hoctets : ((Reader.octets first.toNat).failingWith .unexpectedEnd : Reader NameError Octets)
      after = .ok (after.take first.toNat, after.drop first.toNat) :=
    Reader.failingWith_eq_ok_iff.2 (Reader.octets_of_le hlong)
  -- A first octet below 64 gives no more octets than a label may have.
  have hsome : Label.ofOctets? (after.take first.toNat) = some (labelAfter first hlabel after) :=
    dif_pos (labelAfter first hlabel after).length_le
  rw [pieceReader, Reader.bind_of_ok (octet_cons first after), if_pos hlabel,
    Reader.bind_of_ok hoctets, hsome]
  rfl

theorem pieceReader_reserved (table : PointerTable) (after : Octets) (hlabel : ¬ first < 0x40)
    (hreserved : first < 0xc0) :
    pieceReader table (first :: after) = .error .unsupportedLabelType := by
  rw [pieceReader, Reader.bind_of_ok (octet_cons first after), if_neg hlabel, if_pos hreserved]
  rfl

theorem pieceReader_pointer_cut (table : PointerTable) (hlabel : ¬ first < 0x40)
    (hpointer : ¬ first < 0xc0) : pieceReader table [first] = .error .unexpectedEnd := by
  rw [pieceReader, Reader.bind_of_ok (octet_cons first []), if_neg hlabel, if_neg hpointer]
  rfl

/-- A pointer is a piece if its target is in the table. -/
theorem pieceReader_pointer (table : PointerTable) (low : UInt8) (after : Octets)
    (hlabel : ¬ first < 0x40) (hpointer : ¬ first < 0xc0) :
    pieceReader table (first :: low :: after) =
      match table.get? ((first.toNat - 0xc0) * 256 + low.toNat) with
      | none => .error .invalidPointer
      | some target => .ok (.target target, after) := by
  rw [pieceReader, Reader.bind_of_ok (octet_cons first (low :: after)), if_neg hlabel,
    if_neg hpointer, Reader.bind_of_ok (octet_cons low after)]
  cases table.get? ((first.toNat - 0xc0) * 256 + low.toNat) <;> rfl

end

/-- The reader of labels that take up to `room` octets, piece by piece. -/
def labelsReader (table : PointerTable) (room : Nat) : Reader NameError (List Label) := do
  match ← pieceReader table with
  | .label l =>
    if room < l.length + 1 then throw .nameTooLong
    else if l.isNull then return []
    else
      let labels ← scan table (room - (l.length + 1))
      return l :: labels
  | .target n => if room < n.wireLength then throw .nameTooLong else return n.labels

section

variable {room : Nat} {first : UInt8} {after : Octets}

theorem scan_label_eq (table : PointerTable) (hlabel : first < 0x40) :
    scan table room (first :: after) = labelsReader table room (first :: after) := by
  have hlength : (labelAfter first hlabel after).length = min first.toNat after.length :=
    List.length_take
  rw [scan.eq_def, labelsReader]
  by_cases hlong : first.toNat ≤ after.length
  · rw [Reader.bind_of_ok (pieceReader_label table hlabel hlong)]
    rw [Nat.min_eq_left hlong] at hlength
    simp only [dif_pos hlabel, hlength, if_neg (Nat.lt_irrefl _)]
    split
    next => rfl
    next =>
      split
      next hnull =>
        -- The null label has no octets, so nothing was left out.
        have hzero : first.toNat = 0 := hlength.symm.trans (List.length_eq_zero_iff.2
          (List.isEmpty_iff.1 hnull))
        rw [hzero]
        rfl
      next =>
        show _ = (scan table (room - (first.toNat + 1)) (after.drop first.toNat) >>= _)
        cases scan table (room - (first.toNat + 1)) (after.drop first.toNat) <;> rfl
  · have hcut := Nat.lt_of_not_le hlong
    rw [Reader.bind_of_error (pieceReader_cut table hlabel hcut)]
    simp only [dif_pos hlabel, hlength]
    rw [if_pos (by omega)]

theorem scan_pointer_eq (table : PointerTable) (hlabel : ¬ first < 0x40)
    (hpointer : ¬ first < 0xc0) :
    scan table room (first :: after) = labelsReader table room (first :: after) := by
  rw [scan.eq_def, labelsReader]
  simp only [dif_neg hlabel, if_neg hpointer]
  cases after with
  | nil => rw [Reader.bind_of_error (pieceReader_pointer_cut table hlabel hpointer)]
  | cons low after =>
    have hpiece := pieceReader_pointer table low after hlabel hpointer
    dsimp only
    cases hget : table.get? ((first.toNat - 0xc0) * 256 + low.toNat) with
    | none =>
      rw [hget] at hpiece
      rw [Reader.bind_of_error hpiece]
    | some target =>
      rw [hget] at hpiece
      rw [Reader.bind_of_ok hpiece]
      dsimp only
      split <;> rfl

/-- A scan reads labels piece by piece. -/
theorem scan_eq_labelsReader (table : PointerTable) (room : Nat) (octets : Octets) :
    scan table room octets = labelsReader table room octets := by
  cases octets with
  | nil =>
    rw [scan.eq_def, labelsReader]
    rfl
  | cons first after =>
    by_cases hlabel : first < 0x40
    · exact scan_label_eq table hlabel
    · by_cases hreserved : first < 0xc0
      · rw [scan.eq_def, labelsReader,
          Reader.bind_of_error (pieceReader_reserved table after hlabel hreserved)]
        simp only [dif_neg hlabel, if_pos hreserved]
      · exact scan_pointer_eq table hlabel hreserved

end

/-- Labels are taken in place as they are scanned, however much room there is. -/
theorem implements_scan (table : PointerTable) (room : Nat) :
    Implements (takeLabels table room) (scan table room) := by
  induction room using Nat.strongRecOn with
  | ind room ih =>
    -- Piece by piece, both sides do one step and then use the room that is left.
    rw [takeLabels, show scan table room = labelsReader table room from
      funext (scan_eq_labelsReader table room)]
    refine (implements_pieceReader table).bind fun piece => ?_
    cases piece with
    | target n =>
      dsimp only
      split
      next => exact implements_fail _
      next => exact implements_pure _
    | label l =>
      dsimp only
      split
      next => exact implements_fail _
      next hroom =>
        split
        next => exact implements_pure _
        -- A label takes the octet of its length at least, so there is less room behind it.
        next => exact (ih _ (by omega)).bind fun labels => implements_pure _

theorem take_implements (table : PointerTable) :
    Implements (take table) (reader table) := by
  refine Implements.attempt fun p => ?_
  have hlabels := implements_scan table 255 p
  generalize hy : takeLabels table 255 p = y at hlabels
  cases hscan : scan table 255 p.rest with
  | error e =>
    rw [hscan] at hlabels
    cases hlabels with
    | error p' =>
      rw [reader_eq_error hscan, InPlace.bind_of_error hy]
      exact .error p'
  | ok result =>
    obtain ⟨labels, rest⟩ := result
    obtain ⟨ne_null, wireLength_le⟩ := scan_labels hscan
    -- The labels of a scan make a name.
    have hname : ofLabels? labels = .ok ⟨labels, ne_null, wireLength_le⟩ :=
      ofLabels?_eq_ok_iff.2 rfl
    rw [hscan] at hlabels
    cases hlabels with
    | ok buffer forward =>
      have hread : reader table p.rest = .ok (⟨labels, ne_null, wireLength_le⟩, _) :=
        reader_eq_ok_iff.2 hscan
      rw [hread, InPlace.bind_of_ok hy, hname]
      exact .ok buffer forward

theorem takesWhole_take (table : PointerTable) : TakesWhole (take table) (reader table) :=
  (take_implements table).takesWhole (takesAtLeast_reader table)

/-! ## 3. Putting -/

/-- Puts a name, all of it or nothing. -/
def put (n : Name) : InPlace Truncated Unit :=
  InPlace.reserving True n.wireLength (n.allLabels.forM fun l => InPlace.putString8 l.octets)

theorem tracks_put (n : Name) : Tracks n.put n.write := by
  have hlabels : Tracks (n.allLabels.forM fun l => InPlace.putString8 l.octets) fun w =>
      n.allLabels.foldlM (fun w l => l.write w) w := Tracks.forM fun l => tracks_putString8 l.octets
  exact hlabels.reserving True n.wireLength

/-- A name is put in its wire form, or nothing of it is. -/
theorem putWhole_put (n : Name) (p : Place) : PutWhole True p n.wire (n.put p) :=
  n.tracks_put.putWhole (fun _ w => n.write_eq_put w) n.length_wire p

end Nameserver.Name

import Nameserver.Proofs.Checked.Octets
import Nameserver.Proofs.Name.Pointers
/-!
# Names read with every access checked

A name is gathered label by label, in a loop that sums up the length of the labels and stops where
it gets too large.  The sums stay small, every round of the loop takes octets, and the labels that
are gathered make a name, so the loop has no faults and gathers what a scan of the octets gives.
-/

namespace Nameserver

namespace Checked

/-- The length of labels on the wire, summed up label by label. -/
def wireLength (limit : Nat) : Nat → List Label → Except Fault Nat
  | sum, [] => .ok sum
  | sum, l :: labels => do wireLength limit (← add limit sum (← add limit l.length 1)) labels

/-- Takes labels for a name, of which the last one has to be null. -/
def name (labels : List Label) : Except Fault Name :=
  match labels.getLast?, Name.ofLabels? labels.dropLast with
  | some last, .ok n => if last.isNull then .ok n else .error .brokenName
  | _, _ => .error .brokenName

/-- The sum over the labels of a name is its wire length, if that can be counted. -/
theorem wireLength_concat_null {limit sum : Nat} {labels : List Label}
    (h : sum + Name.wireLengthOf labels ≤ limit) :
    wireLength limit sum (labels ++ [Label.null]) = .ok (sum + Name.wireLengthOf labels) := by
  induction labels generalizing sum with
  | nil =>
    have hsum : sum + (Label.null.length + 1) ≤ limit := h
    rw [List.nil_append, wireLength, add_of_le (by omega), ok_bind, add_of_le hsum]
    rfl
  | cons l labels ih =>
    rw [Name.wireLengthOf] at h ⊢
    -- Two sums for each label, both below what the labels come to in the end.
    rw [List.cons_append, wireLength, add_of_le (by omega), ok_bind, add_of_le (by omega), ok_bind,
      ih (by omega)]
    congr 1
    omega

/-- The labels of a name, which take at most 255 octets, are summed up without a fault. -/
theorem wireLength_allLabels {limit : Nat} (hlimit : 510 ≤ limit) (n : Name) :
    wireLength limit 0 n.allLabels = .ok n.wireLength := by
  have hle : n.wireLength ≤ 255 := n.wireLength_le
  have hsum : wireLength limit 0 n.allLabels = .ok (0 + n.wireLength) :=
    wireLength_concat_null (by show 0 + n.wireLength ≤ limit; omega)
  rwa [Nat.zero_add] at hsum

theorem name_allLabels (n : Name) : name n.allLabels = .ok n := by
  have hlabels : Name.ofLabels? n.labels = .ok n := Name.ofLabels?_eq_ok_iff.2 rfl
  rw [name, Name.allLabels, List.getLast?_concat, List.dropLast_concat, hlabels]
  rfl

end Checked

namespace Name

open CheckedReader (Agrees agrees_advance Implements checking checking_bind fail bind_of_ok
  bind_of_error failingWith_of_ok failingWith_of_error)

/-! ## 1. The loop -/

/-- What has been gathered of a name. -/
structure Gathering where
  labels : List Label := []
  wireLength : Nat := 0

/-- A round of the loop, and whether the name ends with it. -/
def gatherStep (limit : Nat) (table : PointerTable) (g : Gathering) :
    CheckedReader NameError (Gathering × Bool) := do
  let first ← (CheckedReader.octet limit).failingWith .unexpectedEnd
  if first < 0x40 then
    let octets ← (CheckedReader.octets limit first.toNat).failingWith .unexpectedEnd
    let length ← checking (Checked.add limit 1 octets.length)
    let wireLength ← checking (Checked.add limit g.wireLength length)
    if 255 < wireLength then fail .nameTooLong
    else
      match Label.ofOctets? octets with
      | none => fail .labelTooLong
      | some l => return (⟨g.labels ++ [l], wireLength⟩, octets.isEmpty)
  else if first < 0xc0 then fail .unsupportedLabelType
  else
    let low ← (CheckedReader.octet limit).failingWith .unexpectedEnd
    match table.get? ((first.toNat - 0xc0) * 256 + low.toNat) with
    | none => fail .invalidPointer
    | some target =>
      let length ← checking (Checked.wireLength limit 0 target.allLabels)
      let wireLength ← checking (Checked.add limit g.wireLength length)
      if 255 < wireLength then fail .nameTooLong
      else return (⟨g.labels ++ target.allLabels, wireLength⟩, true)

/-- Gathers labels round by round, as long as each round gets further. -/
def gatherLoop (limit : Nat) (table : PointerTable) (g : Gathering) :
    CheckedReader NameError (List Label) := fun v =>
  match gatherStep limit table g v with
  | .error fault => .error fault
  | .ok (.error e) => .ok (.error e)
  | .ok (.ok ((g', ended), v')) =>
    if ended then .ok (.ok (g'.labels, v'))
    else if v'.rest.length < v.rest.length then gatherLoop limit table g' v'
    else .error .stuck
termination_by v => v.rest.length

def checkedReader (limit : Nat) (table : PointerTable) : CheckedReader NameError Name := do
  let labels ← gatherLoop limit table {}
  checking (Checked.name labels)

/-! ## 2. Rounds -/

section

variable {limit : Nat} {table : PointerTable} {g : Gathering} {v : View} {first : UInt8}
  {after : Octets}

/-- A label that is not cut short has the length that the octet before it says. -/
theorem length_labelAfter (hlabel : first < 0x40)
    (hlong : ¬ (labelAfter first hlabel after).length < first.toNat) :
    (labelAfter first hlabel after).length = first.toNat ∧ first.toNat ≤ after.length := by
  have hlength : (labelAfter first hlabel after).length = min first.toNat after.length :=
    List.length_take
  omega

/-- Behind the first octet the view is valid, and what is left is what follows that octet. -/
theorem valid_advance_one (hv : v.Valid limit) (h : v.rest = first :: after) :
    (v.advance 1).Valid limit ∧ (v.advance 1).rest = after := by
  refine ⟨hv.advance ?_, ?_⟩
  · rw [h]
    exact Nat.le_add_left 1 _
  · rw [View.rest_advance, h]
    rfl

theorem gatherStep_nil (hv : v.Valid limit) (h : v.rest = []) :
    gatherStep limit table g v = .ok (.error .unexpectedEnd) := by
  have hfirst := CheckedReader.octet_of_nil hv h
  rw [gatherStep, bind_of_error (failingWith_of_error hfirst _)]

/-- A round fails where a label is cut short. -/
theorem gatherStep_cut (hv : v.Valid limit) (h : v.rest = first :: after) (hlabel : first < 0x40)
    (hcut : after.length < first.toNat) :
    gatherStep limit table g v = .ok (.error .unexpectedEnd) := by
  have hfirst := CheckedReader.octet_of_cons hv h
  have hnext := valid_advance_one hv h
  have hoctets := CheckedReader.octets_of_lt (n := first.toNat) hnext.1 (by rwa [hnext.2])
  rw [gatherStep, bind_of_ok (failingWith_of_ok hfirst _), if_pos hlabel,
    bind_of_error (failingWith_of_error hoctets _)]

/-- A round takes a whole label and adds its length; it ends the name if the label is null. -/
theorem gatherStep_label (table : PointerTable) (hlimit : 510 ≤ limit)
    (hg : g.wireLength ≤ 255) (hv : v.Valid limit) (h : v.rest = first :: after)
    (hlabel : first < 0x40) (hlong : first.toNat ≤ after.length) :
    gatherStep limit table g v =
      if 255 < g.wireLength + (1 + first.toNat) then .ok (.error .nameTooLong)
      else .ok (.ok ((⟨g.labels ++ [labelAfter first hlabel after],
        g.wireLength + (1 + first.toNat)⟩, (labelAfter first hlabel after).isNull),
          (v.advance 1).advance first.toNat)) := by
  have hfirst := CheckedReader.octet_of_cons hv h
  have hnext := valid_advance_one hv h
  have hoctets := CheckedReader.octets_of_le (n := first.toNat) hnext.1 (by rwa [hnext.2])
  have hlength : (after.take first.toNat).length = first.toNat := List.length_take_of_le hlong
  -- The first octet is below 64, so the octets after it are never too many for a label.
  have hsmall : first.toNat < 64 := UInt8.lt_iff_toNat_lt.1 hlabel
  have hsome : Label.ofOctets? (after.take first.toNat) = some (labelAfter first hlabel after) :=
    dif_pos (by omega)
  rw [hnext.2] at hoctets
  rw [gatherStep, bind_of_ok (failingWith_of_ok hfirst _), if_pos hlabel,
    bind_of_ok (failingWith_of_ok hoctets _), hlength,
    checking_bind (Checked.add_of_le (by omega)), checking_bind (Checked.add_of_le (by omega)),
    hsome]
  split <;> rfl

theorem gatherStep_reserved (hv : v.Valid limit) (h : v.rest = first :: after)
    (hlabel : ¬ first < 0x40) (hreserved : first < 0xc0) :
    gatherStep limit table g v = .ok (.error .unsupportedLabelType) := by
  have hfirst := CheckedReader.octet_of_cons hv h
  rw [gatherStep, bind_of_ok (failingWith_of_ok hfirst _), if_neg hlabel, if_pos hreserved]
  rfl

theorem gatherStep_pointer_cut (hv : v.Valid limit) (h : v.rest = [first])
    (hlabel : ¬ first < 0x40) (hpointer : ¬ first < 0xc0) :
    gatherStep limit table g v = .ok (.error .unexpectedEnd) := by
  have hfirst := CheckedReader.octet_of_cons hv h
  have hnext := valid_advance_one hv h
  have hlow := CheckedReader.octet_of_nil hnext.1 hnext.2
  rw [gatherStep, bind_of_ok (failingWith_of_ok hfirst _), if_neg hlabel, if_neg hpointer,
    bind_of_error (failingWith_of_error hlow _)]

/-- A round at a pointer takes the labels of the target, and the name ends with them. -/
theorem gatherStep_pointer (table : PointerTable) (hlimit : 510 ≤ limit)
    (hg : g.wireLength ≤ 255) (hv : v.Valid limit) {low : UInt8}
    (h : v.rest = first :: low :: after) (hlabel : ¬ first < 0x40) (hpointer : ¬ first < 0xc0) :
    gatherStep limit table g v =
      match table.get? ((first.toNat - 0xc0) * 256 + low.toNat) with
      | none => .ok (.error .invalidPointer)
      | some target =>
        if 255 < g.wireLength + target.wireLength then .ok (.error .nameTooLong)
        else .ok (.ok ((⟨g.labels ++ target.allLabels, g.wireLength + target.wireLength⟩, true),
          (v.advance 1).advance 1)) := by
  have hfirst := CheckedReader.octet_of_cons hv h
  have hnext := valid_advance_one hv h
  have hlow := CheckedReader.octet_of_cons hnext.1 hnext.2
  rw [gatherStep, bind_of_ok (failingWith_of_ok hfirst _), if_neg hlabel, if_neg hpointer,
    bind_of_ok (failingWith_of_ok hlow _)]
  cases table.get? ((first.toNat - 0xc0) * 256 + low.toNat) with
  | none => rfl
  | some target =>
    -- Both lengths are at most 255, which is where 510 comes from.
    have htarget : target.wireLength ≤ 255 := target.wireLength_le
    dsimp only
    rw [checking_bind (Checked.wireLength_allLabels hlimit target),
      checking_bind (Checked.add_of_le (by omega))]
    split <;> rfl

/-! ## 3. The whole loop -/

theorem gatherLoop_of_error {e : NameError} (h : gatherStep limit table g v = .ok (.error e)) :
    gatherLoop limit table g v = .ok (.error e) := by
  rw [gatherLoop, h]

theorem gatherLoop_of_ended {g' : Gathering} {v' : View}
    (h : gatherStep limit table g v = .ok (.ok ((g', true), v'))) :
    gatherLoop limit table g v = .ok (.ok (g'.labels, v')) := by
  rw [gatherLoop, h]
  rfl

/-- A round that does not end the name and gets further is followed by the rest of the loop. -/
theorem gatherLoop_of_more {g' : Gathering} {v' : View}
    (h : gatherStep limit table g v = .ok (.ok ((g', false), v')))
    (hfurther : v'.rest.length < v.rest.length) :
    gatherLoop limit table g v = gatherLoop limit table g' v' := by
  rw [gatherLoop, h]
  dsimp only
  rw [if_neg Bool.false_ne_true, if_pos hfurther]

/-- A label that fits is gathered, and the loop goes on behind it. -/
theorem agrees_gatherLoop_label (hlimit : 510 ≤ limit) (hg : g.wireLength ≤ 255)
    (hv : v.Valid limit) (hrest : v.rest = first :: after) (hlabel : first < 0x40)
    (hlong : ¬ (labelAfter first hlabel after).length < first.toNat)
    (hroom : ¬ 255 - g.wireLength < (labelAfter first hlabel after).length + 1)
    (hnull : ¬ (labelAfter first hlabel after).isNull = true)
    {x : Except NameError (List Label × Octets)}
    (h : ∀ {g' : Gathering} {v' : View}, g'.wireLength ≤ 255 → v'.Valid limit →
      v'.rest = after.drop (labelAfter first hlabel after).length →
      255 - g'.wireLength = 255 - g.wireLength - ((labelAfter first hlabel after).length + 1) →
      Agrees v' (x.map fun p => (g'.labels ++ (p.1 ++ [Label.null]), p.2))
        (gatherLoop limit table g' v')) :
    Agrees v (x.map fun p =>
      (g.labels ++ (labelAfter first hlabel after :: p.1 ++ [Label.null]), p.2))
        (gatherLoop limit table g v) := by
  obtain ⟨hlength, hle⟩ := length_labelAfter hlabel hlong
  obtain ⟨hv₁, hrest₁⟩ := valid_advance_one hv hrest
  rw [hlength] at hroom h
  have hstep := gatherStep_label table hlimit hg hv hrest hlabel hle
  rw [if_neg (by omega), Bool.eq_false_iff.2 hnull] at hstep
  have hrest₂ : ((v.advance 1).advance first.toNat).rest = after.drop first.toNat := by
    rw [View.rest_advance, hrest₁]
  -- At least the octet of the length is taken, so the loop gets further.
  have hfurther : ((v.advance 1).advance first.toNat).rest.length < v.rest.length := by
    rw [hrest₂, hrest, List.length_drop, List.length_cons]
    omega
  have hnext := @h ⟨g.labels ++ [labelAfter first hlabel after], g.wireLength + (1 + first.toNat)⟩
    ((v.advance 1).advance first.toNat) (by show g.wireLength + (1 + first.toNat) ≤ 255; omega)
    (hv₁.advance (by rw [hrest₁]; exact hle)) hrest₂
    (by show 255 - (g.wireLength + (1 + first.toNat)) = _; omega)
  rw [gatherLoop_of_more hstep hfurther]
  -- The loop keeps its labels in front, where the scan puts a label before those that it finds
  -- later.
  simp only [List.append_assoc, List.singleton_append] at hnext
  exact Agrees.of_forward hnext (by show v.position ≤ v.position + 1 + first.toNat; omega)

/-- The loop gathers the labels of a scan behind those that it has, in the room that they leave. -/
theorem agrees_gatherLoop (hlimit : 510 ≤ limit) (hg : g.wireLength ≤ 255) (hv : v.Valid limit) :
    Agrees v ((scan table (255 - g.wireLength) v.rest).map fun p =>
      (g.labels ++ (p.1 ++ [Label.null]), p.2)) (gatherLoop limit table g v) := by
  generalize hrest : v.rest = octets
  generalize hroom : 255 - g.wireLength = room
  -- One round of the loop for each label of the scan.
  fun_induction scan table room octets generalizing g v
  case case1 =>
    rw [gatherLoop_of_error (gatherStep_nil hv hrest)]
    exact .error
  case case2 room first after hlabel label hcut =>
    have hshort : after.length < first.toNat := by
      have hlength : (after.take first.toNat).length < first.toNat := hcut
      rw [List.length_take] at hlength
      omega
    rw [gatherLoop_of_error (gatherStep_cut hv hrest hlabel hshort)]
    exact .error
  case case3 room first after hlabel label hlong hlarge =>
    obtain ⟨hlength, hle⟩ := length_labelAfter hlabel hlong
    have hlarge : room < (labelAfter first hlabel after).length + 1 := hlarge
    have hstep := gatherStep_label table hlimit hg hv hrest hlabel hle
    rw [if_pos (by omega)] at hstep
    rw [gatherLoop_of_error hstep]
    exact .error
  case case4 room first after hlabel label hlong hlarge hnull =>
    obtain ⟨hlength, hle⟩ := length_labelAfter hlabel hlong
    have hlarge : ¬ room < (labelAfter first hlabel after).length + 1 := hlarge
    have hnil : labelAfter first hlabel after = Label.null :=
      Label.octets_inj (List.isEmpty_iff.1 hnull)
    have hzero : first.toNat = 0 := by
      rw [← hlength, hnil]
      rfl
    have hstep := gatherStep_label table hlimit hg hv hrest hlabel hle
    rw [if_neg (by omega), hnil, hzero] at hstep
    rw [gatherLoop_of_ended hstep]
    have hnext : Agrees v (.ok (g.labels ++ [Label.null], v.rest.drop 1) : Except NameError _) _ :=
      agrees_advance hv (by rw [hrest]; simp) _
    rw [hrest] at hnext
    exact hnext
  case case5 room first after hlabel label hlong hlarge hnull labels rest hscan ih =>
    subst hroom
    rw [hscan] at ih
    exact agrees_gatherLoop_label hlimit hg hv hrest hlabel hlong hlarge hnull ih
  case case6 room first after hlabel label hlong hlarge hnull e hscan ih =>
    subst hroom
    rw [hscan] at ih
    exact agrees_gatherLoop_label hlimit hg hv hrest hlabel hlong hlarge hnull ih
  case case7 room first after hlabel hreserved =>
    rw [gatherLoop_of_error (gatherStep_reserved hv hrest hlabel hreserved)]
    exact .error
  case case8 room first hlabel hpointer =>
    rw [gatherLoop_of_error (gatherStep_pointer_cut hv hrest hlabel hpointer)]
    exact .error
  case case9 room first hlabel hpointer low after hnone =>
    have hstep := gatherStep_pointer table hlimit hg hv hrest hlabel hpointer
    rw [hnone] at hstep
    rw [gatherLoop_of_error hstep]
    exact .error
  case case10 room first hlabel hpointer low after target htarget hlarge =>
    have hstep := gatherStep_pointer table hlimit hg hv hrest hlabel hpointer
    rw [htarget] at hstep
    dsimp only at hstep
    rw [if_pos (by omega)] at hstep
    rw [gatherLoop_of_error hstep]
    exact .error
  case case11 room first hlabel hpointer low after target htarget hlarge =>
    have hstep := gatherStep_pointer table hlimit hg hv hrest hlabel hpointer
    rw [htarget] at hstep
    dsimp only at hstep
    rw [if_neg (by omega)] at hstep
    rw [gatherLoop_of_ended hstep]
    have hnext : Agrees v
        (.ok (g.labels ++ target.allLabels, v.rest.drop 2) : Except NameError _) _ :=
      agrees_advance hv (by rw [hrest]; simp) _
    rw [hrest] at hnext
    exact hnext

end

/-! ## 4. Names and the pointer table -/

variable {limit : Nat}

/-- A name is read without a fault: it is gathered as it is scanned, and a scan makes a name. -/
theorem implements_reader (hlimit : 510 ≤ limit) (table : PointerTable) :
    Implements limit (checkedReader limit table) (reader table) := by
  intro v hv
  have hloop : Agrees v ((scan table 255 v.rest).map fun p => (p.1 ++ [Label.null], p.2))
      (gatherLoop limit table {} v) := agrees_gatherLoop (g := {}) hlimit (Nat.zero_le 255) hv
  generalize hgathered : gatherLoop limit table {} v = gathered at hloop
  rw [checkedReader]
  cases hscan : scan table 255 v.rest with
  | error e =>
    rw [hscan] at hloop
    cases hloop
    rw [reader_eq_error hscan, bind_of_error hgathered]
    exact .error
  | ok result =>
    obtain ⟨labels, rest⟩ := result
    obtain ⟨ne_null, wireLength_le⟩ := scan_labels hscan
    have hread : reader table v.rest = .ok (⟨labels, ne_null, wireLength_le⟩, rest) :=
      reader_eq_ok_iff.2 hscan
    rw [hscan] at hloop
    cases hloop with
    | ok forward within =>
      -- The labels of a scan make a name, so they may be taken for one.
      rw [hread, bind_of_ok hgathered, checking]
      have hname := Checked.name_allLabels ⟨labels, ne_null, wireLength_le⟩
      rw [allLabels] at hname
      rw [hname]
      exact .ok forward within

end Name

namespace PointerTable

/-- The table of a message, offset by offset; each name is read with the table so far. -/
def checkedOfMessage (limit : Nat) (message : Octets) : Except Fault PointerTable :=
  (List.range (min maximum message.length)).foldlM (fun table offset => do
    let result ← Name.checkedReader limit table (View.ofBuffer message offset)
    return table.push (result.toOption.map Prod.fst)) .empty

variable {limit : Nat} {message : Octets}

theorem push_checkedReader (hlimit : 510 ≤ limit) (hcounted : message.length ≤ limit)
    {count : Nat} (h : count ≤ message.length) (table : PointerTable) :
    (do let result ← Name.checkedReader limit table (View.ofBuffer message count)
        return table.push (result.toOption.map Prod.fst) : Except Fault PointerTable) =
      .ok (table.push ((Name.reader table (message.drop count)).toOption.map Prod.fst)) := by
  have hname := Name.implements_reader hlimit table _ (View.valid_ofBuffer hcounted count)
  rw [View.rest_ofBuffer h] at hname
  generalize Name.reader table (message.drop count) = x at hname
  generalize Name.checkedReader limit table (View.ofBuffer message count) = y at hname
  cases hname <;> rfl

/-- Offset by offset, the table that is built with checks is the table. -/
theorem foldlM_checkedReader (hlimit : 510 ≤ limit) (hcounted : message.length ≤ limit)
    {count : Nat} (h : count ≤ message.length) :
    (List.range count).foldlM (fun table offset => do
      let result ← Name.checkedReader limit table (View.ofBuffer message offset)
      return table.push (result.toOption.map Prod.fst)) .empty =
        (.ok (upTo message count) : Except Fault PointerTable) := by
  induction count with
  | zero => rfl
  | succ count ih =>
    -- The last offset is read with the table of those before it.
    rw [List.range_succ, List.foldlM_append, ih (by omega), ok_bind, List.foldlM_cons,
      push_checkedReader hlimit hcounted (by omega), ok_bind]
    rfl

theorem checkedOfMessage_eq (hlimit : 510 ≤ limit) (hcounted : message.length ≤ limit) :
    checkedOfMessage limit message = .ok (ofMessage message) :=
  foldlM_checkedReader hlimit hcounted (Nat.min_le_right _ _)

end PointerTable

end Nameserver

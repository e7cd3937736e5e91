import Mathlib.Control.Monad.Basic
import Nameserver.Proofs.Name.Grammar
import Nameserver.Proofs.Record.Text
import Nameserver.Proofs.Text.Blank
/-!
# The fields of a line

A line of a zone file is read as a record just if it is five parts, of which the record's fields are
read, with blanks between them.  One blank may be missing: a TTL may touch the closing quote of the
owner's name.
-/

namespace Nameserver

open Text (isVisible isDigit lower EndsField IsField IsBlank)

/-! ## 1. Visible fields -/

namespace Text

/-- Letter case makes no difference to whether an octet can be seen. -/
theorem isVisible_lower (o : UInt8) : isVisible (lower o) = isVisible o := by
  unfold lower
  split
  next hcapital =>
    rw [Bool.and_eq_true, decide_eq_true_eq, decide_eq_true_eq, UInt8.le_iff_toNat_le,
      UInt8.le_iff_toNat_le] at hcapital
    obtain ⟨hlow, hhigh⟩ : 0x41 ≤ o.toNat ∧ o.toNat ≤ 0x5a := hcapital
    -- Adding 32 to a capital letter does not go over.
    have hsum : (o + 0x20).toNat = o.toNat + 0x20 := by
      rw [UInt8.toNat_add]
      exact Nat.mod_eq_of_lt (by show o.toNat + 0x20 < 256; omega)
    rw [Bool.eq_iff_iff, isVisible_iff, isVisible_iff, hsum]
    omega
  next => rfl

/-- A text that differs from a field in letter case only is a field. -/
theorem IsField.of_sameIgnoringCase {s t : Text} (hs : s.IsField)
    (h : sameIgnoringCase s t = true) : t.IsField := by
  rw [sameIgnoringCase, beq_iff_eq] at h
  have hlower : ∀ t : Text, (t.map lower).all isVisible = t.all isVisible := by
    intro t
    rw [List.all_map]
    congr 1
    exact funext isVisible_lower
  constructor
  · rintro rfl
    exact hs.nonempty (List.map_eq_nil_iff.1 h)
  · rw [← hlower, ← h, hlower]
    exact hs.visible

theorem all_isVisible_of_isDigit {t : Text} (h : t.all isDigit = true) :
    t.all isVisible = true := by
  rw [List.all_eq_true] at h ⊢
  exact fun o ho => isVisible_of_isDigit (h o ho)

theorem isField_of_number? {limit n : Nat} {t : Text} (h : number? limit t = some n) :
    t.IsField := by
  unfold number? at h
  split at h
  next hconditions =>
    simp only [Bool.and_eq_true, Bool.not_eq_true', List.isEmpty_eq_false_iff] at hconditions
    exact ⟨hconditions.1.1, all_isVisible_of_isDigit hconditions.1.2⟩
  next => cases h

theorem isField_of_signedNumber? {limit n : Nat} {t : Text}
    (h : signedNumber? limit t = some n) : t.IsField := by
  unfold signedNumber? at h
  split at h
  next digits =>
    have hplus : IsField [plus] := by decide
    exact hplus.append (isField_of_number? h).visible
  next => exact isField_of_number? h

/-- A word with a number behind it is a field, in whatever letter case the word is. -/
theorem isField_of_after? {word t digits : Text} {limit n : Nat} (hword : word.IsField)
    (h : after? word t = some digits) (hnumber : signedNumber? limit digits = some n) :
    t.IsField := by
  unfold after? at h
  split at h
  next hsame =>
    cases h
    rw [← List.take_append_drop word.length t]
    exact (hword.of_sameIgnoringCase hsame).append (isField_of_signedNumber? hnumber).visible
  next => cases h

end Text

theorem RecordClass.isField_of_ofText {t : Text} {c : RecordClass} (h : ofText t = .ok c) :
    t.IsField := by
  unfold ofText at h
  split at h
  next c' hfound =>
    have hsame := List.find?_some hfound
    exact c'.isField_text.of_sameIgnoringCase hsame
  next =>
    split at h
    next => cases h
    next digits hafter =>
      split at h
      next n hnumber => exact Text.isField_of_after? (by decide) hafter hnumber
      next => cases h

theorem RecordType.isField_of_ofText {t : Text} {rtype : RecordType} (h : ofText t = .ok rtype) :
    t.IsField := by
  -- The names of types are fields, and case makes no difference to that.
  have hnamed : ∀ entry ∈ named, entry.1.IsField := by decide +kernel
  unfold ofText at h
  split at h
  next name rtype' hfound =>
    have hsame := List.find?_some hfound
    exact (hnamed _ (List.mem_of_find?_eq_some hfound)).of_sameIgnoringCase hsame
  next =>
    split at h
    next => cases h
    next digits hafter =>
      split at h
      next n hnumber => exact Text.isField_of_after? (by decide) hafter hnumber
      next => cases h

namespace Record

/-! ## 2. Parts of a line -/

/-- The five parts of a line, and what stands around and between them. -/
structure Parts where
  lead : Text
  owner : Text
  ownerGap : Text
  ttl : Text
  ttlGap : Text
  rclass : Text
  classGap : Text
  rtype : Text
  typeGap : Text
  data : Text
  trail : Text

namespace Parts

def line (p : Parts) : Text :=
  p.lead ++ (p.owner ++ (p.ownerGap ++ (p.ttl ++ (p.ttlGap ++ (p.rclass ++ (p.classGap ++
    (p.rtype ++ (p.typeGap ++ (p.data ++ p.trail)))))))))

/-- There are blanks between all parts. -/
structure Separated (p : Parts) : Prop where
  lead : IsBlank p.lead
  gaps : ∀ gap ∈ [p.ownerGap, p.ttlGap, p.classGap, p.typeGap], IsBlank gap ∧ gap ≠ []
  trail : IsBlank p.trail

/-- The parts can be told apart.  A field ends at an ASCII blank, but an owner's name that is quoted
ends at its quote. -/
structure Divided (p : Parts) : Prop where
  lead : IsBlank p.lead
  ownerGap : IsBlank p.ownerGap
  ownerEnds : Text.startsWithSpace p.ownerGap = true ∨ p.owner.head? = some Text.quote
  gaps : ∀ gap ∈ [p.ttlGap, p.classGap, p.typeGap], IsBlank gap ∧ Text.startsWithSpace gap = true
  data_ne_nil : p.data ≠ []
  data_ends : ∀ u ∈ Text.blanks, ¬ u <+: p.data ∧ ¬ u <:+ p.data
  trail : IsBlank p.trail

/-- A record is what its fields are read as, each from its part. -/
structure Reads (strictness : Name.Strictness) (p : Parts) (r : Record) : Prop where
  owner : Name.read strictness p.owner = .ok (r.owner, [])
  digits : p.ttl.all isDigit = true
  ttl : ttlOfText p.ttl = .ok r.ttl
  class_internet : requireInternet p.rclass = .ok ()
  rclass : r.rclass = .internet
  rtype : RecordType.ofText p.rtype = .ok r.rtype
  data : RecordData.ofText strictness r.rtype p.data = .ok r.data

end Parts

variable {strictness : Name.Strictness} {line t : Text} {r : Record}

/-! ## 3. Parts of a line that is read -/

/-- Blanks at which a field ends start with an ASCII blank. -/
theorem startsWithSpace_of_endsField {gap s : Text} (h : EndsField (gap ++ s)) (hs : s ≠ [])
    (hfirst : ∀ u ∈ Text.blanks, ¬ u <+: s) : Text.startsWithSpace gap = true := by
  cases gap with
  | cons o gap => exact h
  | nil =>
    obtain ⟨o, s, rfl⟩ := List.exists_cons_of_ne_nil hs
    have hspace : Text.isSpace o = true := h
    exact absurd (List.prefix_append [o] s) (hfirst _ (Text.singleton_mem_blanks hspace))

/-- Before a field there are blanks, and the field ends before a blank. -/
theorem exists_gap_of_readField {field rest : Text} (h : readField t = .ok (field, rest)) :
    ∃ gap, IsBlank gap ∧ t = gap ++ (field ++ rest) ∧ EndsField rest ∧
      (EndsField t → Text.startsWithSpace gap = true) := by
  unfold readField at h
  split at h
  next result hfield =>
    cases h
    obtain ⟨gap, hgap, rfl, hne, hrest, hfirst⟩ := Text.exists_gap_of_nextField? hfield
    refine ⟨gap, hgap, rfl, hrest, fun hends => ?_⟩
    exact startsWithSpace_of_endsField hends (List.append_ne_nil_of_left_ne_nil hne rest) hfirst
  next => cases h

/-- A line that is read has parts, from which its record is read. -/
theorem exists_parts_of_ofText (h : ofText strictness line = .ok r) :
    ∃ p : Parts, p.line = line ∧ p.Divided ∧ p.Reads strictness r := by
  obtain ⟨⟨ownerName, rest₁⟩, howner, h⟩ := bind_eq_ok h
  obtain ⟨⟨ttlField, rest₂⟩, httlField, h⟩ := bind_eq_ok h
  obtain ⟨⟨classField, rest₃⟩, hclassField, h⟩ := bind_eq_ok h
  obtain ⟨⟨typeField, rest₄⟩, htypeField, h⟩ := bind_eq_ok h
  dsimp only at howner httlField hclassField htypeField h
  split at h
  next => cases h
  next hchecks =>
    simp only [Bool.or_eq_true, List.isEmpty_iff, Bool.not_eq_true', not_or,
      Bool.not_eq_false] at hchecks
    obtain ⟨hnonempty, hdigits⟩ := hchecks
    obtain ⟨ttl, httl, h⟩ := bind_eq_ok h
    obtain ⟨⟨⟩, hclass, h⟩ := bind_eq_ok h
    obtain ⟨rtype, htype, h⟩ := bind_eq_ok h
    obtain ⟨data, hdata, h⟩ := bind_eq_ok h
    cases h
    -- Each reader leaves what comes after its part, so the parts are found from the left.
    obtain ⟨lead, hlead, hline, -⟩ := Text.trimStart_eq_iff.1 (rfl : Text.trimStart line = _)
    obtain ⟨owner, hsplit, hread, hends⟩ :=
      Name.read_eq_ok_iff_exists_taken.1 (mapError_eq_ok howner)
    obtain ⟨ownerGap, hownerGap, rfl, hends₂, hspace₁⟩ := exists_gap_of_readField httlField
    obtain ⟨ttlGap, httlGap, rfl, hends₃, hspace₂⟩ := exists_gap_of_readField hclassField
    obtain ⟨classGap, hclassGap, rfl, hends₄, hspace₃⟩ := exists_gap_of_readField htypeField
    -- The data is what is left when the blanks on both sides have been trimmed off.
    generalize hfound : Text.trim rest₄ = found at hdata hnonempty
    obtain ⟨typeGap, trail, htypeGap, htrail, rfl, hdataEnds⟩ :=
      (Text.trim_eq_iff hnonempty).1 hfound
    have hspace₄ := startsWithSpace_of_endsField hends₄
      (List.append_ne_nil_of_left_ne_nil hnonempty trail)
      (Text.not_prefix_append hnonempty (fun u hu => (hdataEnds u hu).1) htrail)
    refine ⟨⟨lead, owner, ownerGap, ttlField, ttlGap, classField, classGap, typeField, typeGap,
      found, trail⟩, ?_, ?_, ?_⟩
    · rw [hline, hsplit]
      rfl
    · refine ⟨hlead, hownerGap, hends.imp_left hspace₁, ?_, hnonempty, hdataEnds, htrail⟩
      simp only [List.forall_mem_cons]
      exact ⟨⟨httlGap, hspace₂ hends₂⟩, ⟨hclassGap, hspace₃ hends₃⟩, ⟨htypeGap, hspace₄⟩,
        fun gap hgap => absurd hgap List.not_mem_nil⟩
    · exact ⟨hread, hdigits, httl, hclass, rfl, mapError_eq_ok htype, hdata⟩

/-! ## 4. Reading parts -/

theorem isField_of_ttlOfText {field : Text} {ttl : UInt32} (h : ttlOfText field = .ok ttl) :
    field.IsField := by
  unfold ttlOfText at h
  split at h
  next n hn => exact Text.isField_of_number? hn
  next => cases h

theorem isField_of_requireInternet {field : Text} (h : requireInternet field = .ok ()) :
    field.IsField := by
  unfold requireInternet at h
  split at h
  next hclass => exact RecordClass.isField_of_ofText hclass
  next => cases h

theorem endsField_append {gap : Text} (h : Text.startsWithSpace gap = true) (t : Text) :
    EndsField (gap ++ t) := by
  cases gap with
  | nil => cases h
  | cons o gap => exact h

/-- A field between blanks is read as it stands. -/
theorem readField_of_isField {gap field rest : Text} (hgap : IsBlank gap) (hfield : field.IsField)
    (hrest : EndsField rest) : readField (gap ++ (field ++ rest)) = .ok (field, rest) := by
  rw [readField, Text.nextField?_of_isField hgap hfield hrest]

/-- Blanks in front of a name come off, and the name is read up to its end. -/
theorem read_trimStart {lead owner rest : Text} {n : Name} (hlead : IsBlank lead)
    (howner : Name.read strictness owner = .ok (n, []))
    (hrest : EndsField rest ∨ owner.head? = some Text.quote) :
    Name.read strictness (Text.trimStart (lead ++ (owner ++ rest))) = .ok (n, rest) := by
  obtain ⟨o, after, hcons, ho⟩ := Name.exists_cons_of_read howner
  have hfirst : ∀ u ∈ Text.blanks, ¬ u <+: owner ++ rest := by
    rw [hcons]
    exact Text.not_prefix_cons ho (after ++ rest)
  rw [Text.trimStart_eq_iff.2 ⟨lead, hlead, rfl, hfirst⟩]
  exact Name.read_eq_ok_iff_exists_taken.2 ⟨owner, rfl, howner, hrest⟩

/-- Parts that can be told apart are read as the record that they are read as one by one. -/
theorem Parts.Reads.ofText_line {p : Parts} (h : p.Reads strictness r) (hp : p.Divided) :
    ofText strictness p.line = .ok r := by
  obtain ⟨⟨httlGap, hspace₂⟩, ⟨hclassGap, hspace₃⟩, ⟨htypeGap, hspace₄⟩, -⟩ := by
    simpa only [List.forall_mem_cons] using hp.gaps
  have httl := isField_of_ttlOfText h.ttl
  have hclass := isField_of_requireInternet h.class_internet
  have htype := RecordType.isField_of_ofText h.rtype
  have howner := read_trimStart hp.lead h.owner
    (hp.ownerEnds.imp_left fun hspace₁ => endsField_append hspace₁ (p.ttl ++ (p.ttlGap ++
      (p.rclass ++ (p.classGap ++ (p.rtype ++ (p.typeGap ++ (p.data ++ p.trail))))))))
  -- Trimming gives the data back, for it starts and ends with no blank.
  have hdata : Text.trim (p.typeGap ++ (p.data ++ p.trail)) = p.data :=
    (Text.trim_eq_iff hp.data_ne_nil).2 ⟨p.typeGap, p.trail, htypeGap, hp.trail, rfl, hp.data_ends⟩
  have hnonempty : p.data.isEmpty = false := List.isEmpty_eq_false_iff.2 hp.data_ne_nil
  rw [ofText, Parts.line, howner, mapError_ok, ok_bind]
  dsimp only
  rw [readField_of_isField hp.ownerGap httl (endsField_append hspace₂ _), ok_bind]
  dsimp only
  rw [readField_of_isField httlGap hclass (endsField_append hspace₃ _), ok_bind]
  dsimp only
  rw [readField_of_isField hclassGap htype (endsField_append hspace₄ _), ok_bind]
  dsimp only
  rw [hdata, hnonempty, h.digits]
  show (ttlOfText p.ttl >>= _) = _
  rw [h.ttl, ok_bind, h.class_internet, ok_bind, h.rtype, mapError_ok, ok_bind, h.data, ok_bind]
  show Except.ok _ = _
  rw [← h.rclass]

/-- Only the owner and the TTL can touch, and only at a quote. -/
theorem Parts.Divided.separated_or {p : Parts} (h : p.Divided) :
    p.Separated ∨ p.ownerGap = [] ∧ p.owner.head? = some Text.quote := by
  have hne : ∀ gap : Text, Text.startsWithSpace gap = true → gap ≠ [] := by
    rintro _ hspace rfl
    cases hspace
  -- The gap after the owner is the only one that may be empty.
  by_cases hgap : p.ownerGap = []
  · refine .inr ⟨hgap, h.ownerEnds.resolve_left fun hspace => hne _ hspace hgap⟩
  · have hgaps : ∀ gap ∈ [p.ttlGap, p.classGap, p.typeGap], IsBlank gap ∧ gap ≠ [] :=
      fun gap hmem => ⟨(h.gaps gap hmem).1, hne gap (h.gaps gap hmem).2⟩
    exact .inl ⟨h.lead, List.forall_mem_cons.2 ⟨⟨h.ownerGap, hgap⟩, hgaps⟩, h.trail⟩

/-- A line is read as a record just if it is parts that can be told apart and are read as the
record.  Then there are blanks between all of them, but the TTL may touch the owner's quote. -/
theorem ofText_eq_ok_iff_parts :
    ofText strictness line = .ok r ↔
      ∃ p : Parts, p.line = line ∧ p.Divided ∧ p.Reads strictness r ∧
        (p.Separated ∨ p.ownerGap = [] ∧ p.owner.head? = some Text.quote) := by
  constructor
  · intro h
    obtain ⟨p, hline, hp, hr⟩ := exists_parts_of_ofText h
    exact ⟨p, hline, hp, hr, hp.separated_or⟩
  · rintro ⟨p, rfl, hp, h, -⟩
    exact h.ofText_line hp

/-! ## 5. Parts that touch -/

/-- A gap has an octet that cannot be seen. -/
theorem one_le_countP_of_isBlank {gap : Text} (h : IsBlank gap) (hne : gap ≠ []) :
    1 ≤ gap.countP fun o => !isVisible o := by
  obtain ⟨o, gap, rfl⟩ := List.exists_cons_of_ne_nil hne
  rw [List.countP_cons, Text.isVisible_of_isBlank h]
  exact Nat.le_add_left 1 _

/-- Blanks between all parts take up four octets of a line. -/
theorem Parts.Separated.four_le_countP {p : Parts} (h : p.Separated) :
    4 ≤ p.line.countP fun o => !isVisible o := by
  have hgaps := h.gaps
  simp only [List.forall_mem_cons] at hgaps
  obtain ⟨⟨howner, howner'⟩, ⟨httl, httl'⟩, ⟨hclass, hclass'⟩, ⟨htype, htype'⟩, -⟩ := hgaps
  have h₁ := one_le_countP_of_isBlank howner howner'
  have h₂ := one_le_countP_of_isBlank httl httl'
  have h₃ := one_le_countP_of_isBlank hclass hclass'
  have h₄ := one_le_countP_of_isBlank htype htype'
  simp only [Parts.line, List.countP_append]
  omega

/-- A line with three blanks, of which none is between the owner and the TTL. -/
def touchingLine : Text := Text.ofString "\"q.\"60 IN A 192.0.2.1"

def touchingRecord : Record :=
  ⟨⟨[⟨[0x71], by decide⟩], by decide, by decide⟩, .a, .internet, 60, [192, 0, 2, 1]⟩

/-- So not every line that is read has blanks between all its parts. -/
theorem parts_can_touch :
    ofText .trailingDot touchingLine = .ok touchingRecord ∧
      ¬ ∃ p : Parts, p.line = touchingLine ∧ p.Separated := by
  constructor
  · decide +kernel
  · rintro ⟨p, hline, hp⟩
    -- Four gaps need four blanks, and the line has three.
    have hfour := hp.four_le_countP
    have hthree : (touchingLine.countP fun o => !isVisible o) = 3 := by decide +kernel
    rw [hline, hthree] at hfour
    omega

end Record

end Nameserver

import Mathlib.Control.Monad.Basic
import Nameserver.Record.Text
import Nameserver.Proofs.Record.Data
/-!
# The text of a record, read again

A line of a zone file holds a record of class `IN` with a TTL in range and data with a text form.
Such a record is printed as a line that holds it, and every line that is read holds such a record.
-/

namespace Nameserver

open Text (EndsField IsField Printed)

/-! ## 1. Texts of types and classes -/

theorem RecordType.isField_text (t : RecordType) : t.text.IsField := by
  -- Every type with a mnemonic is named, so there are only a few texts to look at.
  have hmnemonic : ∀ s, t.mnemonic? = some s → (Text.ofString s).IsField := by
    intro s hs
    rw [mnemonic?] at hs
    split at hs
    all_goals
      cases hs
      try decide
  have hword : (Text.ofString "TYPE").IsField := by decide
  rw [text]
  split
  next s hs => exact hmnemonic s hs
  next => exact hword.append (Text.isField_decimal _).visible

theorem RecordClass.isField_text (c : RecordClass) : c.text.IsField := by
  have hmnemonic : ∀ s, c.mnemonic? = some s → (Text.ofString s).IsField := by
    intro s hs
    rw [mnemonic?] at hs
    split at hs
    all_goals
      cases hs
      try decide
  have hword : (Text.ofString "CLASS").IsField := by decide
  rw [text]
  split
  next s hs => exact hmnemonic s hs
  next => exact hword.append (Text.isField_decimal _).visible

/-- A class and a type share a column. -/
theorem printed_classAndType (c : RecordClass) (t : RecordType) :
    (c.text ++ Text.space :: t.text).Printed :=
  c.isField_text.printed.append t.isField_text.printed (Text.all_replicate_space 1)

/-- A class is printed as its number has it. -/
theorem RecordClass.text_congr {c d : RecordClass} (h : c.same d = true) : c.text = d.text := by
  have hnumber : c.number = d.number := beq_iff_eq.1 h
  rw [text, text, mnemonic?, mnemonic?, hnumber]

theorem RecordType.ofText_text {t : RecordType}
    (h : t ∈ [RecordType.a, .ns, .cname, .ptr, .mx, .soa]) : ofText t.text = .ok t := by
  simp only [List.mem_cons, List.not_mem_nil, or_false] at h
  rcases h with rfl | rfl | rfl | rfl | rfl | rfl <;> rfl

namespace Record

variable {strictness : Name.Strictness} {r : Record}

/-! ## 2. The columns of a record -/

/-- A record is printed in columns with spaces between them. -/
theorem exists_withData (r : Record) (data : Text) : ∃ m n k,
    r.withData data = r.owner.text ++ (List.replicate (m + 1) Text.space ++
      (Text.decimal r.ttl.toNat ++ (List.replicate (n + 1) Text.space ++
        (r.rclass.text ++ (List.replicate 1 Text.space ++
          (r.rtype.text ++ (List.replicate (k + 1) Text.space ++ data))))))) := by
  obtain ⟨m, hm⟩ := Text.exists_padToWidth ownerWidth r.owner.text
  obtain ⟨gaps, hlength, hjoin⟩ := Text.exists_joinAtTabStops
    (Text.padToWidth ownerWidth r.owner.text)
    [Text.decimal r.ttl.toNat, r.rclass.text ++ Text.space :: r.rtype.text, data]
  rw [withData, hjoin, hm]
  match gaps, hlength with
  | [l, n, k], _ =>
    -- The owner is filled up to its own width and then, as every column is, to a tab stop.
    refine ⟨m + 1 + l, n, k, ?_⟩
    have hgap : List.replicate (m + 1 + l + 1) Text.space =
        List.replicate (m + 1) Text.space ++ List.replicate (l + 1) Text.space := by
      rw [List.replicate_append_replicate]
      rfl
    simp only [hgap, List.zipWith_cons_cons, List.zipWith_nil_left, List.flatten_cons,
      List.flatten_nil, List.append_assoc, List.cons_append, List.replicate_one, List.nil_append,
      List.append_nil]

/-- With a printed text for its data, a record makes a printed line. -/
theorem printed_withData (r : Record) {data : Text} (h : data.Printed) :
    (r.withData data).Printed := by
  have httl : (Text.decimal r.ttl.toNat).Printed := (Text.isField_decimal _).printed
  have hkind := printed_classAndType r.rclass r.rtype
  apply r.owner.printed_text.joinAtTabStops_padToWidth ownerWidth
  simp only [List.forall_mem_cons]
  exact ⟨httl, hkind, h, fun c hc => absurd hc List.not_mem_nil⟩

/-- No line of a record is a comment. -/
theorem head?_withData_ne_semicolon (r : Record) (data : Text) :
    ((r.withData data).head? == some Text.semicolon) = false := by
  obtain ⟨m, n, k, hline⟩ := r.exists_withData data
  rw [hline]
  exact r.owner.head?_text_ne_semicolon _

/-! ## 3. Reading the columns -/

/-- A column is read up to the space after it. -/
theorem readField_spaces {field rest : Text} (hfield : field.IsField) (hrest : EndsField rest)
    (n : Nat) : readField (List.replicate n Text.space ++ (field ++ rest)) = .ok (field, rest) := by
  rw [readField, Text.nextField?_spaces hfield hrest]

theorem ttlOfText_decimal {ttl : UInt32} (hpositive : 1 ≤ ttl.toNat)
    (hlimit : ttl.toNat ≤ maximumTtl) : ttlOfText (Text.decimal ttl.toNat) = .ok ttl := by
  -- Zero is refused by its pattern, so the number has to show that it is a successor.
  obtain ⟨n, hn⟩ := Nat.exists_eq_add_of_le' hpositive
  rw [ttlOfText, Text.number?_decimal hlimit, hn]
  show Except.ok (UInt32.ofNat (n + 1)) = _
  rw [← hn, UInt32.ofNat_toNat]

/-- A TTL that was read is in range. -/
theorem ttl_of_ttlOfText {field : Text} {ttl : UInt32} (h : ttlOfText field = .ok ttl) :
    1 ≤ ttl.toNat ∧ ttl.toNat ≤ maximumTtl := by
  rw [ttlOfText] at h
  split at h
  next n hn =>
    cases h
    have hle := Text.le_of_number? hn
    have hmax : maximumTtl = 999999999 := rfl
    rw [UInt32.toNat_ofNat_of_lt' (by rw [UInt32.size]; omega)]
    exact ⟨Nat.succ_pos n, hle⟩
  next => cases h

/-- A line with a record's columns is read as that record if its data is. -/
theorem ofText_withData {data : Text} (hclass : r.rclass.same .internet = true)
    (hpositive : 1 ≤ r.ttl.toNat) (hlimit : r.ttl.toNat ≤ maximumTtl)
    (htype : RecordType.ofText r.rtype.text = .ok r.rtype) (hprinted : data.Printed)
    (hdata : RecordData.ofText strictness r.rtype data = .ok r.data) :
    ofText strictness (r.withData data) = .ok { r with rclass := .internet } := by
  obtain ⟨m, n, k, hline⟩ := r.exists_withData data
  have hnonempty : data.isEmpty = false := by
    obtain ⟨o, rest, rfl, -⟩ := hprinted.exists_cons
    rfl
  -- After each column comes a space, at which its field ends.
  have hends : ∀ n (rest : Text), EndsField (List.replicate (n + 1) Text.space ++ rest) :=
    fun _ _ => rfl
  have hinternet : requireInternet r.rclass.text = .ok () := by
    rw [RecordClass.text_congr hclass]
    rfl
  rw [ofText, hline, r.owner.printed_text.trimStart_append,
    r.owner.read_text strictness (.inl (hends _ _)), mapError_ok, ok_bind]
  dsimp only
  rw [readField_spaces (Text.isField_decimal _) (hends _ _), ok_bind]
  dsimp only
  rw [readField_spaces r.rclass.isField_text (hends _ _), ok_bind]
  dsimp only
  rw [readField_spaces r.rtype.isField_text (hends _ _), ok_bind]
  dsimp only
  rw [hprinted.trim_spaces, hnonempty, Text.all_isDigit_decimal]
  -- Neither of the two checks fails, so the fields are read in turn.
  show (ttlOfText _ >>= _) = _
  rw [ttlOfText_decimal hpositive hlimit, ok_bind, hinternet, ok_bind, htype, mapError_ok, ok_bind,
    hdata, ok_bind]
  rfl

/-! ## 4. Records of lines -/

/-- A record that a line of a zone file can hold. -/
structure Writable (r : Record) : Prop where
  internet : r.rclass.same .internet = true
  positive : 1 ≤ r.ttl.toNat
  limited : r.ttl.toNat ≤ maximumTtl
  hasText : ∃ t, r.text = .ok t

/-- A record has a text just if its data writes a value of its type's form. -/
theorem text_eq_ok_iff {t : Text} :
    r.text = .ok t ↔ ∃ v : RecordData.Value,
      RecordData.form r.rtype = .ok v.form ∧ r.data = v.data ∧ t = r.withData v.text := by
  rw [text]
  constructor
  · intro h
    cases hdata : RecordData.text r.rtype r.data with
    | error e =>
      rw [hdata] at h
      cases h
    | ok data =>
      rw [hdata] at h
      cases h
      obtain ⟨v, hform, hv, rfl⟩ := RecordData.text_eq_ok_iff.1 hdata
      exact ⟨v, hform, hv, rfl⟩
  · rintro ⟨v, hform, hv, rfl⟩
    rw [RecordData.text_eq_ok_iff.2 ⟨v, hform, hv, rfl⟩]
    rfl

/-- The line of a record is read as the record, with either strictness. -/
theorem Writable.ofText_of_text (h : r.Writable) {t : Text} (ht : r.text = .ok t) :
    ofText strictness t = .ok { r with rclass := .internet } := by
  obtain ⟨v, hform, hv, rfl⟩ := text_eq_ok_iff.1 ht
  have htype := RecordType.ofText_text (RecordData.mem_of_form hform)
  refine ofText_withData h.internet h.positive h.limited htype (RecordData.printed_value v) ?_
  rw [hv]
  exact RecordData.ofText_text hform

theorem display_of_text {t : Text} (ht : r.text = .ok t) : r.display = t := by
  rw [text] at ht
  rw [display]
  cases hdata : RecordData.text r.rtype r.data with
  | error e =>
    rw [hdata] at ht
    cases ht
  | ok data =>
    rw [hdata] at ht
    cases ht
    rfl

/-- Any record makes a printed line, also where its data has no text form of its own. -/
theorem printed_display (r : Record) : r.display.Printed := by
  rw [display]
  split
  next data hdata =>
    obtain ⟨v, -, -, rfl⟩ := RecordData.text_eq_ok_iff.1 hdata
    exact r.printed_withData (RecordData.printed_value v)
  next => exact r.printed_withData (RecordData.printed_genericText _)

/-- Every line that is read holds a record that has a line. -/
theorem writable_of_ofText {line : Text} (h : ofText strictness line = .ok r) :
    r.rclass = .internet ∧ r.Writable := by
  obtain ⟨⟨owner, rest⟩, -, h⟩ := bind_eq_ok h
  obtain ⟨⟨ttlField, rest⟩, -, h⟩ := bind_eq_ok h
  obtain ⟨⟨classField, rest⟩, -, h⟩ := bind_eq_ok h
  obtain ⟨⟨typeField, rest⟩, -, h⟩ := bind_eq_ok h
  dsimp only at h
  split at h
  · cases h
  obtain ⟨ttl, httl, h⟩ := bind_eq_ok h
  obtain ⟨_, -, h⟩ := bind_eq_ok h
  obtain ⟨rtype, -, h⟩ := bind_eq_ok h
  obtain ⟨data, hdata, h⟩ := bind_eq_ok h
  cases h
  -- The TTL and the data were checked as they were read, and the class is the one that is required.
  obtain ⟨hpositive, hlimit⟩ := ttl_of_ttlOfText httl
  obtain ⟨v, hform, hv⟩ := RecordData.exists_value_of_ofText hdata
  exact ⟨rfl, rfl, hpositive, hlimit, _, text_eq_ok_iff.2 ⟨v, hform, hv, rfl⟩⟩

/-- Printing and reading are inverse.  The line of a record with class `IN` and a TTL in range is
read as that record, whatever octets its names have; and a record that was read has such a line. -/
theorem text_roundTrip :
    (∀ (r : Record) (t : Text) (strictness : Name.Strictness),
      r.rclass.same .internet = true → 1 ≤ r.ttl.toNat → r.ttl.toNat ≤ 999999999 →
      r.text = .ok t → ofText strictness t = .ok { r with rclass := .internet }) ∧
    ∀ (line : Text) (strictness : Name.Strictness) (r : Record), ofText strictness line = .ok r →
      r.rclass = .internet ∧ 1 ≤ r.ttl.toNat ∧ r.ttl.toNat ≤ 999999999 ∧
      r.rtype ∈ [RecordType.a, .ns, .cname, .ptr, .mx, .soa] ∧
      ∃ t, r.text = .ok t ∧ ∀ strictness', ofText strictness' t = .ok r := by
  constructor
  · intro r t strictness hclass hpositive hlimit ht
    have hwritable : r.Writable := ⟨hclass, hpositive, hlimit, t, ht⟩
    exact hwritable.ofText_of_text ht
  · intro line strictness r hr
    obtain ⟨hclass, hwritable⟩ := writable_of_ofText hr
    obtain ⟨t, ht⟩ := hwritable.hasText
    obtain ⟨v, hform, -⟩ := text_eq_ok_iff.1 ht
    refine ⟨hclass, hwritable.positive, hwritable.limited, RecordData.mem_of_form hform, t, ht, ?_⟩
    intro strictness'
    rw [hwritable.ofText_of_text ht, ← hclass]

/-- A record whose owner is `;" ` with a null octet and a digit after it, and whose mail exchange has
a dot and a backslash in its label. -/
def quotedRecord : Record :=
  ⟨⟨[⟨[0x3b, 0x22, 0x20, 0x00, 0x31], by decide⟩], by decide, by decide⟩, .mx, .other 1, 1,
    [0, 10, 2, 0x2e, 0x5c, 0]⟩

def quotedLine : Text :=
  Text.ofString "\";\\\" \\0001.\"                            1       IN MX   10      \\.\\\\."

/-- The line is read again, but for the class, which it says by name. -/
theorem ofText_quotedLine :
    quotedRecord.text = .ok quotedLine ∧
      ofText .trailingDot quotedLine = .ok { quotedRecord with rclass := .internet } ∧
      ∃ t, ({ quotedRecord with rclass := .internet } : Record).text = .ok t ∧
        ∀ strictness, ofText strictness t = .ok { quotedRecord with rclass := .internet } := by
  have htext : quotedRecord.text = .ok quotedLine := by decide +kernel
  have hread := text_roundTrip.1 quotedRecord quotedLine .trailingDot (by decide)
    (by decide) (by decide) htext
  exact ⟨htext, hread, (text_roundTrip.2 _ _ _ hread).2.2.2.2⟩

end Record

end Nameserver

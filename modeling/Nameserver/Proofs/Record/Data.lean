import Nameserver.Record.Data
import Nameserver.Proofs.Name.Text
/-!
# The text of record data, read again

`Value` is what record data of some form says.  The octets and the text of data are two ways to
write its value: data has a text exactly if it writes a value, and reading the text gives the data.
-/

namespace Nameserver

namespace Text

/-! ## 1. Printed texts in a row -/

theorem join_cons (mark : UInt8) (t : Text) (others : List Text) :
    join mark (t :: others) = t ++ others.flatMap (mark :: ·) := by
  induction others generalizing t with
  | nil => rw [join, List.flatMap_nil, List.append_nil]
  | cons s others ih =>
    -- The mark goes with the text after it.
    rw [join, ih, List.flatMap_cons, List.cons_append]
    exact List.cons_ne_nil _ _

/-- Printed texts with marks between them are a printed text. -/
theorem Printed.append_flatMap {t : Text} (ht : t.Printed) {mark : UInt8}
    (hmark : isPrintable mark = true) {others : List Text} (h : ∀ s ∈ others, s.Printed) :
    (t ++ others.flatMap (mark :: ·)).Printed := by
  induction others generalizing t with
  | nil =>
    rw [List.flatMap_nil, List.append_nil]
    exact ht
  | cons s others ih =>
    have hgap : [mark].all isPrintable = true := by rw [List.all_cons, hmark, List.all_nil]; rfl
    have hfirst := ht.append (h s List.mem_cons_self) hgap
    have hall := ih hfirst fun u hu => h u (List.mem_cons_of_mem _ hu)
    rw [List.append_assoc, List.append_assoc] at hall
    exact hall

/-- Numbers in a row, each after a space. -/
def spacedDecimals (integers : List UInt32) : Text :=
  integers.flatMap fun n => space :: decimal n.toNat

theorem endsField_spacedDecimals (integers : List UInt32) :
    EndsField (spacedDecimals integers) := by
  cases integers <;> rfl

end Text

open Text (EndsField Printed)

/-! ## 2. Readers of numbers -/

/-- Numbers are read just from their octets, one after another. -/
theorem Reader.count_uint32_eq_ok_iff {ε : Type} {e : ε} {n : Nat} {input rest : Octets}
    {integers : List UInt32} :
    (uint32.failingWith e).count n input = .ok (integers, rest) ↔
      integers.length = n ∧ input = integers.flatMap Octets.ofUInt32 ++ rest := by
  induction n generalizing input integers with
  | zero =>
    constructor
    · intro h
      cases h
      exact ⟨rfl, rfl⟩
    · rintro ⟨hlength, rfl⟩
      rw [List.length_eq_zero_iff.1 hlength]
      rfl
  | succ n ih =>
    constructor
    · intro h
      obtain ⟨first, middle, hfirst, h⟩ := bind_eq_ok_iff.1 h
      obtain ⟨others, after, hothers, h⟩ := bind_eq_ok_iff.1 h
      cases h
      obtain ⟨hlength, rfl⟩ := ih.1 hothers
      have hinput := uint32_eq_ok_iff.1 (failingWith_eq_ok_iff.1 hfirst)
      refine ⟨congrArg (· + 1) hlength, ?_⟩
      rw [hinput, List.flatMap_cons, List.append_assoc]
    · rintro ⟨hlength, rfl⟩
      obtain ⟨first, others, rfl⟩ := List.exists_cons_of_length_eq_add_one hlength
      have hothers := ih.2 ⟨Nat.succ.inj hlength, rfl⟩
      have hfirst : (uint32.failingWith e)
          (Octets.ofUInt32 first ++ (others.flatMap Octets.ofUInt32 ++ rest)) =
            .ok (first, others.flatMap Octets.ofUInt32 ++ rest) :=
        failingWith_eq_ok_iff.2 (uint32_ofUInt32 _ _)
      rw [List.flatMap_cons, List.append_assoc]
      exact bind_eq_ok_iff.2 ⟨first, _, hfirst, bind_eq_ok_iff.2 ⟨others, _, hothers, rfl⟩⟩

namespace RecordData

variable {strictness : Name.Strictness}

theorem complete?_eq_some_iff {α : Type} {r : Reader NameError α} {data : Octets} {a : α} :
    complete? r data = some a ↔ r data = .ok (a, []) := by
  rw [complete?]
  constructor
  · intro h
    split at h
    next heq =>
      cases h
      exact heq
    next => cases h
  · intro h
    rw [h]

/-! ## 3. Values -/

/-- What record data of some form says. -/
inductive Value where
  | address (a b c d : UInt8)
  | name (target : Name)
  | exchange (preference : UInt16) (target : Name)
  | authority (mname rname : Name) (integers : List UInt32) (five : integers.length = 5)

namespace Value

def form : Value → Form
  | address .. => .address
  | name .. => .name
  | exchange .. => .exchange
  | authority .. => .authority

def data : Value → Octets
  | address a b c d => [a, b, c, d]
  | name target => target.wire
  | exchange preference target => Octets.ofUInt16 preference ++ target.wire
  | authority mname rname integers _ =>
    mname.wire ++ (rname.wire ++ integers.flatMap Octets.ofUInt32)

def text : Value → Text
  | address a b c d => Text.join Text.dot ([a, b, c, d].map fun o => Text.decimal o.toNat)
  | name target => target.text
  | exchange preference target =>
    Text.padToTabStop (Text.decimal preference.toNat) ++ target.text
  | authority mname rname integers _ =>
    mname.text ++ (Text.space :: (rname.text ++ Text.spacedDecimals integers))

end Value

/-! ## 4. Data with a text -/

/-- Data has the text of an exchange just if it writes one. -/
theorem exchangeText_eq_ok_iff {data : Octets} {t : Text} :
    exchangeText data = .ok (t, []) ↔ ∃ preference target,
      data = (Value.exchange preference target).data ∧
        t = (Value.exchange preference target).text := by
  constructor
  · intro h
    obtain ⟨preference, middle, hpreference, h⟩ := Reader.bind_eq_ok_iff.1 h
    obtain ⟨target, rest, htarget, h⟩ := Reader.bind_eq_ok_iff.1 h
    cases h
    have hfirst := Reader.uint16_eq_ok_iff.1 (Reader.failingWith_eq_ok_iff.1 hpreference)
    have hsecond := Name.reader_empty_eq_ok_iff.1 htarget
    rw [List.append_nil] at hsecond
    exact ⟨preference, target, by rw [hfirst, hsecond]; rfl, rfl⟩
  · rintro ⟨preference, target, rfl, rfl⟩
    refine Reader.bind_eq_ok_iff.2 ⟨preference, target.wire, ?_, ?_⟩
    · exact Reader.failingWith_eq_ok_iff.2 (Reader.uint16_ofUInt16 _ _)
    · refine Reader.bind_eq_ok_iff.2 ⟨target, [], ?_, rfl⟩
      exact Name.reader_empty_eq_ok_iff.2 (List.append_nil _).symm

theorem authority_text_eq (mname rname : Name) (integers : List UInt32)
    (five : integers.length = 5) :
    (Value.authority mname rname integers five).text =
      Text.join Text.space
        (mname.text :: rname.text :: integers.map fun n => Text.decimal n.toNat) := by
  rw [Text.join_cons, List.flatMap_cons, List.flatMap_map]
  rfl

/-- Data has the text of an authority just if it writes one. -/
theorem authorityText_eq_ok_iff {data : Octets} {t : Text} :
    authorityText data = .ok (t, []) ↔ ∃ mname rname integers five,
      data = (Value.authority mname rname integers five).data ∧
        t = (Value.authority mname rname integers five).text := by
  constructor
  · intro h
    obtain ⟨mname, middle, hmname, h⟩ := Reader.bind_eq_ok_iff.1 h
    obtain ⟨rname, after, hrname, h⟩ := Reader.bind_eq_ok_iff.1 h
    obtain ⟨integers, rest, hintegers, h⟩ := Reader.bind_eq_ok_iff.1 h
    cases h
    obtain ⟨five, hthird⟩ := Reader.count_uint32_eq_ok_iff.1 hintegers
    have hfirst := Name.reader_empty_eq_ok_iff.1 hmname
    have hsecond := Name.reader_empty_eq_ok_iff.1 hrname
    rw [List.append_nil] at hthird
    refine ⟨mname, rname, integers, five, ?_, (authority_text_eq ..).symm⟩
    rw [hfirst, hsecond, hthird]
    rfl
  · rintro ⟨mname, rname, integers, five, rfl, rfl⟩
    rw [authority_text_eq]
    refine Reader.bind_eq_ok_iff.2 ⟨mname, _, Name.reader_empty_eq_ok_iff.2 rfl, ?_⟩
    refine Reader.bind_eq_ok_iff.2 ⟨rname, _, Name.reader_empty_eq_ok_iff.2 rfl, ?_⟩
    refine Reader.bind_eq_ok_iff.2 ⟨integers, [], ?_, rfl⟩
    exact Reader.count_uint32_eq_ok_iff.2 ⟨five, (List.append_nil _).symm⟩

/-- Data has a text in a form just if it writes a value of the form, whose text it is. -/
theorem text?_eq_some_iff {form : Form} {data : Octets} {t : Text} :
    form.text? data = some t ↔ ∃ v : Value, v.form = form ∧ data = v.data ∧ t = v.text := by
  cases form with
  | address =>
    constructor
    · intro h
      rw [Form.text?] at h
      split at h
      next hlength =>
        cases h
        -- Four octets are an address, whatever they are.
        match data, hlength with
        | [a, b, c, d], _ => exact ⟨.address a b c d, rfl, rfl, rfl⟩
      next => cases h
    · rintro ⟨v, hform, rfl, rfl⟩
      cases v with
      | address a b c d => rfl
      | _ => cases hform
  | name =>
    rw [Form.text?, Option.map_eq_some_iff]
    constructor
    · rintro ⟨target, htarget, rfl⟩
      have hdata := Name.reader_empty_eq_ok_iff.1 (complete?_eq_some_iff.1 htarget)
      rw [List.append_nil] at hdata
      exact ⟨.name target, rfl, hdata, rfl⟩
    · rintro ⟨v, hform, rfl, rfl⟩
      cases v with
      | name target =>
        refine ⟨target, complete?_eq_some_iff.2 ?_, rfl⟩
        exact Name.reader_empty_eq_ok_iff.2 (List.append_nil _).symm
      | _ => cases hform
  | exchange =>
    rw [Form.text?, complete?_eq_some_iff, exchangeText_eq_ok_iff]
    constructor
    · rintro ⟨preference, target, hdata, ht⟩
      exact ⟨_, rfl, hdata, ht⟩
    · rintro ⟨v, hform, hdata, ht⟩
      cases v with
      | exchange preference target => exact ⟨preference, target, hdata, ht⟩
      | _ => cases hform
  | authority =>
    rw [Form.text?, complete?_eq_some_iff, authorityText_eq_ok_iff]
    constructor
    · rintro ⟨mname, rname, integers, five, hdata, ht⟩
      exact ⟨_, rfl, hdata, ht⟩
    · rintro ⟨v, hform, hdata, ht⟩
      cases v with
      | authority mname rname integers five => exact ⟨mname, rname, integers, five, hdata, ht⟩
      | _ => cases hform

/-- Data of a type has a text just if it writes a value of the type's form. -/
theorem text_eq_ok_iff {rtype : RecordType} {data : Octets} {t : Text} :
    text rtype data = .ok t ↔
      ∃ v : Value, form rtype = .ok v.form ∧ data = v.data ∧ t = v.text := by
  rw [text]
  cases form rtype with
  | error e =>
    constructor
    · intro h
      cases h
    · rintro ⟨v, hform, -⟩
      cases hform
  | ok f =>
    have hform : ∀ v : Value, Except.ok (ε := Record.Error) f = .ok v.form ↔ v.form = f :=
      fun v => ⟨fun h => (Except.ok.inj h).symm, fun h => by rw [h]⟩
    -- What is left is the form, of which the lemma before speaks.
    have hvalue : (∃ v : Value, Except.ok (ε := Record.Error) f = .ok v.form ∧ data = v.data ∧
        t = v.text) ↔ f.text? data = some t := by
      simp only [text?_eq_some_iff, hform]
    rw [hvalue, ok_bind]
    cases f.text? data with
    | none => exact ⟨fun h => (nomatch h), fun h => (nomatch h)⟩
    | some s => exact ⟨fun h => by cases h; rfl, fun h => by cases h; rfl⟩

/-! ## 5. Reading a value's text -/

theorem readAddress_text (a b c d : UInt8) :
    readAddress (Value.address a b c d).text = .ok (Value.address a b c d).data := by
  have hnumber : ∀ o : UInt8, Text.number? 255 (Text.decimal o.toNat) = some o.toNat := by
    intro o
    have hlt := o.toNat_lt
    exact Text.number?_decimal (by omega)
  -- Digits are no dots, so the text comes apart where it was joined.
  have hpieces : ∀ t ∈ [a, b, c, d].map fun o => Text.decimal o.toNat, ∀ o ∈ t, o ≠ Text.dot := by
    intro t ht o ho
    obtain ⟨v, -, rfl⟩ := List.mem_map.1 ht
    have hdigit := List.all_eq_true.1 (Text.all_isDigit_decimal v.toNat) o ho
    rintro rfl
    cases hdigit
  have hsplit : Text.split Text.dot (Value.address a b c d).text =
      [a, b, c, d].map fun o => Text.decimal o.toNat :=
    Text.split_join (List.cons_ne_nil _ _) hpieces
  rw [readAddress, hsplit]
  simp only [List.map_cons, List.map_nil, List.mapM_cons, List.mapM_nil, hnumber]
  show Except.ok [UInt8.ofNat a.toNat, UInt8.ofNat b.toNat, UInt8.ofNat c.toNat,
    UInt8.ofNat d.toNat] = _
  simp only [UInt8.ofNat_toNat]
  rfl

theorem readName_text (n : Name) {rest : Text} (h : EndsField rest) :
    readName strictness (n.text ++ rest) = .ok (n, rest) := by
  rw [readName, n.read_text strictness (.inl h)]
  rfl

theorem readName_text_nil (n : Name) : readName strictness n.text = .ok (n, []) := by
  have hends : EndsField [] := rfl
  have hread : readName strictness (n.text ++ []) = .ok (n, []) := readName_text n hends
  rwa [List.append_nil] at hread

theorem readExchange_text (preference : UInt16) (target : Name) :
    readExchange strictness (Value.exchange preference target).text =
      .ok (Value.exchange preference target).data := by
  have hle : preference.toNat ≤ 65535 := by
    have hlt := preference.toNat_lt
    omega
  obtain ⟨n, hpad⟩ := Text.exists_padToTabStop (Text.decimal preference.toNat)
  -- The preference is a field of its own, since at least one space follows it.
  have hends : EndsField (List.replicate (n + 1) Text.space ++ target.text) := rfl
  have hfield : Text.nextField? (Value.exchange preference target).text =
      some (Text.decimal preference.toNat, List.replicate (n + 1) Text.space ++ target.text) := by
    rw [Value.text, hpad, List.append_assoc]
    exact Text.nextField?_spaces (Text.isField_decimal _) hends 0
  have htrim : Text.trimStart (List.replicate (n + 1) Text.space ++ target.text) = target.text := by
    rw [Text.trimStart_spaces, target.printed_text.trimStart_eq]
  have hdigits : require ((Text.decimal preference.toNat).all Text.isDigit && Text.startsWithSpace
      (List.replicate (n + 1) Text.space ++ target.text)) = .ok () := by
    rw [Text.all_isDigit_decimal]
    rfl
  rw [readExchange, hfield]
  dsimp only
  rw [hdigits, ok_bind, Text.number?_decimal hle, htrim]
  dsimp only
  rw [readName_text_nil, ok_bind, UInt16.ofNat_toNat]
  rfl

theorem readIntegers_text (integers : List UInt32) :
    readIntegers integers.length (Text.spacedDecimals integers) =
      .ok (integers.flatMap Octets.ofUInt32, []) := by
  induction integers with
  | nil => rfl
  | cons n integers ih =>
    have hle : n.toNat ≤ 4294967295 := by
      have hlt := n.toNat_lt
      omega
    have hfield : Text.nextField? (Text.spacedDecimals (n :: integers)) =
        some (Text.decimal n.toNat, Text.spacedDecimals integers) :=
      Text.nextField?_spaces (Text.isField_decimal _) (Text.endsField_spacedDecimals integers) 1
    have hnumber : readNumber 4294967295 .integerOutOfRange (Text.spacedDecimals (n :: integers)) =
        .ok (n.toNat, Text.spacedDecimals integers) := by
      rw [readNumber, hfield]
      dsimp only
      rw [Text.all_isDigit_decimal, Text.number?_decimal hle]
      rfl
    -- A space comes before each number, also before the first one.
    have hspace : require (Text.startsWithSpace (Text.spacedDecimals (n :: integers))) = .ok () :=
      rfl
    rw [List.length_cons, readIntegers, hspace, ok_bind, hnumber, ok_bind]
    dsimp only
    rw [ih, ok_bind, UInt32.ofNat_toNat]
    rfl

theorem readAuthority_text (mname rname : Name) (integers : List UInt32)
    (five : integers.length = 5) :
    readAuthority strictness (Value.authority mname rname integers five).text =
      .ok (Value.authority mname rname integers five).data := by
  have htrim : Text.trimStart (Text.space :: (rname.text ++ Text.spacedDecimals integers)) =
      rname.text ++ Text.spacedDecimals integers := by
    rw [Text.trimStart_space, rname.printed_text.trimStart_append]
  have hintegers := readIntegers_text integers
  rw [five] at hintegers
  -- A space ends the first name, and the space of the first number ends the second.
  have hends : EndsField (Text.space :: (rname.text ++ Text.spacedDecimals integers)) := rfl
  have hspace : require (Text.startsWithSpace
      (Text.space :: (rname.text ++ Text.spacedDecimals integers))) = .ok () := rfl
  rw [readAuthority, Value.text, readName_text mname hends, ok_bind]
  dsimp only
  rw [hspace, ok_bind, htrim, readName_text rname (Text.endsField_spacedDecimals integers), ok_bind]
  dsimp only
  rw [hintegers, ok_bind]
  exact congrArg Except.ok (List.append_assoc ..)

/-- The text of a value is read as its data. -/
theorem read_text (v : Value) : v.form.read strictness v.text = .ok v.data := by
  cases v with
  | address a b c d => exact readAddress_text a b c d
  | name target =>
    rw [Value.form, Form.read, Value.text, readName_text_nil]
    rfl
  | exchange preference target => exact readExchange_text preference target
  | authority mname rname integers five => exact readAuthority_text mname rname integers five

/-- The text of a value is read as its data under every type of its form. -/
theorem ofText_text {rtype : RecordType} {v : Value} (h : form rtype = .ok v.form) :
    ofText strictness rtype v.text = .ok v.data := by
  rw [ofText, h, ok_bind, read_text]
  rfl

/-- A value is printed without control characters, and with visible ones at both ends. -/
theorem printed_value (v : Value) : v.text.Printed := by
  have hdecimals : ∀ integers : List UInt32,
      ∀ s ∈ integers.map fun n => Text.decimal n.toNat, s.Printed := by
    intro integers s hs
    obtain ⟨n, -, rfl⟩ := List.mem_map.1 hs
    exact (Text.isField_decimal _).printed
  cases v with
  | address a b c d =>
    rw [Value.text, List.map_cons, Text.join_cons]
    refine (Text.isField_decimal _).printed.append_flatMap rfl fun s hs => ?_
    obtain ⟨o, -, rfl⟩ := List.mem_map.1 hs
    exact (Text.isField_decimal _).printed
  | name target => exact target.printed_text
  | exchange preference target =>
    obtain ⟨n, hpad⟩ := Text.exists_padToTabStop (Text.decimal preference.toNat)
    rw [Value.text, hpad, List.append_assoc]
    exact (Text.isField_decimal _).printed.append target.printed_text (Text.all_replicate_space _)
  | authority mname rname integers five =>
    rw [authority_text_eq, Text.join_cons]
    refine mname.printed_text.append_flatMap rfl fun s hs => ?_
    rcases List.mem_cons.1 hs with rfl | hs
    · exact rname.printed_text
    · exact hdecimals integers s hs

/-- The generic form is printed too, whatever the data. -/
theorem printed_genericText (data : Octets) : (genericText data).Printed := by
  have hfront : Printed (Text.ofString "\\#") := by decide
  have hmark : Text.ofString "\\# " = Text.ofString "\\#" ++ [Text.space] := by decide
  rw [genericText, hmark, List.append_assoc, List.append_assoc]
  refine hfront.append ?_ rfl
  split
  next =>
    rw [List.append_nil]
    exact (Text.isField_decimal _).printed
  next hdata =>
    have hhex : (Text.hex data).IsField := by
      refine ⟨?_, Text.all_isVisible_hex data⟩
      cases data with
      | nil => exact absurd rfl hdata
      | cons o data => exact List.cons_ne_nil _ _
    have hgap : [Text.space].all Text.isPrintable = true := rfl
    exact (Text.isField_decimal _).printed.append hhex.printed hgap

/-! ## 6. Data that was read -/

theorem exists_of_readIntegers {count : Nat} {t rest : Text} {octets : Octets}
    (h : readIntegers count t = .ok (octets, rest)) :
    ∃ integers : List UInt32, integers.length = count ∧
      octets = integers.flatMap Octets.ofUInt32 := by
  induction count generalizing t octets with
  | zero =>
    cases h
    exact ⟨[], rfl, rfl⟩
  | succ count ih =>
    rw [readIntegers] at h
    obtain ⟨_, -, h⟩ := bind_eq_ok h
    obtain ⟨⟨n, middle⟩, -, h⟩ := bind_eq_ok h
    obtain ⟨⟨others, after⟩, hothers, h⟩ := bind_eq_ok h
    cases h
    obtain ⟨integers, hlength, rfl⟩ := ih hothers
    exact ⟨UInt32.ofNat n :: integers, congrArg (· + 1) hlength, rfl⟩

/-- Data that was read from a text writes a value. -/
theorem exists_value_of_read {f : Form} {t : Text} {data : Octets}
    (h : f.read strictness t = .ok data) : ∃ v : Value, v.form = f ∧ data = v.data := by
  cases f with
  | address =>
    rw [Form.read, readAddress] at h
    split at h
    next a b c d hparts =>
      cases h
      exact ⟨.address _ _ _ _, rfl, rfl⟩
    next => cases h
  | name =>
    obtain ⟨⟨target, rest⟩, -, h⟩ := bind_eq_ok h
    obtain ⟨_, -, h⟩ := bind_eq_ok h
    cases h
    exact ⟨.name target, rfl, rfl⟩
  | exchange =>
    rw [Form.read, readExchange] at h
    split at h
    next => cases h
    next field rest hfield =>
      obtain ⟨_, -, h⟩ := bind_eq_ok h
      split at h
      next => cases h
      -- The number fits 16 bits, as it was checked to.
      next preference hpreference =>
        obtain ⟨⟨target, rest⟩, -, h⟩ := bind_eq_ok h
        obtain ⟨_, -, h⟩ := bind_eq_ok h
        cases h
        exact ⟨.exchange (UInt16.ofNat preference) target, rfl, rfl⟩
  | authority =>
    rw [Form.read, readAuthority] at h
    obtain ⟨⟨mname, rest⟩, -, h⟩ := bind_eq_ok h
    obtain ⟨_, -, h⟩ := bind_eq_ok h
    obtain ⟨⟨rname, rest⟩, -, h⟩ := bind_eq_ok h
    obtain ⟨⟨octets, rest⟩, hintegers, h⟩ := bind_eq_ok h
    obtain ⟨_, -, h⟩ := bind_eq_ok h
    cases h
    -- There are five numbers, as many as are read.
    obtain ⟨integers, five, rfl⟩ := exists_of_readIntegers hintegers
    exact ⟨.authority mname rname integers five, rfl, List.append_assoc _ _ _⟩

/-- What was read as data of a type writes a value of the type's form. -/
theorem exists_value_of_ofText {rtype : RecordType} {t : Text} {data : Octets}
    (h : ofText strictness rtype t = .ok data) :
    ∃ v : Value, form rtype = .ok v.form ∧ data = v.data := by
  obtain ⟨f, hform, h⟩ := bind_eq_ok h
  split at h
  next read hread =>
    cases h
    obtain ⟨v, rfl, rfl⟩ := exists_value_of_read hread
    exact ⟨v, hform, rfl⟩
  next => cases h
  next => cases h

/-- Six types have data with a text form. -/
theorem mem_of_form {rtype : RecordType} {f : Form} (h : form rtype = .ok f) :
    rtype ∈ [RecordType.a, .ns, .cname, .ptr, .mx, .soa] := by
  cases rtype with
  | txt | any | other => cases h
  | _ => decide

end RecordData

end Nameserver

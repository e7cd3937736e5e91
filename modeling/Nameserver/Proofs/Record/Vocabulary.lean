import Nameserver.Proofs.Checked.Octets
import Nameserver.Proofs.Record.Fields
/-!
# The words for types and classes

Types and classes have numbers, and a text names a number by a mnemonic or by a word and the
decimal digits behind it, in any letter case.  Main statement: the texts of types and classes are
these and no others, but that a plus sign may stand before the digits, and no text is ever cut
inside a character.
-/

namespace Nameserver

open Text (isDigit isUtf8 lower sameIgnoringCase)

/-! ## 1. Texts before texts -/

namespace Text

variable {word s t rest : Text} {limit n : Nat}

theorem sameIgnoringCase_iff : sameIgnoringCase s t = true ↔ s.map lower = t.map lower := by
  rw [sameIgnoringCase, beq_iff_eq]

/-- What comes after a word comes after a text that differs from the word in letter case only. -/
theorem after?_eq_some_iff :
    after? word t = some rest ↔ ∃ front, sameIgnoringCase word front = true ∧ t = front ++ rest := by
  rw [after?]
  constructor
  · intro h
    split at h
    next hsame =>
      cases h
      exact ⟨_, hsame, (List.take_append_drop _ _).symm⟩
    next => cases h
  · rintro ⟨front, hsame, rfl⟩
    -- Letter case does not change how long a text is, so it is cut behind the front.
    have hlength : front.length = word.length := by
      simpa using (congrArg List.length (sameIgnoringCase_iff.1 hsame)).symm
    rw [← hlength, List.take_left, List.drop_left, if_pos hsame]

/-- Whether a word stands at the front of a text does not depend on letter case. -/
theorem after?_eq_none_congr (h : sameIgnoringCase s t = true) :
    after? word s = none ↔ after? word t = none := by
  rw [sameIgnoringCase_iff] at h
  have hfront : sameIgnoringCase word (s.take word.length) =
      sameIgnoringCase word (t.take word.length) := by
    rw [sameIgnoringCase, sameIgnoringCase, List.map_take, List.map_take, h]
  rw [after?, after?, hfront]
  split
  next => simp
  next => simp

/-- A number is decimal digits whose value is within the limit. -/
theorem number?_eq_some_iff :
    number? limit t = some n ↔ t ≠ [] ∧ t.all isDigit = true ∧ value t = n ∧ n ≤ limit := by
  rw [number?]
  split
  next h =>
    simp only [Bool.and_eq_true, Bool.not_eq_true', List.isEmpty_eq_false_iff,
      decide_eq_true_eq] at h
    obtain ⟨⟨hne, hdigits⟩, hle⟩ := h
    constructor
    · intro heq
      cases heq
      exact ⟨hne, hdigits, rfl, hle⟩
    · rintro ⟨-, -, rfl, -⟩
      rfl
  next h =>
    constructor
    · intro heq
      cases heq
    · rintro ⟨hne, hdigits, rfl, hle⟩
      exact absurd (by simp [hne, hdigits, hle]) h

/-- What may stand before the digits of a number. -/
def signs : List Text := [[], [plus]]

/-- A signed number is a number, with or without a plus sign before it. -/
theorem signedNumber?_eq_some_iff :
    signedNumber? limit t = some n ↔
      ∃ sign ∈ signs, ∃ digits, t = sign ++ digits ∧ number? limit digits = some n := by
  constructor
  · intro h
    unfold signedNumber? at h
    split at h
    next digits => exact ⟨[plus], by decide, digits, rfl, h⟩
    next => exact ⟨[], by decide, t, rfl, h⟩
  · rintro ⟨sign, hsign, digits, rfl, h⟩
    simp only [signs, List.mem_cons, List.not_mem_nil, or_false] at hsign
    rcases hsign with rfl | rfl
    · -- Digits start with no plus sign.
      rw [List.nil_append, signedNumber?.eq_2]
      · exact h
      · rintro others rfl
        have hplus := (number?_eq_some_iff.1 h).2.1
        rw [List.all_cons, Bool.and_eq_true] at hplus
        exact absurd hplus.1 (by decide)
    · exact h

/-! ## 2. Cutting texts -/

instance (t : Text) (offset : Nat) : Decidable (IsBoundary t offset) :=
  inferInstanceAs (Decidable (_ ∧ _))

/-- The text before an offset, if a character starts or the text ends there. -/
def before? (t : Text) (offset : Nat) : Option Text :=
  if IsBoundary t offset then some (t.take offset) else none

end Text

/-- The text behind an offset.  It is a fault if no character starts there and the text does not end
there. -/
def Checked.behind (t : Text) (offset : Nat) : Except Fault Text :=
  if Text.IsBoundary t offset then .ok (t.drop offset) else .error .outOfBounds

namespace Text

variable {word s t rest : Text}

/-- What comes after ASCII characters in a text is a text. -/
theorem isUtf8_of_ascii_append (hs : ∀ o ∈ s, o ≤ 0x7f) (h : isUtf8 (s ++ rest) = true) :
    isUtf8 rest = true := by
  induction s with
  | nil => exact h
  | cons o s ih =>
    rw [List.forall_mem_cons] at hs
    have hcons := isUtf8_append_cons hs.1 [] (s ++ rest)
    rw [List.nil_append, ← List.cons_append, h] at hcons
    exact ih hs.2 (Bool.and_eq_true_iff.1 hcons.symm).2

theorem le_of_lower_le {o : UInt8} (h : lower o ≤ 0x7f) : o ≤ 0x7f := by
  unfold lower at h
  split at h
  next hcapital =>
    rw [Bool.and_eq_true, decide_eq_true_eq, decide_eq_true_eq] at hcapital
    exact UInt8.le_trans hcapital.2 (by decide)
  next => exact h

/-- A text that differs from an ASCII word in letter case only is ASCII too. -/
theorem ascii_of_sameIgnoringCase (hword : ∀ o ∈ word, lower o ≤ 0x7f)
    (h : sameIgnoringCase word t = true) : ∀ o ∈ t, o ≤ 0x7f := by
  intro o ho
  have hmem : lower o ∈ word.map lower :=
    sameIgnoringCase_iff.1 h ▸ List.mem_map_of_mem ho
  obtain ⟨o', ho', heq⟩ := List.mem_map.1 hmem
  exact le_of_lower_le (heq ▸ hword o' ho')

/-- Behind an ASCII word a character starts, or the text ends. -/
theorem isBoundary_of_after? (hword : ∀ o ∈ word, lower o ≤ 0x7f) (ht : isUtf8 t = true)
    (h : after? word t = some rest) : IsBoundary t word.length := by
  obtain ⟨front, hsame, rfl⟩ := after?_eq_some_iff.1 h
  have hlength : front.length = word.length := by
    simpa using (congrArg List.length (sameIgnoringCase_iff.1 hsame)).symm
  have hrest := isUtf8_of_ascii_append (ascii_of_sameIgnoringCase hword hsame) ht
  rw [IsBoundary, ← hlength, List.drop_left]
  exact ⟨by simp, head?_of_isUtf8 hrest⟩

end Text

/-! ## 3. Vocabularies -/

/-- The words for numbers of one kind: mnemonics, and a word that other numbers stand behind. -/
structure Vocabulary where
  mnemonics : List (Text × UInt16)
  word : Text

namespace Vocabulary

/-- A text names a number: it is a mnemonic, or the word with decimal digits behind it.  The case of
letters does not count, and neither do leading zeros. -/
inductive Names (v : Vocabulary) : Text → UInt16 → Prop
  | mnemonic {name t : Text} {n : UInt16} (listed : (name, n) ∈ v.mnemonics)
      (same : sameIgnoringCase name t = true) : Names v t n
  | numbered {front digits : Text} {n : UInt16} (same : sameIgnoringCase v.word front = true)
      (ne_nil : digits ≠ []) (all_digits : ∀ o ∈ digits, isDigit o = true)
      (value_eq : Text.value digits = n.toNat) : Names v (front ++ digits) n

/-- A text names a number but for a plus sign, which stands between the word and the digits. -/
inductive Signed (v : Vocabulary) : Text → UInt16 → Prop
  | numbered {front digits : Text} {n : UInt16} (same : sameIgnoringCase v.word front = true)
      (ne_nil : digits ≠ []) (all_digits : ∀ o ∈ digits, isDigit o = true)
      (value_eq : Text.value digits = n.toNat) : Signed v (front ++ Text.plus :: digits) n

/-- Why a text names no number. -/
inductive Flaw where
  | badNumber
  | unknown

def numberOf (digits : Text) : Except Flaw UInt16 :=
  match Text.signedNumber? 65535 digits with
  | some n => .ok (UInt16.ofNat n)
  | none => .error .badNumber

/-- The number that a text names.  A mnemonic is looked for first. -/
def read (v : Vocabulary) (t : Text) : Except Flaw UInt16 :=
  match v.mnemonics.find? fun entry => sameIgnoringCase entry.1 t with
  | some entry => .ok entry.2
  | none =>
    match Text.after? v.word t with
    | some digits => numberOf digits
    | none => .error .unknown

/-- The number that a text names, with the text cut where the word has its end. -/
def cut (v : Vocabulary) (t : Text) : Except Fault (Except Flaw UInt16) :=
  match v.mnemonics.find? fun entry => sameIgnoringCase entry.1 t with
  | some entry => .ok (.ok entry.2)
  | none =>
    if (Text.before? t v.word.length).any (sameIgnoringCase v.word) then
      (Checked.behind t v.word.length).map numberOf
    else
      .ok (.error .unknown)

/-- No two mnemonics for different numbers are the same, and none is the word with something behind
it. -/
structure Clear (v : Vocabulary) : Prop where
  distinct : ∀ entry ∈ v.mnemonics, ∀ other ∈ v.mnemonics,
    sameIgnoringCase entry.1 other.1 = true → entry.2 = other.2
  apart : ∀ entry ∈ v.mnemonics, Text.after? v.word entry.1 = none
  ascii : ∀ o ∈ v.word, lower o ≤ 0x7f

variable {v : Vocabulary} {t : Text} {n : UInt16}

theorem numberOf_eq_ok_iff {digits : Text} :
    numberOf digits = .ok n ↔ Text.signedNumber? 65535 digits = some n.toNat := by
  rw [numberOf]
  split
  next m hm =>
    obtain ⟨_, _, digits, rfl, hnumber⟩ := Text.signedNumber?_eq_some_iff.1 hm
    have hle := (Text.number?_eq_some_iff.1 hnumber).2.2.2
    -- The number is within 16 bits, so nothing of it is lost.
    have hm' : (UInt16.ofNat m).toNat = m := UInt16.toNat_ofNat_of_lt' (by show m < 65536; omega)
    rw [hm]
    constructor
    · intro h
      cases h
      rw [hm']
    · intro h
      rw [Option.some.inj h, UInt16.ofNat_toNat]
  next hnone =>
    rw [hnone]
    exact ⟨fun h => (nomatch h), fun h => (nomatch h)⟩

/-- What stands behind the word is a sign and the digits of a number. -/
theorem numberOf_eq_ok_iff_exists {digits : Text} :
    numberOf digits = .ok n ↔ ∃ sign ∈ Text.signs, ∃ others, digits = sign ++ others ∧
      others ≠ [] ∧ (∀ o ∈ others, isDigit o = true) ∧ Text.value others = n.toNat := by
  have hn := n.toNat_lt
  rw [numberOf_eq_ok_iff, Text.signedNumber?_eq_some_iff]
  simp only [Text.number?_eq_some_iff, List.all_eq_true]
  constructor
  · rintro ⟨sign, hsign, others, rfl, hne, hdigits, hvalue, -⟩
    exact ⟨sign, hsign, others, rfl, hne, hdigits, hvalue⟩
  · rintro ⟨sign, hsign, others, rfl, hne, hdigits, hvalue⟩
    exact ⟨sign, hsign, others, rfl, hne, hdigits, hvalue, by omega⟩

theorem mem_and_same_of_find? {entry : Text × UInt16}
    (h : (v.mnemonics.find? fun entry => sameIgnoringCase entry.1 t) = some entry) :
    entry ∈ v.mnemonics ∧ sameIgnoringCase entry.1 t = true :=
  ⟨List.mem_of_find?_eq_some h,
    List.find?_some (p := fun entry : Text × UInt16 => sameIgnoringCase entry.1 t) h⟩

theorem read_of_same (h : v.Clear) {name : Text} (hname : (name, n) ∈ v.mnemonics)
    (hsame : sameIgnoringCase name t = true) : v.read t = .ok n := by
  rw [read]
  split
  next entry hfound =>
    -- The mnemonic that is found is the same as this one, so it has the same number.
    obtain ⟨hmem, hentry⟩ := mem_and_same_of_find? hfound
    rw [Text.sameIgnoringCase_iff] at hentry hsame
    have hboth : sameIgnoringCase entry.1 name = true :=
      Text.sameIgnoringCase_iff.2 (hentry.trans hsame.symm)
    exact congrArg _ (h.distinct _ hmem _ hname hboth)
  next hnone => exact absurd hsame (List.find?_eq_none.1 hnone _ hname)

theorem read_of_after? (h : v.Clear) {digits : Text} (hafter : Text.after? v.word t = some digits) :
    v.read t = numberOf digits := by
  rw [read]
  split
  next entry hfound =>
    -- A mnemonic with something behind the word would be the same as the text, and there is none.
    obtain ⟨hmem, hsame⟩ := mem_and_same_of_find? hfound
    have hnone := h.apart _ hmem
    rw [Text.after?_eq_none_congr hsame, hafter] at hnone
    cases hnone
  next => rw [hafter]

/-- A text that is read names a number, but that there may be a sign in it. -/
theorem names_or_signed_of_read (h : v.read t = .ok n) : v.Names t n ∨ v.Signed t n := by
  rw [read] at h
  split at h
  next entry hfound =>
    cases h
    obtain ⟨hmem, hsame⟩ := mem_and_same_of_find? hfound
    exact .inl (.mnemonic hmem hsame)
  next =>
    split at h
    next digits hafter =>
      obtain ⟨front, hsame, rfl⟩ := Text.after?_eq_some_iff.1 hafter
      obtain ⟨sign, hsign, others, rfl, hne, hdigits, hvalue⟩ := numberOf_eq_ok_iff_exists.1 h
      rcases List.mem_pair.1 hsign with rfl | rfl
      · exact .inl (.numbered hsame hne hdigits hvalue)
      · exact .inr (.numbered hsame hne hdigits hvalue)
    next => cases h

/-- The texts that are read are those that name a number, and those that do but for a sign. -/
theorem read_eq_ok_iff (h : v.Clear) : v.read t = .ok n ↔ v.Names t n ∨ v.Signed t n := by
  constructor
  · exact names_or_signed_of_read
  · rintro (hnames | hsigned)
    · cases hnames with
      | mnemonic listed same => exact read_of_same h listed same
      | @numbered front digits _ same ne_nil all_digits value_eq =>
        rw [read_of_after? h (Text.after?_eq_some_iff.2 ⟨front, same, rfl⟩),
          numberOf_eq_ok_iff_exists]
        exact ⟨[], List.mem_cons_self, digits, rfl, ne_nil, all_digits, value_eq⟩
    · cases hsigned with
      | @numbered front digits _ same ne_nil all_digits value_eq =>
        rw [read_of_after? h (Text.after?_eq_some_iff.2 ⟨front, same, rfl⟩),
          numberOf_eq_ok_iff_exists]
        exact ⟨[Text.plus], List.mem_cons_of_mem _ List.mem_cons_self, digits, rfl, ne_nil,
          all_digits, value_eq⟩

/-- A text with a sign behind the word names no number: a mnemonic is never the word with something
behind it, and a sign is no digit. -/
theorem Signed.not_names (h : v.Clear) (hsigned : v.Signed t n) (m : UInt16) : ¬ v.Names t m := by
  intro hnames
  have hafter : ∃ digits, Text.after? v.word t = some (Text.plus :: digits) := by
    cases hsigned with
    | numbered same => exact ⟨_, Text.after?_eq_some_iff.2 ⟨_, same, rfl⟩⟩
  obtain ⟨digits, hafter⟩ := hafter
  cases hnames with
  | mnemonic listed same =>
    have hnone := h.apart _ listed
    rw [Text.after?_eq_none_congr same, hafter] at hnone
    cases hnone
  -- The same word stands in front both times, so the plus sign would have to be a digit.
  | numbered same _ all_digits _ =>
    rw [Text.after?_eq_some_iff.2 ⟨_, same, rfl⟩] at hafter
    have hplus := all_digits Text.plus (Option.some.inj hafter ▸ List.mem_cons_self)
    exact absurd hplus (by decide)

/-- Without a sign a text is read exactly if it names a number, and with one it is not so. -/
theorem names_or_signed_iff_names {α : Type} {f : UInt16 → α} (h : v.Clear) :
    (∀ a, (∃ n, (v.Names t n ∨ v.Signed t n) ∧ a = f n) ↔ ∃ n, v.Names t n ∧ a = f n) ↔
      ¬ ∃ n, v.Signed t n := by
  constructor
  · rintro hall ⟨n, hsigned⟩
    -- The text is read, so it would have to name a number without the sign as well.
    obtain ⟨m, hnames, -⟩ := (hall (f n)).1 ⟨n, .inr hsigned, rfl⟩
    exact hsigned.not_names h m hnames
  · intro hnone a
    have hor : ∀ n, v.Names t n ∨ v.Signed t n ↔ v.Names t n :=
      fun n => or_iff_left fun hsigned => hnone ⟨n, hsigned⟩
    simp only [hor]

/-- A text is never cut inside a character, so cutting it is no fault. -/
theorem cut_eq (h : v.Clear) (ht : isUtf8 t = true) : v.cut t = .ok (v.read t) := by
  rw [cut, read]
  split
  next => rfl
  next =>
    by_cases hboundary : Text.IsBoundary t v.word.length
    · rw [Text.before?, if_pos hboundary, Checked.behind, if_pos hboundary, Option.any_some,
        Text.after?]
      split
      next => rfl
      next => rfl
    -- Where no character starts, the word cannot have its end.
    · rw [Text.before?, if_neg hboundary]
      cases hafter : Text.after? v.word t with
      | none => rfl
      | some digits => exact absurd (Text.isBoundary_of_after? h.ascii ht hafter) hboundary

/-- Mnemonics that are told from other data are looked for in that data. -/
theorem read_of_map {α : Type} {entries : List α} {name : α → Text} {number : α → UInt16}
    (h : v.mnemonics = entries.map fun a => (name a, number a)) (t : Text) :
    v.read t = match entries.find? fun a => sameIgnoringCase (name a) t with
      | some a => .ok (number a)
      | none =>
        match Text.after? v.word t with
        | some digits => numberOf digits
        | none => .error .unknown := by
  rw [read, h, List.find?_map, Function.comp_def]
  cases entries.find? fun a => sameIgnoringCase (name a) t <;> rfl

theorem ok_of_read_iff {ε α : Type} {f : UInt16 → α} {g : Flaw → ε} (h : v.Clear) {a : α} :
    ((v.read t).map f).mapError g = .ok a ↔ ∃ n, (v.Names t n ∨ v.Signed t n) ∧ a = f n := by
  simp only [← read_eq_ok_iff h]
  cases v.read t with
  | error flaw => exact ⟨fun heq => (nomatch heq), fun ⟨_, heq, _⟩ => (nomatch heq)⟩
  | ok n =>
    constructor
    · intro heq
      cases heq
      exact ⟨n, rfl, rfl⟩
    · rintro ⟨m, heq, rfl⟩
      cases heq
      rfl

end Vocabulary

/-! ## 4. Types and classes -/

namespace RecordType

def vocabulary : Vocabulary where
  mnemonics := [("A", 1), ("NS", 2), ("CNAME", 5), ("SOA", 6), ("PTR", 12), ("MX", 15), ("TXT", 16),
    ("ANY", 255), ("*", 255)].map fun entry => (Text.ofString entry.1, entry.2)
  word := Text.ofString "TYPE"

def Error.ofFlaw : Vocabulary.Flaw → Error
  | .badNumber => .badNumber
  | .unknown => .unknown

/-- The type that a text names, with the text cut where the word has its end. -/
def cut (t : Text) : Except Fault (Except Error RecordType) :=
  (vocabulary.cut t).map fun result => (result.map ofNumber).mapError Error.ofFlaw

theorem clear_vocabulary : vocabulary.Clear :=
  ⟨by decide +kernel, by decide +kernel, by decide +kernel⟩

theorem ofText_eq_read (t : Text) :
    ofText t = ((vocabulary.read t).map ofNumber).mapError Error.ofFlaw := by
  have hmnemonics : vocabulary.mnemonics = named.map fun entry => (entry.1, entry.2.number) := by
    decide +kernel
  have hnumber : ∀ entry ∈ named, ofNumber entry.2.number = entry.2 := by decide +kernel
  have hword : vocabulary.word = Text.ofString "TYPE" := rfl
  rw [ofText, Vocabulary.read_of_map hmnemonics, hword]
  cases hfound : named.find? fun entry => sameIgnoringCase entry.1 t with
  | some entry => exact congrArg _ (hnumber _ (List.mem_of_find?_eq_some hfound)).symm
  | none =>
    cases Text.after? (Text.ofString "TYPE") t with
    | none => rfl
    | some digits =>
      simp only [Vocabulary.numberOf]
      cases Text.signedNumber? 65535 digits <;> rfl

theorem ofText_eq_ok_iff {t : Text} {rtype : RecordType} :
    ofText t = .ok rtype ↔
      ∃ n, (vocabulary.Names t n ∨ vocabulary.Signed t n) ∧ rtype = ofNumber n := by
  rw [ofText_eq_read, Vocabulary.ok_of_read_iff clear_vocabulary]

theorem cut_eq {t : Text} (ht : isUtf8 t = true) : cut t = .ok (ofText t) := by
  rw [cut, Vocabulary.cut_eq clear_vocabulary ht, ofText_eq_read]
  rfl

end RecordType

namespace RecordClass

def vocabulary : Vocabulary where
  mnemonics := [("IN", 1), ("CS", 2), ("CH", 3), ("HS", 4), ("ANY", 255)].map fun entry =>
    (Text.ofString entry.1, entry.2)
  word := Text.ofString "CLASS"

def Error.ofFlaw : Vocabulary.Flaw → Error
  | .badNumber => .badNumber
  | .unknown => .unknown

/-- The class that a text names, with the text cut where the word has its end. -/
def cut (t : Text) : Except Fault (Except Error RecordClass) :=
  (vocabulary.cut t).map fun result => (result.map ofNumber).mapError Error.ofFlaw

theorem clear_vocabulary : vocabulary.Clear :=
  ⟨by decide +kernel, by decide +kernel, by decide +kernel⟩

theorem ofText_eq_read (t : Text) :
    ofText t = ((vocabulary.read t).map ofNumber).mapError Error.ofFlaw := by
  have hmnemonics : vocabulary.mnemonics = named.map fun c => (c.text, c.number) := by
    decide +kernel
  have hnumber : ∀ c ∈ named, ofNumber c.number = c := by decide +kernel
  have hword : vocabulary.word = Text.ofString "CLASS" := rfl
  rw [ofText, Vocabulary.read_of_map hmnemonics, hword]
  cases hfound : named.find? fun c => sameIgnoringCase c.text t with
  | some c => exact congrArg _ (hnumber _ (List.mem_of_find?_eq_some hfound)).symm
  | none =>
    cases Text.after? (Text.ofString "CLASS") t with
    | none => rfl
    | some digits =>
      simp only [Vocabulary.numberOf]
      cases Text.signedNumber? 65535 digits <;> rfl

theorem ofText_eq_ok_iff {t : Text} {c : RecordClass} :
    ofText t = .ok c ↔
      ∃ n, (vocabulary.Names t n ∨ vocabulary.Signed t n) ∧ c = ofNumber n := by
  rw [ofText_eq_read, Vocabulary.ok_of_read_iff clear_vocabulary]

theorem cut_eq {t : Text} (ht : isUtf8 t = true) : cut t = .ok (ofText t) := by
  rw [cut, Vocabulary.cut_eq clear_vocabulary ht, ofText_eq_read]
  rfl

/-- The class of a line names the number 1. -/
theorem names_of_requireInternet {field : Text} (h : Record.requireInternet field = .ok ()) :
    vocabulary.Names field 1 ∨ vocabulary.Signed field 1 := by
  unfold Record.requireInternet at h
  split at h
  next hclass =>
    obtain ⟨n, hnames, hn⟩ := ofText_eq_ok_iff.1 hclass
    have hnumber : n = 1 := by rw [← number_ofNumber n, ← hn, number]
    rwa [← hnumber]
  next => cases h

end RecordClass

namespace Vocabulary

/-! ## 5. The texts of types and classes -/

/-- The texts of types and classes are the words for their numbers, but that a plus sign may stand
before the digits; a text is taken as it should be exactly if it has no such sign.  The fields of a
line are these texts.  Cutting a text is never a fault. -/
theorem texts_are_words (strictness : Name.Strictness) (t : Text) :
    (∀ rtype : RecordType, RecordType.ofText t = .ok rtype ↔
      ∃ n, (RecordType.vocabulary.Names t n ∨ RecordType.vocabulary.Signed t n) ∧
        rtype = .ofNumber n) ∧
    ((∀ rtype : RecordType, RecordType.ofText t = .ok rtype ↔
      ∃ n, RecordType.vocabulary.Names t n ∧ rtype = .ofNumber n) ↔
        ¬ ∃ n, RecordType.vocabulary.Signed t n) ∧
    (∀ c : RecordClass, RecordClass.ofText t = .ok c ↔
      ∃ n, (RecordClass.vocabulary.Names t n ∨ RecordClass.vocabulary.Signed t n) ∧
        c = .ofNumber n) ∧
    ((∀ c : RecordClass, RecordClass.ofText t = .ok c ↔
      ∃ n, RecordClass.vocabulary.Names t n ∧ c = .ofNumber n) ↔
        ¬ ∃ n, RecordClass.vocabulary.Signed t n) ∧
    (∀ r : Record, Record.ofText strictness t = .ok r →
      ∃ p : Record.Parts, p.line = t ∧ p.Divided ∧ p.Reads strictness r ∧
        (∃ n, (RecordType.vocabulary.Names p.rtype n ∨ RecordType.vocabulary.Signed p.rtype n) ∧
          r.rtype = .ofNumber n) ∧
        (RecordClass.vocabulary.Names p.rclass 1 ∨ RecordClass.vocabulary.Signed p.rclass 1) ∧
        r.rclass = .ofNumber 1) ∧
    (isUtf8 t = true → RecordType.cut t = .ok (RecordType.ofText t) ∧
      RecordClass.cut t = .ok (RecordClass.ofText t)) := by
  refine ⟨fun _ => RecordType.ofText_eq_ok_iff, ?_, fun _ => RecordClass.ofText_eq_ok_iff, ?_, ?_,
    fun ht => ⟨RecordType.cut_eq ht, RecordClass.cut_eq ht⟩⟩
  · simp only [RecordType.ofText_eq_ok_iff]
    exact names_or_signed_iff_names RecordType.clear_vocabulary
  · simp only [RecordClass.ofText_eq_ok_iff]
    exact names_or_signed_iff_names RecordClass.clear_vocabulary
  · intro r h
    obtain ⟨p, hline, hp, hr⟩ := Record.exists_parts_of_ofText h
    exact ⟨p, hline, hp, hr, RecordType.ofText_eq_ok_iff.1 hr.rtype,
      RecordClass.names_of_requireInternet hr.class_internet, hr.rclass⟩

/-- A text in which the fourth octet is the first half of a character. -/
def brokenWord : Text := Text.ofString "TYPé1"

def wordyLine : Text := Text.ofString ". 60 Class00001 type+1 192.0.2.1"

def wordyRecord : Record := ⟨.root, .a, .internet, 60, [192, 0, 2, 1]⟩

theorem texts_are_words_example :
    (isUtf8 brokenWord = true ∧ ¬ Text.IsBoundary brokenWord 4 ∧
      RecordType.cut brokenWord = .ok (.error .unknown)) ∧
    Record.ofText .trailingDot wordyLine = .ok wordyRecord ∧
    ∃ p : Record.Parts, p.line = wordyLine ∧
      (∃ n, (RecordType.vocabulary.Names p.rtype n ∨ RecordType.vocabulary.Signed p.rtype n) ∧
        RecordType.a = .ofNumber n) ∧
      (RecordClass.vocabulary.Names p.rclass 1 ∨ RecordClass.vocabulary.Signed p.rclass 1) := by
  have hutf8 : isUtf8 brokenWord = true := by decide +kernel
  have hunknown : RecordType.ofText brokenWord = .error .unknown := by decide +kernel
  have hline : Record.ofText .trailingDot wordyLine = .ok wordyRecord := by decide +kernel
  obtain ⟨-, -, -, -, -, hcut⟩ := texts_are_words .trailingDot brokenWord
  obtain ⟨-, -, -, -, hfields, -⟩ := texts_are_words .trailingDot wordyLine
  obtain ⟨p, hp, -, -, htype, hclass, -⟩ := hfields _ hline
  refine ⟨⟨hutf8, by decide +kernel, ?_⟩, hline, p, hp, htype, hclass⟩
  rw [(hcut hutf8).1, hunknown]

/-- The word of a type with a plus sign and the digit 5. -/
def signedWord : Text := Text.ofString "TYPE+5"

/-- A text can be taken for a type with a sign where only digits should stand. -/
theorem sign_can_precede_digits :
    RecordType.ofText signedWord = .ok .cname ∧
      ¬ ∃ n, RecordType.vocabulary.Names signedWord n := by
  have hsigned : RecordType.vocabulary.Signed signedWord 5 := by
    -- The word, the sign, and the octet of the digit 5.
    rw [show signedWord = RecordType.vocabulary.word ++ Text.plus :: [0x35] by decide +kernel]
    exact .numbered (by decide +kernel) (by decide) (List.forall_mem_singleton.2 rfl) (by decide)
  constructor
  · decide +kernel
  · rintro ⟨n, hnames⟩
    exact hsigned.not_names RecordType.clear_vocabulary n hnames

end Vocabulary

end Nameserver

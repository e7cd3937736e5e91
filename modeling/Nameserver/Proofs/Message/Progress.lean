import Nameserver.Proofs.Message.Decoded
import Nameserver.Proofs.Message.Trailing
/-!
# How much a message takes

The counts in a header are whatever its sender wrote there.  But each entry takes some octets, also
one that is made of pointers, so what is read is bounded by what is received: the sections cannot
have more entries than there are octets for.
-/

namespace Nameserver

namespace Reader

variable {ε ε' α β : Type}

/-! ## 1. Readers that get further -/

/-- What the reader takes for a value is `n` octets or more. -/
def TakesAtLeast (n : Nat) (r : Reader ε α) : Prop :=
  ∀ input rest a, r input = .ok (a, rest) → rest.length + n ≤ input.length

theorem takesAtLeast_pure (a : α) : (pure a : Reader ε α).TakesAtLeast 0 := by
  intro input rest b h
  cases h
  exact Nat.le_refl _

theorem TakesAtLeast.bind {m n : Nat} {r : Reader ε α} {f : α → Reader ε β}
    (hr : r.TakesAtLeast m) (hf : ∀ a, (f a).TakesAtLeast n) :
    (r >>= f).TakesAtLeast (m + n) := by
  intro input rest b h
  obtain ⟨a, middle, hfirst, hsecond⟩ := bind_eq_ok_iff.1 h
  have hmiddle := hr _ _ _ hfirst
  have hrest := hf a _ _ _ hsecond
  omega

theorem TakesAtLeast.mapError {n : Nat} {r : Reader ε α} (h : r.TakesAtLeast n) (f : ε → ε') :
    (r.mapError f).TakesAtLeast n :=
  fun input rest a hread => h input rest a (mapError_eq_ok_iff.1 hread)

theorem TakesAtLeast.failingWith {n : Nat} {r : Reader ε α} (h : r.TakesAtLeast n) (e : ε') :
    (r.failingWith e).TakesAtLeast n := h.mapError fun _ => e

/-- So many values take so many times the octets. -/
theorem TakesAtLeast.count {n : Nat} {r : Reader ε α} (h : r.TakesAtLeast n) (k : Nat) :
    (r.count k).TakesAtLeast (n * k) := by
  induction k with
  | zero => exact takesAtLeast_pure []
  | succ k ih =>
    have hall := h.bind fun first => ih.bind fun others => takesAtLeast_pure (first :: others)
    rwa [Nat.add_zero, Nat.add_comm n] at hall

theorem takesAtLeast_uint16 : uint16.TakesAtLeast 2 := by
  intro input rest v h
  rw [uint16_eq_ok_iff.1 h, List.length_append, Octets.length_ofUInt16, Nat.add_comm]

theorem takesAtLeast_uint32 : uint32.TakesAtLeast 4 := by
  intro input rest v h
  rw [uint32_eq_ok_iff.1 h, List.length_append, Octets.length_ofUInt32, Nat.add_comm]

theorem takesAtLeast_octets (n : Nat) : (octets n).TakesAtLeast n := by
  intro input rest taken h
  obtain ⟨rfl, rfl⟩ := octets_eq_ok_iff.1 h
  rw [List.length_append, Nat.add_comm]

/-- A string of any length takes the two octets of its length. -/
theorem takesAtLeast_string16 : string16.TakesAtLeast 2 := by
  intro input rest data h
  obtain ⟨length, middle, hlength, hdata⟩ := bind_eq_ok_iff.1 h
  have hmiddle := takesAtLeast_uint16 _ _ _ hlength
  have hrest := takesAtLeast_octets _ _ _ _ hdata
  omega

/-! ## 2. Readers by their failures -/

/-- The reader has no other failures than these. -/
def FailsOnlyWith (p : ε → Prop) (r : Reader ε α) : Prop := ∀ input e, r input = .error e → p e

theorem failsOnlyWith_pure (p : ε → Prop) (a : α) : (pure a : Reader ε α).FailsOnlyWith p :=
  fun _ _ h => nomatch h

/-- Readers in sequence fail as one of them does. -/
theorem FailsOnlyWith.bind {p : ε → Prop} {r : Reader ε α} {f : α → Reader ε β}
    (hr : r.FailsOnlyWith p) (hf : ∀ a, (f a).FailsOnlyWith p) : (r >>= f).FailsOnlyWith p := by
  intro input e h
  have h : (r input >>= fun x => f x.1 x.2) = .error e := h
  cases hfirst : r input with
  | error e' =>
    rw [hfirst] at h
    cases h
    exact hr _ _ hfirst
  | ok x =>
    rw [hfirst] at h
    exact hf x.1 _ _ h

theorem failsOnlyWith_mapError {p : ε' → Prop} {f : ε → ε'} (hp : ∀ e, p (f e))
    (r : Reader ε α) : (r.mapError f).FailsOnlyWith p := by
  intro input e h
  rw [mapError] at h
  cases hread : r input with
  | error e' =>
    rw [hread] at h
    cases h
    exact hp e'
  | ok x =>
    rw [hread] at h
    cases h

theorem FailsOnlyWith.count {p : ε → Prop} {r : Reader ε α} (h : r.FailsOnlyWith p) (k : Nat) :
    (r.count k).FailsOnlyWith p := by
  induction k with
  | zero => exact failsOnlyWith_pure p []
  | succ k ih =>
    exact h.bind fun first => ih.bind fun others => failsOnlyWith_pure p (first :: others)

end Reader

/-! ## 3. Entries -/

/-- A spelling of a name has an octet, were it only for the null label. -/
theorem Name.Spells.one_le_length {table : PointerTable} {labels : List Label} {octets : Octets}
    (h : Spells table labels octets) : 1 ≤ octets.length := by
  cases h with
  | null => exact Nat.le_refl 1
  | label _ _ =>
    rw [List.length_append, Label.length_wire]
    omega
  -- A pointer has two octets.
  | pointer _ _ => exact Nat.le_succ 1

/-- A name takes an octet at least. -/
theorem Name.takesAtLeast_reader (table : PointerTable) : (reader table).TakesAtLeast 1 := by
  intro input rest n h
  obtain ⟨taken, rfl, hspells⟩ := spells_of_reader h
  have hpositive := hspells.one_le_length
  rw [List.length_append]
  omega

/-- A question takes a name and two numbers. -/
theorem Question.takesAtLeast_reader (table : PointerTable) : (reader table).TakesAtLeast 5 := by
  show Reader.TakesAtLeast (1 + (2 + (2 + 0))) _
  refine (Name.takesAtLeast_reader table).bind fun qname => ?_
  refine (Reader.takesAtLeast_uint16.failingWith _).bind fun qtype => ?_
  refine (Reader.takesAtLeast_uint16.failingWith _).bind fun qclass => ?_
  exact Reader.takesAtLeast_pure _

/-- A record takes a name, the numbers after it and the length of its data. -/
theorem Record.takesAtLeast_reader (table : PointerTable) : (reader table).TakesAtLeast 11 := by
  show Reader.TakesAtLeast (1 + (2 + (2 + (4 + (2 + 0))))) _
  refine (Name.takesAtLeast_reader table).bind fun owner => ?_
  refine (Reader.takesAtLeast_uint16.failingWith _).bind fun rtype => ?_
  refine (Reader.takesAtLeast_uint16.failingWith _).bind fun rclass => ?_
  refine (Reader.takesAtLeast_uint32.failingWith _).bind fun ttl => ?_
  refine (Reader.takesAtLeast_string16.failingWith _).bind fun data => ?_
  exact Reader.takesAtLeast_pure _

/-! ## 4. The header and the sections -/

namespace Message

/-- Numbers at the front are read one after another, or the header is too short for them. -/
theorem count_headerField (count : Nat) (octets : Octets) :
    (octets.length < 2 * count ∧ headerField.count count octets = .error .headerTooShort) ∨
      ∃ numbers rest, numbers.length = count ∧ octets = numbers.flatMap Octets.ofUInt16 ++ rest ∧
        headerField.count count octets = .ok (numbers, rest) := by
  -- Two octets go with each number, so what is short by a number is short at once.
  induction count generalizing octets with
  | zero => exact .inr ⟨[], octets, rfl, rfl, rfl⟩
  | succ count ih =>
    match octets with
    | [] | [_] =>
      refine .inl ⟨?_, rfl⟩
      simp only [List.length_cons, List.length_nil]
      omega
    | a :: b :: octets =>
      have hread : headerField.count (count + 1) (a :: b :: octets) =
          (headerField.count count octets).map fun p => (Octets.toUInt16 a b :: p.1, p.2) := by
        show (headerField.count count octets >>= fun p =>
          pure (Octets.toUInt16 a b :: p.1, p.2)) = _
        cases headerField.count count octets <;> rfl
      rw [hread]
      rcases ih octets with ⟨hshort, herror⟩ | ⟨numbers, rest, hlength, rfl, hok⟩
      · refine .inl ⟨?_, ?_⟩
        · simp only [List.length_cons]
          omega
        · rw [herror]
          rfl
      · refine .inr ⟨Octets.toUInt16 a b :: numbers, rest, congrArg (· + 1) hlength, ?_, ?_⟩
        · rw [List.flatMap_cons, Octets.ofUInt16_toUInt16]
          rfl
        · rw [hok]
          rfl

/-- The sections of a message, after the six numbers of its header. -/
def bodyReader (table : PointerTable) : List UInt16 → Reader DecodeError Message
  | [id, flags, questionCount, answerCount, authorityCount, additionalCount] => do
    let questions ←
      ((Question.reader table).mapError .invalidQuestion).count questionCount.toNat
    let answers ← sectionReader table answerCount
    let authorities ← sectionReader table authorityCount
    let additionals ← sectionReader table additionalCount
    return { Header.ofFlags id flags.toNat with questions, answers, authorities, additionals }
  | _ => throw .headerTooShort

/-- A message is six numbers and what they say of the rest. -/
theorem reader_eq (table : PointerTable) :
    reader table = headerField.count 6 >>= bodyReader table := by
  simp only [Reader.count, bind_assoc, pure_bind]
  rfl

/-- Either the octets are too few for a header, or what comes after the header decides. -/
theorem reader_cases (table : PointerTable) (octets : Octets) :
    (octets.length < 12 ∧ reader table octets = .error .headerTooShort) ∨
      ∃ numbers rest, numbers.length = 6 ∧ octets = numbers.flatMap Octets.ofUInt16 ++ rest ∧
        reader table octets = bodyReader table numbers rest := by
  have hread : reader table octets =
      (headerField.count 6 octets >>= fun p => bodyReader table p.1 p.2) := by
    rw [reader_eq]
    rfl
  rcases count_headerField 6 octets with ⟨hshort, herror⟩ | ⟨numbers, rest, hsix, rfl, hok⟩
  · rw [hread, herror]
    exact .inl ⟨hshort, rfl⟩
  · rw [hread, hok]
    exact .inr ⟨numbers, rest, hsix, rfl, rfl⟩

theorem length_flatMap_ofUInt16 (numbers : List UInt16) :
    (numbers.flatMap Octets.ofUInt16).length = 2 * numbers.length := by
  induction numbers with
  | nil => rfl
  | cons number numbers ih =>
    rw [List.flatMap_cons, List.length_append, ih, Octets.length_ofUInt16, List.length_cons]
    omega

/-- A question or a record that cannot be read. -/
def DecodeError.IsOfEntry (e : DecodeError) : Prop :=
  (∃ cause, e = .invalidQuestion cause) ∨ ∃ cause, e = .invalidRecord cause

/-- After the header only an entry can be wrong. -/
theorem failsOnlyWith_bodyReader (table : PointerTable) {numbers : List UInt16}
    (hsix : numbers.length = 6) :
    (bodyReader table numbers).FailsOnlyWith DecodeError.IsOfEntry := by
  have hquestion : ((Question.reader table).mapError DecodeError.invalidQuestion).FailsOnlyWith
      DecodeError.IsOfEntry := Reader.failsOnlyWith_mapError (fun e => .inl ⟨e, rfl⟩) _
  have hrecord : ((Record.reader table).mapError DecodeError.invalidRecord).FailsOnlyWith
      DecodeError.IsOfEntry := Reader.failsOnlyWith_mapError (fun e => .inr ⟨e, rfl⟩) _
  match numbers, hsix with
  | [_, _, _, _, _, _], _ =>
    refine (hquestion.count _).bind fun questions => ?_
    refine (hrecord.count _).bind fun answers => ?_
    refine (hrecord.count _).bind fun authorities => ?_
    refine (hrecord.count _).bind fun additionals => ?_
    exact Reader.failsOnlyWith_pure _ _

/-- The sections have as many entries as the header says, and take octets for each of them. -/
theorem length_of_bodyReader {table : PointerTable} {input rest : Octets} {m : Message}
    {id flags questionCount answerCount authorityCount additionalCount : UInt16}
    (h : bodyReader table [id, flags, questionCount, answerCount, authorityCount, additionalCount]
      input = .ok (m, rest)) :
    (m.questions.length = questionCount.toNat ∧ m.answers.length = answerCount.toNat ∧
      m.authorities.length = authorityCount.toNat ∧
      m.additionals.length = additionalCount.toNat) ∧
    rest.length + (5 * m.questions.length + 11 * m.records.length) ≤ input.length := by
  obtain ⟨questions, _, hquestions, h⟩ := Reader.bind_eq_ok_iff.1 h
  obtain ⟨answers, _, hanswers, h⟩ := Reader.bind_eq_ok_iff.1 h
  obtain ⟨authorities, _, hauthorities, h⟩ := Reader.bind_eq_ok_iff.1 h
  obtain ⟨additionals, _, hadditionals, h⟩ := Reader.bind_eq_ok_iff.1 h
  cases h
  have hlengths : questions.length = questionCount.toNat ∧ answers.length = answerCount.toNat ∧
      authorities.length = authorityCount.toNat ∧ additionals.length = additionalCount.toNat :=
    ⟨(Reader.of_count_eq_ok hquestions).1, (Reader.of_count_eq_ok hanswers).1,
      (Reader.of_count_eq_ok hauthorities).1, (Reader.of_count_eq_ok hadditionals).1⟩
  have hquestion :=
    ((Question.takesAtLeast_reader table).mapError DecodeError.invalidQuestion).count
  have hrecord := ((Record.takesAtLeast_reader table).mapError DecodeError.invalidRecord).count
  -- The four sections one after another, each from where the last one ended.
  have h₁ := hquestion _ _ _ _ hquestions
  have h₂ := hrecord _ _ _ _ hanswers
  have h₃ := hrecord _ _ _ _ hauthorities
  have h₄ := hrecord _ _ _ _ hadditionals
  refine ⟨hlengths, ?_⟩
  simp only [records, List.length_append, hlengths]
  omega

theorem decode_eq_error_iff {octets : Octets} {e : DecodeError} :
    decode octets = .error e ↔ reader (.ofMessage octets) octets = .error e := by
  rw [decode]
  cases reader (.ofMessage octets) octets with
  | error e' => exact ⟨fun h => by cases h; rfl, fun h => by cases h; rfl⟩
  | ok p =>
    constructor
    · intro h
      cases h
    · intro h
      cases h

/-- Octets that are too few for a header are no message. -/
theorem decode_of_lt {octets : Octets} (h : octets.length < 12) :
    decode octets = .error .headerTooShort := by
  rw [decode_eq_error_iff]
  rcases reader_cases (.ofMessage octets) octets with ⟨-, herror⟩ | ⟨numbers, rest, hsix, rfl, -⟩
  · exact herror
  · rw [List.length_append, length_flatMap_ofUInt16] at h
    omega

/-- Where there is a header, what is wrong is an entry. -/
theorem isOfEntry_of_decode {octets : Octets} {e : DecodeError} (hlong : 12 ≤ octets.length)
    (h : decode octets = .error e) : e.IsOfEntry := by
  rw [decode_eq_error_iff] at h
  rcases reader_cases (.ofMessage octets) octets with ⟨hshort, -⟩ | ⟨numbers, rest, hsix, -, hbody⟩
  · omega
  · rw [hbody] at h
    exact failsOnlyWith_bodyReader _ hsix _ _ h

end Message

/-! ## 5. What comes of any octets -/

/-- The number of 16 bits at an offset. -/
def Octets.uint16At? (octets : Octets) (offset : Nat) : Option UInt16 := do
  return toUInt16 (← octets[offset]?) (← octets[offset + 1]?)

/-- All that a name promises: it ends with its only null label, and its labels and all of it are
short enough for the wire. -/
structure Name.Sound (n : Name) : Prop where
  last : n.allLabels.getLast? = some Label.null
  others : ∀ l ∈ n.allLabels.dropLast, l ≠ Label.null
  label_le : ∀ l ∈ n.allLabels, l.length ≤ 63
  length_le : n.wire.length ≤ 255

/-- Every name is sound, because a name cannot be made otherwise. -/
theorem Name.sound (n : Name) : n.Sound where
  last := List.getLast?_concat
  others := by
    intro l hl
    rw [allLabels, List.dropLast_concat] at hl
    rintro rfl
    cases n.ne_null _ hl
  label_le l _ := l.length_le
  length_le := by
    rw [length_wire]
    exact n.wireLength_le

namespace Message

/-- The names that stand in a message by themselves. -/
def names (m : Message) : List Name := m.questions.map Question.qname ++ m.records.map Record.owner

/-- What a message has that was read from the first `length` of some octets. -/
structure ReadFrom (octets : Octets) (length : Nat) (m : Message) : Prop where
  entries_le : 12 + 5 * m.questions.length + 11 * m.records.length ≤ length
  length_le : length ≤ octets.length
  questions : (octets.uint16At? 4).map UInt16.toNat = some m.questions.length
  answers : (octets.uint16At? 6).map UInt16.toNat = some m.answers.length
  authorities : (octets.uint16At? 8).map UInt16.toNat = some m.authorities.length
  additionals : (octets.uint16At? 10).map UInt16.toNat = some m.additionals.length
  names : ∀ n ∈ m.names, n.Sound
  data_le : ∀ r ∈ m.records, r.data.length ≤ 65535
  opcode : m.opcode.number ≤ 15 ∧ Opcode.ofNumber? m.opcode.number = some m.opcode
  code : m.code.number ≤ 15 ∧ ResponseCode.ofNumber? m.code.number = some m.code

/-- What can come of some octets. -/
inductive Outcome (octets : Octets) : Except DecodeError (Message × Nat) → Prop
  | headerTooShort (short : octets.length < 12) : Outcome octets (.error .headerTooShort)
  | invalidQuestion (long : 12 ≤ octets.length) (cause : NameError) :
      Outcome octets (.error (.invalidQuestion cause))
  | invalidRecord (long : 12 ≤ octets.length) (cause : NameError) :
      Outcome octets (.error (.invalidRecord cause))
  | read (long : 12 ≤ octets.length) {m : Message} {length : Nat}
      (sound : m.ReadFrom octets length) : Outcome octets (.ok (m, length))

/-- A message that was decoded has the entries that its header counts, and no more than its octets
allow. -/
theorem readFrom_of_decode {octets : Octets} {m : Message} {length : Nat}
    (h : decode octets = .ok (m, length)) : m.ReadFrom octets length := by
  have hasRead := asRead_of_decode h
  obtain ⟨hopcode, hcode⟩ := Header.normalized_eq_iff.1
    (normalized_eq_self_iff.1 hasRead.normalized).1
  obtain ⟨taken, rest, hsplit, rfl, htakes⟩ := decode_eq_ok_iff.1 h
  have hread := htakes rest
  rw [← hsplit] at hread
  rcases reader_cases (.ofMessage octets) octets with ⟨-, herror⟩ |
    ⟨numbers, input, hsix, hoctets, hbody⟩
  · rw [herror] at hread
    cases hread
  -- The length that is reported is what was taken, the header with it.
  · have htotal : octets.length = taken.length + rest.length := by
      rw [hsplit, List.length_append]
    have hlength : octets.length = 12 + input.length := by
      rw [hoctets, List.length_append, length_flatMap_ofUInt16, hsix]
    rw [hbody] at hread
    match numbers, hsix with
    | [id, flags, questionCount, answerCount, authorityCount, additionalCount], _ =>
      obtain ⟨⟨hquestions, hanswers, hauthorities, hadditionals⟩, hbelow⟩ :=
        length_of_bodyReader hread
      -- Each count stands in the header, two octets after the one before it.
      obtain ⟨hq, han, hau, had⟩ : octets.uint16At? 4 = some questionCount ∧
          octets.uint16At? 6 = some answerCount ∧ octets.uint16At? 8 = some authorityCount ∧
          octets.uint16At? 10 = some additionalCount := by
        rw [hoctets]
        refine ⟨?_, ?_, ?_, ?_⟩ <;> exact congrArg some (Octets.toUInt16_ofUInt16 _)
      exact {
        entries_le := by omega
        length_le := by omega
        questions := by rw [hq, hquestions]; rfl
        answers := by rw [han, hanswers]; rfl
        authorities := by rw [hau, hauthorities]; rfl
        additionals := by rw [had, hadditionals]; rfl
        names := fun n _ => n.sound
        data_le := hasRead.fits.2
        opcode := ⟨hasRead.opcode, Opcode.ofNumber?_number hasRead.opcode hopcode⟩
        code := ⟨hasRead.code, ResponseCode.ofNumber?_number hasRead.code hcode⟩ }

/-- Whatever the octets, there is a message in them or something that is wrong with them. -/
theorem outcome_decode (octets : Octets) : Outcome octets (decode octets) := by
  by_cases hlong : 12 ≤ octets.length
  · cases hdecode : decode octets with
    | error e =>
      -- The header is whole, so it is a question or a record that went wrong.
      rcases isOfEntry_of_decode hlong hdecode with ⟨cause, rfl⟩ | ⟨cause, rfl⟩
      · exact .invalidQuestion hlong cause
      · exact .invalidRecord hlong cause
    | ok result => exact .read hlong (readFrom_of_decode hdecode)
  · have hshort : octets.length < 12 := Nat.lt_of_not_le hlong
    rw [decode_of_lt hshort]
    exact .headerTooShort hshort

/-- Only fewer than twelve octets are too few for a header. -/
theorem decode_eq_headerTooShort_iff {octets : Octets} :
    decode octets = .error .headerTooShort ↔ octets.length < 12 := by
  refine ⟨fun h => ?_, decode_of_lt⟩
  have houtcome := outcome_decode octets
  rw [h] at houtcome
  cases houtcome with
  | headerTooShort short => exact short

/-- A header that promises entries which never come. -/
example : decode [0, 7, 0, 0, 0xff, 0xff, 0xff, 0xff, 0, 0, 0, 0] =
    .error (.invalidQuestion .unexpectedEnd) := by
  decide +kernel

end Message

end Nameserver

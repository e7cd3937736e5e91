import Nameserver.Proofs.Message.Trailing
/-!
# Fronts of a message

The pointer table of some octets keeps all its names when more octets come after them.  So what is
read from the front of some octets is read from all of them, in the same places; only record data
may change, because a pointer in it may become good.
-/

namespace Nameserver

namespace Reader

variable {ε α β γ δ : Type}

/-! ## 1. Readers that read alike -/

/-- Where the first reader takes a value, the second one takes one that has the same view, and both
leave the same rest. -/
def Follows (view : α → γ) (r r' : Reader ε α) : Prop :=
  ∀ input rest a, r input = .ok (a, rest) → ∃ b, r' input = .ok (b, rest) ∧ view b = view a

theorem follows_refl (view : α → γ) (r : Reader ε α) : Follows view r r :=
  fun _ _ a h => ⟨a, h, rfl⟩

theorem follows_pure {view : α → γ} {a b : α} (h : view b = view a) :
    Follows view (pure a : Reader ε α) (pure b) := by
  intro input rest c hread
  cases hread
  exact ⟨b, rfl, h⟩

theorem Follows.bind {view : α → γ} {view' : β → δ} {r r' : Reader ε α} {f f' : α → Reader ε β}
    (hr : Follows view r r') (hf : ∀ a b, view b = view a → Follows view' (f a) (f' b)) :
    Follows view' (r >>= f) (r' >>= f') := by
  intro input rest c h
  obtain ⟨a, middle, hfirst, hsecond⟩ := bind_eq_ok_iff.1 h
  obtain ⟨b, hfirst', hview⟩ := hr _ _ _ hfirst
  obtain ⟨d, hsecond', hview'⟩ := hf a b hview _ _ _ hsecond
  exact ⟨d, bind_eq_ok_iff.2 ⟨b, middle, hfirst', hsecond'⟩, hview'⟩

/-- After a value that both readers take, they go on alike. -/
theorem Follows.bind_same {view : β → δ} {r r' : Reader ε α} {f f' : α → Reader ε β}
    (hr : Follows id r r') (hf : ∀ a, Follows view (f a) (f' a)) :
    Follows view (r >>= f) (r' >>= f') := by
  refine hr.bind fun a b hview => ?_
  cases hview
  exact hf a

theorem Follows.mapError {ε' : Type} {view : α → γ} {r r' : Reader ε α} (h : Follows view r r')
    (f : ε → ε') : Follows view (r.mapError f) (r'.mapError f) := by
  intro input rest a hread
  obtain ⟨b, hread', hview⟩ := h _ _ _ (mapError_eq_ok_iff.1 hread)
  exact ⟨b, mapError_eq_ok_iff.2 hread', hview⟩

theorem Follows.count {view : α → γ} {r r' : Reader ε α} (h : Follows view r r') (n : Nat) :
    Follows (List.map view) (r.count n) (r'.count n) := by
  induction n with
  | zero => exact follows_refl _ _
  | succ n ih =>
    refine h.bind fun first first' hfirst => ?_
    refine ih.bind fun others others' hothers => ?_
    exact follows_pure (by rw [List.map_cons, List.map_cons, hfirst, hothers])

end Reader

/-! ## 2. Tables of longer messages -/

/-- Every name of a table is in the other one at the same offset. -/
def PointerTable.Within (table larger : PointerTable) : Prop :=
  ∀ offset n, table.get? offset = some n → larger.get? offset = some n

namespace Name

/-- What is a spelling of labels with a table is one with every larger table. -/
theorem Spells.within {table larger : PointerTable} {labels : List Label} {octets : Octets}
    (h : Spells table labels octets) (hwithin : table.Within larger) :
    Spells larger labels octets := by
  induction h with
  | null => exact .null
  | label ne_null _ ih => exact .label ne_null ih
  | pointer small found => exact .pointer small (hwithin _ _ found)

/-- A name that a table lets read is read with every larger table. -/
theorem follows_reader {table larger : PointerTable} (h : table.Within larger) :
    Reader.Follows id (reader table) (reader larger) := by
  intro input rest n hread
  obtain ⟨taken, rfl, hspells⟩ := spells_of_reader hread
  exact ⟨n, takes_reader (hspells.within h) rest, rfl⟩

end Name

namespace PointerTable

/-- As the table of a front is built up, the table of the whole has all its names. -/
theorem within_upTo_append {front : Octets} {count : Nat} (h : count ≤ front.length)
    (tail : Octets) : (upTo front count).Within (upTo (front ++ tail) count) := by
  induction count with
  | zero => exact fun _ _ hfound => hfound
  | succ count ih =>
    have hbefore := ih (by omega)
    intro offset n hfound
    rw [upTo, get?_push, length_targets_upTo] at hfound ⊢
    by_cases hlast : offset = count
    · rw [if_pos hlast, toOption_map_fst_eq_some_iff] at hfound
      rw [if_pos hlast, toOption_map_fst_eq_some_iff, List.drop_append_of_le_length (by omega)]
      -- The name stands in the front, and what comes after it makes no difference.
      -- An entry of the table is a name that is read at its offset with the entries before it.
      obtain ⟨rest, hread⟩ := hfound
      obtain ⟨taken, hdrop, hspells⟩ := Name.spells_of_reader hread
      have htakes := Name.takes_reader (hspells.within hbefore) (rest ++ tail)
      rw [← List.append_assoc, ← hdrop] at htakes
      exact ⟨_, htakes⟩
    · rw [if_neg hlast] at hfound ⊢
      exact hbefore _ _ hfound

/-- Octets after a message take no name out of its table. -/
theorem within_ofMessage_append (front tail : Octets) :
    (ofMessage front).Within (ofMessage (front ++ tail)) := by
  intro offset n hfound
  have hlength : front.length ≤ (front ++ tail).length := by
    rw [List.length_append]
    omega
  have hmore := within_upTo_append (Nat.min_le_right maximum front.length) tail _ _ hfound
  rw [maximum, get?_upTo _ (Nat.min_le_left _ _), Name.chaseBelow?] at hmore
  rw [ofMessage, maximum, get?_upTo _ (Nat.min_le_left _ _), Name.chaseBelow?]
  -- The whole may have more offsets than the front, but loses none of them.
  split at hmore
  next hlt => rwa [if_pos ⟨by omega, hlt.2⟩]
  next => cases hmore

end PointerTable

/-! ## 3. Entries with a larger table -/

section

variable {table larger : PointerTable}

theorem Question.follows_reader (h : table.Within larger) :
    Reader.Follows id (reader table) (reader larger) := by
  refine (Name.follows_reader h).bind_same fun qname => ?_
  exact Reader.follows_refl _ _

/-- A record without its data. -/
def Record.outline (r : Record) : Record := { r with data := [] }

/-- With a larger table a record is read in the same place, and all of it but its data is the
same. -/
theorem Record.follows_reader (h : table.Within larger) :
    Reader.Follows outline (reader table) (reader larger) := by
  refine (Name.follows_reader h).bind_same fun owner => ?_
  refine (Reader.follows_refl _ _).bind_same fun rtype => ?_
  refine (Reader.follows_refl _ _).bind_same fun rclass => ?_
  refine (Reader.follows_refl _ _).bind_same fun ttl => ?_
  refine (Reader.follows_refl _ _).bind_same fun data => ?_
  exact Reader.follows_pure rfl

namespace Message

/-- A message without the data of its records. -/
def outline (m : Message) : Message :=
  { m with
    answers := m.answers.map Record.outline
    authorities := m.authorities.map Record.outline
    additionals := m.additionals.map Record.outline }

theorem follows_sectionReader (h : table.Within larger) (count : UInt16) :
    Reader.Follows (List.map Record.outline) (sectionReader table count)
      (sectionReader larger count) :=
  ((Record.follows_reader h).mapError _).count _

theorem follows_questions (h : table.Within larger) (count : Nat) :
    Reader.Follows id (((Question.reader table).mapError DecodeError.invalidQuestion).count count)
      (((Question.reader larger).mapError .invalidQuestion).count count) := by
  have hall := ((Question.follows_reader h).mapError DecodeError.invalidQuestion).count count
  rw [List.map_id_fun] at hall
  exact hall

/-- With a larger table a message is read in the same places, and all of it but the data of its
records is the same. -/
theorem follows_reader (h : table.Within larger) :
    Reader.Follows outline (reader table) (reader larger) := by
  have field : Reader.Follows id headerField headerField := Reader.follows_refl _ _
  refine field.bind_same fun id => field.bind_same fun flags => ?_
  refine field.bind_same fun questionCount => field.bind_same fun answerCount => ?_
  refine field.bind_same fun authorityCount => field.bind_same fun additionalCount => ?_
  -- The numbers and the questions are the same for both, the records only but for their data.
  refine (follows_questions h _).bind_same fun questions => ?_
  refine (follows_sectionReader h _).bind fun answers answers' hanswers => ?_
  refine (follows_sectionReader h _).bind fun authorities authorities' hauthorities => ?_
  refine (follows_sectionReader h _).bind fun additionals additionals' hadditionals => ?_
  refine Reader.follows_pure ?_
  rw [outline, outline, hanswers, hauthorities, hadditionals]

end Message

end

/-! ## 4. A front and the whole -/

namespace Message

variable {front octets : Octets} {m : Message} {length : Nat}

/-- A message at the front of some octets is the message of all of them, but for the data of its
records. -/
theorem exists_decode_append (h : decode front = .ok (m, length)) (tail : Octets) :
    ∃ m', decode (front ++ tail) = .ok (m', length) ∧ m'.outline = m.outline := by
  obtain ⟨taken, rest, rfl, rfl, htakes⟩ := decode_eq_ok_iff.1 h
  have hfollows := follows_reader (PointerTable.within_ofMessage_append (taken ++ rest) tail)
  obtain ⟨m', hread, houtline⟩ := hfollows _ _ _ (htakes (rest ++ tail))
  rw [← List.append_assoc] at hread
  refine ⟨m', ?_, houtline⟩
  rw [decode, hread]
  dsimp only
  simp only [List.length_append]
  rw [Nat.add_assoc, Nat.add_sub_cancel]

/-- The length of a message is at most that of the octets that it was read from. -/
theorem length_le_of_decode (h : decode octets = .ok (m, length)) : length ≤ octets.length := by
  obtain ⟨taken, rest, rfl, rfl, -⟩ := decode_eq_ok_iff.1 h
  rw [List.length_append]
  omega

/-- All fronts of some octets that hold a message hold it in as many octets as the whole. -/
theorem length_eq_of_prefix {m' : Message} {length' : Nat} (hfront : front <+: octets)
    (h : decode front = .ok (m', length')) (hwhole : decode octets = .ok (m, length)) :
    length' = length := by
  obtain ⟨tail, rfl⟩ := hfront
  obtain ⟨whole, hread, -⟩ := exists_decode_append h tail
  rw [hwhole] at hread
  cases hread
  rfl

/-- A message that is cut short is no message, and octets that still hold one hold it in the same
place. -/
theorem decode_take_eq_error (h : decode octets = .ok (m, length)) :
    (∀ k < length, ∃ e, decode (octets.take k) = .error e) ∧
      ∀ front m' length', front <+: octets → decode front = .ok (m', length') →
        length' = length := by
  have hlength : ∀ front m' length', front <+: octets → decode front = .ok (m', length') →
      length' = length := fun _ _ _ hfront hread => length_eq_of_prefix hfront hread h
  refine ⟨fun k hk => ?_, hlength⟩
  cases hcut : decode (octets.take k) with
  | error e => exact ⟨e, rfl⟩
  | ok result =>
    -- The cut octets would hold a message that is longer than they are.
    have hsame := hlength _ _ _ (List.take_prefix k octets) hcut
    have hle := length_le_of_decode hcut
    rw [List.length_take] at hle
    omega

/-- A record with the server of the root, whose name a pointer takes from what comes after the
message. -/
def danglingOctets : Octets :=
  [0, 7, 0, 0, 0, 0, 0, 1, 0, 0, 0, 0] ++ [0, 0, 2, 0, 1, 0, 0, 1, 0x2c, 0, 2, 0xc0, 25]

/-- That message with the data of its record. -/
def danglingMessage (data : Octets) : Message where
  id := 7
  answers := [⟨.root, .ns, .internet, 300, data⟩]

/-- By themselves these octets leave the pointer as it is. -/
theorem decode_danglingOctets : decode danglingOctets = .ok (danglingMessage [0xc0, 25], 25) := by
  decide +kernel

/-- With what comes after them the pointer stands for a name. -/
theorem decode_danglingOctets_append :
    decode (danglingOctets ++ [1, 0x61, 0]) = .ok (danglingMessage [1, 0x61, 0], 25) := by
  decide +kernel

/-- Of the octets that complete the pointer's name, those of the message still hold it. -/
theorem decode_take_danglingOctets :
    decode (danglingOctets ++ [1, 0x61, 0]) = .ok (danglingMessage [1, 0x61, 0], 25) ∧
      (∀ k < 25, ∃ e, decode ((danglingOctets ++ [1, 0x61, 0]).take k) = .error e) ∧
      ∀ front m length, front <+: danglingOctets ++ [1, 0x61, 0] →
        decode front = .ok (m, length) → length = 25 :=
  ⟨decode_danglingOctets_append, decode_take_eq_error decode_danglingOctets_append⟩

end Message

end Nameserver

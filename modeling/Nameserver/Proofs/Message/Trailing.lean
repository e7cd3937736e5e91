import Mathlib.Control.Monad.Basic
import Nameserver.Proofs.Message.Spelling
import Nameserver.Proofs.Name.Pointers
/-!
# Octets after a message

Reading a message takes its octets and leaves those after them, but the pointer table is made from
all octets received.  A name takes at most 256 octets, so the table is settled by the first 319
octets; within these, octets after the last entry can make a pointer good.
-/

namespace Nameserver

/-- What octets start with within a window, all octets start with that agree in the window. -/
theorem Octets.exists_append_of_take_eq {taken rest ys : Octets} {n : Nat}
    (hlength : taken.length ≤ n) (h : (taken ++ rest).take n = ys.take n) :
    ∃ after, ys = taken ++ after := by
  have hfront : taken <+: (taken ++ rest).take n :=
    List.prefix_take_iff.2 ⟨List.prefix_append _ _, hlength⟩
  rw [h] at hfront
  obtain ⟨after, hys⟩ := (List.prefix_take_iff.1 hfront).1
  exact ⟨after, hys.symm⟩

/-! ## 1. What is taken settles what is read -/

/-- What a name takes settles which name it is, whatever comes after it. -/
theorem Name.settled_reader (table : PointerTable) : (reader table).Settled := by
  intro octets rest n h
  obtain ⟨taken, hoctets, hspells⟩ := spells_of_reader h
  exact ⟨taken, hoctets, takes_reader hspells⟩

theorem Question.settled_reader (table : PointerTable) : (reader table).Settled := by
  refine (Name.settled_reader table).bind fun qname => ?_
  refine (Reader.settled_uint16.failingWith _).bind fun qtype => ?_
  refine (Reader.settled_uint16.failingWith _).bind fun qclass => ?_
  exact Reader.settled_pure _

theorem Record.settled_reader (table : PointerTable) : (reader table).Settled := by
  refine (Name.settled_reader table).bind fun owner => ?_
  refine (Reader.settled_uint16.failingWith _).bind fun rtype => ?_
  refine (Reader.settled_uint16.failingWith _).bind fun rclass => ?_
  refine (Reader.settled_uint32.failingWith _).bind fun ttl => ?_
  refine (Reader.settled_string16.failingWith _).bind fun data => ?_
  exact Reader.settled_pure _

namespace Message

theorem settled_sectionReader (table : PointerTable) (count : UInt16) :
    (sectionReader table count).Settled :=
  ((Record.settled_reader table).mapError _).count _

/-- What a message takes settles which message it is, with a table that stays the same. -/
theorem settled_reader (table : PointerTable) : (reader table).Settled := by
  have field : headerField.Settled := Reader.settled_uint16.failingWith _
  refine field.bind fun id => field.bind fun flags => ?_
  refine field.bind fun questionCount => field.bind fun answerCount => ?_
  refine field.bind fun authorityCount => field.bind fun additionalCount => ?_
  refine (((Question.settled_reader table).mapError _).count _).bind fun questions => ?_
  refine (settled_sectionReader table answerCount).bind fun answers => ?_
  refine (settled_sectionReader table authorityCount).bind fun authorities => ?_
  refine (settled_sectionReader table additionalCount).bind fun additionals => ?_
  exact Reader.settled_pure _

/-- A message is read just if some octets at the front are taken for it with the table of all. -/
theorem decode_eq_ok_iff {octets : Octets} {m : Message} {length : Nat} :
    decode octets = .ok (m, length) ↔
      ∃ taken rest, octets = taken ++ rest ∧ length = taken.length ∧
        (reader (.ofMessage octets)).Takes taken m := by
  constructor
  · intro h
    rw [decode] at h
    split at h
    next message rest hread =>
      cases h
      -- The length that is reported is that of what was taken.
      obtain ⟨taken, hoctets, htakes⟩ := settled_reader _ _ _ _ hread
      have hlength : octets.length = taken.length + rest.length := by
        rw [← List.length_append, ← hoctets]
      exact ⟨taken, rest, hoctets, by omega, htakes⟩
    next => cases h
  · rintro ⟨taken, rest, hoctets, rfl, htakes⟩
    have hread := htakes rest
    rw [← hoctets] at hread
    have hlength : octets.length - rest.length = taken.length := by
      rw [hoctets, List.length_append, Nat.add_sub_cancel]
    rw [decode, hread]
    dsimp only
    rw [hlength]

end Message

/-! ## 2. How far a table looks -/

namespace Name

variable {table : PointerTable}

/-- A spelling takes no more than the labels without pointers, but for one octet of a pointer. -/
theorem Spells.length_le {labels : List Label} {octets : Octets} (h : Spells table labels octets) :
    octets.length ≤ wireLengthOf labels + 1 := by
  induction h with
  | null => decide
  | @label l labels octets _ _ ih =>
    rw [List.length_append, Label.length_wire, wireLengthOf]
    omega
  -- A pointer takes one octet more than the root, the shortest name that it can stand for.
  | @pointer offset target _ _ =>
    have hpositive := target.one_le_wireLength
    rw [wireLength] at hpositive
    show 2 ≤ _
    omega

/-- The first 256 octets settle whether a name can be read, and which. -/
theorem exists_reader_of_take_eq {xs ys rest : Octets} {n : Name} (h : xs.take 256 = ys.take 256)
    (hread : reader table xs = .ok (n, rest)) : ∃ after, reader table ys = .ok (n, after) := by
  obtain ⟨taken, rfl, hspells⟩ := spells_of_reader hread
  -- A name has at most 255 octets, and one more if it ends with a pointer.
  have hlength : taken.length ≤ 256 := by
    have hle := hspells.length_le
    have hbound := n.wireLength_le
    omega
  obtain ⟨after, rfl⟩ := Octets.exists_append_of_take_eq hlength h
  exact ⟨after, takes_reader hspells after⟩

end Name

namespace PointerTable

variable {xs ys : Octets}

/-- The first 319 octets settle every entry of a table. -/
theorem upTo_congr (h : xs.take 319 = ys.take 319) {count : Nat} (hcount : count ≤ 64) :
    upTo xs count = upTo ys count := by
  induction count with
  | zero => rfl
  | succ count ih =>
    have hbefore := ih (by omega)
    -- The last name stands within the next 256 octets, and those end before the 319th.
    have hnear : (xs.drop count).take 256 = (ys.drop count).take 256 := by
      have hwindow := congrArg (fun octets => (octets.take (count + 256)).drop count) h
      simp only [List.take_take] at hwindow
      rw [Nat.min_eq_left (by omega)] at hwindow
      rw [List.take_drop, List.take_drop, hwindow]
    have hread : (Name.reader (upTo ys count) (xs.drop count)).toOption.map Prod.fst =
        (Name.reader (upTo ys count) (ys.drop count)).toOption.map Prod.fst := by
      apply Option.ext
      intro n
      rw [toOption_map_fst_eq_some_iff, toOption_map_fst_eq_some_iff]
      constructor
      · rintro ⟨rest, hxs⟩
        exact Name.exists_reader_of_take_eq hnear hxs
      · rintro ⟨rest, hys⟩
        exact Name.exists_reader_of_take_eq hnear.symm hys
    rw [upTo, upTo, hbefore, hread]

/-- The table of a message is made from its first 319 octets. -/
theorem ofMessage_congr (h : xs.take 319 = ys.take 319) : ofMessage xs = ofMessage ys := by
  have hlength := congrArg List.length h
  rw [List.length_take, List.length_take] at hlength
  have hcount : min maximum xs.length = min maximum ys.length := by
    rw [maximum]
    omega
  rw [ofMessage, ofMessage, hcount]
  exact upTo_congr h (Nat.min_le_left _ _)

end PointerTable

/-! ## 3. Octets after the last entry -/

namespace Message

/-- Octets that are neither taken nor among the first 319 make no difference. -/
theorem decode_of_take_eq {xs ys : Octets} {m : Message} {length : Nat}
    (h : decode xs = .ok (m, length))
    (hagree : ys.take (max length 319) = xs.take (max length 319)) :
    decode ys = .ok (m, length) := by
  have hfirst : xs.take 319 = ys.take 319 := by
    have hcut := congrArg (List.take 319) hagree
    rw [List.take_take, List.take_take, Nat.min_eq_left (Nat.le_max_right _ _)] at hcut
    exact hcut.symm
  -- The window holds all octets that are taken, and those that the table is made from.
  obtain ⟨taken, rest, rfl, rfl, htakes⟩ := decode_eq_ok_iff.1 h
  obtain ⟨after, rfl⟩ := Octets.exists_append_of_take_eq (Nat.le_max_left _ _) hagree.symm
  rw [PointerTable.ofMessage_congr hfirst] at htakes
  exact decode_eq_ok_iff.2 ⟨taken, after, rfl, rfl, htakes⟩

/-- A query for the addresses of `a.`, which names it by a pointer to what comes after the query. -/
def forwardOctets : Octets :=
  [0, 7, 0, 0, 0, 1, 0, 0, 0, 0, 0, 0] ++ [0xc0, 18, 0, 1, 0, 1]

def forwardMessage : Message where
  id := 7
  questions := [⟨exampleOwner, .a, .internet⟩]

/-- The query with that name after it, and so many octets that the last ones make no difference. -/
def longOctets (tail : Octets) : Octets :=
  forwardOctets ++ [1, 0x61] ++ List.replicate 300 0 ++ tail

/-- The query comes out the same whatever stands behind the first 319 octets. -/
theorem decode_of_take_eq_example :
    decode (longOctets [1, 2]) = .ok (forwardMessage, 18) ∧
      (longOctets [0xc0]).take (max 18 319) = (longOctets [1, 2]).take (max 18 319) ∧
      decode (longOctets [0xc0]) = .ok (forwardMessage, 18) := by
  have hread : decode (longOctets [1, 2]) = .ok (forwardMessage, 18) := by decide +kernel
  have hagree : (longOctets [0xc0]).take (max 18 319) = (longOctets [1, 2]).take (max 18 319) := by
    decide +kernel
  exact ⟨hread, hagree, decode_of_take_eq hread hagree⟩

/-- With the name after it the query is read. -/
theorem decode_forwardOctets_append :
    decode (forwardOctets ++ [1, 0x61, 0]) = .ok (forwardMessage, 18) := by
  decide +kernel

/-- Without the name after it the query has a pointer to nothing. -/
theorem decode_forwardOctets :
    decode forwardOctets = .error (.invalidQuestion .invalidPointer) := by
  decide +kernel

/-- Octets after the last entry can make a difference. -/
theorem trailing_octets_can_matter :
    ¬ ∀ (xs ys : Octets) (m : Message) (length : Nat), decode xs = .ok (m, length) →
      length ≤ ys.length → ys.take length = xs.take length → decode ys = .ok (m, length) := by
  intro h
  -- The name stands behind the 18 octets of the query.
  have hread := h _ forwardOctets _ _ decode_forwardOctets_append (by decide) rfl
  rw [decode_forwardOctets] at hread
  cases hread

/-- The name of a question can end in a pointer that leads forward. -/
theorem pointers_can_lead_forward :
    ¬ ∀ (octets : Octets) (m : Message) (length : Nat), decode octets = .ok (m, length) →
      m.questions ≠ [] → ∀ front offset rest,
        Name.literal? (octets.drop 12) = some (front, .pointer offset, rest) →
          offset < 12 + (front.flatMap Label.wire).length := by
  intro h
  have hlt := h _ _ _ decode_forwardOctets_append (by decide) [] 18 [0, 1, 0, 1, 1, 0x61, 0]
    (by decide +kernel)
  exact absurd hlt (by decide)

end Message

end Nameserver

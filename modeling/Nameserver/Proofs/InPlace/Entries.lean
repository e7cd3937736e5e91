import Nameserver.Proofs.InPlace.Name
/-!
# The entries of messages in place

Questions and records are taken and put part by part, and so are strings with their lengths.  Main
statement: for each of them, and for names, the parts come all or not at all.
-/

namespace Nameserver

open InPlace (Implements TakesWhole PutWhole Leads Tracks implements_octet implements_uint16
  implements_uint32 implements_string8 implements_string16 implements_pure implements_fail
  tracks_putOctets tracks_putUInt16 tracks_putUInt32 tracks_putString8 tracks_putString16)

/-! ## 1. Questions -/

namespace Question

/-- Takes a question, all of it or nothing. -/
def take (table : PointerTable) : InPlace NameError Question := InPlace.attempt do
  let qname ← Name.take table
  let qtype := RecordType.ofNumber (← InPlace.uint16.failingWith .unexpectedEnd)
  let qclass := RecordClass.ofNumber (← InPlace.uint16.failingWith .unexpectedEnd)
  return { qname, qtype, qclass }

/-- Puts a question, all of it or nothing. -/
def put (q : Question) : InPlace Truncated Unit := InPlace.reserving True q.wireLength do
  q.qname.put
  InPlace.putUInt16 q.qtype.number
  InPlace.putUInt16 q.qclass.number

/-- The parts of a question are taken in the order in which they are read. -/
theorem take_implements (table : PointerTable) : Implements (take table) (reader table) := by
  refine Implements.attempt ?_
  refine (Name.take_implements table).bind fun qname => ?_
  refine (implements_uint16.failingWith _).bind fun qtype => ?_
  refine (implements_uint16.failingWith _).bind fun qclass => ?_
  exact implements_pure _

theorem takesWhole_take (table : PointerTable) : TakesWhole (take table) (reader table) :=
  (take_implements table).takesWhole (takesAtLeast_reader table)

theorem tracks_put (q : Question) : Tracks q.put q.write :=
  ((q.qname.tracks_put).bind ((tracks_putUInt16 q.qtype.number).bind
    (tracks_putUInt16 q.qclass.number))).reserving True q.wireLength

theorem putWhole_put (q : Question) (p : Place) : PutWhole True p q.wire (q.put p) :=
  q.tracks_put.putWhole (fun _ w => q.write_eq_put w) q.length_wire p

end Question

/-! ## 2. Records -/

namespace Record

/-- Takes a record, all of it or nothing. -/
def take (table : PointerTable) : InPlace NameError Record := InPlace.attempt do
  let owner ← Name.take table
  let rtype := RecordType.ofNumber (← InPlace.uint16.failingWith .unexpectedEnd)
  let rclass := RecordClass.ofNumber (← InPlace.uint16.failingWith .unexpectedEnd)
  let ttl ← InPlace.uint32.failingWith .unexpectedEnd
  let data ← InPlace.string16.failingWith .unexpectedEnd
  return { owner, rtype, rclass, ttl, data := rtype.expand table data }

/-- Puts a record, all of it or nothing. -/
def put (r : Record) : InPlace Truncated Unit :=
  InPlace.reserving (r.data.length ≤ 65535) r.wireLength do
    r.owner.put
    InPlace.putUInt16 r.rtype.number
    InPlace.putUInt16 r.rclass.number
    InPlace.putUInt32 r.ttl
    InPlace.putUInt16 (UInt16.ofNat r.data.length)
    InPlace.putOctets r.data

theorem take_implements (table : PointerTable) : Implements (take table) (reader table) := by
  refine Implements.attempt ?_
  refine (Name.take_implements table).bind fun owner => ?_
  refine (implements_uint16.failingWith _).bind fun rtype => ?_
  refine (implements_uint16.failingWith _).bind fun rclass => ?_
  refine (implements_uint32.failingWith _).bind fun ttl => ?_
  refine (implements_string16.failingWith _).bind fun data => ?_
  exact implements_pure _

theorem takesWhole_take (table : PointerTable) : TakesWhole (take table) (reader table) :=
  (take_implements table).takesWhole (takesAtLeast_reader table)

theorem tracks_put (r : Record) : Tracks r.put r.write :=
  ((r.owner.tracks_put).bind ((tracks_putUInt16 r.rtype.number).bind
    ((tracks_putUInt16 r.rclass.number).bind ((tracks_putUInt32 r.ttl).bind
      ((tracks_putUInt16 (UInt16.ofNat r.data.length)).bind
        (tracks_putOctets r.data)))))).reserving (r.data.length ≤ 65535) r.wireLength

theorem putWhole_put (r : Record) (p : Place) :
    PutWhole (r.data.length ≤ 65535) p r.wire (r.put p) :=
  r.tracks_put.putWhole (fun fits w => write_eq_put fits w) r.length_wire p

end Record

/-! ## 3. Strings with their lengths -/

/-- A string after its length is put in one piece, if its length fits two octets. -/
theorem Writer.putString16_eq_put {xs : Octets} (h : xs.length ≤ 65535) (w : Writer) :
    w.putString16 xs = w.put (Octets.ofUInt16 (UInt16.ofNat xs.length) ++ xs) := by
  rw [putString16]
  by_cases hroom : w.hasRoom (2 + xs.length) = true
  · rw [if_pos (by simp [h, hroom])]
    exact put_bind_put w _ xs
  -- The check asks for room for the length and the string, and so does the one put of both.
  · rw [if_neg (by simp [hroom])]
    rw [hasRoom_iff] at hroom
    rw [put_of_lt (by rw [List.length_append, Octets.length_ofUInt16]; omega)]
    rfl

theorem Reader.takesAtLeast_octet : octet.TakesAtLeast 1 := by
  intro input rest o h
  match input with
  | _ :: after =>
    cases h
    exact Nat.le_refl _

/-- A string of any length takes the octet of its length. -/
theorem Reader.takesAtLeast_string8 : string8.TakesAtLeast 1 := by
  intro input rest data h
  obtain ⟨length, middle, hlength, hdata⟩ := bind_eq_ok_iff.1 h
  have hmiddle := takesAtLeast_octet _ _ _ hlength
  -- The octets of the string may be none.
  have hrest := takesAtLeast_octets _ _ _ _ hdata
  omega

namespace InPlace

theorem takesWhole_string8 : TakesWhole string8 Reader.string8 :=
  implements_string8.takesWhole Reader.takesAtLeast_string8

theorem takesWhole_string16 : TakesWhole string16 Reader.string16 :=
  implements_string16.takesWhole Reader.takesAtLeast_string16

/-- A string is put behind its length, unless it is too long or there is no room for both. -/
theorem putWhole_putString8 (xs : Octets) (p : Place) :
    PutWhole (xs.length ≤ 255) p (UInt8.ofNat xs.length :: xs) (putString8 xs p) :=
  (tracks_putString8 xs).putWhole (fun fits w => Writer.putString8_eq_put fits w)
    (Nat.add_comm _ _) p

theorem putWhole_putString16 (xs : Octets) (p : Place) :
    PutWhole (xs.length ≤ 65535) p (Octets.ofUInt16 (UInt16.ofNat xs.length) ++ xs)
      (putString16 xs p) :=
  (tracks_putString16 xs).putWhole (fun fits w => Writer.putString16_eq_put fits w)
    (List.length_append ..) p

/-! ## 4. Items of every kind -/

/-- What is put whole or not at all. -/
inductive Item where
  | name (n : Name)
  | question (q : Question)
  | record (r : Record)
  | string8 (xs : Octets)
  | string16 (xs : Octets)

namespace Item

/-- Puts an item in place. -/
def put : Item → InPlace Truncated Unit
  | name n => n.put
  | question q => q.put
  | record r => r.put
  | string8 xs => putString8 xs
  | string16 xs => putString16 xs

def write : Item → Writer → Except Truncated Writer
  | name n => n.write
  | question q => q.write
  | record r => r.write
  | string8 xs => Writer.putString8 xs
  | string16 xs => Writer.putString16 xs

def wire : Item → Octets
  | name n => n.wire
  | question q => q.wire
  | record r => r.wire
  | string8 xs => UInt8.ofNat xs.length :: xs
  | string16 xs => Octets.ofUInt16 (UInt16.ofNat xs.length) ++ xs

/-- How many octets an item takes. -/
def size : Item → Nat
  | name n => n.wireLength
  | question q => q.wireLength
  | record r => r.wireLength
  | string8 xs => 1 + xs.length
  | string16 xs => 2 + xs.length

/-- The length of a string or of a record's data fits the octets that there are for it. -/
def LengthFits : Item → Prop
  | name _ | question _ => True
  | record r => r.data.length ≤ 65535
  | string8 xs => xs.length ≤ 255
  | string16 xs => xs.length ≤ 65535

/-- An item takes as many octets as it says. -/
theorem length_wire (item : Item) : item.wire.length = item.size := by
  cases item with
  | name n => exact n.length_wire
  | question q => exact q.length_wire
  | record r => exact r.length_wire
  | string8 xs => exact Nat.add_comm _ _
  | string16 xs => exact List.length_append ..

theorem tracks_put (item : Item) : Tracks item.put item.write := by
  cases item with
  | name n => exact n.tracks_put
  | question q => exact q.tracks_put
  | record r => exact r.tracks_put
  | string8 xs => exact tracks_putString8 xs
  | string16 xs => exact tracks_putString16 xs

/-- Whatever the item is, it is put whole or not at all. -/
theorem putWhole_put (item : Item) (p : Place) :
    PutWhole item.LengthFits p item.wire (item.put p) := by
  cases item with
  | name n => exact n.putWhole_put p
  | question q => exact q.putWhole_put p
  | record r => exact r.putWhole_put p
  | string8 xs => exact putWhole_putString8 xs p
  | string16 xs => exact putWhole_putString16 xs p

end Item

/-- Items are put whole or not at all, and taken whole or not at all.  The steps in place do what
the writers and readers do. -/
theorem items_whole :
    (∀ (item : Item) (p : Place), item.wire.length = item.size ∧
      PutWhole item.LengthFits p item.wire (item.put p) ∧
      Leads (item.write p.writer) (item.put p)) ∧
    (∀ table : PointerTable, TakesWhole (Name.take table) (Name.reader table) ∧
      TakesWhole (Question.take table) (Question.reader table) ∧
      TakesWhole (Record.take table) (Record.reader table)) ∧
    TakesWhole string8 Reader.string8 ∧ TakesWhole string16 Reader.string16 := by
  refine ⟨fun item p => ⟨item.length_wire, item.putWhole_put p, ?_⟩, fun table => ⟨?_, ?_, ?_⟩,
    takesWhole_string8, takesWhole_string16⟩
  -- A step at a place is a step at the place of the writer there.
  · have hleads := item.tracks_put p.writer
    rwa [Place.ofWriter_writer] at hleads
  · exact Name.takesWhole_take table
  · exact Question.takesWhole_take table
  · exact Record.takesWhole_take table

end InPlace

end Nameserver

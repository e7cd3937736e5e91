import Nameserver.Proofs.InPlace.Entries
import Nameserver.Proofs.Message.Encoding
/-!
# Messages in place

A message is put into a buffer part by part, with no check of the whole size before.  Main
statement: the parts come through exactly if the message fits its numbers and the buffer, and then
the buffer holds the wire form of the message and behind it what it held before.
-/

namespace Nameserver.Message

open InPlace (Tracks Leads tracks_putUInt16)

/-! ## 1. Putting -/

/-- Puts how many entries a section has, if 16 bits hold the number. -/
def putCountInPlace (count : Nat) : InPlace Truncated Unit :=
  if count ≤ 65535 then InPlace.putUInt16 (UInt16.ofNat count) else InPlace.fail .truncated

def putParts (m : Message) : InPlace Truncated Unit := do
  InPlace.putUInt16 m.id
  InPlace.putUInt16 (UInt16.ofNat m.flags)
  putCountInPlace m.questions.length
  putCountInPlace m.answers.length
  putCountInPlace m.authorities.length
  putCountInPlace m.additionals.length
  m.questions.forM Question.put
  m.records.forM Record.put

def put (m : Message) : InPlace EncodeError Unit :=
  if m.opcode.number > 15 then InPlace.fail (.opcodeOutOfRange m.opcode.number)
  else if m.code.number > 15 then InPlace.fail (.codeOutOfRange m.code.number)
  else m.putParts.mapError fun _ => .truncated

theorem tracks_putCount (count : Nat) : Tracks (putCountInPlace count) (putCount count) := by
  intro w
  rw [putCountInPlace, putCount]
  split
  next => exact tracks_putUInt16 _ w
  next => exact .error _ _

theorem tracks_putParts (m : Message) : Tracks m.putParts m.writeParts := by
  refine (tracks_putUInt16 m.id).bind ?_
  refine (tracks_putUInt16 (UInt16.ofNat m.flags)).bind ?_
  refine (tracks_putCount m.questions.length).bind ?_
  refine (tracks_putCount m.answers.length).bind ?_
  refine (tracks_putCount m.authorities.length).bind ?_
  refine (tracks_putCount m.additionals.length).bind ?_
  exact (Tracks.forM Question.tracks_put).bind (Tracks.forM Record.tracks_put)

/-- In a buffer the parts come to what the message is written as. -/
theorem leads_put (m : Message) (buffer : Octets) :
    Leads (m.encode buffer) (m.put (Place.start buffer)) := by
  rw [encode, put]
  split
  next => exact .error _ _
  next =>
    split
    next => exact .error _ _
    next =>
      -- Both numbers fit four bits, so it depends on the parts alone.
      exact m.tracks_putParts.mapError (fun _ => EncodeError.truncated) (Writer.ofBuffer buffer)

/-! ## 2. What comes of it -/

/-- What can come of writing a message into a buffer.  The octets that are written are its wire
form, so what the buffer is and holds makes no difference to them. -/
inductive EncodeOutcome (m : Message) (buffer : Octets) : Except EncodeError Writer → Prop
  | opcodeOutOfRange (large : 15 < m.opcode.number) :
      EncodeOutcome m buffer (.error (.opcodeOutOfRange m.opcode.number))
  | codeOutOfRange (opcode : m.opcode.number ≤ 15) (large : 15 < m.code.number) :
      EncodeOutcome m buffer (.error (.codeOutOfRange m.code.number))
  | truncated (opcode : m.opcode.number ≤ 15) (code : m.code.number ≤ 15)
      (unfit : ¬ (m.Fits ∧ m.wireLength ≤ buffer.length)) :
      EncodeOutcome m buffer (.error .truncated)
  | written {w : Writer} (opcode : m.opcode.number ≤ 15) (code : m.code.number ≤ 15)
      (fits : m.Fits) (room : m.wireLength ≤ buffer.length) (position : w.position = m.wireLength)
      (size : w.buffer.length = buffer.length) (octets : w.buffer.take w.position = m.wire)
      (behind : w.buffer.drop w.position = buffer.drop w.position) :
      EncodeOutcome m buffer (.ok w)

/-- A message that is put at the front of a buffer leaves the rest of it alone. -/
theorem encodeOutcome_extend {m : Message} {buffer : Octets} (opcode : m.opcode.number ≤ 15)
    (code : m.code.number ≤ 15) (fits : m.Fits) (room : m.wireLength ≤ buffer.length) :
    m.EncodeOutcome buffer (.ok ((Writer.ofBuffer buffer).extend m.wire)) := by
  have hposition := Writer.position_extend_ofBuffer buffer m.wire
  have hbuffer := Writer.buffer_extend_ofBuffer buffer m.wire
  refine .written opcode code fits room (hposition.trans m.length_wire) ?_ ?_ ?_
  · rw [hbuffer, List.length_append, List.length_drop, m.length_wire]
    omega
  · rw [hbuffer, hposition, List.take_left]
  · rw [hbuffer, hposition, List.drop_left]

/-- A message is written exactly if its numbers fit their bits and it fits the buffer, and it is
written part by part. -/
theorem encode_outcome (m : Message) (buffer : Octets) :
    m.wireLength = 12 + (m.questions.map Question.wireLength).sum +
      (m.records.map Record.wireLength).sum ∧
    m.EncodeOutcome buffer (m.encode buffer) ∧
    Leads (m.encode buffer) (m.put (Place.start buffer)) := by
  refine ⟨m.wireLength_eq_sum, ?_, m.leads_put buffer⟩
  rw [encode_eq]
  -- The numbers are checked before anything is written, so their errors come first.
  split
  next large => exact .opcodeOutOfRange large
  next hopcode =>
    have opcode := UInt8.not_lt.1 hopcode
    split
    next large => exact .codeOutOfRange opcode large
    next hcode =>
      have code := UInt8.not_lt.1 hcode
      split
      next hfits => exact encodeOutcome_extend opcode code hfits.1 hfits.2
      next unfit => exact .truncated opcode code unfit

end Nameserver.Message

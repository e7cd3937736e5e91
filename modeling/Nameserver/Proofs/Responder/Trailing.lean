import Nameserver.Responder
import Nameserver.Proofs.Message.Front
/-!
# Octets after a query

Octets after a query can complete a pointer in its records, and so change their data.  The response
depends on the header, the questions and the numbers of records alone, which stay as they are.
-/

namespace Nameserver

namespace Message

theorem question_outline (m : Message) : m.outline.question = m.question := by
  simp only [question, outline, List.isEmpty_map]

/-- What a message asks does not depend on the data of its records. -/
theorem question_congr {a b : Message} (h : a.outline = b.outline) : a.question = b.question := by
  rw [← question_outline, h, question_outline]

theorem toHeader_congr {a b : Message} (h : a.outline = b.outline) : a.toHeader = b.toHeader := by
  show a.outline.toHeader = b.outline.toHeader
  rw [h]

theorem response_congr {a b : Message} (h : a.outline = b.outline) : a.response = b.response := by
  rw [response, response, toHeader_congr h]

end Message

namespace Responder

variable {zone : DomainTree} {source : SocketAddress} {buffer datagram : Octets}
  {query query' : Message}

/-- The response to a query does not depend on the data of its records. -/
theorem respond_congr (h : query.outline = query'.outline) :
    respond zone source query = respond zone source query' := by
  rw [respond, respond, Message.question_congr h, Message.response_congr h]

/-- Octets after a message that takes all of a datagram do not change the response, whatever the
message is. -/
theorem handle_append (h : Message.decode datagram = .ok (query, datagram.length)) (tail : Octets) :
    (handle zone source buffer (datagram ++ tail)).map Logged.value =
      (handle zone source buffer datagram).map Logged.value := by
  obtain ⟨whole, hwhole, houtline⟩ := Message.exists_decode_append h tail
  -- The flags that say whether it is a query are part of the outline.
  have hkind : whole.isResponse = query.isResponse :=
    congrArg Header.isResponse (Message.toHeader_congr houtline)
  have hresponse : respond zone source whole = respond zone source query := respond_congr houtline
  rw [handle, handle, h, hwhole]
  dsimp only
  rw [hkind, hresponse]
  -- What is left of the difference is in the log.
  split
  next => rfl
  next => split <;> rfl

/-- The message whose record gets other data from the octets after it is rejected as before. -/
theorem handle_danglingOctets_append :
    Message.decode Message.danglingOctets =
        .ok (Message.danglingMessage [0xc0, 25], Message.danglingOctets.length) ∧
      (handle .empty ⟨.v4 192 0 2 1, 53, 0⟩ (List.replicate 512 0)
          (Message.danglingOctets ++ [1, 0x61, 0])).map Logged.value =
        (handle .empty ⟨.v4 192 0 2 1, 53, 0⟩ (List.replicate 512 0)
          Message.danglingOctets).map Logged.value :=
  ⟨Message.decode_danglingOctets, handle_append Message.decode_danglingOctets _⟩

end Responder

end Nameserver

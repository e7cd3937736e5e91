import Nameserver.Address
import Nameserver.Message.Wire
import Nameserver.Zone.Answer
/-!
# Responding to datagrams

A datagram that holds a query gets one response of at most 512 octets, or none.  Queries that this
library does not answer are rejected with a response code: only standard queries with one question
and no records are answered.
-/

namespace Nameserver

/-- The largest message that a datagram may carry. -/
def maximumDatagram : Nat := 512

/-- Why a query is rejected. -/
inductive Rejection where
  | opcode
  | noQuestion
  | severalQuestions
  | answers
  | authorities
  | additionals
  deriving DecidableEq, Repr

namespace Rejection

def reason : Rejection → String
  | opcode => "opcode is not QUERY"
  | noQuestion => "no questions in question section"
  | severalQuestions => "multiple questions in question section"
  | answers => "records in answer section"
  | authorities => "records in authority section"
  | additionals => "records in additional section (perhaps EDNS?)"

def code : Rejection → ResponseCode
  | opcode => .notImplemented
  | _ => .formatError

end Rejection

/-- The question of a query that can be answered, or why it is rejected. -/
def Message.question (query : Message) : Except Rejection Question :=
  if query.opcode ≠ .query then .error .opcode
  else
    match query.questions with
    | [] => .error .noQuestion
    | [q] =>
      if !query.answers.isEmpty then .error .answers
      else if !query.authorities.isEmpty then .error .authorities
      else if !query.additionals.isEmpty then .error .additionals
      else .ok q
    | _ => .error .severalQuestions

namespace Responder

/-- The error of a buffer that is shorter than a response may be. -/
inductive BufferError where
  | tooSmall
  deriving DecidableEq, Repr

def BufferError.message : BufferError → String
  | tooSmall => "the response buffer is not large enough"

/-- A response: how many octets of the buffer it takes, and the whole buffer. -/
structure Response where
  length : Nat
  buffer : Octets
  deriving DecidableEq, Repr

def Response.octets (r : Response) : Octets := r.buffer.take r.length

/-- The response to a query, before it is encoded. -/
def respond (zone : DomainTree) (source : SocketAddress) (query : Message) : Logged Message :=
  match query.question with
  | .ok q => zone.answer q query.response
  | .error rejection =>
    ⟨query.response.withCode rejection.code,
      [⟨.debug, "Rejecting message from " ++ source.text ++ ": " ++ rejection.reason ++ "."⟩]⟩

/-- Encodes a response into the front of a buffer. -/
def send (source : SocketAddress) (buffer : Octets) (response : Message) :
    Logged (Option Response) :=
  match response.encode (buffer.take maximumDatagram) with
  | .ok w => ⟨some ⟨w.position, w.buffer ++ buffer.drop maximumDatagram⟩, []⟩
  | .error .truncated =>
    ⟨none, [⟨.warn, "Response to " ++ source.text ++ " does not fit in " ++
      toString maximumDatagram ++ " octets; dropping it."⟩]⟩
  | .error e =>
    ⟨none, [⟨.warn, "Failed to encode the response to " ++ source.text ++ ": " ++ e.message ++
      "."⟩]⟩

/-- What is reported of octets after the end of a message. -/
def trailing (source : SocketAddress) (received length : Nat) : List LogEntry :=
  if length = received then []
  else
    [⟨.debug, "Message of " ++ toString received ++ " octets from " ++ source.text ++
      " was decoded from its first " ++ toString length ++
      " octets; ignoring the trailing octets."⟩]

/-- Handles a datagram, with a buffer for the response. -/
def handle (zone : DomainTree) (source : SocketAddress) (buffer datagram : Octets) :
    Except BufferError (Logged (Option Response)) :=
  if buffer.length < maximumDatagram then .error .tooSmall
  else
    match Message.decode datagram with
    | .error e =>
      .ok ⟨none, [⟨.debug, "Dropping undecodable message of " ++ toString datagram.length ++
        " octets from " ++ source.text ++ ": " ++ e.message ++ "."⟩]⟩
    | .ok (query, length) =>
      let ignored := trailing source datagram.length length
      if query.isResponse then
        .ok ⟨none, ignored ++ [⟨.debug, "Dropping unsolicited response from " ++ source.text ++
          "."⟩]⟩
      else
        let response := respond zone source query
        let sent := send source buffer response.value
        .ok ⟨sent.value, ignored ++ response.log ++ sent.log⟩

end Responder

end Nameserver

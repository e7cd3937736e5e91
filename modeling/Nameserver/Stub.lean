import Nameserver.Message.Wire
import Nameserver.Responder
/-!
# Stub resolution

A stub resolver sends a query in one datagram and takes the first reply that looks like an attempt
to respond to it.  Replies that are no message, or that belong to something else, are passed over.
-/

namespace Nameserver.Stub

/-- The octets of a reply that are looked at. -/
def maximumReply : Nat := 1024

/-- Why a query is not resolved. -/
inductive Error where
  | queryTooLong
  | invalidQuery (cause : Message.EncodeError)
  | timedOut
  | network
  deriving DecidableEq, Repr

def Error.message : Error → String
  | queryTooLong => "query does not fit into a UDP message"
  | invalidQuery _ => "query cannot be encoded"
  | timedOut => "timed out waiting for a response"
  | network => "socket I/O failed"

/-- What the network does with a query: it fails to carry it, or it brings replies in some order
before the time is over. -/
inductive Network where
  | unavailable
  | replies (datagrams : List Octets)
  deriving DecidableEq, Repr

/-- Whether a message looks like an attempt to respond to a query: it is a response with the query's
identifier, and its only question is the query's first one. -/
def accepts (query response : Message) : Bool :=
  response.isResponse && response.id == query.id &&
    match response.questions with
    | [q] => query.questions.head?.any q.same
    | _ => false

def decodeReply? (reply : Octets) : Option Message :=
  (Message.decode (reply.take maximumReply)).toOption.map Prod.fst

def select? (query : Message) (replies : List Octets) : Option Message :=
  (replies.filterMap decodeReply?).find? (accepts query)

def datagram (query : Message) : Except Error Octets :=
  match query.encode (List.replicate maximumDatagram 0) with
  | .ok w => .ok w.written.toList
  | .error .truncated => .error .queryTooLong
  | .error e => .error (.invalidQuery e)

/-- Resolves a query over a network. -/
def resolve (query : Message) (network : Network) : Except Error Message := do
  let _ ← datagram query
  match network with
  | .unavailable => throw .network
  | .replies datagrams =>
    match select? query datagrams with
    | some response => return response
    | none => throw .timedOut

end Nameserver.Stub

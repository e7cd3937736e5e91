import Nameserver.Message.Opcode
import Nameserver.Message.Question
import Nameserver.Message.ResponseCode
import Nameserver.Record.Basic
/-!
# Messages

A message is a header and four sections: questions, answers, authorities and additional records.
-/

namespace Nameserver

/-- The header of a message, without the counts of the sections. -/
structure Header where
  id : UInt16 := 0
  isResponse : Bool := false
  opcode : Opcode := .query
  authoritative : Bool := false
  truncated : Bool := false
  recursionDesired : Bool := false
  recursionAvailable : Bool := false
  code : ResponseCode := .noError
  deriving DecidableEq, Repr

structure Message extends Header where
  questions : List Question := []
  answers : List Record := []
  authorities : List Record := []
  additionals : List Record := []
  deriving DecidableEq

namespace Message

def query (id : UInt16) (question : Question) : Message := { id, questions := [question] }

/-- The response to a query, before anything is put into it. -/
def response (query : Message) : Message :=
  { id := query.id, isResponse := true, opcode := query.opcode, authoritative := true,
    recursionDesired := query.recursionDesired }

def withOpcode (m : Message) (opcode : Opcode) : Message :=
  { m with opcode := opcode.normalized }

def withCode (m : Message) (code : ResponseCode) : Message := { m with code := code.normalized }

def addQuestions (m : Message) (questions : List Question) : Message :=
  { m with questions := m.questions ++ questions }

def addAnswers (m : Message) (records : List Record) : Message :=
  { m with answers := m.answers ++ records }

def addAuthorities (m : Message) (records : List Record) : Message :=
  { m with authorities := m.authorities ++ records }

def addAdditionals (m : Message) (records : List Record) : Message :=
  { m with additionals := m.additionals ++ records }

def records (m : Message) : List Record := m.answers ++ m.authorities ++ m.additionals

/-- Equality of messages: headers exactly, entries one by one with the equality of entries. -/
def same (a b : Message) : Bool :=
  a.toHeader == b.toHeader &&
    sameEntries Question.same a.questions b.questions &&
    sameEntries Record.same a.answers b.answers &&
    sameEntries Record.same a.authorities b.authorities &&
    sameEntries Record.same a.additionals b.additionals
where
  /-- Whether two lists have equal entries in each place. -/
  sameEntries {α : Type} (same : α → α → Bool) (s t : List α) : Bool :=
    s.length == t.length && (s.zip t).all fun (x, y) => same x y

end Message

end Nameserver

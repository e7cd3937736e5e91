import Nameserver.Log
import Nameserver.Message.Basic
import Nameserver.Name.Text
import Nameserver.Zone.Tree
/-!
# Answers from a domain tree

A question is answered by a search from the root along the labels of its name.  The deepest node on
the way that is the top of a zone or a delegation decides who is in charge of the name; the node at
the end, or a wildcard where the way ends early, has the records.
-/

namespace Nameserver

namespace DomainTree

/-! ## The search -/

/-- What is at the end of a search. -/
inductive Match where
  | exact (target : DomainTree)
  | wildcard (target : DomainTree)
  | nothing

/-- The nodes that a search along a path passes, from the root on, and what it ends at.  Where the
next label has no node, a child `*` takes its place, and the search ends there. -/
def search (t : DomainTree) : List Label → List DomainTree × Match
  | [] => ([t], .exact t)
  | label :: path =>
    match t.child? label with
    | some child =>
      let (visited, found) := child.search path
      (t :: visited, found)
    | none =>
      match t.child? Label.wildcard with
      | some child => ([t, child], .wildcard child)
      | none => ([t], .nothing)

/-- Whether the node says who is in charge of the names from it down. -/
def isBoundary (t : DomainTree) : Bool := t.isZoneTop || t.isCut

/-- The last boundary among the nodes passed. -/
def lastBoundary? (visited : List DomainTree) : Option DomainTree :=
  (visited.filter isBoundary).getLast?

/-! ## The verdict -/

/-- What becomes of a question: its name does not exist in the zone with some top, or it is answered
with some records, or referred to the servers of a delegation, or refused. -/
inductive Verdict where
  | nonexistent (top : DomainTree)
  | found (records : List Record)
  | referral (cut : DomainTree)
  | refused

def recordsAsked (t : DomainTree) (q : Question) : List Record :=
  t.records.filter fun r => q.qtype.same .any || q.qtype.same r.rtype

/-- The verdict on a question.  Records of a wildcard get the name asked for. -/
def verdict (t : DomainTree) (q : Question) : Verdict :=
  let (visited, found) := t.search q.qname.labelsFromRoot
  match lastBoundary? visited with
  | none => .refused
  | some boundary =>
    if boundary.isZoneTop then
      match found with
      | .nothing => .nonexistent boundary
      | .exact target => .found (target.recordsAsked q)
      | .wildcard target => .found ((target.recordsAsked q).map fun r => r.withOwner q.qname)
    else .referral boundary

def Verdict.putInto (response : Message) : Verdict → Message
  | nonexistent top =>
    { response with authoritative := true }.withCode .nameError
      |>.addAuthorities ((top.recordsOfType .soa).take 1)
  | found records =>
    { response with authoritative := true }.withCode .noError |>.addAnswers records
  | referral cut =>
    { response with authoritative := false }.withCode .noError
      |>.addAuthorities (cut.recordsOfType .ns)
  | refused => { response with authoritative := false }.withCode .refused

/-- What is reported of a verdict; `response` is the response with the verdict in it. -/
def Verdict.entry (q : Question) (response : Message) (v : Verdict) : LogEntry :=
  let qname := q.qname.text.toAscii
  match v with
  | nonexistent _ => ⟨.trace, qname ++ " does not exist"⟩
  | found _ =>
    ⟨.trace, "answered " ++ qname ++ " with " ++ toString response.answers.length ++ " records"⟩
  | referral _ => ⟨.trace, "referring " ++ qname ++ " to a delegated zone"⟩
  | refused => ⟨.trace, "no authority for " ++ qname⟩

/-- Answers a question into a response, which repeats the question. -/
def answer (t : DomainTree) (q : Question) (response : Message) : Logged Message :=
  let verdict := t.verdict q
  let answered := verdict.putInto (response.addQuestions [q])
  ⟨answered, [verdict.entry q answered]⟩

end DomainTree

end Nameserver

import Nameserver.Log
import Nameserver.Text.Lines
import Nameserver.Zone.Tree
/-!
# Loading a zone file

A zone file has a record on each line.  Lines that are blank or start with a semicolon are passed
over.  The first line that is not a record ends the load.
-/

namespace Nameserver

/-- Why a zone file cannot be loaded: it cannot be read as text, or a line is no record. -/
inductive LoadError where
  | unreadable
  | line (number : Nat) (error : Record.Error)
  deriving DecidableEq, Repr

def LoadError.message : LoadError → String
  | unreadable => "failed to read the zone file"
  | line number error => "line " ++ toString number ++ ": " ++ error.message

namespace DomainTree

def readLine (strictness : Name.Strictness) (line : Text) : Except Record.Error (Option Record) :=
  let line := Text.trimStart line
  if line.isEmpty || line.head? == some Text.semicolon then .ok none
  else (Record.ofText strictness line).map some

/-- Adds the records on some lines, of which the first one has a number. -/
def loadLines (strictness : Name.Strictness) (t : DomainTree) (number : Nat) :
    List Octets → Except LoadError DomainTree
  | [] => .ok t
  | line :: lines =>
    if Text.isUtf8 line then
      match readLine strictness line with
      | .ok none => loadLines strictness t (number + 1) lines
      | .ok (some r) => loadLines strictness (t.add r) (number + 1) lines
      | .error e => .error (.line number e)
    else .error .unreadable

def load (strictness : Name.Strictness) (file : Octets) : Except LoadError (Logged DomainTree) := do
  let t ← loadLines strictness empty 1 (Text.lines file)
  return ⟨t, [⟨.debug, "Loaded " ++ toString t.size ++ " records."⟩]⟩

end DomainTree

end Nameserver

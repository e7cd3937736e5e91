import Nameserver.Name.Basic
/-!
# Tables of pointer targets

A name on the wire may end in a pointer, which stands for the labels of the name that starts at the
offset it gives.  A `PointerTable` holds the names that start at the first offsets of a message.
-/

namespace Nameserver

/-- For each offset from zero on, the name that starts there, if there is one. -/
structure PointerTable where
  targets : List (Option Name) := []
  deriving DecidableEq

namespace PointerTable

def empty : PointerTable := {}

def get? (table : PointerTable) (offset : Nat) : Option Name := table.targets[offset]?.join

def push (table : PointerTable) (target : Option Name) : PointerTable :=
  ⟨table.targets ++ [target]⟩

def size (table : PointerTable) : Nat := table.targets.countP Option.isSome

/-- The offsets that have a name, in order, with their names. -/
def toList (table : PointerTable) : List (Nat × Name) :=
  table.targets.zipIdx.filterMap fun (target, offset) => target.map (offset, ·)

end PointerTable

end Nameserver

import Nameserver.Record.Text
/-!
# Domain trees

Records are kept in a tree that is searched from the root of the name space down, label by label.  A
node holds the records of its name in the order in which they were added, and its children in the
order of their labels.  A node with an SOA record is the top of a zone; a node with NS records and
no SOA record delegates the names below it to another server.
-/

namespace Nameserver

/-- A node of the tree, with everything below it. -/
inductive DomainTree where
  | node (records : List Record) (children : List (Label × DomainTree))

namespace DomainTree

def empty : DomainTree := node [] []

def records : DomainTree → List Record
  | node records _ => records

def children : DomainTree → List (Label × DomainTree)
  | node _ children => children

def recordsOfType (t : DomainTree) (rtype : RecordType) : List Record :=
  t.records.filter fun r => r.rtype.same rtype

/-- Whether the node is the top of a zone. -/
def isZoneTop (t : DomainTree) : Bool := t.records.any fun r => r.rtype == .soa

/-- Whether the node delegates the names below it. -/
def isCut (t : DomainTree) : Bool := (t.records.any fun r => r.rtype == .ns) && !t.isZoneTop

/-! ## Nodes and paths -/

def child? (t : DomainTree) (label : Label) : Option DomainTree :=
  (t.children.find? fun entry => entry.1.same label).map Prod.snd

def find? (t : DomainTree) : List Label → Option DomainTree
  | [] => some t
  | label :: path => (t.child? label).bind fun child => child.find? path

/-- Changes the child with a label, which is an empty tree if there is none yet.  The children stay
in order. -/
def changeChild (label : Label) (change : DomainTree → DomainTree) :
    List (Label × DomainTree) → List (Label × DomainTree)
  | [] => [(label, change empty)]
  | (l, t) :: others =>
    match label.compare l with
    | .lt => (label, change empty) :: (l, t) :: others
    | .eq => (l, change t) :: others
    | .gt => (l, t) :: changeChild label change others

def addAt (r : Record) : List Label → DomainTree → DomainTree
  | [], node records children => node (records ++ [r]) children
  | label :: path, node records children => node records (changeChild label (addAt r path) children)

def add (t : DomainTree) (r : Record) : DomainTree := addAt r r.owner.labelsFromRoot t

/-- The tree with the records of a list, added in order. -/
def ofRecords (records : List Record) : DomainTree := records.foldl add empty

/-! ## All records -/

mutual

/-- The records of a node and then of the nodes below it, child after child. -/
def allRecords : DomainTree → List Record
  | node records children => records ++ recordsBelow children

def recordsBelow : List (Label × DomainTree) → List Record
  | [] => []
  | (_, t) :: others => t.allRecords ++ recordsBelow others

end

def size (t : DomainTree) : Nat := t.allRecords.length

/-- The records of the tree as lines of a zone file. -/
def dump (t : DomainTree) : Text := t.allRecords.flatMap fun r => r.display ++ [Text.lineFeed]

end DomainTree

end Nameserver

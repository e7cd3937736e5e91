import Mathlib.Logic.Relation
import Nameserver.Proofs.Zone.Answer
import Nameserver.Proofs.Zone.Traversal
/-!
# A tree over a run of additions

However many records are added, in whatever order and letter case, the tree holds each of them once,
at its owner, and a node's own view of its records is that of a search among them.
-/

namespace Nameserver.DomainTree

/-! ## 1. What a node notes about its records -/

/-- The kinds of records that make a node a boundary, noted as they are added to it. -/
structure Notes where
  soa : Bool := false
  ns : Bool := false
  deriving DecidableEq, Repr

def Notes.add (notes : Notes) (r : Record) : Notes :=
  match r.rtype with
  | .soa => { notes with soa := true }
  | .ns => { notes with ns := true }
  | _ => notes

/-- The notes of a node after the run of additions to it. -/
def notes (t : DomainTree) : Notes := t.records.foldl Notes.add {}

theorem Notes.add_eq (notes : Notes) (r : Record) :
    notes.add r = ⟨notes.soa || r.rtype == .soa, notes.ns || r.rtype == .ns⟩ := by
  obtain ⟨soa, ns⟩ := notes
  rw [Notes.add]
  split
  next h => rw [h]; simp
  next h => rw [h]; simp
  next hsoa hns => simp [beq_eq_false_iff_ne.2 hsoa, beq_eq_false_iff_ne.2 hns]

/-- The notes after a run say whether there is a record of either kind. -/
theorem foldl_notes (records : List Record) (notes : Notes) :
    records.foldl Notes.add notes =
      ⟨notes.soa || records.any (·.rtype == .soa), notes.ns || records.any (·.rtype == .ns)⟩ := by
  induction records generalizing notes with
  | nil => simp
  | cons r records ih =>
    rw [List.foldl_cons, ih, Notes.add_eq, List.any_cons, List.any_cons, Bool.or_assoc,
      Bool.or_assoc]

theorem notes_eq (t : DomainTree) :
    t.notes = ⟨t.isZoneTop, t.records.any fun r => r.rtype == .ns⟩ := by
  rw [notes, foldl_notes]
  rfl

/-! ## 2. Every record once -/

variable {r : Record} {label : Label} {change : DomainTree → DomainTree}

/-- A change of one child that adds a record adds it to all that is below. -/
theorem recordsBelow_changeChild_perm
    (h : ∀ t : DomainTree, (change t).allRecords.Perm (r :: t.allRecords))
    (children : List (Label × DomainTree)) :
    (recordsBelow (changeChild label change children)).Perm (r :: recordsBelow children) := by
  have hnew : (change empty).allRecords.Perm [r] := h empty
  induction children with
  | nil =>
    rw [changeChild, recordsBelow, recordsBelow, recordsBelow, List.append_nil]
    exact hnew
  | cons head others ih =>
    obtain ⟨l, t⟩ := head
    rw [changeChild]
    split
    next =>
      rw [recordsBelow]
      exact hnew.append_right _
    next =>
      rw [recordsBelow, recordsBelow, ← List.cons_append]
      exact (h t).append_right _
    next =>
      -- The record comes in behind those of the children that are passed.
      rw [recordsBelow, recordsBelow]
      exact (ih.append_left _).trans List.perm_middle

/-- Adding a record adds that record and loses none. -/
theorem allRecords_addAt_perm (r : Record) (p : List Label) (t : DomainTree) :
    (addAt r p t).allRecords.Perm (r :: t.allRecords) := by
  induction p generalizing t with
  | nil =>
    obtain ⟨records, children⟩ := t
    rw [addAt, allRecords, allRecords, List.append_assoc, List.singleton_append]
    exact List.perm_middle
  | cons label p ih =>
    obtain ⟨records, children⟩ := t
    rw [addAt, allRecords, allRecords]
    exact ((recordsBelow_changeChild_perm ih children).append_left _).trans List.perm_middle

/-- After a run of additions, the records in the tree are those that were added. -/
theorem allRecords_ofRecords_perm (records : List Record) :
    (ofRecords records).allRecords.Perm records := by
  induction records using List.reverseRecOn with
  | nil => exact List.Perm.refl _
  | append_singleton records r ih =>
    rw [ofRecords_concat, add]
    exact ((allRecords_addAt_perm r _ _).trans (ih.cons r)).trans
      (List.perm_append_singleton r records).symm

theorem size_ofRecords (records : List Record) : (ofRecords records).size = records.length :=
  (allRecords_ofRecords_perm records).length_eq

/-! ## 3. Counting with a stack -/

/-- A step of the count: the topmost node's records are counted and its children, in any order, are
put on the stack. -/
inductive CountStep : List DomainTree × Nat → List DomainTree × Nat → Prop
  | visit {t : DomainTree} {children pending : List DomainTree} {count : Nat}
      (h : children.Perm (t.children.map Prod.snd)) :
      CountStep (t :: pending, count) (children ++ pending, count + t.records.length)

/-- What the count will come to: what is counted and what the pending trees hold. -/
def total (state : List DomainTree × Nat) : Nat :=
  state.2 + (state.1.flatMap allRecords).length

theorem size_eq (t : DomainTree) :
    t.size = t.records.length + ((t.children.map Prod.snd).flatMap allRecords).length := by
  obtain ⟨records, children⟩ := t
  rw [size, allRecords, recordsBelow_eq_flatMap, List.length_append, List.flatMap_map]
  rfl

/-- A step of the count does not change what it will come to. -/
theorem CountStep.total_eq {s s' : List DomainTree × Nat} (h : CountStep s s') :
    total s' = total s := by
  obtain ⟨hchildren⟩ := h
  rename_i t children pending count
  have hbelow := (hchildren.flatMap_right allRecords).length_eq
  have hsize := size_eq t
  rw [size] at hsize
  simp only [total, List.flatMap_append, List.flatMap_cons, List.length_append]
  omega

open Relation (ReflTransGen)

theorem total_eq_of_countSteps {s s' : List DomainTree × Nat} (h : ReflTransGen CountStep s s') :
    total s' = total s := by
  induction h with
  | refl => rfl
  | tail _ hstep ih => rw [hstep.total_eq, ih]

/-- A tree on top of the stack is counted before what lies under it. -/
theorem WellOrdered.countSteps {t : DomainTree} (h : t.WellOrdered) (pending : List DomainTree)
    (count : Nat) : ReflTransGen CountStep (t :: pending, count) (pending, count + t.size) := by
  induction h generalizing pending count with
  | @node records children _ _ ih =>
    -- The children are counted one after another, each with all that is below it.
    have hbelow : ∀ others : List (Label × DomainTree), (∀ entry ∈ others, entry ∈ children) →
        ∀ count, ReflTransGen CountStep (others.map Prod.snd ++ pending, count)
          (pending, count + ((others.map Prod.snd).flatMap allRecords).length) := by
      intro others hothers
      induction others with
      | nil => exact fun count => .refl
      | cons head others ihothers =>
        intro count
        have hhead := ih head (hothers head List.mem_cons_self) (others.map Prod.snd ++ pending)
          count
        have hrest := ihothers (fun entry hentry => hothers entry (List.mem_cons_of_mem _ hentry))
          (count + head.2.size)
        rw [List.map_cons, List.flatMap_cons, List.length_append, ← Nat.add_assoc]
        exact hhead.trans hrest
    have hvisit : CountStep (DomainTree.node records children :: pending, count)
        (children.map Prod.snd ++ pending, count + records.length) := .visit (.refl _)
    rw [size_eq, ← Nat.add_assoc]
    exact .head hvisit (hbelow children (fun _ hentry => hentry) _)

/-- However the children of a node are put on the stack, the count comes to the size of the tree. -/
theorem WellOrdered.countSteps_iff {t : DomainTree} (h : t.WellOrdered) (n : Nat) :
    ReflTransGen CountStep ([t], 0) ([], n) ↔ n = t.size := by
  constructor
  · intro hrun
    have htotal := total_eq_of_countSteps hrun
    simpa [total, size] using htotal
  · rintro rfl
    simpa using h.countSteps [] 0

/-! ## 4. The tree and the run -/

theorem WellOrdered.find? {t node : DomainTree} {p : List Label} (h : t.WellOrdered)
    (hfind : t.find? p = some node) : node.WellOrdered := by
  induction p generalizing t with
  | nil =>
    cases hfind
    exact h
  | cons label p ih =>
    rw [DomainTree.find?] at hfind
    obtain ⟨child, hchild, hfind⟩ := Option.bind_eq_some_iff.1 hfind
    exact ih (h.child hchild) hfind

theorem WellOrdered.distinct {t : DomainTree} (h : t.WellOrdered) :
    t.children.Pairwise fun a b => a.1.same b.1 = false :=
  h.sorted.imp fun hlt => beq_eq_false_iff_ne.2 (Label.folded_ne_of_compare_lt hlt)

/-- What a tree keeps of the records that were added to it. -/
structure Keeps (t : DomainTree) (records : List Record) : Prop where
  /-- There are nodes for the root and on the way to each owner, and no others. -/
  reached : ∀ p, (t.find? p).isSome = true ↔
    p = [] ∨ ∃ r ∈ records, p.map Label.folded <+: r.owner.labelsFromRoot.map Label.folded
  /-- The node of a name has the records that the name owns, in order. -/
  owned : ∀ n : Name, ((t.find? n.labelsFromRoot).map DomainTree.records).getD [] =
    records.filter fun r => r.owner.same n
  zoneTop : ∀ p node, t.find? p = some node →
    node.isZoneTop = node.notes.soa ∧ (node.isZoneTop = true ↔ node.recordsOfType .soa ≠ [])
  cut : ∀ p node, t.find? p = some node →
    node.isCut = (node.notes.ns && !node.notes.soa) ∧
      (node.isCut = true ↔ node.recordsOfType .ns ≠ [] ∧ node.recordsOfType .soa = [])
  distinct : ∀ p node, t.find? p = some node →
    node.children.Pairwise fun a b => a.1.same b.1 = false
  once : t.allRecords.Perm records
  counted : ∀ n, ReflTransGen CountStep ([t], 0) ([], n) ↔ n = records.length

variable {records : List Record}

theorem ownedAt_path_eq (records : List Record) (n : Name) :
    ownedAt records n.path = records.filter fun r => r.owner.same n := by
  apply List.filter_congr
  intro r _
  rw [Bool.eq_iff_iff, decide_eq_true_eq, ← Name.path_eq_iff]
  rfl

/-- The node of a name has the records that the name owns, and a name without a node owns none. -/
theorem owned_ofRecords (records : List Record) (n : Name) :
    (((ofRecords records).find? n.labelsFromRoot).map DomainTree.records).getD [] =
      records.filter fun r => r.owner.same n := by
  have hrecords := recordsAt?_ofRecords records n.labelsFromRoot
  rw [recordsAt?] at hrecords
  rw [hrecords, ← ownedAt_path_eq]
  split
  next => rfl
  next hreach => exact (ownedAt_eq_nil hreach).symm

theorem isCut_iff (hnamed : ∀ r ∈ records, r.rtype.IsNamed) {p : List Label} {node : DomainTree}
    (h : (ofRecords records).find? p = some node) :
    node.isCut = true ↔ node.recordsOfType .ns ≠ [] ∧ node.recordsOfType .soa = [] := by
  rw [isCut, Bool.and_eq_true, any_rtype_iff hnamed h (by decide), Bool.not_eq_true',
    ← Bool.not_eq_true, isZoneTop_iff hnamed h, not_not, recordsOfType_of_find? h,
    recordsOfType_of_find? h]

/-- Whatever run of records of named types is added to the empty tree, the tree keeps it. -/
theorem keeps_ofRecords (hnamed : ∀ r ∈ records, r.rtype.IsNamed) :
    (ofRecords records).Keeps records where
  reached p := by
    rw [isSome_find?_iff, Reaches, List.map_eq_nil_iff]
    rfl
  owned n := owned_ofRecords records n
  zoneTop p node h := by
    rw [notes_eq, recordsOfType_of_find? h]
    exact ⟨rfl, isZoneTop_iff hnamed h⟩
  cut p node h := by
    rw [notes_eq]
    exact ⟨rfl, isCut_iff hnamed h⟩
  distinct p node h := ((wellOrdered_ofRecords records).find? h).distinct
  once := allRecords_ofRecords_perm records
  counted n := by rw [(wellOrdered_ofRecords records).countSteps_iff, size_ofRecords]

/-- A delegation of `D.Z.`, in capital letters, and a record below it. -/
def exampleDelegation : List Record :=
  [⟨⟨[singleLabel 0x44, singleLabel 0x5a], by decide, by decide⟩, .ns, .internet, 60, [0]⟩,
    ⟨⟨[singleLabel 0x65, singleLabel 0x64, singleLabel 0x5a], by decide, by decide⟩, .a, .internet,
      60, [192, 0, 2, 2]⟩]

theorem keeps_mixedCase_example :
    (∀ r ∈ exampleDelegation ++ exampleZone, r.rtype.IsNamed) ∧
      (ofRecords (exampleDelegation ++ exampleZone)).Keeps (exampleDelegation ++ exampleZone) :=
  ⟨by decide, keeps_ofRecords (by decide)⟩

end Nameserver.DomainTree

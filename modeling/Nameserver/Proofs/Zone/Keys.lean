import Nameserver.Proofs.Name.Comparison
import Nameserver.Proofs.Zone.Unordered
/-!
# Labels as keys

A node can keep its children in a hash table, under copies of their labels, and look for one of them
with a label that it does not own.  Main statement: labels and names are compared and hashed
coherently, and so a child is found exactly under the labels that are the same as one put in.
-/

namespace Nameserver

/-- A label and what is done to the child that has it. -/
abbrev Change := Label × (DomainTree → DomainTree)

/-- What changes make of the child of a label, which is an empty tree at the first of them. -/
def changesUnder (label : Label) (changes : List Change) : Option DomainTree :=
  changes.foldl (fun t c => if c.1.same label then some (c.2 (t.getD .empty)) else t) none

/-- The children in order after changes. -/
def childrenAfter (changes : List Change) : List (Label × DomainTree) :=
  changes.foldl (fun children c => DomainTree.changeChild c.1 c.2 children) []

namespace ChildTable

/-! ## 1. Tables -/

/-- Whether a key is taken for a label: they are hashed into the same slot, and they are the same. -/
def hits (slot : List Nat → Nat) (key : OwnedLabel) (label : Label) : Bool :=
  slot key.hashInput == slot label.hashInput && label.same key.borrow

def lookup (slot : List Nat → Nat) (label : Label) (entries : List (OwnedLabel × DomainTree)) :
    Option DomainTree :=
  (entries.find? fun entry => hits slot entry.1 label).map Prod.snd

/-- Changes the child of a label.  If there is none, an empty tree is put in under a copy of it. -/
def change (slot : List Nat → Nat) (label : Label) (f : DomainTree → DomainTree) :
    List (OwnedLabel × DomainTree) → List (OwnedLabel × DomainTree)
  | [] => [(.ofLabel label, f .empty)]
  | (key, t) :: others =>
    if hits slot key (OwnedLabel.ofLabel label).borrow then (key, f t) :: others
    else (key, t) :: change slot label f others

/-- The entries after changes.  With any of them the table may come to use other slots and to hold
its entries in another order. -/
inductive Filled : List Change → List (OwnedLabel × DomainTree) → Prop
  | empty : Filled [] []
  | change {changes : List Change} {entries entries' : List (OwnedLabel × DomainTree)}
      (filled : Filled changes entries) (slot : List Nat → Nat) (c : Change)
      (arranged : entries'.Perm (change slot c.1 c.2 entries)) : Filled (changes ++ [c]) entries'

/-- The entries as children under borrowed labels. -/
def borrowed (entries : List (OwnedLabel × DomainTree)) : List (Label × DomainTree) :=
  entries.map fun entry => (entry.1.borrow, entry.2)

variable {slot : List Nat → Nat} {key : OwnedLabel} {label : Label} {records : List Record}
  {f : DomainTree → DomainTree} {changes : List Change} {c : Change}
  {entries : List (OwnedLabel × DomainTree)}

/-! ## 2. One step -/

/-- A key that is the same as a label is in the slot of the label, whatever the slots are. -/
theorem hits_eq_same : hits slot key label = key.borrow.same label := by
  rw [hits, Label.same_comm label]
  cases hsame : key.borrow.same label with
  | false => exact Bool.and_false _
  | true =>
    -- All that keeps the label from the wrong slot is that it is hashed as the key is.
    have hinput : key.hashInput = label.hashInput := Label.hashInput_eq_iff.2 hsame
    rw [hinput, beq_self_eq_true, Bool.and_true]

/-- Looking for a label in a table is looking for it among children under borrowed labels. -/
theorem lookup_eq_child? :
    lookup slot label entries = (DomainTree.node records (borrowed entries)).child? label := by
  rw [lookup, DomainTree.child?, DomainTree.children, borrowed, List.find?_map, Option.map_map]
  simp only [hits_eq_same]
  rfl

/-- A change in a table is one among children. -/
theorem borrowed_change : borrowed (change slot label f entries) =
    DomainTree.putChild label
      (f (((DomainTree.node records (borrowed entries)).child? label).getD .empty))
      (borrowed entries) := by
  induction entries with
  | nil =>
    rw [change, borrowed, List.map_singleton, OwnedLabel.borrow_ofLabel]
    rfl
  | cons entry entries ih =>
    obtain ⟨key, t⟩ := entry
    have hcons : borrowed ((key, t) :: entries) = (key.borrow, t) :: borrowed entries := rfl
    rw [change, hits_eq_same, OwnedLabel.borrow_ofLabel, hcons, DomainTree.putChild_cons,
      DomainTree.child?_node_cons]
    -- The first key is the label's own, or the change is made among the others.
    by_cases h : key.borrow.folded = label.folded
    · rw [if_pos (Label.same_iff.2 h), if_pos h, if_pos h]
      rfl
    · rw [if_neg (mt Label.same_iff.1 h), if_neg h, if_neg h, ← ih]
      rfl

/-! ## 3. Runs -/

theorem changesUnder_concat (label : Label) (changes : List Change) (c : Change) :
    changesUnder label (changes ++ [c]) =
      if c.1.folded = label.folded then some (c.2 ((changesUnder label changes).getD .empty))
      else changesUnder label changes := by
  rw [changesUnder, List.foldl_append]
  simp only [← Label.same_iff]
  rfl

theorem isSome_changesUnder_iff :
    (changesUnder label changes).isSome = true ↔ ∃ c ∈ changes, c.1.same label = true := by
  induction changes using List.reverseRecOn with
  | nil => simp [changesUnder]
  | append_singleton changes c ih =>
    rw [changesUnder_concat]
    by_cases h : c.1.folded = label.folded
    · rw [if_pos h]
      have hmem : c ∈ changes ++ [c] := List.mem_append_right _ (List.mem_singleton_self c)
      exact iff_of_true rfl ⟨c, hmem, Label.same_iff.2 h⟩
    · rw [if_neg h, ih]
      constructor
      · rintro ⟨d, hd, hsame⟩
        exact ⟨d, List.mem_append_left _ hd, hsame⟩
      · rintro ⟨d, hd, hsame⟩
        rcases List.mem_append.1 hd with hd | hd
        · exact ⟨d, hd, hsame⟩
        · rw [List.mem_singleton.1 hd, Label.same_iff] at hsame
          exact absurd hsame h

/-- Whatever slots are used on the way, the entries are the children that the changes come to. -/
theorem Filled.distinct_and_child? (h : Filled changes entries) :
    DomainTree.DistinctLabels (borrowed entries) ∧
      ∀ label, (DomainTree.node [] (borrowed entries)).child? label = changesUnder label changes := by
  induction h with
  | empty => exact ⟨List.Pairwise.nil, fun _ => rfl⟩
  | @change changes entries entries' _ slot c arranged ih =>
    obtain ⟨hdistinct, hchild⟩ := ih
    have hperm : (borrowed entries').Perm (DomainTree.putChild c.1
        (c.2 (((DomainTree.node [] (borrowed entries)).child? c.1).getD .empty))
        (borrowed entries)) := by
      rw [← borrowed_change]
      exact arranged.map _
    refine ⟨hdistinct.putChild.perm hperm, fun label => ?_⟩
    -- That no two entries are under the same label is why their order cannot be seen.
    rw [DomainTree.child?_perm hdistinct.putChild hperm, DomainTree.child?_putChild,
      changesUnder_concat, ← hchild label]
    by_cases hlabel : c.1.folded = label.folded
    · rw [if_pos hlabel, if_pos hlabel, DomainTree.child?_congr hlabel]
    · rw [if_neg hlabel, if_neg hlabel]

theorem childrenAfter_concat (changes : List Change) (c : Change) :
    childrenAfter (changes ++ [c]) = DomainTree.changeChild c.1 c.2 (childrenAfter changes) := by
  rw [childrenAfter, List.foldl_append]
  rfl

theorem sorted_childrenAfter (changes : List Change) :
    (childrenAfter changes).Pairwise fun a b => a.1.compare b.1 = .lt := by
  induction changes using List.reverseRecOn with
  | nil => exact List.Pairwise.nil
  | append_singleton changes c ih =>
    rw [childrenAfter_concat]
    exact DomainTree.sorted_changeChild ih

/-- Among children in order, too, a label has what the changes under it come to. -/
theorem child?_childrenAfter : (DomainTree.node records (childrenAfter changes)).child? label =
    changesUnder label changes := by
  induction changes using List.reverseRecOn with
  | nil => rfl
  | append_singleton changes c ih =>
    rw [childrenAfter_concat, DomainTree.child?_changeChild (sorted_childrenAfter changes),
      changesUnder_concat, ← ih]
    by_cases hlabel : c.1.folded = label.folded
    · rw [if_pos hlabel, if_pos hlabel, DomainTree.child?_congr hlabel]
    · rw [if_neg hlabel, if_neg hlabel]

/-! ## 4. Keys -/

/-- Labels, owned labels and names are compared and hashed coherently.  In a table that changes have
filled, a child is found under a label exactly if one of the changes was under the same label, and it
is the child that is found among children in order. -/
theorem keys_coherent :
    Coherent Label.same Label.compare Label.hashInput ∧
    Coherent OwnedLabel.same OwnedLabel.compare OwnedLabel.hashInput ∧
    (∀ a b : Name,
      (a.same b = true ↔ List.Forall₂ (fun l m => l.same m = true) a.allLabels b.allLabels) ∧
      (a.same b = true ↔ a.fold.wire = b.fold.wire) ∧ a.fold.wire = a.wire.map Text.lower ∧
      (a.hashInput = b.hashInput ↔ a.same b = true)) ∧
    ∀ (changes : List Change) (entries : List (OwnedLabel × DomainTree)), Filled changes entries →
      ∀ (slot : List Nat → Nat) (label : Label),
        ((lookup slot label entries).isSome = true ↔ ∃ c ∈ changes, c.1.same label = true) ∧
        lookup slot label entries = changesUnder label changes ∧
        (DomainTree.node [] (childrenAfter changes)).child? label = changesUnder label changes := by
  refine ⟨Label.coherent, OwnedLabel.coherent, fun a b => ?_, fun changes entries h slot label => ?_⟩
  · exact ⟨Name.same_iff_forall₂, Name.same_iff_wire_fold, a.wire_fold, Name.hashInput_eq_iff⟩
  · have hlookup : lookup slot label entries = changesUnder label changes := by
      rw [lookup_eq_child?, h.distinct_and_child?.2]
    exact ⟨by rw [hlookup, isSome_changesUnder_iff], hlookup, child?_childrenAfter⟩

/-- A tree with one more child. -/
def widened (t : DomainTree) : DomainTree := .node t.records ((Label.wildcard, .empty) :: t.children)

/-- Changes under `Ab`, `aB` and `b`, where the last two also turn the entries around: two of them
are found under `AB`, and nothing under `@B`, whose first octet comes right before the letters. -/
theorem keys_coherent_example :
    ∃ entries : List (OwnedLabel × DomainTree),
      Filled [(⟨[0x41, 0x62], by decide⟩, widened), (⟨[0x61, 0x42], by decide⟩, widened),
        (⟨[0x62], by decide⟩, widened)] entries ∧
      ((lookup (List.headD · 0) ⟨[0x41, 0x42], by decide⟩ entries).map
        fun t => t.children.length) = some 2 ∧
      (lookup List.length ⟨[0x40, 0x42], by decide⟩ entries).isSome = false := by
  have hfirst := Filled.empty.change (List.headD · 0) (⟨[0x41, 0x62], by decide⟩, widened)
    (List.Perm.refl _)
  have hsecond := hfirst.change List.length (⟨[0x61, 0x42], by decide⟩, widened)
    (List.reverse_perm _)
  have hfilled := hsecond.change (List.headD · 0) (⟨[0x62], by decide⟩, widened)
    (List.reverse_perm _)
  obtain ⟨-, -, -, hkeys⟩ := keys_coherent
  refine ⟨_, hfilled, ?_, ?_⟩
  · rw [(hkeys _ _ hfilled (List.headD · 0) _).2.1]
    rfl
  · rw [Bool.eq_false_iff, ne_eq, (hkeys _ _ hfilled List.length _).1]
    decide

end ChildTable

end Nameserver

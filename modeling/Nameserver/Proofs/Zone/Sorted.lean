import Mathlib.Data.List.Basic
import Nameserver.Proofs.Zone.Dump
import Nameserver.Proofs.Zone.Order
import Nameserver.Proofs.Zone.Run
import Nameserver.Proofs.Zone.Unordered
/-!
# A dump is sorted

A traversal passes the records in the canonical order of their owners, and records of one owner in
the order in which they were added.  So it is the stable sort of the records by owner, and nothing is
left in it of the order in which a tree keeps the children of a node.
-/

namespace Nameserver.DomainTree

variable {t t' u : DomainTree} {above : List Octets} {r : Record} {records : List Record}

/-! ## 1. The order of a traversal -/

/-- A node's own records come first, and its children come in the order of their labels. -/
theorem pairwise_allRecords (h : t.WellOrdered) (hplaced : Placed above t) :
    t.allRecords.Pairwise fun r s => r.ownerLE s = true := by
  induction h generalizing above with
  | @node records children sorted wellOrdered ih =>
    have h : WellOrdered (node records children) := .node sorted wellOrdered
    have hbelow : ∀ entry ∈ children, ∀ r ∈ entry.2.allRecords,
        above ++ [entry.1.folded] <+: r.path :=
      fun entry hentry r hr => prefix_path_of_mem_child h hplaced hentry hr
    have hown : ∀ r ∈ records, r.path = above := fun r hr => hplaced.path_of_mem hr
    rw [allRecords, recordsBelow_eq_flatMap, List.pairwise_append, List.pairwise_flatMap]
    -- The node's own records, those below one child, those below two, and the first with the others.
    refine ⟨?_, ⟨?_, ?_⟩, ?_⟩
    · apply List.pairwise_of_forall_mem_list
      intro r hr s hs
      exact Record.ownerLE_of_path_eq ((hown r hr).trans (hown s hs).symm)
    · intro entry hentry
      exact ih entry hentry (hplaced.child_of_mem h hentry)
    · refine sorted.imp_of_mem ?_
      intro a b ha hb hlt r hr s hs
      exact Name.le_of_siblings hlt (hbelow a ha r hr) (hbelow b hb s hs)
    · intro r hr s hs
      obtain ⟨entry, hentry, hs⟩ := List.mem_flatMap.1 hs
      apply Record.ownerLE_of_prefix
      rw [hown r hr]
      exact (List.prefix_append _ _).trans (hbelow entry hentry s hs)

/-! ## 2. Stable sorting -/

theorem path_of_mem_ownedAt {p : List Octets} (h : r ∈ ownedAt records p) : r.path = p :=
  of_decide_eq_true (List.mem_filter.1 h).2

theorem ownedAt_cons (r : Record) (records : List Record) (p : List Octets) :
    ownedAt (r :: records) p =
      if r.path = p then r :: ownedAt records p else ownedAt records p := by
  rw [ownedAt, List.filter_cons]
  simp only [decide_eq_true_eq]
  rfl

theorem pairwise_mergeSort (records : List Record) :
    (records.mergeSort Record.ownerLE).Pairwise fun r s => r.ownerLE s = true :=
  List.pairwise_mergeSort Record.ownerLE_trans Record.ownerLE_total records

/-- The sort is stable: it leaves the records of each owner in their order. -/
theorem ownedAt_mergeSort (records : List Record) (p : List Octets) :
    ownedAt (records.mergeSort Record.ownerLE) p = ownedAt records p := by
  have hsame : (ownedAt records p).Pairwise fun r s => r.ownerLE s = true := by
    apply List.pairwise_of_forall_mem_list
    intro r hr s hs
    exact Record.ownerLE_of_path_eq ((path_of_mem_ownedAt hr).trans (path_of_mem_ownedAt hs).symm)
  -- What is in order already keeps its order, and no other record of the owner comes to it.
  have hsublist : (ownedAt records p).Sublist (records.mergeSort Record.ownerLE) :=
    List.sublist_mergeSort Record.ownerLE_trans Record.ownerLE_total hsame List.filter_sublist
  have howned : (ownedAt (ownedAt records p) p).Sublist
      (ownedAt (records.mergeSort Record.ownerLE) p) :=
    hsublist.filter _
  have hlength : (ownedAt (records.mergeSort Record.ownerLE) p).length =
      (ownedAt records p).length :=
    ((List.mergeSort_perm records Record.ownerLE).filter _).length_eq
  rw [ownedAt_eq_self fun _ hr => path_of_mem_ownedAt hr] at howned
  exact (howned.eq_of_length hlength.symm).symm

/-- Lists in which each owner has the same records have the same records. -/
theorem mem_iff_of_ownedAt_eq {l l' : List Record}
    (h : ∀ n : Name, ownedAt l n.path = ownedAt l' n.path) : r ∈ l ↔ r ∈ l' := by
  rw [← mem_ownedAt_path l, ← mem_ownedAt_path l']
  exact iff_of_eq (congrArg (r ∈ ·) (h r.owner))

/-- Two lists in the order of owners are equal if each owner has the same records in both. -/
theorem eq_of_pairwise_of_ownedAt_eq {l l' : List Record}
    (hl : l.Pairwise fun r s => r.ownerLE s = true)
    (hl' : l'.Pairwise fun r s => r.ownerLE s = true)
    (h : ∀ n : Name, ownedAt l n.path = ownedAt l' n.path) : l = l' := by
  induction l generalizing l' with
  | nil =>
    cases l' with
    | nil => rfl
    | cons s rest' => cases (mem_iff_of_ownedAt_eq h).2 List.mem_cons_self
  | cons r rest ih =>
    cases l' with
    | nil => cases (mem_iff_of_ownedAt_eq h).1 List.mem_cons_self
    | cons s rest' =>
      obtain ⟨hr, hrest⟩ := List.pairwise_cons.1 hl
      obtain ⟨hs, hrest'⟩ := List.pairwise_cons.1 hl'
      -- Either first record stands somewhere in the other list, so neither owner comes first.
      have hpath : s.path = r.path := by
        rcases List.mem_cons.1 ((mem_iff_of_ownedAt_eq h).1 List.mem_cons_self) with rfl | hrs
        · rfl
        rcases List.mem_cons.1 ((mem_iff_of_ownedAt_eq h).2 List.mem_cons_self) with rfl | hsr
        · rfl
        exact Record.path_eq_of_ownerLE (hs r hrs) (hr s hsr)
      have hfirst : ownedAt (r :: rest) r.path = ownedAt (s :: rest') r.path := h r.owner
      rw [ownedAt_cons, ownedAt_cons, if_pos rfl, if_pos hpath] at hfirst
      obtain ⟨rfl, -⟩ := List.cons.inj hfirst
      have hothers : ∀ n : Name, ownedAt rest n.path = ownedAt rest' n.path := by
        intro n
        have hn := h n
        rw [ownedAt_cons, ownedAt_cons] at hn
        split at hn
        next => exact (List.cons.inj hn).2
        next => exact hn
      rw [ih hrest hrest' hothers]

/-- What comes of the sort depends on nothing but the records of each owner. -/
theorem mergeSort_eq_of_ownedAt_eq {l l' : List Record}
    (h : ∀ n : Name, ownedAt l n.path = ownedAt l' n.path) :
    l.mergeSort Record.ownerLE = l'.mergeSort Record.ownerLE := by
  apply eq_of_pairwise_of_ownedAt_eq (pairwise_mergeSort l) (pairwise_mergeSort l')
  intro n
  rw [ownedAt_mergeSort, ownedAt_mergeSort, h n]

/-- A traversal passes the records in the stable sort by owner. -/
theorem allRecords_ofRecords_eq (records : List Record) :
    (ofRecords records).allRecords = records.mergeSort Record.ownerLE := by
  have hsorted := pairwise_allRecords (wellOrdered_ofRecords records) (placed_ofRecords records)
  apply eq_of_pairwise_of_ownedAt_eq hsorted (pairwise_mergeSort records)
  intro n
  rw [ownedAt_mergeSort]
  exact ownedAt_allRecords_ofRecords records n.labelsFromRoot

/-! ## 3. Dumps -/

/-- A dump has a line for each record that was added, in the stable sort of the records by owner.  So
does what a tree gives that keeps its children in any other order; and of two runs that add the same
records to each owner in the same order, it cannot be told which one filled the tree. -/
theorem dump_sorted (records : List Record) :
    (ofRecords records).dump = (records.mergeSort Record.ownerLE).flatMap (fun r =>
      r.display ++ [Text.lineFeed]) ∧
    Text.lines (ofRecords records).dump =
      (records.mergeSort Record.ownerLE).map Record.display ∧
    GrownFrom records (ofRecords records) ∧
    (∀ t, GrownFrom records t → ∀ out, Traverses t out ↔
      out = records.mergeSort Record.ownerLE) ∧
    ∀ records' : List Record, (∀ n : Name, (records'.filter fun r => r.owner.same n) =
        records.filter fun r => r.owner.same n) →
      (ofRecords records').dump = (ofRecords records).dump := by
  refine ⟨?_, ?_, grownFrom_ofRecords records, ?_, ?_⟩
  · rw [dump, allRecords_ofRecords_eq]
  · rw [lines_dump, allRecords_ofRecords_eq]
  · intro t hgrown out
    rw [hgrown.traverses_iff, allRecords_ofRecords_eq]
  · intro records' hsame
    have howned : ∀ n : Name, ownedAt records' n.path = ownedAt records n.path := by
      intro n
      rw [ownedAt_path_eq, ownedAt_path_eq, hsame]
    rw [dump, dump, allRecords_ofRecords_eq, allRecords_ofRecords_eq,
      mergeSort_eq_of_ownedAt_eq howned]

/-- The tree of a zone whose children stay in the order in which they came: `d.z.` before `*.z.`. -/
def unsortedTree : DomainTree :=
  node [] [(singleLabel 0x7a, node (exampleZone.take 1)
    [(singleLabel 0x64, node ((exampleZone.drop 1).take 1) []),
      (Label.wildcard, node (exampleZone.drop 2) [])])]

theorem grownFrom_unsortedTree : GrownFrom exampleZone unsortedTree :=
  .add (.add (.add .empty (.down .here (.refl _))) (.down (.down .here (.refl _)) (.refl _)))
    (.down (.down .here (.refl _)) (.refl _))

/-- The unsorted tree is traversed in order all the same.  And the two records of a delegation, of
which one owner has another record in the zone, are added in either order. -/
theorem dump_exampleDelegation :
    (GrownFrom exampleZone unsortedTree ∧
      Traverses unsortedTree (exampleZone.mergeSort Record.ownerLE)) ∧
    (∀ n : Name, ((exampleDelegation.reverse ++ exampleZone).filter fun r => r.owner.same n) =
      (exampleDelegation ++ exampleZone).filter fun r => r.owner.same n) ∧
    (ofRecords (exampleDelegation.reverse ++ exampleZone)).dump =
      (ofRecords (exampleDelegation ++ exampleZone)).dump := by
  have htraverses : Traverses unsortedTree (exampleZone.mergeSort Record.ownerLE) :=
    ((dump_sorted exampleZone).2.2.2.1 _ grownFrom_unsortedTree _).2 rfl
  have hsame : ∀ n : Name,
      ((exampleDelegation.reverse ++ exampleZone).filter fun r => r.owner.same n) =
        (exampleDelegation ++ exampleZone).filter fun r => r.owner.same n := by
    intro n
    rw [List.filter_append, List.filter_append]
    congr 1
    rw [← ownedAt_path_eq, ← ownedAt_path_eq]
    simp only [exampleDelegation, List.reverse_cons, List.reverse_nil, List.nil_append,
      List.singleton_append, ownedAt_cons]
    -- The two owners are not the same, so only one of the records can have the name.
    split
    next hfirst =>
      split
      next hsecond =>
        rw [← hfirst] at hsecond
        exact absurd hsecond (by decide)
      next => rfl
    next => rfl
  exact ⟨⟨grownFrom_unsortedTree, htraverses⟩, hsame, (dump_sorted _).2.2.2.2 _ hsame⟩

end Nameserver.DomainTree

import Mathlib.Data.List.Basic
import Mathlib.Data.List.Induction
import Mathlib.Tactic.Choose
import Nameserver.Proofs.Zone.Agreement
/-!
# Trees that keep their children in no order

A hash map gives back its entries in an order of its own, which may change with every entry that is
put into it.  Here a tree grows with its children in any order, and a traversal puts the children of
each node into the order of their labels first.  Siblings have different labels, so all that was
arbitrary is gone when a traversal is done.
-/

namespace Nameserver.DomainTree

variable {t t' u : DomainTree} {r : Record} {records : List Record} {label : Label}
  {children children' : List (Label × DomainTree)}

/-! ## 1. Distinct siblings -/

/-- No two children have the same label. -/
def DistinctLabels (children : List (Label × DomainTree)) : Prop :=
  children.Pairwise fun a b => a.1.folded ≠ b.1.folded

theorem DistinctLabels.perm (h : DistinctLabels children) (hperm : children'.Perm children) :
    DistinctLabels children' :=
  hperm.symm.pairwise h fun hne => Ne.symm hne

/-- No node has two children with the same label. -/
inductive Distinct : DomainTree → Prop
  | node {records : List Record} {children : List (Label × DomainTree)}
      (distinct : DistinctLabels children)
      (below : ∀ entry ∈ children, Distinct entry.2) : Distinct (.node records children)

theorem distinct_empty : Distinct empty :=
  .node List.Pairwise.nil fun _ hentry => absurd hentry List.not_mem_nil

theorem Distinct.child (h : t.Distinct) (hchild : t.child? label = some u) : u.Distinct := by
  obtain ⟨entry, hentry, rfl⟩ := Option.map_eq_some_iff.1 hchild
  cases h with
  | node _ below => exact below entry (List.mem_of_find?_eq_some hentry)

/-- Where siblings have different labels, the child of a label is the one that has it. -/
theorem child?_eq_some_iff (h : DistinctLabels children) :
    (node records children).child? label = some u ↔
      ∃ entry ∈ children, entry.1.folded = label.folded ∧ entry.2 = u := by
  induction children with
  | nil => simp [child?, DomainTree.children]
  | cons head others ih =>
    obtain ⟨hhead, hothers⟩ := List.pairwise_cons.1 h
    rw [child?_node_cons]
    split
    next heq =>
      constructor
      · intro hu
        exact ⟨head, List.mem_cons_self, heq, Option.some.inj hu⟩
      · rintro ⟨entry, hentry, hlabel, rfl⟩
        rcases List.mem_cons.1 hentry with rfl | hentry
        · rfl
        · exact absurd (heq.trans hlabel.symm) (hhead entry hentry)
    next hne =>
      rw [ih hothers]
      simp only [List.exists_mem_cons_iff, hne, false_and, false_or]

/-- The order of the children makes no difference for which child has a label. -/
theorem child?_perm (h : DistinctLabels children) (hperm : children'.Perm children) (label : Label) :
    (node records children').child? label = (node records children).child? label := by
  apply Option.ext
  intro u
  rw [child?_eq_some_iff h, child?_eq_some_iff (h.perm hperm)]
  simp only [hperm.mem_iff]

/-! ## 2. Growing -/

/-- The children with a tree put in for a label: in place of the one that has the label, or as a new
one. -/
def putChild (label : Label) (grown : DomainTree) :
    List (Label × DomainTree) → List (Label × DomainTree)
  | [] => [(label, grown)]
  | (l, t) :: others =>
    if l.same label then (l, grown) :: others else (l, t) :: putChild label grown others

/-- Adding a record below a node: the children come to stand in any order. -/
inductive Grows (r : Record) : List Label → DomainTree → DomainTree → Prop
  | here {records : List Record} {children : List (Label × DomainTree)} :
      Grows r [] (.node records children) (.node (records ++ [r]) children)
  | down {label : Label} {path : List Label} {records : List Record}
      {children children' : List (Label × DomainTree)} {grown : DomainTree}
      (child : Grows r path (((DomainTree.node records children).child? label).getD empty) grown)
      (entries : children'.Perm (putChild label grown children)) :
      Grows r (label :: path) (.node records children) (.node records children')

/-- The trees that the empty tree can become when records are added in the order of a list. -/
inductive GrownFrom : List Record → DomainTree → Prop
  | empty : GrownFrom [] empty
  | add {records : List Record} {r : Record} {t t' : DomainTree} (grown : GrownFrom records t)
      (grows : Grows r r.owner.labelsFromRoot t t') : GrownFrom (records ++ [r]) t'

theorem putChild_cons (label : Label) (grown : DomainTree) (head : Label × DomainTree)
    (others : List (Label × DomainTree)) :
    putChild label grown (head :: others) = if head.1.folded = label.folded
      then (head.1, grown) :: others else head :: putChild label grown others := by
  rw [putChild]
  simp only [Label.same_iff]

theorem mem_putChild {grown : DomainTree} {entry : Label × DomainTree}
    (h : entry ∈ putChild label grown children) :
    entry ∈ children ∨ (entry.1.folded = label.folded ∧ entry.2 = grown) := by
  induction children with
  | nil =>
    rw [putChild, List.mem_singleton] at h
    subst h
    exact .inr ⟨rfl, rfl⟩
  | cons head others ih =>
    rw [putChild_cons] at h
    split at h
    next heq =>
      rcases List.mem_cons.1 h with rfl | h
      · exact .inr ⟨heq, rfl⟩
      · exact .inl (List.mem_cons_of_mem _ h)
    next =>
      rcases List.mem_cons.1 h with rfl | h
      · exact .inl List.mem_cons_self
      · exact (ih h).imp_left (List.mem_cons_of_mem _)

theorem DistinctLabels.putChild {grown : DomainTree} (h : DistinctLabels children) :
    DistinctLabels (putChild label grown children) := by
  induction children with
  | nil => exact List.pairwise_singleton _ _
  | cons head others ih =>
    obtain ⟨hhead, hothers⟩ := List.pairwise_cons.1 h
    rw [putChild_cons]
    split
    -- A child that is replaced keeps its label.
    next => exact List.pairwise_cons.2 ⟨hhead, hothers⟩
    next hne =>
      refine List.pairwise_cons.2 ⟨?_, ih hothers⟩
      intro entry hentry
      rcases mem_putChild hentry with hmem | ⟨hlabel, -⟩
      · exact hhead entry hmem
      · rw [hlabel]
        exact hne

/-- What is put in is found under its label, in any letter case, and nothing else is new. -/
theorem child?_putChild {l : Label} {grown : DomainTree} :
    (node records (putChild label grown children)).child? l =
      if label.folded = l.folded then some grown else (node records children).child? l := by
  induction children with
  | nil => rw [putChild, child?_node_cons]
  | cons head others ih =>
    rw [putChild_cons, child?_node_cons]
    by_cases hhead : head.1.folded = label.folded
    · rw [if_pos hhead, child?_node_cons, hhead]
      split <;> rfl
    · rw [if_neg hhead, child?_node_cons, ih]
      by_cases hl : head.1.folded = l.folded
      · rw [if_pos hl, if_pos hl, if_neg (hl ▸ Ne.symm hhead)]
      · rw [if_neg hl, if_neg hl]

/-! ## 3. What a grown tree holds -/

theorem Agrees.getD_child (h : t.Agrees u) (label : Label) :
    ((t.child? label).getD empty).Agrees ((u.child? label).getD empty) := by
  rcases h.child label with ⟨ht, hu⟩ | ⟨c, c', ht, hu, hc⟩
  · rw [ht, hu]
    exact fun _ => rfl
  · rw [ht, hu]
    exact hc

theorem Distinct.getD_child (h : t.Distinct) (label : Label) :
    ((t.child? label).getD empty).Distinct := by
  cases hchild : t.child? label with
  | none => exact distinct_empty
  | some c => exact h.child hchild

theorem WellOrdered.getD_child (h : t.WellOrdered) (label : Label) :
    ((t.child? label).getD empty).WellOrdered := by
  cases hchild : t.child? label with
  | none => exact wellOrdered_empty
  | some c => exact h.child hchild

/-- A record that is added keeps siblings distinct. -/
theorem Grows.distinct {p : List Label} (h : Grows r p t t') (ht : t.Distinct) : t'.Distinct := by
  induction h with
  | here =>
    obtain ⟨distinct, below⟩ := ht
    exact .node distinct below
  | @down label path records children children' grown _ entries ih =>
    -- A label without a child starts from the empty tree, which is distinct as well.
    have hgrown : grown.Distinct := ih (ht.getD_child label)
    obtain ⟨distinct, below⟩ := ht
    refine .node (distinct.putChild.perm entries) ?_
    intro entry hentry
    rcases mem_putChild (entries.mem_iff.1 hentry) with hmem | ⟨-, heq⟩
    · exact below entry hmem
    · rw [heq]
      exact hgrown

/-- A record that is added to trees that agree leaves trees that agree. -/
theorem Grows.agrees {p : List Label} (h : Grows r p t t') (ht : t.Distinct) (hu : u.WellOrdered)
    (hagrees : t.Agrees u) : t'.Agrees (addAt r p u) := by
  induction h generalizing u with
  | @here records children =>
    obtain ⟨records', children'⟩ := u
    have hrecords : records = records' := hagrees.records_eq
    subst hrecords
    intro q
    cases q with
    | nil => rfl
    | cons l q =>
      have hbelow := hagrees (l :: q)
      rw [recordsAt?_cons, recordsAt?_cons] at hbelow ⊢
      exact hbelow
  | @down label path records children children' grown _ entries ih =>
    have hgrown := ih (ht.getD_child label) (hu.getD_child label) (hagrees.getD_child label)
    obtain ⟨records', siblings⟩ := u
    have hrecords : records = records' := hagrees.records_eq
    subst hrecords
    obtain ⟨distinct, -⟩ := ht
    have hsorted : siblings.Pairwise fun a b => a.1.compare b.1 = .lt := hu.sorted
    intro q
    cases q with
    | nil => rfl
    | cons l q =>
      have hbelow := hagrees (l :: q)
      rw [recordsAt?_cons, recordsAt?_cons] at hbelow
      rw [addAt, recordsAt?_cons, recordsAt?_cons, child?_perm distinct.putChild entries,
        child?_putChild, child?_changeChild hsorted]
      split
      next => exact hgrown q
      next => exact hbelow

/-- However the children are kept, the tree of a run of records holds what the run put into it. -/
theorem GrownFrom.distinct_and_agrees (h : GrownFrom records t) :
    t.Distinct ∧ t.Agrees (ofRecords records) := by
  induction h with
  | empty => exact ⟨distinct_empty, fun _ => rfl⟩
  | @add records r t t' _ grows ih =>
    obtain ⟨hdistinct, hagrees⟩ := ih
    rw [ofRecords_concat]
    exact ⟨grows.distinct hdistinct,
      grows.agrees hdistinct (wellOrdered_ofRecords records) hagrees⟩

/-! ## 4. The tree with sorted children among them -/

theorem putChild_perm_of_none {grown : DomainTree}
    (h : ∀ entry ∈ children, entry.1.folded ≠ label.folded) :
    (putChild label grown children).Perm ((label, grown) :: children) := by
  induction children with
  | nil => exact List.Perm.refl _
  | cons head others ih =>
    obtain ⟨hhead, hothers⟩ := List.forall_mem_cons.1 h
    rw [putChild_cons, if_neg hhead]
    exact ((ih hothers).cons head).trans (List.Perm.swap _ _ _)

/-- A change in order has the children that a change without order has. -/
theorem changeChild_perm_putChild {change : DomainTree → DomainTree}
    (h : children.Pairwise fun a b => a.1.compare b.1 = .lt) :
    (changeChild label change children).Perm
      (putChild label (change (((node records children).child? label).getD empty)) children) := by
  induction children with
  | nil => exact List.Perm.refl _
  | cons head others ih =>
    obtain ⟨l, t⟩ := head
    have hothers := (List.pairwise_cons.1 h).2
    rw [changeChild, putChild_cons, child?_node_cons]
    split
    next hlt =>
      -- No child has the label, so the new one is put behind all others, or in front.
      obtain ⟨hfirst, hbehind⟩ := List.forall_mem_cons.1 (compare_lt_of_lt_head h hlt)
      have hl : l.folded ≠ label.folded := Ne.symm (Label.folded_ne_of_compare_lt hfirst)
      have hne : ∀ entry ∈ others, entry.1.folded ≠ label.folded :=
        fun entry hentry => Ne.symm (Label.folded_ne_of_compare_lt (hbehind entry hentry))
      have hnone : (node records others).child? label = none := child?_eq_none_of_lt hbehind
      rw [if_neg hl, if_neg hl, hnone]
      exact (List.Perm.swap _ _ _).trans ((putChild_perm_of_none hne).symm.cons _)
    next heq =>
      have hl : l.folded = label.folded := (Label.compare_eq_iff.1 heq).symm
      rw [if_pos hl, if_pos hl]
      exact List.Perm.refl _
    next hgt =>
      have hl : l.folded ≠ label.folded :=
        Label.folded_ne_of_compare_lt (Label.compare_gt_iff.1 hgt)
      rw [if_neg hl, if_neg hl]
      exact (ih hothers).cons _

/-- Adding a record in order is one way to add it. -/
theorem grows_addAt (h : t.WellOrdered) (r : Record) (p : List Label) :
    Grows r p t (addAt r p t) := by
  induction p generalizing t with
  | nil =>
    obtain ⟨records, children⟩ := t
    exact .here
  | cons label p ih =>
    have hchild := ih (h.getD_child label)
    have hsorted := h.sorted
    obtain ⟨records, children⟩ := t
    exact .down hchild (changeChild_perm_putChild hsorted)

theorem grownFrom_ofRecords (records : List Record) : GrownFrom records (ofRecords records) := by
  induction records using List.reverseRecOn with
  | nil => exact .empty
  | append_singleton records r ih =>
    rw [ofRecords_concat]
    exact .add ih (grows_addAt (wellOrdered_ofRecords records) r _)

/-! ## 5. Traversals -/

/-- A traversal of a tree whose children are in no order: the records of a node, then those below its
children, which some sorting has put into the order of their labels. -/
inductive Traverses : DomainTree → List Record → Prop
  | node {records : List Record} {children arranged : List (Label × DomainTree)}
      {below : Label × DomainTree → List Record} (perm : arranged.Perm children)
      (sorted : arranged.Pairwise fun a b => a.1.le b.1 = true)
      (visited : ∀ entry ∈ arranged, Traverses entry.2 (below entry)) :
      Traverses (.node records children) (records ++ arranged.flatMap below)

/-- The traversal of a tree is the traversal of one that agrees with it and has its children in
order. -/
theorem Traverses.exists_wellOrdered {out : List Record} (h : Traverses t out) (ht : t.Distinct) :
    ∃ u : DomainTree, u.WellOrdered ∧ t.Agrees u ∧ u.allRecords = out := by
  induction h with
  | @node records children arranged below perm sorted visited ih =>
    obtain ⟨distinct, hchildren⟩ := ht
    have hdistinct : DistinctLabels arranged := distinct.perm perm
    have hbelow : ∀ entry ∈ arranged, ∃ u : DomainTree,
        u.WellOrdered ∧ entry.2.Agrees u ∧ u.allRecords = below entry :=
      fun entry hentry => ih entry hentry (hchildren entry (perm.mem_iff.1 hentry))
    have : Nonempty DomainTree := ⟨empty⟩
    choose! ordered hordered using hbelow
    refine ⟨DomainTree.node records (arranged.map fun entry => (entry.1, ordered entry)),
      .node ?_ ?_, ?_, ?_⟩
    · rw [List.pairwise_map]
      exact (sorted.and hdistinct).imp fun ⟨hle, hne⟩ => Label.compare_lt_of_le hle hne
    · intro entry hentry
      obtain ⟨old, hold, rfl⟩ := List.mem_map.1 hentry
      exact (hordered old hold).1
    · intro p
      cases p with
      | nil => rfl
      | cons l p =>
        rw [recordsAt?_cons, recordsAt?_cons, ← child?_perm distinct perm]
        simp only [child?, DomainTree.children, List.find?_map, Function.comp_def]
        cases hfind : arranged.find? fun entry => entry.1.same l with
        | none => rfl
        | some entry => exact (hordered entry (List.mem_of_find?_eq_some hfind)).2.1 p
    · rw [allRecords, recordsBelow_eq_flatMap, List.flatMap_map]
      exact congrArg _ (List.flatMap_congr fun entry hentry => (hordered entry hentry).2.2)

/-- Every tree can be traversed, because the children of a node can be sorted. -/
theorem Distinct.exists_traverses (h : t.Distinct) : ∃ out, Traverses t out := by
  induction h with
  | @node records children _ _ ih =>
    choose! below hbelow using ih
    have hsorted : (children.mergeSort fun a b => a.1.le b.1).Pairwise fun a b =>
        a.1.le b.1 = true := by
      apply List.pairwise_mergeSort
      · exact fun _ _ _ => Label.le_trans
      · exact fun a b => Label.le_total a.1 b.1
    have hperm := List.mergeSort_perm children fun a b => a.1.le b.1
    exact ⟨_, .node hperm hsorted fun entry hentry => hbelow entry (hperm.mem_iff.1 hentry)⟩

/-- A tree that has grown from records has one traversal, which is that of the tree with its children
in order. -/
theorem GrownFrom.traverses_iff (h : GrownFrom records t) {out : List Record} :
    Traverses t out ↔ out = (ofRecords records).allRecords := by
  obtain ⟨hdistinct, hagrees⟩ := h.distinct_and_agrees
  have hunique : ∀ {out}, Traverses t out → out = (ofRecords records).allRecords := by
    intro out hout
    obtain ⟨u, hu, htu, rfl⟩ := hout.exists_wellOrdered hdistinct
    have huo : u.Agrees (ofRecords records) := fun p => (htu p).symm.trans (hagrees p)
    exact huo.allRecords_eq hu (wellOrdered_ofRecords records)
  constructor
  · exact hunique
  · rintro rfl
    obtain ⟨out, hout⟩ := hdistinct.exists_traverses
    rw [← hunique hout]
    exact hout

end Nameserver.DomainTree

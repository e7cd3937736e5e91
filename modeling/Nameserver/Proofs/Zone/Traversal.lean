import Mathlib.Data.List.Basic
import Nameserver.Proofs.Zone.Tree
/-!
# The records of a tree one after another

A traversal passes every node once, so what it picks up at one path are the records of the node
there, in their order.  Where records stand at the paths of their owners, the tree of a traversal
has the same nodes as the tree that was traversed, with the same records.
-/

namespace Nameserver.DomainTree

variable {t : DomainTree} {above : List Octets} {r : Record}

/-! ## 1. Children in strict order -/

theorem recordsBelow_eq_flatMap (children : List (Label × DomainTree)) :
    recordsBelow children = children.flatMap fun entry => entry.2.allRecords := by
  induction children with
  | nil => rfl
  | cons head others ih => rw [recordsBelow, ih, List.flatMap_cons]

/-- A label before the first child's has no child. -/
theorem child?_eq_none_of_lt_head {records : List Record} {head : Label × DomainTree}
    {others : List (Label × DomainTree)}
    (h : (head :: others).Pairwise fun a b => a.1.compare b.1 = .lt) {label : Label}
    (hlt : label.compare head.1 = .lt) : (node records (head :: others)).child? label = none :=
  child?_eq_none_of_lt (compare_lt_of_lt_head h hlt)

/-- The first child's label has no other child. -/
theorem child?_others_eq_none {records : List Record} {head : Label × DomainTree}
    {others : List (Label × DomainTree)}
    (h : (head :: others).Pairwise fun a b => a.1.compare b.1 = .lt) {label : Label}
    (heq : head.1.folded = label.folded) : (node records others).child? label = none := by
  apply child?_eq_none_of_lt
  intro entry hentry
  rw [← Label.compare_congr heq]
  exact (List.pairwise_cons.1 h).1 entry hentry

theorem WellOrdered.child?_of_mem {entry : Label × DomainTree} (h : t.WellOrdered)
    (hentry : entry ∈ t.children) : t.child? entry.1 = some entry.2 := by
  obtain ⟨records, children⟩ := t
  have hsorted : children.Pairwise fun a b => a.1.compare b.1 = .lt := h.sorted
  clear h
  induction children with
  | nil => cases hentry
  | cons head others ih =>
    obtain ⟨hhead, hothers⟩ := List.pairwise_cons.1 hsorted
    rw [child?_node_cons]
    rcases List.mem_cons.1 hentry with rfl | hentry
    · exact if_pos rfl
    · rw [if_neg (Label.folded_ne_of_compare_lt (hhead entry hentry))]
      exact ih hentry hothers

/-- Of what comes from each child, a label's part comes from the one child with the label. -/
theorem flatMap_children {α : Type} {records : List Record}
    {children : List (Label × DomainTree)}
    (h : children.Pairwise fun a b => a.1.compare b.1 = .lt) (label : Label)
    (f : DomainTree → List α) :
    (children.flatMap fun entry => if entry.1.folded = label.folded then f entry.2 else []) =
      (((node records children).child? label).map f).getD [] := by
  induction children with
  | nil => rfl
  | cons head others ih =>
    rw [List.flatMap_cons, ih (List.pairwise_cons.1 h).2, child?_node_cons]
    by_cases heq : head.1.folded = label.folded
    · rw [if_pos heq, if_pos heq, child?_others_eq_none h heq]
      exact List.append_nil _
    · rw [if_neg heq, if_neg heq]
      rfl

/-! ## 2. Records at the paths of their owners -/

/-- Below the path `above`, every record stands at the path of its owner. -/
def Placed (above : List Octets) (t : DomainTree) : Prop :=
  ∀ p records, t.recordsAt? p = some records →
    ∀ r ∈ records, r.path = above ++ p.map Label.folded

theorem Placed.path_of_mem (h : Placed above t) (hr : r ∈ t.records) : r.path = above := by
  have hpath := h [] t.records rfl r hr
  rwa [List.map_nil, List.append_nil] at hpath

/-- Below a child, the child's label comes next on all paths. -/
theorem Placed.child {child : DomainTree} {label : Label} (h : Placed above t)
    (hchild : t.child? label = some child) : Placed (above ++ [label.folded]) child := by
  intro p records hrecords r hr
  rw [List.append_assoc]
  refine h (label :: p) records ?_ r hr
  rw [recordsAt?_cons, hchild]
  exact hrecords

theorem Placed.child_of_mem {entry : Label × DomainTree} (h : Placed above t) (ht : t.WellOrdered)
    (hentry : entry ∈ t.children) : Placed (above ++ [entry.1.folded]) entry.2 :=
  h.child (ht.child?_of_mem hentry)

theorem placed_ofRecords (records : List Record) : Placed [] (ofRecords records) := by
  intro p owned howned r hr
  rw [recordsAt?_ofRecords] at howned
  split at howned
  next =>
    cases howned
    exact of_decide_eq_true (List.mem_filter.1 hr).2
  next => cases howned

/-- Every record of a traversal has an owner below the path where the traversal starts. -/
theorem prefix_path_of_mem (h : t.WellOrdered) (hplaced : Placed above t)
    (hr : r ∈ t.allRecords) : above <+: r.path := by
  induction h generalizing above with
  | @node records children sorted wellOrdered ih =>
    have h : WellOrdered (node records children) := .node sorted wellOrdered
    rw [allRecords, recordsBelow_eq_flatMap] at hr
    rcases List.mem_append.1 hr with hr | hr
    · exact hplaced.path_of_mem hr ▸ List.prefix_rfl
    · obtain ⟨entry, hentry, hr⟩ := List.mem_flatMap.1 hr
      -- The records of a child stand one label further down.
      have hbelow := ih entry hentry (hplaced.child_of_mem h hentry) hr
      exact (List.prefix_append _ _).trans hbelow

/-- The records below a child have its label next on their paths. -/
theorem prefix_path_of_mem_child {entry : Label × DomainTree} (h : t.WellOrdered)
    (hplaced : Placed above t) (hentry : entry ∈ t.children) (hr : r ∈ entry.2.allRecords) :
    above ++ [entry.1.folded] <+: r.path :=
  prefix_path_of_mem (h.of_mem hentry) (hplaced.child_of_mem h hentry) hr

/-! ## 3. What a traversal picks up at a path -/

theorem ownedAt_append (xs ys : List Record) (p : List Octets) :
    ownedAt (xs ++ ys) p = ownedAt xs p ++ ownedAt ys p :=
  List.filter_append xs ys

theorem ownedAt_flatMap {α : Type} (f : α → List Record) (l : List α) (p : List Octets) :
    ownedAt (l.flatMap f) p = l.flatMap fun a => ownedAt (f a) p :=
  List.filter_flatMap ..

theorem ownedAt_eq_self {records : List Record} {p : List Octets}
    (h : ∀ r ∈ records, r.path = p) : ownedAt records p = records :=
  List.filter_eq_self.2 fun r hr => decide_eq_true (h r hr)

theorem ownedAt_eq_nil_of_ne {records : List Record} {p : List Octets}
    (h : ∀ r ∈ records, r.path ≠ p) : ownedAt records p = [] :=
  List.filter_eq_nil_iff.2 fun r hr hp => h r hr (of_decide_eq_true hp)

/-- Records below one label are found on no path that goes on under another. -/
theorem ownedAt_below {records : List Record} {a : Octets}
    (h : ∀ r ∈ records, above ++ [a] <+: r.path) (b : Octets) (p : List Octets) :
    ownedAt records (above ++ b :: p) =
      if a = b then ownedAt records (above ++ [a] ++ p) else [] := by
  split
  next heq => rw [heq, List.append_cons]
  next hne =>
    apply ownedAt_eq_nil_of_ne
    intro r hr heq
    have hprefix := h r hr
    rw [heq, List.prefix_append_right_inj, List.cons_prefix_cons] at hprefix
    exact hne hprefix.1

/-- The records that a traversal picks up at a path are those of the node there. -/
theorem ownedAt_allRecords (h : t.WellOrdered) (hplaced : Placed above t) (p : List Label) :
    ownedAt t.allRecords (above ++ p.map Label.folded) = (t.recordsAt? p).getD [] := by
  induction h generalizing above p with
  | @node records children sorted wellOrdered ih =>
    have h : WellOrdered (node records children) := .node sorted wellOrdered
    have hbelow : ∀ entry ∈ children, ∀ r ∈ entry.2.allRecords,
        above ++ [entry.1.folded] <+: r.path :=
      fun entry hentry r hr => prefix_path_of_mem_child h hplaced hentry hr
    rw [allRecords, recordsBelow_eq_flatMap, ownedAt_append]
    cases p with
    | nil =>
      have hown : ownedAt records (above ++ []) = records := by
        rw [List.append_nil]
        exact ownedAt_eq_self fun r hr => hplaced.path_of_mem hr
      have hother :
          ownedAt (children.flatMap fun entry => entry.2.allRecords) (above ++ []) = [] := by
        apply ownedAt_eq_nil_of_ne
        intro r hr heq
        obtain ⟨entry, hentry, hr⟩ := List.mem_flatMap.1 hr
        -- A path below the node is longer than that of the node.
        have hlength := (hbelow entry hentry r hr).length_le
        rw [heq, List.append_nil, List.length_append, List.length_singleton] at hlength
        omega
      rw [List.map_nil, hown, hother, List.append_nil]
      rfl
    | cons label p =>
      have hown : ownedAt records (above ++ label.folded :: p.map Label.folded) = [] := by
        apply ownedAt_eq_nil_of_ne
        intro r hr heq
        rw [hplaced.path_of_mem hr] at heq
        exact List.cons_ne_nil _ _ (List.self_eq_append_right.1 heq)
      -- Of the children only the one with the next label has records below the path.
      have hchildren : ∀ entry ∈ children,
          ownedAt entry.2.allRecords (above ++ label.folded :: p.map Label.folded) =
            if entry.1.folded = label.folded then (entry.2.recordsAt? p).getD [] else [] := by
        intro entry hentry
        rw [ownedAt_below (hbelow entry hentry), ih entry hentry (hplaced.child_of_mem h hentry)]
      rw [List.map_cons, hown, List.nil_append, ownedAt_flatMap, List.flatMap_congr hchildren,
        flatMap_children sorted label fun u => (u.recordsAt? p).getD [],
        recordsAt?_cons]
      cases (node records children).child? label <;> rfl

/-! ## 4. The tree of a traversal -/

variable (records : List Record)

theorem ownedAt_allRecords_ofRecords (p : List Label) :
    ownedAt (ofRecords records).allRecords (p.map Label.folded) =
      ownedAt records (p.map Label.folded) := by
  have h := ownedAt_allRecords (wellOrdered_ofRecords records) (placed_ofRecords records) p
  rw [List.nil_append, recordsAt?_ofRecords] at h
  rw [h]
  split
  next => rfl
  next hreach => exact (ownedAt_eq_nil hreach).symm

theorem mem_ownedAt_path {r : Record} : r ∈ ownedAt records r.path ↔ r ∈ records := by
  rw [ownedAt, List.mem_filter]
  exact and_iff_left (decide_eq_true rfl)

/-- A traversal passes the records that were added. -/
theorem mem_allRecords_ofRecords {r : Record} :
    r ∈ (ofRecords records).allRecords ↔ r ∈ records := by
  -- A record is among all records just if it is among those at the path of its owner.
  rw [← mem_ownedAt_path, ← mem_ownedAt_path records]
  exact iff_of_eq (congrArg (r ∈ ·) (ownedAt_allRecords_ofRecords records r.owner.labelsFromRoot))

/-- Where there are nodes depends on which records there are and not on their order. -/
theorem reaches_congr {records records' : List Record} (h : ∀ r, r ∈ records ↔ r ∈ records')
    (p : List Octets) : Reaches records p ↔ Reaches records' p := by
  simp only [Reaches, h]

/-- The tree of a traversal has the nodes of the tree that was traversed, with the same records. -/
theorem recordsAt?_ofRecords_allRecords (p : List Label) :
    (ofRecords (ofRecords records).allRecords).recordsAt? p = (ofRecords records).recordsAt? p := by
  rw [recordsAt?_ofRecords, recordsAt?_ofRecords, ownedAt_allRecords_ofRecords]
  exact if_congr (reaches_congr (fun _ => mem_allRecords_ofRecords records) _) rfl rfl

end Nameserver.DomainTree

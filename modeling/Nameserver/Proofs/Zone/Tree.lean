import Mathlib.Data.List.Induction
import Nameserver.Zone.Tree
import Nameserver.Proofs.Label.Order
/-!
# What a domain tree holds

A name is a path from the root.  The tree of a list of records has a node for the root and for every
path that leads towards an owner, and the node of a path holds the records of that owner in the
order of the list.
-/

namespace Nameserver

/-! ## 1. Names as paths -/

/-- The path from the root to a name: its labels from the root on, without regard to letter case.
The ancestors of a name are the prefixes of its path. -/
def Name.path (n : Name) : List Octets := n.labelsFromRoot.map Label.folded

/-- Two names are the same exactly when their paths are. -/
theorem Name.path_eq_iff {a b : Name} : a.path = b.path ↔ a.same b = true := by
  rw [Name.same_iff, Name.path, Name.path, labelsFromRoot, labelsFromRoot, List.map_reverse,
    List.map_reverse, List.reverse_inj]

/-- The path from the root to the owner of a record. -/
def Record.path (r : Record) : List Octets := r.owner.path

namespace DomainTree

/-! ## 2. Order among siblings -/

/-- Every node has its children in strict order of their labels. -/
inductive WellOrdered : DomainTree → Prop
  | node {records : List Record} {children : List (Label × DomainTree)}
      (sorted : children.Pairwise fun a b => a.1.compare b.1 = .lt)
      (wellOrdered : ∀ entry ∈ children, WellOrdered entry.2) : WellOrdered (.node records children)

theorem wellOrdered_empty : WellOrdered empty :=
  .node List.Pairwise.nil (by simp)

theorem WellOrdered.sorted {t : DomainTree} (h : t.WellOrdered) :
    t.children.Pairwise fun a b => a.1.compare b.1 = .lt := by
  cases h with
  | node sorted _ => exact sorted

theorem WellOrdered.of_mem {t : DomainTree} {entry : Label × DomainTree} (h : t.WellOrdered)
    (hentry : entry ∈ t.children) : entry.2.WellOrdered := by
  cases h with
  | node _ wellOrdered => exact wellOrdered entry hentry

theorem WellOrdered.child {t child : DomainTree} {label : Label} (h : t.WellOrdered)
    (hc : t.child? label = some child) : child.WellOrdered := by
  obtain ⟨entry, hentry, rfl⟩ := Option.map_eq_some_iff.1 hc
  exact h.of_mem (List.mem_of_find?_eq_some hentry)

/-- The labels of a changed list of children are those of the list and the changed label. -/
theorem mem_changeChild {label : Label} {change : DomainTree → DomainTree}
    {children : List (Label × DomainTree)} {entry : Label × DomainTree}
    (h : entry ∈ changeChild label change children) :
    entry ∈ children ∨ (entry.1.folded = label.folded ∧
      (entry.2 = change empty ∨ ∃ old ∈ children, entry.2 = change old.2)) := by
  induction children with
  | nil =>
    rw [changeChild, List.mem_singleton] at h
    subst h
    exact .inr ⟨rfl, .inl rfl⟩
  | cons head others ih =>
    obtain ⟨l, t⟩ := head
    rw [changeChild] at h
    -- The three cases of the comparison: put in front, changed in place, or looked for further on.
    split at h
    next =>
      rcases List.mem_cons.1 h with rfl | h
      · exact .inr ⟨rfl, .inl rfl⟩
      · exact .inl h
    next heq =>
      rcases List.mem_cons.1 h with rfl | h
      · exact .inr ⟨(Label.compare_eq_iff.1 heq).symm, .inr ⟨_, List.mem_cons_self, rfl⟩⟩
      · exact .inl (List.mem_cons_of_mem _ h)
    next =>
      rcases List.mem_cons.1 h with rfl | h
      · exact .inl List.mem_cons_self
      · rcases ih h with hmem | ⟨hl, hchange | ⟨old, hold, hchange⟩⟩
        · exact .inl (List.mem_cons_of_mem _ hmem)
        · exact .inr ⟨hl, .inl hchange⟩
        · exact .inr ⟨hl, .inr ⟨old, List.mem_cons_of_mem _ hold, hchange⟩⟩

/-- A label before that of the first child comes before those of all children. -/
theorem compare_lt_of_lt_head {label : Label} {head : Label × DomainTree}
    {others : List (Label × DomainTree)}
    (h : (head :: others).Pairwise fun a b => a.1.compare b.1 = .lt)
    (hlt : label.compare head.1 = .lt) : ∀ entry ∈ head :: others, label.compare entry.1 = .lt := by
  intro entry hentry
  rcases List.mem_cons.1 hentry with rfl | hentry
  · exact hlt
  · exact Label.compare_lt_trans hlt ((List.pairwise_cons.1 h).1 entry hentry)

theorem sorted_changeChild {label : Label} {change : DomainTree → DomainTree}
    {children : List (Label × DomainTree)}
    (h : children.Pairwise fun a b => a.1.compare b.1 = .lt) :
    (changeChild label change children).Pairwise fun a b => a.1.compare b.1 = .lt := by
  induction children with
  | nil => exact List.pairwise_singleton _ _
  | cons head others ih =>
    obtain ⟨l, t⟩ := head
    obtain ⟨hhead, hothers⟩ := List.pairwise_cons.1 h
    rw [changeChild]
    split
    next hlt => exact List.pairwise_cons.2 ⟨compare_lt_of_lt_head h hlt, h⟩
    -- A child changed in place keeps its label, so the order says the same as before.
    next => exact List.pairwise_cons.2 ⟨hhead, hothers⟩
    next hgt =>
      refine List.pairwise_cons.2 ⟨?_, ih hothers⟩
      intro entry hentry
      rcases mem_changeChild hentry with hmem | ⟨hl, _⟩
      · exact hhead entry hmem
      · show l.compare entry.1 = .lt
        rw [← Label.compare_gt_iff, Label.compare_congr hl]
        exact hgt

theorem WellOrdered.addAt {t : DomainTree} (h : t.WellOrdered) (r : Record) (p : List Label) :
    (addAt r p t).WellOrdered := by
  induction p generalizing t with
  | nil =>
    obtain ⟨sorted, wellOrdered⟩ := h
    exact .node sorted wellOrdered
  | cons label p ih =>
    obtain ⟨sorted, wellOrdered⟩ := h
    -- Below, a child is an old one, a new one grown from the empty tree, or an old one changed.
    refine .node (sorted_changeChild sorted) ?_
    intro entry hentry
    rcases mem_changeChild hentry with hmem | ⟨_, hnew | ⟨old, hold, hnew⟩⟩
    · exact wellOrdered entry hmem
    · rw [hnew]
      exact ih wellOrdered_empty
    · rw [hnew]
      exact ih (wellOrdered old hold)

theorem ofRecords_concat (records : List Record) (r : Record) :
    ofRecords (records ++ [r]) = (ofRecords records).add r := by
  rw [ofRecords, List.foldl_append]
  rfl

/-- However records are added, siblings stay in strict order; so no two have the same label. -/
theorem wellOrdered_ofRecords (records : List Record) : (ofRecords records).WellOrdered := by
  induction records using List.reverseRecOn with
  | nil => exact wellOrdered_empty
  | append_singleton records r ih =>
    rw [ofRecords_concat]
    exact ih.addAt r _

/-! ## 3. Children after a change -/

theorem child?_congr {a b : Label} (h : a.folded = b.folded) (t : DomainTree) :
    t.child? a = t.child? b := by
  have hsame : ∀ entry : Label × DomainTree, entry.1.same a = entry.1.same b := by
    intro entry
    simp only [Label.same, h]
  simp only [child?, hsame]

theorem child?_node_cons {records : List Record} {l label : Label} {t : DomainTree}
    {others : List (Label × DomainTree)} :
    (node records ((l, t) :: others)).child? label =
      if l.folded = label.folded then some t else (node records others).child? label := by
  by_cases h : l.folded = label.folded
  · simp [child?, children, Label.same, h]
  · simp [child?, children, Label.same, h]

/-- No child has a label that comes before the labels of all children. -/
theorem child?_eq_none_of_lt {records : List Record} {label : Label}
    {children : List (Label × DomainTree)}
    (h : ∀ entry ∈ children, label.compare entry.1 = .lt) :
    (node records children).child? label = none := by
  induction children with
  | nil => rfl
  | cons head others ih =>
    have hne := Label.folded_ne_of_compare_lt (h head List.mem_cons_self)
    rw [child?_node_cons, if_neg (Ne.symm hne)]
    exact ih fun entry hentry => h entry (List.mem_cons_of_mem _ hentry)

/-- A change of one child is seen under its label, in any letter case, and under no other. -/
theorem child?_changeChild {records : List Record} {label l : Label}
    {change : DomainTree → DomainTree} {children : List (Label × DomainTree)}
    (h : children.Pairwise fun a b => a.1.compare b.1 = .lt) :
    (node records (changeChild label change children)).child? l =
      if label.folded = l.folded then
        some (change (((node records children).child? label).getD empty))
      else (node records children).child? l := by
  induction children with
  | nil =>
    rw [changeChild, child?_node_cons]
    rfl
  | cons head others ih =>
    obtain ⟨m, t⟩ := head
    have hothers := (List.pairwise_cons.1 h).2
    rw [changeChild]
    split
    next hlt =>
      -- Only the order tells that no later child has the label.
      have hnone : (node records ((m, t) :: others)).child? label = none :=
        child?_eq_none_of_lt (compare_lt_of_lt_head h hlt)
      rw [child?_node_cons, hnone]
      rfl
    next heq =>
      have hfolded := Label.compare_eq_iff.1 heq
      rw [child?_node_cons, child?_node_cons, child?_node_cons, if_pos hfolded.symm, hfolded]
      by_cases hl : m.folded = l.folded
      · rw [if_pos hl, if_pos hl]
        rfl
      · rw [if_neg hl, if_neg hl, if_neg hl]
    next hgt =>
      have hne : m.folded ≠ label.folded :=
        Label.folded_ne_of_compare_lt (Label.compare_gt_iff.1 hgt)
      rw [child?_node_cons, ih hothers, child?_node_cons, child?_node_cons, if_neg hne]
      by_cases hl : m.folded = l.folded
      · rw [if_pos hl, if_neg (by rw [← hl]; exact Ne.symm hne), if_pos hl]
      · rw [if_neg hl, if_neg hl]

/-! ## 4. The records at a path -/

/-- The records of the node at the end of a path. -/
def recordsAt? (t : DomainTree) (p : List Label) : Option (List Record) :=
  (t.find? p).map records

theorem recordsAt?_cons (t : DomainTree) (label : Label) (p : List Label) :
    t.recordsAt? (label :: p) = (t.child? label).bind fun u => u.recordsAt? p := by
  rw [recordsAt?, find?]
  cases t.child? label <;> rfl

theorem recordsAt?_empty (p : List Label) :
    empty.recordsAt? p = if p = [] then some [] else none := by
  cases p <;> rfl

/-- Adding a record makes the nodes on the way to its owner, gives the record to the last of them and
leaves all others as they were. -/
theorem recordsAt?_addAt {t : DomainTree} (h : t.WellOrdered) (r : Record) (p q : List Label) :
    (addAt r p t).recordsAt? q =
      if q.map Label.folded = p.map Label.folded then some ((t.recordsAt? q).getD [] ++ [r])
      else if q.map Label.folded <+: p.map Label.folded then some ((t.recordsAt? q).getD [])
      else t.recordsAt? q := by
  induction p generalizing t q with
  | nil =>
    obtain ⟨records, children⟩ := t
    cases q with
    | nil => rfl
    | cons l q =>
      rw [if_neg (by simp), if_neg (by simp)]
      rfl
  | cons label p ih =>
    obtain ⟨records, children⟩ := t
    cases q with
    | nil =>
      rw [if_neg (by simp), if_pos (by simp)]
      rfl
    | cons l q =>
      have hsorted : children.Pairwise fun a b => a.1.compare b.1 = .lt := h.sorted
      rw [addAt, recordsAt?_cons, child?_changeChild hsorted, recordsAt?_cons, List.map_cons,
        List.map_cons]
      by_cases hl : label.folded = l.folded
      · rw [if_pos hl, child?_congr hl]
        simp only [Option.bind_some, hl, List.cons.injEq, true_and, List.prefix_cons_inj]
        cases hc : (node records children).child? l with
        | some child => exact ih (h.child hc) q
        | none =>
          -- A new child starts empty, and the empty tree has the records of no path but the root's.
          rw [Option.getD_none, ih wellOrdered_empty, recordsAt?_empty]
          by_cases hq : q = []
          · simp [hq]
          · simp [hq]
      · have hne : ¬ (l.folded :: q.map Label.folded = label.folded :: p.map Label.folded) := by
          intro heq
          exact hl (List.cons.inj heq).1.symm
        have hnp : ¬ (l.folded :: q.map Label.folded <+: label.folded :: p.map Label.folded) := by
          intro hp
          exact hl (List.cons_prefix_cons.1 hp).1.symm
        rw [if_neg hl, if_neg hne, if_neg hnp]

/-! ## 5. The tree of a list of records -/

/-- Whether there is a node at a path: at the root, and on the way to every owner. -/
def Reaches (records : List Record) (p : List Octets) : Prop :=
  p = [] ∨ ∃ r ∈ records, p <+: r.path

instance (records : List Record) (p : List Octets) : Decidable (Reaches records p) :=
  inferInstanceAs (Decidable (_ ∨ _))

/-- The records of a list whose owner is at a path. -/
def ownedAt (records : List Record) (p : List Octets) : List Record :=
  records.filter fun r => r.path = p

theorem reaches_append_singleton {records : List Record} {r : Record} {p : List Octets} :
    Reaches (records ++ [r]) p ↔ Reaches records p ∨ p <+: r.path := by
  simp only [Reaches, List.mem_append, List.mem_singleton]
  grind

/-- The records that are owned at a path that is no node are none. -/
theorem ownedAt_eq_nil {records : List Record} {p : List Octets} (h : ¬ Reaches records p) :
    ownedAt records p = [] := by
  rw [ownedAt, List.filter_eq_nil_iff]
  intro r hr hp
  exact h (.inr ⟨r, hr, (of_decide_eq_true hp).symm ▸ List.prefix_rfl⟩)

/-- The tree of a list of records has a node exactly at the paths that the list reaches, and the node
holds the records owned there. -/
theorem recordsAt?_ofRecords (records : List Record) (p : List Label) :
    (ofRecords records).recordsAt? p =
      if Reaches records (p.map Label.folded) then some (ownedAt records (p.map Label.folded))
      else none := by
  induction records using List.reverseRecOn with
  | nil =>
    rw [ofRecords, List.foldl_nil, recordsAt?_empty]
    simp [Reaches, ownedAt]
  | append_singleton records r ih =>
    have howned : (((ofRecords records).recordsAt? p).getD []) =
        ownedAt records (p.map Label.folded) := by
      rw [ih]
      split
      next => rfl
      next h => exact (ownedAt_eq_nil h).symm
    rw [ofRecords_concat, add, recordsAt?_addAt (wellOrdered_ofRecords records), howned, ih]
    simp only [reaches_append_singleton, ownedAt, List.filter_append]
    -- The path is the owner of the new record, or lies above it, or has nothing to do with it.
    by_cases heq : p.map Label.folded = r.path
    · have hpath : p.map Label.folded = r.owner.labelsFromRoot.map Label.folded := heq
      rw [if_pos hpath, if_pos (.inr (heq ▸ List.prefix_rfl))]
      simp [heq]
    · have hpath : ¬ p.map Label.folded = r.owner.labelsFromRoot.map Label.folded := heq
      have hfilter : [r].filter (fun r => r.path = p.map Label.folded) = [] := by
        simp [Ne.symm heq]
      rw [if_neg hpath, hfilter, List.append_nil]
      by_cases hp : p.map Label.folded <+: r.path
      · rw [if_pos (show _ <+: r.owner.labelsFromRoot.map Label.folded from hp),
          if_pos (.inr hp)]
      · rw [if_neg (show ¬ _ <+: r.owner.labelsFromRoot.map Label.folded from hp)]
        simp only [hp, or_false]

end DomainTree

end Nameserver

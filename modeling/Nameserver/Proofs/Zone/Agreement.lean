import Nameserver.Zone.Answer
import Nameserver.Proofs.Zone.Traversal
/-!
# Trees with the same records at the same paths

Two trees agree when they have nodes at the same paths with the same records in them.  The labels on
their branches may differ in letter case, but nobody can tell: their traversals are equal, and they
answer every question alike.
-/

namespace Nameserver.DomainTree

/-- The trees have the same nodes, with the same records. -/
def Agrees (t t' : DomainTree) : Prop := ∀ p, t.recordsAt? p = t'.recordsAt? p

variable {t t' : DomainTree}

theorem Agrees.records_eq (h : t.Agrees t') : t.records = t'.records :=
  Option.some.inj (h [])

/-- The children under a label agree, if there is one in either tree. -/
theorem Agrees.child (h : t.Agrees t') (label : Label) :
    (t.child? label = none ∧ t'.child? label = none) ∨
      ∃ c c', t.child? label = some c ∧ t'.child? label = some c' ∧ c.Agrees c' := by
  have hbelow : ∀ p, (t.child? label).bind (fun c => c.recordsAt? p) =
      (t'.child? label).bind fun c => c.recordsAt? p := by
    intro p
    rw [← recordsAt?_cons, ← recordsAt?_cons]
    exact h (label :: p)
  -- A child has records at its root, though they may be none, so one side cannot lack it.
  cases hc : t.child? label with
  | none =>
    cases hc' : t'.child? label with
    | none => exact .inl ⟨rfl, rfl⟩
    | some c' =>
      rw [hc, hc'] at hbelow
      cases hbelow []
  | some c =>
    rw [hc] at hbelow
    cases hc' : t'.child? label with
    | none =>
      rw [hc'] at hbelow
      cases hbelow []
    | some c' =>
      rw [hc'] at hbelow
      exact .inr ⟨c, c', rfl, rfl, hbelow⟩

/-! ## 1. Traversals -/

/-- Sorted children that give the same under every label give the same in a row. -/
theorem map_children_eq {α : Type} {records records' : List Record} {f : DomainTree → α}
    {children children' : List (Label × DomainTree)}
    (hsorted : children.Pairwise fun a b => a.1.compare b.1 = .lt)
    (hsorted' : children'.Pairwise fun a b => a.1.compare b.1 = .lt)
    (h : ∀ label, ((node records children).child? label).map f =
      ((node records' children').child? label).map f) :
    (children.map fun entry => f entry.2) = children'.map fun entry => f entry.2 := by
  induction children generalizing children' with
  | nil =>
    cases children' with
    | nil => rfl
    | cons head' others' =>
      have hhead := h head'.1
      rw [child?_node_cons, if_pos rfl] at hhead
      cases hhead
  | cons head others ih =>
    have hhead := h head.1
    rw [child?_node_cons, if_pos rfl] at hhead
    cases children' with
    | nil => cases hhead
    | cons head' others' =>
      -- Neither first label comes before the other, or it would be missing on the other side.
      have heq : head.1.folded = head'.1.folded := by
        cases hcompare : head.1.compare head'.1 with
        | lt =>
          rw [child?_eq_none_of_lt_head hsorted' hcompare] at hhead
          cases hhead
        | eq => exact Label.compare_eq_iff.1 hcompare
        | gt =>
          have hhead' := h head'.1
          rw [child?_eq_none_of_lt_head hsorted (Label.compare_gt_iff.1 hcompare),
            child?_node_cons, if_pos rfl] at hhead'
          cases hhead'
      rw [child?_node_cons, if_pos heq.symm] at hhead
      -- Without the first children both sides give nothing under their label, and else the same.
      have hothers : (others.map fun entry => f entry.2) = others'.map fun entry => f entry.2 := by
        apply ih (List.pairwise_cons.1 hsorted).2 (List.pairwise_cons.1 hsorted').2
        intro label
        by_cases hlabel : head.1.folded = label.folded
        · rw [child?_others_eq_none hsorted hlabel,
            child?_others_eq_none hsorted' (heq.symm.trans hlabel)]
        · have hlabel' : ¬ head'.1.folded = label.folded := heq ▸ hlabel
          have hrest := h label
          rw [child?_node_cons, if_neg hlabel, child?_node_cons, if_neg hlabel'] at hrest
          exact hrest
      rw [List.map_cons, List.map_cons, hothers, Option.some.inj hhead]

/-- Agreeing trees with their children in order have the same traversal. -/
theorem Agrees.allRecords_eq (h : t.Agrees t') (ht : t.WellOrdered) (ht' : t'.WellOrdered) :
    t.allRecords = t'.allRecords := by
  induction ht generalizing t' with
  | @node records children sorted wellOrdered ih =>
    obtain ⟨records', children'⟩ := t'
    have hrecords : records = records' := h.records_eq
    have hchild : ∀ label, ((node records children).child? label).map allRecords =
        ((node records' children').child? label).map allRecords := by
      intro label
      rcases h.child label with ⟨hc, hc'⟩ | ⟨c, c', hc, hc', hagrees⟩
      · rw [hc, hc']
      · obtain ⟨entry, hentry, rfl⟩ := Option.map_eq_some_iff.1 hc
        have hmem : entry ∈ children := List.mem_of_find?_eq_some hentry
        rw [hc, hc', Option.map_some, Option.map_some, ih entry hmem hagrees (ht'.child hc')]
    have hchildren : (children.map fun entry => entry.2.allRecords) =
        children'.map fun entry => entry.2.allRecords :=
      map_children_eq sorted ht'.sorted hchild
    rw [allRecords, allRecords, recordsBelow_eq_flatMap, recordsBelow_eq_flatMap, hrecords,
      List.flatMap_def, List.flatMap_def, hchildren]

/-! ## 2. Answers -/

/-- A node without what is below it: all that an answer needs of the nodes that a search passes. -/
def bare (t : DomainTree) : DomainTree := node t.records []

theorem Agrees.bare_eq (h : t.Agrees t') : t.bare = t'.bare := by
  rw [bare, bare, h.records_eq]

def Match.bare : Match → Match
  | exact target => .exact target.bare
  | wildcard target => .wildcard target.bare
  | nothing => .nothing

def Verdict.bare : Verdict → Verdict
  | nonexistent top => .nonexistent top.bare
  | found records => .found records
  | referral cut => .referral cut.bare
  | refused => .refused

/-- Searches of agreeing trees pass and find the same, as far as nodes alone go. -/
theorem Agrees.search_eq (h : t.Agrees t') (p : List Label) :
    (t.search p).1.map bare = (t'.search p).1.map bare ∧
      (t.search p).2.bare = (t'.search p).2.bare := by
  induction p generalizing t t' with
  | nil =>
    rw [search, search, List.map_singleton, List.map_singleton, Match.bare, Match.bare, h.bare_eq]
    exact ⟨rfl, rfl⟩
  | cons label p ih =>
    rw [search, search]
    rcases h.child label with ⟨hc, hc'⟩ | ⟨c, c', hc, hc', hagrees⟩
    -- Where the search ends early, the child `*` is looked for on both sides.
    · rw [hc, hc']
      dsimp only
      rcases h.child Label.wildcard with ⟨hw, hw'⟩ | ⟨w, w', hw, hw', hagrees⟩
      · rw [hw, hw']
        exact ⟨congrArg (fun n => [n]) h.bare_eq, rfl⟩
      · rw [hw, hw']
        exact ⟨by simp only [List.map_cons, List.map_nil, h.bare_eq, hagrees.bare_eq],
          congrArg Match.wildcard hagrees.bare_eq⟩
    · obtain ⟨hvisited, hfound⟩ := ih hagrees
      rw [hc, hc']
      exact ⟨congrArg₂ List.cons h.bare_eq hvisited, hfound⟩

theorem lastBoundary?_map_bare (visited : List DomainTree) :
    lastBoundary? (visited.map bare) = (lastBoundary? visited).map bare := by
  rw [lastBoundary?, lastBoundary?, List.filter_map, List.getLast?_map]
  rfl

/-- The verdict on a question after a search. -/
def verdictAfter (q : Question) (visited : List DomainTree) (found : Match) : Verdict :=
  match lastBoundary? visited with
  | none => .refused
  | some boundary =>
    if boundary.isZoneTop then
      match found with
      | .nothing => .nonexistent boundary
      | .exact target => .found (target.recordsAsked q)
      | .wildcard target => .found ((target.recordsAsked q).map fun r => r.withOwner q.qname)
    else .referral boundary

theorem verdict_eq_verdictAfter (t : DomainTree) (q : Question) :
    t.verdict q =
      verdictAfter q (t.search q.qname.labelsFromRoot).1 (t.search q.qname.labelsFromRoot).2 := rfl

theorem bare_verdictAfter (q : Question) (visited : List DomainTree) (found : Match) :
    (verdictAfter q visited found).bare = verdictAfter q (visited.map bare) found.bare := by
  rw [verdictAfter, verdictAfter, lastBoundary?_map_bare]
  cases lastBoundary? visited with
  | none => rfl
  | some boundary =>
    -- The records of a node say whether it is the top of a zone, and they are kept.
    have htop : boundary.bare.isZoneTop = boundary.isZoneTop := rfl
    rw [Option.map_some]
    dsimp only
    rw [htop]
    split
    next => cases found <;> rfl
    next => rfl

/-- On every question, agreeing trees come to the same verdict, as far as nodes alone go. -/
theorem Agrees.verdict_eq (h : t.Agrees t') (q : Question) :
    (t.verdict q).bare = (t'.verdict q).bare := by
  obtain ⟨hvisited, hfound⟩ := h.search_eq q.qname.labelsFromRoot
  rw [verdict_eq_verdictAfter, verdict_eq_verdictAfter, bare_verdictAfter, bare_verdictAfter,
    hvisited, hfound]

theorem Verdict.putInto_bare (v : Verdict) (response : Message) :
    v.bare.putInto response = v.putInto response := by
  cases v <;> rfl

theorem Verdict.entry_bare (v : Verdict) (q : Question) (response : Message) :
    v.bare.entry q response = v.entry q response := by
  cases v <;> rfl

theorem answer_eq_bare (t : DomainTree) (q : Question) (response : Message) :
    t.answer q response =
      ⟨(t.verdict q).bare.putInto (response.addQuestions [q]),
        [(t.verdict q).bare.entry q ((t.verdict q).bare.putInto (response.addQuestions [q]))]⟩ := by
  rw [Verdict.putInto_bare, Verdict.entry_bare]
  rfl

/-- Agreeing trees answer every question alike, and report the same. -/
theorem Agrees.answer_eq (h : t.Agrees t') (q : Question) (response : Message) :
    t.answer q response = t'.answer q response := by
  rw [answer_eq_bare, answer_eq_bare, h.verdict_eq]

end Nameserver.DomainTree

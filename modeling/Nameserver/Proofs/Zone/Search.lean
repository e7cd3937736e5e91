import Mathlib.Data.List.Infix
import Nameserver.Zone.Answer
import Nameserver.Proofs.Zone.Tree
/-!
# Where a search leads

A search passes the nodes of the paths on its trail: every prefix of the longest prefix that has a
node, and the wildcard below that if the search ends there.  The last boundary it passes is the one
with the longest path.
-/

namespace Nameserver.DomainTree

/-! ## 1. The trail of a search -/

/-- What a search for `p` passes and finds, when `c` is the longest prefix of `p` with a node. -/
inductive SearchEnds (t : DomainTree) (p c : List Label) : List DomainTree × Match → Prop
  | exact {target : DomainTree} (hc : c = p) (hp : t.find? p = some target) :
      SearchEnds t p c (c.inits.filterMap t.find?, .exact target)
  | wildcard {target : DomainTree} (hc : c ≠ p)
      (hw : t.find? (c ++ [Label.wildcard]) = some target) :
      SearchEnds t p c ((c.inits ++ [c ++ [Label.wildcard]]).filterMap t.find?, .wildcard target)
  | nothing (hc : c ≠ p) (hw : t.find? (c ++ [Label.wildcard]) = none) :
      SearchEnds t p c (c.inits.filterMap t.find?, .nothing)

theorem filterMap_find?_cons {t child : DomainTree} {label : Label}
    (h : t.child? label = some child) (ks : List (List Label)) :
    (ks.map (label :: ·)).filterMap t.find? = ks.filterMap child.find? := by
  rw [List.filterMap_map]
  apply List.filterMap_congr
  intro k _
  show (t.child? label).bind _ = _
  rw [h]
  rfl

/-- A search that goes down to a child passes its own node first. -/
theorem SearchEnds.cons {t child : DomainTree} {label : Label} {p c : List Label}
    {visited : List DomainTree} {found : Match} (hchild : t.child? label = some child)
    (h : child.SearchEnds p c (visited, found)) :
    t.SearchEnds (label :: p) (label :: c) (t :: visited, found) := by
  have hfind : ∀ k, t.find? (label :: k) = child.find? k := by
    intro k
    rw [find?, hchild]
    rfl
  have hne : c ≠ p → label :: c ≠ label :: p := by
    intro hc heq
    exact hc (List.cons.inj heq).2
  have hinits : (label :: c).inits.filterMap t.find? = t :: c.inits.filterMap child.find? := by
    rw [List.inits_cons, List.filterMap_cons_some (by rfl), filterMap_find?_cons hchild]
  -- However the search below ended, the trail above is the same trail one label longer.
  cases h with
  | exact hc hp =>
    rw [← hinits]
    exact .exact (congrArg _ hc) (by rw [hfind, hp])
  | wildcard hc hw =>
    have hlast : [label :: c ++ [Label.wildcard]].filterMap t.find? =
        [c ++ [Label.wildcard]].filterMap child.find? := by
      rw [← filterMap_find?_cons hchild]
      rfl
    rw [List.filterMap_append, ← List.cons_append, ← hinits, ← hlast, ← List.filterMap_append]
    exact .wildcard (hne hc) (by rw [List.cons_append, hfind, hw])
  | nothing hc hw =>
    rw [← hinits]
    exact .nothing (hne hc) (by rw [List.cons_append, hfind, hw])

/-- Every search goes down to the longest prefix of its path that has a node, and from there to the
wildcard, if that is not the whole path and there is one. -/
theorem searchEnds_search (t : DomainTree) (p : List Label) :
    ∃ c, c <+: p ∧ (t.find? c).isSome ∧
      (∀ k, k <+: p → (t.find? k).isSome → k.length ≤ c.length) ∧
      t.SearchEnds p c (t.search p) := by
  induction p generalizing t with
  | nil =>
    refine ⟨[], List.prefix_rfl, rfl, ?_, .exact rfl rfl⟩
    intro k hk _
    exact hk.length_le
  | cons label p ih =>
    cases hchild : t.child? label with
    | some child =>
      obtain ⟨c, hc, hsome, hlongest, hends⟩ := ih child
      refine ⟨label :: c, List.cons_prefix_cons.2 ⟨rfl, hc⟩, ?_, ?_, ?_⟩
      · rw [find?, hchild]
        exact hsome
      · intro k hk hk'
        cases k with
        | nil => exact Nat.zero_le _
        | cons l k =>
          obtain ⟨rfl, htail⟩ := List.cons_prefix_cons.1 hk
          rw [find?, hchild] at hk'
          exact Nat.succ_le_succ (hlongest k htail hk')
      · rw [search, hchild]
        exact hends.cons hchild
    | none =>
      -- The search ends here: the root of this tree is the longest prefix.
      have hnone : ∀ k, (t.find? (label :: k)) = none := by
        intro k
        rw [find?, hchild]
        rfl
      have hw : t.find? ([] ++ [Label.wildcard]) = t.child? Label.wildcard := by
        rw [List.nil_append, find?]
        cases t.child? Label.wildcard <;> rfl
      refine ⟨[], List.nil_prefix, rfl, ?_, ?_⟩
      · intro k hk hk'
        cases k with
        | nil => exact Nat.zero_le _
        | cons l k =>
          obtain ⟨rfl, -⟩ := List.cons_prefix_cons.1 hk
          rw [hnone] at hk'
          cases hk'
      · rw [search, hchild]
        have hne : ([] : List Label) ≠ label :: p := (List.cons_ne_nil _ _).symm
        cases hchild' : t.child? Label.wildcard with
        | some target =>
          rw [hchild'] at hw
          have hvisited : ([[]] ++ [[] ++ [Label.wildcard]]).filterMap t.find? = [t, target] := by
            rw [List.singleton_append, List.filterMap_cons_some (by rfl),
              List.filterMap_cons_some hw, List.filterMap_nil]
          show t.SearchEnds _ _ ([t, target], _)
          rw [← hvisited]
          exact .wildcard hne hw
        | none => exact .nothing hne (hw.trans hchild')

/-! ## 2. The last boundary on a trail -/

theorem inits_pairwise_length (c : List Label) :
    c.inits.Pairwise fun a b => a.length < b.length := by
  induction c with
  | nil => exact List.pairwise_singleton _ _
  | cons label c ih =>
    rw [List.inits_cons, List.pairwise_cons, List.pairwise_map]
    refine ⟨?_, ih.imp Nat.succ_lt_succ⟩
    intro k hk
    obtain ⟨k, -, rfl⟩ := List.mem_map.1 hk
    exact Nat.succ_pos _

/-- The boundary at the end of a path, if there is one. -/
def boundaryAt? (t : DomainTree) (k : List Label) : Option DomainTree :=
  (t.find? k).filter isBoundary

theorem lastBoundary?_filterMap (t : DomainTree) (ks : List (List Label)) :
    lastBoundary? (ks.filterMap t.find?) = (ks.filterMap t.boundaryAt?).getLast? := by
  rw [lastBoundary?, List.filter_filterMap]
  rfl

theorem boundaryAt?_eq_none {t : DomainTree} {ks : List (List Label)}
    (h : lastBoundary? (ks.filterMap t.find?) = none) : ∀ k ∈ ks, t.boundaryAt? k = none := by
  rw [lastBoundary?_filterMap, List.getLast?_eq_none_iff, List.filterMap_eq_nil_iff] at h
  exact h

/-- Of the paths in order of length, the last boundary is at the longest that has one. -/
theorem exists_boundaryAt?_eq_some {t b : DomainTree} {ks : List (List Label)}
    (hlength : ks.Pairwise fun a b => a.length < b.length)
    (h : lastBoundary? (ks.filterMap t.find?) = some b) :
    ∃ k ∈ ks, t.boundaryAt? k = some b ∧
      ∀ k' ∈ ks, (t.boundaryAt? k').isSome → k'.length ≤ k.length := by
  rw [lastBoundary?_filterMap, List.getLast?_eq_some_iff] at h
  obtain ⟨ys, h⟩ := h
  obtain ⟨shorter, ks', rfl, -, hks'⟩ := List.filterMap_eq_append_iff.1 h
  obtain ⟨before, k, after, rfl, hbefore, hk, hafter⟩ := List.filterMap_eq_cons_iff.1 hks'
  rw [List.filterMap_eq_nil_iff] at hafter
  refine ⟨k, by simp, hk, ?_⟩
  intro k' hk' hsome
  -- A path on the trail comes before `k` and is shorter, is `k`, or comes after it and has no
  -- boundary.
  rw [← List.append_assoc] at hk' hlength
  rcases List.mem_append.1 hk' with hk' | hk'
  · have hlt := (List.pairwise_append.1 hlength).2.2 k' hk' k List.mem_cons_self
    exact Nat.le_of_lt hlt
  · rcases List.mem_cons.1 hk' with rfl | hk'
    · exact Nat.le_refl _
    · rw [hafter k' hk'] at hsome
      cases hsome

end Nameserver.DomainTree

import Nameserver.Proofs.Record.Normalized
import Nameserver.Proofs.Zone.Lookup
import Nameserver.Proofs.Zone.Search
/-!
# The answer found in the tree

The tree of some records answers a question with the one response that the records call for.
-/

namespace Nameserver

namespace DomainTree

open Lookup

variable {records : List Record} {n : DomainTree} {k : List Label}

/-- There is a node at a path just if some record's name leads there or beyond. -/
theorem isSome_find?_iff :
    ((ofRecords records).find? k).isSome ↔ Reaches records (k.map Label.folded) := by
  have h := recordsAt?_ofRecords records k
  have hsome := congrArg Option.isSome h
  rw [recordsAt?, Option.isSome_map] at hsome
  rw [hsome]
  split <;> simp_all

/-- The records of a node are those that its path owns. -/
theorem records_of_find? (h : (ofRecords records).find? k = some n) :
    n.records = ownedAt records (k.map Label.folded) := by
  have hreach := isSome_find?_iff.1 (Option.isSome_of_eq_some h)
  have hrec := recordsAt?_ofRecords records k
  rw [recordsAt?, h, if_pos hreach] at hrec
  exact Option.some.inj hrec

theorem recordsOfType_of_find? (h : (ofRecords records).find? k = some n) (rtype : RecordType) :
    n.recordsOfType rtype = ownedOfType records (k.map Label.folded) rtype := by
  rw [recordsOfType, records_of_find? h, ownedOfType]

theorem recordsAsked_of_find? (h : (ofRecords records).find? k = some n) (q : Question) :
    n.recordsAsked q = asked records (k.map Label.folded) q := by
  rw [recordsAsked, records_of_find? h, asked]

/-- Types of loaded records go by their names, so a node sees them by variant as by number. -/
theorem any_rtype_iff (hnamed : ∀ r ∈ records, r.rtype.IsNamed)
    (h : (ofRecords records).find? k = some n) {t : RecordType} (ht : t.IsNamed) :
    (n.records.any fun r => r.rtype == t) = true ↔
      ownedOfType records (k.map Label.folded) t ≠ [] := by
  have hmem : ∀ r ∈ n.records, r ∈ records := by
    rw [records_of_find? h]
    exact fun r hr => List.mem_of_mem_filter hr
  rw [← recordsOfType_of_find? h, recordsOfType, Ne, List.filter_eq_nil_iff, List.any_eq_true]
  constructor
  · rintro ⟨r, hr, heq⟩ hnone
    exact hnone r hr (((hnamed r (hmem r hr)).eq_iff_same ht).1 (beq_iff_eq.1 heq))
  · intro hsome
    by_contra hnone
    apply hsome
    intro r hr hsame
    exact hnone ⟨r, hr, beq_iff_eq.2 (((hnamed r (hmem r hr)).eq_iff_same ht).2 hsame)⟩

theorem isZoneTop_iff (hnamed : ∀ r ∈ records, r.rtype.IsNamed)
    (h : (ofRecords records).find? k = some n) :
    n.isZoneTop = true ↔ ownedOfType records (k.map Label.folded) .soa ≠ [] :=
  any_rtype_iff hnamed h (by decide)

/-- A node is a boundary of zones just if its records make it one. -/
theorem isBoundary_iff (hnamed : ∀ r ∈ records, r.rtype.IsNamed)
    (h : (ofRecords records).find? k = some n) :
    n.isBoundary = true ↔ IsBoundary records (k.map Label.folded) := by
  have hns := any_rtype_iff hnamed h (t := .ns) (by decide)
  -- A node with both kinds of records is the top of a zone, and a boundary either way.
  rw [isBoundary, isCut, Bool.or_eq_true, Bool.and_eq_true, isZoneTop_iff hnamed h, hns,
    IsBoundary, Bool.not_eq_true', ← Bool.not_eq_true, isZoneTop_iff hnamed h]
  tauto

theorem isSome_boundaryAt?_iff (hnamed : ∀ r ∈ records, r.rtype.IsNamed) :
    ((ofRecords records).boundaryAt? k).isSome ↔ IsBoundary records (k.map Label.folded) := by
  rw [boundaryAt?, Option.isSome_filter]
  cases h : (ofRecords records).find? k with
  | some n => simpa using isBoundary_iff hnamed h
  | none =>
    -- Without a node there are no records, and so no boundary.
    have hreach : ¬ Reaches records (k.map Label.folded) := by
      rw [← isSome_find?_iff, h]
      exact Bool.false_ne_true
    simp [IsBoundary, ownedOfType, ownedAt_eq_nil hreach]

/-- The last boundary that a search passes is the one that governs the lookup, given that its trail
has the paths that the lookup visits. -/
theorem governed_of_trail (hnamed : ∀ r ∈ records, r.rtype.IsNamed) {p c : List Octets}
    {ks : List (List Label)} (hlength : ks.Pairwise fun a b => a.length < b.length)
    (hks : ∀ k', Visits records p c k' ↔ ∃ k ∈ ks, k.map Label.folded = k') :
    (lastBoundary? (ks.filterMap (ofRecords records).find?) = none ∧
        Governed records p c none) ∨
      ∃ b k, lastBoundary? (ks.filterMap (ofRecords records).find?) = some b ∧
        (ofRecords records).find? k = some b ∧ Governed records p c (some (k.map Label.folded)) := by
  cases h : lastBoundary? (ks.filterMap (ofRecords records).find?) with
  | none =>
    refine .inl ⟨rfl, ?_⟩
    intro k' hk' hboundary
    obtain ⟨k, hk, rfl⟩ := (hks k').1 hk'
    rw [← isSome_boundaryAt?_iff hnamed, boundaryAt?_eq_none h k hk] at hboundary
    cases hboundary
  | some b =>
    obtain ⟨k, hk, hb, hdeepest⟩ := exists_boundaryAt?_eq_some hlength h
    refine .inr ⟨b, k, rfl, (Option.filter_eq_some_iff.1 hb).1, ?_⟩
    refine ⟨(hks _).2 ⟨k, hk, rfl⟩, ?_, ?_⟩
    · exact (isSome_boundaryAt?_iff hnamed).1 (Option.isSome_of_eq_some hb)
    · intro k' hk' hboundary
      obtain ⟨l, hl, rfl⟩ := (hks k').1 hk'
      rw [List.length_map, List.length_map]
      exact hdeepest l hl ((isSome_boundaryAt?_iff hnamed).2 hboundary)

/-- The prefix of a path that a search goes down to is the closest encloser. -/
theorem closestEncloser_of_longest {p c : List Label} (hc : c <+: p)
    (hsome : ((ofRecords records).find? c).isSome)
    (hlongest : ∀ k, k <+: p → ((ofRecords records).find? k).isSome → k.length ≤ c.length) :
    ClosestEncloser records (p.map Label.folded) (c.map Label.folded) := by
  refine ⟨hc.map _, isSome_find?_iff.1 hsome, ?_⟩
  intro k' hk' hreach
  obtain ⟨k, hk, rfl⟩ := List.prefix_map_iff.1 hk'
  rw [List.length_map, List.length_map]
  exact hlongest k hk (isSome_find?_iff.2 hreach)

theorem wildcardBelow_map (c : List Label) :
    wildcardBelow (c.map Label.folded) = (c ++ [Label.wildcard]).map Label.folded := by
  rw [List.map_append]
  rfl

theorem map_folded_ne {p c : List Label} (hc : c <+: p) (hne : c ≠ p) :
    c.map Label.folded ≠ p.map Label.folded := by
  intro heq
  have hlength := congrArg List.length heq
  rw [List.length_map, List.length_map] at hlength
  exact hne (hc.eq_of_length hlength)

theorem mem_inits_map_iff {c : List Label} {k' : List Octets} :
    (∃ k ∈ c.inits, k.map Label.folded = k') ↔ k' <+: c.map Label.folded := by
  simp only [List.mem_inits, List.prefix_map_iff, eq_comm]

/-- The verdict on a question below the top of a zone. -/
def verdictBelow (top : DomainTree) (q : Question) : Match → Verdict
  | .nothing => .nonexistent top
  | .exact target => .found (target.recordsAsked q)
  | .wildcard target => .found ((target.recordsAsked q).map fun r => r.withOwner q.qname)

/-- With the last boundary known, the response depends on what was found only below a zone's top. -/
theorem exists_replyUnder (hnamed : ∀ r ∈ records, r.rtype.IsNamed) {query : Message} {q : Question}
    {c : List Octets} {ks : List (List Label)} {found : Match}
    (hsearch : (ofRecords records).search q.qname.labelsFromRoot =
      (ks.filterMap (ofRecords records).find?, found))
    (hlength : ks.Pairwise fun a b => a.length < b.length)
    (hks : ∀ k', Visits records q.qname.path c k' ↔ ∃ k ∈ ks, k.map Label.folded = k')
    (hfound : ∀ b k, (ofRecords records).find? k = some b →
      ownedOfType records (k.map Label.folded) .soa ≠ [] →
      (verdictBelow b q found).putInto (query.response.addQuestions [q]) =
        replyUnder records query q c (some (k.map Label.folded))) :
    ∃ g, Governed records q.qname.path c g ∧
      ((ofRecords records).answer q query.response).value = replyUnder records query q c g := by
  rw [answer, verdict, hsearch]
  rcases governed_of_trail hnamed hlength hks with ⟨hlast, hg⟩ | ⟨b, k, hlast, hb, hg⟩
  · refine ⟨none, hg, ?_⟩
    simp only [hlast]
    rfl
  · refine ⟨some (k.map Label.folded), hg, ?_⟩
    simp only [hlast]
    by_cases htop : b.isZoneTop = true
    · rw [if_pos htop]
      exact hfound b k hb ((isZoneTop_iff hnamed hb).1 htop)
    -- Without an authority the boundary is a cut, whatever was found below it.
    · have hcut := not_not.1 fun h => htop ((isZoneTop_iff hnamed hb).2 h)
      rw [if_neg htop, replyUnder, if_pos hcut, ← recordsOfType_of_find? hb]
      rfl

/-- A search of the tree ends with the answer that the records call for. -/
theorem answer_eq_replyUnder (hnamed : ∀ r ∈ records, r.rtype.IsNamed) (query : Message)
    (q : Question) :
    ∃ c g, ClosestEncloser records q.qname.path c ∧ Governed records q.qname.path c g ∧
      ((ofRecords records).answer q query.response).value = replyUnder records query q c g := by
  obtain ⟨c, hc, hsome, hlongest, hends⟩ :=
    searchEnds_search (ofRecords records) q.qname.labelsFromRoot
  have hclosest : ClosestEncloser records q.qname.path (c.map Label.folded) :=
    closestEncloser_of_longest hc hsome hlongest
  have hwild : ((ofRecords records).find? (c ++ [Label.wildcard])).isSome ↔
      Reaches records (wildcardBelow (c.map Label.folded)) := by
    rw [wildcardBelow_map]
    exact isSome_find?_iff
  suffices h : ∃ g, Governed records q.qname.path (c.map Label.folded) g ∧
      ((ofRecords records).answer q query.response).value =
        replyUnder records query q (c.map Label.folded) g by
    obtain ⟨g, hg, hvalue⟩ := h
    exact ⟨_, g, hclosest, hg, hvalue⟩
  generalize hsearch : (ofRecords records).search q.qname.labelsFromRoot = result at hends
  cases hends with
  -- The trail of the search has to be matched with the names that a lookup visits.
  | @exact target heq hp =>
    refine exists_replyUnder hnamed hsearch (inits_pairwise_length c) ?_ ?_
    · intro k'
      rw [mem_inits_map_iff, Visits, heq]
      exact or_iff_left fun h => h.1 rfl
    · intro b k hb htop
      rw [replyUnder, if_neg htop, if_pos (by rw [heq]; rfl), heq, ← recordsAsked_of_find? hp]
      rfl
  | @wildcard target hne hw =>
    have hreach := hwild.1 (Option.isSome_of_eq_some hw)
    have hne' : c.map Label.folded ≠ q.qname.path := map_folded_ne hc hne
    refine exists_replyUnder hnamed hsearch ?_ ?_ ?_
    · -- The wildcard is one label longer than the longest prefix.
      rw [List.pairwise_append]
      refine ⟨inits_pairwise_length c, List.pairwise_singleton _ _, ?_⟩
      intro k hk w hw
      rw [List.mem_singleton.1 hw, List.length_append, List.length_singleton]
      exact Nat.lt_succ_of_le ((List.mem_inits k c).1 hk).length_le
    · intro k'
      simp only [List.mem_append, or_and_right, exists_or, mem_inits_map_iff, Visits,
        List.mem_singleton, exists_eq_left, ← wildcardBelow_map]
      exact or_congr_right ⟨fun h => h.2.2.symm, fun h => ⟨hne', hreach, h.symm⟩⟩
    · intro b k hb htop
      rw [replyUnder, if_neg htop, if_neg hne', if_pos hreach, wildcardBelow_map,
        ← recordsAsked_of_find? hw]
      rfl
  | nothing hne hw =>
    have hreach : ¬ Reaches records (wildcardBelow (c.map Label.folded)) := by
      rw [← hwild, hw]
      exact Bool.false_ne_true
    have hne' : c.map Label.folded ≠ q.qname.path := map_folded_ne hc hne
    refine exists_replyUnder hnamed hsearch (inits_pairwise_length c) ?_ ?_
    · intro k'
      rw [mem_inits_map_iff, Visits]
      exact or_iff_left fun h => hreach h.2.1
    · intro b k hb htop
      rw [replyUnder, if_neg htop, if_neg hne', if_neg hreach,
        ← recordsOfType_of_find? hb]
      rfl

/-- The tree of some records answers every question with the one response that the records call
for. -/
theorem answer_iff_answered (hnamed : ∀ r ∈ records, r.rtype.IsNamed) (query : Message)
    (q : Question) (m : Message) :
    ((ofRecords records).answer q query.response).value = m ↔ Answered records query q m := by
  obtain ⟨c, g, hc, hg, hvalue⟩ := answer_eq_replyUnder hnamed query q
  have hanswered : Answered records query q ((ofRecords records).answer q query.response).value :=
    answered_iff_replyUnder.2 ⟨c, g, hc, hg, hvalue⟩
  constructor
  · rintro rfl
    exact hanswered
  · exact hanswered.unique

/-- The label of one octet. -/
def singleLabel (o : UInt8) : Label := ⟨[o], Nat.le_of_ble_eq_true rfl⟩

/-- The zone `z.` with a delegation at `d.z.` and a wildcard at `*.z.`. -/
def exampleZone : List Record :=
  [⟨⟨[⟨[0x7a], by decide⟩], by decide, by decide⟩, .soa, .internet, 300, []⟩,
    ⟨⟨[⟨[0x64], by decide⟩, ⟨[0x7a], by decide⟩], by decide, by decide⟩, .ns, .internet, 300, [0]⟩,
    ⟨⟨[Label.wildcard, ⟨[0x7a], by decide⟩], by decide, by decide⟩, .a, .internet, 300,
      [192, 0, 2, 1]⟩]

/-- The question for the address of `E.Z.`. -/
def exampleQuestion : Question :=
  ⟨⟨[⟨[0x45], by decide⟩, ⟨[0x5a], by decide⟩], by decide, by decide⟩, .a, .internet⟩

theorem answered_wildcard_example :
    (∀ r ∈ exampleZone, r.rtype.IsNamed) ∧
      Answered exampleZone { id := 7 } exampleQuestion
        (reply { id := 7 } exampleQuestion true .noError
          [⟨exampleQuestion.qname, .a, .internet, 300, [192, 0, 2, 1]⟩] []) :=
  ⟨by decide, (answer_iff_answered (by decide) _ _ _).1 (by decide +kernel)⟩

end DomainTree

end Nameserver

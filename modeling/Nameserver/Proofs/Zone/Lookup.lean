import Nameserver.Zone.Answer
import Nameserver.Proofs.Zone.Tree
/-!
# The answer to a question, from the records alone

`Answered` says what the answer to a question is without a tree: by the closest encloser of the name
asked for, the wildcard below it, and the deepest name on the way that owns an SOA or NS record.  It
allows at most one answer.
-/

namespace Nameserver

namespace Lookup

open DomainTree (Reaches ownedAt)

variable {records : List Record} {query m m' : Message} {q : Question}
  {p c c' d d' k : List Octets}

/-! ## 1. Which names count -/

/-- `c` is the longest path on the way to `p` that the records reach. -/
structure ClosestEncloser (records : List Record) (p c : List Octets) : Prop where
  onTheWay : c <+: p
  reached : Reaches records c
  longest : ∀ k, k <+: p → Reaches records k → k.length ≤ c.length

/-- The path of the wildcard below a path. -/
def wildcardBelow (c : List Octets) : List Octets := c ++ [Label.wildcard.folded]

/-- A lookup of `p` with closest encloser `c` visits every path on the way to `c`, and the wildcard
below it where that stands in for `p`. -/
def Visits (records : List Record) (p c k : List Octets) : Prop :=
  k <+: c ∨ (c ≠ p ∧ Reaches records (wildcardBelow c) ∧ k = wildcardBelow c)

/-- The records of a type at a path. -/
def ownedOfType (records : List Record) (k : List Octets) (rtype : RecordType) : List Record :=
  (ownedAt records k).filter fun r => r.rtype.same rtype

/-- Some SOA or NS record is owned at the path. -/
def IsBoundary (records : List Record) (k : List Octets) : Prop :=
  ownedOfType records k .soa ≠ [] ∨ ownedOfType records k .ns ≠ []

/-- `d` is the deepest boundary that a lookup visits. -/
structure Governs (records : List Record) (p c d : List Octets) : Prop where
  visited : Visits records p c d
  boundary : IsBoundary records d
  deepest : ∀ k, Visits records p c k → IsBoundary records k → k.length ≤ d.length

/-! ## 2. The answer -/

/-- The records at a path that a question asks for. -/
def asked (records : List Record) (k : List Octets) (q : Question) : List Record :=
  (ownedAt records k).filter fun r => q.qtype.same .any || q.qtype.same r.rtype

/-- The response to a query that repeats one question. -/
def reply (query : Message) (q : Question) (authoritative : Bool) (code : ResponseCode)
    (answers authorities : List Record) : Message where
  id := query.id
  isResponse := true
  opcode := query.opcode
  authoritative := authoritative
  recursionDesired := query.recursionDesired
  code := code
  questions := [q]
  answers := answers
  authorities := authorities

/-- The response that the records call for. -/
inductive Answered (records : List Record) (query : Message) (q : Question) : Message → Prop
  /-- No boundary is above the name. -/
  | refused {c : List Octets} (encloser : ClosestEncloser records q.qname.path c)
      (ungoverned : ∀ k, Visits records q.qname.path c k → ¬ IsBoundary records k) :
      Answered records query q (reply query q false .refused [] [])
  /-- The name is delegated. -/
  | referral {c d : List Octets} (encloser : ClosestEncloser records q.qname.path c)
      (governs : Governs records q.qname.path c d) (cut : ownedOfType records d .soa = []) :
      Answered records query q (reply query q false .noError [] (ownedOfType records d .ns))
  /-- The name does not exist. -/
  | nonexistent {c d : List Octets} {soa : Record}
      (encloser : ClosestEncloser records q.qname.path c) (inexact : c ≠ q.qname.path)
      (noWildcard : ¬ Reaches records (wildcardBelow c))
      (governs : Governs records q.qname.path c d)
      (top : (ownedOfType records d .soa).head? = some soa) :
      Answered records query q (reply query q true .nameError [] [soa])
  /-- The name exists. -/
  | exact {d : List Octets}
      (encloser : ClosestEncloser records q.qname.path q.qname.path)
      (governs : Governs records q.qname.path q.qname.path d)
      (top : ownedOfType records d .soa ≠ []) :
      Answered records query q
        (reply query q true .noError (asked records q.qname.path q) [])
  /-- A wildcard stands in for the name. -/
  | wildcard {c d : List Octets} (encloser : ClosestEncloser records q.qname.path c)
      (inexact : c ≠ q.qname.path) (hasWildcard : Reaches records (wildcardBelow c))
      (governs : Governs records q.qname.path c d)
      (top : ownedOfType records d .soa ≠ []) :
      Answered records query q
        (reply query q true .noError
          ((asked records (wildcardBelow c) q).map fun r => r.withOwner q.qname) [])

/-! ## 3. There is at most one answer -/

/-- A path has at most one closest encloser. -/
theorem ClosestEncloser.unique (h : ClosestEncloser records p c)
    (h' : ClosestEncloser records p c') : c = c' := by
  have hle := h'.longest c h.onTheWay h.reached
  have hge := h.longest c' h'.onTheWay h'.reached
  exact (List.prefix_of_prefix_length_le h.onTheWay h'.onTheWay hle).eq_of_length
    (Nat.le_antisymm hle hge)

/-- Visited paths lie on one way down. -/
theorem Visits.prefix_wildcardBelow (h : Visits records p c k) : k <+: wildcardBelow c := by
  rcases h with h | ⟨-, -, rfl⟩
  · exact h.trans (List.prefix_append _ _)
  · exact List.prefix_rfl

theorem Governs.unique (h : Governs records p c d) (h' : Governs records p c d') : d = d' := by
  have hle := h'.deepest d h.visited h.boundary
  have hge := h.deepest d' h'.visited h'.boundary
  exact (List.prefix_of_prefix_length_le h.visited.prefix_wildcardBelow
    h'.visited.prefix_wildcardBelow hle).eq_of_length (Nat.le_antisymm hle hge)

/-- The boundary that governs a lookup, if any does. -/
def Governed (records : List Record) (p c : List Octets) : Option (List Octets) → Prop
  | some d => Governs records p c d
  | none => ∀ k, Visits records p c k → ¬ IsBoundary records k

theorem Governed.unique {g g' : Option (List Octets)} (h : Governed records p c g)
    (h' : Governed records p c g') : g = g' := by
  cases g with
  | none =>
    cases g' with
    | none => rfl
    | some d' => exact absurd h'.boundary (h d' h'.visited)
  | some d =>
    cases g' with
    | none => exact absurd h.boundary (h' d h.visited)
    | some d' => exact congrArg some (Governs.unique h h')

/-- The response of a question with closest encloser `c` under a boundary. -/
def replyUnder (records : List Record) (query : Message) (q : Question) (c : List Octets) :
    Option (List Octets) → Message
  | none => reply query q false .refused [] []
  | some d =>
    if ownedOfType records d .soa = [] then
      reply query q false .noError [] (ownedOfType records d .ns)
    else if c = q.qname.path then
      reply query q true .noError (asked records c q) []
    else if Reaches records (wildcardBelow c) then
      reply query q true .noError
        ((asked records (wildcardBelow c) q).map fun r => r.withOwner q.qname) []
    else reply query q true .nameError [] ((ownedOfType records d .soa).take 1)

/-- The closest encloser and the boundary decide the answer. -/
theorem answered_iff_replyUnder :
    Answered records query q m ↔
      ∃ c g, ClosestEncloser records q.qname.path c ∧ Governed records q.qname.path c g ∧
        m = replyUnder records query q c g := by
  constructor
  · intro h
    cases h with
    | @refused c encloser ungoverned => exact ⟨c, none, encloser, ungoverned, rfl⟩
    | @referral c d encloser governs cut =>
      exact ⟨c, some d, encloser, governs, by rw [replyUnder, if_pos cut]⟩
    | @nonexistent c d soa encloser inexact noWildcard governs top =>
      -- A first SOA record is there to be taken, so there is one.
      obtain ⟨others, htop⟩ := List.head?_eq_some_iff.1 top
      refine ⟨c, some d, encloser, governs, ?_⟩
      rw [replyUnder, if_neg (by rw [htop]; exact List.cons_ne_nil _ _), if_neg inexact,
        if_neg noWildcard, htop]
      rfl
    | @exact d encloser governs top =>
      exact ⟨_, some d, encloser, governs, by rw [replyUnder, if_neg top, if_pos rfl]⟩
    | @wildcard c d encloser inexact hasWildcard governs top =>
      refine ⟨c, some d, encloser, governs, ?_⟩
      rw [replyUnder, if_neg top, if_neg inexact, if_pos hasWildcard]
  -- The four tests of `replyUnder` lead to the five constructors.
  · rintro ⟨c, g, encloser, governed, rfl⟩
    cases g with
    | none => exact .refused encloser governed
    | some d =>
      rw [replyUnder]
      split
      next cut => exact .referral encloser governed cut
      next top =>
        split
        next heq =>
          subst heq
          exact .exact encloser governed top
        next inexact =>
          split
          next hasWildcard => exact .wildcard encloser inexact hasWildcard governed top
          next noWildcard =>
            obtain ⟨soa, others, htop⟩ := List.exists_cons_of_ne_nil top
            rw [htop]
            exact .nonexistent encloser inexact noWildcard governed (by rw [htop]; rfl)

/-- The records call for one response at most. -/
theorem Answered.unique (h : Answered records query q m) (h' : Answered records query q m') :
    m = m' := by
  obtain ⟨c, g, hc, hg, rfl⟩ := answered_iff_replyUnder.1 h
  obtain ⟨c', g', hc', hg', rfl⟩ := answered_iff_replyUnder.1 h'
  obtain rfl := hc.unique hc'
  rw [hg.unique hg']

end Lookup

end Nameserver

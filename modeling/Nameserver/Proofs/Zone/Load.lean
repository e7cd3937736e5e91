import Nameserver.Zone.Load
import Nameserver.Proofs.Octets.Reader
/-!
# What a zone file holds

`Holds` relates the lines of a zone file to the records on them.  A load gives the tree of the
records that the file holds.
-/

namespace Nameserver.DomainTree

/-- The lines hold the records in order, and between them nothing but blank lines and comments. -/
inductive Holds (strictness : Name.Strictness) : List Octets → List Record → Prop
  | nil : Holds strictness [] []
  | passedOver {line : Octets} {lines : List Octets} {records : List Record}
      (utf8 : Text.isUtf8 line = true) (blank : readLine strictness line = .ok none)
      (others : Holds strictness lines records) : Holds strictness (line :: lines) records
  | record {line : Octets} {lines : List Octets} {r : Record} {records : List Record}
      (utf8 : Text.isUtf8 line = true) (read : readLine strictness line = .ok (some r))
      (others : Holds strictness lines records) : Holds strictness (line :: lines) (r :: records)

variable {strictness : Name.Strictness} {t t' : DomainTree} {number : Nat} {lines : List Octets}

/-- Reading lines adds the records that they hold to the tree, one after another. -/
theorem loadLines_eq_ok_iff :
    loadLines strictness t number lines = .ok t' ↔
      ∃ records, Holds strictness lines records ∧ t' = records.foldl add t := by
  induction lines generalizing t number with
  | nil =>
    constructor
    · intro h
      cases h
      exact ⟨[], .nil, rfl⟩
    · rintro ⟨records, holds, rfl⟩
      cases holds
      rfl
  | cons line lines ih =>
    rw [loadLines]
    constructor
    · intro h
      split at h
      next utf8 =>
        split at h
        next blank =>
          obtain ⟨records, others, rfl⟩ := ih.1 h
          exact ⟨records, .passedOver utf8 blank others, rfl⟩
        next r read =>
          obtain ⟨records, others, rfl⟩ := ih.1 h
          exact ⟨r :: records, .record utf8 read others, rfl⟩
        next => cases h
      next => cases h
    · rintro ⟨records, holds, rfl⟩
      cases holds with
      | passedOver utf8 blank others =>
        rw [if_pos utf8, blank]
        exact ih.2 ⟨_, others, rfl⟩
      | record utf8 read others =>
        rw [if_pos utf8, read]
        exact ih.2 ⟨_, others, rfl⟩

/-- What a load gives: a tree, and a report of how many records are in it. -/
def loadedTree (t : DomainTree) : Logged DomainTree :=
  ⟨t, [⟨.debug, "Loaded " ++ toString t.size ++ " records."⟩]⟩

/-- A load gives the tree of the records that the file holds. -/
theorem load_eq_ok_iff {file : Octets} {loaded : Logged DomainTree} :
    load strictness file = .ok loaded ↔
      ∃ records, Holds strictness (Text.lines file) records ∧
        loaded = loadedTree (ofRecords records) := by
  constructor
  · intro h
    obtain ⟨t, ht, h⟩ := bind_eq_ok h
    cases h
    obtain ⟨records, holds, rfl⟩ := loadLines_eq_ok_iff.1 ht
    exact ⟨records, holds, rfl⟩
  · rintro ⟨records, holds, rfl⟩
    rw [load, loadLines_eq_ok_iff.2 ⟨records, holds, rfl⟩]
    rfl

end Nameserver.DomainTree

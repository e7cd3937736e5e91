import Mathlib.Algebra.GroupWithZero.Nat
import Nameserver.Record.Layout
import Nameserver.Proofs.Name.Wire
/-!
# Spellings of record data

The names in record data may be spelled in many ways.  Data that spells the fields of its layout is
kept with the names written out; data in which no pointer can start is kept as it is.
-/

namespace Nameserver

namespace DataField

/-- Some octets spell fields one after another; `written` are the fields' octets with the names
written out. -/
inductive Spells (table : PointerTable) : List DataField → Octets → Octets → Prop
  | nil : Spells table [] [] []
  | name {n : Name} {fields : List DataField} {written octets spelling : Octets}
      (head : Name.Spells table n.labels spelling) (tail : Spells table fields written octets) :
      Spells table (.name :: fields) (n.wire ++ written) (spelling ++ octets)
  | octets {value : Octets} {fields : List DataField} {written octets : Octets}
      (tail : Spells table fields written octets) :
      Spells table (.octets value.length :: fields) (value ++ written) (value ++ octets)

variable {table : PointerTable} {fields : List DataField} {written octets rest : Octets}

/-- Fields are read from every spelling of them, with the names written out. -/
theorem takes_readAll (h : Spells table fields written octets) :
    (readAll table fields).Takes octets written := by
  induction h with
  | nil => exact Reader.takes_pure []
  | name head _ ih =>
    exact ((Name.takes_reader head).bind_pure (f := Name.wire) rfl).bind (ih.bind_pure rfl)
  | @octets value _ _ _ _ ih =>
    exact ((Reader.takes_octets value).failingWith _).bind (ih.bind_pure rfl)

/-- What fields were read from spells them. -/
theorem spells_of_readAll (h : readAll table fields octets = .ok (written, rest)) :
    ∃ taken, octets = taken ++ rest ∧ Spells table fields written taken := by
  induction fields generalizing octets written with
  | nil =>
    cases h
    exact ⟨[], rfl, .nil⟩
  | cons field fields ih =>
    obtain ⟨first, middle, hfirst, h⟩ := Reader.bind_eq_ok_iff.1 h
    obtain ⟨others, after, hothers, h⟩ := Reader.bind_eq_ok_iff.1 h
    cases h
    obtain ⟨taken, rfl, hspells⟩ := ih hothers
    cases field with
    | name =>
      obtain ⟨n, after, hname, h⟩ := Reader.bind_eq_ok_iff.1 hfirst
      cases h
      obtain ⟨spelling, rfl, hn⟩ := Name.spells_of_reader hname
      exact ⟨spelling ++ taken, (List.append_assoc _ _ _).symm, .name hn hspells⟩
    | octets count =>
      obtain ⟨rfl, rfl⟩ := Reader.octets_eq_ok_iff.1 (Reader.failingWith_eq_ok_iff.1 hfirst)
      exact ⟨first ++ taken, (List.append_assoc _ _ _).symm, .octets hspells⟩

/-- Fields in whose spelling no pointer can start are written out already. -/
theorem Spells.eq_of_small (h : Spells table fields written octets)
    (hsmall : ∀ o ∈ octets, o < 0xc0) : octets = written := by
  induction h with
  | nil => rfl
  | name head _ ih =>
    rw [List.forall_mem_append] at hsmall
    rw [Name.eq_wire_of_spells head hsmall.1, ih hsmall.2]
  | octets _ ih =>
    rw [List.forall_mem_append] at hsmall
    rw [ih hsmall.2]

/-- Octets that follow a layout with all names written out. -/
inductive LaidOut : List DataField → Octets → Prop
  | nil : LaidOut [] []
  | name (n : Name) {fields : List DataField} {data : Octets} (tail : LaidOut fields data) :
      LaidOut (.name :: fields) (n.wire ++ data)
  | octets (value : Octets) {fields : List DataField} {data : Octets} (tail : LaidOut fields data) :
      LaidOut (.octets value.length :: fields) (value ++ data)

theorem LaidOut.spells {data : Octets} (h : LaidOut fields data) :
    Spells table fields data data := by
  induction h with
  | nil => exact .nil
  | name n _ ih => exact .name (n.spells_wire table) ih
  | octets value _ ih => exact .octets ih

/-- What fields come to with the names written out follows the layout. -/
theorem Spells.laidOut (h : Spells table fields written octets) : LaidOut fields written := by
  induction h with
  | nil => exact .nil
  | name _ _ ih => exact .name _ ih
  | octets _ ih => exact .octets _ ih

/-- How many octets a field takes at most, with names written out. -/
def limit : DataField → Nat
  | .name => 255
  | .octets count => count

theorem LaidOut.length_le {data : Octets} (h : LaidOut fields data) :
    data.length ≤ (fields.map limit).sum := by
  induction h with
  | nil => exact Nat.le_refl 0
  | name n _ ih =>
    -- A name takes at most 255 octets when it is written out.
    have hname := n.wireLength_le
    rw [← Name.wireLength, ← Name.length_wire] at hname
    rw [List.length_append, List.map_cons, List.sum_cons, limit]
    omega
  | octets value _ ih =>
    rw [List.length_append, List.map_cons, List.sum_cons, limit]
    omega

end DataField

namespace RecordType

/-- Five types have a layout. -/
theorem layout?_eq_none {n : UInt16} (h : n ∉ [2, 5, 6, 12, 15]) :
    (ofNumber n).layout? = none := by
  unfold ofNumber
  -- Types with one of the five numbers are out, and all others have no layout.
  repeat' split
  all_goals simp_all [layout?]

variable {table : PointerTable} {rtype : RecordType} {fields : List DataField}
  {data octets : Octets}

/-- Some octets of a message spell record data of a type: its fields, if the type has a layout, or
else the data itself.  Octets in which no pointer can start spell themselves with any layout. -/
inductive SpellsData (table : PointerTable) (rtype : RecordType) : Octets → Octets → Prop
  | fields {fields : List DataField} {data octets : Octets} (layout : rtype.layout? = some fields)
      (spells : DataField.Spells table fields data octets) : SpellsData table rtype data octets
  | verbatim {data : Octets} (layout : rtype.layout? = none) : SpellsData table rtype data data
  | small {data : Octets} (small : ∀ o ∈ data, o < 0xc0) : SpellsData table rtype data data

/-- Data is kept as what its octets spell. -/
theorem expand_of_spellsData (h : SpellsData table rtype data octets) :
    rtype.expand table octets = data := by
  rw [expand]
  cases h with
  | fields layout spells =>
    have htakes := DataField.takes_readAll spells []
    rw [List.append_nil] at htakes
    rw [layout]
    dsimp only
    rw [htakes]
  | verbatim layout => rw [layout]
  | small small =>
    split
    next => rfl
    next fields layout =>
      split
      -- If the octets follow the layout, then without pointers they are their own expansion.
      next expanded hread =>
        obtain ⟨taken, htaken, hspells⟩ := DataField.spells_of_readAll hread
        rw [List.append_nil] at htaken
        subst htaken
        exact (hspells.eq_of_small small).symm
      next => rfl

/-- The longest layout has two names and twenty octets. -/
theorem sum_limit_le (h : rtype.layout? = some fields) :
    (fields.map DataField.limit).sum ≤ 530 := by
  cases rtype with
  | ns | cname | ptr | mx | soa =>
    cases h
    decide
  | _ => cases h

/-- Data that is kept otherwise than it stands in a message follows the layout of its type. -/
theorem expand_eq_or_laidOut (rtype : RecordType) (table : PointerTable) (octets : Octets) :
    rtype.expand table octets = octets ∨
      ∃ fields, rtype.layout? = some fields ∧
        DataField.LaidOut fields (rtype.expand table octets) := by
  rw [expand]
  split
  next => exact .inl rfl
  next fields layout =>
    split
    next expanded hread =>
      obtain ⟨taken, -, hspells⟩ := DataField.spells_of_readAll hread
      exact .inr ⟨fields, layout, hspells.laidOut⟩
    next => exact .inl rfl

/-- Sixteen bits hold the length of data that is kept, if they hold the length of its octets. -/
theorem length_expand_le (table : PointerTable) (h : octets.length ≤ 65535) :
    (rtype.expand table octets).length ≤ 65535 := by
  rcases rtype.expand_eq_or_laidOut table octets with hsame | ⟨fields, layout, hlaid⟩
  · rw [hsame]
    exact h
  · have hlength := hlaid.length_le
    -- Data that changed follows a layout, and these are short.
    have hlimit := sum_limit_le layout
    omega

end RecordType

end Nameserver

import Nameserver.Proofs.Zone.Tree
/-!
# The canonical order of names

Names are compared label by label from the root on, and an ancestor comes before its descendants.
This is the lexicographic order of paths, so the order of a tree in which a node comes before its
children and the children come in the order of their labels.
-/

namespace Nameserver

namespace Name

/-! ## 1. The order -/

/-- The order of labels that lead down from the root.  The first labels that differ decide; where one
list goes on after the end of the other, it comes later. -/
def compareLabels : List Label → List Label → Ordering
  | [], [] => .eq
  | [], _ :: _ => .lt
  | _ :: _, [] => .gt
  | a :: s, b :: t => (a.compare b).then (compareLabels s t)

/-- The canonical order of names. -/
def compare (a b : Name) : Ordering := compareLabels a.labelsFromRoot b.labelsFromRoot

/-- Whether the first name may stand before the second one. -/
def le (a b : Name) : Bool := (compare a b).isLE

/-! ## 2. The order of paths -/

/-- The lexicographic order of paths, each step of which is an octet string. -/
def comparePaths : List Octets → List Octets → Ordering :=
  List.compareLex (List.compareLex Ord.compare)

instance : Std.TransCmp comparePaths :=
  inferInstanceAs (Std.TransCmp (List.compareLex (List.compareLex Ord.compare)))

instance : Std.LawfulEqCmp comparePaths :=
  inferInstanceAs (Std.LawfulEqCmp (List.compareLex (List.compareLex Ord.compare)))

theorem compareLabels_eq (s t : List Label) :
    compareLabels s t = comparePaths (s.map Label.folded) (t.map Label.folded) := by
  induction s generalizing t with
  | nil => cases t <;> rfl
  | cons a s ih =>
    cases t with
    | nil => rfl
    | cons b t =>
      rw [compareLabels, ih, Label.compare, Label.compareOctets_eq_compareLex]
      exact List.compareLex_cons_cons.symm

theorem compare_eq (a b : Name) : compare a b = comparePaths a.path b.path :=
  compareLabels_eq _ _

/-- Paths with the same beginning are in the order of what follows it. -/
theorem comparePaths_append (p s t : List Octets) :
    comparePaths (p ++ s) (p ++ t) = comparePaths s t := by
  induction p with
  | nil => rfl
  | cons a p ih =>
    have hself : List.compareLex Ord.compare a a = .eq := Std.ReflCmp.compare_self
    rw [comparePaths, List.cons_append, List.cons_append, List.compareLex_cons_cons, hself]
    exact ih

/-! ## 3. Sorting by the order -/

variable {a b c : Name} {above : List Octets}

theorem le_trans (hab : a.le b = true) (hbc : b.le c = true) :
    a.le c = true := by
  rw [le, compare_eq] at hab hbc ⊢
  exact Std.TransCmp.isLE_trans hab hbc

theorem le_total (a b : Name) : (a.le b || b.le a) = true := by
  have hswap : comparePaths a.path b.path = (comparePaths b.path a.path).swap :=
    Std.OrientedCmp.eq_swap
  rw [le, le, compare_eq, compare_eq, hswap]
  cases comparePaths b.path a.path <;> rfl

/-- Only names that are the same may stand in either order. -/
theorem path_eq_of_le (hab : a.le b = true) (hba : b.le a = true) :
    a.path = b.path := by
  rw [le, compare_eq] at hab hba
  exact Std.LawfulEqCmp.eq_of_compare (Std.OrientedCmp.isLE_antisymm hab hba)

/-- An ancestor comes before its descendants, and names that are the same come in any order. -/
theorem le_of_prefix (h : a.path <+: b.path) : a.le b = true := by
  obtain ⟨rest, hpath⟩ := h
  have hrest : comparePaths (a.path ++ []) (a.path ++ rest) = comparePaths [] rest :=
    comparePaths_append _ _ _
  rw [List.append_nil] at hrest
  rw [le, compare_eq, ← hpath, hrest]
  cases rest <;> rfl

/-- Below one node, names come in the order of the labels that lead to them. -/
theorem le_of_siblings {k l : Label} (hlt : k.compare l = .lt)
    (ha : above ++ [k.folded] <+: a.path) (hb : above ++ [l.folded] <+: b.path) :
    a.le b = true := by
  obtain ⟨s, hs⟩ := ha
  obtain ⟨t, ht⟩ := hb
  have hlabels : List.compareLex Ord.compare k.folded l.folded = .lt := by
    rw [← Label.compareOctets_eq_compareLex]
    exact hlt
  -- The step after the common path decides, whatever comes below.
  have hpaths : comparePaths (k.folded :: s) (l.folded :: t) = .lt := by
    rw [comparePaths, List.compareLex_cons_cons, hlabels]
    rfl
  rw [le, compare_eq, ← hs, ← ht, List.append_assoc, List.append_assoc,
    comparePaths_append, List.singleton_append, List.singleton_append, hpaths]
  rfl

end Name

/-! ## 4. Records by their owners -/

namespace Record

/-- Whether the first record may stand before the second one where records are in the order of their
owners. -/
def ownerLE (r s : Record) : Bool := r.owner.le s.owner

theorem ownerLE_trans (r s u : Record) (hrs : r.ownerLE s = true) (hsu : s.ownerLE u = true) :
    r.ownerLE u = true :=
  Name.le_trans hrs hsu

theorem ownerLE_total (r s : Record) : (r.ownerLE s || s.ownerLE r) = true :=
  Name.le_total r.owner s.owner

theorem ownerLE_of_prefix {r s : Record} (h : r.path <+: s.path) : r.ownerLE s = true :=
  Name.le_of_prefix h

theorem ownerLE_of_path_eq {r s : Record} (h : r.path = s.path) : r.ownerLE s = true :=
  ownerLE_of_prefix (h ▸ List.prefix_rfl)

theorem path_eq_of_ownerLE {r s : Record} (hrs : r.ownerLE s = true) (hsr : s.ownerLE r = true) :
    r.path = s.path :=
  Name.path_eq_of_le hrs hsr

end Record

end Nameserver

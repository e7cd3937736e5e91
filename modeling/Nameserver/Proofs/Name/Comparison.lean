import Mathlib.Data.List.Forall2
import Nameserver.Proofs.Label.Order
import Nameserver.Proofs.Name.Wire
/-!
# Comparing labels and names

Equality, order and hash see nothing of a label but its folded octets, so they agree, for labels and
for owned copies of labels.  Names are the same label by label, which is how they are hashed, and
which is to have the same wire form but for letter case.
-/

namespace Nameserver

/-! ## 1. Equality, order and hash -/

/-- The order is total, and what comes out equal in it is what is the same, and what is hashed
alike. -/
structure Coherent {α : Type} (same : α → α → Bool) (compare : α → α → Ordering)
    (hashInput : α → List Nat) : Prop where
  refl : ∀ a, (compare a a).isLE = true
  antisymm : ∀ a b, (compare a b).isLE = true → (compare b a).isLE = true → same a b = true
  trans : ∀ a b c, (compare a b).isLE = true → (compare b c).isLE = true → (compare a c).isLE = true
  total : ∀ a b, (compare a b).isLE = true ∨ (compare b a).isLE = true
  swap : ∀ a b, compare a b = (compare b a).swap
  compare_eq_iff : ∀ a b, compare a b = .eq ↔ same a b = true
  hashInput_eq_iff : ∀ a b, hashInput a = hashInput b ↔ same a b = true

section

variable {α β : Type} {same : α → α → Bool} {compare : α → α → Ordering} {hashInput : α → List Nat}

/-- What goes through values that are compared coherently is coherent. -/
theorem Coherent.comap (h : Coherent same compare hashInput) (f : β → α) :
    Coherent (fun a b => same (f a) (f b)) (fun a b => compare (f a) (f b))
      fun a => hashInput (f a) where
  refl a := h.refl (f a)
  antisymm a b := h.antisymm (f a) (f b)
  trans a b c := h.trans (f a) (f b) (f c)
  total a b := h.total (f a) (f b)
  swap a b := h.swap (f a) (f b)
  compare_eq_iff a b := h.compare_eq_iff (f a) (f b)
  hashInput_eq_iff a b := h.hashInput_eq_iff (f a) (f b)

end

/-! ## 2. Labels -/

namespace Label

@[simp] theorem length_folded (l : Label) : l.folded.length = l.length := List.length_map _

theorem same_comm (a b : Label) : a.same b = b.same a := by
  rw [Bool.eq_iff_iff, same_iff, same_iff, eq_comm]

theorem compare_swap (a b : Label) : a.compare b = (b.compare a).swap := by
  simp only [compare, compareOctets_eq_compareLex]
  exact Std.OrientedCmp.eq_swap

/-- Labels are hashed alike exactly when they are the same label. -/
theorem hashInput_eq_iff {a b : Label} : a.hashInput = b.hashInput ↔ a.same b = true := by
  rw [same_iff]
  constructor
  · intro h
    have hinjective : Function.Injective UInt8.toNat := fun _ _ => UInt8.toNat_inj.1
    exact List.map_injective_iff.2 hinjective (List.cons.inj h).2
  · intro h
    have hlength : a.length = b.length := by rw [← length_folded, h, length_folded]
    rw [hashInput, hashInput, hlength, h]

/-- Labels are compared, told to be the same and hashed by their folded octets alone. -/
theorem coherent : Coherent same compare hashInput where
  refl a := by
    rw [compare_eq_iff.2 rfl]
    rfl
  antisymm a b hab hba := by
    rw [compare, compareOctets_eq_compareLex] at hab hba
    rw [same_iff, ← compare_eq_iff, compare, compareOctets_eq_compareLex]
    exact Std.OrientedCmp.isLE_antisymm hab hba
  trans a b c hab hbc := by
    rw [← le_eq_isLE] at hab hbc ⊢
    exact le_trans hab hbc
  total a b := by
    have htotal := le_total a b
    rwa [Bool.or_eq_true, le_eq_isLE, le_eq_isLE] at htotal
  swap := compare_swap
  compare_eq_iff a b := compare_eq_iff.trans same_iff.symm
  hashInput_eq_iff a b := hashInput_eq_iff

/-- The label with all its letters small. -/
def fold (l : Label) : Label := ⟨l.folded, by rw [length_folded]; exact l.length_le⟩

/-- Labels are the same letter case apart if their small forms are equal. -/
theorem fold_eq_fold_iff {a b : Label} : a.fold = b.fold ↔ a.folded = b.folded :=
  ⟨congrArg octets, fun h => octets_inj h⟩

theorem isNull_fold (l : Label) : l.fold.isNull = l.isNull := by
  rw [isNull, isNull]
  exact List.isEmpty_map

/-- Lengths of labels are no letters, so to fold the octets of a label is to fold all there is. -/
theorem wire_fold (l : Label) : l.fold.wire = l.wire.map Text.lower := by
  -- A length is below 64, where there is no letter.
  have hlength : Text.lower (UInt8.ofNat l.length) = UInt8.ofNat l.length := by
    rw [Text.lower, if_neg]
    intro h
    obtain ⟨hletter, -⟩ := Bool.and_eq_true_iff.1 h
    have hle := UInt8.le_iff_toNat_le.1 (of_decide_eq_true hletter)
    have hlt := UInt8.lt_iff_toNat_lt.1 l.lengthOctet_lt
    exact absurd (Nat.lt_of_le_of_lt hle hlt) (by decide)
  rw [wire, wire, List.map_cons, hlength, length, fold, length_folded]
  rfl

end Label

/-! ## 3. Owned labels -/

/-- A label with cells of its own, of which the first few are in use. -/
structure OwnedLabel where
  cells : Vector UInt8 63
  used : Nat
  used_le : used ≤ 63

namespace OwnedLabel

/-- The label in the cells that are in use. -/
def borrow (o : OwnedLabel) : Label :=
  ⟨o.cells.toList.take o.used, by
    rw [List.length_take_of_le (by simp [o.used_le])]
    exact o.used_le⟩

/-- A copy of a label. -/
def ofLabel (l : Label) : OwnedLabel where
  cells := ⟨(l.octets ++ List.replicate (63 - l.length) 0).toArray, by
    have hle := l.length_le
    rw [List.size_toArray, List.length_append, List.length_replicate, Label.length]
    omega⟩
  used := l.length
  used_le := l.length_le

def same (a b : OwnedLabel) : Bool := a.borrow.same b.borrow

def compare (a b : OwnedLabel) : Ordering := a.borrow.compare b.borrow

def hashInput (o : OwnedLabel) : List Nat := o.borrow.hashInput

@[simp] theorem borrow_ofLabel (l : Label) : (ofLabel l).borrow = l := by
  apply Label.octets_inj
  -- The zeros behind the octets are in cells that are not in use.
  show (l.octets ++ List.replicate (63 - l.length) 0).take l.length = l.octets
  exact List.take_left

/-- Whatever is in the other cells, owned labels are compared as the labels that they are of. -/
theorem coherent : Coherent same compare hashInput := Label.coherent.comap borrow

end OwnedLabel

/-! ## 4. Names -/

theorem forall₂_eq_iff {α β : Type} {f : α → β} {xs ys : List α} :
    List.Forall₂ (fun x y => f x = f y) xs ys ↔ xs.map f = ys.map f := by
  rw [← List.forall₂_eq_eq_eq, List.forall₂_map_left_iff, List.forall₂_map_right_iff]

namespace Name

/-- What a hash of the name is computed from: the number of labels, then those of the labels. -/
def hashInput (n : Name) : List Nat := n.allLabels.length :: n.allLabels.flatMap Label.hashInput

/-- Small letters take as many octets as capital ones. -/
theorem wireLengthOf_map_fold (labels : List Label) :
    wireLengthOf (labels.map Label.fold) = wireLengthOf labels := by
  induction labels with
  | nil => rfl
  | cons l labels ih =>
    rw [List.map_cons, wireLengthOf, wireLengthOf, ih]
    exact congrArg (· + 1 + _) l.length_folded

/-- The name with all its letters small. -/
def fold (n : Name) : Name where
  labels := n.labels.map Label.fold
  ne_null := by
    intro l hl
    obtain ⟨m, hm, rfl⟩ := List.mem_map.1 hl
    rw [Label.isNull_fold]
    exact n.ne_null m hm
  wireLength_le := by
    rw [wireLengthOf_map_fold]
    exact n.wireLength_le

theorem allLabels_fold (n : Name) : n.fold.allLabels = n.allLabels.map Label.fold := by
  rw [allLabels, allLabels, List.map_append]
  rfl

/-- Names are the same whose labels are, one by one. -/
theorem same_iff_forall₂ {a b : Name} : a.same b = true ↔
    List.Forall₂ (fun l m => l.same m = true) a.allLabels b.allLabels := by
  simp only [Label.same_iff]
  rw [same_iff, forall₂_eq_iff, allLabels, allLabels, List.map_append, List.map_append,
    List.append_cancel_right_eq]

/-- A name is read back from its wire form, so different names have different ones. -/
theorem wire_injective : Function.Injective wire := by
  intro a b h
  have hread : reader .empty (a.wire ++ []) = .ok (b, []) := by
    rw [h]
    exact takes_reader (b.spells_wire .empty) []
  rw [takes_reader (a.spells_wire .empty) []] at hread
  exact congrArg Prod.fst (Except.ok.inj hread)

/-- Names are the same if they have the same wire form in small letters. -/
theorem same_iff_wire_fold {a b : Name} : a.same b = true ↔ a.fold.wire = b.fold.wire := by
  -- Both are said of the lists of labels, where the null label at the end is left out.
  have hfold : a.labels.map Label.fold = b.labels.map Label.fold ↔
      a.labels.map Label.folded = b.labels.map Label.folded := by
    simp only [← forall₂_eq_iff, Label.fold_eq_fold_iff]
  rw [wire_injective.eq_iff, same_iff, ← hfold]
  exact ⟨fun h => ext h, congrArg labels⟩

/-- The wire form in small letters is the wire form with its letters made small. -/
theorem wire_fold (n : Name) : n.fold.wire = n.wire.map Text.lower := by
  rw [wire, wire, allLabels_fold, List.map_flatMap, List.flatMap_map]
  exact List.flatMap_congr fun l _ => l.wire_fold

/-- What labels are hashed from, one after another, tells them apart: each starts with its length. -/
theorem forall₂_same_of_flatMap_hashInput {ls ms : List Label} (hlength : ls.length = ms.length)
    (h : ls.flatMap Label.hashInput = ms.flatMap Label.hashInput) :
    List.Forall₂ (fun l m => l.same m = true) ls ms := by
  induction ls generalizing ms with
  | nil =>
    rw [List.length_eq_zero_iff.1 hlength.symm]
    exact .nil
  | cons l ls ih =>
    cases ms with
    | nil => cases hlength
    | cons m ms =>
      rw [List.flatMap_cons, List.flatMap_cons] at h
      -- The number in front says how much is of the first label; from there on it is the others.
      have hhead : l.length = m.length := (List.cons.inj h).1
      have hinput : l.hashInput.length = m.hashInput.length := by
        simp only [Label.hashInput, List.length_cons, List.length_map, Label.length_folded, hhead]
      obtain ⟨hl, hls⟩ := List.append_inj h hinput
      exact .cons (Label.hashInput_eq_iff.1 hl) (ih (Nat.succ.inj hlength) hls)

/-- Names are hashed alike exactly when they are the same name. -/
theorem hashInput_eq_iff {a b : Name} : a.hashInput = b.hashInput ↔ a.same b = true := by
  rw [same_iff_forall₂]
  constructor
  · intro h
    -- The number of labels is hashed first, so there are as many of them on both sides.
    obtain ⟨hlength, hinput⟩ := List.cons.inj h
    exact forall₂_same_of_flatMap_hashInput hlength hinput
  · intro h
    have hinput : a.allLabels.map Label.hashInput = b.allLabels.map Label.hashInput :=
      forall₂_eq_iff.1 (h.imp fun _ _ => Label.hashInput_eq_iff.2)
    rw [hashInput, hashInput, h.length_eq, List.flatMap, List.flatMap, hinput]

end Name

end Nameserver

import Nameserver.Label
/-!
# The order of labels

The canonical order of labels is the lexicographic order of their folded octets.  It is a total
order in which two labels come out equal exactly when they are the same label.
-/

namespace Nameserver.Label

/-- The order of octet strings is the lexicographic order of lists of octets. -/
theorem compareOctets_eq_compareLex (s t : Octets) :
    compareOctets s t = List.compareLex Ord.compare s t := by
  induction s generalizing t with
  | nil => cases t <;> rfl
  | cons a s ih =>
    cases t with
    | nil => rfl
    | cons b t =>
      rw [compareOctets, List.compareLex_cons_cons, ← ih]
      show _ = (compareOfLessAndEq a b).then _
      unfold compareOfLessAndEq
      -- The octets decide, unless they are equal; then both sides go on with the rest.
      by_cases hab : a < b
      · simp only [hab, if_true, Ordering.then]
      · by_cases heq : a = b
        · subst heq
          simp [Ordering.then]
        · have hba : b < a := UInt8.lt_of_le_of_ne (UInt8.not_lt.1 hab) (Ne.symm heq)
          simp only [hab, heq, hba, if_true, if_false, Ordering.then]

theorem compareOctets_self (s : Octets) : compareOctets s s = .eq := by
  rw [compareOctets_eq_compareLex]
  exact Std.ReflCmp.compare_self

/-- Two labels compare equal exactly when they are the same label. -/
theorem compare_eq_iff {a b : Label} : a.compare b = .eq ↔ a.folded = b.folded := by
  constructor
  · intro h
    rw [compare, compareOctets_eq_compareLex] at h
    exact Std.LawfulEqCmp.eq_of_compare h
  · intro h
    rw [compare, h]
    exact compareOctets_self _

/-- The order that comes out with the labels exchanged is the opposite one. -/
theorem compare_gt_iff {a b : Label} : a.compare b = .gt ↔ b.compare a = .lt := by
  simp only [compare, compareOctets_eq_compareLex]
  exact Std.OrientedCmp.gt_iff_lt

theorem compare_lt_trans {a b c : Label} (hab : a.compare b = .lt) (hbc : b.compare c = .lt) :
    a.compare c = .lt := by
  simp only [compare, compareOctets_eq_compareLex] at hab hbc ⊢
  exact Std.TransCmp.lt_trans hab hbc

/-- The order sees nothing of a label but its folded octets. -/
theorem compare_congr {a a' : Label} (h : a.folded = a'.folded) (b : Label) :
    a.compare b = a'.compare b := by
  simp only [compare, h]

/-- A label that comes before another is not the same label. -/
theorem folded_ne_of_compare_lt {a b : Label} (h : a.compare b = .lt) : a.folded ≠ b.folded := by
  intro heq
  rw [compare_eq_iff.2 heq] at h
  cases h

theorem le_eq_isLE (a b : Label) : a.le b = (a.compare b).isLE := by
  rw [le]
  cases a.compare b <;> rfl

theorem le_trans {a b c : Label} (hab : a.le b = true) (hbc : b.le c = true) : a.le c = true := by
  rw [le_eq_isLE, compare, compareOctets_eq_compareLex] at hab hbc ⊢
  exact Std.TransCmp.isLE_trans hab hbc

theorem le_total (a b : Label) : (a.le b || b.le a) = true := by
  rw [le, le]
  cases hab : a.compare b with
  | gt =>
    rw [compare_gt_iff.1 hab]
    rfl
  | _ => rfl

/-- A label that may stand before another one, and is not the same, comes before it. -/
theorem compare_lt_of_le {a b : Label} (hle : a.le b = true) (hne : a.folded ≠ b.folded) :
    a.compare b = .lt := by
  rw [le] at hle
  cases hab : a.compare b with
  | lt => rfl
  -- That the labels are not the same leaves the strict order only.
  | eq => exact absurd (compare_eq_iff.1 hab) hne
  | gt =>
    rw [hab] at hle
    cases hle

end Nameserver.Label

import Nameserver.Text.Lines
/-!
# Where characters end

An ASCII octet is a character of its own in any UTF-8 text, so what stands before it and after it is
text again.  Reading that stops at such octets parts a text where a character ends.
-/

namespace Nameserver.Text

/-- Whether a character of the text starts at the offset, or the text ends there. -/
def IsBoundary (t : Text) (offset : Nat) : Prop :=
  offset ≤ t.length ∧ (t.drop offset).head?.all (fun o => !isContinuation o) = true

theorem isContinuation_of_le {o : UInt8} (h : o ≤ 0x7f) : isContinuation o = false := by
  rw [isContinuation, Bool.and_eq_false_iff]
  left
  rw [decide_eq_false_iff_not, UInt8.le_iff_toNat_le]
  have hle : o.toNat ≤ 0x7f := h
  show ¬ 0x80 ≤ o.toNat
  omega

theorem isUtf8_append_cons {o : UInt8} (ho : o ≤ 0x7f) (s rest : Octets) :
    isUtf8 (s ++ o :: rest) = (isUtf8 s && isUtf8 rest) := by
  have hnot := isContinuation_of_le ho
  -- A character that `o` would cut short has fewer octets than its first one asks for.
  fun_induction isUtf8 s with
  | case1 =>
    rw [List.nil_append, isUtf8.eq_def]
    exact if_pos ho
  | case2 a s hone ih =>
    rw [List.cons_append, isUtf8.eq_def]
    simp only [if_pos hone, ih]
  | case3 a hone =>
    rw [List.cons_append, isUtf8.eq_def]
    simp only [if_neg hone, List.nil_append, hnot, Bool.false_and]
    cases rest with
    | nil => simp
    | cons c rest => cases rest <;> simp
  | case4 a hone b s htwo ih =>
    rw [List.cons_append, isUtf8.eq_def]
    simp only [if_neg hone, List.cons_append, if_pos htwo, ih, Bool.and_assoc]
  | case5 a hone b htwo =>
    rw [List.cons_append, isUtf8.eq_def]
    simp only [if_neg hone, List.cons_append, List.nil_append, if_neg htwo, hnot, Bool.and_false,
      Bool.false_and]
    cases rest <;> simp
  | case6 a hone b htwo c s hthree ih =>
    rw [List.cons_append, isUtf8.eq_def]
    simp only [if_neg hone, List.cons_append, if_neg htwo, if_pos hthree, ih, Bool.and_assoc]
  | case7 a hone b htwo c hthree =>
    rw [List.cons_append, isUtf8.eq_def]
    simp only [if_neg hone, List.cons_append, List.nil_append, if_neg htwo, if_neg hthree, hnot,
      Bool.and_false, Bool.false_and]
  | case8 a hone b htwo c hthree d s ih =>
    rw [List.cons_append, isUtf8.eq_def]
    simp only [if_neg hone, List.cons_append, if_neg htwo, if_neg hthree, ih, Bool.and_assoc]

/-- No text starts inside a character. -/
theorem head?_of_isUtf8 {t : Text} (h : isUtf8 t = true) :
    t.head?.all (fun o => !isContinuation o) = true := by
  cases t with
  | nil => rfl
  | cons o t =>
    rw [List.head?_cons, Option.all_some, Bool.not_eq_true', Bool.eq_false_iff]
    intro ho
    rw [isContinuation, Bool.and_eq_true, decide_eq_true_eq, decide_eq_true_eq,
      UInt8.le_iff_toNat_le, UInt8.le_iff_toNat_le] at ho
    obtain ⟨hlow, hhigh⟩ : 0x80 ≤ o.toNat ∧ o.toNat ≤ 0xbf := ho
    -- The first octet of a character is below these octets or above them.
    have hone : ¬ o ≤ 0x7f := fun hle => by
      have hle : o.toNat ≤ 0x7f := hle
      omega
    have hlong : ∀ first : UInt8, 0xc2 ≤ first.toNat → decide (first ≤ o) = false := by
      intro first hfirst
      rw [decide_eq_false_iff_not, UInt8.le_iff_toNat_le]
      omega
    rw [isUtf8.eq_def] at h
    simp only [if_neg hone, hlong 0xc2 (by decide), hlong 0xe0 (by decide),
      hlong 0xf0 (by decide), Bool.false_and, Bool.false_eq_true, if_false] at h
    rcases t with _ | ⟨_, _ | ⟨_, _ | _⟩⟩ <;> cases h

end Nameserver.Text

import Nameserver.Message.Wire
/-!
# The flags of a header

A header is known from its identifier and its flags, if its opcode and response code fit four bits.
-/

namespace Nameserver

theorem Opcode.ofNumber?_isSome {n : UInt8} (h : n ≤ 15) : (ofNumber? n).isSome := by
  unfold ofNumber?
  rw [if_pos h]
  repeat' split
  all_goals rfl

theorem ResponseCode.ofNumber?_isSome {n : UInt8} (h : n ≤ 15) : (ofNumber? n).isSome := by
  unfold ofNumber?
  split
  · rfl
  · rw [if_pos h]
    rfl

/-- The name of an opcode has the number of the opcode. -/
@[simp] theorem Opcode.number_normalized (o : Opcode) : o.normalized.number = o.number := by
  cases o with
  -- Only a number that was not given by its name may come by another name.
  | unassigned v =>
    show ((ofNumber? v).getD _).number = v
    unfold ofNumber?
    repeat' split
    all_goals simp_all [number]
  | _ => rfl

/-- A code in the list of named codes has its place as its number. -/
theorem ResponseCode.number_of_named {n : Nat} {c : ResponseCode} (h : named[n]? = some c) :
    c.number = UInt8.ofNat n := by
  -- The named codes stand in the order of their numbers.
  have hnumbers : named.map number = (List.range 12).map UInt8.ofNat := rfl
  have hlt : n < 12 := (List.getElem?_eq_some_iff.1 h).1
  have hat := congrArg (fun numbers => numbers[n]?) hnumbers
  simp only [List.getElem?_map, h, List.getElem?_range hlt] at hat
  exact Option.some.inj hat

@[simp] theorem ResponseCode.number_normalized (c : ResponseCode) :
    c.normalized.number = c.number := by
  rw [normalized, ofNumber?]
  split
  next named hnamed => rw [Option.getD_some, number_of_named hnamed, UInt8.ofNat_toNat]
  next =>
    split
    next => rfl
    next => rfl

theorem Opcode.normalized_normalized (o : Opcode) : o.normalized.normalized = o.normalized := by
  rw [normalized.eq_def o.normalized, number_normalized]
  rw [normalized]
  cases ofNumber? o.number <;> rfl

theorem ResponseCode.normalized_normalized (c : ResponseCode) :
    c.normalized.normalized = c.normalized := by
  rw [normalized.eq_def c.normalized, number_normalized]
  rw [normalized]
  cases ofNumber? c.number <;> rfl

/-- An opcode by its name is found again by its number. -/
theorem Opcode.ofNumber?_number {o : Opcode} (hfits : o.number ≤ 15) (h : o.normalized = o) :
    ofNumber? o.number = some o := by
  obtain ⟨o', ho'⟩ := Option.isSome_iff_exists.1 (ofNumber?_isSome hfits)
  rw [normalized, ho'] at h
  rw [ho', ← h]
  rfl

theorem ResponseCode.ofNumber?_number {c : ResponseCode} (hfits : c.number ≤ 15)
    (h : c.normalized = c) : ofNumber? c.number = some c := by
  obtain ⟨c', hc'⟩ := Option.isSome_iff_exists.1 (ofNumber?_isSome hfits)
  rw [normalized, hc'] at h
  rw [hc', ← h]
  rfl

/-- What an opcode comes to by its number alone. -/
theorem Opcode.ofBits_number {o : Opcode} (h : o.number ≤ 15) {n : Nat}
    (hn : n % 16 = o.number.toNat) : ofBits n = o.normalized := by
  have hsome := ofNumber?_isSome h
  rw [ofBits, hn, UInt8.ofNat_toNat, normalized, normalized]
  show (ofNumber? o.number).getD _ = _
  -- Four bits always give an opcode, so the default of `getD` is not used.
  obtain ⟨o', ho'⟩ := Option.isSome_iff_exists.1 hsome
  rw [ho']
  rfl

theorem ResponseCode.ofBits_number {c : ResponseCode} (h : c.number ≤ 15) {n : Nat}
    (hn : n % 16 = c.number.toNat) : ofBits n = c.normalized := by
  have hsome := ofNumber?_isSome h
  rw [ofBits, hn, UInt8.ofNat_toNat, normalized, normalized]
  show (ofNumber? c.number).getD _ = _
  obtain ⟨c', hc'⟩ := Option.isSome_iff_exists.1 hsome
  rw [hc']
  rfl

namespace Header

/-- The same header, with its opcode and response code by their names. -/
def normalized (h : Header) : Header :=
  { h with opcode := h.opcode.normalized, code := h.code.normalized }

theorem normalized_eq_iff {h : Header} :
    h.normalized = h ↔ h.opcode.normalized = h.opcode ∧ h.code.normalized = h.code := by
  cases h
  simp [normalized]

/-- The flags are five bits, two numbers of four bits, and three bits that are not used. -/
theorem flags_bounds (h : Header) :
    h.isResponse.toNat ≤ 1 ∧ h.authoritative.toNat ≤ 1 ∧ h.truncated.toNat ≤ 1 ∧
      h.recursionDesired.toNat ≤ 1 ∧ h.recursionAvailable.toNat ≤ 1 :=
  ⟨Bool.toNat_le _, Bool.toNat_le _, Bool.toNat_le _, Bool.toNat_le _, Bool.toNat_le _⟩

theorem flags_lt (h : Header) : h.flags < 65536 := by
  obtain ⟨hqr, haa, htc, hrd, hra⟩ := h.flags_bounds
  rw [flags]
  omega

theorem beq_one_eq {b : Bool} {n : Nat} (h : n = b.toNat) : (n == 1) = b := by
  rw [h]
  cases b <;> rfl

/-- The flags give the header back. -/
theorem ofFlags_flags {h : Header} (hopcode : h.opcode.number ≤ 15) (hcode : h.code.number ≤ 15) :
    ofFlags h.id h.flags = h.normalized := by
  -- With the bounds of the parts, division and remainder pick each part out of the sum.
  obtain ⟨hqr, haa, htc, hrd, hra⟩ := h.flags_bounds
  have ho : h.opcode.number.toNat ≤ 15 := UInt8.le_iff_toNat_le.1 hopcode
  have hc : h.code.number.toNat ≤ 15 := UInt8.le_iff_toNat_le.1 hcode
  have hopcode' : h.flags / 0x800 % 16 = h.opcode.number.toNat := by
    rw [flags]
    omega
  have hcode' : h.flags % 16 = h.code.number.toNat := by
    rw [flags]
    omega
  simp only [ofFlags, normalized, Header.mk.injEq, Opcode.ofBits_number hopcode hopcode',
    ResponseCode.ofBits_number hcode hcode', true_and, and_true]
  -- Each single flag is one digit of the flags to base two.
  refine ⟨?_, ?_, ?_, ?_, ?_⟩ <;> apply beq_one_eq <;> rw [flags] <;> omega

end Header

end Nameserver

import Nameserver.Proofs.Record.Fields
/-!
# Blanks around a line

Blanks in front of a line make no difference to how it is read.  Blanks behind it, such as a
carriage return that was left there, make none to whether it is read as a record and to what record.
-/

namespace Nameserver.Record

open Text (IsBlank)

variable {strictness : Name.Strictness} {lead line trail : Text} {r : Record}

/-- Blanks before a line make no difference at all. -/
theorem ofText_append_lead (h : IsBlank lead) (line : Text) :
    ofText strictness (lead ++ line) = ofText strictness line := by
  rw [ofText, ofText, Text.trimStart_append_of_isBlank h]

theorem ofText_trimStart (strictness : Name.Strictness) (line : Text) :
    ofText strictness (Text.trimStart line) = ofText strictness line := by
  obtain ⟨lead, hlead, hline, -⟩ := Text.trimStart_eq_iff.1 (rfl : Text.trimStart line = _)
  rw [← ofText_append_lead hlead, ← hline]

namespace Parts

/-- The parts with other blanks behind them. -/
def withTrail (p : Parts) (trail : Text) : Parts := { p with trail }

theorem Divided.withTrail {p : Parts} (h : p.Divided) (htrail : IsBlank trail) :
    (p.withTrail trail).Divided := { h with trail := htrail }

theorem Reads.withTrail {p : Parts} (h : p.Reads strictness r) (trail : Text) :
    (p.withTrail trail).Reads strictness r := { h with }

/-- What comes before the type's gap. -/
def front (p : Parts) : Text :=
  p.lead ++ (p.owner ++ (p.ownerGap ++ (p.ttl ++ (p.ttlGap ++ (p.rclass ++ (p.classGap ++
    p.rtype))))))

/-- The line up to the end of the data. -/
def body (p : Parts) : Text := p.front ++ (p.typeGap ++ p.data)

/-- Of the parts of a line, only the trail comes after the body. -/
theorem line_withTrail (p : Parts) (trail : Text) : (p.withTrail trail).line = p.body ++ trail := by
  simp only [line, withTrail, body, front, List.append_assoc]

theorem line_eq_body (p : Parts) : p.line = p.body ++ p.trail := p.line_withTrail p.trail

/-- No blank is at the end of the body, also none that starts before the data. -/
theorem Divided.not_suffix_body {p : Parts} (h : p.Divided) :
    ∀ u ∈ Text.blanks, ¬ u <:+ p.body := by
  obtain ⟨hgap, hspace⟩ := h.gaps p.typeGap (by simp)
  have hdata := Text.not_suffix_append h.data_ne_nil (fun u hu => (h.data_ends u hu).2) hgap
  intro u hu hsuffix
  rcases List.suffix_or_suffix_of_suffix hsuffix (List.suffix_append _ _) with
    hshort | ⟨more, hmore⟩
  · exact hdata u hu hshort
  · cases more with
    | nil => exact hdata u hu (hmore ▸ List.suffix_refl _)
    | cons o more =>
      -- The blank would go on with the octet that starts the gap.
      obtain ⟨first, gap, hcons⟩ := List.exists_cons_of_ne_nil (show p.typeGap ≠ [] by
        rintro hnil
        rw [hnil] at hspace
        cases hspace)
      rw [hcons] at hgap hmore
      have hcontinued := List.all_eq_true.1 (Text.blanks_octets u hu).2 first (by simp [← hmore])
      rw [Text.isContinuation_of_isBlank hgap] at hcontinued
      cases hcontinued

/-- Blanks at the end of a line that has parts are in the trail. -/
theorem Divided.exists_trail {p : Parts} (h : p.Divided) (hline : p.line = line ++ trail)
    (htrail : IsBlank trail) : ∃ back, IsBlank back ∧ line = (p.withTrail back).line := by
  rw [p.line_eq_body] at hline
  rcases List.append_eq_append_iff.1 hline with ⟨back, rfl, hback⟩ | ⟨back, hbody, rfl⟩
  · exact ⟨back, (hback ▸ h.trail).of_append htrail, (p.line_withTrail back).symm⟩
  · refine ⟨[], Text.isBlank_nil, ?_⟩
    -- The body does not end in blanks, so none of them reach into it.
    have hnil : back = [] := by
      by_contra hne
      obtain ⟨u, hu, hsuffix⟩ := (htrail.of_append h.trail).exists_suffix hne
      exact h.not_suffix_body u hu (hsuffix.trans (hbody ▸ List.suffix_append line back))
    rw [line_withTrail, hbody, hnil, List.append_nil, List.append_nil]

end Parts

/-- Blanks behind a line make no difference to the record on it. -/
theorem ofText_append_trail (htrail : IsBlank trail) :
    ofText strictness (line ++ trail) = .ok r ↔ ofText strictness line = .ok r := by
  constructor
  · intro h
    obtain ⟨p, hline, hp, hr⟩ := exists_parts_of_ofText h
    obtain ⟨back, hback, rfl⟩ := hp.exists_trail hline htrail
    exact (hr.withTrail back).ofText_line (hp.withTrail hback)
  · intro h
    obtain ⟨p, rfl, hp, hr⟩ := exists_parts_of_ofText h
    have hmore := (hr.withTrail (p.trail ++ trail)).ofText_line
      (hp.withTrail (hp.trail.append htrail))
    rwa [Parts.line_withTrail, ← List.append_assoc, ← Parts.line_eq_body] at hmore

end Nameserver.Record

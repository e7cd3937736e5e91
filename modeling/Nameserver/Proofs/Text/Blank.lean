import Mathlib.Data.List.Infix
import Nameserver.Text.Blank
import Nameserver.Text.Lines
/-!
# Blanks at the ends of a text

Trimming takes blank characters off the ends of a text and nothing else, and leaves a text that
starts and ends with none.  As no blank character is the start of another one, there is only one way
to do so.
-/

namespace Nameserver.Text

variable {units : List Text} {s t lead trail : Text}

/-! ## 1. Units -/

/-- No unit is empty or starts another one, so a text of units can be read in one way only. -/
def IsCode (units : List Text) : Prop := ∀ u ∈ units, u ≠ [] ∧ ∀ v ∈ units, u <+: v → u = v

/-- A text of units, one after another. -/
def MadeOf (units : List Text) (t : Text) : Prop :=
  ∃ pieces : List Text, (∀ u ∈ pieces, u ∈ units) ∧ t = pieces.flatten

/-- A text that starts with no unit stays as it is. -/
theorem strip_of_not_prefix (h : ∀ u ∈ units, ¬ u <+: t) : strip units t = t := by
  cases t with
  | nil => rw [strip]
  | cons o t =>
    have hnone : units.find? (·.isPrefixOf (o :: t)) = none := by
      rw [List.find?_eq_none]
      exact fun u hu hstarts => h u hu (List.isPrefixOf_iff_prefix.1 hstarts)
    rw [strip, hnone]

theorem prefix_of_find? {u : Text} (h : units.find? (·.isPrefixOf t) = some u) : u <+: t := by
  have hfound := List.find?_some h
  exact List.isPrefixOf_iff_prefix.1 hfound

/-- A unit comes off whole, as no other one could. -/
theorem strip_append {u : Text} (hcode : IsCode units) (hu : u ∈ units) (t : Text) :
    strip units (u ++ t) = strip units t := by
  obtain ⟨o, rest, rfl⟩ := List.exists_cons_of_ne_nil (hcode u hu).1
  have hfind : units.find? (·.isPrefixOf (o :: (rest ++ t))) = some (o :: rest) := by
    cases hfound : units.find? (·.isPrefixOf (o :: (rest ++ t))) with
    | none =>
      rw [List.find?_eq_none] at hfound
      exact absurd (List.isPrefixOf_iff_prefix.2 ⟨t, rfl⟩) (hfound _ hu)
    -- The unit that is found and the one that stands there start one another, so they are one.
    | some v =>
      have hv := List.mem_of_find?_eq_some hfound
      have hstarts := prefix_of_find? hfound
      rcases List.prefix_or_prefix_of_prefix hstarts (List.prefix_append (o :: rest) t) with h | h
      · rw [(hcode v hv).2 _ hu h]
      · rw [(hcode _ hu).2 v hv h]
  rw [List.cons_append, strip, hfind]
  dsimp only
  rw [List.length_cons, Nat.add_sub_cancel, List.drop_left]

theorem strip_append_of_madeOf (hcode : IsCode units) (h : MadeOf units lead) (t : Text) :
    strip units (lead ++ t) = strip units t := by
  obtain ⟨pieces, hpieces, rfl⟩ := h
  induction pieces with
  | nil => rfl
  | cons u pieces ih =>
    rw [List.forall_mem_cons] at hpieces
    rw [List.flatten_cons, List.append_assoc, strip_append hcode hpieces.1, ih hpieces.2]

/-- What comes off is units, and what is left starts with none. -/
theorem exists_of_strip (hcode : IsCode units) (t : Text) :
    ∃ lead, MadeOf units lead ∧ t = lead ++ strip units t ∧ ∀ u ∈ units, ¬ u <+: strip units t := by
  fun_induction strip units t with
  | case1 =>
    refine ⟨[], ⟨[], by simp⟩, rfl, fun u hu h => ?_⟩
    exact (hcode u hu).1 (List.prefix_nil.1 h)
  | case2 o t hnone =>
    refine ⟨[], ⟨[], by simp⟩, rfl, fun u hu h => ?_⟩
    rw [List.find?_eq_none] at hnone
    exact hnone u hu (List.isPrefixOf_iff_prefix.2 h)
  | case3 o t u hfound ih =>
    obtain ⟨lead, ⟨pieces, hpieces, rfl⟩, hlead, hnot⟩ := ih
    have hu := List.mem_of_find?_eq_some hfound
    obtain ⟨rest, hrest⟩ := prefix_of_find? hfound
    refine ⟨u ++ pieces.flatten, ⟨u :: pieces, List.forall_mem_cons.2 ⟨hu, hpieces⟩, rfl⟩, ?_, hnot⟩
    -- As many octets are dropped as the unit has, of which one is gone already.
    have hdrop : t.drop (u.length - 1) = rest := by
      obtain ⟨first, u, rfl⟩ := List.exists_cons_of_ne_nil (hcode u hu).1
      obtain ⟨-, htail⟩ := List.cons.inj hrest
      rw [List.length_cons, Nat.add_sub_cancel, ← htail]
      exact List.drop_left
    rw [← hrest, List.append_assoc, ← hlead, hdrop]

/-- Stripping gives the one text that starts with no unit and has units before it. -/
theorem strip_eq_iff (hcode : IsCode units) :
    strip units t = s ↔ ∃ lead, MadeOf units lead ∧ t = lead ++ s ∧ ∀ u ∈ units, ¬ u <+: s := by
  constructor
  · rintro rfl
    exact exists_of_strip hcode t
  · rintro ⟨lead, hlead, rfl, hnot⟩
    rw [strip_append_of_madeOf hcode hlead, strip_of_not_prefix hnot]

/-- A text of units is one of reversed units the other way round. -/
theorem madeOf_reverse_iff : MadeOf (units.map List.reverse) t.reverse ↔ MadeOf units t := by
  have hforward : ∀ {units : List Text} {t : Text}, MadeOf units t →
      MadeOf (units.map List.reverse) t.reverse := by
    rintro units _ ⟨pieces, hpieces, rfl⟩
    refine ⟨(pieces.map List.reverse).reverse, ?_, List.reverse_flatten⟩
    intro u hu
    obtain ⟨v, hv, rfl⟩ := List.mem_map.1 (List.mem_reverse.1 hu)
    exact List.mem_map_of_mem (hpieces v hv)
  constructor
  · intro h
    have hback := hforward h
    simpa [List.map_map, Function.comp_def] using hback
  · exact hforward

/-! ## 2. Blanks -/

/-- A text of blank characters and nothing else. -/
def IsBlank (t : Text) : Prop := MadeOf blanks t

theorem isCode_blanks : IsCode blanks := by
  unfold IsCode
  decide +kernel

theorem isCode_reverse_blanks : IsCode (blanks.map List.reverse) := by
  unfold IsCode
  decide +kernel

/-- The octets of a blank character continue it, but for the first one. -/
theorem blanks_octets : ∀ u ∈ blanks, (u.head?.all fun o => !isContinuation o) = true ∧
    u.tail.all isContinuation = true := by
  decide +kernel

theorem singleton_mem_blanks {o : UInt8} (h : isSpace o = true) : [o] ∈ blanks := by
  simp only [isSpace, Bool.or_eq_true, beq_iff_eq] at h
  rcases h with (((rfl | rfl) | rfl) | rfl) | rfl <;> decide +kernel

theorem isBlank_nil : IsBlank [] := ⟨[], by simp⟩

theorem isBlank_spaces (n : Nat) : IsBlank (List.replicate n space) := by
  refine ⟨List.replicate n [space], ?_, by simp⟩
  intro u hu
  rw [List.eq_of_mem_replicate hu]
  exact singleton_mem_blanks rfl

theorem trimStart_append_of_isBlank (h : IsBlank lead) (t : Text) :
    trimStart (lead ++ t) = trimStart t :=
  strip_append_of_madeOf isCode_blanks h t

theorem trimStart_eq_iff :
    trimStart t = s ↔ ∃ lead, IsBlank lead ∧ t = lead ++ s ∧ ∀ u ∈ blanks, ¬ u <+: s :=
  strip_eq_iff isCode_blanks

/-- Trimming the end takes off blanks, up to a text that ends with none. -/
theorem trimEnd_eq_iff :
    trimEnd t = s ↔ ∃ trail, IsBlank trail ∧ t = s ++ trail ∧ ∀ u ∈ blanks, ¬ u <:+ s := by
  rw [trimEnd, List.reverse_eq_iff, strip_eq_iff isCode_reverse_blanks]
  constructor
  · rintro ⟨lead, hlead, ht, hnot⟩
    refine ⟨lead.reverse, ?_, ?_, ?_⟩
    · rw [IsBlank, ← madeOf_reverse_iff, List.reverse_reverse]
      exact hlead
    · rw [← List.reverse_inj, ht, List.reverse_append, List.reverse_reverse]
    · intro u hu hsuffix
      exact hnot _ (List.mem_map_of_mem hu) (List.reverse_prefix.2 hsuffix)
  · rintro ⟨trail, htrail, rfl, hnot⟩
    refine ⟨trail.reverse, madeOf_reverse_iff.2 htrail, List.reverse_append, ?_⟩
    intro u hu hstarts
    -- Back to front, an end is a front.
    obtain ⟨v, hv, rfl⟩ := List.mem_map.1 hu
    exact hnot v hv (List.reverse_prefix.1 hstarts)

/-- What starts a blank text starts a blank character. -/
theorem exists_cons_mem_blanks {o : UInt8} (h : IsBlank (o :: t)) : ∃ u, o :: u ∈ blanks := by
  obtain ⟨pieces, hpieces, ht⟩ := h
  cases pieces with
  | nil => cases ht
  | cons u pieces =>
    have hu := hpieces u List.mem_cons_self
    obtain ⟨first, u, rfl⟩ := List.exists_cons_of_ne_nil (isCode_blanks u hu).1
    obtain ⟨rfl, -⟩ := List.cons.inj ht
    exact ⟨u, hu⟩

/-- A blank text starts with a character. -/
theorem isContinuation_of_isBlank {o : UInt8} (h : IsBlank (o :: t)) :
    isContinuation o = false := by
  obtain ⟨u, hu⟩ := exists_cons_mem_blanks h
  simpa using (blanks_octets _ hu).1

theorem IsBlank.append (hs : IsBlank s) (ht : IsBlank t) : IsBlank (s ++ t) := by
  obtain ⟨pieces, hpieces, rfl⟩ := hs
  obtain ⟨others, hothers, rfl⟩ := ht
  exact ⟨pieces ++ others, List.forall_mem_append.2 ⟨hpieces, hothers⟩, List.flatten_append.symm⟩

/-- A blank text that is parted where a character starts is parted between blanks. -/
theorem isBlank_of_append (h : IsBlank (s ++ t))
    (ht : t.head?.all (fun o => !isContinuation o) = true) : IsBlank s ∧ IsBlank t := by
  obtain ⟨pieces, hpieces, heq⟩ := h
  induction pieces generalizing s with
  | nil =>
    obtain ⟨rfl, rfl⟩ := List.append_eq_nil_iff.1 heq
    exact ⟨isBlank_nil, isBlank_nil⟩
  | cons u pieces ih =>
    rw [List.forall_mem_cons] at hpieces
    have hu : IsBlank u := ⟨[u], by simpa using hpieces.1, by simp⟩
    have hothers : IsBlank pieces.flatten := ⟨pieces, hpieces.2, rfl⟩
    rw [List.flatten_cons] at heq
    rcases List.append_eq_append_iff.1 heq with ⟨front, hfront, rfl⟩ | ⟨back, rfl, hback⟩
    · cases s with
      | nil =>
        rw [List.nil_append] at hfront
        exact ⟨isBlank_nil, hfront ▸ hu.append hothers⟩
      | cons o s =>
        cases front with
        | nil =>
          rw [List.append_nil] at hfront
          exact ⟨hfront ▸ hu, hothers⟩
        | cons first front =>
          -- The octet at which the text is parted continues the character before it.
          have hcontinued := List.all_eq_true.1 (blanks_octets u hpieces.1).2 first
            (by rw [hfront]; simp)
          rw [List.cons_append, List.head?_cons, Option.all_some, hcontinued] at ht
          cases ht
    · obtain ⟨hblank, ht⟩ := ih hpieces.2 hback.symm
      exact ⟨hu.append hblank, ht⟩

theorem head?_of_isBlank (h : IsBlank t) : t.head?.all (fun o => !isContinuation o) = true := by
  cases t with
  | nil => rfl
  | cons o t =>
    rw [List.head?_cons, Option.all_some, isContinuation_of_isBlank h]
    rfl

/-- A blank text that is not empty ends with a blank character. -/
theorem IsBlank.exists_suffix (h : IsBlank t) (hne : t ≠ []) : ∃ u ∈ blanks, u <:+ t := by
  obtain ⟨pieces, hpieces, rfl⟩ := h
  rcases List.eq_nil_or_concat pieces with rfl | ⟨front, u, rfl⟩
  · exact absurd rfl hne
  · refine ⟨u, hpieces u (by simp), ?_⟩
    rw [List.concat_eq_append, List.flatten_append, List.flatten_singleton]
    exact List.suffix_append _ _

/-- What comes before blanks in a blank text is blank. -/
theorem IsBlank.of_append (h : IsBlank (s ++ t)) (ht : IsBlank t) : IsBlank s :=
  (isBlank_of_append h (head?_of_isBlank ht)).1

/-- Blanks in front of a text complete no blank that the text starts inside of. -/
theorem not_suffix_append (hs : s ≠ []) (hnot : ∀ u ∈ blanks, ¬ u <:+ s) (hlead : IsBlank lead) :
    ∀ u ∈ blanks, ¬ u <:+ lead ++ s := by
  rintro u hu hsuffix
  rcases List.suffix_or_suffix_of_suffix hsuffix (List.suffix_append lead s) with h | ⟨front, rfl⟩
  · exact hnot u hu h
  · -- What the blank has in front of the text is a blank itself.
    have hfront : IsBlank front := by
      obtain ⟨before, hbefore⟩ := hsuffix
      rw [← List.append_assoc, List.append_cancel_right_eq] at hbefore
      have hhead := (blanks_octets _ hu).1
      refine (isBlank_of_append (hbefore ▸ hlead) ?_).2
      cases front with
      | nil => rfl
      | cons o front => exact hhead
    obtain ⟨pieces, hpieces, rfl⟩ := hfront
    cases pieces with
    | nil => exact hnot _ hu (List.suffix_refl s)
    | cons v pieces =>
      have hv := hpieces v List.mem_cons_self
      have hstarts : v <+: (v :: pieces).flatten ++ s := by
        rw [List.flatten_cons, List.append_assoc]
        exact List.prefix_append _ _
      have heq := (isCode_blanks v hv).2 _ hu hstarts
      have hlength := congrArg List.length heq
      have hpos := List.length_pos_iff.2 hs
      simp only [List.flatten_cons, List.length_append] at hlength
      omega

/-- Blanks behind a text complete no blank that the text ends inside of. -/
theorem not_prefix_append (hs : s ≠ []) (hnot : ∀ u ∈ blanks, ¬ u <+: s) (htrail : IsBlank trail) :
    ∀ u ∈ blanks, ¬ u <+: s ++ trail := by
  rintro u hu ⟨rest, hrest⟩
  rcases List.append_eq_append_iff.1 hrest with ⟨front, rfl, -⟩ | ⟨front, rfl, rfl⟩
  · exact hnot u hu (List.prefix_append u front)
  · cases front with
    | nil => exact hnot _ hu (by rw [List.append_nil])
    | cons o front =>
      obtain ⟨first, s, rfl⟩ := List.exists_cons_of_ne_nil hs
      -- The blank would go on with the octet that starts the blanks behind the text.
      have htail := List.all_eq_true.1 (blanks_octets _ hu).2 o (by simp)
      rw [isContinuation_of_isBlank htrail] at htail
      cases htail

/-- Trimming gives the one text that starts and ends with no blank and has blanks around it. -/
theorem trim_eq_iff (hs : s ≠ []) :
    trim t = s ↔ ∃ lead trail, IsBlank lead ∧ IsBlank trail ∧ t = lead ++ (s ++ trail) ∧
      ∀ u ∈ blanks, ¬ u <+: s ∧ ¬ u <:+ s := by
  constructor
  · intro h
    obtain ⟨trail, htrail, hstart, hlast⟩ := trimEnd_eq_iff.1 h
    obtain ⟨lead, hlead, rfl, hfirst⟩ := trimStart_eq_iff.1 hstart
    refine ⟨lead, trail, hlead, htrail, rfl, fun u hu => ⟨?_, hlast u hu⟩⟩
    exact fun hstarts => hfirst u hu (hstarts.trans (List.prefix_append s trail))
  · rintro ⟨lead, trail, hlead, htrail, rfl, hnot⟩
    have hfirst := not_prefix_append hs (fun u hu => (hnot u hu).1) htrail
    rw [trim, trimStart_eq_iff.2 ⟨lead, hlead, rfl, hfirst⟩]
    exact trimEnd_eq_iff.2 ⟨trail, htrail, rfl, fun u hu => (hnot u hu).2⟩

end Nameserver.Text

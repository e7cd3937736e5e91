import Nameserver.Proofs.Responder.Answers
/-!
# The class of a question

A loaded zone holds records of class `IN` only, and a search asks for names and types.  The class of
a question is repeated with the question and is looked at nowhere else, so a question in any class
gets the records of class `IN`.
-/

namespace Nameserver.DomainTree

variable {strictness : Name.Strictness} {file : Octets} {loaded : Logged DomainTree} {r : Record}

/-! ## 1. Records of class `IN` -/

/-- Whatever is asked, a loaded zone has nothing but records of class `IN` to answer with. -/
theorem rclass_of_mem_answer (hload : load strictness file = .ok loaded) (query : Message)
    (q : Question) (hr : r ∈ (loaded.value.answer q query.response).value.records) :
    r.rclass = .internet := by
  obtain ⟨records, holds, rfl⟩ := load_eq_ok_iff.1 hload
  obtain ⟨r', hr', heq⟩ :=
    exists_of_mem_answer (fun r hr => (holds.isRead r hr).isNamed) query q hr
  have hclass : r'.rclass = .internet := (holds.isRead r' hr').rclass_eq
  -- A record that a wildcard stands in for keeps its class.
  rcases heq with rfl | rfl
  · exact hclass
  · exact hclass

/-! ## 2. Questions in other classes -/

theorem verdict_withClass (t : DomainTree) (q : Question) (c : RecordClass) :
    t.verdict { q with qclass := c } = t.verdict q := rfl

/-- With another class, a question is repeated with that class and answered as before. -/
theorem answer_withClass (t : DomainTree) (query : Message) (q : Question) (c : RecordClass) :
    t.answer { q with qclass := c } query.response =
      ⟨{ (t.answer q query.response).value with questions := [{ q with qclass := c }] },
        (t.answer q query.response).log⟩ := by
  rw [answer, answer, verdict_withClass]
  cases t.verdict q <;> rfl

/-- What the class of a question means for its answer from a loaded zone: nothing.  The answer has
records of class `IN`, the same for every class asked for; so the class of the question is respected
only where it is `IN` or `ANY`, and where there is no record to answer with. -/
theorem answer_class_iff (hload : load strictness file = .ok loaded) (query : Message)
    (q : Question) :
    (∀ r ∈ (loaded.value.answer q query.response).value.answers, r.rclass = .internet) ∧
    (∀ c : RecordClass, loaded.value.answer { q with qclass := c } query.response =
      ⟨{ (loaded.value.answer q query.response).value with questions := [{ q with qclass := c }] },
        (loaded.value.answer q query.response).log⟩) ∧
    ((∀ r ∈ (loaded.value.answer q query.response).value.answers,
        r.rclass.same q.qclass = true ∨ q.qclass.same .any = true) ↔
      RecordClass.internet.same q.qclass = true ∨ q.qclass.same .any = true ∨
        (loaded.value.answer q query.response).value.answers = []) := by
  have hinternet : ∀ r ∈ (loaded.value.answer q query.response).value.answers,
      r.rclass = .internet := by
    intro r hr
    apply rclass_of_mem_answer hload query q
    exact List.mem_append_left _ (List.mem_append_left _ hr)
  refine ⟨hinternet, answer_withClass loaded.value query q, ?_⟩
  constructor
  · intro h
    -- One record is enough to compare the classes, as all are of class `IN`.
    cases hanswers : (loaded.value.answer q query.response).value.answers with
    | nil => exact .inr (.inr rfl)
    | cons r others =>
      have hr : r ∈ (loaded.value.answer q query.response).value.answers :=
        hanswers ▸ List.mem_cons_self
      rcases h r hr with hsame | hany
      · rw [hinternet r hr] at hsame
        exact .inl hsame
      · exact .inr (.inl hany)
  · rintro (hsame | hany | hnil) r hr
    · rw [hinternet r hr]
      exact .inl hsame
    · exact .inr hany
    · rw [hnil] at hr
      cases hr

/-! ## 3. A question in class `CH` -/

/-- A zone file with one record. -/
def authorityFile : Text := Text.ofString "z. 60 IN SOA ns.z. admin.z. 1 2 3 4 5\n"

/-- The question for that record, in class `CH`. -/
def chaosQuestion : Question := ⟨⟨[singleLabel 0x7a], by decide, by decide⟩, .soa, .chaos⟩

/-- The classes of the records that answer the question. -/
def chaosClasses (t : DomainTree) : List RecordClass :=
  (t.answer chaosQuestion (Message.query 7 chaosQuestion).response).value.answers.map Record.rclass

/-- The record of the file answers the question in another class. -/
theorem load_authorityFile :
    ∃ loaded, load .trailingDot authorityFile = .ok loaded ∧
      chaosClasses loaded.value = [.internet] := by
  have hclasses : (load .trailingDot authorityFile).toOption.map
      (fun loaded => chaosClasses loaded.value) = some [.internet] := by
    decide +kernel
  cases hload : load .trailingDot authorityFile with
  | error e =>
    rw [hload] at hclasses
    cases hclasses
  | ok loaded =>
    rw [hload] at hclasses
    exact ⟨loaded, rfl, Option.some.inj hclasses⟩

/-- The class of the question is not respected. -/
theorem answer_class_chaosQuestion :
    ∃ loaded, load .trailingDot authorityFile = .ok loaded ∧
      ¬ ∀ r ∈ (loaded.value.answer chaosQuestion
          (Message.query 7 chaosQuestion).response).value.answers,
        r.rclass.same chaosQuestion.qclass = true ∨ chaosQuestion.qclass.same .any = true := by
  obtain ⟨loaded, hload, hclasses⟩ := load_authorityFile
  refine ⟨loaded, hload, ?_⟩
  rw [(answer_class_iff hload _ chaosQuestion).2.2]
  -- The class `CH` is neither `IN` nor `ANY`, and there is a record in the answer.
  rintro (hsame | hany | hnil)
  · exact absurd hsame (by decide)
  · exact absurd hany (by decide)
  · rw [chaosClasses, hnil] at hclasses
    cases hclasses

/-- An answer can have records of a class that was not asked for. -/
theorem answers_can_have_other_class :
    ¬ ∀ (strictness : Name.Strictness) (file : Octets) (loaded : Logged DomainTree),
      load strictness file = .ok loaded → ∀ (query : Message) (q : Question),
        ∀ r ∈ (loaded.value.answer q query.response).value.answers,
          r.rclass.same q.qclass = true ∨ q.qclass.same .any = true := by
  intro h
  obtain ⟨loaded, hload, hclasses⟩ := load_authorityFile
  have hmem : RecordClass.internet ∈ chaosClasses loaded.value :=
    hclasses ▸ List.mem_singleton_self _
  obtain ⟨r, hr, hclass⟩ := List.mem_map.1 hmem
  have hrespected := h _ _ loaded hload _ chaosQuestion r hr
  rw [hclass] at hrespected
  exact absurd hrespected (by decide)

end Nameserver.DomainTree

import Mathlib.Algebra.GroupWithZero.Nat
import Nameserver.Message.Text
import Nameserver.Proofs.Zone.Dump
import Nameserver.Proofs.Zone.Run
/-!
# What is printed

A log and a zone file are taken apart at their line feeds.  No name, record or message brings a
control character or a line feed of its own into its text, whatever octets it was made from; so the
lines of a printed text are those that its printer ends.
-/

namespace Nameserver

open Text (IsField Printed isPrintable lineFeed)

/-! ## 1. Entries of a message -/

theorem Opcode.isField_text (o : Opcode) : o.text.IsField := by
  have hword : (Text.ofString "OPCODE").IsField := by decide
  cases o with
  | unassigned v => exact hword.append (Text.isField_decimal _).visible
  | _ => decide

theorem ResponseCode.isField_text (c : ResponseCode) : c.text.IsField := by
  have hword : (Text.ofString "RCODE").IsField := by decide
  cases c with
  | unassigned v => exact hword.append (Text.isField_decimal _).visible
  | _ => decide

/-- A question is printed in characters that can be printed, and begins and ends with visible ones.
-/
theorem Question.printed_text (q : Question) : q.text.Printed := by
  have hkind := printed_classAndType q.qclass q.qtype
  apply q.qname.printed_text.joinAtTabStops_padToWidth 32
  simp only [List.forall_mem_cons]
  exact ⟨hkind, fun c hc => absurd hc List.not_mem_nil⟩

namespace Message

/-! ## 2. The header -/

theorem all_isPrintable_flagNames (m : Message) : m.flagNames.all isPrintable = true := by
  -- A flag that is not set is printed as nothing.
  have hflag : ∀ (isSet : Bool) {flagName : String},
      (Text.ofString flagName).all isPrintable = true →
      (if isSet then Text.ofString flagName else []).all isPrintable = true := by
    intro isSet flagName hname
    cases isSet with
    | true => exact hname
    | false => rfl
  simp only [flagNames, List.flatMap_cons, List.flatMap_nil, List.all_append, List.all_nil,
    Bool.and_eq_true, and_true]
  exact ⟨hflag _ (by decide), hflag _ (by decide), hflag _ (by decide), hflag _ (by decide),
    hflag _ (by decide)⟩

theorem all_isPrintable_headerLines (m : Message) :
    ∀ line ∈ m.headerLines, line.all isPrintable = true := by
  have hdecimal : ∀ n, (Text.decimal n).all isPrintable = true :=
    fun n => (Text.isField_decimal n).printed.printable
  have hopcode := m.opcode.isField_text.printed.printable
  have hcode := m.code.isField_text.printed.printable
  have hflags := m.all_isPrintable_flagNames
  intro line hline
  -- The first line has the opcode and the code, the second one the flags and the counts.
  rcases List.mem_pair.1 hline with rfl | rfl
  · simp only [List.all_append, hopcode, hcode, hdecimal, Bool.and_true]
    decide
  · simp only [List.all_append, hflags, hdecimal, Bool.and_true]
    decide

/-! ## 3. The sections -/

/-- The sections of a printed message: the title of each and the lines of its entries. -/
def sections (m : Message) : List (Text × List Text) :=
  [(Text.ofString ";; QUESTION SECTION:", m.questions.map fun q => Text.semicolon :: q.text),
    (Text.ofString ";; ANSWER SECTION:", m.answers.map Record.display),
    (Text.ofString ";; AUTHORITY SECTION:", m.authorities.map Record.display),
    (Text.ofString ";; ADDITIONAL SECTION:", m.additionals.map Record.display)]

/-- A section without entries has no lines, also no title. -/
theorem sectionLines_eq (title : String) (entries : List Text) :
    sectionLines title entries = if entries = [] then [] else
      [] :: (Text.ofString ";; " ++ Text.ofString title ++ Text.ofString " SECTION:") ::
        entries := by
  cases entries <;> rfl

/-- The lines that are printed for a message are those of the header and of the sections. -/
theorem lines_eq (m : Message) :
    m.lines = m.headerLines ++ m.sections.flatMap fun (title, entries) =>
      if entries = [] then [] else [] :: title :: entries := by
  simp only [lines, sectionLines_eq, sections, List.flatMap_cons, List.flatMap_nil,
    List.append_assoc, List.append_nil]
  rfl

theorem all_isPrintable_sections (m : Message) :
    ∀ s ∈ m.sections, ∀ line ∈ s.1 :: s.2, line.all isPrintable = true := by
  -- A question is a comment in the text, so a `;` comes before it.
  have hquestions : ∀ entry ∈ m.questions.map fun q => Text.semicolon :: q.text,
      entry.all isPrintable = true := by
    intro entry hentry
    obtain ⟨q, -, rfl⟩ := List.mem_map.1 hentry
    rw [List.all_cons, q.printed_text.printable]
    rfl
  have hrecords := DomainTree.all_isPrintable_display
  simp only [sections, List.forall_mem_cons]
  exact ⟨⟨by decide, hquestions⟩, ⟨by decide, hrecords _⟩, ⟨by decide, hrecords _⟩,
    ⟨by decide, hrecords _⟩, fun s hs => absurd hs List.not_mem_nil⟩

/-- No line of a message has a control character, so none has a line feed. -/
theorem all_isPrintable_lines (m : Message) : ∀ line ∈ m.lines, line.all isPrintable = true := by
  intro line hline
  rw [lines_eq] at hline
  rcases List.mem_append.1 hline with hline | hline
  · exact m.all_isPrintable_headerLines line hline
  · obtain ⟨⟨title, entries⟩, hs, hline⟩ := List.mem_flatMap.1 hline
    dsimp only at hline
    split at hline
    next => cases hline
    next =>
      rcases List.mem_cons.1 hline with rfl | hline
      · rfl
      · exact m.all_isPrintable_sections _ hs line hline

/-! ## 4. The whole text -/

/-- A printed message comes apart into the lines that were printed. -/
theorem lines_text (m : Message) : Text.lines m.text = m.lines :=
  Text.lines_flatMap m.all_isPrintable_lines

/-- How many lines a section with some number of entries takes. -/
def sectionHeight (entries : Nat) : Nat := if entries = 0 then 0 else entries + 2

/-- How many lines a message takes follows from how many entries it has. -/
theorem length_lines (m : Message) :
    m.lines.length = 2 + sectionHeight m.questions.length + sectionHeight m.answers.length +
      sectionHeight m.authorities.length + sectionHeight m.additionals.length := by
  have hsection : ∀ title entries, (sectionLines title entries).length =
      sectionHeight entries.length := by
    intro title entries
    cases entries <;> rfl
  simp only [lines, List.length_append, hsection, List.length_map]
  rfl

/-- No text that is printed has a control character or a line feed from outside in it.  A message
takes two lines for its header and, for each section with entries, an empty line, a title and a line
for each entry.  Names and records take no line feed at all, so a tree is printed as one line for
each of its records. -/
theorem printed_text_spec :
    (∀ m : Message, (∀ o ∈ m.text, isPrintable o = true ∨ o = lineFeed) ∧
      (∃ opcodeLine flagsLine, m.headerLines = [opcodeLine, flagsLine] ∧
        Text.lines m.text = opcodeLine :: flagsLine :: m.sections.flatMap fun (title, entries) =>
          if entries = [] then [] else [] :: title :: entries) ∧
      (Text.lines m.text).length = 2 + sectionHeight m.questions.length +
        sectionHeight m.answers.length + sectionHeight m.authorities.length +
        sectionHeight m.additionals.length) ∧
    (∀ n : Name, n.text.all isPrintable = true) ∧
    (∀ r : Record, r.display.all isPrintable = true) ∧
    (∀ t : DomainTree, (∀ o ∈ t.dump, isPrintable o = true ∨ o = lineFeed) ∧
      Text.lines t.dump = t.allRecords.map Record.display ∧
      (Text.lines t.dump).length = t.size) ∧
    ∀ records : List Record,
      (Text.lines (DomainTree.ofRecords records).dump).length = records.length := by
  -- A tree is printed as one line for each record, so its lines are counted by its size.
  have hcount : ∀ t : DomainTree, (Text.lines t.dump).length = t.size := by
    intro t
    rw [DomainTree.lines_dump, List.length_map]
    rfl
  refine ⟨?_, fun n => n.printed_text.printable, fun r => r.printed_display.printable, ?_, ?_⟩
  · intro m
    refine ⟨?_, ⟨_, _, rfl, ?_⟩, ?_⟩
    · intro o ho
      exact Text.isPrintable_or_eq_lineFeed_of_mem_flatMap m.all_isPrintable_lines ho
    · rw [lines_text, lines_eq]
      rfl
    · rw [lines_text, length_lines]
  · intro t
    refine ⟨?_, t.lines_dump, hcount t⟩
    intro o ho
    rw [DomainTree.dump_eq] at ho
    exact Text.isPrintable_or_eq_lineFeed_of_mem_flatMap
      (DomainTree.all_isPrintable_display _) ho
  · intro records
    rw [hcount, DomainTree.size_ofRecords]

/-- A query for a name whose label is a line feed and `;`. -/
example : (Message.query 7 ⟨⟨[⟨[0x0a, 0x3b], by decide⟩], by decide, by decide⟩, .other 65280,
      .other 0⟩).text =
    Text.ofString ";; ->>HEADER<<- opcode: QUERY, status: NOERROR, id: 7\n" ++
      Text.ofString ";; flags:; QUERY: 1, ANSWER: 0, AUTHORITY: 0, ADDITIONAL: 0\n\n" ++
      Text.ofString ";; QUESTION SECTION:\n" ++
      Text.ofString ";\"\\010;.\"                                CLASS0 TYPE65280\n" := by
  decide +kernel

end Message

end Nameserver

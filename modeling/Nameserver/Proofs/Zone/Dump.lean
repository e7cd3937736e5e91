import Nameserver.Proofs.Record.Text
import Nameserver.Proofs.Zone.Agreement
import Nameserver.Proofs.Zone.Load
/-!
# Dumps, loaded again

The records of a loaded tree were read from text, so each is printed as a line that holds it.  The
dump of the tree holds its traversal, and the tree of a traversal agrees with the tree traversed.
-/

namespace Nameserver

/-! ## 1. Records that were read -/

/-- Some line holds the record. -/
def Record.IsRead (r : Record) : Prop := ∃ strictness line, ofText strictness line = .ok r

variable {strictness : Name.Strictness} {r : Record}

/-- A record that was read is printed as a line from which it is read again. -/
theorem Record.IsRead.ofText_display (h : r.IsRead) : ofText strictness r.display = .ok r := by
  obtain ⟨_, line, hline⟩ := h
  obtain ⟨hclass, hwritable⟩ := writable_of_ofText hline
  obtain ⟨t, ht⟩ := hwritable.hasText
  rw [display_of_text ht, hwritable.ofText_of_text ht, ← hclass]

theorem Record.head?_display_ne_semicolon (r : Record) :
    (r.display.head? == some Text.semicolon) = false := by
  rw [display]
  split
  next => exact r.head?_withData_ne_semicolon _
  next => exact r.head?_withData_ne_semicolon _

namespace DomainTree

theorem isRead_of_readLine {line : Text} (h : readLine strictness line = .ok (some r)) :
    r.IsRead := by
  rw [readLine] at h
  split at h
  next => cases h
  next =>
    cases hread : Record.ofText strictness (Text.trimStart line) with
    | error e =>
      rw [hread] at h
      cases h
    | ok r' =>
      rw [hread] at h
      cases h
      exact ⟨strictness, _, hread⟩

theorem readLine_display (h : r.IsRead) : readLine strictness r.display = .ok (some r) := by
  have hprinted := r.printed_display
  have hnonempty : r.display.isEmpty = false := by
    obtain ⟨o, rest, heq, -⟩ := hprinted.exists_cons
    rw [heq]
    rfl
  -- The line has nothing to trim, is not blank and is no comment.
  rw [readLine, hprinted.trimStart_eq, hnonempty, r.head?_display_ne_semicolon, h.ofText_display]
  rfl

/-! ## 2. Lines of a dump -/

variable {lines : List Octets} {records : List Record}

theorem Holds.isRead (h : Holds strictness lines records) : ∀ r ∈ records, r.IsRead := by
  induction h with
  | nil => exact fun r hr => absurd hr List.not_mem_nil
  | passedOver _ _ _ ih => exact ih
  | record _ read _ ih => exact List.forall_mem_cons.2 ⟨isRead_of_readLine read, ih⟩

/-- The lines of records that were read hold these records. -/
theorem holds_display (h : ∀ r ∈ records, r.IsRead) :
    Holds strictness (records.map Record.display) records := by
  induction records with
  | nil => exact .nil
  | cons r records ih =>
    obtain ⟨hr, hrecords⟩ := List.forall_mem_cons.1 h
    have hutf8 := Text.isUtf8_of_printable r.printed_display.printable
    exact .record hutf8 (readLine_display hr) (ih hrecords)

theorem dump_eq (t : DomainTree) : t.dump = (t.allRecords.map Record.display).flatMap fun line =>
    line ++ [Text.lineFeed] := by
  rw [List.flatMap_map]
  rfl

theorem all_isPrintable_display (records : List Record) :
    ∀ line ∈ records.map Record.display, line.all Text.isPrintable = true := by
  intro line hline
  obtain ⟨r, -, rfl⟩ := List.mem_map.1 hline
  exact r.printed_display.printable

/-- The lines of a dump are those of the records, whatever the records hold. -/
theorem lines_dump (t : DomainTree) : Text.lines t.dump = t.allRecords.map Record.display := by
  rw [dump_eq]
  exact Text.lines_flatMap (all_isPrintable_display _)

/-- Where all records were read, the dump is loaded as the tree of the traversal. -/
theorem load_dump {t : DomainTree} (h : ∀ r ∈ t.allRecords, r.IsRead) :
    load strictness t.dump = .ok (loadedTree (ofRecords t.allRecords)) := by
  refine load_eq_ok_iff.2 ⟨t.allRecords, ?_, rfl⟩
  rw [lines_dump]
  exact holds_display h

/-! ## 3. The tree of a dump -/

/-- What can be told of the node at a path, if there is one: its records, whether it is the top of a
zone, and whether it is a delegation. -/
def viewAt? (t : DomainTree) (p : List Label) : Option (List Record × Bool × Bool) :=
  (t.find? p).map fun n => (n.records, n.isZoneTop, n.isCut)

theorem Agrees.viewAt?_eq {t t' : DomainTree} (h : t.Agrees t') (p : List Label) :
    t.viewAt? p = t'.viewAt? p := by
  have hview : ∀ u : DomainTree, u.viewAt? p = (u.recordsAt? p).map fun records =>
      (records, (node records []).isZoneTop, (node records []).isCut) := by
    intro u
    rw [recordsAt?, Option.map_map]
    rfl
  rw [hview, hview, h p]

theorem agrees_ofRecords_allRecords (records : List Record) :
    (ofRecords (ofRecords records).allRecords).Agrees (ofRecords records) :=
  recordsAt?_ofRecords_allRecords records

/-- The dump of a loaded tree is loaded again, with either strictness, as a tree that nobody can
tell from the first one. -/
theorem exists_load_dump {file : Octets} {loaded : Logged DomainTree}
    (h : load strictness file = .ok loaded) (strictness' : Name.Strictness) :
    ∃ reloaded, load strictness' loaded.value.dump = .ok reloaded ∧
      reloaded.value.size = loaded.value.size ∧
      reloaded.value.dump = loaded.value.dump ∧
      (∀ p, reloaded.value.viewAt? p = loaded.value.viewAt? p) ∧
      ∀ q response, reloaded.value.answer q response = loaded.value.answer q response := by
  obtain ⟨records, holds, rfl⟩ := load_eq_ok_iff.1 h
  -- Every record of the tree came from a line, so its own line gives it back.
  have hread : ∀ r ∈ (ofRecords records).allRecords, r.IsRead := by
    intro r hr
    exact holds.isRead r ((mem_allRecords_ofRecords records).1 hr)
  have hagrees := agrees_ofRecords_allRecords records
  -- The tree of the dump agrees with the first one, so it is traversed in the same order.
  have hall : (ofRecords (ofRecords records).allRecords).allRecords =
      (ofRecords records).allRecords :=
    hagrees.allRecords_eq (wellOrdered_ofRecords _) (wellOrdered_ofRecords _)
  refine ⟨_, load_dump hread, ?_, ?_, hagrees.viewAt?_eq, hagrees.answer_eq⟩
  · exact congrArg List.length hall
  · exact congrArg (List.flatMap fun r => r.display ++ [Text.lineFeed]) hall

/-- A zone file with its records in no order and its names in mixed case.  The label at the start of
the fourth line is a semicolon, a null octet and a space. -/
def unsortedFile : Text :=
  Text.ofString "; z.\r\nNS.z 1 in ns Z\n\n  \";\\000 .Z.\" 60 IN A 192.0.2.1\n" ++
    Text.ofString "z 300 IN SOA ns.z admin.z 1 2 3 4 5"

theorem load_dump_unsortedFile :
    ∃ loaded reloaded, load .relaxed unsortedFile = .ok loaded ∧
      load .trailingDot loaded.value.dump = .ok reloaded ∧ reloaded.value.size = 3 ∧
      reloaded.value.dump = loaded.value.dump := by
  have hthree : (load .relaxed unsortedFile).toOption.map (fun loaded => loaded.value.size) =
      some 3 := by
    decide +kernel
  cases hloaded : load .relaxed unsortedFile with
  | error e =>
    rw [hloaded] at hthree
    cases hthree
  | ok loaded =>
    rw [hloaded] at hthree
    obtain ⟨reloaded, hreloaded, hsize, hdump, -⟩ := exists_load_dump hloaded .trailingDot
    exact ⟨loaded, reloaded, rfl, hreloaded, hsize.trans (Option.some.inj hthree), hdump⟩

end DomainTree

end Nameserver

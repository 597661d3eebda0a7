import IcebergSST.Extraction

/-!
# Which extractions are of the whole file

An extractor says with its text whether the output budget stopped it. `extract_text` looks at
that after it has looked whether the text is blank.
-/

namespace IcebergSST

/-- The checks an archive passes before anything in it is read. -/
def ExtractionLimits.Admits (limits : ExtractionLimits) (members : List ZipMember) : Prop :=
  members.length ≤ limits.maxArchiveMembers ∧
    (members.map ZipMember.fileSize).sum ≤ limits.maxOutputChars * 4 ∧
    (((members.map ZipMember.fileSize).sum : ℕ) : ℚ) /
      (max 1 (members.map ZipMember.compressSize).sum : ℕ) ≤ limits.maxExpansionRatio

/-- A read of one byte more than the budget does not come upon a fault. -/
def ZipMember.Readable (m : ZipMember) (budget : ℕ) : Prop :=
  budget + 1 < m.content.length ∨ m.intact

namespace Readers

variable (r : Readers) (limits : ExtractionLimits)

/-- All that the budget lets be read of the parts is blank. -/
def BlankParts : ℕ → List ZipMember → Prop
  | _, [] => True
  | budget, part :: parts =>
      let piece := r.officePiece (part.content.take budget)
      part.Readable budget ∧ blank piece ∧
        (piece.length < budget → BlankParts (budget - piece.length) parts)

/-- All that the budget lets be read of the parts is blank, and it runs out. -/
def CutBlankParts : ℕ → List ZipMember → Prop
  | _, [] => False
  | budget, part :: parts =>
      let piece := r.officePiece (part.content.take budget)
      part.Readable budget ∧ blank piece ∧
        (piece.length < budget → CutBlankParts (budget - piece.length) parts ∨
          budget < part.content.length ∧ r.BlankParts (budget - piece.length) parts)

/-- All the pages up to the one that uses up the budget are blank. -/
def CutBlankPages : ℕ → List (Except ParseFault PyStr) → Prop
  | _, [] => False
  | _, .error _ :: _ => False
  | budget, .ok text :: pages =>
      blank text ∧ (text.length < budget → CutBlankPages (budget - text.length) pages)

/-- The budget runs out over a file whose text is blank up to there. -/
def CutBlank (data : List UInt8) (filename : PyStr) : Prop :=
  data ≠ [] ∧ data.length ≤ limits.maxInputBytes ∧
    match classify filename with
    | some .office => r.sandboxFault .office data = none ∧ ∃ members,
        r.zipMembers data = .ok members ∧ limits.Admits members ∧
          r.CutBlankParts limits.maxOutputChars (members.filter ZipMember.IsXml)
    | some .pdf => r.sandboxFault .pdf data = none ∧ ∃ pages,
        r.pdfPages data = .ok pages ∧ CutBlankPages limits.maxOutputChars pages
    | some .text | none => False

def NoText (data : List UInt8) (filename : PyStr) : Prop :=
  data = [] ∨ ∃ whole, r.wholeText data filename = some whole ∧ blank whole

structure NeverPartial (data : List UInt8) (filename : PyStr) : Prop where
  extracted : (r.extractText limits data filename).outcome = .extracted →
    (r.extractText limits data filename).truncated = false →
      r.wholeText data filename = some (r.extractText limits data filename).text
  empty : (r.extractText limits data filename).outcome = .skippedEmpty → r.NoText data filename
  bounded : (r.extractText limits data filename).text.length ≤ limits.maxOutputChars

variable {r limits}

theorem blank_intercalate {c : ℕ} (hc : isSpace (Char.ofNat c)) (pieces : List PyStr) :
    blank ([c].intercalate pieces) ↔ ∀ piece ∈ pieces, blank piece := by
  induction pieces with
  | nil => simp [blank]
  | cons piece pieces ih =>
      cases pieces with
      | nil => simp
      | cons next pieces =>
          rw [List.intercalate_cons_of_ne_nil (List.cons_ne_nil _ _)]
          have happend (a b : PyStr) : blank (a ++ b) = (blank a && blank b) := List.all_append
          have hone : blank [c] = true := by simpa [blank] using hc
          rw [happend, happend, hone, Bool.and_true, Bool.and_eq_true, ih]
          simp only [List.forall_mem_cons]

theorem read_eq_ok_iff {m : ZipMember} {budget : ℕ} {raw : List UInt8} :
    m.read (budget + 1) = .ok raw ↔ m.Readable budget ∧ raw = m.content.take (budget + 1) := by
  unfold ZipMember.read ZipMember.Readable
  split_ifs with h
  · rw [Except.ok.injEq]
    exact ⟨fun heq => ⟨h, heq.symm⟩, fun heq => heq.2.symm⟩
  · simp [h]

theorem officeReads_cons {budget : ℕ} {part : ZipMember} {parts : List ZipMember}
    {reads : List (List UInt8)} {truncated : Bool} (hxml : part.IsXml) :
    r.officeReads budget (part :: parts) = .ok (reads, truncated) ↔
      part.Readable budget ∧
        if (r.officePiece (part.content.take budget)).length < budget then
          ∃ rest cut, r.officeReads
              (budget - (r.officePiece (part.content.take budget)).length) parts = .ok (rest, cut) ∧
            reads = part.content.take budget :: rest ∧
            truncated = (decide (budget < part.content.length) || cut)
        else reads = [part.content.take budget] ∧ truncated = true := by
  simp only [officeReads, if_pos hxml]
  cases hread : part.read (budget + 1) with
  | error fault =>
      have hfault : ¬ part.Readable budget := by
        intro h
        rw [read_eq_ok_iff.2 ⟨h, rfl⟩] at hread
        cases hread
      simp [hfault]
  | ok raw =>
      obtain ⟨hreadable, rfl⟩ := read_eq_ok_iff.1 hread
      have hkept : (part.content.take (budget + 1)).take budget = part.content.take budget := by
        rw [List.take_take, Nat.min_eq_left (Nat.le_succ budget)]
      have hcut : budget < (part.content.take (budget + 1)).length ↔
          budget < part.content.length := by
        rw [List.length_take]
        omega
      simp only [hkept, hcut, hreadable, true_and]
      split_ifs with hfull hroom
      · omega
      · simp [eq_comm]
      · constructor
        · intro h
          split at h
          · cases h
          · rename_i rest cut hrest
            simp only [Except.ok.injEq, Prod.mk.injEq] at h
            exact ⟨rest, cut, hrest, h.1.symm, h.2.symm⟩
        · rintro ⟨rest, cut, hrest, rfl, rfl⟩
          rw [hrest]
      · omega

theorem officeReads_uncut {budget : ℕ} {parts : List ZipMember} {reads : List (List UInt8)}
    (hxml : ∀ m ∈ parts, m.IsXml) (h : r.officeReads budget parts = .ok (reads, false)) :
    reads = parts.map ZipMember.content ∧ ∀ m ∈ parts, m.intact := by
  induction parts generalizing budget reads with
  | nil =>
      simp only [officeReads, Except.ok.injEq, Prod.mk.injEq] at h
      exact ⟨h.1.symm, fun m hm => absurd hm List.not_mem_nil⟩
  | cons part parts ih =>
      obtain ⟨hreadable, h⟩ := (officeReads_cons (hxml part List.mem_cons_self)).1 h
      split_ifs at h
      · obtain ⟨rest, cut, hrest, rfl, hflag⟩ := h
        simp only [Bool.false_eq, Bool.or_eq_false_iff, decide_eq_false_iff_not, not_lt] at hflag
        obtain ⟨hfits, rfl⟩ := hflag
        obtain ⟨rfl, hintact⟩ := ih (fun m hm => hxml m (List.mem_cons_of_mem _ hm)) hrest
        have hone : part.intact := hreadable.resolve_left (by omega)
        exact ⟨by rw [List.take_of_length_le hfits, List.map_cons],
          List.forall_mem_cons.2 ⟨hone, hintact⟩⟩
      · cases h.2

def BlankReads (r : Readers) (reads : List (List UInt8)) : Prop :=
  ∀ raw ∈ reads, blank (r.officePiece raw)

theorem blankReads_iff {budget : ℕ} {parts : List ZipMember} (hxml : ∀ m ∈ parts, m.IsXml) :
    (∃ reads truncated, r.officeReads budget parts = .ok (reads, truncated) ∧
      r.BlankReads reads) ↔ r.BlankParts budget parts := by
  induction parts generalizing budget with
  | nil => simp [officeReads, BlankReads, BlankParts]
  | cons part parts ih =>
      have hrest (budget : ℕ) : (∃ reads truncated, r.officeReads budget parts =
          .ok (reads, truncated) ∧ r.BlankReads reads) ↔ r.BlankParts budget parts :=
        ih fun m hm => hxml m (List.mem_cons_of_mem _ hm)
      simp only [officeReads_cons (hxml part List.mem_cons_self), BlankParts, ← hrest]
      split_ifs with hroom
      · constructor
        · rintro ⟨reads, truncated, ⟨hreadable, rest, cut, hrest, rfl, -⟩, hblank⟩
          obtain ⟨hone, hblank⟩ := List.forall_mem_cons.1 hblank
          exact ⟨hreadable, hone, fun _ => ⟨rest, cut, hrest, hblank⟩⟩
        · rintro ⟨hreadable, hone, hmore⟩
          obtain ⟨rest, cut, hrest, hblank⟩ := hmore hroom
          exact ⟨_, _, ⟨hreadable, rest, cut, hrest, rfl, rfl⟩,
            List.forall_mem_cons.2 ⟨hone, hblank⟩⟩
      · constructor
        · rintro ⟨reads, truncated, ⟨hreadable, rfl, -⟩, hblank⟩
          exact ⟨hreadable, hblank _ List.mem_cons_self, fun h => absurd h hroom⟩
        · rintro ⟨hreadable, hone, -⟩
          exact ⟨_, _, ⟨hreadable, rfl, rfl⟩, List.forall_mem_singleton.2 hone⟩

theorem cutBlankReads_iff {budget : ℕ} {parts : List ZipMember} (hxml : ∀ m ∈ parts, m.IsXml) :
    (∃ reads, r.officeReads budget parts = .ok (reads, true) ∧ r.BlankReads reads) ↔
      r.CutBlankParts budget parts := by
  induction parts generalizing budget with
  | nil => simp [officeReads, CutBlankParts]
  | cons part parts ih =>
      have htail : ∀ m ∈ parts, m.IsXml := fun m hm => hxml m (List.mem_cons_of_mem _ hm)
      have hrest (budget : ℕ) : (∃ reads, r.officeReads budget parts = .ok (reads, true) ∧
          r.BlankReads reads) ↔ r.CutBlankParts budget parts := ih htail
      simp only [officeReads_cons (hxml part List.mem_cons_self), CutBlankParts, ← hrest,
        ← blankReads_iff htail]
      split_ifs with hroom
      · constructor
        · rintro ⟨reads, ⟨hreadable, rest, cut, hrest, rfl, hflag⟩, hblank⟩
          obtain ⟨hone, hblank⟩ := List.forall_mem_cons.1 hblank
          refine ⟨hreadable, hone, fun _ => ?_⟩
          rcases (Bool.or_eq_true _ _).mp hflag.symm with hcut | rfl
          · exact Or.inr ⟨of_decide_eq_true hcut, rest, cut, hrest, hblank⟩
          · exact Or.inl ⟨rest, hrest, hblank⟩
        · rintro ⟨hreadable, hone, hmore⟩
          rcases hmore hroom with ⟨rest, hrest, hblank⟩ | ⟨hcut, rest, cut, hrest, hblank⟩
          · exact ⟨_, ⟨hreadable, rest, true, hrest, rfl, (Bool.or_true _).symm⟩,
              List.forall_mem_cons.2 ⟨hone, hblank⟩⟩
          · exact ⟨_, ⟨hreadable, rest, cut, hrest, rfl, by simp [hcut]⟩,
              List.forall_mem_cons.2 ⟨hone, hblank⟩⟩
      · constructor
        · rintro ⟨reads, ⟨hreadable, rfl, -⟩, hblank⟩
          exact ⟨hreadable, hblank _ List.mem_cons_self, fun h => absurd h hroom⟩
        · rintro ⟨hreadable, hone, -⟩
          exact ⟨_, ⟨hreadable, rfl, trivial⟩, List.forall_mem_singleton.2 hone⟩

theorem pdfPieces_uncut {budget : ℕ} {pages : List (Except ParseFault PyStr)}
    {pieces : List PyStr} (h : pdfPieces budget pages = .ok (pieces, false)) :
    pages.mapM Except.toOption = some pieces := by
  induction pages generalizing budget pieces with
  | nil =>
      simp only [pdfPieces, Except.ok.injEq, Prod.mk.injEq] at h
      simp [← h.1]
  | cons page pages ih =>
      rcases page with fault | text
      · cases h
      · simp only [pdfPieces] at h
        split_ifs at h
        · simp at h
        · split at h
          · cases h
          · rename_i rest cut hrest
            simp only [Except.ok.injEq, Prod.mk.injEq] at h
            obtain ⟨rfl, rfl⟩ := h
            simp [Except.toOption, ih hrest]

theorem cutBlankPieces_iff {budget : ℕ} {pages : List (Except ParseFault PyStr)} :
    (∃ pieces, pdfPieces budget pages = .ok (pieces, true) ∧ ∀ piece ∈ pieces, blank piece) ↔
      CutBlankPages budget pages := by
  induction pages generalizing budget with
  | nil => simp [pdfPieces, CutBlankPages]
  | cons page pages ih =>
      rcases page with fault | text
      · simp [pdfPieces, CutBlankPages]
      · simp only [pdfPieces, CutBlankPages, ← ih]
        split_ifs with hfull
        · simp [Nat.not_lt.2 hfull]
        · constructor
          · rintro ⟨pieces, h, hblank⟩
            split at h
            · cases h
            · rename_i rest cut hrest
              simp only [Except.ok.injEq, Prod.mk.injEq] at h
              obtain ⟨rfl, rfl⟩ := h
              obtain ⟨hone, hblank⟩ := List.forall_mem_cons.1 hblank
              exact ⟨hone, fun _ => ⟨rest, hrest, hblank⟩⟩
          · rintro ⟨hone, hmore⟩
            obtain ⟨rest, hrest, hblank⟩ := hmore (not_le.1 hfull)
            exact ⟨text :: rest, by rw [hrest], List.forall_mem_cons.2 ⟨hone, hblank⟩⟩

theorem extractOfficeText_eq_ok {data : List UInt8} {parsed : Parsed} :
    r.extractOfficeText limits data = .ok parsed ↔ ∃ members, r.zipMembers data = .ok members ∧
      limits.Admits members ∧ ∃ reads, r.officeReads limits.maxOutputChars members =
        .ok (reads, parsed.truncated) ∧ parsed.text = r.officeText reads := by
  unfold extractOfficeText ExtractionLimits.Admits
  cases r.zipMembers data with
  | error fault => simp
  | ok members =>
      simp only [Except.ok.injEq, exists_eq_left']
      split_ifs with hmembers hdeclared hratio
      · simp [Nat.not_le.2 hmembers]
      · simp [Nat.not_le.2 hdeclared]
      · refine iff_of_false nofun ?_
        rintro ⟨⟨-, -, h⟩, -⟩
        exact absurd h (not_le.2 hratio)
      · simp only [Nat.not_lt.1 hmembers, Nat.not_lt.1 hdeclared, not_lt.1 hratio, true_and]
        constructor
        · intro h
          split at h
          · cases h
          · rename_i reads truncated hreads
            obtain rfl := Except.ok.inj h
            exact ⟨reads, hreads, rfl⟩
        · rintro ⟨reads, hreads, htext⟩
          simp only [hreads, ← htext]

theorem extractPdfText_eq_ok {data : List UInt8} {parsed : Parsed} :
    r.extractPdfText limits data = .ok parsed ↔ ∃ pages, r.pdfPages data = .ok pages ∧
      ∃ pieces, pdfPieces limits.maxOutputChars pages = .ok (pieces, parsed.truncated) ∧
        parsed.text = [0x0a].intercalate pieces := by
  unfold extractPdfText
  cases r.pdfPages data with
  | error fault => simp
  | ok pages =>
      simp only [Except.ok.injEq, exists_eq_left']
      constructor
      · intro h
        split at h
        · cases h
        · rename_i pieces truncated hpieces
          obtain rfl := Except.ok.inj h
          exact ⟨pieces, hpieces, rfl⟩
      · rintro ⟨pieces, hpieces, htext⟩
        simp only [hpieces, ← htext]

/-- An extractor that was not stopped gives the whole text. -/
theorem extractor_uncut {data : List UInt8} {filename : PyStr} {kind : ExtractorKind}
    {parsed : Parsed} (hkind : classify filename = some kind)
    (h : r.extractor limits kind data = .ok parsed) (huncut : parsed.truncated = false) :
    r.wholeText data filename = some parsed.text := by
  unfold wholeText
  rw [hkind]
  cases kind with
  | text =>
      simp only [extractor] at h
      simp [h, Except.toOption]
  | office =>
      obtain ⟨members, hmembers, -, reads, hreads, htext⟩ := extractOfficeText_eq_ok.1 h
      rw [huncut, ← officeReads_filter] at hreads
      obtain ⟨rfl, hintact⟩ := officeReads_uncut (fun m hm => (List.mem_filter.1 hm).2) hreads
      simp only [hmembers, htext]
      rw [if_pos (List.all_eq_true.2 hintact)]
  | pdf =>
      obtain ⟨pages, hpages, pieces, hpieces, htext⟩ := extractPdfText_eq_ok.1 h
      rw [huncut] at hpieces
      simp only [hpages, pdfPieces_uncut hpieces, Option.map_some, htext]

theorem cutBlank_iff {data : List UInt8} {filename : PyStr} {kind : ExtractorKind}
    (hkind : classify filename = some kind) (hdata : data ≠ [])
    (hsize : data.length ≤ limits.maxInputBytes) :
    r.CutBlank limits data filename ↔ r.sandboxFault kind data = none ∧ ∃ parsed,
      r.extractor limits kind data = .ok parsed ∧ parsed.truncated ∧ blank parsed.text := by
  simp only [CutBlank, hdata, hsize, hkind, ne_eq, not_false_eq_true, true_and]
  cases kind with
  | text =>
      refine iff_of_false id ?_
      rintro ⟨-, parsed, hparsed, hcut, -⟩
      simp only [extractor, extractPlainText] at hparsed
      split at hparsed
      · simp [← Except.ok.inj hparsed] at hcut
      · split_ifs at hparsed
        simp [← Except.ok.inj hparsed] at hcut
  | office =>
      refine and_congr_right fun _ => ?_
      have hxml (members : List ZipMember) : ∀ m ∈ members.filter ZipMember.IsXml, m.IsXml :=
        fun m hm => (List.mem_filter.1 hm).2
      simp only [extractor, extractOfficeText_eq_ok, ← cutBlankReads_iff (hxml _),
        officeReads_filter]
      constructor
      · rintro ⟨members, hmembers, hadmits, reads, hreads, hblank⟩
        refine ⟨{ text := r.officeText reads, truncated := true },
          ⟨members, hmembers, hadmits, reads, hreads, rfl⟩, rfl, ?_⟩
        exact (blank_intercalate rfl _).2 (List.forall_mem_map.2 hblank)
      · rintro ⟨⟨text, truncated⟩, ⟨members, hmembers, hadmits, reads, hreads, rfl⟩, hcut, hblank⟩
        obtain rfl : truncated = true := hcut
        exact ⟨members, hmembers, hadmits, reads, hreads,
          List.forall_mem_map.1 ((blank_intercalate rfl _).1 hblank)⟩
  | pdf =>
      refine and_congr_right fun _ => ?_
      simp only [extractor, extractPdfText_eq_ok, ← cutBlankPieces_iff]
      constructor
      · rintro ⟨pages, hpages, pieces, hpieces, hblank⟩
        exact ⟨{ text := [0x0a].intercalate pieces, truncated := true },
          ⟨pages, hpages, pieces, hpieces, rfl⟩, rfl, (blank_intercalate rfl _).2 hblank⟩
      · rintro ⟨⟨text, truncated⟩, ⟨pages, hpages, pieces, hpieces, rfl⟩, hcut, hblank⟩
        obtain rfl : truncated = true := hcut
        exact ⟨pages, hpages, pieces, hpieces, (blank_intercalate rfl _).1 hblank⟩

theorem extractText_skippedEmpty {data : List UInt8} {filename : PyStr} :
    (r.extractText limits data filename).outcome = .skippedEmpty ↔
      data.length ≤ limits.maxInputBytes ∧ (data = [] ∨ ∃ kind parsed,
        classify filename = some kind ∧ r.sandboxFault kind data = none ∧
          r.extractor limits kind data = .ok parsed ∧ blank parsed.text) := by
  unfold extractText
  split_ifs with hlarge hempty
  · simp [Nat.not_le.2 hlarge]
  · simp [hempty]
  · simp only [Nat.not_lt.1 hlarge, hempty, true_and, false_or]
    cases classify filename with
    | none => simp
    | some kind =>
        simp only [Option.some.injEq, exists_and_left, exists_eq_left']
        rcases r.sandboxFault kind data with _ | _ | _
        · rcases r.extractor limits kind data with (_ | _ | _) | parsed
          · simp
          · simp
          · simp
          · by_cases hblank : blank parsed.text <;> simp [hblank]
        · simp
        · simp

theorem extractText_length (data : List UInt8) (filename : PyStr) :
    (r.extractText limits data filename).text.length ≤ limits.maxOutputChars := by
  unfold extractText
  repeat' split
  all_goals simp

/-- What is extracted and not said to be cut is the whole text. -/
theorem extractText_whole {data : List UInt8} {filename : PyStr}
    (h : (r.extractText limits data filename).outcome = .extracted)
    (huncut : (r.extractText limits data filename).truncated = false) :
    r.wholeText data filename = some (r.extractText limits data filename).text := by
  obtain ⟨kind, parsed, hkind, hparsed, htext, hflag⟩ := extractText_extracted h
  rw [huncut, Eq.comm, Bool.or_eq_false_iff, decide_eq_false_iff_not, not_lt] at hflag
  rw [htext, List.take_of_length_le hflag.2]
  exact extractor_uncut hkind hparsed hflag.1

/-- An extraction passes nothing partial off as whole exactly if the budget never runs out
over blanks before it comes to the text. -/
theorem never_partial_iff (data : List UInt8) (filename : PyStr) :
    r.NeverPartial limits data filename ↔
      (r.CutBlank limits data filename → r.NoText data filename) := by
  constructor
  · rintro ⟨-, hempty, -⟩ hcut
    obtain ⟨hdata, hsize, hkind⟩ := id hcut
    cases hclass : classify filename with
    | none => simp [hclass] at hkind
    | some kind =>
        obtain ⟨hfault, parsed, hparsed, -, hblank⟩ := (cutBlank_iff hclass hdata hsize).1 hcut
        exact hempty (extractText_skippedEmpty.2
          ⟨hsize, Or.inr ⟨kind, parsed, hclass, hfault, hparsed, hblank⟩⟩)
  · intro hcut
    refine ⟨extractText_whole, fun hempty => ?_, extractText_length data filename⟩
    obtain ⟨hsize, hdata | ⟨kind, parsed, hclass, hfault, hparsed, hblank⟩⟩ :=
      extractText_skippedEmpty.1 hempty
    · exact Or.inl hdata
    · by_cases hdata : data = []
      · exact Or.inl hdata
      · cases htruncated : parsed.truncated with
        | false => exact Or.inr ⟨parsed.text, extractor_uncut hclass hparsed htruncated, hblank⟩
        | true => exact hcut ((cutBlank_iff hclass hdata hsize).2
            ⟨hfault, parsed, hparsed, htruncated, hblank⟩)

end Readers

/-- An archive with one sheet: an empty cell, and then one with a password. -/
def sheetReaders : Readers where
  decode _ data := data.map UInt8.toNat
  zipMembers _ := .ok
    [{ filename := pyStr "sheet1.xml", fileSize := 7, compressSize := 7
       content := [0x3c, 0x63, 0x2f, 0x3e, 0x70, 0x77, 0x31] }]
  pdfPages _ := .error .other
  sandboxFault _ _ := none

def fourChars : ExtractionLimits where
  maxInputBytes := 100
  maxOutputChars := 4
  maxExpansionRatio := 200
  maxArchiveMembers := 512

/-- The four bytes that are read of it are a tag. -/
theorem sheet_passed_off_as_empty :
    ¬ sheetReaders.NeverPartial fourChars [0x50, 0x4b] (pyStr "a.xlsx") := by
  intro h
  rcases h.empty (by decide +kernel) with hnil | ⟨whole, hwhole, hblank⟩
  · cases hnil
  · have hsheet : sheetReaders.wholeText [0x50, 0x4b] (pyStr "a.xlsx") =
        some [0x20, 0x70, 0x77, 0x31] := by decide +kernel
    rw [hsheet] at hwhole
    obtain rfl := Option.some.inj hwhole
    exact absurd hblank (by decide)

end IcebergSST

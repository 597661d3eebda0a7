import IcebergSST.Enums
import IcebergSST.FileTree
import IcebergSST.Text

/-!
# Turning files into text

Every outcome of an extraction is a value. `Readers` are the codecs, the archive and the
document reader it runs on, with the fate of the child process the extractor runs in.
`wholeText` is what the extractors would give without the output limit, and `Fits` says
when the limit takes nothing away.
-/

namespace IcebergSST

inductive ExtractionOutcome
  | extracted
  | skippedUnsupported
  | skippedBinary
  | skippedEmpty
  | rejectedTooLarge
  | rejectedBomb
  | failedTimeout
  | failedParse
  deriving DecidableEq, Repr

namespace ExtractionOutcome

/-- Whether requested text could not be scanned completely. -/
def IsIncomplete : ExtractionOutcome → Bool
  | .rejectedTooLarge | .rejectedBomb | .failedTimeout | .failedParse => true
  | _ => false

/-- The manifest reason; `none` is the `ValueError` of a file that was extracted. -/
def coverageReason : ExtractionOutcome → Option CoverageReason
  | .extracted => none
  | .rejectedTooLarge | .rejectedBomb => some .sizeLimit
  | .failedTimeout => some .timeout
  | .failedParse => some .parseError
  | .skippedBinary => some .binaryContent
  | .skippedEmpty => some .emptyContent
  | .skippedUnsupported => some .unsupportedType

def disposition (o : ExtractionOutcome) : CoverageDisposition :=
  if o.IsIncomplete then .failed else .skipped

theorem coverageReason_allowed {o : ExtractionOutcome} {reason : CoverageReason}
    (h : o.coverageReason = some reason) : coverageReasonAllowed o.disposition reason := by
  cases o <;> cases h <;> rfl

end ExtractionOutcome

structure ExtractionLimits where
  maxInputBytes : ℕ := 32 * 1024 * 1024
  /-- Extracted text is truncated here. -/
  maxOutputChars : ℕ := 8 * 1024 * 1024
  maxExpansionRatio : ℚ := 200
  maxArchiveMembers : ℕ := 512

inductive ExtractorKind
  | text
  | office
  | pdf
  deriving DecidableEq, Repr

def pathName (path : PyStr) : PyStr :=
  (((path.splitOn slash).filterMap Name.of?).getLast?).elim [] Subtype.val

theorem encodes_pathName {path : PyStr} (h : encodes path) : encodes (pathName path) := by
  unfold pathName
  cases hlast : ((path.splitOn slash).filterMap Name.of?).getLast? with
  | none => rfl
  | some name =>
      obtain ⟨segment, hsegment, hname⟩ := List.mem_filterMap.1 (List.mem_of_getLast? hlast)
      unfold Name.of? at hname
      split_ifs at hname
      obtain rfl := Option.some.inj hname
      rw [← encodes_splitOn] at h
      exact List.all_eq_true.1 h segment hsegment

/-- From the last dot of a name on, unless nothing but dots stands before it. -/
def pathSuffix (name : PyStr) : PyStr :=
  let tail := (name.reverse.takeWhile (· ≠ dot)).reverse
  let stem := name.take (name.length - tail.length - 1)
  if dot ∈ name ∧ stem.any (· ≠ dot) then dot :: tail else []

/-- `str.lower` on the characters whose lower case holds an ASCII letter. No other
character has a part in the names below. -/
def lowerCode (c : ℕ) : PyStr :=
  if 0x41 ≤ c ∧ c ≤ 0x5a then [c + 0x20]
  else if c = 0x130 then [0x69, 0x307]
  else if c = 0x212a then [0x6b]
  else [c]

def textExtensions : List String :=
  [".txt", ".md", ".rst", ".log", ".csv", ".tsv", ".json", ".yaml", ".yml",
    ".toml", ".ini", ".cfg", ".conf", ".properties", ".env", ".xml", ".html",
    ".htm", ".sql", ".sh", ".bash", ".zsh", ".ps1", ".bat", ".py", ".rb",
    ".js", ".ts", ".jsx", ".tsx", ".java", ".kt", ".go", ".rs", ".c", ".h",
    ".cpp", ".cs", ".php", ".pl", ".swift", ".scala", ".tf", ".tfvars",
    ".dockerfile", ".gradle", ".gitconfig", ".npmrc", ".netrc"]

def officeExtensions : List String := [".docx", ".xlsx", ".pptx"]

def pdfExtensions : List String := [".pdf"]

def bareTextNames : List String :=
  ["dockerfile", "makefile", "procfile", ".env", ".npmrc", ".netrc", ".pgpass"]

def classify (filename : PyStr) : Option ExtractorKind :=
  let name := (pathName filename).flatMap lowerCode
  let suffix := pathSuffix name
  if name ∈ bareTextNames.map pyStr ∨ suffix = [] ∧ name.head? = some dot then some .text
  else if suffix ∈ textExtensions.map pyStr then some .text
  else if suffix ∈ officeExtensions.map pyStr then some .office
  else if suffix ∈ pdfExtensions.map pyStr then some .pdf
  else none

theorem isSpace_code {c : ℕ} (h : isSpace (Char.ofNat c)) :
    c ≠ slash ∧ c ≠ dot ∧ lowerCode c = [c] := by
  have hcode : (Char.ofNat c).toNat = c := by
    by_cases hvalid : c.isValidChar
    · rw [Char.ofNat, dif_pos hvalid]
      rfl
    · simp [Char.ofNat, hvalid, isSpace] at h
  unfold isSpace at h
  rw [hcode] at h
  simp only [Bool.or_eq_true, Bool.and_eq_true, decide_eq_true_eq] at h
  refine ⟨by unfold slash; omega, by unfold dot; omega, ?_⟩
  unfold lowerCode
  split_ifs <;> first | rfl | omega

theorem pathName_of_plain {name : PyStr} (hslash : slash ∉ name) (hdot : name ≠ [dot]) :
    pathName name = name := by
  have hsplit : name.splitOn slash = [name] := by
    have hone : ∀ segment ∈ [name], slash ∉ segment := by simpa using hslash
    simpa using List.splitOn_intercalate slash hone (by simp)
  unfold pathName
  rw [hsplit]
  by_cases hnil : name = []
  · simp [hnil, Name.of?]
  · simp [Name.of?, hnil, hslash, hdot]

theorem classify_of_blank {key : PyStr} (h : blank key) : classify (pathName key) = none := by
  have hcodes : ∀ c ∈ key, c ≠ slash ∧ c ≠ dot ∧ lowerCode c = [c] := by
    intro c hc
    exact isSpace_code (List.all_eq_true.1 h c hc)
  have hslash : slash ∉ key := fun hc => (hcodes _ hc).1 rfl
  have hdot : dot ∉ key := fun hc => (hcodes _ hc).2.1 rfl
  have hname : pathName key = key := pathName_of_plain hslash (by rintro rfl; simp at hdot)
  have hlower : key.flatMap lowerCode = key := by
    have hmap : key.flatMap lowerCode = key.flatMap fun c => [c] :=
      List.flatMap_congr fun c hc => (hcodes c hc).2.2
    rw [hmap, List.flatMap_singleton']
  have hbare : key ∉ bareTextNames.map pyStr := by
    have hall : ∀ name ∈ bareTextNames.map pyStr, blank name = false := by decide +kernel
    intro hmem
    rw [hall key hmem] at h
    cases h
  have hsuffix : pathSuffix key = [] := by simp [pathSuffix, hdot]
  have hhead : key.head? ≠ some dot := fun hh => hdot (List.mem_of_head? hh)
  simp only [classify, hname, hlower, hsuffix]
  rw [if_neg (by tauto), if_neg (by decide +kernel), if_neg (by decide +kernel),
    if_neg (by decide +kernel)]

inductive ParseFault
  | bomb
  | binaryContent
  /-- Any other exception of a parser. -/
  | other
  deriving DecidableEq, Repr

inductive SandboxFault
  | timeout
  | crashed
  deriving DecidableEq, Repr

inductive TextEncoding
  | utf8
  | utf8Sig
  | utf16
  | utf32
  deriving DecidableEq, Repr

/-- A member of an archive as its header declares it, with the bytes it expands to. One
that is not intact fails when a read comes to its end. -/
structure ZipMember where
  filename : PyStr
  fileSize : ℕ
  compressSize : ℕ
  content : List UInt8
  intact : Bool := true

def ZipMember.read (m : ZipMember) (n : ℕ) : Except ParseFault (List UInt8) :=
  if n < m.content.length ∨ m.intact then .ok (m.content.take n) else .error .other

def ZipMember.IsXml (m : ZipMember) : Bool := (pyStr ".xml").isSuffixOf m.filename

structure Readers where
  /-- `data.decode(encoding, errors="replace")` -/
  decode : TextEncoding → List UInt8 → PyStr
  zipMembers : List UInt8 → Except ParseFault (List ZipMember)
  pdfPages : List UInt8 → Except ParseFault (List (Except ParseFault PyStr))
  sandboxFault : ExtractorKind → List UInt8 → Option SandboxFault

/-- What one extractor produced, and whether it stopped at the output budget. -/
structure Parsed where
  text : PyStr
  truncated : Bool := false

def byteOrderMarks : List (List UInt8 × TextEncoding) :=
  [([0xef, 0xbb, 0xbf], .utf8Sig), ([0xff, 0xfe, 0x00, 0x00], .utf32),
    ([0x00, 0x00, 0xfe, 0xff], .utf32), ([0xff, 0xfe], .utf16), ([0xfe, 0xff], .utf16)]

/-- Tags of at most 4096 bytes become a space; the bound is the number of bytes left. -/
def stripTags : ℕ → List UInt8 → List UInt8
  | 0, _ => []
  | _ + 1, [] => []
  | n + 1, b :: rest =>
      if b = 0x3c then
        let inside := rest.takeWhile (· ≠ 0x3e)
        match rest.drop inside.length with
        | _ :: after =>
            if inside.length ≤ 4096 then 0x20 :: stripTags n after else b :: stripTags n rest
        | [] => b :: stripTags n rest
      else b :: stripTags n rest

namespace Readers

variable (r : Readers) (limits : ExtractionLimits)

def extractPlainText (data : List UInt8) : Except ParseFault Parsed :=
  match byteOrderMarks.find? (fun mark => mark.1.isPrefixOf data) with
  | some (_, encoding) => .ok { text := r.decode encoding data }
  | none =>
      if 0 ∈ data.take 8192 then .error .binaryContent
      else .ok { text := r.decode .utf8 data }

def officePiece (raw : List UInt8) : PyStr := r.decode .utf8 (stripTags raw.length raw)

/-- What is read of each XML member within the budget of characters that is left, and
whether the budget cut anything off. -/
def officeReads : ℕ → List ZipMember → Except ParseFault (List (List UInt8) × Bool)
  | _, [] => .ok ([], false)
  | budget, member :: members =>
      if member.IsXml then
        match member.read (budget + 1) with
        | .error fault => .error fault
        | .ok raw =>
            let kept := raw.take budget
            if budget ≤ (r.officePiece kept).length then .ok ([kept], true)
            else
              match officeReads (budget - (r.officePiece kept).length) members with
              | .error fault => .error fault
              | .ok (reads, truncated) => .ok (kept :: reads, budget < raw.length || truncated)
      else officeReads budget members

def officeText (reads : List (List UInt8)) : PyStr :=
  [0x20].intercalate (reads.map r.officePiece)

def extractOfficeText (data : List UInt8) : Except ParseFault Parsed :=
  match r.zipMembers data with
  | .error fault => .error fault
  | .ok members =>
      let declared := (members.map ZipMember.fileSize).sum
      let compressed := max 1 (members.map ZipMember.compressSize).sum
      if limits.maxArchiveMembers < members.length then .error .bomb
      else if limits.maxOutputChars * 4 < declared then .error .bomb
      else if limits.maxExpansionRatio < (declared : ℚ) / compressed then .error .bomb
      else
        match r.officeReads limits.maxOutputChars members with
        | .error fault => .error fault
        | .ok (reads, truncated) => .ok { text := r.officeText reads, truncated }

def pdfPieces : ℕ → List (Except ParseFault PyStr) → Except ParseFault (List PyStr × Bool)
  | _, [] => .ok ([], false)
  | _, .error fault :: _ => .error fault
  | budget, .ok text :: pages =>
      if budget ≤ text.length then .ok ([text], true)
      else
        match pdfPieces (budget - text.length) pages with
        | .error fault => .error fault
        | .ok (pieces, truncated) => .ok (text :: pieces, truncated)

def extractPdfText (data : List UInt8) : Except ParseFault Parsed :=
  match r.pdfPages data with
  | .error fault => .error fault
  | .ok pages =>
      match pdfPieces limits.maxOutputChars pages with
      | .error fault => .error fault
      | .ok (pieces, truncated) => .ok { text := [0x0a].intercalate pieces, truncated }

def extractor : ExtractorKind → List UInt8 → Except ParseFault Parsed
  | .text => r.extractPlainText
  | .office => r.extractOfficeText limits
  | .pdf => r.extractPdfText limits

end Readers

structure Extracted where
  outcome : ExtractionOutcome
  text : PyStr := []
  truncated : Bool := false

namespace Readers

variable (r : Readers) (limits : ExtractionLimits)

def extractText (data : List UInt8) (filename : PyStr) : Extracted :=
  if limits.maxInputBytes < data.length then { outcome := .rejectedTooLarge }
  else if data = [] then { outcome := .skippedEmpty }
  else
    match classify filename with
    | none => { outcome := .skippedUnsupported }
    | some kind =>
        match r.sandboxFault kind data, r.extractor limits kind data with
        | some .timeout, _ => { outcome := .failedTimeout }
        | some .crashed, _ => { outcome := .failedParse }
        | none, .error .bomb => { outcome := .rejectedBomb }
        | none, .error .binaryContent => { outcome := .skippedBinary }
        | none, .error .other => { outcome := .failedParse }
        | none, .ok parsed =>
            if blank parsed.text then { outcome := .skippedEmpty }
            else
              { outcome := .extracted
                text := parsed.text.take limits.maxOutputChars
                truncated := parsed.truncated || limits.maxOutputChars < parsed.text.length }

/-- The text of a file with nothing cut off; `none` if it has none. -/
def wholeText (data : List UInt8) (filename : PyStr) : Option PyStr :=
  match classify filename with
  | none => none
  | some .text => (r.extractPlainText data).toOption.map Parsed.text
  | some .office =>
      match r.zipMembers data with
      | .error _ => none
      | .ok members =>
          let parts := members.filter ZipMember.IsXml
          if parts.all ZipMember.intact then some (r.officeText (parts.map ZipMember.content))
          else none
  | some .pdf =>
      match r.pdfPages data with
      | .error _ => none
      | .ok pages => (pages.mapM Except.toOption).map [0x0a].intercalate

/-- The parts of a document fit in the budget as their texts use it up. -/
def OfficeFits : ℕ → List ZipMember → Prop
  | _, [] => True
  | budget, member :: members =>
      member.intact ∧ member.content.length ≤ budget ∧
        (members = [] ∨ (r.officePiece member.content).length < budget ∧
          OfficeFits (budget - (r.officePiece member.content).length) members)

/-- The limit on the output is as large as the text of the file. -/
structure Fits (data : List UInt8) (filename : PyStr) : Prop where
  text : ∃ whole, r.wholeText data filename = some whole ∧ whole.length ≤ limits.maxOutputChars
  parts : classify filename = some .office → ∀ members, r.zipMembers data = .ok members →
    r.OfficeFits limits.maxOutputChars (members.filter ZipMember.IsXml)

/-- The text is the whole text, and every part of a document was read to its end. -/
structure Complete (data : List UInt8) (filename text : PyStr) : Prop where
  text : r.wholeText data filename = some text
  parts : classify filename = some .office → ∀ members, r.zipMembers data = .ok members →
    ∃ truncated, r.officeReads limits.maxOutputChars members =
      .ok ((members.filter ZipMember.IsXml).map ZipMember.content, truncated)

variable {r limits}

theorem officeReads_filter (budget : ℕ) (members : List ZipMember) :
    r.officeReads budget (members.filter ZipMember.IsXml) = r.officeReads budget members := by
  induction members generalizing budget with
  | nil => rfl
  | cons member members ih =>
      by_cases hxml : member.IsXml
      · simp only [List.filter_cons_of_pos hxml, officeReads, if_pos hxml, ih]
      · simp only [List.filter_cons_of_neg hxml, officeReads, if_neg hxml, ih]

/-- The reads of the parts are their contents exactly if the parts fit. -/
theorem officeReads_whole_iff {budget : ℕ} {parts : List ZipMember}
    (hxml : ∀ m ∈ parts, m.IsXml) :
    (∃ truncated, r.officeReads budget parts = .ok (parts.map ZipMember.content, truncated)) ↔
      r.OfficeFits budget parts := by
  induction parts generalizing budget with
  | nil => simp [officeReads, OfficeFits]
  | cons member parts ih =>
      let room := budget - (r.officePiece member.content).length
      have hrest : (∃ truncated, r.officeReads room parts =
          .ok (parts.map ZipMember.content, truncated)) ↔ r.OfficeFits room parts :=
        ih fun m hm => hxml m (List.mem_cons_of_mem _ hm)
      have hone := hxml member List.mem_cons_self
      simp only [officeReads, if_pos hone, OfficeFits, List.map_cons]
      by_cases hfits : member.content.length ≤ budget
      · have hread : ∀ n, budget ≤ n → member.content.take n = member.content :=
          fun n hn => List.take_of_length_le (hfits.trans hn)
        by_cases hintact : member.intact
        · simp only [ZipMember.read, hintact, or_true, if_true, hread _ (Nat.le_succ budget),
            hread _ le_rfl]
          by_cases hroom : budget ≤ (r.officePiece member.content).length
          · simp [hroom, hfits, Nat.not_lt.2 hroom]
          · rw [if_neg hroom]
            have hfit : (parts = [] ∨ (r.officePiece member.content).length < budget ∧
                r.OfficeFits (budget - (r.officePiece member.content).length) parts) ↔
                r.OfficeFits (budget - (r.officePiece member.content).length) parts := by
              constructor
              · rintro (rfl | h)
                · trivial
                · exact h.2
              · exact fun h => Or.inr ⟨not_le.1 hroom, h⟩
            rw [hfit, ← hrest]
            rcases r.officeReads _ parts with fault | ⟨reads, truncated⟩
            · simp
            · simp [hfits]
        · have hshort : ¬ budget + 1 < member.content.length := by omega
          simp [ZipMember.read, hintact, hshort]
      · have hcut : ∀ n, (member.content.take n).take budget ≠ member.content := by
          intro n heq
          have hlength := congrArg List.length heq
          simp only [List.length_take] at hlength
          omega
        refine iff_of_false ?_ fun h => hfits h.2.1
        rintro ⟨truncated, h⟩
        unfold ZipMember.read at h
        split at h
        · cases h
        · rename_i raw hraw
          split_ifs at hraw
          obtain rfl := Except.ok.inj hraw
          have hhead : ∀ {reads flag},
              (Except.ok (((member.content.take (budget + 1)).take budget) ::
              reads, flag) : Except ParseFault _) ≠
              .ok (member.content :: parts.map ZipMember.content, truncated) := by
            intro reads flag heq
            simp only [Except.ok.injEq, Prod.mk.injEq, List.cons.injEq] at heq
            exact hcut _ heq.1.1
          split_ifs at h
          · exact hhead h
          · split at h
            · cases h
            · exact hhead h

theorem pdfPieces_whole {budget : ℕ} {pages : List (Except ParseFault PyStr)}
    {pieces texts : List PyStr} {truncated : Bool}
    (h : pdfPieces budget pages = .ok (pieces, truncated))
    (hall : pages.mapM Except.toOption = some texts)
    (hroom : ([0x0a].intercalate texts).length ≤ budget) : pieces = texts := by
  induction pages generalizing budget pieces texts truncated with
  | nil =>
      obtain rfl : [] = texts := by simpa using hall
      simp only [pdfPieces, Except.ok.injEq, Prod.mk.injEq] at h
      exact h.1.symm
  | cons page pages ih =>
      rcases page with fault | text
      · cases h
      · obtain ⟨rest, hrest, rfl⟩ : ∃ rest, pages.mapM Except.toOption = some rest ∧
            text :: rest = texts := by
          simpa [Except.toOption, Option.bind_eq_some_iff] using hall
        have hlength : rest ≠ [] → ([0x0a].intercalate (text :: rest)).length =
            text.length + 1 + ([0x0a].intercalate rest).length := by
          intro hne
          rw [List.intercalate_cons_of_ne_nil hne]
          simp only [List.length_append, List.length_singleton]
        simp only [pdfPieces] at h
        split_ifs at h with hlast
        · have hnil : rest = [] := by
            by_contra hne
            have := hlength hne
            omega
          simp only [Except.ok.injEq, Prod.mk.injEq] at h
          rw [hnil, ← h.1]
        · split at h
          · cases h
          · rename_i pieces' truncated' hpieces
            simp only [Except.ok.injEq, Prod.mk.injEq] at h
            rw [← h.1, ih hpieces hrest]
            by_cases hnil : rest = []
            · simp [hnil]
            · have := hlength hnil
              omega

theorem extractText_extracted {data : List UInt8} {filename : PyStr}
    (h : (r.extractText limits data filename).outcome = .extracted) :
    ∃ kind parsed, classify filename = some kind ∧ r.extractor limits kind data = .ok parsed ∧
      (r.extractText limits data filename).text = parsed.text.take limits.maxOutputChars ∧
        (r.extractText limits data filename).truncated =
          (parsed.truncated || limits.maxOutputChars < parsed.text.length) := by
  unfold extractText at h ⊢
  split_ifs at h ⊢ with hlarge hempty
  split at h
  · cases h
  · rename_i kind hkind
    refine ⟨kind, ?_⟩
    split at h
    all_goals first | cases h | skip
    rename_i parsed hfault hparsed
    refine ⟨parsed, hkind, hparsed, ?_⟩
    split_ifs at h with hblank
    simp [hblank]

theorem parts_whole_iff (data : List UInt8) (filename : PyStr) :
    (classify filename = some .office → ∀ members, r.zipMembers data = .ok members →
      ∃ truncated, r.officeReads limits.maxOutputChars members =
        .ok ((members.filter ZipMember.IsXml).map ZipMember.content, truncated)) ↔
      (classify filename = some .office → ∀ members, r.zipMembers data = .ok members →
        r.OfficeFits limits.maxOutputChars (members.filter ZipMember.IsXml)) := by
  refine imp_congr Iff.rfl (forall_congr' fun members => imp_congr Iff.rfl ?_)
  rw [← officeReads_filter]
  exact officeReads_whole_iff fun m hm => (List.mem_filter.1 hm).2

/-- A file whose whole text is no longer than the limit, and read whole, fits. -/
theorem Complete.fits {data : List UInt8} {filename text : PyStr}
    (h : r.Complete limits data filename text) (hlength : text.length ≤ limits.maxOutputChars) :
    r.Fits limits data filename where
  text := ⟨text, h.text, hlength⟩
  parts := (parts_whole_iff data filename).1 h.parts

/-- The extraction of a file that fits is complete. -/
theorem Fits.complete {data : List UInt8} {filename : PyStr} (hf : r.Fits limits data filename)
    (h : (r.extractText limits data filename).outcome = .extracted) :
    r.Complete limits data filename (r.extractText limits data filename).text := by
  obtain ⟨kind, parsed, hkind, hparsed, htext, -⟩ := extractText_extracted h
  have hparts := (parts_whole_iff data filename).2 hf.parts
  rw [htext]
  obtain ⟨whole, hwhole, hlength⟩ := hf.text
  refine ⟨?_, hparts⟩
  suffices heq : parsed.text = whole by rw [heq, List.take_of_length_le hlength, hwhole]
  unfold wholeText at hwhole
  rw [hkind] at hwhole
  cases kind with
  | text =>
      simp only [extractor] at hparsed
      simpa [hparsed, Except.toOption] using hwhole
  | office =>
      simp only [extractor, extractOfficeText] at hparsed
      split at hparsed
      · cases hparsed
      · rename_i members hmembers
        obtain ⟨truncated, hreads⟩ := hparts hkind members hmembers
        simp only [hreads] at hparsed
        split_ifs at hparsed
        simp only [hmembers] at hwhole
        split_ifs at hwhole
        rw [← Except.ok.inj hparsed, ← Option.some.inj hwhole]
  | pdf =>
      simp only [extractor, extractPdfText] at hparsed
      split at hparsed
      · cases hparsed
      · rename_i pages hpages
        simp only [hpages] at hwhole
        obtain ⟨texts, htexts, rfl⟩ := Option.map_eq_some_iff.1 hwhole
        split at hparsed
        · cases hparsed
        · rename_i pieces truncated hpieces
          rw [← Except.ok.inj hparsed, pdfPieces_whole hpieces htexts hlength]

end Readers

def asciiReaders : Readers where
  decode _ data := data.map UInt8.toNat
  zipMembers _ := .error .other
  pdfPages _ := .error .other
  sandboxFault _ _ := none

end IcebergSST

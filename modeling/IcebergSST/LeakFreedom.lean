import IcebergSST.PositionLaw
import IcebergSST.Reported

/-!
# Whose plaintext a snippet may show

The bisection finds exactly the matches that reach a window, and the last check of a
redaction refuses a snippet with the plaintext of any of them. A match further off is not
passed, so a copy of it that no rule matched stays in the context unless nothing that is
emitted reads as its plaintext, outside the copies that the scrub takes whole.
-/

namespace IcebergSST.Detection

open Redaction

variable {κ : Type} {n : ℕ}

theorem take_bisect (spans : List (Span n)) (p : ℕ → Bool) :
    spans.take ((spans.map Span.start).takeWhile p).length =
      spans.takeWhile fun span => p span.start := by
  induction spans with
  | nil => rfl
  | cons span spans ih =>
      rw [List.map_cons, List.takeWhile_cons, List.takeWhile_cons]
      cases p span.start with
      | false => rfl
      | true => exact congrArg (span :: ·) ih

theorem mem_takeWhile_start {spans : List (Span n)} {bound : ℕ}
    (hsorted : spans.Pairwise fun a b => a.start ≤ b.start) {span : Span n} (hspan : span ∈ spans)
    (hle : span.start ≤ bound) : span ∈ spans.takeWhile fun span => span.start ≤ bound := by
  induction spans with
  | nil => cases hspan
  | cons a spans ih =>
      obtain ⟨ha, hrest⟩ := List.pairwise_cons.1 hsorted
      rw [List.takeWhile_cons]
      rcases List.mem_cons.1 hspan with rfl | hspan
      · rw [if_pos (decide_eq_true hle)]
        exact List.mem_cons_self
      · have := ha span hspan
        rw [if_pos (decide_eq_true (by omega : a.start ≤ bound))]
        exact List.mem_cons_of_mem _ (ih hrest hspan)

theorem le_foldr_max {l : List ℕ} {x : ℕ} (h : x ∈ l) : x ≤ l.foldr max 0 := by
  induction l with
  | nil => cases h
  | cons a l ih =>
      rw [List.foldr_cons]
      rcases List.mem_cons.1 h with rfl | h
      · exact le_max_left _ _
      · exact (ih h).trans (le_max_right _ _)

theorem drop_bisect (spans : List (Span n)) (p : ℕ → Bool) :
    spans.drop ((spans.map Span.start).takeWhile p).length =
      spans.dropWhile fun span => p span.start := by
  induction spans with
  | nil => rfl
  | cons span spans ih =>
      rw [List.map_cons, List.takeWhile_cons, List.dropWhile_cons]
      cases p span.start with
      | false => rfl
      | true => exact ih

theorem lt_start_of_mem_drop {spans : List (Span n)} {bound : ℕ}
    (hsorted : spans.Pairwise fun a b => a.start ≤ b.start) {span : Span n}
    (hspan : span ∈ spans.drop (bisectRight (spans.map Span.start) bound)) :
    bound < span.start := by
  rw [bisectRight, drop_bisect] at hspan
  induction spans with
  | nil => cases hspan
  | cons a spans ih =>
      obtain ⟨ha, hrest⟩ := List.pairwise_cons.1 hsorted
      rw [List.dropWhile_cons] at hspan
      by_cases hle : a.start ≤ bound
      · rw [if_pos (decide_eq_true hle)] at hspan
        exact ih hrest hspan
      · rw [if_neg (by simpa using hle)] at hspan
        cases hspan with
        | head => omega
        | tail _ hspan =>
            have := ha span hspan
            omega

theorem start_lt_of_mem_take {spans : List (Span n)} {bound : ℕ} {span : Span n}
    (hspan : span ∈ spans.take (bisectLeft (spans.map Span.start) bound)) :
    span.start < bound := by
  rw [bisectLeft, take_bisect] at hspan
  exact of_decide_eq_true
    (List.mem_takeWhile_imp (p := fun s : Span n => s.start < bound) hspan)

/-- A slice keeps every element that passes the filter where the parts cut off keep none. -/
theorem filter_slice {β : Type*} {l : List β} {p : β → Bool} {i j : ℕ}
    (hfirst : ∀ a ∈ l.take i, ¬ p a) (hlast : ∀ a ∈ l.drop j, ¬ p a) :
    ((l.take j).drop i).filter p = l.filter p := by
  have htake : ∀ a ∈ (l.take j).take i, ¬ p a := by
    intro a ha
    rw [List.take_take] at ha
    exact hfirst a ((List.take_sublist_take_left (Nat.min_le_left _ _)).subset ha)
  calc ((l.take j).drop i).filter p
      = ((l.take j).take i ++ (l.take j).drop i).filter p := by
        rw [List.filter_append, List.filter_eq_nil_iff.2 htake, List.nil_append]
    _ = (l.take j).filter p := by rw [List.take_append_drop]
    _ = (l.take j ++ l.drop j).filter p := by
        rw [List.filter_append, List.filter_eq_nil_iff.2 hlast, List.append_nil]
    _ = l.filter p := by rw [List.take_append_drop]

/-- The bisection loses no match that reaches the window. -/
theorem mem_spansReaching {spans : List (Span n)} {widest : ℕ} {window span : Span n}
    (hsorted : spans.Pairwise fun a b => a.start ≤ b.start) (hspan : span ∈ spans)
    (hwidth : span.stop - span.start ≤ widest) (hover : span.Overlaps window) :
    span ∈ spansReaching spans (spans.map Span.start) widest window := by
  have hlt := span.start_lt
  obtain ⟨hstart, hstop⟩ := hover
  refine List.mem_filter.2 ⟨?_, decide_eq_true ⟨hstart, hstop⟩⟩
  have hlast : span ∈ spans.take (bisectRight (spans.map Span.start) window.stop) := by
    rw [bisectRight, take_bisect]
    exact mem_takeWhile_start hsorted hspan hstart.le
  rw [← List.take_append_drop (bisectLeft (spans.map Span.start) (window.start - widest))
    (spans.take _), List.mem_append] at hlast
  refine hlast.resolve_left fun hfirst => ?_
  rw [List.take_take] at hfirst
  have hbefore := (List.take_sublist_take_left (Nat.min_le_left _ _)).subset hfirst
  have hlow := start_lt_of_mem_take hbefore
  omega

/-- The two bisections over the starts, with the greatest width, find what overlaps the
window, in order. -/
theorem spansReaching_eq_filter (spans : List (Span n))
    (hsorted : spans.Pairwise fun a b => a.start ≤ b.start) (window : Span n) :
    spansReaching spans (spans.map Span.start)
        ((spans.map fun span => span.stop - span.start).foldr max 0) window =
      spans.filter fun span => span.Overlaps window := by
  refine filter_slice ?first ?last
  case first =>
    intro span hspan
    have hstart := start_lt_of_mem_take hspan
    have hwide : span.stop - span.start ≤
        (spans.map fun span => span.stop - span.start).foldr max 0 :=
      le_foldr_max (List.mem_map.2 ⟨span, List.mem_of_mem_take hspan, rfl⟩)
    have hlt := span.start_lt
    rw [decide_eq_true_iff]
    intro hover
    have := hover.2
    omega
  case last =>
    intro span hspan
    have hstart := lt_start_of_mem_drop hsorted hspan
    rw [decide_eq_true_iff]
    intro hover
    have := hover.1
    omega

/-- The second and the third start together and one holds the other; the window is where
only the widest reaches. -/
theorem nested_spansReaching :
    spansReaching (n := 20)
        [⟨0, 15, by decide, by decide⟩, ⟨2, 4, by decide, by decide⟩, ⟨2, 9, by decide, by decide⟩]
        [0, 2, 2] 15 ⟨9, 12, by decide, by decide⟩ =
      [⟨0, 15, by decide, by decide⟩] :=
  spansReaching_eq_filter
    [⟨0, 15, by decide, by decide⟩, ⟨2, 4, by decide, by decide⟩, ⟨2, 9, by decide, by decide⟩]
    (by decide) ⟨9, 12, by decide, by decide⟩

theorem mem_neighbours {text : Text} {pack : RulePack κ} {candidate : Candidate κ text.length}
    {span : Span text.length} (hspan : span ∈ matchSpans text pack)
    (hover : span.Overlaps
      (contextWindow candidate.span candidate.rule.redaction).toSpan) :
    span ∈ candidate.span :: neighbours text pack candidate := by
  by_cases heq : span = candidate.span
  · rw [heq]
    exact List.mem_cons_self
  · refine List.mem_cons_of_mem _ (List.mem_filter.2 ⟨?_, decide_eq_true heq⟩)
    have hall : span ∈ allSpans text pack := (List.perm_insertionSort _ _).mem_iff.2 hspan
    exact mem_spansReaching (pairwise_insertionSort_start Span.start _) hall
      (le_foldr_max (List.mem_map.2 ⟨span, hall, rfl⟩)) hover

variable {order : WalkOrder} {text : Text} {target : Span text.length} {policy : RedactionPolicy}
  {otherSpans : List (Span text.length)}

/-- The text can be read, runs of whitespace collapsed, off a part of a stretch emitted as
context that holds no copy of a scrubbed text and meets none that goes as a whole. -/
structure Exposed (order : WalkOrder) (text : Text) (target : Span text.length)
    (policy : RedactionPolicy) (otherSpans : List (Span text.length)) (read : Text)
    (part : Span text.length) (i j : ℕ) : Prop where
  emitted : Part.context part ∈ finalLayout order text target policy otherSpans
  start_le : part.start ≤ i
  lt : i < j
  le_stop : j ≤ part.stop
  unmatched : ∀ copied k,
    CopyIn text (finalReplacements order text target policy otherSpans) part copied k → i ≤ k →
      ¬ k + copied.length ≤ j
  left : ∀ copied k, GoesWhole text target policy
    (finalReplacements order text target policy otherSpans) part copied k → j ≤ k ∨
      k + copied.length ≤ i
  reads : collapseWhitespace false (Literal.slice text i j) = read

/-- Context of the snippet was read off an exposed part of an emitted stretch. -/
theorem exposed_of_context {stretch : List Cell}
    (h : stretch <:+: snippetCells order text target policy otherSpans) (hne : stretch ≠ [])
    (hcontext : ∀ c ∈ stretch, c.Context) :
    ∃ part i j,
      Exposed order text target policy otherSpans (stretch.map Cell.char) part i j := by
  have hscrub := scrubs_final order text target policy otherSpans
  obtain ⟨part, hpart, hin⟩ := context_infix_snippetCells h hne hcontext
  obtain ⟨before, hbefore, hun⟩ := exists_infix_uncollapsed hin hcontext fun c hc hctx => by
    rcases mem_scrubCells hc hscrub with hkept | ⟨_, _, hm⟩
    · exact kept_of_mem_unitCells (keptCells_eq part ▸ hkept)
    · exact absurd hctx (not_context_of_mem_maskCells hm)
  cases before with
  | nil =>
      have hread := hun.reads
      cases stretch with
      | nil => exact absurd rfl hne
      | cons c stretch => cases hread
  | cons c seg =>
      obtain ⟨hunit, hnot⟩ := infix_of_infix_scrubCells hscrub hbefore hun.bracket
        (hun.head rfl c rfl) hun.last
      obtain ⟨i, hi, histop, hcells⟩ := infix_keptCells hunit
      have hpos : 0 < (c :: seg).length := Nat.succ_pos _
      refine ⟨part, i, i + (c :: seg).length, hpart, hi, by omega, histop, ?_, ?_, ?_⟩
      case refine_1 =>
        rintro copied k ⟨⟨item, hitem, rfl⟩, hat, -, -⟩ hk hkstop
        -- the copy would stand in the scrubbed cells
        have hfit : i + (c :: seg).length ≤ text.length := histop.trans part.stop_le
        have hsub := @unitCells_infix_keptCells text ⟨i, i + (c :: seg).length, by omega, hfit⟩ _ _
          hk hkstop
        rw [keptCells_eq] at hsub
        dsimp only at hsub
        rw [Nat.add_sub_cancel_left, ← hcells] at hsub
        exact not_infix_of_scrubbed hscrub hitem hat (hsub.trans hbefore)
      case refine_2 =>
        intro copied k hgoes
        by_contra hmeets
        push Not at hmeets
        have hlen : 1 < copied.length := by
          obtain ⟨item, hitem, rfl⟩ := hgoes.scrubbed
          exact (hscrub item hitem).1
        -- a position of both is left by the scrub, and taken by it
        obtain ⟨p, hp, hp', hk, hk'⟩ : ∃ p, i ≤ p ∧ p < i + (c :: seg).length ∧ k ≤ p ∧
            p < k + copied.length :=
          ⟨max i k, by omega, by omega, by omega, by omega⟩
        have hlt : p < text.length := hp'.trans_le (histop.trans part.stop_le)
        have hcell : (⟨text[p], .kept p⟩ : Cell) ∈ c :: seg := by
          rw [hcells]
          exact mem_unitCells.2 ⟨p, hp, hp', List.getElem?_eq_getElem hlt, rfl⟩
        refine hgoes.gone hscrub (finalReplacements_sorted order text target policy otherSpans) _
          (mem_unitCells.2 ⟨p, hk, hk', List.getElem?_eq_getElem hlt, rfl⟩) (hbefore.subset hcell)
      case refine_3 =>
        rw [← map_char_unitCells, ← hcells]
        exact hun.reads

/-- A returned snippet spells no matched text at all. -/
theorem not_reads_of_ok {snippet : Text}
    (h : redactSnippet order text target policy otherSpans = .ok snippet) {secret : Secret}
    (hsecret : secret ∈ secretsOf order text target otherSpans) {stretch : List Cell}
    (hstretch : stretch <:+: snippetCells order text target policy otherSpans) :
    stretch.map Cell.char ≠ secret.1 := by
  intro hread
  rw [redactSnippet_eq, assertNoPlaintext, if_pos] at h
  · cases h
  · refine List.any_eq_true.2 ⟨secret, hsecret, decide_eq_true ?_⟩
    rw [← hread]
    exact hstretch.map Cell.char

/-- Outside its masks the snippet shows the whole plaintext of no match of the unit. -/
def LeakFree (order : WalkOrder) (text : Text) (pack : RulePack κ)
    (candidate : Candidate κ text.length) : Prop :=
  ∀ span ∈ matchSpans text pack, 1 < (plaintext text span).1.length →
    ∀ stretch, stretch <:+: (snippetCells order text candidate.span candidate.rule.redaction
      (neighbours text pack candidate)).take maxSnippetChars →
      (∀ cell ∈ stretch, cell.Context) → stretch.map Cell.char ≠ (plaintext text span).1

variable [LinearOrder κ]

/-- What is exposed is left by the scrub as it was, unless the scrub cuts a copy or a mask. -/
theorem Exposed.left_or_cuts {read : Text} {part : Span text.length} {i j : ℕ}
    (h : Exposed order text target policy otherSpans read part i j) :
    unitCells text i (j - i) <:+: scrubCells (plaintext text target) policy
        (finalReplacements order text target policy otherSpans) (keptCells text part) ∨
      ScrubCuts text target policy (finalReplacements order text target policy otherSpans)
        part := by
  by_cases hcuts : ScrubCuts text target policy
    (finalReplacements order text target policy otherSpans) part
  · exact Or.inr hcuts
  · exact Or.inl (infix_scrubCells_of_not_cuts (scrubs_final order text target policy otherSpans)
      hcuts h.start_le h.lt.le h.le_stop h.left)

/-- No match too far off to be passed is exposed in what is emitted of a window. -/
def FarHidden (order : WalkOrder) (scoring : Scoring κ) (text : Text) (pack : RulePack κ)
    (threshold : κ) (maxMatches : ℕ) : Prop :=
  ∀ candidate ∈ reportable scoring text pack threshold maxMatches,
    ∀ span ∈ matchSpans text pack, 1 < (plaintext text span).1.length →
      ¬ span.Overlaps (contextWindow candidate.span candidate.rule.redaction).toSpan →
      ∀ part i j, ¬ Exposed order text candidate.span candidate.rule.redaction
        (neighbours text pack candidate) (plaintext text span).1 part i j

theorem leakFree_of_farHidden {order : WalkOrder} {scoring : Scoring κ} {text : Text}
    {pack : RulePack κ} {threshold : κ} {maxMatches : ℕ}
    (hfar : FarHidden order scoring text pack threshold maxMatches)
    {candidate : Candidate κ text.length}
    (hc : candidate ∈ reportable scoring text pack threshold maxMatches) {snippet : Text}
    (hok : redactCandidate order text pack candidate = .ok snippet) :
    LeakFree order text pack candidate := by
  intro span hspan hlen stretch hstretch hcontext hread
  have hwhole := hstretch.trans (List.take_prefix _ _).isInfix
  have hne : stretch ≠ [] := by
    rintro rfl
    rw [← hread] at hlen
    cases hlen
  by_cases hover : span.Overlaps (contextWindow candidate.span candidate.rule.redaction).toSpan
  · exact not_reads_of_ok hok (secretsOf_complete (mem_neighbours hspan hover) hlen) hwhole hread
  · obtain ⟨part, i, j, hexposed⟩ := exposed_of_context hwhole hne hcontext
    rw [hread] at hexposed
    exact hfar candidate hc span hspan hlen hover part i j hexposed

/-- No snippet of a unit leaks another match, where no match too far off to be passed is
exposed in what is emitted of the window. What is exposed is left by the scrub as it was, unless
the scrub cuts a copy or a mask. -/
theorem snippets_leak_free (order : WalkOrder) (scoring : Scoring κ) (text : Text)
    (pack : RulePack κ) (threshold : κ) (maxMatches : ℕ) :
    (FarHidden order scoring text pack threshold maxMatches →
      ∀ candidate ∈ reportable scoring text pack threshold maxMatches, ∀ snippet,
        candidate.detected snippet ∈
          (detect order scoring text pack threshold maxMatches).secrets →
        snippet = ((snippetCells order text candidate.span candidate.rule.redaction
          (neighbours text pack candidate)).take maxSnippetChars).map Cell.char ∧
        LeakFree order text pack candidate) ∧
    ∀ candidate ∈ reportable scoring text pack threshold maxMatches,
      ∀ span ∈ matchSpans text pack, ∀ part i j,
        Exposed order text candidate.span candidate.rule.redaction
          (neighbours text pack candidate) (plaintext text span).1 part i j →
        unitCells text i (j - i) <:+: scrubCells (plaintext text candidate.span)
            candidate.rule.redaction (finalReplacements order text candidate.span
              candidate.rule.redaction (neighbours text pack candidate)) (keptCells text part) ∨
          ScrubCuts text candidate.span candidate.rule.redaction
            (finalReplacements order text candidate.span candidate.rule.redaction
              (neighbours text pack candidate)) part := by
  constructor
  · intro hfar candidate hc snippet h
    have hok := (detected_mem_iff hc).1 h
    exact ⟨snippet_eq_of_ok hok, leakFree_of_farHidden hfar hc hok⟩
  · intro candidate _ span _ part i j hexposed
    exact hexposed.left_or_cuts

/-! Far from where a rule matches it, a password stands without the words the rule asks for. -/

def repeatedText : Text :=
  "pw=alpha99 bravo77 .................................................... pw=bravo77".toList

theorem snippets_can_leak :
    ¬ ∀ candidate ∈ reportable baseScoring repeatedText [assignedRule] 1 500, ∀ snippet,
      candidate.detected snippet ∈
        (detect .listed baseScoring repeatedText [assignedRule] 1 500).secrets →
      snippet = ((snippetCells .listed repeatedText candidate.span candidate.rule.redaction
        (neighbours repeatedText [assignedRule] candidate)).take maxSnippetChars).map Cell.char ∧
      LeakFree .listed repeatedText [assignedRule] candidate := by
  intro h
  have hfound : (reportable baseScoring repeatedText [assignedRule] 1 500).any (fun candidate =>
      (redactCandidate .listed repeatedText [assignedRule] candidate).isOk &&
        unitCells repeatedText 11 7 <:+: (snippetCells .listed repeatedText candidate.span
          candidate.rule.redaction (neighbours repeatedText [assignedRule] candidate)).take
            maxSnippetChars) := by decide +kernel
  obtain ⟨candidate, hc, hcond⟩ := List.any_eq_true.1 hfound
  obtain ⟨hok, hin⟩ := Bool.and_eq_true_iff.1 hcond
  obtain ⟨snippet, hsnippet⟩ := exists_of_isOk hok
  have hmatch : (matchSpans repeatedText [assignedRule]).any (fun span =>
      1 < (plaintext repeatedText span).1.length ∧
        Literal.slice repeatedText 11 18 = (plaintext repeatedText span).1) := by decide +kernel
  obtain ⟨span, hspan, hspans⟩ := List.any_eq_true.1 hmatch
  obtain ⟨hlen, hread⟩ := of_decide_eq_true hspans
  refine (h candidate hc snippet ((detected_mem_iff hc).2 hsnippet)).2 span hspan hlen _
    (of_decide_eq_true hin) (fun cell hcell => (kept_of_mem_unitCells hcell).context) ?_
  rw [map_char_unitCells]
  exact hread

/-! A match too far off to be passed, whose text stands in the window inside a copy of the
nearer match. -/

section Covered

def coveredText : Text :=
  "pw=xbravo77y xbravo77y ".toList ++ List.replicate 60 '.' ++ " pw=bravo77".toList

def coveringMask : Text × Text := ("xbravo77y".toList, "[9 chars redacted]".toList)

theorem covered_goesWhole {target part : Span coveredText.length} {policy : RedactionPolicy}
    {otherSpans : List (Span coveredText.length)}
    (hreps : finalReplacements .listed coveredText target policy otherSpans = [coveringMask])
    (hstart : part.start = 12) (hstop : part.stop = 60) :
    GoesWhole coveredText target policy
      (finalReplacements .listed coveredText target policy otherSpans) part coveringMask.1 13 := by
  have hscrub := scrubs_final .listed coveredText target policy otherSpans
  have hlength : coveringMask.1.length = 9 := by decide +kernel
  have honly : (List.range' 12 48).all fun j =>
      decide (Literal.At coveredText coveringMask.1 j) == decide (j = 13) := by decide +kernel
  rw [hreps] at hscrub ⊢
  refine goesWhole_of_first hscrub ⟨⟨_, List.mem_cons_self, rfl⟩, by decide +kernel, by omega,
    by omega⟩ ?_
  rintro other j ⟨⟨item, hitem, rfl⟩, hat, hj, hj'⟩ _ _ _
  obtain rfl := List.mem_singleton.1 hitem
  have hplace := List.all_eq_true.1 honly j (List.mem_range'_1.2 ⟨by omega, by omega⟩)
  exact ⟨rfl, by simpa [hat] using hplace⟩

theorem mem_of_mem_collapseWhitespace {c : Char} {inRun : Bool} {l : Text}
    (h : c ∈ collapseWhitespace inRun l) : c = ' ' ∨ c ∈ l := by
  induction l generalizing inRun with
  | nil => cases h
  | cons d l ih =>
      rw [collapseWhitespace] at h
      split_ifs at h
      · exact (ih h).imp_right (List.mem_cons_of_mem d)
      · rcases List.mem_cons.1 h with h | h
        · exact Or.inl h
        · exact (ih h).imp_right (List.mem_cons_of_mem d)
      · rcases List.mem_cons.1 h with rfl | h
        · exact Or.inr List.mem_cons_self
        · exact (ih h).imp_right (List.mem_cons_of_mem d)

/-- Wherever an emitted stretch shows a `b`, it is the one in the second copy. -/
theorem covered_not_exposed {candidate : Candidate ℕ coveredText.length}
    (hc : candidate ∈ reportable baseScoring coveredText [assignedRule] 1 500)
    {span : Span coveredText.length} (hspan : span ∈ matchSpans coveredText [assignedRule])
    (part : Span coveredText.length) (i j : ℕ) :
    ¬ Exposed .listed coveredText candidate.span candidate.rule.redaction
      (neighbours coveredText [assignedRule] candidate) (plaintext coveredText span).1
      part i j := by
  have hshown : (matchSpans coveredText [assignedRule]).all fun span =>
      'b' ∈ (plaintext coveredText span).1 := by decide +kernel
  have honly : (reportable baseScoring coveredText [assignedRule] 1 500).all fun candidate =>
      (finalLayout .listed coveredText candidate.span candidate.rule.redaction
        (neighbours coveredText [assignedRule] candidate)).all fun
        | .mask _ => true
        | .context part => (List.range' part.start (part.stop - part.start)).all fun p =>
            decide (coveredText[p]? = some 'b' → p = 14 ∧ part.start = 12 ∧ part.stop = 60 ∧
              finalReplacements .listed coveredText candidate.span candidate.rule.redaction
                (neighbours coveredText [assignedRule] candidate) = [coveringMask]) := by
    decide +kernel
  intro h
  have hmem : 'b' ∈ collapseWhitespace false (Literal.slice coveredText i j) := by
    rw [h.reads]
    exact of_decide_eq_true (List.all_eq_true.1 hshown span hspan)
  obtain ⟨k, hk, hget⟩ := List.mem_iff_getElem.1
    ((mem_of_mem_collapseWhitespace hmem).resolve_left (by decide))
  have hlength : k < j - i := by
    rw [Literal.slice, List.length_take] at hk
    omega
  have hb : coveredText[i + k]? = some 'b' := by
    rw [← Literal.getElem?_slice hlength, List.getElem?_eq_getElem hk, hget]
  have hstart := h.start_le
  have hstop := h.le_stop
  have hplace := List.all_eq_true.1 (List.all_eq_true.1 (List.all_eq_true.1 honly candidate hc) _
    h.emitted) (i + k) (List.mem_range'_1.2 ⟨by omega, by omega⟩)
  obtain ⟨heq, hfrom, hto, hreps⟩ := of_decide_eq_true hplace hb
  have hleft := h.left _ _ (covered_goesWhole hreps hfrom hto)
  have hnine : coveringMask.1.length = 9 := by decide +kernel
  omega

theorem snippets_leak_free_of_covered :
    ∃ candidate ∈ reportable baseScoring coveredText [assignedRule] 1 500, ∃ snippet,
      candidate.detected snippet ∈
        (detect .listed baseScoring coveredText [assignedRule] 1 500).secrets ∧
      (∃ span ∈ matchSpans coveredText [assignedRule],
        ¬ span.Overlaps (contextWindow candidate.span candidate.rule.redaction).toSpan ∧
        Literal.At coveredText (plaintext coveredText span).1 14) ∧
      LeakFree .listed coveredText [assignedRule] candidate := by
  have hfound : (reportable baseScoring coveredText [assignedRule] 1 500).any fun candidate =>
      (redactCandidate .listed coveredText [assignedRule] candidate).isOk &&
        (matchSpans coveredText [assignedRule]).any fun span =>
          decide (¬ span.Overlaps
              (contextWindow candidate.span candidate.rule.redaction).toSpan ∧
            Literal.At coveredText (plaintext coveredText span).1 14) := by decide +kernel
  obtain ⟨candidate, hc, hcond⟩ := List.any_eq_true.1 hfound
  obtain ⟨hok, hfar⟩ := Bool.and_eq_true_iff.1 hcond
  obtain ⟨span, hspan, hplace⟩ := List.any_eq_true.1 hfar
  obtain ⟨snippet, hsnippet⟩ := exists_of_isOk hok
  have hmem := (detected_mem_iff hc).2 hsnippet
  exact ⟨candidate, hc, snippet, hmem, ⟨span, hspan, of_decide_eq_true hplace⟩,
    ((snippets_leak_free .listed baseScoring coveredText [assignedRule] 1 500).1
      (fun c hc span hspan _ _ => covered_not_exposed hc hspan) candidate hc snippet hmem).2⟩

end Covered

end IcebergSST.Detection

import IcebergSST.Detect

/-!
# Which survivors are reported

Survivors do not overlap, so what is reported of one is not another's. A survivor is lost
exactly when the redactor's own wording spells a secret of its window.
-/

namespace IcebergSST.Detection

open Redaction

variable {κ : Type} {n : ℕ}

theorem overlaps_comm {a b : Span n} : a.Overlaps b ↔ b.Overlaps a := and_comm

theorem overlaps_self (a : Span n) : a.Overlaps a := ⟨a.start_lt, a.start_lt⟩

def Apart (a b : Candidate κ n) : Prop := ¬ a.span.Overlaps b.span

theorem Apart.symm {a b : Candidate κ n} (h : Apart a b) : Apart b a :=
  fun hover => h (overlaps_comm.1 hover)

instance : Std.Symm (@Apart κ n) := ⟨fun _ _ h => h.symm⟩

theorem keepFirst_apart (l : List (Candidate κ n)) : (keepFirst l).Pairwise Apart := by
  have hfold : ∀ (l kept : List (Candidate κ n)), kept.Pairwise Apart →
      (l.foldl (fun kept candidate =>
        if kept.any fun other => candidate.span.Overlaps other.span then kept
        else kept ++ [candidate]) kept).Pairwise Apart := by
    intro l
    induction l with
    | nil => exact fun kept h => h
    | cons candidate l ih =>
        intro kept h
        rw [List.foldl_cons]
        apply ih
        split_ifs with hany
        · exact h
        · refine List.pairwise_append.2
            ⟨h, List.pairwise_singleton _ _, fun other hother c hc => ?_⟩
          rw [List.mem_singleton.1 hc]
          intro hover
          exact hany (List.any_eq_true.2
            ⟨other, hother, decide_eq_true (overlaps_comm.1 hover)⟩)
  exact hfold l [] List.Pairwise.nil

variable [LinearOrder κ]

theorem reportable_apart (scoring : Scoring κ) (text : Text) (pack : RulePack κ) (threshold : κ)
    (maxMatches : ℕ) : (reportable scoring text pack threshold maxMatches).Pairwise Apart :=
  ((List.perm_insertionSort _ _).pairwise_iff fun h => h.symm).2 (keepFirst_apart _)

theorem eq_of_span_eq {scoring : Scoring κ} {text : Text} {pack : RulePack κ} {threshold : κ}
    {maxMatches : ℕ} {a b : Candidate κ text.length}
    (ha : a ∈ reportable scoring text pack threshold maxMatches)
    (hb : b ∈ reportable scoring text pack threshold maxMatches) (h : a.span = b.span) : a = b := by
  by_contra hne
  have hapart := (reportable_apart scoring text pack threshold maxMatches).forall ha hb hne
  exact hapart (h ▸ overlaps_self _)

theorem detected_mem_iff {order : WalkOrder} {scoring : Scoring κ} {text : Text}
    {pack : RulePack κ} {threshold : κ} {maxMatches : ℕ} {candidate : Candidate κ text.length}
    (hc : candidate ∈ reportable scoring text pack threshold maxMatches) {snippet : Text} :
    candidate.detected snippet ∈ (detect order scoring text pack threshold maxMatches).secrets ↔
      redactCandidate order text pack candidate = .ok snippet := by
  simp only [detect, List.mem_filterMap]
  constructor
  · rintro ⟨other, hother, hsome⟩
    cases hr : redactCandidate order text pack other with
    | error e =>
        rw [hr] at hsome
        cases hsome
    | ok found =>
        rw [hr] at hsome
        have heq := Option.some.inj hsome
        obtain rfl := eq_of_span_eq hother hc (congrArg DetectedSecret.span heq)
        rw [hr, show found = snippet from congrArg DetectedSecret.redactedSnippet heq]
  · intro hr
    exact ⟨candidate, hc, by rw [hr]⟩

def Reported (order : WalkOrder) (scoring : Scoring κ) (text : Text) (pack : RulePack κ)
    (threshold : κ) (maxMatches : ℕ) (candidate : Candidate κ text.length) : Prop :=
  ∃ snippet, candidate.detected snippet ∈
    (detect order scoring text pack threshold maxMatches).secrets

/-- Every survivor is reported unless the wording of a redaction spells a secret. -/
theorem survivors_reported_iff (order : WalkOrder) (scoring : Scoring κ) (text : Text)
    (pack : RulePack κ) (threshold : κ) (maxMatches : ℕ) :
    (∀ candidate ∈ reportable scoring text pack threshold maxMatches,
      Reported order scoring text pack threshold maxMatches candidate) ↔
    ∀ candidate ∈ reportable scoring text pack threshold maxMatches,
      ¬ Misread order text candidate.span candidate.rule.redaction
        (neighbours text pack candidate) := by
  refine forall₂_congr fun candidate hc => ?_
  rw [← redactSnippet_isOk_iff]
  exact exists_congr fun snippet => detected_mem_iff hc

/-! A page that says of one password that it is redacted loses both of its findings. -/

/-- Where the pattern `pw=(?P<secret>\S+)` matches, places inside an earlier match included. -/
def assignedPlaces (text : Text) : List (GroupSpan text.length) :=
  (Literal.occurrences text "pw=".toList 0 text.length).map fun i =>
    let stop := i + 3 + ((text.drop (i + 3)).takeWhile fun c => !isSpace c).length
    if h : i + 3 ≤ stop ∧ stop ≤ text.length then some ⟨(i + 3, stop), h⟩ else none

def assignedRule : Rule ℕ where
  id := "password-assignment"
  severity := .high
  finditer := assignedPlaces
  baseConfidence := 1

def baseScoring : Scoring ℕ where
  shannonEntropy := fun _ => 0
  keywordNear := fun _ _ _ _ _ => none
  confidence := fun base _ _ _ => base

theorem survivors_can_be_lost :
    ¬ ∀ candidate ∈ reportable baseScoring "pw=redacted pw=hunter2".toList [assignedRule] 1 500,
      Reported .listed baseScoring "pw=redacted pw=hunter2".toList [assignedRule] 1 500
        candidate := by
  intro h
  have hsome : (reportable baseScoring "pw=redacted pw=hunter2".toList [assignedRule] 1 500) ≠
      [] := by
    rw [← List.length_pos_iff]
    decide +kernel
  have hnone : (detect .listed baseScoring "pw=redacted pw=hunter2".toList [assignedRule] 1
      500).secrets.length = 0 := by
    decide +kernel
  obtain ⟨candidate, hc⟩ := List.exists_mem_of_ne_nil _ hsome
  obtain ⟨snippet, hmem⟩ := h candidate hc
  rw [List.length_eq_zero_iff.1 hnone] at hmem
  cases hmem

end IcebergSST.Detection

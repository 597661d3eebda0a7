import IcebergSST.Library.StableSort
import IcebergSST.Reported

/-!
# Which candidates survive

The cap and the collapse of overlaps each keep what their own ranking puts first.
-/

namespace IcebergSST.Detection

open Redaction StableSort

variable {κ : Type} {n : ℕ}

/-- One candidate after another is put to those that are kept. -/
def keepOn : List (Candidate κ n) → List (Candidate κ n) → List (Candidate κ n)
  | kept, [] => kept
  | kept, candidate :: l =>
      if kept.any fun other => candidate.span.Overlaps other.span then keepOn kept l
      else keepOn (kept ++ [candidate]) l

theorem keepFirst_eq_keepOn (l : List (Candidate κ n)) : keepFirst l = keepOn [] l := by
  have hfold (l kept : List (Candidate κ n)) : l.foldl (fun kept candidate =>
      if kept.any fun other => candidate.span.Overlaps other.span then kept
      else kept ++ [candidate]) kept = keepOn kept l := by
    induction l generalizing kept with
    | nil => rfl
    | cons candidate l ih =>
        rw [List.foldl_cons, keepOn]
        split_ifs
        · exact ih kept
        · exact ih _
  exact hfold l []

theorem mem_keepOn_of_mem {kept l : List (Candidate κ n)} {k : Candidate κ n} (hk : k ∈ kept) :
    k ∈ keepOn kept l := by
  fun_induction keepOn kept l with
  | case1 => exact hk
  | case2 _ _ _ _ ih => exact ih hk
  | case3 _ _ _ _ ih => exact ih (List.mem_append_left _ hk)

theorem mem_of_mem_keepOn {kept l : List (Candidate κ n)} {k : Candidate κ n}
    (hk : k ∈ keepOn kept l) : k ∈ kept ∨ k ∈ l := by
  fun_induction keepOn kept l with
  | case1 => exact Or.inl hk
  | case2 _ candidate _ _ ih => exact (ih hk).imp_right (List.mem_cons_of_mem candidate)
  | case3 kept candidate l _ ih =>
      have hmem := ih hk
      simp only [List.mem_append, List.mem_singleton] at hmem
      simp only [List.mem_cons]
      tauto

theorem mem_inDocumentOrder {l : List (Candidate κ n)} {c : Candidate κ n} :
    c ∈ inDocumentOrder l ↔ c ∈ l := List.mem_insertionSort _

variable [LinearOrder κ]

theorem moreSevere_iff {a b : Candidate κ n} : MoreSevere a b ↔
    toLex (OrderDual.toDual (severityRank a.rule.severity),
      toLex (OrderDual.toDual a.score, a.span.start)) ≤
    toLex (OrderDual.toDual (severityRank b.rule.severity),
      toLex (OrderDual.toDual b.score, b.span.start)) := by
  simp [MoreSevere, Prod.Lex.le_iff]

theorem moreSpecific_iff {a b : Candidate κ n} : MoreSpecific a b ↔
    toLex (OrderDual.toDual a.score,
      toLex (OrderDual.toDual (a.span.stop - a.span.start), a.span.start)) ≤
    toLex (OrderDual.toDual b.score,
      toLex (OrderDual.toDual (b.span.stop - b.span.start), b.span.start)) := by
  simp [MoreSpecific, Prod.Lex.le_iff, -toDual_sub]

instance : Std.Total (@MoreSevere κ _ n) :=
  ⟨fun _ _ => by simpa only [moreSevere_iff] using le_total _ _⟩

instance : IsTrans (Candidate κ n) MoreSevere :=
  ⟨fun _ _ _ => by simpa only [moreSevere_iff] using le_trans⟩

instance : Std.Total (@MoreSpecific κ _ n) :=
  ⟨fun _ _ => by simpa only [moreSpecific_iff] using le_total _ _⟩

instance : IsTrans (Candidate κ n) MoreSpecific :=
  ⟨fun _ _ _ => by simpa only [moreSpecific_iff] using le_trans⟩

/-- Neither ranking has the two candidates equal. -/
def Ranked (a b : Candidate κ n) : Prop :=
  ¬ (MoreSevere a b ∧ MoreSevere b a) ∧ ¬ (MoreSpecific a b ∧ MoreSpecific b a)

/-- Of a ranked list, what is not kept overlaps something kept that ranks as high. -/
theorem mem_keepOn_or {kept l : List (Candidate κ n)} (hl : l.Pairwise MoreSpecific)
    (hkept : ∀ k ∈ kept, ∀ c ∈ l, MoreSpecific k c) {c : Candidate κ n} (hc : c ∈ l) :
    c ∈ keepOn kept l ∨ ∃ k ∈ keepOn kept l, c.span.Overlaps k.span ∧ MoreSpecific k c := by
  fun_induction keepOn kept l with
  | case1 => cases hc
  | case2 kept candidate l hany ih =>
      obtain ⟨-, hl⟩ := List.pairwise_cons.1 hl
      rcases List.mem_cons.1 hc with rfl | hc
      · obtain ⟨k, hk, hover⟩ := List.any_eq_true.1 hany
        exact Or.inr ⟨k, mem_keepOn_of_mem hk, of_decide_eq_true hover,
          hkept k hk c List.mem_cons_self⟩
      · exact ih hl (fun k hk d hd => hkept k hk d (List.mem_cons_of_mem _ hd)) hc
  | case3 kept candidate l hany ih =>
      obtain ⟨hfirst, hl⟩ := List.pairwise_cons.1 hl
      rcases List.mem_cons.1 hc with rfl | hc
      · exact Or.inl (mem_keepOn_of_mem (List.mem_append_right _ List.mem_cons_self))
      · refine ih hl (fun k hk d hd => ?_) hc
        rcases List.mem_append.1 hk with hk | hk
        · exact hkept k hk d (List.mem_cons_of_mem _ hd)
        · exact List.mem_singleton.1 hk ▸ hfirst d hd

theorem mem_of_mem_strongestOfEachOverlap {l : List (Candidate κ n)} {c : Candidate κ n}
    (hc : c ∈ strongestOfEachOverlap l) : c ∈ l := by
  rw [strongestOfEachOverlap, mem_inDocumentOrder, keepFirst_eq_keepOn] at hc
  rcases mem_of_mem_keepOn hc with hc | hc
  · cases hc
  · exact (List.mem_insertionSort _).1 hc

theorem mem_strongestOfEachOverlap_or {l : List (Candidate κ n)} {c : Candidate κ n}
    (hc : c ∈ l) : c ∈ strongestOfEachOverlap l ∨
      ∃ k ∈ strongestOfEachOverlap l, c.span.Overlaps k.span ∧ MoreSpecific k c := by
  simp only [strongestOfEachOverlap, mem_inDocumentOrder, keepFirst_eq_keepOn]
  exact mem_keepOn_or (List.pairwise_insertionSort _ _) (fun _ hk => by cases hk)
    ((List.mem_insertionSort _).2 hc)

/-- What the cap drops ranks nowhere above what it keeps. -/
theorem strongest_perm (l : List (Candidate κ n)) (limit : ℕ) :
    ∃ dropped, l.Perm (strongest l limit ++ dropped) ∧
      ∀ s ∈ strongest l limit, ∀ d ∈ dropped, MoreSevere s d := by
  have hsorted := List.pairwise_insertionSort MoreSevere l
  rw [← List.take_append_drop limit (l.insertionSort MoreSevere), List.pairwise_append] at hsorted
  refine ⟨(l.insertionSort MoreSevere).drop limit, ?_, fun s hs d hd => ?_⟩
  · have hkept : (strongest l limit).Perm ((l.insertionSort MoreSevere).take limit) :=
      List.perm_insertionSort _ _
    have hall := (hkept.append_right ((l.insertionSort MoreSevere).drop limit)).symm
    rw [List.take_append_drop] at hall
    exact (List.perm_insertionSort MoreSevere l).symm.trans hall
  · exact hsorted.2.2 s (mem_inDocumentOrder.1 hs) d hd

theorem length_strongest {l : List (Candidate κ n)} {limit : ℕ} (h : limit ≤ l.length) :
    (strongest l limit).length = limit := by
  simp [strongest, inDocumentOrder, h]

variable (scoring : Scoring κ) (text : Text) (threshold : κ)

def ruleCandidates (rule : Rule κ) : List (Candidate κ text.length) :=
  (((ruleSpans rule text).map (gate scoring text rule)).filterMap Gated.candidate?).filter
    fun candidate => threshold ≤ candidate.score

theorem aboveThreshold_eq_flatMap (pack : RulePack κ) :
    aboveThreshold scoring text pack threshold =
      pack.flatMap (ruleCandidates scoring text threshold) := by
  simp only [aboveThreshold, candidates, gatedMatches, List.filterMap_flatMap,
    List.filter_flatMap]
  rfl

/-- Whatever the one rule reports and the other reports differ in rank. -/
def RulesRanked (a b : Rule κ) : Prop :=
  ∀ c ∈ ruleCandidates scoring text threshold a, ∀ d ∈ ruleCandidates scoring text threshold b,
    Ranked c d

variable {scoring text threshold}

theorem Reorders.aboveThreshold {pack pack' : RulePack κ}
    (h : Reorders (RulesRanked scoring text threshold) pack pack') :
    Reorders Ranked (aboveThreshold scoring text pack threshold)
      (Detection.aboveThreshold scoring text pack' threshold) := by
  rw [aboveThreshold_eq_flatMap, aboveThreshold_eq_flatMap]
  exact h.flatMap fun _ _ hranked => hranked

theorem insertionSort_moreSevere_eq {l l' : List (Candidate κ n)} (h : Reorders Ranked l l') :
    l.insertionSort MoreSevere = l'.insertionSort MoreSevere :=
  (h.mono fun _ _ hranked => hranked.1).insertionSort_eq

theorem insertionSort_moreSpecific_eq {l l' : List (Candidate κ n)} (h : Reorders Ranked l l') :
    l.insertionSort MoreSpecific = l'.insertionSort MoreSpecific :=
  (h.mono fun _ _ hranked => hranked.2).insertionSort_eq

/-- Over the cap the reordering is gone; under it, it is still one. -/
theorem Reorders.capped {pack pack' : RulePack κ} {maxMatches : ℕ}
    (h : Reorders (RulesRanked scoring text threshold) pack pack') :
    Reorders Ranked (capped scoring text pack threshold maxMatches)
      (Detection.capped scoring text pack' threshold maxMatches) := by
  have habove := Reorders.aboveThreshold h
  simp only [Detection.capped, ← habove.perm.length_eq]
  split_ifs
  · rw [strongest, strongest, insertionSort_moreSevere_eq habove]
    exact .refl _
  · exact habove

theorem Reorders.reportable_eq {pack pack' : RulePack κ} {maxMatches : ℕ}
    (h : Reorders (RulesRanked scoring text threshold) pack pack') :
    reportable scoring text pack' threshold maxMatches =
      reportable scoring text pack threshold maxMatches := by
  rw [reportable, reportable, strongestOfEachOverlap, strongestOfEachOverlap,
    insertionSort_moreSpecific_eq (Reorders.capped h)]

/-- What the collapse keeps of the candidates, and what the cap leaves it to keep from. -/
structure ReportsRightSet (order : WalkOrder) (scoring : Scoring κ) (text : Text)
    (pack : RulePack κ) (threshold : κ) (maxMatches : ℕ) : Prop where
  disjoint : (reportable scoring text pack threshold maxMatches).Pairwise Apart
  survived : ∀ c ∈ reportable scoring text pack threshold maxMatches,
    c ∈ capped scoring text pack threshold maxMatches
  maximal : ∀ c ∈ capped scoring text pack threshold maxMatches,
    c ∈ reportable scoring text pack threshold maxMatches ∨
      ∃ k ∈ reportable scoring text pack threshold maxMatches,
        c.span.Overlaps k.span ∧ MoreSpecific k c
  uncapped : (aboveThreshold scoring text pack threshold).length ≤ maxMatches →
    capped scoring text pack threshold maxMatches = aboveThreshold scoring text pack threshold
  capped : maxMatches < (aboveThreshold scoring text pack threshold).length →
    (detect order scoring text pack threshold maxMatches).truncated ∧
      (capped scoring text pack threshold maxMatches).length = maxMatches ∧
        ∃ dropped, (aboveThreshold scoring text pack threshold).Perm
            (capped scoring text pack threshold maxMatches ++ dropped) ∧
          ∀ d ∈ dropped, ∀ s ∈ capped scoring text pack threshold maxMatches,
            ¬ (MoreSevere d s ∧ ¬ MoreSevere s d)
  reordered : ∀ pack', Reorders (RulesRanked scoring text threshold) pack pack' →
    reportable scoring text pack' threshold maxMatches =
      reportable scoring text pack threshold maxMatches

theorem reports_right_set (order : WalkOrder) (scoring : Scoring κ) (text : Text)
    (pack : RulePack κ) (threshold : κ) (maxMatches : ℕ) :
    ReportsRightSet order scoring text pack threshold maxMatches where
  disjoint := reportable_apart scoring text pack threshold maxMatches
  survived := fun _ hc => mem_of_mem_strongestOfEachOverlap hc
  maximal := fun _ hc => mem_strongestOfEachOverlap_or hc
  uncapped := fun hfew => by rw [Detection.capped, if_neg (Nat.not_lt.2 hfew)]
  capped := by
    intro hmany
    have hcapped : Detection.capped scoring text pack threshold maxMatches =
        strongest (aboveThreshold scoring text pack threshold) maxMatches := if_pos hmany
    obtain ⟨dropped, hperm, hbelow⟩ :=
      strongest_perm (aboveThreshold scoring text pack threshold) maxMatches
    rw [hcapped]
    refine ⟨decide_eq_true hmany, length_strongest hmany.le, dropped, hperm, ?_⟩
    exact fun d hd s hs h => h.2 (hbelow s hs d hd)
  reordered := fun _ => Reorders.reportable_eq

end IcebergSST.Detection

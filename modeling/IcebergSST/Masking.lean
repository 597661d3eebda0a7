import IcebergSST.Redaction

/-!
# What the mask plan hides

The plan is settled when no copy of a secret that reaches a mask sticks out of the masks
inside the window. The rounds always get there, and with a clipped window it follows that
no edge of an emitted stretch cuts through a copy: the check of the edges never fires.
-/

namespace IcebergSST.Redaction

variable {n : ℕ}

def Span.Holds (span : Span n) (p : ℕ) : Prop := span.start ≤ p ∧ p < span.stop

theorem Span.overlaps_iff {a b : Span n} : a.Overlaps b ↔ ∃ p, a.Holds p ∧ b.Holds p := by
  have ha := a.start_lt
  have hb := b.start_lt
  constructor
  · rintro ⟨h, h'⟩
    refine ⟨max a.start b.start, ⟨?_, ?_⟩, ?_, ?_⟩ <;> omega
  · rintro ⟨p, ⟨h, h'⟩, h'', h'''⟩
    constructor <;> omega

instance (span : Span n) (p : ℕ) : Decidable (span.Holds p) := inferInstanceAs (Decidable (_ ∧ _))

def Masked (plan : MaskPlan n) (p : ℕ) : Prop := ∃ item ∈ plan, item.1.Holds p

instance (plan : MaskPlan n) (p : ℕ) : Decidable (Masked plan p) :=
  inferInstanceAs (Decidable (∃ item ∈ plan, item.1.Holds p))

theorem exists_mergeFrom_holds (spans : List (Span n)) (last : Span n) (p : ℕ)
    (hsorted : ∀ span ∈ spans, last.start ≤ span.start)
    (hpair : spans.Pairwise fun a b => a.start ≤ b.start) :
    (∃ span ∈ mergeFrom last spans, span.Holds p) ↔
      last.Holds p ∨ ∃ span ∈ spans, span.Holds p := by
  induction spans generalizing last with
  | nil => simp only [mergeFrom, List.mem_singleton, exists_eq_left, List.not_mem_nil, false_and,
      exists_false, or_false]
  | cons span spans ih =>
      have hnext := (List.pairwise_cons.1 hpair)
      rw [mergeFrom]
      simp only [List.mem_cons, exists_eq_or_imp]
      split_ifs with htouch
      · have hle := hsorted span List.mem_cons_self
        refine Iff.trans (ih _ (fun b hb => ?_) hnext.2) ?_
        · exact hsorted b (List.mem_cons_of_mem _ hb)
        rw [← or_assoc]
        refine or_congr_left ?_
        change (last.start ≤ p ∧ p < max last.stop span.stop) ↔
          (last.start ≤ p ∧ p < last.stop) ∨ (span.start ≤ p ∧ p < span.stop)
        omega
      · simp only [List.mem_cons, exists_eq_or_imp]
        exact or_congr_right (ih span hnext.1 hnext.2)

theorem start_le_of_mem_mergeFrom (spans : List (Span n)) (last : Span n)
    (hsorted : ∀ span ∈ spans, last.start ≤ span.start)
    (hpair : spans.Pairwise fun a b => a.start ≤ b.start) :
    (∀ span ∈ mergeFrom last spans, last.start ≤ span.start) ∧
      (mergeFrom last spans).Pairwise fun a b => a.start ≤ b.start := by
  induction spans generalizing last with
  | nil =>
      refine ⟨fun span hspan => ?_, List.pairwise_singleton _ _⟩
      rw [List.mem_singleton.1 hspan]
  | cons span spans ih =>
      have hnext := (List.pairwise_cons.1 hpair)
      have hle := hsorted span List.mem_cons_self
      rw [mergeFrom]
      split_ifs with htouch
      · exact ih _ (fun b hb => hsorted b (List.mem_cons_of_mem _ hb)) hnext.2
      · obtain ⟨hstart, hrest⟩ := ih span hnext.1 hnext.2
        have hall : ∀ b ∈ mergeFrom span spans, last.start ≤ b.start := fun b hb =>
          hle.trans (hstart b hb)
        refine ⟨fun b hb => ?_, List.pairwise_cons.2 ⟨hall, hrest⟩⟩
        rcases List.mem_cons.1 hb with rfl | hb
        · exact le_rfl
        · exact hall b hb

theorem pairwise_insertionSort_start {β : Type*} (start : β → ℕ) (l : List β) :
    (l.insertionSort fun a b => start a ≤ start b).Pairwise fun a b => start a ≤ start b := by
  have : Std.Total (fun a b : β => start a ≤ start b) := ⟨fun a b => le_total _ _⟩
  have : IsTrans β (fun a b => start a ≤ start b) := ⟨fun _ _ _ => le_trans⟩
  exact List.pairwise_insertionSort _ l

theorem merged_sorted (spans : List (Span n)) :
    (merged spans).Pairwise fun a b => a.start ≤ b.start := by
  have hsort := pairwise_insertionSort_start Span.start spans
  rw [merged]
  cases h : spans.insertionSort fun a b => a.start ≤ b.start with
  | nil => exact List.Pairwise.nil
  | cons span rest =>
      rw [h] at hsort
      obtain ⟨hle, hrest⟩ := List.pairwise_cons.1 hsort
      exact (start_le_of_mem_mergeFrom rest span hle hrest).2

theorem exists_merged_holds (spans : List (Span n)) (p : ℕ) :
    (∃ span ∈ merged spans, span.Holds p) ↔ ∃ span ∈ spans, span.Holds p := by
  have hsort := pairwise_insertionSort_start Span.start spans
  have hmem : ∀ span, span ∈ spans.insertionSort (fun a b => a.start ≤ b.start) ↔ span ∈ spans :=
    fun span => (List.perm_insertionSort _ spans).mem_iff
  rw [merged]
  cases h : spans.insertionSort fun a b => a.start ≤ b.start with
  | nil =>
      rw [h] at hmem
      simp only [← hmem, List.not_mem_nil, false_and, exists_false]
  | cons span rest =>
      rw [h] at hsort hmem
      obtain ⟨hle, hrest⟩ := List.pairwise_cons.1 hsort
      simp only [exists_mergeFrom_holds rest span p hle hrest, ← hmem, List.mem_cons,
        exists_eq_or_imp]

theorem mem_gapUpTo {cursor limit : ℕ} {hlimit : limit ≤ n} {gap : Span n} :
    gap ∈ gapUpTo cursor limit hlimit ↔ gap.start = cursor ∧ gap.stop = limit := by
  have hlt := gap.start_lt
  rw [gapUpTo]
  split_ifs with h
  · rw [List.mem_singleton, Span.ext_iff]
  · simp only [List.not_mem_nil, false_iff]
    omega

theorem gapUpTo_eq_nil {cursor limit : ℕ} {hlimit : limit ≤ n} :
    gapUpTo cursor limit hlimit = [] ↔ limit ≤ cursor := by
  rw [gapUpTo]
  split_ifs with h
  · simp only [false_iff]
    omega
  · simp only [true_iff]
    omega

theorem mem_gapsFrom {limit : ℕ} {hlimit : limit ≤ n} (covered : List (Span n)) {cursor : ℕ}
    (hsorted : covered.Pairwise fun a b => a.start ≤ b.start) {gap : Span n}
    (h : gap ∈ gapsFrom limit hlimit cursor covered) :
    cursor ≤ gap.start ∧ gap.stop ≤ limit ∧ ∀ span ∈ covered, ¬ span.Holds gap.start := by
  have hlt := gap.start_lt
  induction covered generalizing cursor with
  | nil =>
      obtain ⟨hstart, hstop⟩ := mem_gapUpTo.1 h
      exact ⟨hstart.ge, hstop.le, fun _ hm => absurd hm List.not_mem_nil⟩
  | cons span covered ih =>
      obtain ⟨hle, hrest⟩ := List.pairwise_cons.1 hsorted
      -- before the next span begins, no span holds the place
      have hbefore : gap.start < span.start → ∀ s ∈ span :: covered, ¬ s.Holds gap.start := by
        rintro hgap s hs ⟨hheld, _⟩
        rcases List.mem_cons.1 hs with rfl | hs
        · omega
        · have := hle s hs
          omega
      have hbehind : span.stop ≤ gap.start → (∀ s ∈ covered, ¬ s.Holds gap.start) →
          ∀ s ∈ span :: covered, ¬ s.Holds gap.start := by
        rintro hgap hcov s hs hheld
        rcases List.mem_cons.1 hs with rfl | hs
        · exact absurd hheld.2 (by omega)
        · exact hcov s hs hheld
      rw [gapsFrom] at h
      split_ifs at h with hskip hbreak hend
      · obtain ⟨hstart, hstop, hcov⟩ := ih hrest h
        exact ⟨hstart, hstop, hbehind (by omega) hcov⟩
      · obtain ⟨hstart, hstop⟩ := mem_gapUpTo.1 h
        exact ⟨by omega, by omega, hbefore (by omega)⟩
      · rw [List.append_nil] at h
        obtain ⟨hstart, hstop⟩ := mem_gapUpTo.1 h
        exact ⟨by omega, by omega, hbefore (by omega)⟩
      · rcases List.mem_append.1 h with h | h
        · obtain ⟨hstart, hstop⟩ := mem_gapUpTo.1 h
          exact ⟨by omega, by omega, hbefore (by omega)⟩
        · obtain ⟨hstart, hstop, hcov⟩ := ih hrest h
          exact ⟨by omega, hstop, hbehind (by omega) hcov⟩

theorem holds_of_gapsFrom_eq_nil {limit : ℕ} {hlimit : limit ≤ n} (covered : List (Span n))
    {cursor p : ℕ} (h : gapsFrom limit hlimit cursor covered = []) (hcursor : cursor ≤ p)
    (hp : p < limit) : ∃ span ∈ covered, span.Holds p := by
  induction covered generalizing cursor with
  | nil =>
      have := gapUpTo_eq_nil.1 h
      omega
  | cons span covered ih =>
      have hlater : ∀ {c}, gapsFrom limit hlimit c covered = [] → c ≤ p →
          ∃ s ∈ span :: covered, s.Holds p := fun h hc => by
        obtain ⟨s, hs, hheld⟩ := ih h hc
        exact ⟨s, List.mem_cons_of_mem _ hs, hheld⟩
      rw [gapsFrom] at h
      split_ifs at h with hskip hbreak hend
      · exact hlater h hcursor
      · have := gapUpTo_eq_nil.1 h
        omega
      · rw [List.append_nil] at h
        have := gapUpTo_eq_nil.1 h
        exact ⟨span, List.mem_cons_self, by omega, by omega⟩
      · obtain ⟨hgap, hrest⟩ := List.append_eq_nil_iff.1 h
        have := gapUpTo_eq_nil.1 hgap
        by_cases hin : p < span.stop
        · exact ⟨span, List.mem_cons_self, by omega, hin⟩
        · exact hlater hrest (by omega)

/-- The text stands in the unit at `i`, and `p` is one of its places. -/
def InCopy (text : Text) (secret : Secret) (i p : ℕ) : Prop :=
  Literal.At text secret.1 i ∧ i ≤ p ∧ p < i + secret.1.length

/-- A copy that reaches a mask does not stick out of the masks inside the window. -/
def Settled (text : Text) (plan : MaskPlan text.length) (window : Span text.length)
    (secrets : List Secret) : Prop :=
  ∀ secret ∈ secrets, ∀ i p q, InCopy text secret i p → Masked plan p →
    InCopy text secret i q → window.Holds q → Masked plan q

variable {text : Text} {window : Span text.length} {secrets : List Secret}
  {plan : MaskPlan text.length}

theorem mem_occurrences {secret : Secret} {region copy : Span text.length} :
    copy ∈ occurrences text secret region ↔
      Literal.At text secret.1 copy.start ∧ copy.stop = copy.start + secret.1.length ∧
        region.start < copy.stop ∧ copy.start < region.stop := by
  have hlen := secret.2
  have hregion := region.start_lt
  simp only [occurrences, List.mem_map, List.mem_attach, true_and, Subtype.exists]
  constructor
  · rintro ⟨i, hi, rfl⟩
    obtain ⟨hstart, hstop, hat⟩ := Literal.mem_occurrences.1 hi
    refine ⟨hat, rfl, ?_, ?_⟩ <;> dsimp only <;> omega
  · rintro ⟨hat, hstop, hl, hr⟩
    have hle := hat.le_length (by omega)
    refine ⟨copy.start, Literal.mem_occurrences.2 ⟨by omega, by omega, hat⟩, ?_⟩
    exact Span.ext rfl hstop.symm

theorem masked_iff_merged (p : ℕ) :
    (∃ span ∈ merged (plan.map Prod.fst), span.Holds p) ↔ Masked plan p := by
  rw [exists_merged_holds]
  simp only [List.mem_map, exists_exists_and_eq_and, Masked]

theorem mem_partialCopies {gap : Span text.length}
    (h : gap ∈ partialCopies text plan window secrets) :
    window.start ≤ gap.start ∧ gap.stop ≤ window.stop ∧ ¬ Masked plan gap.start := by
  rw [partialCopies] at h
  obtain ⟨secret, _, h⟩ := List.mem_flatMap.1 h
  obtain ⟨copy, _, h⟩ := List.mem_flatMap.1 h
  obtain ⟨hstart, hstop, hcov⟩ := mem_gapsFrom _ (merged_sorted _) h
  refine ⟨by omega, by omega, fun hmasked => ?_⟩
  obtain ⟨span, hspan, hheld⟩ := (masked_iff_merged _).2 hmasked
  exact hcov span hspan hheld

theorem settled_of_partialCopies_eq_nil (h : partialCopies text plan window secrets = []) :
    Settled text plan window secrets := by
  rintro secret hsecret i p q ⟨hat, hip, hpi⟩ hmasked ⟨_, hiq, hqi⟩ hwin
  have hlen := secret.2
  have hle := hat.le_length (by omega)
  let copy : Span text.length := ⟨i, i + secret.1.length, by omega, hle⟩
  have hcopy : copy ∈ occurrences text secret window :=
    mem_occurrences.2 ⟨hat, rfl, lt_of_le_of_lt hwin.1 hqi, lt_of_le_of_lt hiq hwin.2⟩
  obtain ⟨span, hspan, hheld⟩ := (masked_iff_merged p).2 hmasked
  have hover : (merged (plan.map Prod.fst)).any fun span => copy.Overlaps span :=
    List.any_eq_true.2 ⟨span, hspan, decide_eq_true (Span.overlaps_iff.2 ⟨p, ⟨hip, hpi⟩, hheld⟩)⟩
  have hnone := List.flatMap_eq_nil_iff.1 (List.flatMap_eq_nil_iff.1 h secret hsecret) copy
    (List.mem_filter.2 ⟨hcopy, hover⟩)
  exact (masked_iff_merged q).1 (holds_of_gapsFrom_eq_nil _ hnone (max_le hiq hwin.1)
    (lt_min hqi hwin.2))

def bare (plan : MaskPlan text.length) (window : Span text.length) : Finset ℕ :=
  (Finset.Ico window.start window.stop).filter fun p => ¬ Masked plan p

/-- What the rounds add to a plan: default masks of spans inside the window. -/
def Extends (plan plan' : MaskPlan text.length) (window : Span text.length) : Prop :=
  ∃ additions : List (Span text.length), plan' = plan ++ additions.map (defaultMask text) ∧
    ∀ span ∈ additions, span.stop ≤ window.stop

theorem Extends.trans {plan' plan'' : MaskPlan text.length} (h : Extends plan plan' window)
    (h' : Extends plan' plan'' window) : Extends plan plan'' window := by
  obtain ⟨l, rfl, hl⟩ := h
  obtain ⟨l', rfl, hl'⟩ := h'
  refine ⟨l ++ l', by rw [List.map_append, List.append_assoc], fun span hspan => ?_⟩
  exact (List.mem_append.1 hspan).elim (hl span) (hl' span)

theorem coverRound_eq_some {plan' : MaskPlan text.length}
    (h : coverRound text window secrets plan = some plan') :
    Extends plan plan' window ∧ (bare plan' window).card < (bare plan window).card := by
  rw [coverRound] at h
  cases hadd : partialCopies text plan window secrets with
  | nil =>
      rw [hadd] at h
      cases h
  | cons gap additions =>
      rw [hadd] at h
      obtain rfl := Option.some.inj h
      have hmem : ∀ span ∈ gap :: additions, _ := fun span hspan =>
        mem_partialCopies (hadd ▸ hspan)
      refine ⟨⟨gap :: additions, rfl, fun span hspan => (hmem span hspan).2.1⟩, ?_⟩
      -- the first place of the first gap was bare and is masked now
      obtain ⟨hstart, hstop, hbare⟩ := hmem gap List.mem_cons_self
      have hlt := gap.start_lt
      refine Finset.card_lt_card ((Finset.ssubset_iff_of_subset fun p hp => ?_).2
        ⟨gap.start, ?_, fun hp => ?_⟩)
      · obtain ⟨hin, hnot⟩ := Finset.mem_filter.1 hp
        refine Finset.mem_filter.2 ⟨hin, fun ⟨item, hitem, hheld⟩ => hnot ?_⟩
        exact ⟨item, List.mem_append_left _ hitem, hheld⟩
      · exact Finset.mem_filter.2 ⟨Finset.mem_Ico.2 ⟨hstart, by omega⟩, hbare⟩
      · refine (Finset.mem_filter.1 hp).2 ⟨defaultMask text gap, List.mem_append_right _ ?_, ?_⟩
        · exact List.mem_map_of_mem List.mem_cons_self
        · exact ⟨le_rfl, hlt⟩

theorem coverRound_eq_none (h : coverRound text window secrets plan = none) :
    Settled text plan window secrets := by
  rw [coverRound] at h
  cases hadd : partialCopies text plan window secrets with
  | nil => exact settled_of_partialCopies_eq_nil hadd
  | cons gap additions =>
      rw [hadd] at h
      cases h

/-- The rounds always get there: each masks a place of the window that was bare. -/
theorem coverPartialCopies_ok (text : Text) (plan : MaskPlan text.length)
    (window : Span text.length) (secrets : List Secret) :
    ∃ plan', coverPartialCopies text plan window secrets = .ok plan' ∧
      Extends plan plan' window ∧ Settled text plan' window secrets := by
  have hrefl : Extends plan plan window := ⟨[], (List.append_nil _).symm, fun _ h => by cases h⟩
  rw [coverPartialCopies]
  split_ifs with hnil
  · subst hnil
    exact ⟨plan, rfl, hrefl, fun _ h => by cases h⟩
  · have hstep : ∀ x y, Extends plan x window → coverRound text window secrets x = some y →
        Extends plan y window ∧ (bare y window).card < (bare x window).card := fun x y hx hy =>
      ⟨hx.trans (coverRound_eq_some hy).1, (coverRound_eq_some hy).2⟩
    have hsize : (bare plan window).card < window.stop - window.start + 1 :=
      Nat.lt_succ_of_le ((Finset.card_filter_le _ _).trans_eq (Nat.card_Ico _ _))
    obtain ⟨plan', hplan'⟩ := Option.isSome_iff_exists.1 (Settle.settle?_isSome
      (μ := fun x => (bare x window).card) hstep hrefl
      hsize)
    obtain ⟨hext, hend⟩ := Settle.settle?_spec (fun x y hx hy => (hstep x y hx hy).1) hplan' hrefl
    rw [hplan']
    exact ⟨plan', rfl, hext, coverRound_eq_none hend⟩

variable {target : Span text.length} {otherSpans : List (Span text.length)}
  {policy : RedactionPolicy}

def targetMask (text : Text) (target : Span text.length) (policy : RedactionPolicy) :
    Span text.length × Text :=
  (target, maskSecret (plaintext text target) policy)

structure PlanSpec (text : Text) {target : Span text.length}
    (otherSpans : List (Span text.length)) (window : Window target) (policy : RedactionPolicy)
    (secrets : List Secret) (plan : MaskPlan text.length) : Prop where
  sorted : plan.Pairwise fun a b => a.1.start ≤ b.1.start
  target_mem : targetMask text target policy ∈ plan
  masks : ∀ item ∈ plan, item = targetMask text target policy ∨ item = defaultMask text item.1
  start_le : ∀ item ∈ plan, item.1.start ≤ window.stop
  neighbours : ∀ span ∈ otherSpans, ∀ p, span.Holds p → window.Holds p → Masked plan p
  settled : Settled text plan window.toSpan secrets

theorem besideTarget_start_le {window : Window target} {span piece : Span text.length}
    (hover : span.Overlaps window.toSpan) (h : piece ∈ besideTarget target span) :
    piece.start ≤ window.stop := by
  have hstop := window.target_le_stop
  have hlt : span.start < window.stop := hover.1
  rw [besideTarget] at h
  split_ifs at h
  all_goals
    simp only [List.mem_append, List.mem_singleton, List.not_mem_nil, or_false, false_or] at h
  · rcases h with rfl | rfl
    · exact hlt.le
    · exact hstop
  · subst h
    exact hlt.le
  · subst h
    exact hstop
  · subst h
    exact hlt.le

theorem holds_besideTarget {span : Span text.length} {p : ℕ} (h : span.Holds p)
    (hp : ¬ target.Holds p) : ∃ piece ∈ besideTarget target span, piece.Holds p := by
  rw [besideTarget]
  by_cases hover : span.Overlaps target
  · rw [if_pos hover]
    by_cases hleft : p < target.start
    · have hlt : span.start < target.start := lt_of_le_of_lt h.1 hleft
      rw [dif_pos hlt]
      exact ⟨_, List.mem_append_left _ (List.mem_singleton_self _), h.1, hleft⟩
    · have hge : target.stop ≤ p := not_lt.1 fun hlt => hp ⟨not_lt.1 hleft, hlt⟩
      have hlt : target.stop < span.stop := lt_of_le_of_lt hge h.2
      rw [dif_pos hlt]
      exact ⟨_, List.mem_append_right _ (List.mem_singleton_self _), hge, h.2⟩
  · rw [if_neg hover]
    exact ⟨span, List.mem_singleton_self _, h⟩

theorem maskPlan_spec (text : Text) {target : Span text.length}
    (otherSpans : List (Span text.length)) (window : Window target) (policy : RedactionPolicy)
    (secrets : List Secret) :
    ∃ plan, maskPlan text otherSpans window policy secrets = .ok plan ∧
      PlanSpec text otherSpans window policy secrets plan := by
  let neighbours := (otherSpans.filter fun span => span.Overlaps window.toSpan).flatMap
    (besideTarget target)
  let base := targetMask text target policy :: neighbours.map (defaultMask text)
  obtain ⟨plan, hplan, ⟨additions, hext, hadd⟩, hsettled⟩ :=
    coverPartialCopies_ok text base window.toSpan secrets
  have hmem : ∀ item, item ∈ plan.insertionSort (fun a b => a.1.start ≤ b.1.start) ↔
      item ∈ plan := fun item => (List.perm_insertionSort _ plan).mem_iff
  have hmasked : ∀ p, Masked (plan.insertionSort fun a b => a.1.start ≤ b.1.start) p ↔
      Masked plan p := fun p => by simp only [Masked, hmem]
  have hcases : ∀ item ∈ plan, item = targetMask text target policy ∨
      ∃ span, item = defaultMask text span ∧ (span ∈ neighbours ∨ span ∈ additions) := by
    intro item hitem
    rw [hext, List.cons_append, ← List.map_append, List.mem_cons, List.mem_map] at hitem
    rcases hitem with h | ⟨span, hspan, rfl⟩
    · exact Or.inl h
    · exact Or.inr ⟨span, rfl, List.mem_append.1 hspan⟩
  have hrun : maskPlan text otherSpans window policy secrets =
      .ok (plan.insertionSort fun a b => a.1.start ≤ b.1.start) := by
    change (coverPartialCopies text base window.toSpan secrets >>= fun plan =>
      pure (plan.insertionSort fun a b => a.1.start ≤ b.1.start)) = _
    rw [hplan]
    rfl
  refine ⟨_, hrun, ?_⟩
  constructor
  case sorted => exact pairwise_insertionSort_start (fun item => item.1.start) plan
  case target_mem =>
    rw [hmem, hext]
    exact List.mem_cons_self
  case masks =>
    intro item hitem
    rcases hcases item ((hmem item).1 hitem) with h | ⟨span, rfl, _⟩
    · exact Or.inl h
    · exact Or.inr rfl
  case start_le =>
    intro item hitem
    rcases hcases item ((hmem item).1 hitem) with rfl | ⟨span, rfl, hspan | hspan⟩
    · exact target.start_lt.le.trans window.target_le_stop
    · obtain ⟨other, hother, hpiece⟩ := List.mem_flatMap.1 hspan
      exact besideTarget_start_le (of_decide_eq_true (List.mem_filter.1 hother).2) hpiece
    · exact span.start_lt.le.trans (hadd span hspan)
  case neighbours =>
    intro span hspan p hp hwin
    rw [hmasked, hext]
    by_cases htarget : target.Holds p
    · exact ⟨_, List.mem_cons_self, htarget⟩
    · obtain ⟨piece, hpiece, hheld⟩ := holds_besideTarget hp htarget
      have hover : span ∈ otherSpans.filter fun span => span.Overlaps window.toSpan :=
        List.mem_filter.2 ⟨hspan, decide_eq_true (Span.overlaps_iff.2 ⟨p, hp, hwin⟩)⟩
      refine ⟨defaultMask text piece, ?_, hheld⟩
      exact List.mem_append_left _ (List.mem_cons_of_mem _
        (List.mem_map_of_mem (List.mem_flatMap.2 ⟨span, hover, hpiece⟩)))
  case settled =>
    intro secret hsecret i p q hp hm hq hwin
    exact (hmasked q).2 (hsettled secret hsecret i p q hp ((hmasked p).1 hm) hq hwin)

/-- A stretch of context between two masks, or between a mask and an edge of the window. -/
structure Emits (plan : MaskPlan n) (stop cursor : ℕ) (part : Span n) : Prop where
  bare : ∀ p, part.Holds p → ¬ Masked plan p
  cursor_le : cursor ≤ part.start
  start_at : part.start = cursor ∨ ∃ item ∈ plan, item.1.stop = part.start
  stop_at : part.stop = stop ∨ ∃ item ∈ plan, item.1.start = part.stop

theorem mem_layoutFrom {stop : ℕ} {hstop : stop ≤ n} {plan : MaskPlan n} {part : Span n}
    (hsorted : plan.Pairwise fun a b => a.1.start ≤ b.1.start) {cursor : ℕ}
    (h : Part.context part ∈ layoutFrom stop hstop cursor plan) :
    Emits plan stop cursor part := by
  have hgap : ∀ {c l : ℕ} {hl : l ≤ n}, Part.context part ∈ (gapUpTo c l hl).map Part.context →
      part.start = c ∧ part.stop = l := fun hm => by
    obtain ⟨gap, hm, heq⟩ := List.mem_map.1 hm
    cases heq
    exact mem_gapUpTo.1 hm
  induction plan generalizing cursor with
  | nil =>
      obtain ⟨hstart, hend⟩ := hgap h
      exact ⟨fun _ _ ⟨_, hm, _⟩ => (by cases hm), hstart.ge, Or.inl hstart, Or.inl hend⟩
  | cons item plan ih =>
      obtain ⟨span, mask⟩ := item
      obtain ⟨hle, hrest⟩ := List.pairwise_cons.1 hsorted
      rw [layoutFrom, List.mem_append, List.mem_cons] at h
      rcases h with h | h | h
      · obtain ⟨hstart, hend⟩ := hgap h
        refine ⟨?_, hstart.ge, Or.inl hstart, Or.inr ⟨_, List.mem_cons_self, hend.symm⟩⟩
        rintro p ⟨_, hp⟩ ⟨item, hitem, hheld, _⟩
        rcases List.mem_cons.1 hitem with rfl | hitem
        · dsimp only at hheld
          omega
        · have := hle item hitem
          dsimp only at this
          omega
      · cases h
      · have hrec := ih hrest h
        have hcur := hrec.cursor_le
        constructor
        case bare =>
          rintro p hp ⟨item, hitem, hheld⟩
          rcases List.mem_cons.1 hitem with rfl | hitem
          · have hend : p < span.stop := hheld.2
            have hstart := hp.1
            omega
          · exact hrec.bare p hp ⟨item, hitem, hheld⟩
        case cursor_le => omega
        case start_at =>
          rcases hrec.start_at with hstart | ⟨item, hitem, hstart⟩
          · rcases max_choice cursor span.stop with hmax | hmax
            · exact Or.inl (hstart.trans hmax)
            · exact Or.inr ⟨_, List.mem_cons_self, (hstart.trans hmax).symm⟩
          · exact Or.inr ⟨item, List.mem_cons_of_mem _ hitem, hstart⟩
        case stop_at =>
          exact hrec.stop_at.imp_right fun ⟨item, hitem, hend⟩ =>
            ⟨item, List.mem_cons_of_mem _ hitem, hend⟩

theorem PlanSpec.emits {window : Window target}
    (h : PlanSpec text otherSpans window policy secrets plan) {part : Span text.length}
    (hpart : Part.context part ∈ layout plan window.toSpan) :
    Emits plan window.stop window.start part ∧ part.stop ≤ window.stop := by
  have hemits := mem_layoutFrom h.sorted hpart
  refine ⟨hemits, ?_⟩
  rcases hemits.stop_at with hend | ⟨item, hitem, hend⟩
  · exact hend.le
  · exact hend.ge.trans (h.start_le item hitem)

/-- The edges of the window cut no copy, or they are the target's own. -/
structure Unclipped (text : Text) {target : Span text.length} (window : Window target)
    (secrets : List Secret) : Prop where
  start : window.start < target.start → ∀ secret ∈ secrets, ¬ Straddles text secret window.start
  stop : target.stop < window.stop → ∀ secret ∈ secrets, ¬ Straddles text secret window.stop

theorem clip_unclipped (text : Text) {target : Span text.length} (window : Window target)
    (secrets : List Secret) :
    Unclipped text (clipToSecretBoundaries text window secrets) secrets := by
  rw [clipToSecretBoundaries]
  split_ifs with hnil
  · subst hnil
    exact ⟨fun _ _ h => (by cases h), fun _ _ h => (by cases h)⟩
  · exact ⟨(clipStart_spec text target secrets window.start_le_target).2,
      (clipStop_spec text target secrets window.target_le_stop).2⟩

theorem Emits.not_straddles {window : Window target}
    (h : PlanSpec text otherSpans window policy secrets plan)
    (hclip : Unclipped text window secrets) {part : Span text.length}
    (hpart : Part.context part ∈ layout plan window.toSpan) {secret : Secret}
    (hsecret : secret ∈ secrets) :
    ¬ Straddles text secret part.start ∧ ¬ Straddles text secret part.stop := by
  obtain ⟨hemits, hle⟩ := h.emits hpart
  have hlt := part.start_lt
  have htarget : ∀ p, target.Holds p → Masked plan p := fun p hp => ⟨_, h.target_mem, hp⟩
  have htlt := target.start_lt
  have hcur := hemits.cursor_le
  constructor
  · rcases hemits.start_at with hstart | ⟨item, hitem, hstart⟩
    · rw [hstart]
      refine hclip.start (lt_of_le_of_ne window.start_le_target fun heq => ?_) secret hsecret
      exact hemits.bare part.start ⟨le_rfl, hlt⟩ (htarget _ ⟨by omega, by omega⟩)
    · -- the copy reaches into the mask in front, so all of it in the window is masked
      rintro ⟨i, hat, hbefore, hafter⟩
      have hilt := item.1.start_lt
      refine hemits.bare part.start ⟨le_rfl, hlt⟩ (h.settled secret hsecret i (part.start - 1)
        part.start ⟨hat, by omega, by omega⟩ ⟨item, hitem, by omega, by omega⟩
        ⟨hat, by omega, hafter⟩ ⟨hcur, by omega⟩)
  · rcases hemits.stop_at with hend | ⟨item, hitem, hend⟩
    · rw [hend]
      refine hclip.stop (lt_of_le_of_ne window.target_le_stop fun heq => ?_) secret hsecret
      exact hemits.bare (part.stop - 1) ⟨by omega, by omega⟩ (htarget _ ⟨by omega, by omega⟩)
    · rintro ⟨i, hat, hbefore, hafter⟩
      have hilt := item.1.start_lt
      refine hemits.bare (part.stop - 1) ⟨by omega, by omega⟩ (h.settled secret hsecret i part.stop
        (part.stop - 1) ⟨hat, by omega, by omega⟩ ⟨item, hitem, by omega, by omega⟩
        ⟨hat, by omega, by omega⟩ ⟨by omega, by omega⟩)

/-- A copy that holds a place of an emitted stretch lies in that stretch. -/
theorem PlanSpec.inside {window : Window target}
    (h : PlanSpec text otherSpans window policy secrets plan)
    (hclip : Unclipped text window secrets) {part : Span text.length}
    (hpart : Part.context part ∈ layout plan window.toSpan) {secret : Secret}
    (hsecret : secret ∈ secrets) {i p : ℕ} (hcopy : InCopy text secret i p)
    (hp : part.Holds p) : part.start ≤ i ∧ i + secret.1.length ≤ part.stop := by
  obtain ⟨hstart, hstop⟩ := Emits.not_straddles h hclip hpart hsecret
  obtain ⟨hat, hip, hpi⟩ := hcopy
  obtain ⟨hpstart, hpstop⟩ := hp
  constructor
  · by_contra hlt
    exact hstart ⟨i, hat, by omega, by omega⟩
  · by_contra hlt
    exact hstop ⟨i, hat, by omega, by omega⟩

/-- The check of the edges never fires. -/
theorem assertNoBisectedSecret_ok {window : Window target}
    (h : PlanSpec text otherSpans window policy secrets plan)
    (hclip : Unclipped text window secrets) :
    assertNoBisectedSecret text plan window.toSpan secrets = .ok () := by
  rw [assertNoBisectedSecret, if_neg]
  rw [List.any_eq_true]
  rintro ⟨part, hpart, hany⟩
  cases part with
  | mask => cases hany
  | context part =>
      obtain ⟨edge, hedge, hany⟩ := List.any_eq_true.1 hany
      obtain ⟨secret, hsecret, hsome⟩ := List.any_eq_true.1 hany
      obtain ⟨hstart, hstop⟩ := Emits.not_straddles h hclip hpart hsecret
      have hnone : straddler text edge secret = none := by
        rcases List.mem_pair.1 hedge with rfl | rfl
        · exact straddler_eq_none.2 hstart
        · exact straddler_eq_none.2 hstop
      rw [hnone] at hsome
      cases hsome

end IcebergSST.Redaction

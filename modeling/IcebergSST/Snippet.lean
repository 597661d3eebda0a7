import IcebergSST.Rendering

/-!
# The snippet in cells

What is cut out of the snippet without touching a mask was read off one stretch of the
unit. From this, a redaction fails only when a secret can be read across something the
redactor wrote.
-/

namespace IcebergSST.Redaction

theorem infix_of_append_cons {α : Type*} {A R seg : List α} {m : α} (h : seg <:+: A ++ m :: R)
    (hm : m ∉ seg) : seg <:+: A ∨ seg <:+: R := by
  induction A with
  | nil =>
      cases seg with
      | nil => exact Or.inl List.nil_infix
      | cons c seg =>
          have hc : c ∉ [m] := fun hc => hm (List.mem_singleton.1 hc ▸ List.mem_cons_self)
          have h' : c :: seg <:+: [m] ++ R := h
          exact Or.inr (Literal.infix_of_append_of_head_not_mem h' hc)
  | cons a A ih =>
      rcases List.infix_cons_iff.1 h with hp | hi
      · have hsep : (a :: A) ++ [m] <+: a :: A ++ m :: R :=
          ⟨R, by rw [List.append_assoc]; rfl⟩
        rcases List.prefix_or_prefix_of_prefix hp hsep with hseg | hseg
        · rcases List.prefix_concat_iff.1 hseg with rfl | hseg
          · exact absurd (List.mem_append_right _ (List.mem_singleton_self m)) hm
          · exact Or.inl hseg.isInfix
        · exact absurd (hseg.subset (List.mem_append_right _ (List.mem_singleton_self m))) hm
      · exact (ih hi).imp_left fun h => h.trans (List.suffix_cons _ _).isInfix

def secretsOf (order : WalkOrder) (text : Text) (target : Span text.length)
    (otherSpans : List (Span text.length)) : List Secret :=
  order.walk (matchedTexts text target otherSpans)

section Snippet

variable (order : WalkOrder) (text : Text) (target : Span text.length) (policy : RedactionPolicy)
  (otherSpans : List (Span text.length))

def clippedWindow : Window target :=
  clipToSecretBoundaries text (contextWindow target policy) (secretsOf order text target otherSpans)

/-- The plan the snippet is laid out by; `maskPlan_spec` says that there is one. -/
def finalPlan : MaskPlan text.length :=
  ((maskPlan text otherSpans (clippedWindow order text target policy otherSpans) policy
    (secretsOf order text target otherSpans)).toOption).getD []

def finalLayout : List (Part text.length) :=
  layout (finalPlan order text target policy otherSpans)
    (clippedWindow order text target policy otherSpans).toSpan

def finalReplacements : Replacements :=
  replacements text (finalPlan order text target policy otherSpans) otherSpans

def edgeCells (hidden : Bool) : List Cell := if hidden then [wordingCell ellipsis] else []

def snippetCells : List Cell :=
  edgeCells (0 < (clippedWindow order text target policy otherSpans).start) ++
    (finalLayout order text target policy otherSpans).flatMap
      (partCells text target policy (finalReplacements order text target policy otherSpans)) ++
    edgeCells ((clippedWindow order text target policy otherSpans).stop < text.length)

end Snippet

variable {order : WalkOrder} {text : Text} {target : Span text.length}
  {policy : RedactionPolicy} {otherSpans : List (Span text.length)}

theorem maskPlan_eq_final (order : WalkOrder) (text : Text) (target : Span text.length)
    (policy : RedactionPolicy) (otherSpans : List (Span text.length)) :
    maskPlan text otherSpans (clippedWindow order text target policy otherSpans) policy
        (secretsOf order text target otherSpans) =
      .ok (finalPlan order text target policy otherSpans) ∧
    PlanSpec text otherSpans (clippedWindow order text target policy otherSpans) policy
      (secretsOf order text target otherSpans) (finalPlan order text target policy otherSpans) := by
  obtain ⟨plan, hplan, hspec⟩ := maskPlan_spec text otherSpans
    (clippedWindow order text target policy otherSpans) policy
    (secretsOf order text target otherSpans)
  have hfinal : finalPlan order text target policy otherSpans = plan := by
    rw [finalPlan, hplan]
    rfl
  rw [hfinal]
  exact ⟨hplan, hspec⟩

theorem map_char_snippetCells :
    (snippetCells order text target policy otherSpans).map Cell.char =
      withEllipses text.length (clippedWindow order text target policy otherSpans).toSpan
        (maskedPieces text (finalPlan order text target policy otherSpans) otherSpans
          (clippedWindow order text target policy otherSpans).toSpan).flatten := by
  have hedge : ∀ {p : Prop} [Decidable p],
      (edgeCells (decide p)).map Cell.char = if p then [ellipsis] else [] := by
    intro p _
    by_cases hp : p
    · rw [if_pos hp, decide_eq_true hp]
      rfl
    · rw [if_neg hp, decide_eq_false hp]
      rfl
  rw [snippetCells, withEllipses, List.map_append, List.map_append, hedge, hedge, maskedPieces,
    ← List.flatMap_def, List.map_flatMap]
  congr 2
  refine List.flatMap_congr fun part _ => ?_
  rw [map_char_partCells]
  rfl

theorem exists_of_isOk {ε α : Type} {result : Except ε α} (h : result.isOk = true) :
    ∃ a, result = .ok a := by
  cases result with
  | error e => cases h
  | ok a => exact ⟨a, rfl⟩

theorem redactSnippet_eq (order : WalkOrder) (text : Text) (target : Span text.length)
    (policy : RedactionPolicy) (otherSpans : List (Span text.length)) :
    redactSnippet order text target policy otherSpans =
      (assertNoPlaintext ((snippetCells order text target policy otherSpans).map Cell.char)
        (secretsOf order text target otherSpans)).map fun _ =>
          ((snippetCells order text target policy otherSpans).map Cell.char).take
            maxSnippetChars := by
  obtain ⟨hplan, hspec⟩ := maskPlan_eq_final order text target policy otherSpans
  have hok : assertNoBisectedSecret text (finalPlan order text target policy otherSpans)
      (clippedWindow order text target policy otherSpans).toSpan
      (secretsOf order text target otherSpans) = .ok () :=
    assertNoBisectedSecret_ok hspec (clip_unclipped text (contextWindow target policy) _)
  rw [map_char_snippetCells]
  change (maskPlan text otherSpans (clippedWindow order text target policy otherSpans) policy
    (secretsOf order text target otherSpans) >>= fun plan =>
      let snippet := withEllipses text.length
        (clippedWindow order text target policy otherSpans).toSpan
        (maskedPieces text plan otherSpans
          (clippedWindow order text target policy otherSpans).toSpan).flatten
      assertNoPlaintext snippet (secretsOf order text target otherSpans) >>= fun _ =>
        assertNoBisectedSecret text plan
          (clippedWindow order text target policy otherSpans).toSpan
          (secretsOf order text target otherSpans) >>= fun _ =>
            pure (snippet.take maxSnippetChars)) = _
  rw [hplan]
  change (assertNoPlaintext _ _ >>= fun _ => assertNoBisectedSecret _ _ _ _ >>= fun _ => _) = _
  rw [hok]
  cases assertNoPlaintext _ (secretsOf order text target otherSpans) <;> rfl

theorem mem_foldl_setDefault {β : Type*} (key mask : β → Text) (l : List β) (found : Replacements)
    (item : Text × Text)
    (h : item ∈ l.foldl (fun (found : Replacements) b => found.setDefault (key b) (mask b)) found) :
    item ∈ found ∨ ∃ b ∈ l, item = (key b, mask b) := by
  induction l generalizing found with
  | nil => exact Or.inl h
  | cons b l ih =>
      rcases ih _ h with hfound | ⟨b', hb', hitem⟩
      · simp only [Replacements.setDefault] at hfound
        split_ifs at hfound with hkey
        · exact Or.inl hfound
        · rcases List.mem_append.1 hfound with hfound | hitem
          · exact Or.inl hfound
          · exact Or.inr ⟨b, List.mem_cons_self, List.mem_singleton.1 hitem⟩
      · exact Or.inr ⟨b', List.mem_cons_of_mem _ hb', hitem⟩

theorem exists_mem_foldl_setDefault {β : Type*} (key mask : β → Text) (l : List β)
    (found : Replacements) {k : Text} (h : (∃ item ∈ found, item.1 = k) ∨ ∃ b ∈ l, key b = k) :
    ∃ item ∈ l.foldl (fun (found : Replacements) b => found.setDefault (key b) (mask b)) found,
      item.1 = k := by
  induction l generalizing found with
  | nil => exact h.resolve_right fun ⟨_, hb, _⟩ => by cases hb
  | cons b l ih =>
      refine ih _ ?_
      rcases h with ⟨item, hitem, hk⟩ | ⟨b', hb', hk⟩
      · refine Or.inl ⟨item, ?_, hk⟩
        simp only [Replacements.setDefault]
        split_ifs
        · exact hitem
        · exact List.mem_append_left _ hitem
      · rcases List.mem_cons.1 hb' with rfl | hb'
        · refine Or.inl ?_
          simp only [Replacements.setDefault]
          split_ifs with hany
          · obtain ⟨item, hitem, hkey⟩ := List.any_eq_true.1 hany
            exact ⟨item, hitem, (of_decide_eq_true hkey).trans hk⟩
          · exact ⟨_, List.mem_append_right _ (List.mem_singleton_self _), hk⟩
        · exact Or.inr ⟨b', hb', hk⟩

theorem mem_secretsOf {secret : Secret} (h : secret ∈ secretsOf order text target otherSpans) :
    ∃ span ∈ target :: otherSpans, (plaintext text span).1 = secret.1 := by
  obtain ⟨span, hspan, hsome⟩ := List.mem_filterMap.1
    (List.mem_dedup.1 ((order.perm _).mem_iff.1 h))
  split_ifs at hsome with hlen
  · exact ⟨span, hspan, congrArg Subtype.val (Option.some.inj hsome)⟩

theorem secretsOf_complete {span : Span text.length} (hspan : span ∈ target :: otherSpans)
    (hlen : 1 < (plaintext text span).1.length) :
    ⟨(plaintext text span).1, hlen⟩ ∈ secretsOf order text target otherSpans := by
  refine (order.perm _).mem_iff.2 (List.mem_dedup.2 (List.mem_filterMap.2 ⟨span, hspan, ?_⟩))
  rw [dif_pos hlen]

theorem scrubs_final (order : WalkOrder) (text : Text) (target : Span text.length)
    (policy : RedactionPolicy) (otherSpans : List (Span text.length)) :
    Scrubs (plaintext text target) policy
      (finalReplacements order text target policy otherSpans) := by
  intro item hitem
  obtain ⟨hmem, hlen⟩ := List.mem_filter.1 hitem
  refine ⟨of_decide_eq_true hlen, ?_⟩
  rcases mem_foldl_setDefault _ _ _ _ _ ((List.perm_insertionSort _ _).mem_iff.1 hmem) with
    hnil | ⟨source, hsource, rfl⟩
  · cases hnil
  · rcases List.mem_append.1 hsource with hplan | hother
    · rcases (maskPlan_eq_final order text target policy otherSpans).2.masks source hplan with
        h | h
      · rw [h]
        exact Or.inl rfl
      · rw [h]
        exact Or.inr ⟨_, rfl⟩
    · obtain ⟨span, _, rfl⟩ := List.mem_map.1 hother
      exact Or.inr ⟨_, rfl⟩

theorem exists_replacement {secret : Secret}
    (h : secret ∈ secretsOf order text target otherSpans) :
    ∃ item ∈ finalReplacements order text target policy otherSpans, item.1 = secret.1 := by
  obtain ⟨span, hspan, hread⟩ := mem_secretsOf h
  have hsource : ∃ source ∈ finalPlan order text target policy otherSpans ++
      otherSpans.map (defaultMask text), (plaintext text source.1).1 = secret.1 := by
    rcases List.mem_cons.1 hspan with rfl | hspan
    · exact ⟨_, List.mem_append_left _
        (maskPlan_eq_final order text span policy otherSpans).2.target_mem, hread⟩
    · exact ⟨_, List.mem_append_right _ (List.mem_map_of_mem hspan), hread⟩
  obtain ⟨item, hitem, hkey⟩ := exists_mem_foldl_setDefault
    (fun source : Span text.length × Text => (plaintext text source.1).1) Prod.snd _ []
    (Or.inr hsource)
  refine ⟨item, List.mem_filter.2 ⟨(List.perm_insertionSort _ _).mem_iff.2 hitem, ?_⟩, hkey⟩
  rw [hkey]
  exact decide_eq_true secret.2

theorem PlanSpec.isMask {window : Window target} {secrets : List Secret}
    {plan : MaskPlan text.length} (h : PlanSpec text otherSpans window policy secrets plan)
    {item : Span text.length × Text} (hitem : item ∈ plan) :
    IsMask (plaintext text target) policy item.2 := by
  rcases h.masks item hitem with heq | heq
  · rw [heq]
    exact Or.inl rfl
  · rw [heq]
    exact Or.inr ⟨_, rfl⟩

theorem mask_of_mem_layoutFrom {stop : ℕ} {hstop : stop ≤ text.length} {plan : MaskPlan text.length}
    {cursor : ℕ} {mask : Text} (h : Part.mask mask ∈ layoutFrom stop hstop cursor plan) :
    ∃ item ∈ plan, item.2 = mask := by
  have hgap : ∀ {c l : ℕ} {hl : l ≤ text.length},
      Part.mask mask ∉ (gapUpTo c l hl).map Part.context := fun hm => by
    obtain ⟨_, _, heq⟩ := List.mem_map.1 hm
    cases heq
  induction plan generalizing cursor with
  | nil => exact absurd h hgap
  | cons item plan ih =>
      obtain ⟨span, m⟩ := item
      rw [layoutFrom, List.mem_append, List.mem_cons] at h
      rcases h with h | h | h
      · exact absurd h hgap
      · cases h
        exact ⟨_, List.mem_cons_self, rfl⟩
      · obtain ⟨item, hitem, heq⟩ := ih h
        exact ⟨item, List.mem_cons_of_mem _ hitem, heq⟩

theorem mask_of_mem_layout {window : Window target} {secrets : List Secret}
    {plan : MaskPlan text.length} (h : PlanSpec text otherSpans window policy secrets plan)
    {mask : Text} (hmask : Part.mask mask ∈ layout plan window.toSpan) :
    IsMask (plaintext text target) policy mask := by
  obtain ⟨item, hitem, rfl⟩ := mask_of_mem_layoutFrom hmask
  exact h.isMask hitem

variable {stretch : List Cell}

theorem infix_of_append_masked {A E : List Cell} (h : stretch <:+: A ++ E)
    (hE : ∀ c ∈ E, ¬ c.Context) (hne : stretch ≠ []) (hcontext : ∀ c ∈ stretch, c.Context) :
    stretch <:+: A := by
  induction E generalizing A with
  | nil => simpa only [List.append_nil] using h
  | cons e E ih =>
      have hE' := fun c hc => hE c (List.mem_cons_of_mem e hc)
      rcases infix_of_append_cons h fun hm => hE e List.mem_cons_self (hcontext e hm) with hA | hE''
      · exact hA
      · obtain ⟨c, hc⟩ := List.exists_mem_of_ne_nil _ hne
        exact absurd (hcontext c hc) (hE' c (hE''.subset hc))

theorem context_infix_layoutFrom {reps : Replacements} {stop : ℕ} {hstop : stop ≤ text.length}
    {plan : MaskPlan text.length} {cursor : ℕ} {E : List Cell}
    (hmasks : ∀ item ∈ plan, IsMask (plaintext text target) policy item.2)
    (hE : ∀ c ∈ E, ¬ c.Context) (hne : stretch ≠ []) (hcontext : ∀ c ∈ stretch, c.Context)
    (h : stretch <:+: (layoutFrom stop hstop cursor plan).flatMap
      (partCells text target policy reps) ++ E) :
    ∃ part, Part.context part ∈ layoutFrom stop hstop cursor plan ∧
      stretch <:+: contextCells text target policy reps part := by
  have hgap : ∀ {c l : ℕ} {hl : l ≤ text.length}, stretch <:+: ((gapUpTo c l hl).map
      Part.context).flatMap (partCells text target policy reps) →
      ∃ part, Part.context part ∈ (gapUpTo c l hl).map Part.context ∧
        stretch <:+: contextCells text target policy reps part := by
    intro c l hl hg
    rw [gapUpTo] at hg ⊢
    split_ifs at hg ⊢ with hlt
    · refine ⟨_, List.mem_singleton_self _, ?_⟩
      simpa only [List.map_cons, List.map_nil, List.flatMap_cons, List.flatMap_nil,
        List.append_nil, partCells] using hg
    · exact absurd (List.infix_nil.1 hg) hne
  induction plan generalizing cursor with
  | nil => exact hgap (infix_of_append_masked h hE hne hcontext)
  | cons item plan ih =>
      obtain ⟨span, mask⟩ := item
      have hmask := hmasks _ List.mem_cons_self
      rw [layoutFrom, List.flatMap_append, List.flatMap_cons, List.append_assoc,
        List.append_assoc] at h
      obtain ⟨m, mcells, hm⟩ := List.exists_cons_of_ne_nil
        (List.ne_nil_of_mem (bracket_mem_maskCells hmask))
      have hnot : ∀ c ∈ m :: mcells, ¬ c.Context := fun c hc =>
        not_context_of_mem_maskCells (hm ▸ hc : c ∈ maskCells _ policy mask)
      rw [show partCells text target policy reps (.mask mask) = m :: mcells from hm,
        List.cons_append] at h
      rw [layoutFrom]
      rcases infix_of_append_cons h fun hc => hnot m List.mem_cons_self (hcontext m hc) with
        hleft | hright
      · obtain ⟨part, hpart, hin⟩ := hgap hleft
        exact ⟨part, List.mem_append_left _ hpart, hin⟩
      · obtain ⟨c, seg, rfl⟩ := List.exists_cons_of_ne_nil hne
        have hrest := Literal.infix_of_append_of_head_not_mem hright fun hc =>
          hnot c (List.mem_cons_of_mem _ hc) (hcontext c List.mem_cons_self)
        obtain ⟨part, hpart, hin⟩ := ih (fun it hit => hmasks it (List.mem_cons_of_mem _ hit)) hrest
        exact ⟨part, List.mem_append_right _ (List.mem_cons_of_mem _ hpart), hin⟩

theorem not_context_of_mem_edgeCells {hidden : Bool} {cell : Cell} (h : cell ∈ edgeCells hidden) :
    ¬ cell.Context := by
  rw [edgeCells] at h
  split_ifs at h
  · rw [List.mem_singleton.1 h]
    rintro ⟨i, hi | hi⟩ <;> cases hi
  · cases h

/-- What is cut out of the snippet without touching a mask lies in one emitted stretch. -/
theorem context_infix_snippetCells
    (h : stretch <:+: snippetCells order text target policy otherSpans) (hne : stretch ≠ [])
    (hcontext : ∀ c ∈ stretch, c.Context) :
    ∃ part, Part.context part ∈ finalLayout order text target policy otherSpans ∧
      stretch <:+: contextCells text target policy
        (finalReplacements order text target policy otherSpans) part := by
  obtain ⟨c, seg, rfl⟩ := List.exists_cons_of_ne_nil hne
  have hspec := (maskPlan_eq_final order text target policy otherSpans).2
  rw [snippetCells, List.append_assoc] at h
  have hbody := Literal.infix_of_append_of_head_not_mem h fun hc =>
    not_context_of_mem_edgeCells hc (hcontext c List.mem_cons_self)
  exact context_infix_layoutFrom (fun item => hspec.isMask)
    (fun _ => not_context_of_mem_edgeCells) hne hcontext hbody

/-- Kept characters stand in the snippet as they stand in the unit, and spell no secret. -/
theorem kept_infix_snippetCells {c : Cell} {seg : List Cell}
    (h : c :: seg <:+: snippetCells order text target policy otherSpans)
    (hkept : ∀ d ∈ c :: seg, d.Kept) :
    ∀ secret ∈ secretsOf order text target otherSpans, (c :: seg).map Cell.char ≠ secret.1 := by
  intro secret hsecret
  obtain ⟨part, _, hpart⟩ := context_infix_snippetCells h (List.cons_ne_nil _ _)
    fun d hd => (hkept d hd).context
  have hscrubbed := infix_of_infix_collapseCells hpart hkept
  obtain ⟨item, hitem, hkey⟩ := exists_replacement hsecret
  rw [← hkey]
  exact (infix_of_infix_scrubCells (scrubs_final order text target policy otherSpans) hscrubbed
    (fun hb => (hkept _ hb).ne_bracket rfl) (hkept c List.mem_cons_self)
    fun d hd => hkept d (List.mem_of_getLast? hd)).2 item hitem

/-- A secret can be read across something that the redactor wrote: the wording of a mask, what
a mask reveals, an ellipsis, or the space that stands for a run of whitespace. -/
def Misread (order : WalkOrder) (text : Text) (target : Span text.length)
    (policy : RedactionPolicy) (otherSpans : List (Span text.length)) : Prop :=
  ∃ secret ∈ secretsOf order text target otherSpans,
    ∃ stretch, stretch <:+: snippetCells order text target policy otherSpans ∧
      stretch.map Cell.char = secret.1 ∧ ∃ cell ∈ stretch, ¬ cell.Kept

/-- A redaction succeeds unless its own wording spells a secret. -/
theorem redactSnippet_isOk_iff (order : WalkOrder) (text : Text) (target : Span text.length)
    (policy : RedactionPolicy) (otherSpans : List (Span text.length)) :
    (∃ snippet, redactSnippet order text target policy otherSpans = .ok snippet) ↔
      ¬ Misread order text target policy otherSpans := by
  rw [redactSnippet_eq, assertNoPlaintext]
  split_ifs with hany
  · obtain ⟨secret, hsecret, hin⟩ := List.any_eq_true.1 hany
    obtain ⟨stretch, hstretch, hread⟩ := List.infix_map_iff.1 (of_decide_eq_true hin)
    refine iff_of_false (fun ⟨_, h⟩ => by cases h) fun hnot => hnot ?_
    refine ⟨secret, hsecret, stretch, hstretch, hread.symm, ?_⟩
    by_contra hkept
    push Not at hkept
    have hne : stretch ≠ [] := by
      rintro rfl
      have := secret.2
      rw [hread] at this
      cases this
    obtain ⟨c, seg, rfl⟩ := List.exists_cons_of_ne_nil hne
    exact kept_infix_snippetCells hstretch hkept secret hsecret hread.symm
  · refine iff_of_true ⟨_, rfl⟩ ?_
    rintro ⟨secret, hsecret, stretch, hstretch, hread, _⟩
    refine hany (List.any_eq_true.2 ⟨secret, hsecret, decide_eq_true ?_⟩)
    rw [← hread]
    exact hstretch.map Cell.char

/-- Masking settles within its bound. A copy of any match that overlaps a mask is then masked as
far as the window goes, and the check of the edges passes. -/
theorem partial_copies_settle (order : WalkOrder) (text : Text) (target : Span text.length)
    (policy : RedactionPolicy) (otherSpans : List (Span text.length)) :
    ∃ plan, maskPlan text otherSpans (clippedWindow order text target policy otherSpans) policy
        (secretsOf order text target otherSpans) = .ok plan ∧
      (∀ span ∈ target :: otherSpans, ∀ copy : Span text.length,
        Literal.At text (plaintext text span).1 copy.start →
        copy.stop = copy.start + (plaintext text span).1.length →
        (∃ item ∈ plan, copy.Overlaps item.1) →
        ∀ p, copy.Holds p → (clippedWindow order text target policy otherSpans).Holds p →
          ∃ item ∈ plan, item.1.Holds p) ∧
      assertNoBisectedSecret text plan (clippedWindow order text target policy otherSpans).toSpan
        (secretsOf order text target otherSpans) = .ok () := by
  obtain ⟨plan, hplan, hspec⟩ := maskPlan_spec text otherSpans
    (clippedWindow order text target policy otherSpans) policy
    (secretsOf order text target otherSpans)
  refine ⟨plan, hplan, ?_, assertNoBisectedSecret_ok hspec (clip_unclipped text _ _)⟩
  rintro span hspan copy hat hstop ⟨item, hitem, hover⟩ p hp hwindow
  obtain ⟨q, hq, hheld⟩ := Span.overlaps_iff.1 hover
  by_cases hlength : 1 < (plaintext text span).1.length
  · have hcopy {place : ℕ} (hplace : copy.Holds place) :
        InCopy text ⟨(plaintext text span).1, hlength⟩ copy.start place :=
      ⟨hat, hplace.1, hstop ▸ hplace.2⟩
    exact hspec.settled _ (secretsOf_complete hspan hlength) copy.start q p (hcopy hq)
      ⟨item, hitem, hheld⟩ (hcopy hp) hwindow
  · -- a copy of one character is masked as soon as it is touched
    obtain ⟨hstart, hlt⟩ := hp
    obtain ⟨hstart', hlt'⟩ := hq
    obtain rfl : q = p := by omega
    exact ⟨item, hitem, hheld⟩

def periodic : Text := "ababa".toList

def firstCopy : Span periodic.length := ⟨0, 3, Nat.zero_lt_succ 2, by decide⟩

def secondCopy : Span periodic.length := ⟨2, 5, by decide, by decide⟩

theorem periodic_settles : ∃ plan,
    maskPlan periodic [] (clippedWindow .listed periodic firstCopy {} []) {}
      (secretsOf .listed periodic firstCopy []) = .ok plan ∧ ∃ item ∈ plan, item.1.Holds 4 := by
  obtain ⟨plan, hplan, hcopies, -⟩ := partial_copies_settle .listed periodic firstCopy {} []
  have hrun : (maskPlan periodic [] (clippedWindow .listed periodic firstCopy {} []) {}
      (secretsOf .listed periodic firstCopy [])).toOption.map
        (fun plan => plan.map Prod.fst) = some [firstCopy, ⟨3, 5, by decide, by decide⟩] := by
    decide +kernel
  rw [hplan] at hrun
  have hspans : plan.map Prod.fst = [firstCopy, ⟨3, 5, by decide, by decide⟩] :=
    Option.some.inj hrun
  have hfirst : firstCopy ∈ plan.map Prod.fst := by
    rw [hspans]
    exact List.mem_cons_self
  obtain ⟨item, hitem, hspan⟩ := List.mem_map.1 hfirst
  refine ⟨plan, hplan, hcopies firstCopy List.mem_cons_self secondCopy (by decide +kernel)
    (by decide +kernel) ⟨item, hitem, ?_⟩ 4 ⟨by decide, by decide⟩ ?_⟩
  · rw [hspan]
    exact ⟨by decide, by decide⟩
  · exact ⟨by decide +kernel, by decide +kernel⟩

end IcebergSST.Redaction

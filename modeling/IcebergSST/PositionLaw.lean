import IcebergSST.Snippet

/-!
# Where emitted context may come from

Every cell of a snippet says truly what it shows. In one emitted stretch the scrub takes a
copy as a whole if every copy that overlaps it is of a shorter text, since a longer text is
scrubbed first, and if no scrub cuts it that takes a piece of a mask too. Context comes from
inside a copy of a secret only where no copy that goes as a whole holds it.
-/

namespace IcebergSST.Redaction

/-- The letters the redactor writes itself. -/
def Wording (c : Char) : Prop := c = ellipsis ∨ c.isDigit = true ∨ c ∈ "[] chars redacted".toList

/-- The characters of a secret of this length that its mask may show. -/
def Revealable (policy : RedactionPolicy) (length k : ℕ) : Prop :=
  if policy.strategy = .keepSuffix then
    length - revealableLength length policy ≤ k ∧ k < length
  else k < revealableLength length policy

/-- The cell shows the character itself, or the space its run of whitespace became. -/
def Shows (shown c : Char) : Prop := shown = c ∨ shown = ' ' ∧ isSpace c = true

/-- The cell shows what it says that it does. -/
def Cell.Honest (text : Text) (target : Span text.length) (policy : RedactionPolicy)
    (cell : Cell) : Prop :=
  match cell.origin with
  | .kept i => text[i]? = some cell.char
  | .blank i => cell.char = ' ' ∧ ∃ c, text[i]? = some c ∧ isSpace c = true
  | .revealed k => Revealable policy (plaintext text target).1.length k ∧
      ∃ c, (plaintext text target).1[k]? = some c ∧ Shows cell.char c
  | .wording => Wording cell.char

/-- No character of context comes from inside a copy of a secret. -/
def Cell.Outside (text : Text) (secrets : List Secret) (cell : Cell) : Prop :=
  ∀ i, cell.origin = .kept i ∨ cell.origin = .blank i →
    ∀ secret ∈ secrets, ∀ j, ¬ InCopy text secret j i

variable {order : WalkOrder} {text : Text} {target : Span text.length}
  {policy : RedactionPolicy} {otherSpans : List (Span text.length)} {cell : Cell}

theorem wording_of_mem_marker {k : ℕ} {c : Char} (h : c ∈ marker k) : Wording c := by
  have hlit : ∀ {d : Char}, d ∈ "[] chars redacted".toList → Wording d := fun h =>
    Or.inr (Or.inr h)
  rcases List.mem_cons.1 h with rfl | h
  · exact hlit (by decide +kernel)
  · rcases List.mem_append.1 h with h | h
    · exact Or.inr (Or.inl (Nat.isDigit_of_mem_toDigits (by decide) (by decide) h))
    · have hsub : ∀ d ∈ " chars redacted]".toList, d ∈ "[] chars redacted".toList := by
        simp
      exact hlit (hsub c h)

theorem honest_of_mem_marker {k : ℕ} (h : cell ∈ (marker k).map wordingCell) :
    cell.Honest text target policy := by
  obtain ⟨c, hc, rfl⟩ := List.mem_map.1 h
  exact wording_of_mem_marker hc

theorem honest_ellipsis : (wordingCell ellipsis).Honest text target policy := Or.inl rfl

theorem honest_targetCells (h : cell ∈ targetCells (plaintext text target) policy) :
    cell.Honest text target policy := by
  have hshown : ∀ {start : ℕ} {l : Text}, cell ∈ numbered .revealed start l →
      (∀ k, k < l.length → Revealable policy (plaintext text target).1.length (start + k) ∧
        (plaintext text target).1[start + k]? = l[k]?) →
      cell.Honest text target policy := by
    intro start l hmem hl
    obtain ⟨k, hle, hget, ho⟩ := mem_numbered.1 hmem
    have hk := (List.getElem?_eq_some_iff.1 hget).1
    obtain ⟨hreveal, hread⟩ := hl (k - start) hk
    rw [Nat.add_sub_cancel' hle] at hreveal hread
    rw [Cell.Honest, ho]
    exact ⟨hreveal, cell.char, hread.trans hget, Or.inl rfl⟩
  rw [targetCells] at h
  split_ifs at h with hzero hsuffix
  · exact honest_of_mem_marker h
  · rcases List.mem_append.1 h with h | h
    · exact honest_of_mem_marker h
    · rcases List.mem_cons.1 h with rfl | h
      · exact honest_ellipsis
      · refine hshown h fun k hk => ⟨?_, by rw [List.getElem?_drop]⟩
        rw [List.length_drop] at hk
        rw [Revealable, if_pos hsuffix]
        omega
  · rcases List.mem_append.1 h with h | h
    · refine hshown h fun k hk => ?_
      rw [List.length_take] at hk
      rw [zero_add, Revealable, if_neg hsuffix, List.getElem?_take_of_lt (by omega)]
      exact ⟨by omega, rfl⟩
    · rcases List.mem_cons.1 h with rfl | h
      · exact honest_ellipsis
      · exact honest_of_mem_marker h

theorem honest_maskCells {mask : Text} (hmask : IsMask (plaintext text target) policy mask)
    (h : cell ∈ maskCells (plaintext text target) policy mask) :
    cell.Honest text target policy := by
  rw [maskCells] at h
  split_ifs at h with heq
  · exact honest_targetCells h
  · obtain ⟨other, rfl⟩ := hmask.resolve_left heq
    exact honest_of_mem_marker h

theorem Cell.Honest.collapsed (h : cell.Honest text target policy)
    (hspace : isSpace cell.char = true) : cell.collapsed.Honest text target policy := by
  cases ho : cell.origin with
  | kept i =>
      simp only [Cell.Honest, Cell.collapsed, ho] at h ⊢
      exact ⟨trivial, _, h, hspace⟩
  | blank i =>
      simp only [Cell.Honest, Cell.collapsed, ho] at h ⊢
      exact ⟨trivial, h.2⟩
  | revealed k =>
      simp only [Cell.Honest, Cell.collapsed, ho] at h ⊢
      obtain ⟨hk, c, hc, hshow⟩ := h
      refine ⟨hk, c, hc, Or.inr ⟨rfl, ?_⟩⟩
      rcases hshow with heq | ⟨_, hsp⟩
      · rw [← heq]
        exact hspace
      · exact hsp
  | wording =>
      simp only [Cell.Honest, Cell.collapsed, ho] at h ⊢
      exact Or.inr (Or.inr (by decide +kernel))

theorem honest_scrubCells {part : Span text.length} {reps : Replacements}
    (hscrub : Scrubs (plaintext text target) policy reps)
    (h : cell ∈ scrubCells (plaintext text target) policy reps (keptCells text part)) :
    cell.Honest text target policy := by
  rcases mem_scrubCells h hscrub with hkept | ⟨item, hitem, hmask⟩
  · rw [keptCells_eq] at hkept
    obtain ⟨p, _, _, hget, ho⟩ := mem_unitCells.1 hkept
    rw [Cell.Honest, ho]
    exact hget
  · exact honest_maskCells (hscrub item hitem).2 hmask

/-- A cell of the snippet is the redactor's, or it stood in the scrubbed cells of a stretch. -/
theorem mem_snippetCells (h : cell ∈ snippetCells order text target policy otherSpans) :
    (cell.Honest text target policy ∧ ¬ cell.Context) ∨
      ∃ part, Part.context part ∈ finalLayout order text target policy otherSpans ∧
        ∃ b ∈ scrubCells (plaintext text target) policy
          (finalReplacements order text target policy otherSpans) (keptCells text part),
          cell = b ∨ cell = b.collapsed ∧ isSpace b.char = true := by
  have hedge : ∀ {hidden}, cell ∈ edgeCells hidden →
      cell.Honest text target policy ∧ ¬ cell.Context := fun {hidden} hm => by
    refine ⟨?_, not_context_of_mem_edgeCells hm⟩
    rw [edgeCells] at hm
    split_ifs at hm
    · rw [List.mem_singleton.1 hm]
      exact honest_ellipsis
    · cases hm
  rw [snippetCells, List.mem_append, List.mem_append, List.mem_flatMap] at h
  rcases h with (h | ⟨part, hpart, h⟩) | h
  · exact Or.inl (hedge h)
  · cases part with
    | mask mask =>
        have hmask := mask_of_mem_layout (maskPlan_eq_final order text target policy otherSpans).2
          hpart
        exact Or.inl ⟨honest_maskCells hmask h, not_context_of_mem_maskCells h⟩
    | context part => exact Or.inr ⟨part, hpart, mem_collapseCells h⟩
  · exact Or.inl (hedge h)

/-- A copy of a scrubbed text in an emitted stretch. -/
structure CopyIn (text : Text) (reps : Replacements) (part : Span text.length) (copied : Text)
    (i : ℕ) : Prop where
  scrubbed : ∃ item ∈ reps, item.1 = copied
  stands : Literal.At text copied i
  start_le : part.start ≤ i
  le_stop : i + copied.length ≤ part.stop

/-- A copy in an emitted stretch that the scrub takes as a whole. -/
structure GoesWhole (text : Text) (target : Span text.length) (policy : RedactionPolicy)
    (reps : Replacements) (part : Span text.length) (copied : Text) (i : ℕ) : Prop
    extends CopyIn text reps part copied i where
  /-- Every other copy that overlaps it is of a shorter text. -/
  foremost : ∀ other j, CopyIn text reps part other j → i < j + other.length →
    j < i + copied.length → copied.length ≤ other.length → other = copied ∧ j = i
  /-- No scrub takes a part of it together with a piece of a mask that an earlier one wrote. -/
  spared : ∀ done item rest, reps = done ++ item :: rest → ∀ hit,
    Literal.Hit Cell.char item.1
      (scrubCells (plaintext text target) policy done (keptCells text part)) hit →
    (∃ c ∈ hit, ¬ c.Kept) → (∀ c ∈ unitCells text i copied.length, c ∈ hit) ∨
      ∀ c ∈ unitCells text i copied.length, c ∉ hit

section Scrub

variable {reps done rest : Replacements} {item : Text × Text} {part : Span text.length}

theorem Scrubs.of_append (h : Scrubs (plaintext text target) policy (done ++ rest)) :
    Scrubs (plaintext text target) policy done :=
  fun item hitem => h item (List.mem_append_left _ hitem)

theorem scrubCells_append (cells : List Cell) :
    scrubCells (plaintext text target) policy (done ++ [item]) cells =
      Literal.replace Cell.char item.1 (maskCells (plaintext text target) policy item.2)
        (scrubCells (plaintext text target) policy done cells) := by
  rw [scrubCells, List.foldl_append]
  rfl

theorem scrubCells_pairwise (hscrub : Scrubs (plaintext text target) policy done) :
    (scrubCells (plaintext text target) policy done (keptCells text part)).Pairwise
      fun a b => a.Kept → a ≠ b := by
  induction done using List.reverseRecOn with
  | nil => exact keptCells_pairwise part
  | append_singleton done item ih =>
      have hlen := (hscrub item (List.mem_append_right _ (List.mem_singleton_self _))).1
      rw [scrubCells_append]
      exact (Literal.rewrites_replace (List.ne_nil_of_length_pos (by omega)) _).pairwise
        (fun c hc hk => not_context_of_mem_maskCells hc hk.context) (ih hscrub.of_append)

/-- A text that was scrubbed stands nowhere in the context that is left. -/
theorem not_infix_of_scrubbed (hscrub : Scrubs (plaintext text target) policy done)
    (hitem : item ∈ done) {i : ℕ} (hat : Literal.At text item.1 i) :
    ¬ unitCells text i item.1.length <:+:
      scrubCells (plaintext text target) policy done (keptCells text part) := by
  intro h
  have hlen := (hscrub item hitem).1
  have hread : (unitCells text i item.1.length).map Cell.char = item.1 := by
    rw [map_char_unitCells, hat.slice_eq]
  cases hcells : unitCells text i item.1.length with
  | nil =>
      rw [hcells] at hread
      rw [← hread] at hlen
      cases hlen
  | cons c seg =>
      have hkept : ∀ d ∈ c :: seg, d.Kept := fun d hd =>
        kept_of_mem_unitCells (hcells ▸ hd : d ∈ unitCells text i item.1.length)
      rw [hcells] at h hread
      exact (infix_of_infix_scrubCells hscrub h (fun hb => (hkept _ hb).ne_bracket rfl)
        (hkept c List.mem_cons_self) fun d hd => hkept d (List.mem_of_getLast? hd)).2 item hitem
        hread

theorem longer_mem_done (hsorted : reps.Pairwise fun a b => b.1.length ≤ a.1.length)
    (hreps : reps = done ++ item :: rest) {longer : Text × Text} (hmem : longer ∈ reps)
    (hlt : item.1.length < longer.1.length) : longer ∈ done := by
  rw [hreps, List.mem_append, List.mem_cons] at hmem
  rw [hreps] at hsorted
  rcases hmem with h | rfl | h
  · exact h
  · omega
  · have := (List.pairwise_cons.1 (List.pairwise_append.1 hsorted).2.1).1 longer h
    omega

/-- What a replacement takes without a piece of a mask is a copy in the stretch. -/
theorem copyIn_of_hit (hdone : Scrubs (plaintext text target) policy done) (hitem : item ∈ reps)
    (hlen : 1 < item.1.length) {hit : List Cell}
    (hhit : Literal.Hit Cell.char item.1
      (scrubCells (plaintext text target) policy done (keptCells text part)) hit)
    (hkept : ∀ c ∈ hit, c.Kept) :
    ∃ j, CopyIn text reps part item.1 j ∧ hit = unitCells text j item.1.length := by
  have hlength : hit.length = item.1.length := by rw [← hhit.reads, List.length_map]
  have hne : hit ≠ [] := List.ne_nil_of_length_pos (by omega)
  obtain ⟨c, seg, rfl⟩ := List.exists_cons_of_ne_nil hne
  obtain ⟨hunit, _⟩ := infix_of_infix_scrubCells hdone hhit.subsegment
    (fun hb => (hkept _ hb).ne_bracket rfl) (hkept c List.mem_cons_self)
    fun d hd => hkept d (List.mem_of_getLast? hd)
  obtain ⟨j, hj, hjstop, hcells⟩ := infix_keptCells hunit
  rw [hlength] at hjstop hcells
  refine ⟨j, ⟨⟨item, hitem, rfl⟩, ?_, hj, hjstop⟩, hcells⟩
  rw [Literal.at_iff_slice_eq, ← map_char_unitCells, ← hcells, hhit.reads]

/-- What every replacement takes as a whole or leaves is there as a whole or not at all, at every
stage of the scrub. -/
theorem whole_or_gone (hscrub : Scrubs (plaintext text target) policy reps) {i length : ℕ}
    (hstart : part.start ≤ i) (hstop : i + length ≤ part.stop)
    (hhits : ∀ done item rest, reps = done ++ item :: rest →
      unitCells text i length <:+:
        scrubCells (plaintext text target) policy done (keptCells text part) → ∀ hit,
      Literal.Hit Cell.char item.1
        (scrubCells (plaintext text target) policy done (keptCells text part)) hit →
      (∀ c ∈ unitCells text i length, c ∈ hit) ∨ ∀ c ∈ unitCells text i length, c ∉ hit)
    (hreps : reps = done ++ rest) :
    unitCells text i length <:+:
        scrubCells (plaintext text target) policy done (keptCells text part) ∨
      ∀ c ∈ unitCells text i length,
        c ∉ scrubCells (plaintext text target) policy done (keptCells text part) := by
  induction done using List.reverseRecOn generalizing rest with
  | nil => exact Or.inl (unitCells_infix_keptCells hstart hstop)
  | append_singleton done item ih =>
      have hsplit : reps = done ++ item :: rest := by
        rw [hreps, List.append_assoc]
        rfl
      have hlen := (hscrub item (hsplit ▸ List.mem_append_right _ List.mem_cons_self)).1
      have hdone : Scrubs (plaintext text target) policy done := (hsplit ▸ hscrub).of_append
      have hnew : ∀ c ∈ maskCells (plaintext text target) policy item.2, ¬ c.Kept :=
        fun c hc hk => not_context_of_mem_maskCells hc hk.context
      have hold : item.1 ≠ [] := List.ne_nil_of_length_pos (by omega)
      have hrw : Literal.Rewrites Cell.char item.1 (maskCells (plaintext text target) policy item.2)
          (scrubCells (plaintext text target) policy done (keptCells text part)) _ :=
        Literal.rewrites_replace hold _
      rw [scrubCells_append]
      rcases ih hsplit with hseg | hgone
      · exact hrw.infix_or_gone hold hnew (scrubCells_pairwise hdone) hseg
          (fun c hc => kept_of_mem_unitCells hc) (hhits done item rest hsplit hseg)
      · refine Or.inr fun d hd hmem => ?_
        rcases hrw.mem hmem with h | h
        · exact hgone d hd h
        · exact hnew d h (kept_of_mem_unitCells hd)

/-- What no replacement meets is left by the scrub as it was. -/
theorem infix_scrubCells_of_unhit (hscrub : Scrubs (plaintext text target) policy reps)
    {i length : ℕ} (hstart : part.start ≤ i) (hstop : i + length ≤ part.stop)
    (hno : ∀ done item rest, reps = done ++ item :: rest → ∀ hit,
      Literal.Hit Cell.char item.1
        (scrubCells (plaintext text target) policy done (keptCells text part)) hit →
      ∀ c ∈ unitCells text i length, c ∉ hit) :
    unitCells text i length <:+:
      scrubCells (plaintext text target) policy reps (keptCells text part) := by
  have hstays : ∀ done rest, reps = done ++ rest → ∀ c ∈ unitCells text i length,
      c ∈ scrubCells (plaintext text target) policy done (keptCells text part) := by
    intro done
    induction done using List.reverseRecOn with
    | nil =>
        intro _ _ c hc
        exact (unitCells_infix_keptCells hstart hstop).subset hc
    | append_singleton done item ih =>
        intro rest hreps c hc
        have hsplit : reps = done ++ item :: rest := by
          rw [hreps, List.append_assoc]
          rfl
        have hlen := (hscrub item (hsplit ▸ List.mem_append_right _ List.mem_cons_self)).1
        rw [scrubCells_append]
        exact (Literal.rewrites_replace (List.ne_nil_of_length_pos (by omega)) _).mem_of_unhit
          (ih _ hsplit c hc) fun hit hhit => hno done item rest hsplit hit hhit c hc
  rcases whole_or_gone hscrub hstart hstop (fun done item rest hsplit _ hit hhit =>
    Or.inr (hno done item rest hsplit hit hhit)) (List.append_nil _).symm with hin | hgone
  · exact hin
  · cases hcells : unitCells text i length with
    | nil => exact List.nil_infix
    | cons c seg =>
        have hc : c ∈ unitCells text i length := hcells ▸ List.mem_cons_self
        exact absurd (hstays reps [] (List.append_nil _).symm c hc) (hgone c hc)

/-- A replacement takes a copy that goes as a whole, or leaves all of it. -/
theorem GoesWhole.hits (hscrub : Scrubs (plaintext text target) policy reps)
    (hsorted : reps.Pairwise fun a b => b.1.length ≤ a.1.length) {copied : Text} {i : ℕ}
    (h : GoesWhole text target policy reps part copied i) (hsplit : reps = done ++ item :: rest)
    (hseg : unitCells text i copied.length <:+:
      scrubCells (plaintext text target) policy done (keptCells text part)) {hit : List Cell}
    (hhit : Literal.Hit Cell.char item.1
      (scrubCells (plaintext text target) policy done (keptCells text part)) hit) :
    (∀ c ∈ unitCells text i copied.length, c ∈ hit) ∨
      ∀ c ∈ unitCells text i copied.length, c ∉ hit := by
  obtain ⟨longer, hlonger, rfl⟩ := h.scrubbed
  have hitem : item ∈ reps := hsplit ▸ List.mem_append_right _ List.mem_cons_self
  have hdone : Scrubs (plaintext text target) policy done := (hsplit ▸ hscrub).of_append
  by_cases hmixed : ∃ c ∈ hit, ¬ c.Kept
  · exact h.spared done item rest hsplit hit hhit hmixed
  · push Not at hmixed
    -- the hit is a copy in the unit, and not one that was to go before
    obtain ⟨j, hcopy, rfl⟩ := copyIn_of_hit hdone hitem (hscrub item hitem).1 hhit hmixed
    by_cases hover : i < j + item.1.length ∧ j < i + longer.1.length
    · rcases Nat.lt_or_ge item.1.length longer.1.length with hlt | hge
      · exact absurd hseg (not_infix_of_scrubbed hdone
          (longer_mem_done hsorted hsplit hlonger hlt) h.stands)
      · obtain ⟨htext, rfl⟩ := h.foremost item.1 j hcopy hover.1 hover.2 hge
        refine Or.inl fun d hd => ?_
        rwa [htext]
    · refine Or.inr fun d hd hd' => hover ?_
      obtain ⟨p, hp, hp', _, ho⟩ := mem_unitCells.1 hd
      obtain ⟨q, hq, hq', _, ho'⟩ := mem_unitCells.1 hd'
      have := Origin.kept.inj (ho.symm.trans ho')
      omega

/-- Of a copy that goes as a whole nothing is left. -/
theorem GoesWhole.gone (hscrub : Scrubs (plaintext text target) policy reps)
    (hsorted : reps.Pairwise fun a b => b.1.length ≤ a.1.length) {copied : Text} {i : ℕ}
    (h : GoesWhole text target policy reps part copied i) :
    ∀ c ∈ unitCells text i copied.length,
      c ∉ scrubCells (plaintext text target) policy reps (keptCells text part) := by
  rcases whole_or_gone hscrub h.start_le h.le_stop (fun _ _ _ hsplit hseg _ hhit =>
    h.hits hscrub hsorted hsplit hseg hhit) (List.append_nil _).symm with hin | hgone
  · obtain ⟨item, hitem, rfl⟩ := h.scrubbed
    exact absurd hin (not_infix_of_scrubbed hscrub hitem h.stands)
  · exact hgone

/-- In the stretch a replacement takes a part of a copy and leaves the rest, or takes context
together with a piece of a mask. -/
def ScrubCuts (text : Text) (target : Span text.length) (policy : RedactionPolicy)
    (reps : Replacements) (part : Span text.length) : Prop :=
  ∃ done item rest, reps = done ++ item :: rest ∧ ∃ hit,
    Literal.Hit Cell.char item.1
      (scrubCells (plaintext text target) policy done (keptCells text part)) hit ∧
    ((∃ c ∈ hit, c.Kept) ∧ (∃ c ∈ hit, ¬ c.Kept) ∨ ∃ copied i, CopyIn text reps part copied i ∧
      (∃ c ∈ unitCells text i copied.length, c ∈ hit) ∧
        ∃ c ∈ unitCells text i copied.length, c ∉ hit)

section Uncut

variable (hno : ¬ ScrubCuts text target policy reps part) (hsplit : reps = done ++ item :: rest)
  {hit : List Cell} (hhit : Literal.Hit Cell.char item.1
    (scrubCells (plaintext text target) policy done (keptCells text part)) hit)
include hno hsplit hhit

theorem kept_of_not_cuts {c : Cell} (hc : c ∈ hit) (hkept : c.Kept) : ∀ d ∈ hit, d.Kept := by
  by_contra hmixed
  push Not at hmixed
  exact hno ⟨done, item, rest, hsplit, hit, hhit, Or.inl ⟨⟨c, hc, hkept⟩, hmixed⟩⟩

theorem whole_of_not_cuts {copied : Text} {i : ℕ} (hcopy : CopyIn text reps part copied i)
    {c : Cell} (hc : c ∈ unitCells text i copied.length) (hchit : c ∈ hit) :
    ∀ d ∈ unitCells text i copied.length, d ∈ hit := by
  by_contra hpart
  push Not at hpart
  exact hno ⟨done, item, rest, hsplit, hit, hhit, Or.inr ⟨copied, i, hcopy, ⟨c, hc, hchit⟩, hpart⟩⟩

end Uncut

/-- A copy in the stretch meets a replacement. -/
theorem CopyIn.exists_hit {copied : Text} {i : ℕ} (h : CopyIn text reps part copied i)
    (hscrub : Scrubs (plaintext text target) policy reps) :
    ∃ done item rest, reps = done ++ item :: rest ∧ ∃ hit,
      Literal.Hit Cell.char item.1
        (scrubCells (plaintext text target) policy done (keptCells text part)) hit ∧
      ∃ c ∈ unitCells text i copied.length, c ∈ hit := by
  by_contra hno
  push Not at hno
  have hstays := infix_scrubCells_of_unhit hscrub h.start_le h.le_stop hno
  obtain ⟨item, hitem, rfl⟩ := h.scrubbed
  exact not_infix_of_scrubbed hscrub hitem h.stands hstays

theorem CopyIn.mem_cells {copied : Text} {i : ℕ} (h : CopyIn text reps part copied i) {p : ℕ}
    (hi : i ≤ p) (hp : p < i + copied.length) :
    ∃ c ∈ unitCells text i copied.length, c.origin = .kept p := by
  have hlen := h.stands.le_length (by omega)
  exact ⟨⟨text[p], .kept p⟩, mem_unitCells.2 ⟨p, hi, hp, List.getElem?_eq_getElem _, rfl⟩, rfl⟩

theorem le_of_mem_unitCells {c : Cell} {i p length : ℕ} (hc : c ∈ unitCells text i length)
    (ho : c.origin = .kept p) : i ≤ p ∧ p < i + length := by
  obtain ⟨q, hq, hq', _, ho'⟩ := mem_unitCells.1 hc
  obtain rfl := Origin.kept.inj (ho.symm.trans ho')
  exact ⟨hq, hq'⟩

/-- Copies in one place that hold each other are one. -/
theorem CopyIn.eq_of_subset {copied other : Text} {i j : ℕ} (h : CopyIn text reps part copied i)
    (h' : CopyIn text reps part other j) (hlen : 0 < copied.length)
    (hle : other.length ≤ copied.length)
    (hsub : ∀ c ∈ unitCells text i copied.length, c ∈ unitCells text j other.length) :
    other = copied ∧ j = i := by
  obtain ⟨c, hc, ho⟩ := h.mem_cells le_rfl (by omega)
  obtain ⟨d, hd, ho'⟩ := h.mem_cells (p := i + copied.length - 1) (by omega) (by omega)
  have hfirst := le_of_mem_unitCells (hsub c hc) ho
  have hlast := le_of_mem_unitCells (hsub d hd) ho'
  obtain rfl : j = i := by omega
  have hlength : other.length = copied.length := by omega
  refine ⟨?_, rfl⟩
  rw [← h'.stands.slice_eq, ← h.stands.slice_eq, hlength]

/-- Where nothing is cut, the longest copy that holds a place goes as a whole. -/
theorem goesWhole_of_not_cuts (hscrub : Scrubs (plaintext text target) policy reps)
    (hno : ¬ ScrubCuts text target policy reps part) {copied : Text} {i p : ℕ}
    (hcopy : CopyIn text reps part copied i) (hi : i ≤ p) (hp : p < i + copied.length)
    (hlongest : ∀ other j, CopyIn text reps part other j → j ≤ p → p < j + other.length →
      other.length ≤ copied.length) :
    GoesWhole text target policy reps part copied i where
  toCopyIn := hcopy
  foremost := by
    intro other j hother hij hji hle
    obtain ⟨done, item, rest, hsplit, hit, hhit, c, hc, hchit⟩ := hcopy.exists_hit hscrub
    have hitem : item ∈ reps := hsplit ▸ List.mem_append_right _ List.mem_cons_self
    have hkept := kept_of_not_cuts hno hsplit hhit hchit (kept_of_mem_unitCells hc)
    have hall := whole_of_not_cuts hno hsplit hhit hcopy hc hchit
    obtain ⟨k, hk, rfl⟩ := copyIn_of_hit ((hsplit ▸ hscrub).of_append) hitem
      (hscrub item hitem).1 hhit hkept
    -- the replacement holds the place too, so it is of the copy itself
    obtain ⟨d, hd, ho⟩ := hcopy.mem_cells hi hp
    obtain ⟨hkp, hpk⟩ := le_of_mem_unitCells (hall d hd) ho
    obtain ⟨htext, rfl⟩ := hcopy.eq_of_subset hk (by omega) (hlongest _ k hk hkp hpk) hall
    obtain ⟨d, hd, ho⟩ := hother.mem_cells (p := max k j) (by omega) (by omega)
    have hdhit : d ∈ unitCells text k item.1.length := by
      obtain ⟨q, hq, hq', hget, ho'⟩ := mem_unitCells.1 hd
      obtain rfl := Origin.kept.inj (ho.symm.trans ho')
      exact mem_unitCells.2 ⟨_, by omega, by rw [htext]; omega, hget, ho'⟩
    have hsub := whole_of_not_cuts hno hsplit hhit hother hd hdhit
    obtain ⟨htext', hkj⟩ := hother.eq_of_subset hk (by omega) (by rw [htext]; omega) hsub
    exact ⟨htext'.symm.trans htext, hkj.symm⟩
  spared := by
    rintro done item rest hsplit hit hhit ⟨d, hd, hmask⟩
    refine Or.inr fun c hc hchit => hmask ?_
    exact kept_of_not_cuts hno hsplit hhit hchit (kept_of_mem_unitCells hc) d hd

/-- Of the copies that hold a place one is the longest. -/
theorem CopyIn.exists_longest {copied : Text} {i p : ℕ} (h : CopyIn text reps part copied i)
    (hi : i ≤ p) (hp : p < i + copied.length) :
    ∃ longest j, CopyIn text reps part longest j ∧ j ≤ p ∧ p < j + longest.length ∧
      ∀ other k, CopyIn text reps part other k → k ≤ p → p < k + other.length →
        other.length ≤ longest.length := by
  classical
  let Holds : ℕ → Prop := fun n => ∃ other j, CopyIn text reps part other j ∧ j ≤ p ∧
    p < j + other.length ∧ other.length = n
  have hbound : ∀ n, Holds n → n ≤ part.stop := by
    rintro n ⟨other, j, hother, -, -, rfl⟩
    have := hother.le_stop
    omega
  have hholds : Holds copied.length := ⟨copied, i, h, hi, hp, rfl⟩
  obtain ⟨longest, j, hcopy, hj, hpj, hlen⟩ :=
    Nat.findGreatest_spec (P := Holds) (hbound _ hholds) hholds
  refine ⟨longest, j, hcopy, hj, hpj, fun other k hother hk hpk => ?_⟩
  have hother : Holds other.length := ⟨other, k, hother, hk, hpk, rfl⟩
  rw [hlen]
  exact Nat.le_findGreatest (hbound _ hother) hother

/-- Where nothing is cut, each place of a copy lies in a copy that goes as a whole. -/
theorem exists_goesWhole_of_not_cuts (hscrub : Scrubs (plaintext text target) policy reps)
    (hno : ¬ ScrubCuts text target policy reps part) {copied : Text} {i p : ℕ}
    (hcopy : CopyIn text reps part copied i) (hi : i ≤ p) (hp : p < i + copied.length) :
    ∃ copied k, GoesWhole text target policy reps part copied k ∧
      k ≤ p ∧ p < k + copied.length := by
  obtain ⟨longest, j, hlongest, hj, hpj, hgreatest⟩ := hcopy.exists_longest hi hp
  exact ⟨longest, j, goesWhole_of_not_cuts hscrub hno hlongest hj hpj hgreatest, hj, hpj⟩

/-- Where nothing is cut, what no copy that goes as a whole meets is left as it was. -/
theorem infix_scrubCells_of_not_cuts (hscrub : Scrubs (plaintext text target) policy reps)
    (hno : ¬ ScrubCuts text target policy reps part) {i j : ℕ} (hstart : part.start ≤ i)
    (hij : i ≤ j) (hstop : j ≤ part.stop)
    (hleft : ∀ copied k, GoesWhole text target policy reps part copied k → j ≤ k ∨
      k + copied.length ≤ i) :
    unitCells text i (j - i) <:+:
      scrubCells (plaintext text target) policy reps (keptCells text part) := by
  apply infix_scrubCells_of_unhit hscrub hstart (by omega)
  intro done item rest hsplit hit hhit c hc hchit
  have hitem : item ∈ reps := hsplit ▸ List.mem_append_right _ List.mem_cons_self
  have hkept := kept_of_not_cuts hno hsplit hhit hchit (kept_of_mem_unitCells hc)
  obtain ⟨k, hk, rfl⟩ := copyIn_of_hit ((hsplit ▸ hscrub).of_append) hitem
    (hscrub item hitem).1 hhit hkept
  obtain ⟨p, hp, hp', _, ho⟩ := mem_unitCells.1 hc
  obtain ⟨hkp, hpk⟩ := le_of_mem_unitCells hchit ho
  obtain ⟨copied, l, hgoes, hl, hl'⟩ := exists_goesWhole_of_not_cuts hscrub hno hk hkp hpk
  rcases hleft copied l hgoes with h | h <;> omega

theorem not_mixed {hit : List Cell}
    (h : Literal.Hit Cell.char item.1
      (scrubCells (plaintext text target) policy [] (keptCells text part)) hit) :
    ¬ ∃ c ∈ hit, ¬ c.Kept := by
  rintro ⟨c, hc, hnot⟩
  have hmem := h.subsegment.subset hc
  rw [scrubCells, List.foldl_nil, keptCells_eq] at hmem
  exact hnot (kept_of_mem_unitCells hmem)

theorem goesWhole_of_first {first : Text × Text} {i : ℕ}
    (hscrub : Scrubs (plaintext text target) policy (first :: reps))
    (hcopy : CopyIn text (first :: reps) part first.1 i)
    (hforemost : ∀ other j, CopyIn text (first :: reps) part other j → i < j + other.length →
      j < i + first.1.length → first.1.length ≤ other.length → other = first.1 ∧ j = i) :
    GoesWhole text target policy (first :: reps) part first.1 i where
  toCopyIn := hcopy
  foremost := hforemost
  spared := by
    have halone : GoesWhole text target policy [first] part first.1 i :=
      { scrubbed := ⟨first, List.mem_singleton_self _, rfl⟩
        stands := hcopy.stands
        start_le := hcopy.start_le
        le_stop := hcopy.le_stop
        foremost := by
          rintro other j ⟨⟨item, hitem, htext⟩, hat, hj, hj'⟩
          obtain rfl := List.mem_singleton.1 hitem
          exact hforemost other j ⟨⟨item, List.mem_cons_self, htext⟩, hat, hj, hj'⟩
        spared := by
          intro done item rest hsplit hit hhit hmixed
          cases done with
          | nil => exact absurd hmixed (not_mixed hhit)
          | cons d done => simp at hsplit }
    have hfirst : Scrubs (plaintext text target) policy [first] :=
      fun item hitem => hscrub item (List.mem_singleton.1 hitem ▸ List.mem_cons_self)
    intro done item rest hsplit hit hhit hmixed
    cases done with
    | nil => exact absurd hmixed (not_mixed hhit)
    | cons d done =>
        obtain ⟨rfl, rfl⟩ := List.cons.inj hsplit
        refine Or.inr fun c hc hmem => ?_
        have hdone : Scrubs (plaintext text target) policy done := fun item hitem =>
          hscrub item (List.mem_cons_of_mem _ (List.mem_append_left _ hitem))
        have hcell : c ∈ scrubCells (plaintext text target) policy done
            (scrubCells (plaintext text target) policy [first] (keptCells text part)) :=
          hhit.subsegment.subset hmem
        rcases mem_scrubCells hcell hdone with h | h
        · exact halone.gone hfirst (List.pairwise_singleton _ _) c hc h
        · obtain ⟨_, _, hmask⟩ := h
          exact not_context_of_mem_maskCells hmask (kept_of_mem_unitCells hc).context

end Scrub

theorem finalReplacements_sorted (order : WalkOrder) (text : Text) (target : Span text.length)
    (policy : RedactionPolicy) (otherSpans : List (Span text.length)) :
    (finalReplacements order text target policy otherSpans).Pairwise
      fun a b => b.1.length ≤ a.1.length := by
  have : Std.Total (fun a b : Text × Text => b.1.length ≤ a.1.length) := ⟨fun _ _ => le_total _ _⟩
  have : IsTrans (Text × Text) (fun a b => b.1.length ≤ a.1.length) :=
    ⟨fun _ _ _ h h' => h'.trans h⟩
  exact (List.pairwise_insertionSort _ _).filter _

theorem snippet_eq_of_ok {snippet : Text}
    (h : redactSnippet order text target policy otherSpans = .ok snippet) :
    snippet = ((snippetCells order text target policy otherSpans).take maxSnippetChars).map
      Cell.char := by
  rw [redactSnippet_eq] at h
  cases hassert : assertNoPlaintext
      ((snippetCells order text target policy otherSpans).map Cell.char)
      (secretsOf order text target otherSpans) with
  | error e =>
      rw [hassert] at h
      cases h
  | ok _ =>
      rw [hassert] at h
      rw [List.map_take]
      exact (Except.ok.inj h).symm

/-- In every stretch that is emitted as context, each position inside a copy of a matched text
lies in a copy that goes as a whole. -/
def ScrubsWhole (order : WalkOrder) (text : Text) (target : Span text.length)
    (policy : RedactionPolicy) (otherSpans : List (Span text.length)) : Prop :=
  ∀ part, Part.context part ∈ finalLayout order text target policy otherSpans →
    ∀ secret ∈ secretsOf order text target otherSpans, ∀ i p, InCopy text secret i p →
      part.Holds p → ∃ copied k, GoesWhole text target policy
        (finalReplacements order text target policy otherSpans) part copied k ∧
        k ≤ p ∧ p < k + copied.length

/-- Where each position of a copy that is emitted lies in a copy that goes as a whole, context
comes from outside every copy of a secret. -/
theorem snippet_outside (order : WalkOrder) (text : Text) (target : Span text.length)
    (policy : RedactionPolicy) (otherSpans : List (Span text.length))
    (hwhole : ScrubsWhole order text target policy otherSpans)
    {snippet : Text} (h : redactSnippet order text target policy otherSpans = .ok snippet) :
    snippet = ((snippetCells order text target policy otherSpans).take maxSnippetChars).map
      Cell.char ∧
    ∀ cell ∈ (snippetCells order text target policy otherSpans).take maxSnippetChars,
      cell.Honest text target policy ∧
        cell.Outside text (secretsOf order text target otherSpans) := by
  refine ⟨snippet_eq_of_ok h, ?_⟩
  intro cell hcell
  have hscrub := scrubs_final order text target policy otherSpans
  rcases mem_snippetCells (List.mem_of_mem_take hcell) with
    ⟨hhonest, hnot⟩ | ⟨part, hpart, b, hb, hfrom⟩
  · exact ⟨hhonest, fun i hi => absurd ⟨i, hi⟩ hnot⟩
  · have hhonest := honest_scrubCells hscrub hb
    constructor
    · rcases hfrom with rfl | ⟨rfl, hspace⟩
      · exact hhonest
      · exact hhonest.collapsed hspace
    · intro i hi secret hsecret j hcopy
      -- the cell was kept by the scrub, so it belongs to the stretch
      have hbi : b.Context := by
        rcases hfrom with rfl | ⟨rfl, _⟩
        · exact ⟨i, hi⟩
        · exact Cell.context_of_collapsed ⟨i, hi⟩
      have hunit : b ∈ unitCells text part.start (part.stop - part.start) := by
        rw [← keptCells_eq]
        refine (mem_scrubCells hb hscrub).resolve_right fun ⟨_, _, hm⟩ => ?_
        exact not_context_of_mem_maskCells hm hbi
      obtain ⟨p, hp, hp', hget, ho⟩ := mem_unitCells.1 hunit
      have hpi : p = i := by
        rcases hfrom with rfl | ⟨rfl, _⟩
        · rw [ho] at hi
          exact hi.elim Origin.kept.inj fun h => by cases h
        · simp only [Cell.collapsed, ho, reduceCtorEq, false_or, Origin.blank.injEq] at hi
          exact hi
      subst hpi
      obtain ⟨copied, k, hgoes, hk, hk'⟩ :=
        hwhole part hpart secret hsecret j p hcopy ⟨hp, by omega⟩
      exact hgoes.gone hscrub (finalReplacements_sorted order text target policy otherSpans) b
        (mem_unitCells.2 ⟨p, hk, hk', hget, ho⟩) hb

theorem exists_cuts_of_not_scrubsWhole (order : WalkOrder) (text : Text)
    (target : Span text.length) (policy : RedactionPolicy) (otherSpans : List (Span text.length))
    (h : ¬ ScrubsWhole order text target policy otherSpans) :
    ∃ part, Part.context part ∈ finalLayout order text target policy otherSpans ∧
      ScrubCuts text target policy (finalReplacements order text target policy otherSpans)
        part := by
  by_contra hno
  push Not at hno
  refine h fun part hpart secret hsecret i p hcopy hp => ?_
  have hspec := (maskPlan_eq_final order text target policy otherSpans).2
  obtain ⟨hstart, hstop⟩ := hspec.inside (clip_unclipped text (contextWindow target policy) _) hpart
    hsecret hcopy hp
  obtain ⟨item, hitem, hkey⟩ : ∃ item ∈ finalReplacements order text target policy otherSpans,
      item.1 = secret.1 := exists_replacement hsecret
  exact exists_goesWhole_of_not_cuts (scrubs_final order text target policy otherSpans)
    (hno part hpart) ⟨⟨item, hitem, hkey⟩, hcopy.1, hstart, hstop⟩ hcopy.2.1 hcopy.2.2

/-- The law of positions: every character of a returned snippet is what its cell says, and one
that shows context comes from outside every copy of a secret. It holds where each position of
a copy that is emitted lies in a copy that goes as a whole; where one does not, the scrub cuts
a copy or a mask. -/
theorem position_law (order : WalkOrder) (text : Text) (target : Span text.length)
    (policy : RedactionPolicy) (otherSpans : List (Span text.length)) :
    (ScrubsWhole order text target policy otherSpans → ∀ snippet,
      redactSnippet order text target policy otherSpans = .ok snippet →
      snippet = ((snippetCells order text target policy otherSpans).take maxSnippetChars).map
        Cell.char ∧
      ∀ cell ∈ (snippetCells order text target policy otherSpans).take maxSnippetChars,
        cell.Honest text target policy ∧
          cell.Outside text (secretsOf order text target otherSpans)) ∧
    (¬ ScrubsWhole order text target policy otherSpans →
      ∃ part, Part.context part ∈ finalLayout order text target policy otherSpans ∧
        ScrubCuts text target policy (finalReplacements order text target policy otherSpans)
          part) :=
  ⟨fun hwhole _ h => snippet_outside order text target policy otherSpans hwhole h,
    exists_cuts_of_not_scrubsWhole order text target policy otherSpans⟩

/-! Copies of two texts that cut into each other, inside a copy of a longer one. -/

section Nested

def nestedText : Text := "abcd abcd".toList

def nestedTarget : Span nestedText.length := ⟨0, 4, by decide, by decide +kernel⟩

def nestedOthers : List (Span nestedText.length) :=
  [⟨0, 3, by decide, by decide +kernel⟩, ⟨1, 4, by decide, by decide +kernel⟩]

def nestedStretch : Span nestedText.length := ⟨4, 9, by decide, by decide +kernel⟩

theorem nested_replacements : finalReplacements .listed nestedText nestedTarget {} nestedOthers =
    [("abcd".toList, "[4 chars redacted]".toList), ("abc".toList, "[3 chars redacted]".toList),
      ("bcd".toList, "[3 chars redacted]".toList)] := by decide +kernel

theorem nested_goesWhole : GoesWhole nestedText nestedTarget {}
    (finalReplacements .listed nestedText nestedTarget {} nestedOthers) nestedStretch
    "abcd".toList 5 := by
  have hscrub := scrubs_final .listed nestedText nestedTarget {} nestedOthers
  rw [nested_replacements] at hscrub ⊢
  refine goesWhole_of_first hscrub ⟨⟨_, List.mem_cons_self, rfl⟩, by decide +kernel, by decide,
    by decide⟩ ?_
  rintro other j ⟨⟨item, hitem, rfl⟩, hat, hj, hj'⟩ _ _ hlong
  have hplace : Literal.At nestedText "abcd".toList j → 4 ≤ j → j + 4 ≤ 9 → j = 5 := by
    intro hat hj hj'
    obtain rfl | rfl : j = 4 ∨ j = 5 := by omega
    · revert hat
      decide +kernel
    · rfl
  simp only [List.mem_cons, List.not_mem_nil, or_false] at hitem
  rcases hitem with rfl | rfl | rfl
  · exact ⟨rfl, hplace hat hj hj'⟩
  · exact absurd hlong (by decide)
  · exact absurd hlong (by decide)

theorem position_law_of_nested_copies :
    ∃ snippet, redactSnippet .listed nestedText nestedTarget {} nestedOthers = .ok snippet ∧
      snippet = ((snippetCells .listed nestedText nestedTarget {} nestedOthers).take
        maxSnippetChars).map Cell.char ∧
      ∀ cell ∈ (snippetCells .listed nestedText nestedTarget {} nestedOthers).take
          maxSnippetChars,
        cell.Honest nestedText nestedTarget {} ∧
          cell.Outside nestedText (secretsOf .listed nestedText nestedTarget nestedOthers) := by
  have hlayout : finalLayout .listed nestedText nestedTarget {} nestedOthers =
      [.mask "[4 chars redacted]".toList, .context nestedStretch] := by decide +kernel
  have hspace : (secretsOf .listed nestedText nestedTarget nestedOthers).all fun secret =>
      (List.range 5).all fun i =>
        !decide (Literal.At nestedText secret.1 i ∧ 4 < i + secret.1.length) := by decide +kernel
  have hrun : (redactSnippet .listed nestedText nestedTarget {} nestedOthers).isOk := by
    decide +kernel
  obtain ⟨snippet, h⟩ := exists_of_isOk hrun
  refine ⟨snippet, h,
    (position_law .listed nestedText nestedTarget {} nestedOthers).1 ?_ snippet h⟩
  intro part hpart secret hsecret i p hcopy hp
  rw [hlayout] at hpart
  obtain rfl : part = nestedStretch := by simpa using hpart
  obtain ⟨hp4, hp9⟩ : 4 ≤ p ∧ p < 9 := hp
  -- the blank between the two copies belongs to none
  have hp5 : p ≠ 4 := by
    rintro rfl
    have hnot := List.all_eq_true.1 (List.all_eq_true.1 hspace secret hsecret) i
      (List.mem_range.2 (by have := hcopy.2.1; omega))
    simp [hcopy.1, hcopy.2.2] at hnot
  exact ⟨_, 5, nested_goesWhole, by omega, by simp; omega⟩

end Nested

/-! Two matches, and a text in which their copies cut into each other. -/

def crossedText : Text := "abc bcd abcd".toList

def crossedTarget : Span crossedText.length := ⟨0, 3, by decide, by decide +kernel⟩

def crossedOther : Span crossedText.length := ⟨4, 7, by decide, by decide +kernel⟩

theorem position_law_can_fail :
    ∃ snippet, redactSnippet .listed crossedText crossedTarget {} [crossedOther] = .ok snippet ∧
      ¬ ∀ cell ∈ (snippetCells .listed crossedText crossedTarget {} [crossedOther]).take
          maxSnippetChars,
        cell.Honest crossedText crossedTarget {} ∧
          cell.Outside crossedText
            (secretsOf .listed crossedText crossedTarget [crossedOther]) := by
  refine ⟨"[3 chars redacted] [3 chars redacted] [3 chars redacted]d".toList, by decide +kernel, ?_⟩
  intro h
  have hcell : (⟨'d', .kept 11⟩ : Cell) ∈
      (snippetCells .listed crossedText crossedTarget {} [crossedOther]).take maxSnippetChars := by
    decide +kernel
  have hsecret : (⟨"bcd".toList, by decide +kernel⟩ : Secret) ∈
      secretsOf .listed crossedText crossedTarget [crossedOther] := by decide +kernel
  refine (h _ hcell).2 11 (Or.inl rfl) _ hsecret 9 ⟨?_, by decide, by decide +kernel⟩
  decide +kernel

end IcebergSST.Redaction

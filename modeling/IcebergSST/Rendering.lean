import IcebergSST.Masking

/-!
# Where the characters of a snippet come from

The snippet is rendered a second time, in cells that carry, beside the character, what it
came from: a place of the unit, a run of whitespace, the target's own plaintext, or the
redactor's wording. Reading the cells gives the snippet back, so what is proved of the cells
is said of the snippet.
-/

namespace IcebergSST.Redaction

/-- A kept character comes from a place of the unit, and so does the space that stands for a
run of whitespace there; a revealed one from a place of the target's plaintext. -/
inductive Origin
  | kept (pos : ℕ)
  | blank (pos : ℕ)
  | revealed (pos : ℕ)
  | wording
  deriving DecidableEq, Repr

structure Cell where
  char : Char
  origin : Origin
  deriving DecidableEq, Repr

def Cell.Kept (cell : Cell) : Prop := ∃ i, cell.origin = .kept i

instance (cell : Cell) : Decidable cell.Kept :=
  match h : cell.origin with
  | .kept i => isTrue ⟨i, h⟩
  | .blank _ | .revealed _ | .wording => isFalse fun ⟨_, hi⟩ => by rw [h] at hi; cases hi

def Cell.Context (cell : Cell) : Prop := ∃ i, cell.origin = .kept i ∨ cell.origin = .blank i

def wordingCell (c : Char) : Cell := ⟨c, .wording⟩

def numbered (origin : ℕ → Origin) (start : ℕ) (text : Text) : List Cell :=
  (text.zipIdx start).map fun item => ⟨item.1, origin item.2⟩

def keptCells (text : Text) (part : Span text.length) : List Cell :=
  numbered .kept part.start (plaintext text part).1

def targetCells (secret : Plaintext) (policy : RedactionPolicy) : List Cell :=
  let revealed := revealableLength secret.1.length policy
  let hidden := secret.1.length - revealed
  let mark := (marker hidden).map wordingCell
  if revealed = 0 then mark
  else if policy.strategy = .keepSuffix then
    mark ++ wordingCell ellipsis :: numbered .revealed hidden (secret.1.drop hidden)
  else numbered .revealed 0 (secret.1.take revealed) ++ wordingCell ellipsis :: mark

/-- Only the target's own mask reveals anything. -/
def maskCells (secret : Plaintext) (policy : RedactionPolicy) (mask : Text) : List Cell :=
  if mask = maskSecret secret policy then targetCells secret policy else mask.map wordingCell

def Cell.collapsed (cell : Cell) : Cell where
  char := ' '
  origin :=
    match cell.origin with
    | .kept i | .blank i => .blank i
    | .revealed i => .revealed i
    | .wording => .wording

def spaceAhead (cells : List Cell) : Bool := cells.head?.any fun cell => isSpace cell.char

/-- A run that is one space already stays as it is. -/
def collapseCells : Bool → List Cell → List Cell
  | _, [] => []
  | inRun, cell :: cells =>
    if isSpace cell.char then
      if inRun then collapseCells true cells
      else if cell.char = ' ' ∧ spaceAhead cells = false then cell :: collapseCells true cells
      else cell.collapsed :: collapseCells true cells
    else cell :: collapseCells false cells

def scrubCells (secret : Plaintext) (policy : RedactionPolicy) (replacements : Replacements)
    (cells : List Cell) : List Cell :=
  replacements.foldl (fun cells item =>
    Literal.replace Cell.char item.1 (maskCells secret policy item.2) cells) cells

def contextCells (text : Text) (target : Span text.length) (policy : RedactionPolicy)
    (replacements : Replacements) (part : Span text.length) : List Cell :=
  collapseCells false
    (scrubCells (plaintext text target) policy replacements (keptCells text part))

def partCells (text : Text) (target : Span text.length) (policy : RedactionPolicy)
    (replacements : Replacements) : Part text.length → List Cell
  | .context part => contextCells text target policy replacements part
  | .mask mask => maskCells (plaintext text target) policy mask

@[simp] theorem map_char_numbered (origin : ℕ → Origin) (start : ℕ) (text : Text) :
    (numbered origin start text).map Cell.char = text := by
  rw [numbered, List.map_map]
  exact List.zipIdx_map_fst start text

@[simp] theorem map_char_wording (text : Text) : (text.map wordingCell).map Cell.char = text := by
  rw [List.map_map]
  exact List.map_id _

theorem map_char_targetCells (secret : Plaintext) (policy : RedactionPolicy) :
    (targetCells secret policy).map Cell.char = maskSecret secret policy := by
  rw [targetCells, maskSecret]
  split_ifs with hzero hsuffix
  · rw [map_char_wording]
  · rw [List.map_append, List.map_cons, map_char_wording, map_char_numbered]
    rfl
  · rw [List.map_append, List.map_cons, map_char_wording, map_char_numbered]
    rfl

theorem map_char_maskCells (secret : Plaintext) (policy : RedactionPolicy) (mask : Text) :
    (maskCells secret policy mask).map Cell.char = mask := by
  rw [maskCells]
  split_ifs with h
  · rw [map_char_targetCells, h]
  · rw [map_char_wording]

theorem map_char_collapseCells (inRun : Bool) (cells : List Cell) :
    (collapseCells inRun cells).map Cell.char =
      collapseWhitespace inRun (cells.map Cell.char) := by
  induction cells generalizing inRun with
  | nil => rfl
  | cons cell cells ih =>
      rw [collapseCells, List.map_cons, collapseWhitespace]
      split_ifs with hspace hrun hlone
      · exact ih true
      · rw [List.map_cons, ih, hlone.1]
      · rw [List.map_cons, ih]
        rfl
      · rw [List.map_cons, ih]

theorem map_char_scrubCells (secret : Plaintext) (policy : RedactionPolicy)
    (replacements : Replacements) (cells : List Cell) :
    (scrubCells secret policy replacements cells).map Cell.char =
      replacements.foldl (fun scrubbed item => Literal.replace id item.1 item.2 scrubbed)
        (cells.map Cell.char) := by
  induction replacements generalizing cells with
  | nil => rfl
  | cons item replacements ih =>
      rw [scrubCells, List.foldl_cons, List.foldl_cons]
      refine (ih _).trans ?_
      congr 1
      have hread : ∀ c : Cell, id c.char = c.char := fun _ => rfl
      refine (Literal.map_replaceFrom Cell.char hread 0 cells).trans ?_
      rw [map_char_maskCells]
      rfl

theorem map_char_partCells (text : Text) (target : Span text.length) (policy : RedactionPolicy)
    (replacements : Replacements) (part : Part text.length) :
    (partCells text target policy replacements part).map Cell.char =
      match part with
      | .context part => context (plaintext text part).1 replacements
      | .mask mask => mask := by
  cases part with
  | mask mask => exact map_char_maskCells _ _ mask
  | context part =>
      rw [partCells, contextCells, map_char_collapseCells, map_char_scrubCells, keptCells,
        map_char_numbered]
      rfl

theorem Cell.Kept.context {cell : Cell} (h : cell.Kept) : cell.Context :=
  h.imp fun _ => Or.inl

theorem Cell.context_of_collapsed {cell : Cell} (h : cell.collapsed.Context) : cell.Context := by
  obtain ⟨i, h⟩ := h
  cases ho : cell.origin with
  | kept j => exact ⟨j, Or.inl ho⟩
  | blank j => exact ⟨j, Or.inr ho⟩
  | revealed j => simp only [collapsed, ho, reduceCtorEq, or_self] at h
  | wording => simp only [collapsed, ho, reduceCtorEq, or_self] at h

theorem Cell.not_kept_collapsed (cell : Cell) : ¬ cell.collapsed.Kept := by
  rintro ⟨i, h⟩
  cases ho : cell.origin <;> simp only [collapsed, ho, reduceCtorEq] at h

theorem mem_numbered {origin : ℕ → Origin} {start : ℕ} {text : Text} {cell : Cell} :
    cell ∈ numbered origin start text ↔
      ∃ i, start ≤ i ∧ text[i - start]? = some cell.char ∧ cell.origin = origin i := by
  rw [numbered, List.mem_map]
  constructor
  · rintro ⟨⟨c, i⟩, hmem, rfl⟩
    obtain ⟨hle, hget⟩ := List.mk_mem_zipIdx_iff_le_and_getElem?_sub.1 hmem
    exact ⟨i, hle, hget, rfl⟩
  · rintro ⟨i, hle, hget, ho⟩
    refine ⟨(cell.char, i), List.mk_mem_zipIdx_iff_le_and_getElem?_sub.2 ⟨hle, hget⟩, ?_⟩
    rw [← ho]

variable {secret : Plaintext} {policy : RedactionPolicy} {mask : Text}

theorem not_context_of_mem_maskCells {cell : Cell} (h : cell ∈ maskCells secret policy mask) :
    ¬ cell.Context := by
  have hword : ∀ {l : Text}, cell ∈ l.map wordingCell → ¬ cell.Context := by
    rintro l hl ⟨i, hi⟩
    obtain ⟨c, _, rfl⟩ := List.mem_map.1 hl
    rcases hi with hi | hi <;> cases hi
  have hshown : ∀ {k : ℕ} {l : Text}, cell ∈ numbered .revealed k l → ¬ cell.Context := by
    rintro k l hl ⟨i, hi⟩
    obtain ⟨j, _, _, ho⟩ := mem_numbered.1 hl
    rw [ho] at hi
    rcases hi with hi | hi <;> cases hi
  rw [maskCells, targetCells] at h
  split_ifs at h
  · exact hword h
  · rcases List.mem_append.1 h with h | h
    · exact hword h
    · rcases List.mem_cons.1 h with h | h
      · exact hword (l := [ellipsis]) (List.mem_singleton.2 h)
      · exact hshown h
  · rcases List.mem_append.1 h with h | h
    · exact hshown h
    · rcases List.mem_cons.1 h with h | h
      · exact hword (l := [ellipsis]) (List.mem_singleton.2 h)
      · exact hword h
  · exact hword h

/-- The mask of the target, or the mask that reveals nothing of some text. -/
def IsMask (secret : Plaintext) (policy : RedactionPolicy) (mask : Text) : Prop :=
  mask = maskSecret secret policy ∨ ∃ other, mask = maskSecret other {}

theorem bracket_mem_maskCells (h : IsMask secret policy mask) :
    wordingCell '[' ∈ maskCells secret policy mask := by
  have hmark : ∀ k, wordingCell '[' ∈ (marker k).map wordingCell := fun k =>
    List.mem_map_of_mem List.mem_cons_self
  rw [maskCells, targetCells]
  split_ifs with hmask
  · exact hmark _
  · exact List.mem_append_left _ (hmark _)
  · exact List.mem_append_right _ (List.mem_cons_of_mem _ (hmark _))
  · rcases h with h | ⟨other, rfl⟩
    · exact absurd h hmask
    · exact hmark _

theorem Cell.Kept.ne_bracket {cell : Cell} (h : cell.Kept) : cell ≠ wordingCell '[' := by
  rintro rfl
  obtain ⟨i, hi⟩ := h
  cases hi

variable {replacements : Replacements} {cells seg : List Cell} {cell : Cell}

/-- What a scrub may put in, and in the place of what. -/
def Scrubs (secret : Plaintext) (policy : RedactionPolicy) (replacements : Replacements) : Prop :=
  ∀ item ∈ replacements, 1 < item.1.length ∧ IsMask secret policy item.2

/-- A stretch of the scrubbed cells that begins and ends with context and holds no bracket of
a mask stood there from the beginning, and is none of the texts scrubbed. -/
theorem infix_of_infix_scrubCells (hscrub : Scrubs secret policy replacements)
    (h : cell :: seg <:+: scrubCells secret policy replacements cells)
    (hbracket : wordingCell '[' ∉ cell :: seg) (hhead : cell.Kept)
    (hlast : ∀ c ∈ (cell :: seg).getLast?, c.Kept) :
    cell :: seg <:+: cells ∧ ∀ item ∈ replacements, (cell :: seg).map Cell.char ≠ item.1 := by
  induction replacements generalizing cells with
  | nil => exact ⟨h, fun _ hm => by cases hm⟩
  | cons item replacements ih =>
      obtain ⟨hlen, hmask⟩ := hscrub item List.mem_cons_self
      have hnot : ∀ {c : Cell}, c.Kept → c ∉ maskCells secret policy item.2 := fun hc hm =>
        not_context_of_mem_maskCells hm hc.context
      obtain ⟨hrest, hne⟩ := ih (fun it hit => hscrub it (List.mem_cons_of_mem _ hit)) h
      have hold : item.1 ≠ [] := List.ne_nil_of_length_pos (by omega)
      have hrw : Literal.Rewrites Cell.char item.1 (maskCells secret policy item.2) cells _ :=
        Literal.rewrites_replace hold cells
      obtain ⟨hseg, hcopy⟩ := hrw.infix_untouched (P := fun c => c ≠ wordingCell '[')
        ⟨_, bracket_mem_maskCells hmask, fun h => h rfl⟩ hrest
        (fun c hc heq => hbracket (heq ▸ hc)) (hnot hhead) fun c hc => hnot (hlast c hc)
      refine ⟨hseg, fun it hit => ?_⟩
      rcases List.mem_cons.1 hit with rfl | hit
      · exact hcopy
      · exact hne it hit

theorem collapseCells_of_not_spaceAhead (h : spaceAhead cells = false) :
    collapseCells true cells = collapseCells false cells := by
  cases cells with
  | nil => rfl
  | cons cell cells =>
      have hspace : isSpace cell.char = false := h
      rw [collapseCells, collapseCells, hspace]
      rfl

theorem prefix_of_prefix_collapseCells (h : seg <+: collapseCells false cells)
    (hkept : ∀ c ∈ seg, c.Kept) : seg <+: cells := by
  induction cells generalizing seg with
  | nil => exact h
  | cons b cells ih =>
      cases seg with
      | nil => exact List.nil_prefix
      | cons c seg =>
          have htail := fun d hd => hkept d (List.mem_cons_of_mem _ hd)
          rw [collapseCells] at h
          split_ifs at h with hspace hrun hlone
          · cases hrun
          · rw [collapseCells_of_not_spaceAhead hlone.2] at h
            obtain ⟨rfl, hrest⟩ := List.cons_prefix_cons.1 h
            exact List.cons_prefix_cons.2 ⟨rfl, ih hrest htail⟩
          · obtain ⟨rfl, _⟩ := List.cons_prefix_cons.1 h
            exact absurd (hkept _ List.mem_cons_self) (Cell.not_kept_collapsed b)
          · obtain ⟨rfl, hrest⟩ := List.cons_prefix_cons.1 h
            exact List.cons_prefix_cons.2 ⟨rfl, ih hrest htail⟩

/-- A cell is dropped from a run that is under way, or it begins what follows, whatever stood
in front. -/
theorem collapseCells_cons (inRun : Bool) (b : Cell) (cells : List Cell) :
    collapseCells inRun (b :: cells) = collapseCells true cells ∨
      ∃ x r, collapseCells inRun (b :: cells) = x :: collapseCells r cells ∧
        collapseCells false (b :: cells) = x :: collapseCells r cells := by
  cases hspace : isSpace b.char with
  | false =>
      refine Or.inr ⟨b, false, ?_, ?_⟩ <;> rw [collapseCells, hspace] <;> rfl
  | true =>
      cases inRun with
      | true =>
          refine Or.inl ?_
          rw [collapseCells, hspace]
          rfl
      | false =>
          have hout : ∃ x, collapseCells false (b :: cells) = x :: collapseCells true cells := by
            rw [collapseCells, hspace, if_pos rfl, if_neg Bool.false_ne_true]
            split_ifs with hlone
            · exact ⟨b, rfl⟩
            · exact ⟨b.collapsed, rfl⟩
          obtain ⟨x, hx⟩ := hout
          exact Or.inr ⟨x, true, hx, hx⟩

/-- Where nothing collapsed, nothing moved. -/
theorem infix_of_infix_collapseCells {inRun : Bool} (h : seg <:+: collapseCells inRun cells)
    (hkept : ∀ c ∈ seg, c.Kept) : seg <:+: cells := by
  induction cells generalizing inRun with
  | nil => exact h
  | cons b cells ih =>
      have hlater : ∀ {r}, seg <:+: collapseCells r cells → seg <:+: b :: cells := fun h =>
        (ih h).trans (List.suffix_cons _ _).isInfix
      rcases collapseCells_cons inRun b cells with hskip | ⟨x, r, hx, hfalse⟩
      · rw [hskip] at h
        exact hlater h
      · rw [hx] at h
        rcases List.infix_cons_iff.1 h with hp | hi
        · rw [← hfalse] at hp
          exact (prefix_of_prefix_collapseCells hp hkept).isInfix
        · exact hlater hi

/-- What a stretch of collapsed context was before its runs of whitespace collapsed: it ends,
and unless it was cut out of a run it begins, with context, and no mask lies in it whole. -/
structure Uncollapsed (inRun : Bool) (seg before : List Cell) : Prop where
  reads : collapseWhitespace inRun (before.map Cell.char) = seg.map Cell.char
  bracket : wordingCell '[' ∉ before
  last : ∀ c ∈ before.getLast?, c.Kept
  head : inRun = false → ∀ c ∈ before.head?, c.Kept

theorem isSpace_bracket : isSpace '[' = false := by decide +kernel

theorem uncollapsed_nil (inRun : Bool) : Uncollapsed inRun [] [] where
  reads := by cases inRun <;> rfl
  bracket := List.not_mem_nil
  last := fun _ hc => by cases hc
  head := fun _ _ hc => by cases hc

theorem exists_prefix_uncollapsed {inRun : Bool} (h : seg <+: collapseCells inRun cells)
    (hcontext : ∀ c ∈ seg, c.Context) (hraw : ∀ c ∈ cells, c.Context → c.Kept) :
    ∃ before, before <+: cells ∧ Uncollapsed inRun seg before := by
  induction cells generalizing inRun seg with
  | nil =>
      obtain rfl : seg = [] := List.prefix_nil.1 (by simpa only [collapseCells] using h)
      exact ⟨[], List.nil_prefix, uncollapsed_nil inRun⟩
  | cons b cells ih =>
      cases seg with
      | nil => exact ⟨[], List.nil_prefix, uncollapsed_nil inRun⟩
      | cons x seg =>
          have hraw' := fun c hc => hraw c (List.mem_cons_of_mem b hc)
          have hlastof : ∀ {before : List Cell}, (before = [] → b.Kept) →
              (∀ c ∈ before.getLast?, c.Kept) → ∀ c ∈ (b :: before).getLast?, c.Kept := by
            intro before hb hlast c hc
            cases before with
            | nil =>
                obtain rfl : b = c := Option.some.inj hc
                exact hb rfl
            | cons d before => exact hlast c (by rwa [List.getLast?_cons_cons] at hc)
          -- the cell itself stands at the head of the stretch, or the space it became
          have hbegin : ∀ {y : Cell} {r : Bool}, x :: seg <+: y :: collapseCells r cells →
              (y.Context → b.Context) → (∀ rest, collapseWhitespace inRun (b.char :: rest) =
                y.char :: collapseWhitespace r rest) →
              ∃ before, before <+: b :: cells ∧ Uncollapsed inRun (x :: seg) before := by
            intro y r hp hy hreads
            obtain ⟨rfl, hrest⟩ := List.cons_prefix_cons.1 hp
            have hk := hraw b List.mem_cons_self (hy (hcontext x List.mem_cons_self))
            obtain ⟨before, hbefore, hun⟩ :=
              ih hrest (fun c hc => hcontext c (List.mem_cons_of_mem x hc)) hraw'
            refine ⟨b :: before, List.cons_prefix_cons.2 ⟨rfl, hbefore⟩, ?_, fun hm => ?_,
              hlastof (fun _ => hk) hun.last, fun _ c hc => ?_⟩
            · rw [List.map_cons, hreads, hun.reads, List.map_cons]
            · exact (List.mem_cons.1 hm).elim hk.ne_bracket.symm hun.bracket
            · obtain rfl : b = c := Option.some.inj hc
              exact hk
          rw [collapseCells] at h
          split_ifs at h with hspace hrun hlone
          · obtain ⟨before, hp, hun⟩ := ih h hcontext hraw'
            refine ⟨b :: before, List.cons_prefix_cons.2 ⟨rfl, hp⟩, ?_, fun hm => ?_,
              hlastof ?_ hun.last, fun hf => ?_⟩
            · rw [List.map_cons, collapseWhitespace, if_pos hspace, if_pos hrun]
              exact hun.reads
            · rcases List.mem_cons.1 hm with rfl | hm
              · rw [show (wordingCell '[').char = '[' from rfl, isSpace_bracket] at hspace
                cases hspace
              · exact hun.bracket hm
            · rintro rfl
              cases hun.reads
            · rw [hrun] at hf
              cases hf
          · refine hbegin h id fun rest => ?_
            rw [collapseWhitespace, if_pos hspace, if_neg hrun, hlone.1]
          · refine hbegin h Cell.context_of_collapsed fun rest => ?_
            rw [collapseWhitespace, if_pos hspace, if_neg hrun]
            rfl
          · refine hbegin h id fun rest => ?_
            rw [collapseWhitespace, if_neg hspace]

theorem exists_infix_uncollapsed {inRun : Bool} (h : seg <:+: collapseCells inRun cells)
    (hcontext : ∀ c ∈ seg, c.Context) (hraw : ∀ c ∈ cells, c.Context → c.Kept) :
    ∃ before, before <:+: cells ∧ Uncollapsed false seg before := by
  induction cells generalizing inRun with
  | nil =>
      obtain rfl : seg = [] := List.infix_nil.1 (by simpa only [collapseCells] using h)
      exact ⟨[], List.nil_infix, uncollapsed_nil false⟩
  | cons b cells ih =>
      have hlater : ∀ {r}, seg <:+: collapseCells r cells →
          ∃ before, before <:+: b :: cells ∧ Uncollapsed false seg before := fun h => by
        obtain ⟨before, hb, hun⟩ := ih h fun c hc => hraw c (List.mem_cons_of_mem b hc)
        exact ⟨before, hb.trans (List.suffix_cons _ _).isInfix, hun⟩
      rcases collapseCells_cons inRun b cells with hskip | ⟨x, r, hx, hfalse⟩
      · rw [hskip] at h
        exact hlater h
      · rw [hx] at h
        rcases List.infix_cons_iff.1 h with hp | hi
        · rw [← hfalse] at hp
          obtain ⟨before, hb, hun⟩ := exists_prefix_uncollapsed hp hcontext hraw
          exact ⟨before, hb.isInfix, hun⟩
        · exact hlater hi

variable {text : Text}

theorem numbered_append (origin : ℕ → Origin) (start : ℕ) (l l' : Text) :
    numbered origin start (l ++ l') =
      numbered origin start l ++ numbered origin (start + l.length) l' := by
  rw [numbered, List.zipIdx_append, List.map_append]
  rfl

def unitCells (text : Text) (i length : ℕ) : List Cell :=
  numbered .kept i (Literal.slice text i (i + length))

@[simp] theorem map_char_unitCells (text : Text) (i length : ℕ) :
    (unitCells text i length).map Cell.char = Literal.slice text i (i + length) :=
  map_char_numbered _ _ _

theorem mem_unitCells {i length : ℕ} {cell : Cell} :
    cell ∈ unitCells text i length ↔
      ∃ p, i ≤ p ∧ p < i + length ∧ text[p]? = some cell.char ∧ cell.origin = .kept p := by
  rw [unitCells, mem_numbered]
  refine exists_congr fun p => and_congr_right fun hle => ?_
  by_cases hp : p < i + length
  · rw [Literal.getElem?_slice (by omega), Nat.add_sub_cancel' hle]
    exact ⟨fun h => ⟨hp, h⟩, fun h => h.2⟩
  · refine iff_of_false (fun h => ?_) fun h => hp h.1
    have hlen := (List.getElem?_eq_some_iff.1 h.1).1
    rw [Literal.slice, List.length_take] at hlen
    omega

theorem kept_of_mem_unitCells {i length : ℕ} (h : cell ∈ unitCells text i length) : cell.Kept := by
  obtain ⟨p, _, _, _, ho⟩ := mem_unitCells.1 h
  exact ⟨p, ho⟩

theorem keptCells_eq (part : Span text.length) :
    keptCells text part = unitCells text part.start (part.stop - part.start) := by
  rw [unitCells, Nat.add_sub_cancel' part.start_lt.le]
  rfl

/-- A stretch of the unit's cells is the cells of a stretch of the unit. -/
theorem infix_keptCells {part : Span text.length} (h : seg <:+: keptCells text part) :
    ∃ i, part.start ≤ i ∧ i + seg.length ≤ part.stop ∧ seg = unitCells text i seg.length := by
  obtain ⟨l, l', h⟩ := h
  have hread := congrArg (List.map Cell.char) h
  rw [keptCells, map_char_numbered, List.map_append, List.map_append] at hread
  have hlen := congrArg List.length hread
  have hlt := part.start_lt
  rw [plaintext, Literal.length_slice part.stop_le] at hlen
  simp only [List.length_append, List.length_map] at hlen
  rw [keptCells, ← hread, numbered_append, numbered_append] at h
  have hdiv := List.append_inj h (by simp only [List.length_append, numbered, List.length_map,
    List.length_zipIdx])
  have hseg := (List.append_inj hdiv.1 (by simp only [numbered, List.length_map,
    List.length_zipIdx])).2
  rw [List.length_map] at hseg
  refine ⟨part.start + l.length, by omega, by omega, ?_⟩
  have hslice : seg.map Cell.char = Literal.slice text (part.start + l.length)
      (part.start + l.length + seg.length) := by
    have hfit : part.start + (l.length + seg.length) ≤ part.stop := by omega
    rw [add_assoc, ← Literal.slice_slice hfit]
    change _ = Literal.slice (plaintext text part).1 _ _
    rw [← hread, Literal.slice, Nat.add_sub_cancel_left, List.append_assoc,
      List.drop_left' (List.length_map _), List.take_left' (List.length_map _)]
  rw [unitCells, ← hslice]
  exact hseg

theorem unitCells_infix_keptCells {part : Span text.length} {i length : ℕ}
    (hi : part.start ≤ i) (hstop : i + length ≤ part.stop) :
    unitCells text i length <:+: keptCells text part := by
  have hsplit : (plaintext text part).1 = Literal.slice text part.start i ++
      (Literal.slice text i (i + length) ++ Literal.slice text (i + length) part.stop) := by
    change Literal.slice text part.start part.stop = _
    rw [Literal.slice_append (by omega) (by omega), Literal.slice_append hi (by omega)]
  have hlen : (Literal.slice text part.start i).length = i - part.start :=
    Literal.length_slice (by have := part.stop_le; omega)
  rw [keptCells, hsplit, numbered_append, numbered_append, hlen, Nat.add_sub_cancel' hi]
  exact ⟨_, _, List.append_assoc _ _ _⟩

theorem keptCells_pairwise (part : Span text.length) :
    (keptCells text part).Pairwise fun a b => a.Kept → a ≠ b := by
  have hnum : ∀ (l : Text) (start : ℕ),
      (numbered .kept start l).Pairwise fun a b => a.Kept → a ≠ b := by
    intro l
    induction l with
    | nil => exact fun _ => List.Pairwise.nil
    | cons c l ih =>
        intro start
        refine List.pairwise_cons.2 ⟨fun b hb _ heq => ?_, ih (start + 1)⟩
        obtain ⟨i, hle, _, ho⟩ := mem_numbered.1 hb
        rw [← heq] at ho
        have := Origin.kept.inj ho
        omega
  exact hnum _ _

theorem mem_scrubCells (h : cell ∈ scrubCells secret policy replacements cells)
    (hscrub : Scrubs secret policy replacements) :
    cell ∈ cells ∨ ∃ item ∈ replacements, cell ∈ maskCells secret policy item.2 := by
  induction replacements generalizing cells with
  | nil => exact Or.inl h
  | cons item replacements ih =>
      obtain ⟨hlen, _⟩ := hscrub item List.mem_cons_self
      rcases ih h fun it hit => hscrub it (List.mem_cons_of_mem _ hit) with h | ⟨it, hit, h⟩
      · rcases (Literal.rewrites_replace (List.ne_nil_of_length_pos (by omega)) cells).mem h with
          h | h
        · exact Or.inl h
        · exact Or.inr ⟨item, List.mem_cons_self, h⟩
      · exact Or.inr ⟨it, List.mem_cons_of_mem _ hit, h⟩

theorem mem_collapseCells {inRun : Bool} (h : cell ∈ collapseCells inRun cells) :
    ∃ b ∈ cells, cell = b ∨ cell = b.collapsed ∧ isSpace b.char = true := by
  induction cells generalizing inRun with
  | nil => cases h
  | cons b cells ih =>
      have hlater : ∀ {r}, cell ∈ collapseCells r cells →
          ∃ b' ∈ b :: cells, cell = b' ∨ cell = b'.collapsed ∧ isSpace b'.char = true := fun h => by
        obtain ⟨b', hb', hcell⟩ := ih h
        exact ⟨b', List.mem_cons_of_mem _ hb', hcell⟩
      rw [collapseCells] at h
      split_ifs at h with hspace hrun hlone
      · exact hlater h
      · exact (List.mem_cons.1 h).elim (fun h => ⟨b, List.mem_cons_self, Or.inl h⟩) hlater
      · exact (List.mem_cons.1 h).elim (fun h => ⟨b, List.mem_cons_self, Or.inr ⟨h, hspace⟩⟩) hlater
      · exact (List.mem_cons.1 h).elim (fun h => ⟨b, List.mem_cons_self, Or.inl h⟩) hlater

end IcebergSST.Redaction

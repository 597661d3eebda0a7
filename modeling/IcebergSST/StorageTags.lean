import IcebergSST.StorageDocument
import IcebergSST.WikiCode

/-!
# The markup of a document in storage format

Each pass over the text is a pass over the segments: character data and placeholders have no
tag in them, so a match begins where a tag does. A pattern that takes a tag takes it whole; one
that drops an element goes on to a tag further down.
-/

namespace IcebergSST.Storage

open Scanning Squeeze

open Wiki (one upTo lazily one_eq_some placeholder mem_placeholder notMem_placeholder held number)

variable {tables : Tables} {s rest : PyStr} {items : List Item}

theorem exactly_eq_some {l : PyStr} : exactly l s = some rest ↔ s = l ++ rest := by
  rw [exactly]
  constructor
  · intro h
    split_ifs at h with hl
    rw [← Option.some.inj h]
    conv_lhs => rw [← List.take_append_drop l.length s, hl]
  · rintro rfl
    rw [if_pos (List.take_left' rfl), List.drop_left' rfl]

/-- A part in which the end of a lazy repetition matches nowhere. -/
theorem lazily_append {stop : PyStr → Option PyStr} {x more : PyStr}
    (h : ∀ u d v, x = u ++ d :: v → stop (d :: (v ++ more)) = none) (most : ℕ) :
    lazily stop most (x ++ more) =
      if most < x.length then none
      else (lazily stop (most - x.length) more).map fun found => (x ++ found.1, found.2) := by
  induction x generalizing most with
  | nil =>
      rw [List.nil_append, List.length_nil, if_neg (Nat.not_lt_zero _), Nat.sub_zero]
      exact (congrFun Option.map_id _).symm
  | cons c x ih =>
      have hfirst : stop (c :: (x ++ more)) = none := h [] c x rfl
      have hx : ∀ u d v, x = u ++ d :: v → stop (d :: (v ++ more)) = none := by
        rintro u d v rfl
        exact h (c :: u) d v rfl
      rw [List.cons_append, lazily, hfirst]
      rcases Nat.eq_zero_or_pos most with rfl | hpos
      · simp
      · have hsub : most - 1 - x.length = most - (x.length + 1) := by omega
        have hlt : most - 1 < x.length ↔ most < x.length + 1 := by omega
        simp only [ih hx, if_neg hpos.ne', List.length_cons, hlt, hsub]
        split_ifs
        · rfl
        · rw [Option.map_map]
          rfl

theorem takeWhile_append_cons {p : ℕ → Bool} {d : ℕ} (hd : p d = false) (x s : PyStr) :
    (x ++ d :: s).takeWhile p = x.takeWhile p := by
  induction x with
  | nil => simp [hd]
  | cons c x ih =>
      rw [List.cons_append, List.takeWhile_cons, List.takeWhile_cons, ih]

theorem dropWhile_append_cons {p : ℕ → Bool} {d : ℕ} (hd : p d = false) (x s : PyStr) :
    (x ++ d :: s).dropWhile p = x.dropWhile p ++ d :: s := by
  induction x with
  | nil => simp [hd]
  | cons c x ih =>
      rw [List.cons_append, List.dropWhile_cons, List.dropWhile_cons, ih]
      split_ifs <;> rfl

/-- A pattern that only matches where there is `<`. -/
def OpensTag {β : Type} (m : Pattern ℕ β) : Prop :=
  ∀ prev c s, c ≠ 0x3c → m prev (c :: s) = none

variable {β : Type} {m : Pattern ℕ β}

theorem OpensTag.idle (h : OpensTag m) {x : PyStr} (hx : 0x3c ∉ x) (prev : Option ℕ)
    {u v : PyStr} {d : ℕ} (hd : x = u ++ d :: v) (s : PyStr) : m prev (d :: (v ++ s)) = none :=
  h prev d _ fun hopen => hx (by rw [hd, ← hopen]; simp)

theorem OpensTag.scans (h : OpensTag m) {x : PyStr} (hx : 0x3c ∉ x) : Scans m x (x.map .inl) :=
  scans_of_idle fun prev _ _ _ s hd => h.idle hx prev hd s

/-- In a tag a match begins at its front or not at all. -/
theorem OpensTag.idle_tag (h : OpensTag m) (prev : Option ℕ) {s : PyStr}
    (hfront : m prev (tagText items ++ s) = none) {u v : PyStr} {d : ℕ}
    (hd : tagText items = u ++ d :: v) : m prev (d :: (v ++ s)) = none := by
  rcases u with _ | ⟨c, u⟩
  · obtain ⟨rfl, rfl⟩ := List.cons.inj hd
    exact hfront
  · obtain ⟨-, hinner⟩ := List.cons.inj hd
    refine h.idle (x := rawText items ++ [0x3e]) ?_ prev hinner s
    intro hmem
    rcases List.mem_append.1 hmem with hmem | hmem
    · exact (mem_rawText hmem).1 rfl
    · exact absurd (List.mem_singleton.1 hmem) (by decide)

theorem notMem_rawText : 0x3c ∉ rawText items := fun h => (mem_rawText h).1 rfl

theorem pyStr_cdataStart :
    pyStr "<![CDATA[" = [0x3c, 0x21, 0x5b, 0x43, 0x44, 0x41, 0x54, 0x41, 0x5b] := by decide

theorem pyStr_cdataEnd : pyStr "]]>" = [0x5d, 0x5d, 0x3e] := by decide

theorem exactly_eq_none {l : PyStr} (h : ∀ rest, s ≠ l ++ rest) : exactly l s = none :=
  Option.eq_none_iff_forall_ne_some.2 fun rest hrest => h rest (exactly_eq_some.1 hrest)

theorem opensTag_cdata : OpensTag cdata := by
  intro prev c s hc
  have hnone : exactly (pyStr "<![CDATA[") (c :: s) = none := by
    refine exactly_eq_none fun rest hrest => hc ?_
    rw [pyStr_cdataStart] at hrest
    exact (List.cons.inj hrest).1
  rw [cdata, hnone]
  rfl

theorem cdata_tag (hopens : (rawText items).head? ≠ some 0x21) (prev : Option ℕ) (s : PyStr) :
    cdata prev (tagText items ++ s) = none := by
  have hnone : exactly (pyStr "<![CDATA[") (tagText items ++ s) = none := by
    refine exactly_eq_none fun rest hrest => hopens ?_
    rw [pyStr_cdataStart] at hrest
    have hinner := congrArg List.head? (List.cons.inj hrest).2
    cases h : rawText items with
    | nil =>
        rw [h] at hinner
        cases hinner
    | cons c t =>
        rw [h] at hinner
        exact hinner
  rw [cdata, hnone]
  rfl

theorem cdata_raw (prev : Option ℕ) (code : Cdata) (s : PyStr) :
    cdata prev (code.raw ++ s) = some (code.body, s) := by
  have hopen : exactly (pyStr "<![CDATA[") (code.raw ++ s) =
      some (code.body ++ (pyStr "]]>" ++ s)) :=
    exactly_eq_some.2 (by simp [Cdata.raw])
  -- an end that begins before the last one does not overlap it
  have hidle : ∀ u d v, code.body = u ++ d :: v →
      exactly (pyStr "]]>") (d :: (v ++ (pyStr "]]>" ++ s))) = none := by
    intro u d v hbody
    refine exactly_eq_none fun rest hrest => ?_
    rw [pyStr_cdataEnd] at hrest
    rcases v with _ | ⟨e, _ | ⟨f, v⟩⟩
    · simp at hrest
    · simp at hrest
    · simp only [List.cons_append, List.nil_append, List.cons.injEq] at hrest
      obtain ⟨rfl, rfl, rfl, -⟩ := hrest
      exact code.noEnd ⟨u, v, by rw [hbody, pyStr_cdataEnd]; simp⟩
  have hclose (most : ℕ) : lazily (exactly (pyStr "]]>")) most (pyStr "]]>" ++ s) =
      some ([], s) := by
    have hstop : exactly (pyStr "]]>") (pyStr "]]>" ++ s) = some s := exactly_eq_some.2 rfl
    rw [pyStr_cdataEnd] at hstop ⊢
    rw [List.cons_append, lazily, ← List.cons_append, hstop]
  have hlazy : lazily (exactly (pyStr "]]>")) (code.body ++ (pyStr "]]>" ++ s)).length
      (code.body ++ (pyStr "]]>" ++ s)) = some (code.body, s) := by
    rw [lazily_append hidle, if_neg (by simp), hclose, Option.map_some, List.append_nil]
  rw [cdata, hopen]
  exact hlazy

def cdataParts : Segment → List (ℕ ⊕ PyStr)
  | .code _ _ code => [.inr code.body]
  | segment => segment.raw.map .inl

theorem scans_cdata {segment : Segment} (h : segment.Valid) :
    Scans cdata segment.raw (cdataParts segment) := by
  cases segment with
  | text outside items => exact opensTag_cdata.scans notMem_rawText
  | code outside n code =>
      refine scans_of_match ?_ fun prev s => cdata_raw prev code s
      rw [Segment.raw, Cdata.raw, pyStr_cdataStart]
      exact List.cons_ne_nil _ _
  | tag items =>
      exact scans_of_idle fun prev _ _ _ s hd =>
        opensTag_cdata.idle_tag prev (cdata_tag h.2.1 prev s) hd

theorem number_map_inl (n : ℕ) (x : PyStr) (scanned : List (ℕ ⊕ PyStr)) :
    number n (x.map .inl ++ scanned) = x.map .inl ++ number n scanned := by
  induction x with
  | nil => rfl
  | cons c x ih => exact congrArg (_ :: ·) ih

theorem flat_number_cdataParts (n : ℕ) (segments : List Segment) :
    flat placeholder (number n (segments.flatMap cdataParts)) =
      (numbered n segments).flatMap Segment.held := by
  fun_induction numbered n segments with
  | case1 => rfl
  | case2 n outside k cdata segments ih =>
      rw [List.flatMap_cons, List.flatMap_cons, ← ih]
      rfl
  | case3 n segment segments hcode ih =>
      rcases segment with ⟨outside, items⟩ | ⟨outside, k, cdata⟩ | items
      · rw [List.flatMap_cons, List.flatMap_cons, ← ih, cdataParts, number_map_inl, flat_append,
          flat_map_inl]
        · rfl
        · simp
      · exact absurd rfl (hcode outside k cdata)
      · rw [List.flatMap_cons, List.flatMap_cons, ← ih, cdataParts, number_map_inl, flat_append,
          flat_map_inl]
        · rfl
        · simp

/-- A placeholder has the number of its body. -/
theorem getElem?_bodies {bodies : List PyStr} {n : ℕ} {segments : List Segment}
    (h : bodies.drop n = captures (segments.flatMap cdataParts)) :
    ∀ outside k cdata, .code outside k cdata ∈ numbered n segments →
      bodies[k]? = some cdata.body := by
  fun_induction numbered n segments with
  | case1 => exact fun _ _ _ hmem => absurd hmem List.not_mem_nil
  | case2 n outside k cdata segments ih =>
      have hdrop : bodies.drop n = cdata.body :: captures (segments.flatMap cdataParts) := h
      have hrest : bodies.drop (n + 1) = captures (segments.flatMap cdataParts) := by
        rw [← List.tail_drop, hdrop, List.tail_cons]
      intro outside' k' cdata' hmem
      rcases List.mem_cons.1 hmem with heq | hmem
      · cases heq
        rw [← List.head?_drop, hdrop, List.head?_cons]
      · exact ih hrest outside' k' cdata' hmem
  | case3 n segment segments hcode ih =>
      have hparts : captures (cdataParts segment) = [] := by
        rcases segment with ⟨outside, items⟩ | ⟨outside, k, cdata⟩ | items
        · simp [cdataParts, captures]
        · exact absurd rfl (hcode outside k cdata)
        · simp [cdataParts, captures]
      rw [List.flatMap_cons, captures, List.filterMap_append, ← captures, ← captures, hparts] at h
      intro outside' k' cdata' hmem
      rcases List.mem_cons.1 hmem with heq | hmem
      · exact absurd heq.symm (hcode outside' k' cdata')
      · exact ih h outside' k' cdata' hmem

/-- What a pattern that ends within a tag leaves of it, and what follows the tag. -/
def extend (s : PyStr) (found : PyStr × PyStr) : PyStr × PyStr := (found.1, found.2 ++ 0x3e :: s)

theorem simpleLower_eq_close {c : ℕ} (h : simpleLower c = 0x3e) : c = 0x3e := by
  simp only [simpleLower, asciiLower, Bool.and_eq_true, decide_eq_true_eq] at h
  split_ifs at h <;> omega

theorem literal_append {l : PyStr} (hl : 0x3e ∉ l) (x s : PyStr) :
    literal l (x ++ 0x3e :: s) = (literal l x).map (extend s) := by
  rw [literal, literal]
  by_cases hle : l.length ≤ x.length
  · rw [List.take_append_of_le_length hle, List.drop_append_of_le_length hle]
    split_ifs <;> rfl
  · have hshort : (x.take l.length).map caseless ≠ l := by
      intro h
      have hlength := congrArg List.length h
      rw [List.length_map, List.length_take] at hlength
      omega
    have hclose : ((x ++ 0x3e :: s).take l.length).map caseless ≠ l := by
      intro h
      refine hl (h ▸ List.mem_map.2 ⟨0x3e, ?_, by decide⟩)
      rw [List.take_append, List.mem_append]
      obtain ⟨n, hn⟩ := Nat.exists_eq_succ_of_ne_zero (Nat.sub_ne_zero_of_lt (not_le.1 hle))
      rw [hn, List.take_succ_cons]
      exact Or.inr List.mem_cons_self
    rw [if_neg hshort, if_neg hclose]
    rfl

theorem boundary_extend (tables : Tables) (s : PyStr) (found : PyStr × PyStr) :
    boundary tables (extend s found) = boundary tables found := by
  have hclose : tables.isWord 0x3e = false := by
    rw [tables.isWord_ascii 0x3e (by decide)]
    decide
  obtain ⟨group, rest⟩ := found
  cases rest with
  | nil => simp [boundary, extend, hclose]
  | cons c rest => rfl

theorem filter_boundary_extend (tables : Tables) (s : PyStr) (names : List (PyStr × PyStr)) :
    (names.map (extend s)).filter (boundary tables) =
      (names.filter (boundary tables)).map (extend s) := by
  rw [List.filter_map]
  congr 1
  exact List.filter_congr fun found _ => boundary_extend tables s found

theorem resources_append (tables : Tables) (x s : PyStr) :
    resources tables (x ++ 0x3e :: s) = (resources tables x).map (extend s) := by
  rw [resources, literal_append (by decide)]
  cases h : literal (pyStr "ri:") x with
  | none =>
      rw [resources, h]
      rfl
  | some found =>
      obtain ⟨scheme, rest⟩ := found
      rw [resources, h]
      simp only [Option.map_some, extend]
      rw [takeWhile_append_cons (by decide), ← filter_boundary_extend, List.map_map]
      refine congrArg _ (List.map_congr_left fun n hn => ?_)
      have hle : n ≤ rest.length := by
        have hrun := (List.takeWhile_sublist (l := rest) isResourceChar).length_le
        rw [List.mem_reverse, List.mem_range'_1] at hn
        omega
      rw [List.take_append_of_le_length hle, List.drop_append_of_le_length hle]
      rfl

theorem droppedNames_append (tables : Tables) (x s : PyStr) :
    droppedNames tables (x ++ 0x3e :: s) = (droppedNames tables x).map (extend s) := by
  rw [droppedNames, droppedNames, List.map_append, resources_append, literal_append (by decide),
    ← filter_boundary_extend]
  cases literal (pyStr "ac:parameter") x <;> rfl

theorem literal_eq_some {l : PyStr} {found : PyStr × PyStr} (h : literal l s = some found) :
    s = found.1 ++ found.2 := by
  rw [literal] at h
  split_ifs at h
  obtain rfl := Option.some.inj h
  exact (List.take_append_drop _ _).symm

theorem split_of_mem_resources {found : PyStr × PyStr} (h : found ∈ resources tables s) :
    s = found.1 ++ found.2 := by
  rw [resources] at h
  cases hl : literal (pyStr "ri:") s with
  | none =>
      rw [hl] at h
      exact absurd h List.not_mem_nil
  | some parts =>
      obtain ⟨scheme, rest⟩ := parts
      rw [hl] at h
      obtain ⟨n, -, rfl⟩ := List.mem_map.1 (List.mem_filter.1 h).1
      rw [literal_eq_some hl, List.append_assoc, List.take_append_drop]

theorem split_of_mem_droppedNames {found : PyStr × PyStr} (h : found ∈ droppedNames tables s) :
    s = found.1 ++ found.2 := by
  rcases List.mem_append.1 h with h | h
  · exact literal_eq_some (Option.mem_toList.1 (List.mem_filter.1 h).1)
  · exact split_of_mem_resources h

theorem notClose_append {x : PyStr} (hx : 0x3e ∉ x) (s : PyStr) :
    (x ++ 0x3e :: s).takeWhile notClose = x ∧ (x ++ 0x3e :: s).dropWhile notClose = 0x3e :: s := by
  have hclose : notClose 0x3e = false := rfl
  have hrun : x.takeWhile notClose = x := by
    rw [List.takeWhile_eq_self_iff]
    exact fun c hc => decide_eq_true fun h => hx (h ▸ hc)
  have hrest : x.dropWhile notClose = [] := by
    have hsplit := List.takeWhile_append_dropWhile (p := notClose) (l := x)
    rw [hrun] at hsplit
    exact List.append_right_eq_self.1 hsplit
  rw [takeWhile_append_cons hclose, dropWhile_append_cons hclose, hrun, hrest]
  exact ⟨rfl, rfl⟩

theorem tagEnd_append {x : PyStr} (hx : 0x3e ∉ x) (hlength : x.length ≤ 4096) (s : PyStr) :
    tagEnd (x ++ 0x3e :: s) = some s := by
  obtain ⟨hrun, hrest⟩ := notClose_append hx s
  have hup : upTo notClose 4096 (x ++ 0x3e :: s) = some (x, 0x3e :: s) := by
    rw [upTo, hrun, hrest]
    exact if_pos hlength
  rw [tagEnd, hup]
  rfl

theorem emptyTagEnd_append {x : PyStr} (hx : 0x3e ∉ x) (hlength : x.length ≤ 4096) (s : PyStr) :
    emptyTagEnd (x ++ 0x3e :: s) = if x.getLast? = some 0x2f then some s else none := by
  obtain ⟨hrun, hrest⟩ := notClose_append hx s
  have hle : x.length ≤ 4097 := by omega
  rw [emptyTagEnd, hrun, hrest]
  simp only [hle, and_true]
  rfl

/-- What stands between the brackets of `</\1>`. -/
def isEndTag (group : PyStr) : PyStr → Bool
  | 0x2f :: name => name.map simpleLower = group.map simpleLower
  | _ => false

def closes (group : PyStr) : Segment → Bool
  | .tag items => isEndTag group (rawText items)
  | _ => false

/-- The segments up to the first end tag of a group, within so many characters. -/
def upToEndTag (group : PyStr) : ℕ → List Segment → Option (List Segment × List Segment)
  | _, [] => none
  | most, segment :: segments =>
      if closes group segment then some ([segment], segments)
      else if most < segment.held.length then none
      else (upToEndTag group (most - segment.held.length) segments).map fun found =>
        (segment :: found.1, found.2)

section

variable (tables : Tables)

/-- The end tag that an opening tag is paired with: the first of the same name, whatever stands
between them. -/
def paired (items : List Item) (segments : List Segment) :
    Option (List Segment × List Segment) :=
  (droppedNames tables (rawText items)).findSome? fun found =>
    upToEndTag found.1 1000000 segments

def isEmptyElement (items : List Item) : Bool :=
  (resources tables (rawText items)).any fun found => found.2.getLast? = some 0x2f

/-- `_DROPPED_ELEMENTS` over segments: a match begins at a tag, with the end tag it is paired
with, if there is one, or alone. -/
def droppedStretch : Pattern Segment (List Segment) := fun _ segments =>
  match segments with
  | .tag items :: segments =>
      ((paired tables items segments).map fun found => (.tag items :: found.1, found.2)).or
        (if isEmptyElement tables items then some ([.tag items], segments) else none)
  | _ => none

end

theorem notMem_held {segment : Segment} (h : ∀ items, segment ≠ .tag items) :
    0x3c ∉ segment.held := by
  rcases segment with ⟨outside, items⟩ | ⟨outside, n, code⟩ | items
  · exact notMem_rawText
  · exact notMem_placeholder (by decide) n
  · exact absurd rfl (h items)

theorem one_of_ne {c d : ℕ} (h : d ≠ c) (s : PyStr) : one c (d :: s) = none := if_neg h

theorem endTag_of_ne {group : PyStr} {c : ℕ} (h : c ≠ 0x3c) (s : PyStr) :
    endTag group (c :: s) = none := by
  rw [endTag, one_of_ne h]
  rfl

/-- An end tag is a whole tag or no part of one. -/
theorem endTag_append {group x : PyStr} (hgroup : 0x3e ∉ group) (hx : 0x3e ∉ x) (s : PyStr) :
    endTag group (0x3c :: (x ++ 0x3e :: s)) = if isEndTag group x then some s else none := by
  have hopen : one 0x3c (0x3c :: (x ++ 0x3e :: s)) = some (x ++ 0x3e :: s) := rfl
  rw [endTag, hopen]
  simp only [Option.bind_eq_bind, Option.bind_some]
  rcases x with _ | ⟨c, name⟩
  · rfl
  · by_cases hc : c = 0x2f
    · subst hc
      have hslash : one 0x2f (0x2f :: name ++ 0x3e :: s) = some (name ++ 0x3e :: s) := rfl
      rw [hslash, Option.bind_some, backreference, isEndTag]
      have hname : 0x3e ∉ name := fun h => hx (List.mem_cons_of_mem _ h)
      have hno (hlength : name.length ≠ group.length) :
          decide (name.map simpleLower = group.map simpleLower) = false :=
        decide_eq_false fun h => hlength (by simpa using congrArg List.length h)
      rcases lt_trichotomy group.length name.length with hlt | heq | hlt
      · -- something of the name is left, and it is not `>`
        have hd : name[group.length] ≠ 0x3e := fun h => hname (h ▸ List.getElem_mem hlt)
        rw [List.take_append_of_le_length hlt.le, List.drop_append_of_le_length hlt.le,
          List.drop_eq_getElem_cons hlt, hno hlt.ne', if_neg Bool.false_ne_true]
        split_ifs
        · exact one_of_ne hd _
        · rfl
      · rw [List.take_append_of_le_length heq.le, List.drop_append_of_le_length heq.le, heq,
          List.take_length, List.drop_length]
        by_cases h : name.map simpleLower = group.map simpleLower
        · simp [h, one]
        · simp [h]
      · have htaken : ((name ++ 0x3e :: s).take group.length).map simpleLower ≠
            group.map simpleLower := by
          intro h
          obtain ⟨n, hn⟩ := Nat.exists_eq_succ_of_ne_zero (Nat.sub_ne_zero_of_lt hlt)
          have hmem : 0x3e ∈ group.map simpleLower := by
            rw [← h, List.take_append, hn, List.take_succ_cons, List.map_append, List.map_cons]
            exact List.mem_append_right _ List.mem_cons_self
          obtain ⟨c, hc, hlower⟩ := List.mem_map.1 hmem
          exact hgroup (simpleLower_eq_close hlower ▸ hc)
        rw [if_neg htaken, hno hlt.ne]
        rfl
    · have hslash : one 0x2f (c :: name ++ 0x3e :: s) = none := one_of_ne hc _
      have hno : isEndTag group (c :: name) = false := by
        rw [isEndTag]
        exact fun _ h => hc (List.cons.inj h).1
      rw [hslash, hno]
      rfl

theorem endTag_tag {group : PyStr} (hgroup : 0x3e ∉ group) (hclose : 0x3e ∉ rawText items)
    (s : PyStr) : endTag group (tagText items ++ s) =
      if closes group (.tag items) then some s else none := by
  have htag : tagText items ++ s = 0x3c :: (rawText items ++ 0x3e :: s) := by simp [tagText]
  rw [htag]
  exact endTag_append hgroup hclose s

theorem lazily_endTag {group : PyStr} (hgroup : 0x3e ∉ group) (most : ℕ)
    {segments : List Segment} (hvalid : ∀ segment ∈ segments, segment.Valid) :
    (lazily (endTag group) most (segments.flatMap Segment.held)).map Prod.snd =
      (upToEndTag group most segments).map fun found => found.2.flatMap Segment.held := by
  induction segments generalizing most with
  | nil => rfl
  | cons segment segments ih =>
      obtain ⟨hsegment, hsegments⟩ := List.forall_mem_cons.1 hvalid
      rw [List.flatMap_cons, upToEndTag]
      by_cases hcloses : closes group segment
      · obtain ⟨items, rfl⟩ : ∃ items, segment = .tag items := by
          cases segment with
          | tag items => exact ⟨items, rfl⟩
          | _ => cases hcloses
        have hend := endTag_tag hgroup hsegment.1 (segments.flatMap Segment.held)
        rw [if_pos hcloses] at hend ⊢
        have hfirst : lazily (endTag group) most
            ((Segment.tag items).held ++ segments.flatMap Segment.held) =
              some ([], segments.flatMap Segment.held) := by
          change lazily _ _ (0x3c :: _) = _
          rw [lazily]
          change endTag group (0x3c :: _) = _ at hend
          rw [hend]
        rw [hfirst]
        rfl
      · have hidle : ∀ u d v, segment.held = u ++ d :: v →
            endTag group (d :: (v ++ segments.flatMap Segment.held)) = none := by
          have hopens : OpensTag fun _ s => (endTag group s).map fun rest => ((), rest) := by
            intro prev c s hc
            exact Option.map_eq_none_iff.2 (endTag_of_ne hc s)
          intro u d v hd
          have hnone : (endTag group (d :: (v ++ segments.flatMap Segment.held))).map
              (fun rest => ((), rest)) = none := by
            rcases segment with ⟨outside, items⟩ | ⟨outside, n, code⟩ | items
            · exact hopens.idle (notMem_held (by simp)) none hd _
            · exact hopens.idle (notMem_held (by simp)) none hd _
            · refine hopens.idle_tag none ?_ hd
              rw [endTag_tag hgroup hsegment.1, if_neg hcloses]
              rfl
          exact Option.map_eq_none_iff.1 hnone
        rw [if_neg hcloses, lazily_append hidle]
        split_ifs
        · rfl
        · rw [Option.map_map, Option.map_map]
          exact ih _ hsegments

theorem findSome?_eq_map {α β γ : Type} {l : List α} {f : α → Option β} {g : α → Option γ}
    {h : β → γ} (hfg : ∀ x ∈ l, g x = (f x).map h) : l.findSome? g = (l.findSome? f).map h := by
  induction l with
  | nil => rfl
  | cons x l ih =>
      obtain ⟨hx, hl⟩ := List.forall_mem_cons.1 hfg
      rw [List.findSome?_cons, List.findSome?_cons, hx, ih hl]
      cases f x <;> rfl

theorem findSome?_eq_ite {α β : Type} {l : List α} {p : α → Bool} {b : β} {g : α → Option β}
    (hg : ∀ x ∈ l, g x = if p x then some b else none) :
    l.findSome? g = if l.any p then some b else none := by
  induction l with
  | nil => rfl
  | cons x l ih =>
      obtain ⟨hx, hl⟩ := List.forall_mem_cons.1 hg
      rw [List.findSome?_cons, hx, ih hl, List.any_cons]
      cases p x <;> rfl

theorem one_tagText (items : List Item) (s : PyStr) :
    one 0x3c (tagText items ++ s) = some (rawText items ++ 0x3e :: s) :=
  one_eq_some.2 (by simp [tagText])

theorem element_tag (hvalid : (Segment.tag items).Valid) {segments : List Segment}
    (hsegments : ∀ segment ∈ segments, segment.Valid) :
    element tables (tagText items ++ segments.flatMap Segment.held) =
      (paired tables items segments).map fun found => found.2.flatMap Segment.held := by
  rw [element, one_tagText]
  simp only [Option.bind_eq_bind, Option.bind_some]
  rw [droppedNames_append, List.findSome?_map, paired]
  refine findSome?_eq_map fun found hfound => ?_
  obtain ⟨hclose, -, hlength⟩ := hvalid
  rw [split_of_mem_droppedNames hfound] at hclose hlength
  rw [List.length_append] at hlength
  rw [List.mem_append, not_or] at hclose
  have hend : tagEnd (found.2 ++ 0x3e :: segments.flatMap Segment.held) =
      some (segments.flatMap Segment.held) := tagEnd_append hclose.2 (by omega) _
  have hlazy := lazily_endTag hclose.1 1000000 hsegments
  simp only [Function.comp_apply, extend, hend, Option.bind_some]
  rw [← hlazy]
  cases lazily (endTag found.1) 1000000 (segments.flatMap Segment.held) <;> rfl

theorem emptyElement_tag (hvalid : (Segment.tag items).Valid) (s : PyStr) :
    emptyElement tables (tagText items ++ s) =
      if isEmptyElement tables items then some s else none := by
  rw [emptyElement, one_tagText]
  simp only [Option.bind_eq_bind, Option.bind_some]
  rw [resources_append, List.findSome?_map, isEmptyElement]
  refine findSome?_eq_ite fun found hfound => ?_
  obtain ⟨hclose, -, hlength⟩ := hvalid
  rw [split_of_mem_resources hfound] at hclose hlength
  rw [List.length_append] at hlength
  rw [List.mem_append, not_or] at hclose
  have hend := emptyTagEnd_append hclose.2 (by omega) s
  simp only [decide_eq_true_eq]
  exact hend

theorem droppedElements_tag (hvalid : (Segment.tag items).Valid) {segments : List Segment}
    (hsegments : ∀ segment ∈ segments, segment.Valid) (prev : Option ℕ) (prev' : Option Segment) :
    droppedElements tables prev (tagText items ++ segments.flatMap Segment.held) =
      (droppedStretch tables prev' (.tag items :: segments)).map fun found =>
        ((), found.2.flatMap Segment.held) := by
  rw [droppedElements, element_tag hvalid hsegments, emptyElement_tag hvalid, droppedStretch]
  cases paired tables items segments with
  | none => cases isEmptyElement tables items <;> rfl
  | some found => rfl

theorem opensTag_droppedElements : OpensTag (droppedElements tables) := by
  intro prev c s hc
  rw [droppedElements, element, emptyElement, one_of_ne hc]
  rfl

theorem split_of_upToEndTag {group : PyStr} {most : ℕ} {segments taken rest : List Segment}
    (h : upToEndTag group most segments = some (taken, rest)) : segments = taken ++ rest := by
  fun_induction upToEndTag group most segments generalizing taken with
  | case1 => cases h
  | case2 most segment segments hcloses =>
      cases h
      rfl
  | case3 => cases h
  | case4 most segment segments hcloses hmost ih =>
      obtain ⟨found, hfound, heq⟩ := Option.map_eq_some_iff.1 h
      cases heq
      rw [ih hfound]
      rfl

theorem split_of_droppedStretch {prev : Option Segment} {segments taken rest : List Segment}
    (h : droppedStretch tables prev segments = some (taken, rest)) :
    segments = taken ++ rest ∧ ∃ items more, taken = .tag items :: more := by
  unfold droppedStretch at h
  split at h
  · rename_i items segments
    rcases Option.or_eq_some_iff.1 h with h | ⟨-, h⟩
    · obtain ⟨⟨found, left⟩, hfound, heq⟩ := Option.map_eq_some_iff.1 h
      cases heq
      obtain ⟨name, -, hname⟩ := List.exists_of_findSome?_eq_some hfound
      exact ⟨congrArg (_ :: ·) (split_of_upToEndTag hname), items, found, rfl⟩
    · split_ifs at h
      cases h
      exact ⟨rfl, items, [], rfl⟩
  · cases h

def blankSegment : Segment := .text false [.blank]

def newlineSegment : Segment := .text false [.newline]

/-- The segments that are left, and the stretches that are dropped. -/
def stretches (tables : Tables) (segments : List Segment) : List (Segment ⊕ List Segment) :=
  scan (droppedStretch tables) segments

theorem sub_droppedElements {segments : List Segment}
    (hvalid : ∀ segment ∈ segments, segment.Valid) :
    sub (droppedElements tables) (fun _ => [0x20]) (segments.flatMap Segment.held) =
      (write (fun _ => [blankSegment]) (stretches tables segments)).flatMap Segment.held := by
  refine write_scanFrom_flatMap (P := Segment.Valid) ?_ ?_ none none hvalid
  · intro prev prev' segment segments hsegment hsegments hnone u d v hd
    rcases segment with ⟨outside, items⟩ | ⟨outside, n, code⟩ | items
    · exact opensTag_droppedElements.idle (notMem_held (by simp)) prev hd _
    · exact opensTag_droppedElements.idle (notMem_held (by simp)) prev hd _
    · refine opensTag_droppedElements.idle_tag prev ?_ hd
      rw [droppedElements_tag hsegment hsegments prev prev', hnone]
      rfl
  · intro prev prev' segments taken rest hsegments hsome
    obtain ⟨hsplit, items, more, rfl⟩ := split_of_droppedStretch hsome
    refine ⟨.tag items :: more, (), hsplit, List.cons_ne_nil _ _, ?_, rfl⟩
    rw [hsplit, List.cons_append] at hsome hsegments ⊢
    obtain ⟨htag, hmore⟩ := List.forall_mem_cons.1 hsegments
    have hmatch : droppedElements tables prev (tagText items ++ _) = _ :=
      droppedElements_tag htag hmore prev prev'
    rw [hsome] at hmatch
    exact hmatch

theorem heading_append (x s : PyStr) :
    heading (x ++ 0x3e :: s) = (heading x).map (extend s) := by
  rw [heading, heading, literal_append (by decide)]
  cases literal (pyStr "h") x with
  | none => rfl
  | some found =>
      obtain ⟨h, rest⟩ := found
      cases rest with
      | nil => rfl
      | cons d rest =>
          simp only [Option.map_some, extend, List.cons_append]
          split_ifs <;> rfl

theorem filterMap_literal_append {names : List String} (hnames : ∀ name ∈ names, 0x3e ∉ pyStr name)
    (x s : PyStr) : (names.filterMap fun name => literal (pyStr name) (x ++ 0x3e :: s)) =
      (names.filterMap fun name => literal (pyStr name) x).map (extend s) := by
  rw [List.map_filterMap]
  exact List.filterMap_congr fun name hname => literal_append (hnames name hname) x s

theorem breakNames_append (x s : PyStr) :
    breakNames (x ++ 0x3e :: s) = (breakNames x).map (extend s) := by
  rw [breakNames, breakNames, heading_append, filterMap_literal_append (by decide),
    filterMap_literal_append (by decide), List.map_append, List.map_append]
  cases heading x <;> rfl

theorem split_of_mem_breakNames {found : PyStr × PyStr} (h : found ∈ breakNames s) :
    s = found.1 ++ found.2 := by
  rcases List.mem_append.1 h with h | h
  · rcases List.mem_append.1 h with h | h
    · obtain ⟨name, -, hname⟩ := List.mem_filterMap.1 h
      exact literal_eq_some hname
    · have hheading := Option.mem_toList.1 h
      rw [heading] at hheading
      split at hheading
      · rename_i front d rest hliteral
        split_ifs at hheading
        cases hheading
        rw [literal_eq_some hliteral]
        simp
      · cases hheading
  · obtain ⟨name, -, hname⟩ := List.mem_filterMap.1 h
    exact literal_eq_some hname

def isBreak (tables : Tables) (items : List Item) : Bool :=
  ((breakNames ((one 0x2f (rawText items)).getD (rawText items))).filter (boundary tables)).any
    fun _ => true

theorem getD_slash_append (x s : PyStr) :
    (one 0x2f (x ++ 0x3e :: s)).getD (x ++ 0x3e :: s) = (one 0x2f x).getD x ++ 0x3e :: s := by
  cases x with
  | nil => rfl
  | cons c x =>
      rw [List.cons_append, one, one]
      split_ifs <;> rfl

theorem breaks_tag (hvalid : (Segment.tag items).Valid) (prev : Option ℕ) (s : PyStr) :
    breaks tables prev (tagText items ++ s) =
      if isBreak tables items then some ((), s) else none := by
  obtain ⟨hclose, -, hlength⟩ := hvalid
  have hsuffix : (one 0x2f (rawText items)).getD (rawText items) <:+ rawText items := by
    cases hone : one 0x2f (rawText items) with
    | none => exact List.suffix_rfl
    | some rest =>
        rw [one_eq_some.1 hone]
        exact List.suffix_cons _ _
  have hfound : ((breakNames ((one 0x2f (rawText items ++ 0x3e :: s)).getD
      (rawText items ++ 0x3e :: s))).filter (boundary tables)).findSome?
        (fun found => tagEnd found.2) = if isBreak tables items then some s else none := by
    rw [getD_slash_append, breakNames_append, filter_boundary_extend, List.findSome?_map]
    refine findSome?_eq_ite fun found hfound => ?_
    have hsplit := split_of_mem_breakNames (List.mem_filter.1 hfound).1
    have hfront : 0x3e ∉ found.2 := fun h =>
      hclose (hsuffix.subset (hsplit ▸ List.mem_append_right _ h))
    have hle := hsuffix.length_le
    rw [hsplit, List.length_append] at hle
    exact tagEnd_append hfront (by omega) s
  rw [breaks, one_tagText]
  simp only [Option.bind_eq_bind, Option.bind_some, hfound]
  split_ifs <;> rfl

theorem opensTag_breaks : OpensTag (breaks tables) := by
  intro prev c s hc
  rw [breaks, one_of_ne hc]
  rfl

theorem opensTag_tag : OpensTag tag := by
  intro prev c s hc
  rw [tag, one_of_ne hc]
  rfl

theorem tag_tag (hvalid : (Segment.tag items).Valid) (prev : Option ℕ) (s : PyStr) :
    tag prev (tagText items ++ s) = some ((), s) := by
  obtain ⟨hclose, -, hlength⟩ := hvalid
  have hend : tagEnd (rawText items ++ 0x3e :: s) = some s := tagEnd_append hclose (by omega) s
  rw [tag, one_tagText]
  simp only [Option.bind_eq_bind, Option.bind_some, hend]
  rfl

theorem tagText_ne_nil (items : List Item) : tagText items ≠ [] := List.cons_ne_nil _ _

theorem write_map_inl {β : Type} (out : β → PyStr) (x : PyStr) : write out (x.map .inl) = x := by
  simp [write, List.flatMap_map]

def onTags (f : List Item → Segment) : Segment → Segment
  | .tag items => f items
  | segment => segment

/-- A pattern that takes a tag whole or not at all rewrites the tags. -/
theorem OpensTag.sub_eq {m : Pattern ℕ Unit} (hopens : OpensTag m) {out : PyStr}
    {f : List Item → Segment}
    (htag : ∀ items, (Segment.tag items).Valid →
      (∀ prev s, m prev (tagText items ++ s) = some ((), s)) ∧ (f items).held = out ∨
        (∀ prev s, m prev (tagText items ++ s) = none) ∧ (f items).held = tagText items)
    {segments : List Segment} (hvalid : ∀ segment ∈ segments, segment.Valid) :
    sub m (fun _ => out) (segments.flatMap Segment.held) =
      (segments.map (onTags f)).flatMap Segment.held := by
  have hscans : ∀ segment ∈ segments, Scans m segment.held (scan m segment.held) ∧
      write (fun _ => out) (scan m segment.held) = (onTags f segment).held := by
    have hplain {segment : Segment} (hne : ∀ items, segment ≠ .tag items)
        (hsame : onTags f segment = segment) : Scans m segment.held (scan m segment.held) ∧
          write (fun _ => out) (scan m segment.held) = (onTags f segment).held := by
      have h := hopens.scans (notMem_held hne)
      exact ⟨h.self, by rw [h.scan_eq, write_map_inl, hsame]⟩
    intro segment hsegment
    rcases segment with ⟨outside, items⟩ | ⟨outside, n, code⟩ | items
    · exact hplain (by simp) rfl
    · exact hplain (by simp) rfl
    · rcases htag items (hvalid _ hsegment) with ⟨hsome, hheld⟩ | ⟨hnone, hheld⟩
      · have h := scans_of_match (tagText_ne_nil items) hsome
        refine ⟨h.self, ?_⟩
        rw [Segment.held, h.scan_eq, onTags, hheld]
        exact List.append_nil out
      · have h : Scans m (tagText items) ((tagText items).map .inl) :=
          scans_of_idle fun prev _ _ _ s hd => hopens.idle_tag prev (hnone prev s) hd
        refine ⟨h.self, ?_⟩
        rw [Segment.held, h.scan_eq, write_map_inl, onTags, hheld]
  rw [Scans.sub_flatMap fun segment h => (hscans segment h).1, List.flatMap_map]
  exact List.flatMap_congr fun segment h => (hscans segment h).2

theorem sub_breaks {segments : List Segment} (hvalid : ∀ segment ∈ segments, segment.Valid) :
    sub (breaks tables) (fun _ => [0xa]) (segments.flatMap Segment.held) =
      (segments.map (onTags fun items => if isBreak tables items then newlineSegment
        else .tag items)).flatMap Segment.held := by
  refine opensTag_breaks.sub_eq (fun items hitems => ?_) hvalid
  have hbreaks : ∀ prev s, breaks tables prev (tagText items ++ s) =
      if isBreak tables items then some ((), s) else none := breaks_tag hitems
  cases hbreak : isBreak tables items with
  | true =>
      simp only [hbreak, if_true] at hbreaks
      exact Or.inl ⟨hbreaks, rfl⟩
  | false =>
      simp only [hbreak, Bool.false_eq_true, if_false] at hbreaks
      exact Or.inr ⟨hbreaks, rfl⟩

theorem sub_tag {segments : List Segment} (hvalid : ∀ segment ∈ segments, segment.Valid) :
    sub tag (fun _ => [0x20]) (segments.flatMap Segment.held) =
      (segments.map (onTags fun _ => blankSegment)).flatMap Segment.held :=
  opensTag_tag.sub_eq (f := fun _ => blankSegment)
    (fun _ hitems => Or.inl ⟨tag_tag hitems, rfl⟩) hvalid

def blankOf (tables : Tables) (items : List Item) : Segment :=
  if isBreak tables items then newlineSegment else blankSegment

theorem valid_of_onTags {f : List Item → Segment} (hf : ∀ items, (Segment.tag items).Valid →
      (f items).Valid) {segments : List Segment} (hvalid : ∀ segment ∈ segments, segment.Valid) :
    ∀ segment ∈ segments.map (onTags f), segment.Valid := by
  intro segment h
  obtain ⟨segment, hsegment, rfl⟩ := List.mem_map.1 h
  cases segment with
  | tag items => exact hf items (hvalid _ hsegment)
  | _ => trivial

theorem sub_tag_breaks {segments : List Segment} (hvalid : ∀ segment ∈ segments, segment.Valid) :
    sub tag (fun _ => [0x20]) (sub (breaks tables) (fun _ => [0xa])
      (segments.flatMap Segment.held)) =
        (segments.map (onTags (blankOf tables))).flatMap Segment.held := by
  have hbroken : ∀ segment ∈ segments.map (onTags fun items =>
      if isBreak tables items then newlineSegment else .tag items), segment.Valid := by
    refine valid_of_onTags (fun items hitems => ?_) hvalid
    split_ifs
    · trivial
    · exact hitems
  rw [sub_breaks hvalid, sub_tag hbroken, List.map_map]
  refine congrArg (List.flatMap Segment.held) (List.map_congr_left fun segment _ => ?_)
  rcases segment with ⟨outside, items⟩ | ⟨outside, n, code⟩ | items
  · rfl
  · rfl
  · simp only [Function.comp_apply, onTags, blankOf]
    split_ifs <;> rfl

end IcebergSST.Storage

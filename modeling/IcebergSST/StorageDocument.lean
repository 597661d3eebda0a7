import IcebergSST.Storage

/-!
# Documents in storage format

A document is a tree of elements, character data and CDATA sections. For the passes it is a
list of segments: a tag ends at its first `>`, and what an attribute has after that is loose
text.
-/

namespace IcebergSST.Storage

open Wiki (placeholder)

/-- Character data: characters that are no markup, and references by what stands between `&`
and `;`. -/
inductive Item
  | char (c : ℕ) (plain : c ≠ 0x3c ∧ c ≠ 0x26 ∧ c ≠ 0)
  | ref (name : PyStr) (plain : ∀ c ∈ name, c ∉ [0, 0x26, 0x3b, 0x3c, 0x3e])

namespace Item

def raw : Item → PyStr
  | char c _ => [c]
  | ref name _ => 0x26 :: (name ++ [0x3b])

def isClose : Item → Bool
  | char c _ => c = 0x3e
  | ref _ _ => false

def blank : Item := char 0x20 (by decide)

def newline : Item := char 0xa (by decide)

def slash : Item := char 0x2f (by decide)

def close : Item := char 0x3e (by decide)

def overlong : Item → Bool
  | char _ _ => false
  | ref name _ =>
      name.head? = some 0x23 && maxStrDigits < (name.tail.takeWhile isDecimal).length

end Item

def rawText (items : List Item) : PyStr := items.flatMap Item.raw

def itemsOf (s : PyStr) (h : ∀ c ∈ s, c ≠ 0x3c ∧ c ≠ 0x26 ∧ c ≠ 0) : List Item := s.pmap .char h

def isMarkup (c : ℕ) : Bool :=
  spaceCode c || c ∈ [0, 0x21, 0x22, 0x26, 0x27, 0x2f, 0x3c, 0x3d, 0x3e, 0x3f]

def isXmlBlank (c : ℕ) : Bool := c ∈ [0x9, 0xa, 0xd, 0x20]

structure Name where
  text : PyStr
  ne_nil : text ≠ []
  plain : ∀ c ∈ text, isMarkup c = false

/-- `ac:parameter` and `ri:*` -/
def Name.IsMetadata (name : Name) : Prop :=
  name.text = pyStr "ac:parameter" ∨ pyStr "ri:" <+: name.text

instance (name : Name) : Decidable name.IsMetadata := inferInstanceAs (Decidable (_ ∨ _))

/-- What follows the name in a tag: nothing, or a blank and attributes. -/
structure Attributes where
  items : List Item
  opens : (rawText items).head?.all isXmlBlank

structure Blanks where
  text : PyStr
  blank : ∀ c ∈ text, isXmlBlank c

structure Cdata where
  body : PyStr
  noEnd : ¬ pyStr "]]>" <:+: body
  noNul : 0 ∉ body

inductive Content
  | nil
  | text (items : List Item) (rest : Content)
  | cdata (code : Cdata) (rest : Content)
  | element (name : Name) (attributes : Attributes) (children : Content) (blanks : Blanks)
      (rest : Content)
  | empty (name : Name) (attributes : Attributes) (rest : Content)

theorem Name.plain_of_mem {name : Name} {c : ℕ} (h : c ∈ name.text) :
    c ≠ 0x3c ∧ c ≠ 0x26 ∧ c ≠ 0 := by
  have hplain := name.plain c h
  simp only [isMarkup, Bool.or_eq_false_iff, decide_eq_false_iff_not, List.mem_cons,
    List.not_mem_nil, or_false] at hplain
  omega

theorem Blanks.plain_of_mem {blanks : Blanks} {c : ℕ} (h : c ∈ blanks.text) :
    c ≠ 0x3c ∧ c ≠ 0x26 ∧ c ≠ 0 := by
  have hblank := blanks.blank c h
  simp only [isXmlBlank, decide_eq_true_eq, List.mem_cons, List.not_mem_nil, or_false] at hblank
  omega

def Name.items (name : Name) : List Item := itemsOf name.text fun _ => name.plain_of_mem

def Blanks.items (blanks : Blanks) : List Item := itemsOf blanks.text fun _ => blanks.plain_of_mem

/-- What stands between the brackets of a tag. -/
def startTag (name : Name) (attributes : Attributes) : List Item := name.items ++ attributes.items

def emptyTag (name : Name) (attributes : Attributes) : List Item :=
  startTag name attributes ++ [.slash]

def closingTag (name : Name) (blanks : Blanks) : List Item := .slash :: (name.items ++ blanks.items)

def tagText (items : List Item) : PyStr := 0x3c :: (rawText items ++ [0x3e])

namespace Cdata

def raw (code : Cdata) : PyStr := pyStr "<![CDATA[" ++ (code.body ++ pyStr "]]>")

end Cdata

namespace Content

def source : Content → PyStr
  | nil => []
  | text items rest => rawText items ++ rest.source
  | cdata code rest => code.raw ++ rest.source
  | element name attributes children blanks rest =>
      tagText (startTag name attributes) ++ children.source ++ tagText (closingTag name blanks) ++
        rest.source
  | empty name attributes rest => tagText (emptyTag name attributes) ++ rest.source

def tags : Content → List PyStr
  | nil => []
  | text _ rest => rest.tags
  | cdata _ rest => rest.tags
  | element name attributes children blanks rest =>
      tagText (startTag name attributes) :: children.tags ++
        tagText (closingTag name blanks) :: rest.tags
  | empty name attributes rest => tagText (emptyTag name attributes) :: rest.tags

end Content

/-- Character data as a reader sees it. -/
def written (tables : Tables) (items : List Item) : PyStr :=
  (unescape tables (rawText items)).getD (rawText items)

/-- The text nodes and the CDATA sections outside of metadata, in their order; the flag says
that this content is. -/
def Content.texts (tables : Tables) : Bool → Content → List PyStr
  | _, nil => []
  | outside, text items rest =>
      (if outside then [written tables items] else []) ++ texts tables outside rest
  | outside, cdata code rest => (if outside then [code.body] else []) ++ texts tables outside rest
  | outside, element name _ children _ rest =>
      texts tables (outside && !name.IsMetadata) children ++ texts tables outside rest
  | outside, empty _ _ rest => texts tables outside rest

/-- The flag says that a reader sees the segment; the number is that of a placeholder. -/
inductive Segment
  | text (outside : Bool) (items : List Item)
  | code (outside : Bool) (n : ℕ) (cdata : Cdata)
  | tag (items : List Item)

namespace Segment

def raw : Segment → PyStr
  | text _ items => rawText items
  | code _ _ cdata => cdata.raw
  | tag items => tagText items

/-- The segment with a placeholder for a CDATA section. -/
def held : Segment → PyStr
  | text _ items => rawText items
  | code _ n _ => placeholder n
  | tag items => tagText items

def shown (tables : Tables) : Segment → PyStr
  | text _ items => written tables items
  | code _ _ cdata => cdata.body
  | tag _ => []

def isRead : Segment → Bool
  | text outside _ => outside
  | code outside _ _ => outside
  | tag _ => false

def items : Segment → List Item
  | text _ items => items
  | code _ _ _ => []
  | tag _ => []

/-- A tag ends at its first `>`, is no CDATA section and within the bounds of the patterns. -/
def Valid : Segment → Prop
  | text _ _ => True
  | code _ _ _ => True
  | tag items => 0x3e ∉ rawText items ∧ (rawText items).head? ≠ some 0x21 ∧
      (rawText items).length ≤ 4094

end Segment

def tagSegments (items : List Item) : List Segment :=
  .tag (items.takeWhile (!·.isClose)) ::
    match items.dropWhile (!·.isClose) with
    | [] => []
    | _ :: rest => [.text false (rest ++ [.close])]

def Content.segments : Bool → Content → List Segment
  | _, nil => []
  | outside, text items rest => .text outside items :: segments outside rest
  | outside, cdata code rest => .code outside 0 code :: segments outside rest
  | outside, element name attributes children blanks rest =>
      tagSegments (startTag name attributes) ++ segments (outside && !name.IsMetadata) children ++
        tagSegments (closingTag name blanks) ++ segments outside rest
  | outside, empty name attributes rest =>
      tagSegments (emptyTag name attributes) ++ segments outside rest

def readTexts (tables : Tables) (segments : List Segment) : List PyStr :=
  (segments.filter Segment.isRead).map (Segment.shown tables)

def numbered : ℕ → List Segment → List Segment
  | _, [] => []
  | n, .code outside _ cdata :: segments => .code outside n cdata :: numbered (n + 1) segments
  | n, segment :: segments => segment :: numbered n segments

@[simp] theorem rawText_nil : rawText [] = [] := rfl

@[simp] theorem rawText_cons (item : Item) (items : List Item) :
    rawText (item :: items) = item.raw ++ rawText items := rfl

@[simp] theorem rawText_append (items items' : List Item) :
    rawText (items ++ items') = rawText items ++ rawText items' := List.flatMap_append

@[simp] theorem rawText_itemsOf {s : PyStr} (h : ∀ c ∈ s, c ≠ 0x3c ∧ c ≠ 0x26 ∧ c ≠ 0) :
    rawText (itemsOf s h) = s := by
  induction s with
  | nil => rfl
  | cons c s ih =>
      obtain ⟨_, hs⟩ := List.forall_mem_cons.1 h
      exact congrArg (c :: ·) (ih hs)

theorem Item.mem_raw {item : Item} {c : ℕ} (h : c ∈ item.raw) : c ≠ 0x3c ∧ c ≠ 0 := by
  cases item with
  | char d plain =>
      obtain rfl := List.mem_singleton.1 h
      exact ⟨plain.1, plain.2.2⟩
  | ref name plain =>
      rcases List.mem_cons.1 h with rfl | h
      · decide
      · rcases List.mem_append.1 h with h | h
        · have hplain := plain c h
          simp only [List.mem_cons, not_or] at hplain
          exact ⟨hplain.2.2.2.1, hplain.1⟩
        · obtain rfl := List.mem_singleton.1 h
          decide

theorem mem_rawText {items : List Item} {c : ℕ} (h : c ∈ rawText items) : c ≠ 0x3c ∧ c ≠ 0 := by
  obtain ⟨item, -, hc⟩ := List.mem_flatMap.1 h
  exact Item.mem_raw hc

theorem Item.raw_of_isClose {item : Item} (h : item.isClose) : item.raw = [0x3e] := by
  cases item with
  | char c _ =>
      obtain rfl := of_decide_eq_true h
      rfl
  | ref _ _ => cases h

theorem Item.notMem_raw {item : Item} (h : item.isClose = false) : 0x3e ∉ item.raw := by
  cases item with
  | char c _ => exact fun hmem => of_decide_eq_false h (List.mem_singleton.1 hmem).symm
  | ref name plain =>
      intro hmem
      simp only [raw, List.mem_cons, List.mem_append, List.not_mem_nil, or_false] at hmem
      rcases hmem with hmem | hmem | hmem
      · omega
      · exact plain _ hmem (by decide)
      · omega

theorem notMem_rawText_takeWhile (items : List Item) :
    0x3e ∉ rawText (items.takeWhile (!·.isClose)) := by
  intro h
  obtain ⟨item, hitem, hc⟩ := List.mem_flatMap.1 h
  have hclose := List.mem_takeWhile_imp hitem
  exact Item.notMem_raw (by simpa using hclose) hc

theorem flatMap_tagSegments (f : Segment → PyStr) (items : List Item)
    (htext : ∀ outside items, f (.text outside items) = rawText items)
    (htag : ∀ items, f (.tag items) = tagText items) :
    (tagSegments items).flatMap f = tagText items := by
  have hsplit := List.takeWhile_append_dropWhile (p := (!·.isClose)) (l := items)
  cases h : items.dropWhile (!·.isClose) with
  | nil =>
      rw [h, List.append_nil] at hsplit
      simp only [tagSegments, h, List.flatMap_cons, List.flatMap_nil, htag, hsplit,
        List.append_nil]
  | cons item rest =>
      have hclose : item.isClose := by
        have hhead := List.head?_dropWhile_not (!·.isClose) items
        rw [h] at hhead
        simpa using hhead
      have hraw : rawText items =
          rawText (items.takeWhile (!·.isClose)) ++ 0x3e :: rawText rest := by
        conv_lhs => rw [← hsplit, h]
        rw [rawText_append, rawText_cons, Item.raw_of_isClose hclose]
        rfl
      simp only [tagSegments, h, List.flatMap_cons, List.flatMap_nil, htag, htext, tagText, hraw]
      simp [Item.close, Item.raw]

theorem head?_startTag (name : Name) (attributes : Attributes) :
    ∃ c, (rawText (startTag name attributes)).head? = some c ∧ isMarkup c = false := by
  obtain ⟨c, s, hs⟩ := List.exists_cons_of_ne_nil name.ne_nil
  refine ⟨c, ?_, name.plain c (hs ▸ List.mem_cons_self)⟩
  rw [startTag, rawText_append, Name.items, rawText_itemsOf, hs]
  rfl

theorem head?_rawText_takeWhile {items : List Item} {c : ℕ}
    (h : (rawText (items.takeWhile (!·.isClose))).head? = some c) :
    (rawText items).head? = some c := by
  have hsplit := List.takeWhile_append_dropWhile (p := (!·.isClose)) (l := items)
  rw [← hsplit, rawText_append, List.head?_append, h]
  rfl

theorem valid_of_mem_tagSegments {items : List Item} (hopens : (rawText items).head? ≠ some 0x21)
    (hlength : (tagText items).length ≤ 4096) {segment : Segment}
    (h : segment ∈ tagSegments items) : segment.Valid := by
  rcases List.mem_cons.1 h with rfl | h
  · refine ⟨notMem_rawText_takeWhile items, fun hhead => hopens (head?_rawText_takeWhile hhead), ?_⟩
    have hsplit := List.takeWhile_append_dropWhile (p := (!·.isClose)) (l := items)
    have hle : (rawText (items.takeWhile (!·.isClose))).length ≤ (rawText items).length := by
      conv_rhs => rw [← hsplit, rawText_append, List.length_append]
      exact Nat.le_add_right _ _
    simp only [tagText, List.length_cons, List.length_append, List.length_nil] at hlength
    omega
  · split at h
    · exact absurd h List.not_mem_nil
    · obtain rfl := List.mem_singleton.1 h
      trivial

theorem not_read_of_mem_tagSegments {items : List Item} {segment : Segment}
    (h : segment ∈ tagSegments items) : segment.isRead = false := by
  rcases List.mem_cons.1 h with rfl | h
  · rfl
  · split at h
    · exact absurd h List.not_mem_nil
    · obtain rfl := List.mem_singleton.1 h
      rfl

theorem readTexts_append (tables : Tables) (segments segments' : List Segment) :
    readTexts tables (segments ++ segments') =
      readTexts tables segments ++ readTexts tables segments' := by
  rw [readTexts, List.filter_append, List.map_append]
  rfl

theorem readTexts_cons (tables : Tables) (segment : Segment) (segments : List Segment) :
    readTexts tables (segment :: segments) =
      (if segment.isRead then [segment.shown tables] else []) ++ readTexts tables segments := by
  rw [readTexts, List.filter_cons]
  split_ifs <;> rfl

theorem readTexts_tagSegments (tables : Tables) (items : List Item) :
    readTexts tables (tagSegments items) = [] := by
  have hnone : (tagSegments items).filter Segment.isRead = [] := by
    rw [List.filter_eq_nil_iff]
    intro segment h
    rw [not_read_of_mem_tagSegments h]
    exact Bool.false_ne_true
  rw [readTexts, hnone]
  rfl

namespace Content

theorem flatMap_segments (f : Segment → PyStr)
    (htext : ∀ outside items, f (.text outside items) = rawText items)
    (htag : ∀ items, f (.tag items) = tagText items)
    (hcode : ∀ outside code, f (.code outside 0 code) = code.raw) (outside : Bool) (c : Content) :
    (c.segments outside).flatMap f = c.source := by
  induction c generalizing outside with
  | nil => rfl
  | text items rest ih => rw [segments, List.flatMap_cons, ih, htext, source]
  | cdata code rest ih => rw [segments, List.flatMap_cons, ih, hcode, source]
  | element name attributes children blanks rest ihc ihr =>
      simp only [segments, List.flatMap_append, ihc, ihr, flatMap_tagSegments f _ htext htag,
        source]
  | empty name attributes rest ih =>
      simp only [segments, List.flatMap_append, ih, flatMap_tagSegments f _ htext htag, source]

/-- The segments that a reader sees are the texts of the document. -/
theorem texts_eq (tables : Tables) (outside : Bool) (c : Content) :
    c.texts tables outside = readTexts tables (c.segments outside) := by
  induction c generalizing outside with
  | nil => rfl
  | text items rest ih => rw [texts, segments, readTexts_cons, ih]; rfl
  | cdata code rest ih => rw [texts, segments, readTexts_cons, ih]; rfl
  | element name attributes children blanks rest ihc ihr =>
      simp only [texts, segments, readTexts_append, readTexts_tagSegments, List.nil_append, ihc,
        ihr, List.append_nil]
  | empty name attributes rest ih =>
      rw [texts, segments, readTexts_append, readTexts_tagSegments, ih]
      rfl

theorem valid_of_mem_segments {c : Content} (htags : ∀ tag ∈ c.tags, tag.length ≤ 4096)
    {outside : Bool} {segment : Segment} (h : segment ∈ c.segments outside) : segment.Valid := by
  induction c generalizing outside with
  | nil => exact absurd h List.not_mem_nil
  | text items rest ih =>
      rcases List.mem_cons.1 h with rfl | h
      · trivial
      · exact ih htags h
  | cdata code rest ih =>
      rcases List.mem_cons.1 h with rfl | h
      · trivial
      · exact ih htags h
  | element name attributes children blanks rest ihc ihr =>
      simp only [tags, List.cons_append, List.forall_mem_cons, List.forall_mem_append] at htags
      obtain ⟨hstart, hchildren, hend, hrest⟩ := htags
      simp only [segments, List.mem_append] at h
      rcases h with ((h | h) | h) | h
      · obtain ⟨c, hhead, hc⟩ := head?_startTag name attributes
        refine valid_of_mem_tagSegments (fun hopen => ?_) hstart h
        rw [hhead] at hopen
        cases hopen
        cases hc
      · exact ihc hchildren h
      · exact valid_of_mem_tagSegments (by simp [closingTag, Item.slash, Item.raw]) hend h
      · exact ihr hrest h
  | empty name attributes rest ih =>
      obtain ⟨hempty, hrest⟩ := List.forall_mem_cons.1 htags
      rcases List.mem_append.1 h with h | h
      · obtain ⟨c, hhead, hc⟩ := head?_startTag name attributes
        refine valid_of_mem_tagSegments (fun hopen => ?_) hempty h
        rw [emptyTag, rawText_append, List.head?_append, hhead] at hopen
        cases hopen
        cases hc
      · exact ih hrest h

end Content

theorem valid_of_mem_numbered {n : ℕ} {segments : List Segment}
    (hvalid : ∀ segment ∈ segments, segment.Valid) : ∀ segment ∈ numbered n segments,
      segment.Valid := by
  fun_induction numbered n segments with
  | case1 => exact hvalid
  | case2 n outside k cdata segments ih =>
      obtain ⟨_, hsegments⟩ := List.forall_mem_cons.1 hvalid
      exact List.forall_mem_cons.2 ⟨trivial, ih hsegments⟩
  | case3 n segment segments _ ih =>
      obtain ⟨hsegment, hsegments⟩ := List.forall_mem_cons.1 hvalid
      exact List.forall_mem_cons.2 ⟨hsegment, ih hsegments⟩

theorem readTexts_numbered (tables : Tables) (n : ℕ) (segments : List Segment) :
    readTexts tables (numbered n segments) = readTexts tables segments := by
  fun_induction numbered n segments with
  | case1 => rfl
  | case2 n outside k cdata segments ih =>
      rw [readTexts_cons, readTexts_cons, ih]
      rfl
  | case3 n segment segments _ ih => rw [readTexts_cons, readTexts_cons, ih]

end IcebergSST.Storage

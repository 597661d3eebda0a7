import IcebergSST.Library.StackWalk
import IcebergSST.Wiki

/-!
# Atlassian documents

A field of an issue is a string of wiki markup or an ADF document, a tree of mappings in
which every field may hold anything. `adf_to_text` walks it with a stack of its own; the
document reads the same by recursion.
-/

namespace IcebergSST.Adf

/-- What `json.loads` gives. A scalar is a number or a truth value; an object has its fields
in their order, each key once. -/
inductive Json
  | null
  | scalar
  | string (s : PyStr)
  | array (items : List Json)
  | object (fields : List (PyStr × Json))

abbrev Mapping := List (PyStr × Json)

mutual

def Json.size : Json → ℕ
  | .array items => 1 + sizeOfItems items
  | .object fields => 1 + sizeOfFields fields
  | .null | .scalar | .string _ => 1

def sizeOfItems : List Json → ℕ
  | [] => 0
  | item :: items => item.size + sizeOfItems items

def sizeOfFields : List (PyStr × Json) → ℕ
  | [] => 0
  | (_, value) :: fields => value.size + sizeOfFields fields

end

def Json.asString : Json → Option PyStr
  | .string s => some s
  | _ => none

def Json.asMapping : Json → Option Mapping
  | .object fields => some fields
  | _ => none

/-- The items of a sequence; a string is none here. -/
def Json.asItems : Json → Option (List Json)
  | .array items => some items
  | _ => none

namespace Mapping

variable (node : Mapping)

def get (key : PyStr) : Option Json := (node.find? fun field => field.1 = key).map Prod.snd

def getString (key : String) : Option PyStr := (get node (pyStr key)).bind Json.asString

def getMapping (key : String) : Option Mapping := (get node (pyStr key)).bind Json.asMapping

def getItems (key : String) : Option (List Json) := (get node (pyStr key)).bind Json.asItems

end Mapping

def maxAdfNodes : ℕ := 200000

def maxAdfDepth : ℕ := 100

def adfBlocks : List String :=
  ["blockquote", "bodiedSyncBlock", "bulletList", "codeBlock", "decisionItem", "decisionList",
    "expand", "extensionFrame", "heading", "layoutColumn", "layoutSection", "listItem",
    "mediaGroup", "mediaSingle", "nestedExpand", "orderedList", "panel", "paragraph", "rule",
    "syncBlock", "table", "tableRow", "taskItem", "taskList"]

def adfAttrText : List String := ["emoji", "mention", "status"]

def adfCells : List String := ["tableCell", "tableHeader"]

def hasType (types : List String) (node : Mapping) : Bool :=
  (node.getString "type").any (types.map pyStr).contains

/-- The URL a mark points at, if it is a link. -/
def markLink (mark : Json) : Option PyStr := do
  let mark ← mark.asMapping
  if mark.getString "type" = some (pyStr "link") then
    let href ← (← mark.getMapping "attrs").getString "href"
    if href ≠ [] then return href else none
  else none

def adfLink (node : Mapping) : Option PyStr :=
  match ((node.getMapping "attrs").bind (Mapping.getString · "url")).filter (· ≠ []) with
  | some url => some url
  | none => ((node.getItems "marks").getD []).findSome? markLink

def nodeText (node : Mapping) : PyStr :=
  match node.getString "text" with
  | some text => text
  | none =>
      if hasType adfAttrText node then
        ((node.getMapping "attrs").bind (Mapping.getString · "text")).getD []
      else []

def linkText (node : Mapping) : PyStr := (adfLink node).elim [] fun link => 0x20 :: link

def children (node : Mapping) : List Mapping :=
  ((node.getItems "content").getD []).filterMap Json.asMapping

/-- What a block ends with. -/
def separator (node : Mapping) (inCell : Bool) : List PyStr :=
  if hasType adfBlocks node then [if inCell then [0x20] else [0xa]] else []

def nested (node : Mapping) (inCell : Bool) : Bool := inCell || hasType adfCells node

theorem size_le_of_mem_items {item : Json} {items : List Json} (h : item ∈ items) :
    item.size ≤ sizeOfItems items := by
  induction items with
  | nil => cases h
  | cons first items ih =>
      rw [sizeOfItems]
      rcases List.mem_cons.1 h with rfl | h
      · exact Nat.le_add_right _ _
      · exact (ih h).trans (Nat.le_add_left _ _)

theorem size_le_of_mem_fields {field : PyStr × Json} {fields : Mapping} (h : field ∈ fields) :
    field.2.size ≤ sizeOfFields fields := by
  induction fields with
  | nil => cases h
  | cons first fields ih =>
      obtain ⟨key, value⟩ := first
      rw [sizeOfFields]
      rcases List.mem_cons.1 h with rfl | h
      · exact Nat.le_add_right _ _
      · exact (ih h).trans (Nat.le_add_left _ _)

theorem size_lt_of_mem_children {node child : Mapping} (h : child ∈ children node) :
    sizeOfFields child < sizeOfFields node := by
  obtain ⟨item, hitem, hchild⟩ := List.mem_filterMap.1 h
  have hobject : item = .object child := by
    cases item <;> simp_all [Json.asMapping]
  cases hcontent : node.getItems "content" with
  | none => simp [hcontent] at hitem
  | some items =>
      simp only [hcontent, Option.getD_some] at hitem
      obtain ⟨content, hget, harray⟩ := Option.bind_eq_some_iff.1 hcontent
      have hitems : content = .array items := by
        cases content <;> simp_all [Json.asItems]
      obtain ⟨field, hfield, rfl⟩ := Option.map_eq_some_iff.1 hget
      have hfields := size_le_of_mem_fields (List.mem_of_find?_eq_some hfield)
      have hitems' := size_le_of_mem_items hitem
      rw [hitems, Json.size] at hfields
      rw [hobject, Json.size] at hitems'
      omega

/-- What lies on the stack: a literal separator, or a node with its depth and whether it
stands in a table cell. -/
inductive Item
  | separator (s : PyStr)
  | node (node : Mapping) (depth : ℕ) (inCell : Bool)

/-- A turn of the loop, with what is left of the budget. It ends where the document is too
complex. -/
def turn (budget : ℕ) : Item → WalkTurn ℕ Item PyStr
  | .separator s => { emitted := [s], next := some ([], budget) }
  | .node node depth inCell =>
      if budget = 0 ∨ maxAdfDepth < depth then { emitted := [], next := none }
      else
        { emitted := [nodeText node, linkText node]
          next := some
            ((children node).map (fun child => .node child (depth + 1) (nested node inCell)) ++
              (separator node inCell).map .separator, budget - 1) }

def Item.rank : Item → ℕ
  | .separator _ => 0
  | .node mapping _ _ => 1 + sizeOfFields mapping

def walker : StackWalk ℕ Item PyStr where
  turn := turn
  rank := Item.rank
  rank_lt := by
    intro budget item items budget' h b hb
    cases item with
    | separator s =>
        obtain ⟨rfl, -⟩ := Prod.mk.inj (Option.some.inj h)
        cases hb
    | node node depth inCell =>
        simp only [turn] at h
        split_ifs at h
        obtain ⟨rfl, -⟩ := Prod.mk.inj (Option.some.inj h)
        rcases List.mem_append.1 hb with hb | hb
        · obtain ⟨child, hchild, rfl⟩ := List.mem_map.1 hb
          have hlt := size_lt_of_mem_children hchild
          simp only [Item.rank]
          omega
        · obtain ⟨s, -, rfl⟩ := List.mem_map.1 hb
          simp only [Item.rank]
          omega

/-- `none` is a `_DocumentTooComplex`. -/
def adfToText (document : Mapping) : Option PyStr :=
  match walker.run maxAdfNodes [.node document 0 false] with
  | (parts, some _) => some (tidy parts.flatten)
  | (_, none) => none

def issueFieldText (digits : DecimalDigits) (fields : Mapping) (key : PyStr) : Bool × PyStr :=
  match fields.get key with
  | none => (false, [])
  | some .null => (true, [])
  | some (.string value) => (true, Wiki.wikiToText digits value)
  | some (.object value) =>
      if Mapping.getString value "type" = some (pyStr "doc") then
        match adfToText value with
        | some text => (true, text)
        | none => (false, [])
      else (false, [])
  | some .scalar | some (.array _) => (false, [])

/-- A node's text, its link, its children one after the other, and what ends it. -/
def reading (inCell : Bool) (node : Mapping) : PyStr :=
  nodeText node ++ linkText node ++
    ((children node).attach.flatMap fun child => reading (nested node inCell) child.1) ++
    (separator node inCell).flatten
termination_by sizeOfFields node
decreasing_by exact size_lt_of_mem_children child.2

def nodes (node : Mapping) : ℕ := 1 + ((children node).attach.map fun child => nodes child.1).sum
termination_by sizeOfFields node
decreasing_by exact size_lt_of_mem_children child.2

def height (node : Mapping) : ℕ :=
  ((children node).attach.map fun child => height child.1 + 1).foldr max 0
termination_by sizeOfFields node
decreasing_by exact size_lt_of_mem_children child.2

theorem reading_eq (inCell : Bool) (node : Mapping) : reading inCell node =
    nodeText node ++ linkText node ++ (children node).flatMap (reading (nested node inCell)) ++
      (separator node inCell).flatten := by
  rw [reading, List.flatMap_subtype (g := reading (nested node inCell)) fun _ _ => rfl,
    List.unattach_attach]

theorem nodes_eq (node : Mapping) : nodes node = 1 + ((children node).map nodes).sum := by
  rw [nodes, List.map_subtype (g := nodes) fun _ _ => rfl, List.unattach_attach]

theorem height_le_iff (node : Mapping) (levels : ℕ) :
    height node ≤ levels ↔ ∀ child ∈ children node, height child + 1 ≤ levels := by
  rw [height, List.map_subtype (g := fun child => height child + 1) fun _ _ => rfl,
    List.unattach_attach]
  induction children node with
  | nil => simp
  | cons child rest ih => rw [List.map_cons, List.foldr_cons, max_le_iff, ih, List.forall_mem_cons]

def outcome (walked : List PyStr × Option ℕ) : Option (PyStr × ℕ) :=
  walked.2.map fun budget => (walked.1.flatten, budget)

/-- With a text before what the rest of the walk says. -/
def saying (text : PyStr) (walked : Option (PyStr × ℕ)) : Option (PyStr × ℕ) :=
  walked.map fun rest => (text ++ rest.1, rest.2)

theorem saying_append (text text' : PyStr) (walked : Option (PyStr × ℕ)) :
    saying text (saying text' walked) = saying (text ++ text') walked := by
  cases walked <;> simp [saying]

theorem run_separators (budget : ℕ) (seps : List PyStr) (stack : List Item) :
    outcome (walker.run budget (seps.map .separator ++ stack)) =
      saying seps.flatten (outcome (walker.run budget stack)) := by
  induction seps with
  | nil => cases h : outcome (walker.run budget stack) <;> simp [saying, h]
  | cons s seps ih =>
      have hpush : (walker.turn budget (.separator s)).next = some ([], budget) := rfl
      rw [List.map_cons, List.cons_append, StackWalk.run_of_push hpush,
        List.nil_append, List.flatten_cons, ← saying_append, ← ih]
      simp [outcome, saying, walker, turn, Function.comp_def]

/-- What the walk makes of a node, if its document is read from there. -/
def Reads (node : Mapping) : Prop :=
  ∀ budget depth inCell stack, outcome (walker.run budget (.node node depth inCell :: stack)) =
    if nodes node ≤ budget ∧ depth + height node ≤ maxAdfDepth then
      saying (reading inCell node) (outcome (walker.run (budget - nodes node) stack))
    else none

theorem run_siblings {siblings : List Mapping} (h : ∀ n ∈ siblings, Reads n)
    (budget depth : ℕ) (inCell : Bool) (stack : List Item) :
    outcome (walker.run budget (siblings.map (Item.node · depth inCell) ++ stack)) =
      if (siblings.map nodes).sum ≤ budget ∧ ∀ n ∈ siblings, depth + height n ≤ maxAdfDepth then
        saying (siblings.flatMap (reading inCell))
          (outcome (walker.run (budget - (siblings.map nodes).sum) stack))
      else none := by
  induction siblings generalizing budget with
  | nil =>
      have hnone : saying [] (outcome (walker.run budget stack)) =
          outcome (walker.run budget stack) := by simp [saying]
      simp [hnone]
  | cons n siblings ih =>
      obtain ⟨hn, hrest⟩ := List.forall_mem_cons.1 h
      rw [List.map_cons, List.cons_append, hn, ih hrest]
      simp only [List.map_cons, List.sum_cons, List.forall_mem_cons, List.flatMap_cons,
        ← saying_append]
      by_cases hfirst : nodes n ≤ budget ∧ depth + height n ≤ maxAdfDepth
      · have hbudget : (siblings.map nodes).sum ≤ budget - nodes n ↔
            nodes n + (siblings.map nodes).sum ≤ budget := by omega
        rw [if_pos hfirst]
        simp only [hbudget, hfirst.2, true_and, ← Nat.sub_sub]
        split_ifs <;> rfl
      · rw [if_neg hfirst, if_neg]
        rintro ⟨hsum, hdepth, -⟩
        exact hfirst ⟨by omega, hdepth⟩

/-- The walk reads a node as the recursion does, or ends in it. -/
theorem reads (node : Mapping) : Reads node := by
  induction hsize : sizeOfFields node using Nat.strongRecOn generalizing node with
  | ind size ih =>
    intro budget depth inCell stack
    by_cases hend : budget = 0 ∨ maxAdfDepth < depth
    · have hturn : (walker.turn budget (.node node depth inCell)).next = none := by
        simp [walker, turn, hend]
      have hnodes : 1 ≤ nodes node := nodes_eq node ▸ Nat.le_add_right _ _
      rw [StackWalk.run_of_end hturn, if_neg (by omega)]
      rfl
    · let items := (children node).map (Item.node · (depth + 1) (nested node inCell)) ++
        (separator node inCell).map .separator
      have hturn : walker.turn budget (.node node depth inCell) =
          { emitted := [nodeText node, linkText node], next := some (items, budget - 1) } := by
        simp [walker, turn, hend, items]
      have hchildren : ∀ child ∈ children node, Reads child := fun child hchild =>
        ih _ (hsize ▸ size_lt_of_mem_children hchild) child rfl
      have hrun : outcome (walker.run budget (.node node depth inCell :: stack)) =
          saying (nodeText node ++ linkText node)
            (outcome (walker.run (budget - 1) (items ++ stack))) := by
        rw [StackWalk.run_of_push (congrArg WalkTurn.next hturn), hturn]
        simp [outcome, saying, Function.comp_def]
      have hcond : ((children node).map nodes).sum ≤ budget - 1 ∧
          (∀ child ∈ children node, depth + 1 + height child ≤ maxAdfDepth) ↔
          nodes node ≤ budget ∧ depth + height node ≤ maxAdfDepth := by
        have hheight := height_le_iff node (maxAdfDepth - depth)
        rw [nodes_eq]
        refine and_congr (by omega) ?_
        rw [show depth + height node ≤ maxAdfDepth ↔ height node ≤ maxAdfDepth - depth by omega,
          hheight]
        exact forall₂_congr fun child _ => by omega
      have hbudget : budget - 1 - ((children node).map nodes).sum = budget - nodes node := by
        rw [nodes_eq, Nat.sub_sub]
      rw [hrun, List.append_assoc, run_siblings hchildren, run_separators, hbudget, saying_append,
        reading_eq]
      simp only [hcond]
      split_ifs
      · simp only [saying_append, List.append_assoc]
      · rfl

theorem adfToText_eq (document : Mapping) : adfToText document =
    if nodes document ≤ maxAdfNodes ∧ height document ≤ maxAdfDepth then
      some (tidy (reading false document))
    else none := by
  have hread := reads document maxAdfNodes 0 false []
  rw [StackWalk.run_nil, Nat.zero_add] at hread
  unfold adfToText
  generalize walker.run maxAdfNodes [.node document 0 false] = walked at hread ⊢
  obtain ⟨parts, _ | budget⟩ := walked
  · split_ifs at hread ⊢
    · cases hread
    · rfl
  · split_ifs at hread ⊢
    · have htext : parts.flatten = reading false document ++ [] :=
        congrArg Prod.fst (Option.some.inj hread)
      rw [List.append_nil] at htext
      exact congrArg (fun text => some (tidy text)) htext
    · cases hread

/-- A field that holds a document reads as its recursion does, tidied, unless the document
has too many nodes or one too deep; then it is unread. -/
theorem document_read_whole (digits : DecimalDigits) (fields : Mapping) (key : PyStr)
    (document : Mapping) (hfield : fields.get key = some (.object document))
    (hdoc : document.getString "type" = some (pyStr "doc")) :
    issueFieldText digits fields key =
      if nodes document ≤ maxAdfNodes ∧ height document ≤ maxAdfDepth then
        (true, tidy (reading false document))
      else (false, []) := by
  simp only [issueFieldText, hfield, if_pos hdoc, adfToText_eq]
  split_ifs <;> rfl

/-! A link, and two paragraphs in the cells of a row of a table. -/

def typed (type : String) (content : List Mapping) : Mapping :=
  [(pyStr "type", .string (pyStr type)), (pyStr "content", .array (content.map .object))]

def said (text : String) : Mapping :=
  [(pyStr "type", .string (pyStr "text")), (pyStr "text", .string (pyStr text))]

def linked (text url : String) : Mapping :=
  said text ++ [(pyStr "marks", .array [.object
    [(pyStr "type", .string (pyStr "link")),
      (pyStr "attrs", .object [(pyStr "href", .string (pyStr url))])]])]

def credentialsPage : Mapping :=
  typed "doc"
    [typed "paragraph" [linked "login" "http://h/x"],
      typed "table" [typed "tableRow"
        [typed "tableCell" [typed "paragraph" [said "user"]],
          typed "tableCell" [typed "paragraph" [said "pw"]]]]]

theorem credentialsPage_read_whole :
    issueFieldText asciiDigits [(pyStr "summary", .object credentialsPage)] (pyStr "summary") =
      (true, pyStr "login http://h/x\nuser pw") := by
  have hsize : nodes credentialsPage ≤ maxAdfNodes ∧ height credentialsPage ≤ maxAdfDepth := by
    decide +kernel
  have htext : tidy (reading false credentialsPage) = pyStr "login http://h/x\nuser pw" := by
    decide +kernel
  rw [document_read_whole asciiDigits _ _ credentialsPage (by rfl) (by decide), if_pos hsize, htext]

end IcebergSST.Adf

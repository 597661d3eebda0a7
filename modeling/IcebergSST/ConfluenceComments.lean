import IcebergSST.ConfluenceWatermark
import IcebergSST.Library.Worklist
import IcebergSST.Storage
import IcebergSST.Units

/-!
# The comments of a page

A page has comments that have replies, which have replies. Each collection is listed page
by page and may fail with a part of its rows delivered. The site may list a comment again,
as a reply to itself even; no comment is read twice.
-/

namespace IcebergSST.Confluence

open Content

/-- A body by the names of its representations, where the value is a text. -/
structure Body where
  storage : Option PyStr := none
  view : Option PyStr := none
  deriving DecidableEq

inductive BodyText
  | unsupported
  | text (t : PyStr)
  /-- The exception of `html.unescape`. -/
  | raised
  deriving DecidableEq

def supportedBodyText (tables : Storage.Tables) (body : Option Body) : BodyText :=
  match body.bind fun b => b.storage.or b.view with
  | none => .unsupported
  | some value => (Storage.storageToText tables value).elim .raised .text

/-- The keys of a page that `for_page` looks at, and what stands there. -/
structure Payload where
  body : Option Body := none
  title : Option (Option PyStr) := none
  /-- `_links`, and its `webui` -/
  links : Option (Option PyStr) := none
  deriving DecidableEq

def Payload.merge (page detail : Payload) : Payload where
  body := detail.body.or page.body
  title := detail.title.or page.title
  links := detail.links.or page.links

/-- The id is empty if the row has none. -/
structure Comment where
  id : PyStr
  body : Option Body
  deriving DecidableEq

structure Attachment where
  id : PyStr
  title : PyStr
  hasLink : Bool
  fileSize : Option ℤ
  mediaType : Option PyStr
  /-- What `get_bytes` makes of the link. -/
  download : Download

inductive CommentEndpoint
  | footer
  | inline
  deriving DecidableEq, Repr

def commentEndpoints : List CommentEndpoint := [.footer, .inline]

/-- A page as the listing shows it, with the answers to what is requested about it. A site
lists finitely many comments. -/
structure PageSite where
  page : Page
  listed : Payload
  detail : Except Raised Payload
  comments : CommentEndpoint → Listing Comment
  children : CommentEndpoint → PyStr → Listing Comment
  attachments : Listing Attachment
  commentIds : Finset PyStr
  comments_listed : ∀ endpoint, ∀ c ∈ (comments endpoint).rows, c.id ∈ commentIds
  children_listed : ∀ endpoint id, ∀ c ∈ (children endpoint id).rows, c.id ∈ commentIds

inductive Reference
  | text (s : PyStr)
  | collection (page : PyStr) (name : PyStr)
  | resume (space : PyStr) (page : PyStr)
  deriving DecidableEq

/-- The identity of a unit. A blank one cannot be built. -/
structure Locator where
  resourceId : PyStr
  subResource : Option PyStr
  not_blank : blank resourceId = false

instance : DecidableEq Locator := fun l l' =>
  decidable_of_iff (l.resourceId = l'.resourceId ∧ l.subResource = l'.subResource) (by
    cases l
    cases l'
    simp)

inductive ContentOrigin
  | body
  | comment
  | attachment
  deriving DecidableEq, Repr

structure PageContext where
  space : PyStr
  spaceName : Option PyStr
  title : Option PyStr
  path : PyStr
  url : PyStr
  deriving DecidableEq

/-- What a unit displays besides the context of its page. -/
inductive Display
  | page
  | comment (commentId : PyStr)
  | attachment (filename : PyStr) (mediaType : Option PyStr) (truncated : Bool)
  deriving DecidableEq

structure PageUnit where
  locator : Locator
  text : PyStr
  origin : ContentOrigin
  context : PageContext
  display : Display
  deriving DecidableEq

abbrev PageEvent := ObjectEvent Reference PageUnit

abbrev PageStretch := Stretch Reference PageUnit

structure ConfluenceConnector where
  tables : Storage.Tables
  readers : Readers
  limits : ExtractionLimits := {}
  /-- `client.resolve` -/
  resolve : PyStr → PyStr
  spaceKey : PyStr := []
  spaceName : Option PyStr := none
  wantComments : Bool := true
  wantAttachments : Bool := true

namespace PageSite

variable (c : ConfluenceConnector) (s : PageSite)

def pageId : PyStr := pyStr s.page.id

/-- A unit of the page; none is the `ValueError` of a locator with a blank id. -/
def unit (context : PageContext) (subResource : Option PyStr) (text : PyStr)
    (origin : ContentOrigin) (display : Display) : Option PageUnit :=
  if h : blank s.pageId = false then
    some { locator := ⟨s.pageId, subResource, h⟩, text, origin, context, display }
  else none

/-- The rows of a listing that name a comment, and the failures of those that do not. -/
def identified (rows : List Comment) : List Comment := rows.filter fun row => row.id ≠ []

def unidentified (rows : List Comment) : List PageEvent :=
  (rows.filter fun row => row.id = []).map fun _ => .failed .invalidMetadata .comment none

def commentSubResource (id : PyStr) : PyStr := pyStr "comment:" ++ id

def commentBody (context : PageContext) (row : Comment) : PageStretch :=
  match supportedBodyText c.tables row.body with
  | .unsupported => ⟨[.failed .invalidResponse .comment (some (.text row.id))], none⟩
  | .raised => ⟨[], some .unexpected⟩
  | .text t =>
      if t = [] then ⟨[.skipped .emptyContent .comment (some (.text row.id))], none⟩
      else (⟨[.scanned .comment (.text row.id)], none⟩ : PageStretch).andThen
        (yielding (s.unit context (some (commentSubResource row.id)) t .comment (.comment row.id)))

/-- One turn over `pending`: the comment, then the listing of its replies. -/
def commentTurn (endpoint : CommentEndpoint) (context : PageContext) (row : Comment) :
    PageStretch :=
  let replies := s.children endpoint row.id
  (s.commentBody c context row).andThen ⟨unidentified replies.rows, replies.raised⟩

/-- The loop over `pending`, at most so many turns of it. -/
def drain (endpoint : CommentEndpoint) (context : PageContext) :
    ℕ → Worklist.Pending Comment PyStr → Option PageStretch
  | _, ⟨[], _⟩ => some ⟨[], none⟩
  | 0, _ => none
  | turns + 1, ⟨row :: queue, seen⟩ =>
      let turn := s.commentTurn c endpoint context row
      if turn.raised.isSome then some turn
      else
        (drain endpoint context turns (Worklist.Pending.offerAll Comment.id ⟨queue, seen⟩
          (identified (s.children endpoint row.id).rows))).map turn.andThen

def replies (endpoint : CommentEndpoint) (id : PyStr) : List Comment :=
  identified (s.children endpoint id).rows

def roots (endpoint : CommentEndpoint) : List Comment := identified (s.comments endpoint).rows

def commentWalk (endpoint : CommentEndpoint) (context : PageContext) :
    List Comment × Worklist.Ending :=
  Worklist.walk Comment.id (s.replies endpoint)
    (fun row => (s.commentTurn c endpoint context row).raised.isSome) s.commentIds.card
    (Worklist.start Comment.id (s.roots endpoint))

/-- A comment the site lists somewhere in the thread. -/
def ListsComment (endpoint : CommentEndpoint) (row : Comment) : Prop :=
  Worklist.Listed Comment.id (s.replies endpoint) (s.roots endpoint) row

/-- The id of a comment at the page, or of a reply to a reply, however deep. -/
def HasComment (endpoint : CommentEndpoint) (id : PyStr) : Prop :=
  Worklist.Reachable Comment.id (s.replies endpoint) (s.roots endpoint) id

variable {c s} {endpoint : CommentEndpoint} {context : PageContext} {row : Comment}

theorem HasComment.mem_commentIds {id : PyStr} (h : s.HasComment endpoint id) :
    id ∈ s.commentIds := by
  cases h with
  | root hrow => exact s.comments_listed endpoint _ (List.mem_of_mem_filter hrow)
  | step _ hrow => exact s.children_listed endpoint _ _ (List.mem_of_mem_filter hrow)

/-- The loop tells the turns of the walk over the thread. -/
theorem drain_eq (turns : ℕ) (p : Worklist.Pending Comment PyStr) :
    s.drain c endpoint context turns p =
      match Worklist.walk Comment.id (s.replies endpoint)
        (fun row => (s.commentTurn c endpoint context row).raised.isSome) turns p with
      | (_, .unfinished) => none
      | (visited, _) => some (Stretch.concat (visited.map (s.commentTurn c endpoint context))) := by
  induction turns generalizing p with
  | zero =>
      obtain ⟨_ | ⟨row, queue⟩, seen⟩ := p
      · simp [drain, Worklist.walk, Stretch.concat]
      · simp [drain, Worklist.walk]
  | succ turns ih =>
      obtain ⟨_ | ⟨row, queue⟩, seen⟩ := p
      · simp [drain, Worklist.walk, Stretch.concat]
      · unfold drain Worklist.walk
        by_cases hraised : (s.commentTurn c endpoint context row).raised.isSome
        · simp [hraised, Stretch.concat, Stretch.andThen_of_raised hraised]
        · simp only [hraised, Bool.false_eq_true, if_false]
          rw [ih]
          have hrest : s.replies endpoint row.id =
              identified (s.children endpoint row.id).rows := rfl
          rw [hrest]
          split
          · simp [*]
          · simp [*, Stretch.concat]

theorem commentWalk_ne_unfinished : (s.commentWalk c endpoint context).2 ≠ .unfinished :=
  Worklist.walk_ne_unfinished
    (fun _ hrow => HasComment.mem_commentIds (Worklist.Listed.reachable hrow)) le_rfl

/-- As many turns as the site has comments are enough. -/
theorem drain_start :
    s.drain c endpoint context s.commentIds.card (Worklist.start Comment.id (s.roots endpoint)) =
      some (Stretch.concat ((s.commentWalk c endpoint context).1.map
        (s.commentTurn c endpoint context))) := by
  have hend : (s.commentWalk c endpoint context).2 ≠ .unfinished := commentWalk_ne_unfinished
  rw [drain_eq]
  unfold commentWalk at hend ⊢
  split
  · rename_i h
    rw [h] at hend
    exact absurd rfl hend
  · rename_i h
    rw [h]

variable (c s endpoint context) in
/-- The comments of one kind: the listing at the page, then the loop. -/
def commentUnits : PageStretch :=
  let listing := s.comments endpoint
  (⟨unidentified listing.rows, listing.raised⟩ : PageStretch).andThen
    ((s.drain c endpoint context s.commentIds.card
      (Worklist.start Comment.id (s.roots endpoint))).get (by rw [drain_start]; rfl))

theorem flatMap_sublist_map {α β : Type} {f : α → List β} {g : α → β} {l : List α}
    (h : ∀ a ∈ l, (f a).Sublist [g a]) : (l.flatMap f).Sublist (l.map g) := by
  induction l with
  | nil => exact .slnil
  | cons a l ih =>
      rw [List.flatMap_cons, List.map_cons, ← List.singleton_append]
      exact (h a List.mem_cons_self).append (ih fun b hb => h b (List.mem_cons_of_mem _ hb))

theorem filter_disposed_unidentified (rows : List Comment) :
    ((unidentified rows).filterMap ObjectEvent.disposed).filter (fun d => d.2.isSome) = [] := by
  rw [unidentified, List.filterMap_map, List.filter_eq_nil_iff]
  intro d hd
  obtain ⟨_, -, hd⟩ := List.mem_filterMap.1 hd
  rw [← Option.some.inj hd]
  simp

theorem filterMap_unit?_unidentified (rows : List Comment) :
    (unidentified rows).filterMap ObjectEvent.unit? = [] := by
  rw [unidentified, List.filterMap_map, List.filterMap_eq_nil_iff]
  exact fun _ _ => rfl

/-- At most one disposition; the exception of a body that cannot be unescaped leaves none. -/
theorem disposed_commentBody :
    (s.commentBody c context row).disposed.Sublist [(.comment, some (.text row.id))] ∧
      ((s.commentBody c context row).raised = none →
        (s.commentBody c context row).disposed = [(.comment, some (.text row.id))]) := by
  unfold commentBody
  cases supportedBodyText c.tables row.body with
  | unsupported => exact ⟨.refl _, fun _ => rfl⟩
  | raised => exact ⟨List.nil_sublist _, fun h => by cases h⟩
  | text t =>
      by_cases ht : t = []
      · simp only [if_pos ht]
        exact ⟨.refl _, fun _ => rfl⟩
      · simp only [if_neg ht]
        cases s.unit context (some (commentSubResource row.id)) t .comment (.comment row.id) <;>
          exact ⟨.refl _, fun _ => rfl⟩

/-- The unit of a comment: its text, under its own id. -/
structure IsCommentUnit (c : ConfluenceConnector) (s : PageSite) (context : PageContext)
    (row : Comment) (u : PageUnit) : Prop where
  text : supportedBodyText c.tables row.body = .text u.text
  resourceId : u.locator.resourceId = s.pageId
  subResource : u.locator.subResource = some (commentSubResource row.id)
  context : u.context = context

theorem unit_eq_some {subResource : Option PyStr} {text : PyStr} {origin : ContentOrigin}
    {display : Display} {u : PageUnit}
    (h : s.unit context subResource text origin display = some u) :
    u.locator.resourceId = s.pageId ∧ u.locator.subResource = subResource ∧ u.text = text ∧
      u.origin = origin ∧ u.context = context ∧ u.display = display := by
  unfold unit at h
  split_ifs at h
  obtain rfl := Option.some.inj h
  exact ⟨rfl, rfl, rfl, rfl, rfl, rfl⟩

theorem units_commentBody {u : PageUnit} (h : u ∈ (s.commentBody c context row).units) :
    IsCommentUnit c s context row u ∧ (s.commentBody c context row).units = [u] := by
  unfold commentBody at h ⊢
  cases hbody : supportedBodyText c.tables row.body with
  | unsupported => rw [hbody] at h; cases h
  | raised => rw [hbody] at h; cases h
  | text t =>
      rw [hbody] at h
      by_cases ht : t = []
      · simp only [if_pos ht] at h
        cases h
      · simp only [if_neg ht] at h ⊢
        cases hunit : s.unit context (some (commentSubResource row.id)) t .comment
            (.comment row.id) with
        | none => rw [hunit] at h; cases h
        | some v =>
            rw [hunit] at h
            obtain rfl : u = v := List.mem_singleton.1 h
            obtain ⟨hid, hsub, htext, -, hcontext, -⟩ := unit_eq_some hunit
            exact ⟨⟨htext ▸ hbody, hid, hsub, hcontext⟩, rfl⟩

theorem subResource_commentBody :
    ((s.commentBody c context row).units.map fun u => u.locator.subResource).Sublist
      [some (commentSubResource row.id)] := by
  cases hunits : (s.commentBody c context row).units with
  | nil => exact List.nil_sublist _
  | cons u us =>
      obtain ⟨hu, hone⟩ := units_commentBody (hunits ▸ List.mem_cons_self)
      rw [hunits] at hone
      rw [hone, List.map_singleton, hu.subResource]

theorem commentTurn_filter :
    (s.commentTurn c endpoint context row).disposed.filter (fun d => d.2.isSome) =
        (s.commentBody c context row).disposed.filter (fun d => d.2.isSome) ∧
      (s.commentTurn c endpoint context row).units = (s.commentBody c context row).units := by
  unfold commentTurn
  cases hraised : (s.commentBody c context row).raised with
  | some r =>
      rw [Stretch.andThen_of_raised (s := s.commentBody c context row) (by simp [hraised])]
      exact ⟨rfl, rfl⟩
  | none =>
      rw [Stretch.andThen_of_not_raised hraised]
      simp [Stretch.disposed, Stretch.units, filter_disposed_unidentified,
        filterMap_unit?_unidentified]

theorem events_commentWalk :
    (Stretch.concat ((s.commentWalk c endpoint context).1.map
        (s.commentTurn c endpoint context))).events =
      (s.commentWalk c endpoint context).1.flatMap fun row =>
        (s.commentTurn c endpoint context row).events := by
  cases hend : (s.commentWalk c endpoint context).2 with
  | unfinished => exact absurd hend commentWalk_ne_unfinished
  | finished =>
      rw [Stretch.events_concat, List.flatMap_map]
      intro turn hturn
      obtain ⟨row, hrow, rfl⟩ := List.mem_map.1 hturn
      simpa using Worklist.walk_finished hend row hrow
  | stopped =>
      -- the turn that raised is the last of the walk
      obtain ⟨before, last, hwalk, hlast, hbefore⟩ := Worklist.walk_stopped hend
      have hwalk : (s.commentWalk c endpoint context).1 = before ++ [last] := hwalk
      rw [hwalk, List.map_append, List.map_singleton, Stretch.concat_of_raised _ hlast]
      · simp [List.flatMap_map]
      · intro turn hturn
        obtain ⟨row, hrow, rfl⟩ := List.mem_map.1 hturn
        simpa using hbefore row hrow

def visited (c : ConfluenceConnector) (s : PageSite) (endpoint : CommentEndpoint)
    (context : PageContext) : List Comment :=
  if (s.comments endpoint).raised.isSome then [] else (s.commentWalk c endpoint context).1

theorem events_commentUnits :
    (s.commentUnits c endpoint context).events = unidentified (s.comments endpoint).rows ++
      (s.visited c endpoint context).flatMap fun row =>
        (s.commentTurn c endpoint context row).events := by
  unfold commentUnits visited
  simp only [drain_start, Option.get_some]
  cases hraised : (s.comments endpoint).raised with
  | some r =>
      rw [Stretch.andThen_of_raised (by rfl)]
      simp
  | none =>
      rw [Stretch.andThen_of_not_raised (by rfl), events_commentWalk]
      simp

theorem commentUnits_raised (h : (s.commentUnits c endpoint context).raised = none) :
    (s.comments endpoint).raised = none ∧ (s.commentWalk c endpoint context).2 = .finished := by
  unfold commentUnits at h
  simp only [drain_start, Option.get_some] at h
  obtain ⟨hroots, hwalk⟩ := Stretch.raised_andThen.1 h
  refine ⟨hroots, ?_⟩
  cases hend : (s.commentWalk c endpoint context).2 with
  | unfinished => exact absurd hend commentWalk_ne_unfinished
  | finished => rfl
  | stopped =>
      obtain ⟨before, last, hbefore, hlast, -⟩ := Worklist.walk_stopped hend
      have hmem : last ∈ (s.commentWalk c endpoint context).1 := by
        rw [show (s.commentWalk c endpoint context).1 = before ++ [last] from hbefore]
        exact List.mem_append_right _ (List.mem_singleton_self _)
      have hnone := Stretch.raised_concat.1 hwalk _ (List.mem_map_of_mem hmem)
      rw [hnone] at hlast
      cases hlast

theorem nodup_visited : ((s.visited c endpoint context).map Comment.id).Nodup := by
  unfold visited
  split_ifs
  · exact List.nodup_nil
  · exact Worklist.nodup_walk _

theorem listed_of_visited (h : row ∈ s.visited c endpoint context) :
    s.ListsComment endpoint row := by
  unfold visited at h
  split_ifs at h
  · cases h
  · exact Worklist.listed_of_mem_walk h

theorem mem_visited_iff (h : (s.commentUnits c endpoint context).raised = none) {id : PyStr} :
    (∃ row ∈ s.visited c endpoint context, row.id = id) ↔ s.HasComment endpoint id := by
  obtain ⟨hroots, hend⟩ := commentUnits_raised h
  rw [visited, if_neg (by simp [hroots])]
  exact List.mem_map.symm.trans (Worklist.mem_walk_iff hend)

theorem commentTurn_raised (h : (s.commentUnits c endpoint context).raised = none)
    (hrow : row ∈ s.visited c endpoint context) :
    (s.commentTurn c endpoint context row).raised = none := by
  obtain ⟨hroots, hend⟩ := commentUnits_raised h
  rw [visited, if_neg (by simp [hroots])] at hrow
  simpa using Worklist.walk_finished hend row hrow

theorem disposed_commentUnits :
    (s.commentUnits c endpoint context).disposed.filter (fun d => d.2.isSome) =
      (s.visited c endpoint context).flatMap fun row =>
        (s.commentBody c context row).disposed.filter fun d => d.2.isSome := by
  unfold Stretch.disposed
  rw [events_commentUnits, List.filterMap_append, List.filter_append,
    filter_disposed_unidentified, List.nil_append, List.filterMap_flatMap, List.filter_flatMap]
  exact congrArg (List.flatMap · _) (funext fun row => commentTurn_filter.1)

theorem units_commentUnits :
    (s.commentUnits c endpoint context).units =
      (s.visited c endpoint context).flatMap fun row => (s.commentBody c context row).units := by
  unfold Stretch.units
  rw [events_commentUnits, List.filterMap_append, filterMap_unit?_unidentified, List.nil_append,
    List.filterMap_flatMap]
  have hturn : (fun row => (s.commentTurn c endpoint context row).units) =
      fun row => (s.commentBody c context row).units := funext fun _ => commentTurn_filter.2
  exact congrArg (List.flatMap · _) hturn

theorem nodup_disposed :
    ((s.commentUnits c endpoint context).disposed.filter fun d => d.2.isSome).Nodup := by
  have hsub : ((s.commentUnits c endpoint context).disposed.filter fun d => d.2.isSome).Sublist
      ((s.visited c endpoint context).map fun row =>
        (CoverageObjectKind.comment, some (Reference.text row.id))) := by
    rw [disposed_commentUnits]
    exact flatMap_sublist_map fun row _ =>
      (List.filter_sublist (p := fun d => d.2.isSome)).trans disposed_commentBody.1
  refine List.Nodup.sublist hsub ?_
  have hmap : ((s.visited c endpoint context).map Comment.id).Nodup := nodup_visited
  refine List.Nodup.of_map (fun d => d.2) ?_
  rw [List.map_map]
  have hcomp := hmap.map (f := fun id => some (Reference.text id)) fun a b h => by simpa using h
  rwa [List.map_map] at hcomp

theorem nodup_locators :
    ((s.commentUnits c endpoint context).units.map PageUnit.locator).Nodup := by
  have hsub : ((s.commentUnits c endpoint context).units.map
        fun u => u.locator.subResource).Sublist
      ((s.visited c endpoint context).map fun row => some (commentSubResource row.id)) := by
    rw [units_commentUnits, List.map_flatMap]
    exact flatMap_sublist_map fun row _ => subResource_commentBody
  have hmap : ((s.visited c endpoint context).map Comment.id).Nodup := nodup_visited
  have hsubs := hmap.map (f := fun id => some (commentSubResource id)) fun a b h => by
    simpa [commentSubResource] using h
  rw [List.map_map] at hsubs
  refine List.Nodup.of_map (fun l => l.subResource) ?_
  rw [List.map_map]
  exact List.Nodup.sublist hsub hsubs

theorem raised_commentBody (hraised : (s.commentUnits c endpoint context).raised = none)
    (hrow : row ∈ s.visited c endpoint context) : (s.commentBody c context row).raised = none :=
  (Stretch.raised_andThen.1 (commentTurn_raised hraised hrow)).1

theorem mem_disposed_iff (hraised : (s.commentUnits c endpoint context).raised = none)
    (id : PyStr) : s.HasComment endpoint id ↔
      (CoverageObjectKind.comment, some (Reference.text id)) ∈
        (s.commentUnits c endpoint context).disposed := by
  rw [← mem_visited_iff hraised]
  have hfilter : (CoverageObjectKind.comment, some (Reference.text id)) ∈
      (s.commentUnits c endpoint context).disposed ↔
      (CoverageObjectKind.comment, some (Reference.text id)) ∈
      (s.commentUnits c endpoint context).disposed.filter fun d => d.2.isSome := by
    simp [List.mem_filter]
  rw [hfilter, disposed_commentUnits, List.mem_flatMap]
  refine exists_congr fun row => and_congr_right fun hrow => ?_
  rw [disposed_commentBody.2 (raised_commentBody hraised hrow)]
  simp [eq_comm]

/-- Each comment of the thread is reported in the way that its body asks for. -/
theorem HasComment.reported (hraised : (s.commentUnits c endpoint context).raised = none)
    {id : PyStr} (hid : s.HasComment endpoint id) :
    ∃ row, s.ListsComment endpoint row ∧ row.id = id ∧
      (s.commentBody c context row).raised = none ∧
      ∀ e ∈ (s.commentBody c context row).events,
        e ∈ (s.commentUnits c endpoint context).events := by
  obtain ⟨row, hrow, hrid⟩ := (mem_visited_iff hraised).2 hid
  have hbody := raised_commentBody hraised hrow
  refine ⟨row, listed_of_visited hrow, hrid, hbody, fun e he => ?_⟩
  rw [events_commentUnits]
  apply List.mem_append_right
  refine List.mem_flatMap.2 ⟨row, hrow, ?_⟩
  rw [commentTurn, Stretch.andThen_of_not_raised hbody]
  exact List.mem_append_left _ he

/-- Whatever the site lists, and however often: no comment has two dispositions and no two
units have the same identity, a unit holds the text of a comment the site lists, and a
walk that no exception ends has disposed of exactly the comments in the thread, each in
the way that its body asks for. -/
theorem comments_read_once (c : ConfluenceConnector) (s : PageSite) (endpoint : CommentEndpoint)
    (context : PageContext) :
    ((s.commentUnits c endpoint context).disposed.filter fun d => d.2.isSome).Nodup ∧
      ((s.commentUnits c endpoint context).units.map PageUnit.locator).Nodup ∧
      (∀ u ∈ (s.commentUnits c endpoint context).units,
        ∃ row, s.ListsComment endpoint row ∧ IsCommentUnit c s context row u) ∧
      ((s.commentUnits c endpoint context).raised = none → ∀ id,
        (s.HasComment endpoint id ↔
          (CoverageObjectKind.comment, some (Reference.text id)) ∈
            (s.commentUnits c endpoint context).disposed) ∧
        (s.HasComment endpoint id → ∃ row, s.ListsComment endpoint row ∧ row.id = id ∧
          (s.commentBody c context row).raised = none ∧
          ∀ e ∈ (s.commentBody c context row).events,
            e ∈ (s.commentUnits c endpoint context).events)) := by
  refine ⟨nodup_disposed, nodup_locators, ?_, fun hraised id => ?_⟩
  · intro u hu
    rw [units_commentUnits] at hu
    obtain ⟨row, hrow, hu⟩ := List.mem_flatMap.1 hu
    exact ⟨row, listed_of_visited hrow, (units_commentBody hu).1⟩
  · exact ⟨mem_disposed_iff hraised id, fun hid => hid.reported hraised⟩

end PageSite

end IcebergSST.Confluence

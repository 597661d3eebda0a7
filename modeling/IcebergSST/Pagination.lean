import IcebergSST.Library.KeysetWalk
import IcebergSST.PageCursor
import Mathlib.Data.Prod.Lex
import Mathlib.Order.Interval.Finset.Basic

/-!
# Keyset walks

Lists are read in pages and sweeps in batches, both in the order of creation time and id and
both from after the last row that was read. Between two reads anybody may insert rows, delete
them or take them out of the filter, the reader of the rows included: what each read finds is
a table of its own.
-/

namespace IcebergSST

/-- Microseconds since the start of the calendar in UTC, where a naive time is. -/
def Datetime.instant (d : Datetime) : ℤ := d.day * wholeDay + d.time - d.offset.getD 0

namespace Pagination

open PageCursor KeysetWalk Calendar

/-- `(created_at, id)` -/
abbrev Key := ℤ ×ₗ ℕ

def cursorKey (cursor : Cursor) : Key := toLex (cursor.createdAt.instant, cursor.rowId.value)

/-- A row the cursor can address: it has the two columns the order is built on. -/
class Keyed (ρ : Type) where
  createdAt : ρ → Datetime
  id : ρ → Uuid

variable {ρ ι : Type} [Keyed ρ]

def cursorOf (row : ρ) : Cursor := ⟨Keyed.createdAt row, Keyed.id row⟩

def keyOf (row : ρ) : Key := cursorKey (cursorOf row)

structure Select (ρ : Type) where
  criteria : ρ → Bool
  orderBy : ρ → ρ → Bool

def after (statement : Select ρ) (cursor : Option Cursor) : Select ρ :=
  let ordered := { statement with orderBy := fun row row' => keyOf row ≤ keyOf row' }
  match cursor with
  | none => ordered
  | some cursor =>
      { ordered with
        criteria := fun row => ordered.criteria row &&
          ((Keyed.createdAt row).instant > cursor.createdAt.instant ||
            ((Keyed.createdAt row).instant = cursor.createdAt.instant &&
              (Keyed.id row).value > cursor.rowId.value)) }

structure Table (ρ : Type) [Keyed ρ] where
  rows : List ρ
  ids_nodup : (rows.map Keyed.id).Nodup

def exec (statement : Select ρ) (table : Table ρ) (limit : ℕ) : List ρ :=
  ((table.rows.filter statement.criteria).mergeSort statement.orderBy).take limit

structure Page (ι : Type) where
  items : List ι
  nextCursor : Option PyStr

def buildPage (rows : List ρ) (limit : ℕ) (read : ρ → ι) : Page ι :=
  let page := rows.take limit
  let hasMore := limit < rows.length
  { items := page.map read
    nextCursor := if hasMore then page.getLast?.map fun last => (cursorOf last).encode else none }

/-- The table and the statement at one read: a filter may also depend on the time. -/
structure Moment (ρ : Type) [Keyed ρ] where
  table : Table ρ
  statement : Select ρ

def Moment.matching (m : Moment ρ) : List ρ := m.table.rows.filter m.statement.criteria

section

variable (readers : PageCursor.Readers) (nesting : ℕ)

def listRows (limit : ℕ) (read : ρ → ι) (m : Moment ρ) (raw : Option PyStr) :
    Except PageCursor.Refusal (Page ι) := do
  let cursor ← PageCursor.position readers nesting raw
  return buildPage (exec (after m.statement cursor) m.table (limit + 1)) limit read

/-- A client that follows the cursors: what it is given, and what it sends next. -/
def pageTurn (limit : ℕ) (read : ρ → ι) (raw : Option PyStr) (m : Moment ρ) :
    List ι × Option (Option PyStr) :=
  match listRows readers nesting limit read m raw with
  | .ok page => (page.items, page.nextCursor.map some)
  | .error _ => ([], none)

end

/-- One round of `_in_batches`: what it yields, and the cursor of the next round. -/
def batchTurn (size : ℕ) (cursor : Option Cursor) (m : Moment ρ) :
    List ρ × Option (Option Cursor) :=
  let batch := exec (after m.statement cursor) m.table size
  match batch.getLast? with
  | none => ([], none)
  | some last => (batch, if batch.length < size then none else some (some (cursorOf last)))

def followPages (readers : PageCursor.Readers) (nesting limit : ℕ) (read : ρ → ι)
    (moments : ℕ → Moment ρ) :
    ℕ → Walk (Option PyStr) ι :=
  walk (pageTurn readers nesting limit read) none moments

def inBatches (size : ℕ) (moments : ℕ → Moment ρ) : ℕ → Walk (Option Cursor) ρ :=
  walk (batchTurn size) none moments

def remaining (m : Moment ρ) (cursor : Option Cursor) : List ρ :=
  (m.table.rows.filter (after m.statement cursor).criteria).mergeSort
    fun row row' => keyOf row ≤ keyOf row'

theorem exec_after (m : Moment ρ) (cursor : Option Cursor) (limit : ℕ) :
    exec (after m.statement cursor) m.table limit = (remaining m cursor).take limit := by
  cases cursor <;> rfl

theorem after_criteria {statement : Select ρ} {cursor : Option Cursor} {row : ρ} :
    (after statement cursor).criteria row ↔
      statement.criteria row ∧ After (cursor.map cursorKey) (keyOf row) := by
  cases cursor with
  | none => simp [after, After]
  | some cursor =>
      have hcomm : (Keyed.createdAt row).instant = cursor.createdAt.instant ↔
          cursor.createdAt.instant = (Keyed.createdAt row).instant := eq_comm
      simp [after, After, keyOf, cursorKey, cursorOf, Prod.Lex.toLex_lt_toLex, hcomm]

theorem mem_remaining {m : Moment ρ} {cursor : Option Cursor} {row : ρ} :
    row ∈ remaining m cursor ↔ row ∈ m.matching ∧ After (cursor.map cursorKey) (keyOf row) := by
  rw [remaining, List.mem_mergeSort, List.mem_filter, after_criteria, Moment.matching,
    List.mem_filter, and_assoc]

theorem id_eq_of_keyOf_eq {row row' : ρ} (h : keyOf row = keyOf row') :
    Keyed.id row = Keyed.id row' := by
  have hvalue : (Keyed.id row).value = (Keyed.id row').value :=
    congrArg (fun k : Key => (ofLex k).2) h
  cases hid : Keyed.id row
  cases hid' : Keyed.id row'
  rw [hid, hid'] at hvalue
  exact (Uuid.mk.injEq ..).mpr hvalue

theorem keyOf_nodup (table : Table ρ) : (table.rows.map keyOf).Nodup := by
  have hids := List.pairwise_map.1 table.ids_nodup
  exact List.pairwise_map.2 (hids.imp fun hne heq => hne (id_eq_of_keyOf_eq heq))

theorem remaining_sorted (m : Moment ρ) (cursor : Option Cursor) :
    (remaining m cursor).Pairwise fun row row' => keyOf row < keyOf row' := by
  have hperm := List.mergeSort_perm (m.table.rows.filter (after m.statement cursor).criteria)
    fun row row' => keyOf row ≤ keyOf row'
  have hle : (remaining m cursor).Pairwise fun row row' => keyOf row ≤ keyOf row' := by
    have hbool : (remaining m cursor).Pairwise
        fun row row' => decide (keyOf row ≤ keyOf row') = true :=
      List.pairwise_mergeSort (by simpa using fun a b c => le_trans)
        (by simpa using fun a b => le_total _ _) _
    simpa using hbool
  have hne : (remaining m cursor).Pairwise fun row row' => keyOf row ≠ keyOf row' := by
    have hnodup : ((m.table.rows.filter (after m.statement cursor).criteria).map keyOf).Nodup :=
      (keyOf_nodup m.table).sublist (List.filter_sublist.map keyOf)
    exact List.pairwise_map.1 ((hperm.map keyOf).nodup_iff.2 hnodup)
  exact (hle.and hne).imp fun h => lt_of_le_of_ne h.1 h.2

def lastRow (m : Moment ρ) (cursor : Option Cursor) (n : ℕ) (more : Bool) : Option ρ :=
  if more then ((remaining m cursor).take n).getLast? else none

theorem read_take {m : Moment ρ} {cursor : Option Cursor} {n : ℕ} {more : Bool} (hn : 0 < n)
    (hstop : more = false → (remaining m cursor).length ≤ n) :
    Read keyOf m.matching (cursor.map cursorKey) ((remaining m cursor).take n)
      ((lastRow m cursor n more).map keyOf) := by
  refine Read.of_take (remaining_sorted m cursor) (fun row => mem_remaining) ?_ ?_
  · intro hnone
    rw [Option.map_eq_none_iff, lastRow] at hnone
    cases more with
    | false => exact hstop rfl
    | true =>
        rw [if_pos rfl, List.getLast?_eq_none_iff, List.take_eq_nil_iff] at hnone
        rcases hnone with hzero | hnil
        · omega
        · rw [hnil]
          exact Nat.zero_le n
  · intro k hk
    obtain ⟨row, hrow, hkey⟩ := Option.map_eq_some_iff.1 hk
    cases more with
    | false => cases hrow
    | true => exact ⟨row, hrow, hkey⟩

section

variable (readers : PageCursor.Readers) (nesting : ℕ)

theorem position_encode (cursor : Cursor) :
    ∃ read, PageCursor.position readers nesting (some cursor.encode) = .ok (some read) ∧
      cursorKey read = cursorKey cursor := by
  refine ⟨{ cursor with createdAt := cursor.createdAt.aware }, ?_, rfl⟩
  rw [PageCursor.position, resolveCursor, decode, decodeBody_encode]
  rfl

/-- The client's text is read as a cursor that continues after this key. -/
def Addresses (raw : Option PyStr) (start : Option Key) : Prop :=
  ∃ cursor, PageCursor.position readers nesting raw = .ok cursor ∧ cursor.map cursorKey = start

theorem addresses_encode (row : ρ) :
    Addresses readers nesting (some (cursorOf row).encode) (some (keyOf row)) := by
  obtain ⟨cursor, hread, hkey⟩ := position_encode readers nesting (cursorOf row)
  exact ⟨some cursor, hread, congrArg some hkey⟩

theorem pageTurn_eq {limit : ℕ} {read : ρ → ι} {m : Moment ρ} {raw : Option PyStr}
    {cursor : Option Cursor} (h : PageCursor.position readers nesting raw = .ok cursor) :
    pageTurn readers nesting limit read raw m = (((remaining m cursor).take limit).map read,
      (lastRow m cursor limit (limit < (remaining m cursor).length)).map
        fun last => some (cursorOf last).encode) := by
  have hprobe : limit < ((remaining m cursor).take (limit + 1)).length ↔
      limit < (remaining m cursor).length := by
    rw [List.length_take]
    omega
  have hpage : ((remaining m cursor).take (limit + 1)).take limit =
      (remaining m cursor).take limit := by
    rw [List.take_take, Nat.min_eq_left limit.le_succ]
  simp only [pageTurn, listRows, h, bind, Except.bind, pure, Except.pure, exec_after, buildPage,
    hprobe, hpage, lastRow, decide_eq_true_eq]
  split_ifs
  · rw [Option.map_map]
    rfl
  · rfl

theorem pageTurn_byKey {limit : ℕ} (hlimit : 0 < limit) (read : ρ → ι) :
    ByKey keyOf Moment.matching read (fun row => some (cursorOf row).encode)
      (pageTurn readers nesting limit read) (Addresses readers nesting) none where
  starts := ⟨none, rfl, rfl⟩
  stands := addresses_encode readers nesting
  turns raw m start hraw := by
    obtain ⟨cursor, hread, rfl⟩ := hraw
    refine ⟨_, _, read_take hlimit ?_, pageTurn_eq readers nesting hread⟩
    exact fun hmore => not_lt.1 (of_decide_eq_false hmore)

end

theorem batchTurn_eq (size : ℕ) (m : Moment ρ) (cursor : Option Cursor) :
    batchTurn size cursor m = (((remaining m cursor).take size).map id,
      (lastRow m cursor size (size ≤ (remaining m cursor).length)).map
        fun last => some (cursorOf last)) := by
  have hfull : ((remaining m cursor).take size).length < size ↔
      ¬ size ≤ (remaining m cursor).length := by
    rw [List.length_take]
    omega
  rw [batchTurn, exec_after, List.map_id, lastRow]
  cases hlast : ((remaining m cursor).take size).getLast? with
  | none =>
      rw [List.getLast?_eq_none_iff.1 hlast]
      simp
  | some last =>
      simp only [hfull, decide_eq_true_eq]
      split_ifs <;> rfl

theorem batchTurn_byKey {size : ℕ} (hsize : 0 < size) :
    ByKey (keyOf (ρ := ρ)) Moment.matching id (fun row => some (cursorOf row)) (batchTurn size)
      (fun cursor start => cursor.map cursorKey = start) none where
  starts := rfl
  stands _ := rfl
  turns cursor m start hcursor := by
    subst hcursor
    refine ⟨_, _, read_take hsize ?_, batchTurn_eq size m cursor⟩
    exact fun hmore => (not_le.1 (of_decide_eq_false hmore)).le

/-- What a walk over changing tables returns, and that it ends. -/
structure EveryRowOnce {γ : Type} (walk : ℕ → Walk γ ι) (read : ρ → ι)
    (moments : ℕ → Moment ρ) : Prop where
  ends : ∃ n, (walk n).standing = none
  /-- With finitely many rows there is a bound on its reads. -/
  ends_within : ∀ keys : Finset Key, (∀ n, ∀ row ∈ (moments n).matching, keyOf row ∈ keys) →
    ∃ n ≤ keys.card + 1, (walk n).standing = none
  /-- Rows come in order, and a row that matched at every read comes exactly once. -/
  once : ∀ n, ∃ rows : List ρ, (walk n).returned = rows.map read ∧
    (rows.Pairwise fun row row' => keyOf row < keyOf row') ∧
    (∀ row ∈ rows, ∃ m < n, row ∈ (moments m).matching) ∧
    ((walk n).standing = none → ∀ k, Throughout keyOf (fun m => (moments m).matching) n k →
      (rows.map keyOf).count k = 1)
  /-- Of a table that does not change all rows come. -/
  fixed : ∀ m, (∀ n, moments n = m) → ∀ n, (walk n).standing = none →
    (walk n).returned = (m.matching.mergeSort fun row row' => keyOf row ≤ keyOf row').map read

/-- The calendar ends and ids have 128 bits, so there are finitely many places for a row. -/
theorem exists_all_keys (ρ : Type) [Keyed ρ] :
    ∃ keys : Finset Key, ∀ row : ρ, keyOf row ∈ keys := by
  refine ⟨(Finset.Icc (-wholeDay : ℤ) ((daysBeforeYear 10000 + 2) * wholeDay) ×ˢ
    Finset.range (2 ^ 128)).map toLex.toEmbedding, fun row => ?_⟩
  have hday := (Keyed.createdAt row).day_le
  have htime := (Keyed.createdAt row).time_lt
  have hoffset := (Keyed.createdAt row).getD_lt _ rfl
  rw [Finset.mem_map_equiv, Finset.mem_product]
  refine ⟨Finset.mem_Icc.2 ?_, Finset.mem_range.2 (Keyed.id row).value_lt⟩
  change _ ≤ (Keyed.createdAt row).instant ∧ (Keyed.createdAt row).instant ≤ _
  have hdays : ((Keyed.createdAt row).day : ℤ) * wholeDay ≤ daysBeforeYear 10000 * wholeDay :=
    mul_le_mul_of_nonneg_right (Int.ofNat_le.2 hday) (Int.natCast_nonneg _)
  have hpos : (0 : ℤ) ≤ (Keyed.createdAt row).day * wholeDay :=
    mul_nonneg (Int.natCast_nonneg _) (Int.natCast_nonneg _)
  rw [Datetime.instant, add_mul]
  generalize wholeDay = w at *
  omega

theorem EveryRowOnce.of_byKey {γ : Type} {turn : γ → Moment ρ → List ι × Option γ} {read : ρ → ι}
    {stand : ρ → γ} {Stands : γ → Option Key → Prop} {start : γ}
    (h : ByKey keyOf Moment.matching read stand turn Stands start) (moments : ℕ → Moment ρ) :
    EveryRowOnce (walk turn start moments) read moments where
  ends := by
    obtain ⟨keys, hkeys⟩ := exists_all_keys ρ
    obtain ⟨n, _, hended⟩ := h.exists_ended fun n row _ => hkeys row
    exact ⟨n, hended⟩
  ends_within keys hkeys := h.exists_ended hkeys
  once n := by
    obtain ⟨rows, hreturned, hgoing, hended⟩ := h.invariant moments n
    cases hstanding : (walk turn start moments n).standing with
    | none =>
        have hcomplete := hended hstanding
        refine ⟨rows, hreturned, hcomplete.sorted, hcomplete.mem, fun _ k hk => ?_⟩
        exact count_key hcomplete.sorted (hcomplete.complete k hk)
    | some c =>
        obtain ⟨_, _, hprogress⟩ := hgoing c hstanding
        exact ⟨rows, hreturned, hprogress.sorted, hprogress.mem, fun hnone => by cases hnone⟩
  fixed m hm n hstanding := by
    obtain ⟨rows, hreturned, _, hended⟩ := h.invariant moments n
    have hrows : ∀ i, (moments i).matching = m.matching := fun i => congrArg _ (hm i)
    rw [hreturned, (hended hstanding).eq_of_constant hrows _ (remaining_sorted m none)]
    · rfl
    · intro row
      rw [mem_remaining]
      exact and_iff_left fun s hs => by cases hs

/-- A client that follows the cursors of a list and a sweep in batches both see every row that
stays in the filter exactly once, whatever happens to the table between their reads. -/
theorem walks_return_every_row_once (moments : ℕ → Moment ρ) {limit size : ℕ} (hlimit : 0 < limit)
    (hsize : 0 < size) :
    (∀ readers nesting (read : ρ → ι),
      EveryRowOnce (followPages readers nesting limit read moments) read moments) ∧
    EveryRowOnce (inBatches size moments) id moments :=
  ⟨fun readers nesting read => .of_byKey (pageTurn_byKey readers nesting hlimit read) moments,
    .of_byKey (batchTurn_byKey hsize) moments⟩

instance : Keyed Cursor where
  createdAt := Cursor.createdAt
  id := Cursor.rowId

def rowOf (id : ℕ) (h : id < 2 ^ 128) : Cursor := { firstRow with rowId := ⟨id, h⟩ }

/-- Four rows of one moment; after the first read the third leaves the filter. -/
def emptied (n : ℕ) : Moment Cursor where
  table :=
    { rows := [rowOf 4 (by decide), rowOf 3 (by decide), rowOf 2 (by decide), rowOf 1 (by decide)]
      ids_nodup := by decide }
  statement := ⟨fun row => n = 0 ∨ row.rowId.value ≠ 3, fun _ _ => true⟩

theorem emptied_walks :
    (∀ readers nesting (read : Cursor → ℕ),
      EveryRowOnce (followPages readers nesting 1 read emptied) read emptied) ∧
    EveryRowOnce (inBatches 2 emptied) id emptied :=
  walks_return_every_row_once emptied Nat.one_pos Nat.two_pos

end Pagination

end IcebergSST

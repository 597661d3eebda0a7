import IcebergSST.Datetimes
import IcebergSST.JsonText
import IcebergSST.Library.Base64

/-!
# The cursor of a page

A cursor is the creation time and the id of the last row of a page, as base64 of a JSON
object. A client may send any string for it: each layer that reads it raises exceptions of
its own, and the ones the decoder lists are a bad request. The decoding of bytes, the reading
of dates and the reading of hexadecimal integers are taken as they come, with what they do to
the texts that a cursor is written in.
-/

namespace IcebergSST.PageCursor

open Adf JsonText FixedWidth

structure Uuid where
  value : ℕ
  value_lt : value < 2 ^ 128
  deriving DecidableEq

def Uuid.hex (u : Uuid) : List Char := pad 16 32 u.value

def Uuid.groups (u : Uuid) : List Char :=
  u.hex.take 8 ++ '-' :: ((u.hex.drop 8).take 4 ++ '-' :: ((u.hex.drop 12).take 4 ++
    '-' :: ((u.hex.drop 16).take 4 ++ '-' :: u.hex.drop 20)))

def Uuid.str (u : Uuid) : PyStr := u.groups.map Char.toNat

/-- `s.replace(pattern, "")`, with so many characters of an occurrence still to pass -/
def removeFrom (pattern : PyStr) : ℕ → PyStr → PyStr
  | _, [] => []
  | skip + 1, _ :: s => removeFrom pattern skip s
  | 0, c :: s =>
      if pattern <+: c :: s then removeFrom pattern (pattern.length - 1) s
      else c :: removeFrom pattern 0 s

def remove (pattern s : PyStr) : PyStr := removeFrom pattern 0 s

def isBrace (c : ℕ) : Bool := c = 0x7b || c = 0x7d

/-- The digits of an id among what may stand around and between them. -/
def uuidDigits (s : PyStr) : PyStr :=
  let s := remove (pyStr "uuid:") (remove (pyStr "urn:") s)
  ((s.dropWhile isBrace).rdropWhile isBrace).filter (· ≠ 0x2d)

inductive PyError
  | keyError
  | typeError
  | valueError
  | attributeError
  | binasciiError
  | jsonDecodeError
  | unicodeDecodeError
  | recursionError
  deriving DecidableEq, Repr

/-- The library's readers of texts, and what they make of a text that the encoder wrote. -/
structure Readers where
  /-- `b.decode(detect_encoding(b), "surrogatepass")` -/
  decodeBytes : List ℕ → Option PyStr
  decodeBytes_ascii : ∀ b, (∀ c ∈ b, 0 < c ∧ c < 0x80) → decodeBytes b = some b
  fromisoformat : PyStr → Option Datetime
  fromisoformat_isoformat : ∀ d, fromisoformat d.isoformat = some d
  /-- `int(s, 16)` -/
  int16 : PyStr → Option ℕ
  int16_hex : ∀ u : Uuid, int16 (u.hex.map Char.toNat) = some u.value

@[ext] structure Cursor where
  createdAt : Datetime
  rowId : Uuid
  deriving DecidableEq

def urlsafeB64decode (s : PyStr) : Except PyError (List ℕ) :=
  if ∀ c ∈ s, c < 0x80 then
    match Base64.decode s with
    | some bytes => .ok bytes
    | none => .error .binasciiError
  else .error .valueError

def subscript (value : Json) (key : String) : Except PyError Json :=
  match value with
  | .object fields =>
      match Mapping.get fields (pyStr key) with
      | some item => .ok item
      | none => .error .keyError
  | .null | .scalar | .string _ | .array _ => .error .typeError

section

variable (readers : Readers) (nesting : ℕ)

/-- `json.loads(bytes)`, with room for a call and for so many more in it -/
def loadsBytes (bytes : List ℕ) : Except PyError Json :=
  match readers.decodeBytes bytes with
  | none => .error .unicodeDecodeError
  | some text =>
      match loads (nesting + 1) text with
      | .ok value => .ok value
      | .error .decode => .error .jsonDecodeError
      | .error .digits => .error .valueError
      | .error .recursion => .error .recursionError

def readDatetime (value : Json) : Except PyError Datetime :=
  match value with
  | .string s =>
      match readers.fromisoformat s with
      | some d => .ok d
      | none => .error .valueError
  | .null | .scalar | .array _ | .object _ => .error .typeError

def uuid? (value : ℕ) : Option Uuid := if h : value < 2 ^ 128 then some ⟨value, h⟩ else none

/-- `uuid.UUID(value)`: of what is not a string it asks for a method that only strings have. -/
def readUuid (value : Json) : Except PyError Uuid :=
  match value with
  | .null => .error .typeError
  | .string s =>
      if (uuidDigits s).length = 32 then
        match (readers.int16 (uuidDigits s)).bind uuid? with
        | some u => .ok u
        | none => .error .valueError
      else .error .valueError
  | .scalar | .array _ | .object _ => .error .attributeError

def decodeBody (raw : PyStr) : Except PyError Cursor := do
  let padded := raw ++ Base64.padding raw.length
  let bytes ← urlsafeB64decode padded
  let payload ← loadsBytes readers nesting bytes
  let created ← subscript payload "created_at"
  let createdAt ← readDatetime readers created
  let id ← subscript payload "id"
  let rowId ← readUuid readers id
  return { createdAt := createdAt.aware, rowId }

/-- `except (KeyError, TypeError, ValueError, binascii.Error, json.JSONDecodeError)`. The last
two and the decoding error are value errors as well. -/
def PyError.isCaught : PyError → Bool
  | .keyError | .typeError | .valueError | .binasciiError | .jsonDecodeError
  | .unicodeDecodeError => true
  | .attributeError | .recursionError => false

inductive Raised
  | cursorError
  | other (error : PyError)
  deriving DecidableEq, Repr

def decode (raw : PyStr) : Except Raised Cursor :=
  match decodeBody readers nesting raw with
  | .ok cursor => .ok cursor
  | .error error => if error.isCaught then .error .cursorError else .error (.other error)

def resolveCursor (raw : Option PyStr) : Except Raised (Option Cursor) :=
  match raw with
  | none => .ok none
  | some raw => (decode readers nesting raw).map some

/-- What ends a request: an answer with a status, or an exception that nothing handles. -/
inductive Refusal
  | badRequest (detail : String)
  | unhandled (error : PyError)
  deriving DecidableEq, Repr

def position (raw : Option PyStr) : Except Refusal (Option Cursor) :=
  match resolveCursor readers nesting raw with
  | .ok cursor => .ok cursor
  | .error .cursorError => .error (.badRequest "cursor is not valid")
  | .error (.other error) => .error (.unhandled error)

end

def Cursor.payload (cursor : Cursor) : PyStr :=
  dumps [(pyStr "created_at", cursor.createdAt.isoformat), (pyStr "id", cursor.rowId.str)]

def Cursor.encode (cursor : Cursor) : PyStr :=
  (Base64.encode cursor.payload).rdropWhile (· = Base64.pad)

def NotText : Json → Prop
  | .null | .string _ => False
  | .scalar | .array _ | .object _ => True

/-- The string is base64 of JSON that is nested too deep, or of an object with a readable date
whose id is neither a text nor null. -/
def Escapes (readers : Readers) (nesting : ℕ) (raw : PyStr) : Prop :=
  ∃ bytes text, urlsafeB64decode (raw ++ Base64.padding raw.length) = .ok bytes ∧
    readers.decodeBytes bytes = some text ∧
    (loads (nesting + 1) text = .error .recursion ∨
      ∃ fields s d id, loads (nesting + 1) text = .ok (.object fields) ∧
        Mapping.get fields (pyStr "created_at") = some (.string s) ∧
        readers.fromisoformat s = some d ∧
        Mapping.get fields (pyStr "id") = some id ∧ NotText id)

/-- The reading ends in an exception that the decoder does not list. -/
def Uncaught {α : Type} (read : Except PyError α) : Prop :=
  ∃ error, read = .error error ∧ error.isCaught = false

theorem uncaught_bind {α β : Type} {read : Except PyError α} {next : α → Except PyError β} :
    Uncaught (read >>= next) ↔ Uncaught read ∨ ∃ a, read = .ok a ∧ Uncaught (next a) := by
  cases read with
  | error error => simp [Uncaught, bind, Except.bind]
  | ok a => simp [Uncaught, bind, Except.bind]

theorem not_uncaught_ok {α : Type} (a : α) : ¬ Uncaught (.ok a : Except PyError α) := by
  rintro ⟨error, h, _⟩
  cases h

theorem not_uncaught_urlsafeB64decode (s : PyStr) : ¬ Uncaught (urlsafeB64decode s) := by
  rintro ⟨error, h, hcaught⟩
  rw [urlsafeB64decode] at h
  split_ifs at h with hascii
  · cases hbytes : Base64.decode s with
    | none =>
        simp only [hbytes, Except.error.injEq] at h
        subst h
        cases hcaught
    | some bytes => simp [hbytes] at h
  · cases h
    cases hcaught

theorem not_uncaught_subscript (value : Json) (key : String) :
    ¬ Uncaught (subscript value key) := by
  rintro ⟨error, h, hcaught⟩
  cases value with
  | object fields =>
      rw [subscript] at h
      cases hitem : Mapping.get fields (pyStr key) with
      | none =>
          simp only [hitem, Except.error.injEq] at h
          subst h
          cases hcaught
      | some item => simp [hitem] at h
  | _ =>
      cases h
      cases hcaught

theorem subscript_eq_ok {value item : Json} {key : String} :
    subscript value key = .ok item ↔
      ∃ fields, value = .object fields ∧ Mapping.get fields (pyStr key) = some item := by
  cases value with
  | object fields =>
      rw [subscript]
      cases hitem : Mapping.get fields (pyStr key) <;> simp [hitem]
  | _ => simp [subscript]

section

variable {readers : Readers} {nesting : ℕ}

theorem uncaught_loadsBytes {bytes : List ℕ} :
    Uncaught (loadsBytes readers nesting bytes) ↔
      ∃ text, readers.decodeBytes bytes = some text ∧
        loads (nesting + 1) text = .error .recursion := by
  rw [loadsBytes, Uncaught]
  cases htext : readers.decodeBytes bytes with
  | none => simp [PyError.isCaught]
  | some text =>
      cases hloads : loads (nesting + 1) text with
      | ok value => simp [hloads]
      | error e => cases e <;> simp [hloads, PyError.isCaught]

theorem loadsBytes_eq_ok {bytes : List ℕ} {value : Json} :
    loadsBytes readers nesting bytes = .ok value ↔
      ∃ text, readers.decodeBytes bytes = some text ∧ loads (nesting + 1) text = .ok value := by
  rw [loadsBytes]
  cases htext : readers.decodeBytes bytes with
  | none => simp
  | some text =>
      cases hloads : loads (nesting + 1) text with
      | ok value => simp [hloads]
      | error e => cases e <;> simp [hloads]

theorem not_uncaught_readDatetime (value : Json) : ¬ Uncaught (readDatetime readers value) := by
  rintro ⟨error, h, hcaught⟩
  cases value with
  | string s =>
      rw [readDatetime] at h
      cases hdate : readers.fromisoformat s with
      | none =>
          simp only [hdate, Except.error.injEq] at h
          subst h
          cases hcaught
      | some d => simp [hdate] at h
  | _ =>
      cases h
      cases hcaught

theorem readDatetime_eq_ok {value : Json} {d : Datetime} :
    readDatetime readers value = .ok d ↔
      ∃ s, value = .string s ∧ readers.fromisoformat s = some d := by
  cases value with
  | string s =>
      rw [readDatetime]
      cases hdate : readers.fromisoformat s <;> simp [hdate]
  | _ => simp [readDatetime]

theorem uncaught_readUuid {value : Json} : Uncaught (readUuid readers value) ↔ NotText value := by
  cases value with
  | string s =>
      refine iff_of_false ?_ id
      rintro ⟨error, h, hcaught⟩
      rw [readUuid] at h
      split_ifs at h with hlength
      · cases hint : (readers.int16 (uuidDigits s)).bind uuid? with
        | none =>
            simp only [hint, Except.error.injEq] at h
            subst h
            cases hcaught
        | some u => simp [hint] at h
      · cases h
        cases hcaught
  | null => simp [Uncaught, readUuid, NotText, PyError.isCaught]
  | _ => simp [Uncaught, readUuid, NotText, PyError.isCaught]

/-- Exactly the strings that escape the decoder end in an exception it does not list. -/
theorem uncaught_decodeBody {raw : PyStr} :
    Uncaught (decodeBody readers nesting raw) ↔ Escapes readers nesting raw := by
  have hpure (cursor : Cursor) : ¬ Uncaught (pure cursor : Except PyError Cursor) :=
    not_uncaught_ok cursor
  simp only [decodeBody, uncaught_bind, not_uncaught_urlsafeB64decode, not_uncaught_subscript,
    not_uncaught_readDatetime, uncaught_readUuid, uncaught_loadsBytes, false_or,
    loadsBytes_eq_ok, subscript_eq_ok, readDatetime_eq_ok, hpure, and_false, exists_false,
    or_false, Escapes]
  constructor
  · rintro ⟨bytes, hbytes, ⟨text, htext, hdeep⟩ | ⟨_, ⟨text, htext, hloads⟩, _,
      ⟨fields, rfl, hcreated⟩, d, ⟨s, rfl, hd⟩, id, ⟨_, hsame, hid⟩, hnot⟩⟩
    · exact ⟨bytes, text, hbytes, htext, Or.inl hdeep⟩
    · obtain rfl := Json.object.inj hsame
      exact ⟨bytes, text, hbytes, htext,
        Or.inr ⟨fields, s, d, id, hloads, hcreated, hd, hid, hnot⟩⟩
  · rintro ⟨bytes, text, hbytes, htext, hdeep | ⟨fields, s, d, id, hloads, hcreated, hd, hid, hnot⟩⟩
    · exact ⟨bytes, hbytes, Or.inl ⟨text, htext, hdeep⟩⟩
    · exact ⟨bytes, hbytes, Or.inr ⟨_, ⟨text, htext, hloads⟩, _, ⟨fields, rfl, hcreated⟩, d,
        ⟨s, rfl, hd⟩, id, ⟨fields, rfl, hid⟩, hnot⟩⟩

theorem position_answers {raw : PyStr} :
    (∃ cursor, position readers nesting (some raw) = .ok (some cursor)) ∨
        position readers nesting (some raw) = .error (.badRequest "cursor is not valid") ↔
      ¬ Escapes readers nesting raw := by
  rw [← uncaught_decodeBody, position, resolveCursor, decode, Uncaught]
  cases decodeBody readers nesting raw with
  | ok cursor => simp [Except.map]
  | error error => cases hcaught : error.isCaught <;> simp [Except.map, hcaught]

end

theorem mem_pad {base width n : ℕ} {c : Char} (hpos : 0 < base) (h : c ∈ pad base width n) :
    ∃ d < base, c = Nat.digitChar d := by
  induction width with
  | zero => cases h
  | succ width ih =>
      rcases List.mem_cons.1 h with rfl | h
      · exact ⟨_, Nat.mod_lt _ hpos, rfl⟩
      · exact ih h

def markChars : List Char := "0123456789abcdef-:.+T".toList

theorem digitChar_mem : ∀ d < 16, Nat.digitChar d ∈ markChars := by decide

theorem pad_subset {base : ℕ} (hpos : 0 < base) (hbase : base ≤ 16) (width n : ℕ) :
    pad base width n ⊆ markChars := by
  intro c hc
  obtain ⟨d, hd, rfl⟩ := mem_pad hpos hc
  exact digitChar_mem d (hd.trans_le hbase)

theorem decimal_subset (width n : ℕ) : pad 10 width n ⊆ markChars :=
  pad_subset (by decide) (by decide) width n

theorem isoDate_subset (day : ℕ) : isoDate day ⊆ markChars := by
  simp only [isoDate, List.append_subset, List.cons_subset, decimal_subset, true_and, and_true]
  decide

theorem fraction_subset (t : ℕ) : fraction t ⊆ markChars := by
  rw [fraction]
  split_ifs
  · exact List.nil_subset _
  · exact List.cons_subset.2 ⟨by decide, decimal_subset _ _⟩

theorem clockText_subset (t : ℕ) : clockText t ⊆ markChars := by
  simp only [clockText, List.append_subset, List.cons_subset, decimal_subset, fraction_subset,
    true_and, and_true]
  decide

theorem offsetText_subset (o : ℤ) : offsetText o ⊆ markChars := by
  have hsign : (if o < 0 then '-' else '+') ∈ markChars := by split_ifs <;> decide
  have hcolon : ':' ∈ markChars := by decide
  simp only [offsetText, List.append_subset, List.cons_subset, decimal_subset, hsign, hcolon,
    true_and]
  split_ifs
  · exact List.nil_subset _
  · simp only [List.append_subset, List.cons_subset, decimal_subset, fraction_subset, hcolon,
      true_and]

theorem text_subset (d : Datetime) : d.text ⊆ markChars := by
  have hoffset : d.offset.elim [] offsetText ⊆ markChars := by
    cases d.offset with
    | none => exact List.nil_subset _
    | some o => exact offsetText_subset o
  simp only [Datetime.text, List.append_subset, List.cons_subset, isoDate_subset,
    clockText_subset, hoffset, true_and, and_true]
  decide

theorem hex_subset (u : Uuid) : u.hex ⊆ markChars := pad_subset (by decide) (by decide) _ _

theorem plain_of_subset {text : List Char} (h : text ⊆ markChars) :
    ∀ c ∈ text.map Char.toNat, Plain c := by
  have hplain : ∀ c ∈ markChars, decide (Plain c.toNat) := List.all_eq_true.1 (by decide)
  intro c hc
  obtain ⟨c, hmem, rfl⟩ := List.mem_map.1 hc
  exact of_decide_eq_true (hplain c (h hmem))

theorem groups_subset (u : Uuid) : u.groups ⊆ markChars := by
  have hhex := hex_subset u
  have hgroup (k n : ℕ) : (u.hex.drop k).take n ⊆ markChars := fun c hc =>
    hhex (List.mem_of_mem_drop (List.mem_of_mem_take hc))
  have hdash : '-' ∈ markChars := by decide
  simp only [Uuid.groups, List.append_subset, List.cons_subset, hdash, hgroup, true_and]
  exact ⟨fun c hc => hhex (List.mem_of_mem_take hc), fun c hc => hhex (List.mem_of_mem_drop hc)⟩

theorem remove_of_not_mem {c : ℕ} {pattern s : PyStr} (h : c ∉ s) :
    remove (c :: pattern) s = s := by
  rw [remove]
  induction s with
  | nil => rfl
  | cons d s ih =>
      obtain ⟨hne, hrest⟩ := not_or.1 fun hmem => h (List.mem_cons.2 hmem)
      have hpattern : ¬ c :: pattern <+: d :: s := fun hmatch =>
        hne (List.cons_prefix_cons.1 hmatch).1
      rw [removeFrom, if_neg hpattern, ih hrest]

theorem dropWhile_of_forall {p : ℕ → Bool} {s : PyStr} (h : ∀ c ∈ s, p c = false) :
    s.dropWhile p = s := by
  cases s with
  | nil => rfl
  | cons c s => rw [List.dropWhile_cons, h c List.mem_cons_self]; rfl

theorem rdropWhile_of_forall {p : ℕ → Bool} {s : PyStr} (h : ∀ c ∈ s, p c = false) :
    s.rdropWhile p = s := by
  rw [List.rdropWhile, dropWhile_of_forall fun c hc => h c (List.mem_reverse.1 hc),
    List.reverse_reverse]

theorem digitChar_ne_dash : ∀ d < 16, Nat.digitChar d ≠ '-' := by decide

theorem filter_hex {u : Uuid} {group : List Char} (h : group ⊆ u.hex) :
    group.filter (fun c => c.toNat ≠ 0x2d) = group := by
  rw [List.filter_eq_self]
  intro c hc
  obtain ⟨d, hd, rfl⟩ := mem_pad (by decide) (h hc)
  have hne := digitChar_ne_dash d hd
  rw [decide_eq_true_iff]
  exact fun hcode => hne (Char.toNat_inj.1 hcode)

theorem uuidDigits_str (u : Uuid) : uuidDigits u.str = u.hex.map Char.toNat := by
  have hplain : ∀ c ∈ u.str, c ≠ 0x75 ∧ isBrace c = false := by
    have hmarks : ∀ c ∈ markChars, decide (c.toNat ≠ 0x75 ∧ isBrace c.toNat = false) :=
      List.all_eq_true.1 (by decide)
    intro c hc
    obtain ⟨c, hmem, rfl⟩ := List.mem_map.1 hc
    exact of_decide_eq_true (hmarks c (groups_subset u hmem))
  have hu : 0x75 ∉ u.str := fun hmem => (hplain _ hmem).1 rfl
  have hbrace : ∀ c ∈ u.str, isBrace c = false := fun c hc => (hplain c hc).2
  have hurn : remove (pyStr "urn:") u.str = u.str := remove_of_not_mem hu
  have huuid : remove (pyStr "uuid:") u.str = u.str := remove_of_not_mem hu
  have hjoin : u.groups.filter (fun c => c.toNat ≠ 0x2d) = u.hex := by
    have hgroup (k n : ℕ) : (u.hex.drop k).take n ⊆ u.hex := fun c hc =>
      List.mem_of_mem_drop (List.mem_of_mem_take hc)
    have hdash (l : List Char) : ('-' :: l).filter (fun c => c.toNat ≠ 0x2d) =
        l.filter fun c => c.toNat ≠ 0x2d := rfl
    rw [Uuid.groups, List.filter_append, hdash, List.filter_append, hdash, List.filter_append,
      hdash, List.filter_append, hdash, filter_hex (List.take_subset _ _), filter_hex (hgroup _ _),
      filter_hex (hgroup _ _), filter_hex (hgroup _ _), filter_hex (List.drop_subset _ _)]
    have hsplit (k n : ℕ) : (u.hex.drop k).take n ++ u.hex.drop (k + n) = u.hex.drop k := by
      rw [← List.drop_drop, List.take_append_drop]
    rw [hsplit 16 4, hsplit 12 4, hsplit 8 4, List.take_append_drop]
  rw [uuidDigits, hurn, huuid, dropWhile_of_forall hbrace, rdropWhile_of_forall hbrace,
    Uuid.str, List.filter_map]
  exact congrArg (List.map Char.toNat) hjoin

theorem readUuid_str (readers : Readers) (u : Uuid) :
    readUuid readers (.string u.str) = .ok u := by
  have hlength : (u.hex.map Char.toNat).length = 32 := by
    rw [List.length_map, Uuid.hex, pad_length]
  have hvalue : uuid? u.value = some u := dif_pos u.value_lt
  rw [readUuid, uuidDigits_str, if_pos hlength, readers.int16_hex, Option.bind_some, hvalue]

theorem createdAt_plain : ∀ c ∈ pyStr "created_at", Plain c := by decide

theorem id_plain : ∀ c ∈ pyStr "id", Plain c := by decide

section

variable (cursor : Cursor)

theorem isoformat_plain : ∀ c ∈ cursor.createdAt.isoformat, Plain c :=
  plain_of_subset (text_subset _)

theorem str_plain : ∀ c ∈ cursor.rowId.str, Plain c := plain_of_subset (groups_subset _)

theorem payload_printable : ∀ c ∈ cursor.payload, 0x20 ≤ c ∧ c ≤ 0x7e :=
  dumps_printable createdAt_plain id_plain (isoformat_plain cursor) (str_plain cursor)

theorem urlsafeB64decode_encode :
    urlsafeB64decode (cursor.encode ++ Base64.padding cursor.encode.length) =
      .ok cursor.payload := by
  have hbytes : ∀ c ∈ cursor.payload, c < 256 := fun c hc => by
    have := payload_printable cursor c hc
    omega
  rw [Cursor.encode, Base64.encode_eq hbytes, urlsafeB64decode,
    if_pos (Base64.encode_ascii hbytes), Base64.decode_encode hbytes]

theorem loadsBytes_payload (readers : Readers) (nesting : ℕ) :
    loadsBytes readers nesting cursor.payload =
      .ok (.object [(pyStr "created_at", .string cursor.createdAt.isoformat),
        (pyStr "id", .string cursor.rowId.str)]) := by
  have hascii : ∀ c ∈ cursor.payload, 0 < c ∧ c < 0x80 := fun c hc => by
    have := payload_printable cursor c hc
    omega
  have hloads := loads_dumps createdAt_plain id_plain (isoformat_plain cursor) (str_plain cursor)
    (by decide) nesting
  rw [loadsBytes, readers.decodeBytes_ascii _ hascii]
  simp only [Cursor.payload, hloads]

end

theorem decodeBody_encode (readers : Readers) (nesting : ℕ) (cursor : Cursor) :
    decodeBody readers nesting cursor.encode =
      .ok { cursor with createdAt := cursor.createdAt.aware } := by
  have hcreated : subscript (.object [(pyStr "created_at", .string cursor.createdAt.isoformat),
      (pyStr "id", .string cursor.rowId.str)]) "created_at" =
        .ok (.string cursor.createdAt.isoformat) := rfl
  have hid : subscript (.object [(pyStr "created_at", .string cursor.createdAt.isoformat),
      (pyStr "id", .string cursor.rowId.str)]) "id" = .ok (.string cursor.rowId.str) := rfl
  have hdate :
      readDatetime readers (.string cursor.createdAt.isoformat) = .ok cursor.createdAt := by
    rw [readDatetime, readers.fromisoformat_isoformat]
  simp only [decodeBody, urlsafeB64decode_encode, loadsBytes_payload, hcreated, hdate, hid,
    readUuid_str, bind, Except.bind]
  rfl

/-- What was given out is read back, and a string is a cursor or a bad request unless it
escapes the decoder. -/
theorem cursor_decoding (readers : Readers) (nesting : ℕ) :
    (∀ cursor : Cursor, cursor.createdAt.offset.isSome →
      decode readers nesting cursor.encode = .ok cursor) ∧
    ∀ raw : PyStr,
      (∃ cursor, position readers nesting (some raw) = .ok (some cursor)) ∨
          position readers nesting (some raw) = .error (.badRequest "cursor is not valid") ↔
        ¬ Escapes readers nesting raw := by
  refine ⟨fun cursor haware => ?_, fun raw => position_answers⟩
  rw [decode, decodeBody_encode, Datetime.aware_of_isSome haware]

def readAscii (bytes : List ℕ) : Option PyStr :=
  if ∀ c ∈ bytes, 0 < c ∧ c < 0x80 then some bytes else none

def isLowerHex (c : ℕ) : Bool := (0x30 ≤ c && c ≤ 0x39) || (0x61 ≤ c && c ≤ 0x66)

def readHex (s : PyStr) : Option ℕ :=
  if s.all isLowerHex then some (value 16 (s.map Char.ofNat)) else none

theorem readHex_hex (u : Uuid) : readHex (u.hex.map Char.toNat) = some u.value := by
  have hdigit : ∀ d < 16, isLowerHex (Nat.digitChar d).toNat := by decide
  have hall : (u.hex.map Char.toNat).all isLowerHex := by
    rw [List.all_eq_true]
    intro c hc
    obtain ⟨c, hmem, rfl⟩ := List.mem_map.1 hc
    obtain ⟨d, hd, rfl⟩ := mem_pad (by decide) hmem
    exact hdigit d hd
  have hchars : (u.hex.map Char.toNat).map Char.ofNat = u.hex := by
    rw [List.map_map]
    exact (List.map_congr_left fun c _ => Char.ofNat_toNat c).trans (List.map_id _)
  have hlt : u.value < 16 ^ 32 := u.value_lt
  rw [readHex, if_pos hall, hchars, Uuid.hex, value_pad (by decide) (by decide),
    Nat.mod_eq_of_lt hlt]

def asciiReaders : Readers where
  decodeBytes := readAscii
  decodeBytes_ascii _ h := if_pos h
  fromisoformat := readIso
  fromisoformat_isoformat := readIso_isoformat
  int16 := readHex
  int16_hex := readHex_hex

def newYear : Datetime where
  day := 738886
  time := 0
  offset := some 0
  day_pos := by decide
  day_le := by decide
  time_lt := by decide
  offset_lt := by decide

def firstRow : Cursor where
  createdAt := newYear
  rowId := ⟨0x0123456789abcdef, by decide⟩

theorem firstRow_round_trip :
    decode asciiReaders 0 firstRow.encode = .ok firstRow :=
  (cursor_decoding asciiReaders 0).1 firstRow rfl

def numericText : String :=
  "\x7b\"created_at\":\"2024-01-01T00:00:00+00:00\",\"id\":1\x7d"

theorem loads_numericText (nesting : ℕ) : loads (nesting + 1) (pyStr numericText) =
    .ok (.object [(pyStr "created_at", .string newYear.isoformat), (pyStr "id", .scalar)]) := by
  have htext : pyStr numericText = 0x7b :: 0x22 :: (pyStr "created_at" ++ 0x22 :: 0x3a :: 0x22 ::
      (newYear.isoformat ++ 0x22 :: 0x2c :: 0x22 :: (pyStr "id" ++ 0x22 :: 0x3a ::
        [0x31, 0x7d]))) := by decide
  obtain ⟨enter, henter⟩ := scanOnce_eq nesting
  have hobject : scanOnce (nesting + 1) (pyStr numericText) =
      .ok (.object [(pyStr "created_at", .string newYear.isoformat), (pyStr "id", .scalar)],
        []) := by
    have hlength : (pyStr "created_at" ++ 0x22 :: 0x3a :: 0x22 :: (newYear.isoformat ++ 0x22 ::
        0x2c :: 0x22 :: (pyStr "id" ++ 0x22 :: 0x3a :: [0x31, 0x7d]))).length = 45 + 1 + 1 := by
      decide
    have hlast (turns : ℕ) (fields : Mapping) : scanMembers (scanValue enter) (turns + 1) fields
        (pyStr "id" ++ 0x22 :: 0x3a :: [0x31, 0x7d]) =
          .ok (.object (setItem fields (pyStr "id") .scalar), []) := by
      rw [scanMembers, scanString_plain id_plain]
      simp only [bind, Except.bind]
      rw [expect_cons (by decide)]
      rfl
    rw [htext, scanOnce, scanValue, if_neg (by decide), if_pos rfl, nest, scanObject,
      skipWhitespace_cons (by decide), henter]
    simp only
    have hdate : ∀ c ∈ newYear.isoformat, Plain c := isoformat_plain firstRow
    rw [if_neg (by decide), if_pos trivial, hlength, scanMembers_next createdAt_plain hdate, hlast]
    rfl
  have hspace : skipWhitespace (pyStr numericText) = pyStr numericText := by
    rw [htext]
    exact skipWhitespace_cons (by decide) _
  rw [loads, hspace, hobject]
  rfl

def numericId : String := "eyJjcmVhdGVkX2F0IjoiMjAyNC0wMS0wMVQwMDowMDowMCswMDowMCIsImlkIjoxfQ"

theorem numericId_unhandled :
    (∀ readers nesting, position readers nesting (some (pyStr numericId)) =
      .error (.unhandled .attributeError)) ∧
    ¬ ∀ (readers : Readers) (nesting : ℕ) (raw : PyStr),
      (∃ cursor, position readers nesting (some raw) = .ok (some cursor)) ∨
        position readers nesting (some raw) = .error (.badRequest "cursor is not valid") := by
  have hall (readers : Readers) (nesting : ℕ) :
      position readers nesting (some (pyStr numericId)) =
        .error (.unhandled .attributeError) := by
    have hascii : ∀ c ∈ pyStr numericId ++ Base64.padding (pyStr numericId).length, c < 0x80 := by
      set_option maxRecDepth 4000 in decide
    have hbytes : Base64.decode (pyStr numericId ++ Base64.padding (pyStr numericId).length) =
        some (pyStr numericText) := by
      set_option maxRecDepth 4000 in decide
    have hplain : ∀ c ∈ pyStr numericText, 0 < c ∧ c < 0x80 := by decide
    have hloads := loads_numericText nesting
    have hcreated : subscript (.object [(pyStr "created_at", .string newYear.isoformat),
        (pyStr "id", .scalar)]) "created_at" = .ok (.string newYear.isoformat) := rfl
    have hid : subscript (.object [(pyStr "created_at", .string newYear.isoformat),
        (pyStr "id", .scalar)]) "id" = .ok .scalar := rfl
    have hbody : decodeBody readers nesting (pyStr numericId) = .error .attributeError := by
      simp only [decodeBody, urlsafeB64decode, if_pos hascii, hbytes, loadsBytes,
        readers.decodeBytes_ascii _ hplain, hloads, hcreated, hid, readDatetime,
        readers.fromisoformat_isoformat, readUuid, bind, Except.bind]
    rw [position, resolveCursor, decode, hbody]
    rfl
  refine ⟨hall, fun hclaim => ?_⟩
  rcases hclaim asciiReaders 0 (pyStr numericId) with ⟨cursor, h⟩ | h
  · rw [hall] at h
    cases h
  · rw [hall] at h
    cases h

end IcebergSST.PageCursor

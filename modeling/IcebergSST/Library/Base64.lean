import Mathlib.Data.List.DropRight
import Mathlib.Tactic

/-!
# Base64 over code points

Bytes are numbers below 256 and texts are lists of code points. The reader is the lenient
one: it skips what is not in its alphabet, takes an equals sign for padding where one can
stand, and stops once a group is padded. It reads what the writer wrote, with the padding
taken off and put back.
-/

namespace Base64

def char (d : ℕ) : ℕ :=
  if d < 26 then d + 65 else if d < 52 then d + 71 else if d < 62 then d - 4
  else if d = 62 then 0x2d else 0x5f

/-- The digit of a code point, in the alphabet for URLs or the other one. -/
def digit (c : ℕ) : Option ℕ :=
  if 65 ≤ c ∧ c ≤ 90 then some (c - 65)
  else if 97 ≤ c ∧ c ≤ 122 then some (c - 71)
  else if 48 ≤ c ∧ c ≤ 57 then some (c + 4)
  else if c = 0x2d ∨ c = 0x2b then some 62
  else if c = 0x5f ∨ c = 0x2f then some 63
  else none

def pad : ℕ := 0x3d

/-- Each three bytes as four digits, without padding. -/
def digits : List ℕ → List ℕ
  | a :: b :: c :: rest =>
      a / 4 :: (a % 4 * 16 + b / 16) :: (b % 16 * 4 + c / 64) :: c % 64 :: digits rest
  | [a, b] => [a / 4, a % 4 * 16 + b / 16, b % 16 * 4]
  | [a] => [a / 4, a % 4 * 16]
  | [] => []

/-- The padding that fills the last group of four. -/
def padding (length : ℕ) : List ℕ := List.replicate ((4 - length % 4) % 4) pad

def encode (bytes : List ℕ) : List ℕ :=
  (digits bytes).map char ++ padding (digits bytes).length

/-- A reader in a group: how many digits of it are read, what is left of the last one, and how
many equals signs came after it. -/
def decodeFrom : ℕ → ℕ → ℕ → List ℕ → Option (List ℕ)
  | quad, _, _, [] => if quad = 0 then some [] else none
  | quad, left, pads, c :: text =>
      if c = pad then
        if 2 ≤ quad ∧ 4 ≤ quad + (pads + 1) then some []
        else decodeFrom quad left (if 2 ≤ quad then pads + 1 else pads) text
      else
        match digit c with
        | none => decodeFrom quad left pads text
        | some d =>
            match quad with
            | 0 => decodeFrom 1 d 0 text
            | 1 => (decodeFrom 2 (d % 16) 0 text).map ((left * 4 + d / 16) :: ·)
            | 2 => (decodeFrom 3 (d % 4) 0 text).map ((left * 16 + d / 4) :: ·)
            | _ => (decodeFrom 0 0 0 text).map ((left * 64 + d) :: ·)

def decode (text : List ℕ) : Option (List ℕ) := decodeFrom 0 0 0 text

theorem digit_char : ∀ d < 64, digit (char d) = some d ∧ char d ≠ pad ∧ char d < 0x80 := by
  decide

section

variable {d left pads : ℕ} (h : d < 64) (text : List ℕ)

include h

theorem decodeFrom_zero : decodeFrom 0 left pads (char d :: text) = decodeFrom 1 d 0 text := by
  obtain ⟨hdigit, hpad, _⟩ := digit_char d h
  rw [decodeFrom, if_neg hpad, hdigit]
  rfl

theorem decodeFrom_one : decodeFrom 1 left pads (char d :: text) =
    (decodeFrom 2 (d % 16) 0 text).map ((left * 4 + d / 16) :: ·) := by
  obtain ⟨hdigit, hpad, _⟩ := digit_char d h
  rw [decodeFrom, if_neg hpad, hdigit]
  rfl

theorem decodeFrom_two : decodeFrom 2 left pads (char d :: text) =
    (decodeFrom 3 (d % 4) 0 text).map ((left * 16 + d / 4) :: ·) := by
  obtain ⟨hdigit, hpad, _⟩ := digit_char d h
  rw [decodeFrom, if_neg hpad, hdigit]
  rfl

theorem decodeFrom_three : decodeFrom 3 left pads (char d :: text) =
    (decodeFrom 0 0 0 text).map ((left * 64 + d) :: ·) := by
  obtain ⟨hdigit, hpad, _⟩ := digit_char d h
  rw [decodeFrom, if_neg hpad, hdigit]
  rfl

end

theorem digits_lt {bytes : List ℕ} (h : ∀ b ∈ bytes, b < 256) : ∀ d ∈ digits bytes, d < 64 := by
  fun_induction digits bytes with
  | case1 a b c rest ih =>
      simp only [List.forall_mem_cons] at h ⊢
      exact ⟨by omega, by omega, by omega, by omega, ih h.2.2.2⟩
  | case2 a b =>
      simp only [List.forall_mem_cons] at h ⊢
      exact ⟨by omega, by omega, by omega, List.forall_mem_nil _⟩
  | case3 a =>
      simp only [List.forall_mem_cons] at h ⊢
      exact ⟨by omega, by omega, List.forall_mem_nil _⟩
  | case4 => exact List.forall_mem_nil _

theorem decode_digits {bytes : List ℕ} (h : ∀ b ∈ bytes, b < 256) (left : ℕ) :
    decodeFrom 0 left 0 ((digits bytes).map char ++ padding (digits bytes).length) =
      some bytes := by
  fun_induction digits bytes generalizing left with
  | case1 a b c rest ih =>
      simp only [List.forall_mem_cons] at h
      have hrest := ih h.2.2.2 0
      have hpadding : padding ((digits rest).length + 1 + 1 + 1 + 1) =
          padding (digits rest).length := by
        rw [padding, padding]
        congr 1
        omega
      simp only [List.map_cons, List.cons_append, List.length_cons, hpadding]
      rw [decodeFrom_zero (by omega), decodeFrom_one (by omega), decodeFrom_two (by omega),
        decodeFrom_three (by omega), hrest]
      simp only [Option.map_some, Option.some.injEq, List.cons.injEq, and_true]
      omega
  | case2 a b =>
      simp only [List.forall_mem_cons] at h
      simp only [List.map_cons, List.map_nil, List.cons_append, List.nil_append]
      rw [decodeFrom_zero (by omega), decodeFrom_one (by omega), decodeFrom_two (by omega)]
      simp [padding, decodeFrom, pad]
      omega
  | case3 a =>
      simp only [List.forall_mem_cons] at h
      simp only [List.map_cons, List.map_nil, List.cons_append, List.nil_append]
      rw [decodeFrom_zero (by omega), decodeFrom_one (by omega)]
      simp [padding, decodeFrom, pad]
      omega
  | case4 => rfl

theorem decode_encode {bytes : List ℕ} (h : ∀ b ∈ bytes, b < 256) :
    decode (encode bytes) = some bytes := decode_digits h 0

/-- Taking the padding off leaves the digits, and their number says what to put back. -/
theorem rdropWhile_encode {bytes : List ℕ} (h : ∀ b ∈ bytes, b < 256) :
    (encode bytes).rdropWhile (· = pad) = (digits bytes).map char := by
  have hdigit : ∀ c ∈ (digits bytes).map char, c ≠ pad := by
    intro c hc
    obtain ⟨d, hd, rfl⟩ := List.mem_map.1 hc
    exact (digit_char d (digits_lt h d hd)).2.1
  rw [encode, padding]
  induction (4 - (digits bytes).length % 4) % 4 with
  | zero =>
      rw [List.replicate_zero, List.append_nil, List.rdropWhile_eq_self_iff]
      exact fun hne hlast => hdigit _ (List.getLast_mem hne) (of_decide_eq_true hlast)
  | succ k ih =>
      rw [List.replicate_succ', ← List.append_assoc, List.rdropWhile_concat_pos _ _ _ (by decide),
        ih]

theorem encode_eq {bytes : List ℕ} (h : ∀ b ∈ bytes, b < 256) :
    (encode bytes).rdropWhile (· = pad) ++
        padding ((encode bytes).rdropWhile (· = pad)).length = encode bytes := by
  rw [rdropWhile_encode h, List.length_map, encode]

theorem encode_ascii {bytes : List ℕ} (h : ∀ b ∈ bytes, b < 256) :
    ∀ c ∈ encode bytes, c < 0x80 := by
  intro c hc
  rcases List.mem_append.1 hc with hc | hc
  · obtain ⟨d, hd, rfl⟩ := List.mem_map.1 hc
    exact (digit_char d (digits_lt h d hd)).2.2
  · rw [List.eq_of_mem_replicate hc]
    decide

end Base64

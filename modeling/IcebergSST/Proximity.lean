import IcebergSST.Detect

/-!
# Keywords near a match

A keyword is near a match if it stands in the lower-cased text with no letter or digit on
either side and reaches into the window around the match. The search lower-cases a slice of
the text and counts positions in what that gives, and of two occurrences that overlap it only
looks at the first.
-/

namespace IcebergSST.Proximity

open Redaction Detection

/-- What the Unicode database says of characters. -/
structure CaseTable where
  toLower : Char → Text
  isCased : Char → Bool
  isCaseIgnorable : Char → Bool

/-- A capital sigma is a final one where it ends a word. -/
def CaseTable.capitalSigma (table : CaseTable) (text : Text) (i : ℕ) : Char :=
  let before := (text.take i).reverse.find? fun c => !table.isCaseIgnorable c
  let behind := (text.drop (i + 1)).find? fun c => !table.isCaseIgnorable c
  if before.any table.isCased && !behind.any table.isCased then 'ς' else 'σ'

def CaseTable.lowerAt (table : CaseTable) (text : Text) (i : ℕ) : Text :=
  match text[i]? with
  | none => []
  | some c => if c = 'Σ' then [table.capitalSigma text i] else table.toLower c

def CaseTable.lower (table : CaseTable) (text : Text) : Text :=
  (List.range text.length).flatMap (table.lowerAt text)

def isWordChar (c : Char) : Bool := ('a' ≤ c && c ≤ 'z') || ('0' ≤ c && c ≤ '9')

/-- `(?<![a-z0-9])keyword(?![a-z0-9])` matches at `i`. -/
def Bounded (keyword s : Text) (i : ℕ) : Prop :=
  Literal.At s keyword i ∧ (0 < i → ∀ c ∈ s[i - 1]?, ¬ isWordChar c) ∧
    ∀ c ∈ s[i + keyword.length]?, ¬ isWordChar c

instance (keyword s : Text) (i : ℕ) : Decidable (Bounded keyword s i) :=
  have (o : Option Char) : Decidable (∀ c ∈ o, ¬ isWordChar c) := Option.decidableForallMem o
  inferInstanceAs (Decidable (_ ∧ _))

/-- The places, in order, that begin no earlier than where the last one ended. -/
def leftmost (length : ℕ) : ℕ → List ℕ → List ℕ
  | _, [] => []
  | ended, i :: places =>
      if i < ended then leftmost length ended places
      else i :: leftmost length (i + length) places

def occurrences (keyword s : Text) : List ℕ :=
  (List.range s.length).filter fun i => Bounded keyword s i

def finditer (keyword s : Text) : List ℕ := leftmost keyword.length 0 (occurrences keyword s)

section

variable (table : CaseTable) (text : Text) (span : Span text.length) (keywords : List String)
  (window : ℕ)

def windowLo : ℕ := span.start - window

def windowHi : ℕ := min text.length (span.stop + window)

def pad : ℕ := (keywords.map String.length).foldr max 0

def offset : ℕ := windowLo text span window - pad keywords

def sliceStop : ℕ := min text.length (windowHi text span window + pad keywords)

def haystack : Text :=
  table.lower (Literal.slice text (offset text span keywords window)
    (sliceStop text span keywords window))

/-- The places in the haystack that fall within the window. -/
def InWindow (keyword : Text) (i : ℕ) : Prop :=
  i < windowHi text span window - offset text span keywords window ∧
    windowLo text span window - offset text span keywords window < i + keyword.length

instance (keyword : Text) (i : ℕ) : Decidable (InWindow text span keywords window keyword i) :=
  inferInstanceAs (Decidable (_ ∧ _))

def keywordNear : Option String :=
  if keywords = [] then none
  else
    keywords.find? fun keyword =>
      (finditer keyword.toList (haystack table text span keywords window)).any fun i =>
        InWindow text span keywords window keyword.toList i

/-- For each character of the lower-cased text, the place of the one it comes from. -/
def origins : List ℕ :=
  (List.range text.length).flatMap fun i => List.replicate (table.lowerAt text i).length i

/-- Somewhere in the lower-cased text the keyword stands as a word of its own, with its first
character from before the end of the window and its last from behind the start. -/
def IsNear (keyword : Text) : Prop :=
  ∃ i < (table.lower text).length, Bounded keyword (table.lower text) i ∧
    (∃ o ∈ (origins table text)[i]?, o < windowHi text span window) ∧
    ∃ o ∈ (origins table text)[i + keyword.length - 1]?, windowLo text span window ≤ o

instance (keyword : Text) : Decidable (IsNear table text span window keyword) :=
  inferInstanceAs (Decidable (∃ i < _, _))

def nearest : Option String :=
  keywords.find? fun keyword => IsNear table text span window keyword.toList

end

/-- A place is passed over only for one in front of it that reaches into it. -/
theorem mem_leftmost_or {length ended j : ℕ} {places : List ℕ} (h : j ∈ places)
    (hended : ended ≤ j) (hsorted : places.Pairwise (· < ·)) :
    j ∈ leftmost length ended places ∨
      ∃ i ∈ leftmost length ended places, i < j ∧ j < i + length := by
  induction places generalizing ended with
  | nil => cases h
  | cons i places ih =>
      obtain ⟨hlt, hrest⟩ := List.pairwise_cons.1 hsorted
      rw [leftmost]
      rcases List.mem_cons.1 h with rfl | h
      · rw [if_neg (not_lt.2 hended)]
        exact Or.inl List.mem_cons_self
      · split_ifs
        · exact ih h hended hrest
        · by_cases hover : j < i + length
          · exact Or.inr ⟨i, List.mem_cons_self, hlt j h, hover⟩
          · rcases ih h (not_lt.1 hover) hrest with hmem | ⟨k, hk, hover⟩
            · exact Or.inl (List.mem_cons_of_mem _ hmem)
            · exact Or.inr ⟨k, List.mem_cons_of_mem _ hk, hover⟩

theorem le_of_mem_leftmost {length ended j : ℕ} {places : List ℕ}
    (h : j ∈ leftmost length ended places) : ended ≤ j := by
  induction places generalizing ended with
  | nil => cases h
  | cons i places ih =>
      rw [leftmost] at h
      split_ifs at h with hlt
      · exact ih h
      · rcases List.mem_cons.1 h with rfl | h
        · exact not_lt.1 hlt
        · have := ih h
          omega

theorem leftmost_apart {length ended i j : ℕ} {places : List ℕ}
    (hi : i ∈ leftmost length ended places) (hj : j ∈ leftmost length ended places) (hij : i < j) :
    i + length ≤ j := by
  induction places generalizing ended with
  | nil => cases hi
  | cons k places ih =>
      rw [leftmost] at hi hj
      split_ifs at hi hj with hlt
      · exact ih hi hj
      · rcases List.mem_cons.1 hi with rfl | hi
        · rcases List.mem_cons.1 hj with rfl | hj
          · exact absurd hij (lt_irrefl _)
          · exact le_of_mem_leftmost hj
        · rcases List.mem_cons.1 hj with rfl | hj
          · have := le_of_mem_leftmost hi
            omega
          · exact ih hi hj

theorem leftmost_subset (length ended : ℕ) (places : List ℕ) :
    leftmost length ended places ⊆ places := by
  induction places generalizing ended with
  | nil => exact List.Subset.refl _
  | cons i places ih =>
      rw [leftmost]
      split_ifs
      · exact fun j hj => List.mem_cons_of_mem _ (ih _ hj)
      · exact List.cons_subset_cons _ (ih _)

theorem mem_occurrences {keyword s : Text} {i : ℕ} (hkeyword : keyword ≠ []) :
    i ∈ occurrences keyword s ↔ Bounded keyword s i := by
  rw [occurrences, List.mem_filter, List.mem_range, decide_eq_true_eq, and_iff_right_iff_imp]
  intro h
  have hle := h.1.le_length (List.length_pos_iff.2 hkeyword)
  have hpos := List.length_pos_iff.2 hkeyword
  omega

theorem occurrences_sorted (keyword s : Text) : (occurrences keyword s).Pairwise (· < ·) :=
  List.pairwise_lt_range.sublist List.filter_sublist

/-- A word stands inside a part as it stands in the whole, if its neighbours are in the part or
there are none. -/
theorem bounded_append {keyword front s behind : Text} {i : ℕ} (hi : i + keyword.length ≤ s.length)
    (hfront : front = [] ∨ 0 < i) (hbehind : behind = [] ∨ i + keyword.length < s.length) :
    Bounded keyword (front ++ s ++ behind) (front.length + i) ↔ Bounded keyword s i := by
  have hdrop : (front ++ s ++ behind).drop (front.length + i) = s.drop i ++ behind := by
    rw [List.append_assoc, ← List.drop_drop, List.drop_left,
      List.drop_append_of_le_length (by omega)]
  have hat : Literal.At (front ++ s ++ behind) keyword (front.length + i) ↔
      Literal.At s keyword i := by
    rw [Literal.At, Literal.At, hdrop]
    constructor
    · intro h
      refine List.prefix_of_prefix_length_le h (List.prefix_append _ _) ?_
      rw [List.length_drop]
      omega
    · exact fun h => h.trans (List.prefix_append _ _)
  have hleft (hpos : 0 < i) : (front ++ s ++ behind)[front.length + i - 1]? = s[i - 1]? := by
    rw [List.append_assoc, List.getElem?_append_right (by omega),
      List.getElem?_append_left (by omega)]
    congr 1
    omega
  have hright : (front ++ s ++ behind)[front.length + i + keyword.length]? =
      s[i + keyword.length]? := by
    rw [List.append_assoc, List.getElem?_append_right (by omega)]
    have hplace : front.length + i + keyword.length - front.length = i + keyword.length := by omega
    rw [hplace]
    rcases hbehind with rfl | hlt
    · rw [List.append_nil]
    · exact List.getElem?_append_left hlt
  rw [Bounded, Bounded, hat, hright]
  refine and_congr_right fun _ => and_congr_left fun _ => ?_
  have hstart : 0 < front.length + i ↔ 0 < i := by
    rcases hfront with rfl | hpos
    · rw [List.length_nil, Nat.zero_add]
    · omega
  constructor
  · intro h hpos
    rw [← hleft hpos]
    exact h (hstart.2 hpos)
  · intro h hpos
    rw [hleft (hstart.1 hpos)]
    exact h (hstart.1 hpos)

section

variable (table : CaseTable) (text : Text)

def lowered (a b : ℕ) : Text := (List.range' a (b - a)).flatMap (table.lowerAt text)

def originsOf (a b : ℕ) : List ℕ :=
  (List.range' a (b - a)).flatMap fun i => List.replicate (table.lowerAt text i).length i

theorem length_originsOf (a b : ℕ) :
    (originsOf table text a b).length = (lowered table text a b).length := by
  rw [originsOf, lowered, List.length_flatMap, List.length_flatMap]
  simp only [List.length_replicate]

theorem mem_originsOf {a b o : ℕ} (h : o ∈ originsOf table text a b) : a ≤ o ∧ o < b := by
  obtain ⟨i, hi, ho⟩ := List.mem_flatMap.1 h
  rw [List.eq_of_mem_replicate ho]
  have := List.mem_range'_1.1 hi
  omega

theorem flatMap_range_split {β : Type} (f : ℕ → List β) {n a b : ℕ} (hab : a ≤ b) (hb : b ≤ n) :
    (List.range n).flatMap f = (List.range' 0 (a - 0)).flatMap f ++
      (List.range' a (b - a)).flatMap f ++ (List.range' b (n - b)).flatMap f := by
  rw [← List.flatMap_append, ← List.flatMap_append]
  congr 1
  have hfront : List.range' 0 (a - 0) ++ List.range' a (b - a) = List.range' 0 b := by
    rw [Nat.sub_zero]
    simpa [Nat.add_sub_cancel' hab] using List.range'_append_1 (s := 0) (m := a) (n := b - a)
  have hwhole : List.range' 0 b ++ List.range' b (n - b) = List.range' 0 n := by
    simpa [Nat.add_sub_cancel' hb] using List.range'_append_1 (s := 0) (m := b) (n := n - b)
  rw [hfront, hwhole, List.range_eq_range']

/-- Each of these characters becomes something, the same in the slice as in the whole text, and
one character if it stands before `c`. -/
def LowersInPlace (a c b : ℕ) : Prop :=
  (∀ i < b - a, table.lowerAt (Literal.slice text a b) i = table.lowerAt text (a + i) ∧
    table.lowerAt text (a + i) ≠ []) ∧
  ∀ i < c - a, (table.lowerAt text (a + i)).length = 1

instance (a c b : ℕ) : Decidable (LowersInPlace table text a c b) :=
  inferInstanceAs (Decidable ((∀ i < _, _) ∧ ∀ i < _, _))

variable {table text} {a b c : ℕ}

theorem LowersInPlace.lower_eq (h : LowersInPlace table text a c b) (hb : b ≤ text.length) :
    table.lower (Literal.slice text a b) = lowered table text a b := by
  rw [CaseTable.lower, lowered, Literal.length_slice hb, List.range'_eq_map_range, List.flatMap_map]
  refine List.flatMap_congr fun i hi => ?_
  exact (h.1 i (List.mem_range.1 hi)).1

theorem LowersInPlace.originsOf_eq (h : LowersInPlace table text a c b) :
    originsOf table text a c = List.range' a (c - a) := by
  have hone : ∀ i ∈ List.range' a (c - a),
      List.replicate (table.lowerAt text i).length i = [i] := by
    intro i hi
    obtain ⟨hle, hlt⟩ := List.mem_range'_1.1 hi
    have hlength := h.2 (i - a) (by omega)
    rw [Nat.add_sub_cancel' hle] at hlength
    rw [hlength]
    rfl
  rw [originsOf, List.flatMap_congr hone]
  exact List.flatMap_singleton' _

theorem lowered_append (hac : a ≤ c) (hcb : c ≤ b) :
    lowered table text a b = lowered table text a c ++ lowered table text c b := by
  have hrange : List.range' a (b - a) = List.range' a (c - a) ++ List.range' c (b - c) := by
    rw [show b - a = (c - a) + (b - c) by omega, ← List.range'_append_1, Nat.add_sub_cancel' hac]
  rw [lowered, lowered, lowered, hrange, List.flatMap_append]

theorem LowersInPlace.length_lowered (h : LowersInPlace table text a c b) (hac : a ≤ c)
    (hcb : c ≤ b) : (lowered table text a c).length = c - a ∧
      b - a ≤ (lowered table text a b).length := by
  have hfirst : (lowered table text a c).length = c - a := by
    rw [← length_originsOf, h.originsOf_eq, List.length_range']
  refine ⟨hfirst, ?_⟩
  have hrest : b - c ≤ (lowered table text c b).length := by
    rw [lowered, List.length_flatMap]
    refine le_of_eq_of_le (b := ((List.range' c (b - c)).map fun _ => 1).sum) (by simp) ?_
    refine List.sum_le_sum fun i hi => ?_
    obtain ⟨hle, hlt⟩ := List.mem_range'_1.1 hi
    have hsome := (h.1 (i - a) (by omega)).2
    rw [Nat.add_sub_cancel' (by omega)] at hsome
    exact List.length_pos_iff.2 hsome
  rw [lowered_append hac hcb, List.length_append]
  omega

/-- Where a character of the lower-cased text comes from, counted from where the part begins. -/
theorem LowersInPlace.origin (h : LowersInPlace table text a c b) (hac : a ≤ c)
    (hc : c ≤ text.length) {i o : ℕ} (ho : o ∈ (origins table text)[i]?) :
    (i < (lowered table text 0 a).length → o < a) ∧
    (∀ k < c - a, i = (lowered table text 0 a).length + k → o = a + k) ∧
    ((lowered table text 0 a).length + (c - a) ≤ i → c ≤ o) := by
  have hsplit : origins table text = originsOf table text 0 a ++ originsOf table text a c ++
      originsOf table text c text.length := flatMap_range_split _ hac hc
  rw [hsplit, List.append_assoc] at ho
  have hfront := length_originsOf table text 0 a
  refine ⟨fun hi => ?_, fun k hk hi => ?_, fun hi => ?_⟩
  · rw [List.getElem?_append_left (by omega)] at ho
    exact (mem_originsOf table text (List.mem_of_getElem? ho)).2
  · rw [List.getElem?_append_right (by omega), h.originsOf_eq,
      List.getElem?_append_left (by rw [List.length_range']; omega)] at ho
    obtain ⟨_, ho⟩ := List.getElem?_eq_some_iff.1 ho
    rw [List.getElem_range'] at ho
    omega
  · rw [List.getElem?_append_right (by omega), List.getElem?_append_right
      (by rw [h.originsOf_eq, List.length_range']; omega)] at ho
    exact (mem_originsOf table text (List.mem_of_getElem? ho)).1

theorem length_lower (hab : a ≤ b) (hb : b ≤ text.length) : (table.lower text).length =
    (lowered table text 0 a).length + (lowered table text a b).length +
      (lowered table text b text.length).length := by
  have hsplit : table.lower text = lowered table text 0 a ++ lowered table text a b ++
      lowered table text b text.length := flatMap_range_split _ hab hb
  rw [hsplit, List.length_append, List.length_append]

theorem length_origins : (origins table text).length = (table.lower text).length := by
  rw [origins, CaseTable.lower, List.length_flatMap, List.length_flatMap]
  simp only [List.length_replicate]

section

variable {lo hi pad : ℕ} {keyword : Text} (hplace : LowersInPlace table text a hi b) (ha : a ≤ lo)
  (hlo : lo < hi) (hhi : hi ≤ b) (hb : b ≤ text.length) (hleft : a = 0 ∨ lo - a = pad)
  (hright : b = text.length ∨ b = hi + pad) (hkeyword : keyword ≠ [])
  (hpad : keyword.length ≤ pad)

include hplace ha hlo hhi hb hleft hright hpad

theorem bounded_lower_iff {i : ℕ} (hlt : i < hi - a) (hgt : lo - a < i + keyword.length)
    (hi : i + keyword.length ≤ (lowered table text a b).length) :
    Bounded keyword (table.lower text) ((lowered table text 0 a).length + i) ↔
      Bounded keyword (table.lower (Literal.slice text a b)) i := by
  have hsplit : table.lower text = lowered table text 0 a ++ lowered table text a b ++
      lowered table text b text.length := flatMap_range_split _ (by omega) hb
  have hlength := (hplace.length_lowered (by omega) hhi).2
  rw [hsplit, hplace.lower_eq hb]
  refine bounded_append hi ?_ ?_
  · rcases hleft with rfl | hleft
    · exact Or.inl rfl
    · exact Or.inr (by omega)
  · rcases hright with rfl | hright
    · left
      rw [lowered, Nat.sub_self]
      rfl
    · exact Or.inr (by omega)

include hkeyword

/-- What reaches into the window in the text is what does in the lower-cased slice. -/
theorem near_iff_slice :
    (∃ i < (table.lower text).length, Bounded keyword (table.lower text) i ∧
      (∃ o ∈ (origins table text)[i]?, o < hi) ∧
      ∃ o ∈ (origins table text)[i + keyword.length - 1]?, lo ≤ o) ↔
    ∃ i, Bounded keyword (table.lower (Literal.slice text a b)) i ∧ i < hi - a ∧
      lo - a < i + keyword.length := by
  have hab : a ≤ b := by omega
  have hpos := List.length_pos_iff.2 hkeyword
  have hbounded := fun {i : ℕ} => @bounded_lower_iff table text a b lo hi pad keyword hplace ha hlo
    hhi hb hleft hright hpad i
  have hwhole := @length_lower table text a b hab hb
  have hlength := (hplace.length_lowered (by omega) hhi).2
  have horigins := fun {i o : ℕ} => @LowersInPlace.origin table text a b hi hplace (by omega)
    (hhi.trans hb) i o
  generalize hfront : (lowered table text 0 a).length = front at hbounded hwhole horigins
  constructor
  · rintro ⟨i, -, hword, ⟨o, ho, hohi⟩, ⟨o', ho', hlo'⟩⟩
    obtain ⟨_, _, hbehind⟩ := horigins ho
    obtain ⟨hbefore', hin', _⟩ := horigins ho'
    have hlast : front + (lo - a) ≤ i + keyword.length - 1 := by
      by_contra! hlt
      by_cases hbefore : i + keyword.length - 1 < front
      · have := hbefore' hbefore
        omega
      · have := hin' (i + keyword.length - 1 - front) (by omega) (by omega)
        omega
    have hfirst : i < front + (hi - a) := by
      by_contra! hge
      have := hbehind hge
      omega
    have hle : front ≤ i := by
      rcases hleft with rfl | hleft
      · have hnil : (lowered table text 0 0).length = 0 := rfl
        omega
      · omega
    obtain ⟨j, rfl⟩ := Nat.exists_eq_add_of_le hle
    have hj : j + keyword.length ≤ (lowered table text a b).length := by
      rcases hright with rfl | hright
      · have hend := hword.1.le_length hpos
        have hnil : (lowered table text text.length text.length).length = 0 := by
          rw [lowered, Nat.sub_self]
          rfl
        omega
      · omega
    exact ⟨j, (hbounded (by omega) (by omega) hj).1 hword, by omega, by omega⟩
  · rintro ⟨i, hword, hlt, hgt⟩
    have hi' : i + keyword.length ≤ (lowered table text a b).length := by
      have hend := hword.1.le_length hpos
      rwa [hplace.lower_eq hb] at hend
    have hget : ∀ k < (lowered table text a b).length,
        ∃ o, (origins table text)[front + k]? = some o := by
      intro k hk
      have hlen : front + k < (origins table text).length := by
        rw [length_origins]
        omega
      exact ⟨_, List.getElem?_eq_getElem hlen⟩
    obtain ⟨o, ho⟩ := hget i (by omega)
    obtain ⟨o', ho'⟩ := hget (i + keyword.length - 1) (by omega)
    have hplace' : front + i + keyword.length - 1 = front + (i + keyword.length - 1) := by omega
    refine ⟨front + i, by omega, (hbounded hlt hgt hi').2 hword, ⟨o, ho, ?_⟩, ⟨o', ?_, ?_⟩⟩
    · have := (horigins ho).2.1 i hlt rfl
      omega
    · rw [hplace']
      exact ho'
    · obtain ⟨_, hin, hbehind⟩ := horigins ho'
      by_cases hinside : i + keyword.length - 1 < hi - a
      · have := hin _ hinside rfl
        omega
      · have := hbehind (by omega)
        omega

end

end

section

variable (table : CaseTable) (text : Text) (span : Span text.length) (keywords : List String)
  (window : ℕ)

/-- Every occurrence that reaches into the window begins inside one that the search reports and
that ends in front of it. -/
def PassedOver (keyword : Text) : Prop :=
  ∃ i ∈ finditer keyword (haystack table text span keywords window),
    i + keyword.length ≤ windowLo text span window - offset text span keywords window ∧
      ∀ j ∈ occurrences keyword (haystack table text span keywords window),
        InWindow text span keywords window keyword j → j < i + keyword.length

instance (keyword : Text) : Decidable (PassedOver table text span keywords window keyword) :=
  inferInstanceAs (Decidable (∃ i ∈ _, _ ∧ ∀ j ∈ _, _))

variable {table text span keywords window}

/-- The search finds what reaches into the window, unless all of that is passed over. -/
theorem any_finditer_iff {keyword : Text} (hkeyword : keyword ≠ []) :
    (∃ i ∈ finditer keyword (haystack table text span keywords window),
      InWindow text span keywords window keyword i) ↔
    (∃ i, Bounded keyword (haystack table text span keywords window) i ∧
      InWindow text span keywords window keyword i) ∧
      ¬ PassedOver table text span keywords window keyword := by
  have hoccur : ∀ {i}, i ∈ finditer keyword (haystack table text span keywords window) →
      i ∈ occurrences keyword (haystack table text span keywords window) :=
    fun hi => leftmost_subset _ _ _ hi
  constructor
  · rintro ⟨j, hj, hwindow⟩
    refine ⟨⟨j, (mem_occurrences hkeyword).1 (hoccur hj), hwindow⟩, ?_⟩
    rintro ⟨i, hi, hends, hall⟩
    have hinside := hall j (hoccur hj) hwindow
    have hreach := hwindow.2
    have hlt : i < j := by
      by_contra! hle
      rcases hle.eq_or_lt with rfl | hlt
      · omega
      · have := leftmost_apart hj hi hlt
        omega
    have := leftmost_apart hi hj hlt
    omega
  · rintro ⟨⟨j₀, hword₀, hwindow₀⟩, hpassed⟩
    by_contra! hnone
    -- the last occurrence in the window was passed over, and the others begin before it
    let Reaches : ℕ → Prop := fun j =>
      j ∈ occurrences keyword (haystack table text span keywords window) ∧
        InWindow text span keywords window keyword j
    let last := Nat.findGreatest Reaches
      (windowHi text span window - offset text span keywords window)
    have hreaches₀ : Reaches j₀ := ⟨(mem_occurrences hkeyword).2 hword₀, hwindow₀⟩
    obtain ⟨hlast, hin⟩ : Reaches last := Nat.findGreatest_spec hwindow₀.1.le hreaches₀
    rcases mem_leftmost_or hlast (Nat.zero_le _) (occurrences_sorted _ _) with
      hmem | ⟨i, hi, hlt, hover⟩
    · exact hnone last hmem hin
    · have hout := hnone i hi
      rw [InWindow, not_and, not_lt] at hout
      refine hpassed ⟨i, hi, hout (hlt.trans hin.1), fun j hj hwindow => ?_⟩
      exact (Nat.le_findGreatest hwindow.1.le ⟨hj, hwindow⟩).trans_lt hover

theorem length_le_pad {keyword : String} (h : keyword ∈ keywords) :
    keyword.toList.length ≤ pad keywords := by
  rw [String.length_toList, pad]
  induction keywords with
  | nil => cases h
  | cons k keywords ih =>
      rw [List.map_cons, List.foldr_cons]
      rcases List.mem_cons.1 h with rfl | h
      · exact le_max_left _ _
      · exact (ih h).trans (le_max_right _ _)

theorem find?_and_not_eq_iff {α : Type} {p q : α → Bool} {l : List α} :
    (l.find? fun x => p x && !q x) = l.find? p ↔ ∀ x ∈ l.find? p, q x = false := by
  constructor
  · intro h x hx
    have hfound := List.find?_some (h.trans hx)
    simp only [Bool.and_eq_true, Bool.not_eq_true'] at hfound
    exact hfound.2
  · intro h
    cases hfind : l.find? p with
    | none =>
        rw [List.find?_eq_none] at hfind ⊢
        intro x hx hboth
        exact hfind x hx (Bool.and_eq_true_iff.1 hboth).1
    | some x =>
        obtain ⟨hx, before, after, rfl, hbefore⟩ := List.find?_eq_some_iff_append.1 hfind
        refine List.find?_eq_some_iff_append.2 ⟨?_, before, after, rfl, fun y hy => ?_⟩
        · rw [hx, h x hfind]
          rfl
        · have hno := hbefore y hy
          simp only [Bool.not_eq_true'] at hno ⊢
          rw [hno]
          rfl

/-- Where the slice becomes the same by itself as in the text, one character for one up to the
end of the window, the search finds what is near if and only if the first keyword that is near
is not passed over. -/
theorem keywordNear_eq_nearest_iff (table : CaseTable) (text : Text) (span : Span text.length)
    (keywords : List String) (window : ℕ) (hkeywords : ∀ keyword ∈ keywords, keyword ≠ "")
    (hplace : LowersInPlace table text (offset text span keywords window)
      (windowHi text span window) (sliceStop text span keywords window)) :
    keywordNear table text span keywords window = nearest table text span keywords window ↔
      ∀ keyword ∈ nearest table text span keywords window,
        ¬ PassedOver table text span keywords window keyword.toList := by
  have hfound : ∀ keyword ∈ keywords,
      (∃ i ∈ finditer keyword.toList (haystack table text span keywords window),
        InWindow text span keywords window keyword.toList i) ↔
      IsNear table text span window keyword.toList ∧
        ¬ PassedOver table text span keywords window keyword.toList := by
    intro keyword hkeyword
    have hne : keyword.toList ≠ [] := fun hnil =>
      hkeywords keyword hkeyword (String.toList_eq_nil_iff.1 hnil)
    have hstart := span.start_lt
    have hstop := span.stop_le
    rw [any_finditer_iff hne]
    refine and_congr_left' (near_iff_slice hplace (Nat.sub_le _ _) ?_ ?_ (Nat.min_le_left _ _)
      ?_ ?_ hne (length_le_pad hkeyword)).symm
    · rw [windowLo, windowHi]
      omega
    · rw [sliceStop, windowHi]
      omega
    · rw [offset]
      omega
    · rw [sliceStop, windowHi]
      omega
  have hsearch : keywordNear table text span keywords window = keywords.find? fun keyword =>
      decide (IsNear table text span window keyword.toList) &&
        !decide (PassedOver table text span keywords window keyword.toList) := by
    rw [keywordNear]
    split_ifs with hnil
    · rw [hnil]
      rfl
    · refine List.find?_congr fun keyword hkeyword => ?_
      rw [Bool.eq_iff_iff, List.any_eq_true, Bool.and_eq_true, Bool.not_eq_true',
        decide_eq_true_eq, decide_eq_false_iff_not, ← hfound keyword hkeyword]
      simp only [decide_eq_true_eq]
  rw [hsearch, nearest, find?_and_not_eq_iff]
  simp only [decide_eq_false_iff_not]

end

def dottedTable : CaseTable where
  toLower c := if c = 'İ' then ['i', Char.ofNat 0x307] else [c.toLower]
  isCased := Char.isAlpha
  isCaseIgnorable c := c = Char.ofNat 0x307

def dotted : Text := "#İa".toList

def colons : Text := ":::#".toList

def hash (text : Text) (i : ℕ) (h : i < text.length) : Span text.length :=
  ⟨i, i + 1, i.lt_succ_self, h⟩

/-- The second letter becomes two and moves the third out of the window; the second pair of
colons is passed over for the first, which ends in front of the window. -/
theorem keywords_missed :
    (keywordNear dottedTable dotted (hash dotted 0 (by decide)) ["a"] 2 = none ∧
      nearest dottedTable dotted (hash dotted 0 (by decide)) ["a"] 2 = some "a") ∧
    keywordNear dottedTable colons (hash colons 3 (by decide)) ["::"] 1 = none ∧
      nearest dottedTable colons (hash colons 3 (by decide)) ["::"] 1 = some "::" := by
  decide +kernel

def mixed : Text := ":::#a.İ".toList

/-- A keyword that is passed over stands behind the one that is found, and a letter that becomes
two behind the window. -/
theorem mixed_near : keywordNear dottedTable mixed (hash mixed 3 (by decide)) ["a", "::"] 1 =
      nearest dottedTable mixed (hash mixed 3 (by decide)) ["a", "::"] 1 ∧
    nearest dottedTable mixed (hash mixed 3 (by decide)) ["a", "::"] 1 = some "a" :=
  ⟨(keywordNear_eq_nearest_iff _ _ _ _ _ (by decide) (by decide +kernel)).2 (by decide +kernel),
    by decide +kernel⟩

end IcebergSST.Proximity

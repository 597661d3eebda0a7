import IcebergSST.FileTree
import Mathlib.Data.List.DropRight

/-!
# Splitting and joining URLs

`urlsplit` of the standard library, as far as the scheme and the network location go, and
the way a site's links are made absolute. `refused` are the network locations that
`urlsplit` raises a `ValueError` for: brackets that are no address, and characters that
normalise to a delimiter.
-/

namespace IcebergSST

structure SplitUrl where
  scheme : PyStr
  netloc : PyStr
  path : PyStr
  query : PyStr
  fragment : PyStr
  deriving DecidableEq, Repr

def colon : ℕ := 0x3a

def isSchemeChar (c : ℕ) : Bool :=
  isAsciiAlpha c || (0x30 ≤ c && c ≤ 0x39) || c = 0x2b || c = 0x2d || c = 0x2e

/-- A tab, a line feed or a carriage return. -/
def isUnsafe (c : ℕ) : Bool := c = 0x9 || c = 0xa || c = 0xd

/-- Leading controls and blanks go, and line breaks and tabs anywhere. -/
def urlClean (url : PyStr) : PyStr := (url.dropWhile (· ≤ 0x20)).filter fun c => !isUnsafe c

def isScheme (s : PyStr) : Bool := s.head?.any isAsciiAlpha && s.all isSchemeChar

def splitScheme (url : PyStr) : PyStr × PyStr :=
  if colon ∈ url ∧ isScheme (url.takeWhile (· ≠ colon)) then
    ((url.takeWhile (· ≠ colon)).map asciiLower, (url.dropWhile (· ≠ colon)).tail)
  else ([], url)

def endsNetloc (c : ℕ) : Bool := c = slash || c = 0x3f || c = 0x23

def splitNetloc : PyStr → PyStr × PyStr
  | c :: d :: url =>
      if c = slash ∧ d = slash then
        (url.takeWhile fun c => !endsNetloc c, url.dropWhile fun c => !endsNetloc c)
      else ([], c :: d :: url)
  | url => ([], url)

/-- `url.split(c, 1)`, the second part empty if there is no `c`. -/
def splitFirst (c : ℕ) (url : PyStr) : PyStr × PyStr :=
  (url.takeWhile (· ≠ c), (url.dropWhile (· ≠ c)).tail)

def rstripSlash (s : PyStr) : PyStr := s.rdropWhile (· = slash)

section Urlsplit

variable (refused : PyStr → Bool)

/-- `none` is a `ValueError`. -/
def urlsplit (url : PyStr) : Option SplitUrl :=
  let (scheme, rest) := splitScheme (urlClean url)
  let (netloc, rest) := splitNetloc rest
  if refused netloc then none
  else
    let (rest, fragment) := splitFirst 0x23 rest
    let (path, query) := splitFirst 0x3f rest
    some { scheme, netloc, path, query, fragment }

def origin (url : PyStr) : Option (PyStr × PyStr) :=
  (urlsplit refused url).map fun s => (s.scheme, s.netloc)

/-- A site-named relative link resolved against a base that may carry a context. -/
def joinLink (base link : PyStr) : Option PyStr :=
  if pyStr "http://" <+: link ∨ pyStr "https://" <+: link then some link
  else
    (urlsplit refused base).map fun split =>
      let context := rstripSlash split.path
      let path := slash :: link.dropWhile (· = slash)
      let path :=
        if context ≠ [] ∧ path ≠ context ∧ ¬ context ++ [slash] <+: path then context ++ path
        else path
      split.scheme ++ pyStr "://" ++ split.netloc ++ path

end Urlsplit

variable {refused : PyStr → Bool} {url : PyStr} {split : SplitUrl}

theorem origin_eq (url : PyStr) : origin refused url =
    if refused (splitNetloc (splitScheme (urlClean url)).2).1 then none
    else some ((splitScheme (urlClean url)).1, (splitNetloc (splitScheme (urlClean url)).2).1) := by
  simp only [origin, urlsplit]
  split_ifs <;> rfl

theorem urlClean_concat_slash (url : PyStr) :
    urlClean (url ++ [slash]) = urlClean url ++ [slash] := by
  have hslash : isUnsafe slash = false := by decide
  unfold urlClean
  rw [List.dropWhile_append]
  split_ifs with hempty
  · have hnil : url.dropWhile (· ≤ 0x20) = [] := by simpa using hempty
    rw [hnil]
    decide
  · rw [List.filter_append]
    simp [hslash]

theorem takeWhile_concat_of_neg {p : ℕ → Bool} {c : ℕ} (h : p c = false) (l : PyStr) :
    (l ++ [c]).takeWhile p = l.takeWhile p := by
  rw [List.takeWhile_append]
  split_ifs with hall
  · rw [(List.takeWhile_prefix p).eq_of_length hall]
    simp [h]
  · rfl

theorem takeWhile_append_of_mem {c : ℕ} {url : PyStr} (h : c ∈ url) (l : PyStr) :
    (url ++ l).takeWhile (· ≠ c) = url.takeWhile (· ≠ c) := by
  rw [List.takeWhile_append, if_neg]
  intro hall
  have hself := (List.takeWhile_prefix _).eq_of_length hall
  have hc := List.takeWhile_eq_self_iff.1 hself c h
  simp at hc

theorem dropWhile_append_of_mem {c : ℕ} {url : PyStr} (h : c ∈ url) (l : PyStr) :
    (url ++ l).dropWhile (· ≠ c) = url.dropWhile (· ≠ c) ++ l := by
  rw [List.dropWhile_append, if_neg]
  intro hempty
  have hall := List.dropWhile_eq_nil_iff.1 (List.isEmpty_iff.1 hempty) c h
  simp at hall

theorem splitScheme_concat_slash (url : PyStr) : splitScheme (url ++ [slash]) =
    ((splitScheme url).1, (splitScheme url).2 ++ [slash]) := by
  have hslash : slash ≠ colon := by decide
  unfold splitScheme
  by_cases hcolon : colon ∈ url
  · have hlast : colon ∈ url ++ [slash] := List.mem_append_left _ hcolon
    have htake := takeWhile_append_of_mem hcolon [slash]
    have hdrop := dropWhile_append_of_mem hcolon [slash]
    have htail : (url.dropWhile (· ≠ colon) ++ [slash]).tail =
        (url.dropWhile (· ≠ colon)).tail ++ [slash] := by
      apply List.tail_append_of_ne_nil
      intro hnil
      have hall := List.dropWhile_eq_nil_iff.1 hnil colon hcolon
      simp at hall
    rw [htake, hdrop, htail]
    simp only [hcolon, hlast, true_and]
    split_ifs <;> rfl
  · have hlast : colon ∉ url ++ [slash] := by simp [hcolon, hslash.symm]
    simp [hcolon, hlast]

theorem splitNetloc_concat_slash (url : PyStr) :
    (splitNetloc (url ++ [slash])).1 = (splitNetloc url).1 := by
  have hends : (!endsNetloc slash) = false := by decide
  match url with
  | [] => rfl
  | [c] =>
      simp only [List.singleton_append, splitNetloc]
      split_ifs <;> rfl
  | c :: d :: url =>
      simp only [List.cons_append, splitNetloc]
      split_ifs
      · exact takeWhile_concat_of_neg hends url
      · rfl

theorem origin_concat_slash (url : PyStr) :
    origin refused (url ++ [slash]) = origin refused url := by
  rw [origin_eq, origin_eq, urlClean_concat_slash, splitScheme_concat_slash]
  simp only [splitNetloc_concat_slash]

/-- Trailing slashes are not part of where a URL leads. -/
theorem origin_rstripSlash (url : PyStr) :
    origin refused (rstripSlash url) = origin refused url := by
  induction url using List.reverseRecOn with
  | nil => rfl
  | append_singleton url c ih =>
      by_cases hc : c = slash
      · subst hc
        rw [origin_concat_slash, ← ih, rstripSlash, rstripSlash, List.rdropWhile_concat_pos]
        simp
      · rw [rstripSlash, List.rdropWhile_concat_neg]
        simpa using hc

theorem splitScheme_of_scheme {scheme rest : PyStr} (hscheme : isScheme scheme)
    (hlower : scheme.map asciiLower = scheme) :
    splitScheme (scheme ++ colon :: rest) = (scheme, rest) := by
  have hnot : ∀ c ∈ scheme, c ≠ colon := by
    intro c hc heq
    have hall := List.all_eq_true.1 (Bool.and_eq_true_iff.1 hscheme).2 c hc
    rw [heq] at hall
    revert hall
    decide
  have htake : (scheme ++ colon :: rest).takeWhile (· ≠ colon) = scheme := by
    rw [List.takeWhile_append_of_pos (by simpa using hnot), List.takeWhile_cons_of_neg (by simp),
      List.append_nil]
  have hdrop : (scheme ++ colon :: rest).dropWhile (· ≠ colon) = colon :: rest := by
    rw [List.dropWhile_append_of_pos (by simpa using hnot), List.dropWhile_cons_of_neg (by simp)]
  rw [splitScheme, htake, hdrop, if_pos ⟨by simp, hscheme⟩, hlower, List.tail_cons]

theorem splitNetloc_of_netloc {netloc : PyStr} (h : ∀ c ∈ netloc, endsNetloc c = false) :
    splitNetloc (slash :: slash :: netloc) = (netloc, []) := by
  have hall : ∀ c ∈ netloc, (!endsNetloc c) = true := by simpa using h
  simp only [splitNetloc, and_self, if_true, List.takeWhile_eq_self_iff.2 hall,
    List.dropWhile_eq_nil_iff.2 hall]

theorem asciiLower_alpha {c : ℕ} (h : isAsciiAlpha c) : isAsciiAlpha (asciiLower c) := by
  unfold isAsciiAlpha asciiLower at *
  simp only [Bool.or_eq_true, Bool.and_eq_true, decide_eq_true_eq] at *
  split_ifs <;> omega

theorem asciiLower_schemeChar {c : ℕ} (h : isSchemeChar c) : isSchemeChar (asciiLower c) := by
  unfold isSchemeChar isAsciiAlpha asciiLower at *
  simp only [Bool.or_eq_true, Bool.and_eq_true, decide_eq_true_eq] at *
  split_ifs <;> omega

theorem asciiLower_asciiLower (c : ℕ) : asciiLower (asciiLower c) = asciiLower c := by
  unfold asciiLower
  simp only [Bool.and_eq_true, decide_eq_true_eq]
  split_ifs <;> omega

theorem isUnsafe_of_schemeChar {c : ℕ} (h : isSchemeChar c) : isUnsafe c = false := by
  unfold isSchemeChar isAsciiAlpha at h
  simp only [Bool.or_eq_true, Bool.and_eq_true, decide_eq_true_eq] at h
  simp only [isUnsafe, Bool.or_eq_false_iff, decide_eq_false_iff_not]
  omega

theorem isScheme_of_splitScheme (h : (splitScheme url).1 ≠ []) :
    isScheme (splitScheme url).1 ∧ (splitScheme url).1.map asciiLower = (splitScheme url).1 := by
  unfold splitScheme at h ⊢
  split_ifs at h ⊢ with hsplit
  · obtain ⟨hhead, hall⟩ := Bool.and_eq_true_iff.1 hsplit.2
    refine ⟨Bool.and_eq_true_iff.2 ⟨?_, ?_⟩, ?_⟩
    · obtain ⟨c, hc, halpha⟩ := (Option.any_eq_true _ _).1 hhead
      rw [List.head?_map, hc]
      exact asciiLower_alpha halpha
    · rw [List.all_map]
      exact List.all_eq_true.2 fun c hc => asciiLower_schemeChar (List.all_eq_true.1 hall c hc)
    · rw [List.map_map]
      exact List.map_congr_left fun c _ => asciiLower_asciiLower c
  · exact absurd rfl h

theorem splitScheme_snd_subset (url : PyStr) : (splitScheme url).2 ⊆ url := by
  unfold splitScheme
  split_ifs
  · exact fun c hc => List.dropWhile_sublist _ |>.subset (List.mem_of_mem_tail hc)
  · exact List.Subset.refl url

theorem splitNetloc_fst (url : PyStr) :
    (splitNetloc url).1 ⊆ url ∧ ∀ c ∈ (splitNetloc url).1, endsNetloc c = false := by
  match url with
  | [] => simp [splitNetloc]
  | [c] => simp [splitNetloc]
  | c :: d :: url =>
      simp only [splitNetloc]
      split_ifs
      · refine ⟨fun e he => ?_, fun e he => by simpa using List.mem_takeWhile_imp he⟩
        exact List.mem_cons_of_mem _ (List.mem_cons_of_mem _ ((List.takeWhile_prefix _).subset he))
      · simp

theorem not_isUnsafe_of_mem_urlClean (url : PyStr) {c : ℕ} (h : c ∈ urlClean url) :
    isUnsafe c = false := by
  simpa using (List.mem_filter.1 h).2

theorem origin_rebuilt {scheme netloc : PyStr} (h : origin refused url = some (scheme, netloc))
    (hscheme : scheme ≠ []) :
    origin refused (scheme ++ pyStr "://" ++ netloc) = some (scheme, netloc) := by
  rw [origin_eq] at h
  split_ifs at h with hrefused
  obtain ⟨rfl, rfl⟩ := Prod.mk.inj (Option.some.inj h)
  generalize hu : urlClean url = u at *
  obtain ⟨hisScheme, hlower⟩ := isScheme_of_splitScheme hscheme
  obtain ⟨hsub, hends⟩ := splitNetloc_fst (splitScheme u).2
  generalize hs : (splitScheme u).1 = scheme at *
  generalize hn : (splitNetloc (splitScheme u).2).1 = netloc at *
  have hnetloc : ∀ c ∈ netloc, isUnsafe c = false := fun c hc =>
    not_isUnsafe_of_mem_urlClean url (hu ▸ splitScheme_snd_subset u (hsub hc))
  obtain ⟨hhead, hall⟩ := Bool.and_eq_true_iff.1 hisScheme
  have hclean : urlClean (scheme ++ pyStr "://" ++ netloc) = scheme ++ pyStr "://" ++ netloc := by
    obtain ⟨c, rest, rfl⟩ := List.exists_cons_of_ne_nil hscheme
    have hc : ¬ c ≤ 0x20 := by
      have halpha : isAsciiAlpha c := by simpa using hhead
      unfold isAsciiAlpha at halpha
      simp only [Bool.or_eq_true, Bool.and_eq_true, decide_eq_true_eq] at halpha
      omega
    have hdelimiter : ∀ d ∈ pyStr "://", isUnsafe d = false := by decide
    rw [urlClean, List.cons_append, List.cons_append,
      List.dropWhile_cons_of_neg (by simpa using hc), List.filter_eq_self]
    intro d hd
    rw [Bool.not_eq_true']
    rw [← List.cons_append, ← List.cons_append] at hd
    rcases List.mem_append.1 hd with hd | hd
    · rcases List.mem_append.1 hd with hd | hd
      · exact isUnsafe_of_schemeChar (List.all_eq_true.1 hall d hd)
      · exact hdelimiter d hd
    · exact hnetloc d hd
  have hsplit : scheme ++ pyStr "://" ++ netloc = scheme ++ colon :: slash :: slash :: netloc := by
    simp [pyStr, colon, slash]
  rw [origin_eq, hclean, hsplit, splitScheme_of_scheme hisScheme hlower,
    splitNetloc_of_netloc hends]
  simp [hrefused]

end IcebergSST

import IcebergSST.StorageTags

/-!
# What becomes of a document in storage format

References are resolved one by one, and the bodies stand where their placeholders do. What a
reader sees is in the result, unless it stands between two tags that are taken for those of
one dropped element.
-/

namespace IcebergSST.Storage

open Scanning Squeeze

open Wiki (one one_eq_some placeholder notMem_placeholder held NoNul scanFrom_held)

variable {tables : Tables} {s rest : PyStr} {items : List Item}

theorem terminated_eq_some {front run b : PyStr} (h : terminated front run s = some (b, rest)) :
    run ≠ [] ∧ ∃ mark, (mark = [] ∨ mark = [0x3b]) ∧ b = front ++ (run ++ mark) ∧
      s = mark ++ rest := by
  rw [terminated] at h
  split_ifs at h with hrun
  refine ⟨hrun, ?_⟩
  cases hone : one 0x3b s with
  | none =>
      rw [hone] at h
      cases h
      exact ⟨[], Or.inl rfl, by simp, rfl⟩
  | some s' =>
      rw [hone] at h
      cases h
      exact ⟨[0x3b], Or.inr rfl, by simp, one_eq_some.1 hone⟩

theorem isSome_terminated (front : PyStr) {run : PyStr} (h : run ≠ []) (s : PyStr) :
    (terminated front run s).isSome := by
  rw [terminated, if_neg h]
  cases one 0x3b s <;> rfl

theorem decimalReference_eq_some {b : PyStr} (h : decimalReference s = some (b, rest)) :
    s = b ++ rest ∧ ∃ run mark, b = 0x23 :: (run ++ mark) ∧ run = s.tail.takeWhile isDecimal ∧
      run ≠ [] ∧ (mark = [] ∨ mark = [0x3b]) := by
  obtain ⟨t, hone, hrun⟩ := Option.bind_eq_some_iff.1 h
  obtain rfl := one_eq_some.1 hone
  obtain ⟨hne, mark, hmark, rfl, hrest⟩ := terminated_eq_some hrun
  refine ⟨?_, _, mark, rfl, rfl, hne, hmark⟩
  rw [List.append_assoc, List.append_assoc, ← hrest, List.takeWhile_append_dropWhile]
  rfl

theorem hexReference_eq_some {b : PyStr} (h : hexReference s = some (b, rest)) :
    s = b ++ rest ∧ ∃ x run, b = 0x23 :: x :: run ∧ (x = 0x78 ∨ x = 0x58) := by
  unfold hexReference at h
  split at h
  · split_ifs at h with hx
    obtain ⟨-, mark, -, rfl, hrest⟩ := terminated_eq_some h
    refine ⟨?_, _, _, rfl, hx⟩
    rw [List.append_assoc, List.append_assoc, ← hrest, List.takeWhile_append_dropWhile]
    rfl
  · cases h

theorem namedReference_eq_some {b : PyStr} (h : namedReference s = some (b, rest)) :
    s = b ++ rest ∧ b.head? ≠ some 0x23 := by
  obtain ⟨hne, mark, -, rfl, hrest⟩ := terminated_eq_some h
  have hprefix : (s.takeWhile inReference).take 32 <+: s :=
    (List.take_prefix _ _).trans (List.takeWhile_prefix _)
  refine ⟨?_, ?_⟩
  · rw [List.nil_append, List.append_assoc, ← hrest]
    exact (List.prefix_iff_eq_append.1 hprefix).symm
  · obtain ⟨c, run, hrun⟩ := List.exists_cons_of_ne_nil hne
    have hc : inReference c := List.mem_takeWhile_imp
      (List.mem_of_mem_take (hrun ▸ List.mem_cons_self : c ∈ (s.takeWhile inReference).take 32))
    rw [hrun, List.nil_append, List.cons_append, List.head?_cons]
    rintro ⟨⟩
    exact absurd hc (by decide)

theorem charref_eq_some {prev : Option ℕ} {b : PyStr} (h : charref prev s = some (b, rest)) :
    s = 0x26 :: (b ++ rest) := by
  obtain ⟨t, hone, hreference⟩ := Option.bind_eq_some_iff.1 h
  rw [one_eq_some.1 hone]
  rcases Option.or_eq_some_iff.1 hreference with h | ⟨-, h⟩
  · rw [(decimalReference_eq_some h).1]
  · rcases Option.or_eq_some_iff.1 h with h | ⟨-, h⟩
    · rw [(hexReference_eq_some h).1]
    · rw [(namedReference_eq_some h).1]

def follow (s : PyStr) (found : PyStr × PyStr) : PyStr × PyStr := (found.1, found.2 ++ s)

theorem terminated_append (front run : PyStr) {z : PyStr} (hz : 0x3b ∉ z) (s : PyStr) :
    terminated front run (z ++ 0x3b :: s) =
      (terminated front run (z ++ [0x3b])).map (follow s) := by
  rw [terminated, terminated]
  split_ifs
  · rfl
  · rcases z with _ | ⟨c, z⟩
    · rfl
    · have hc : c ≠ 0x3b := fun h => hz (h ▸ List.mem_cons_self)
      rw [List.cons_append, List.cons_append, one_of_ne hc, one_of_ne hc]
      simp [follow]

theorem notMem_of_suffix {c : ℕ} {x z : PyStr} (h : z <:+ x) (hx : c ∉ x) : c ∉ z := fun hc =>
  hx (h.subset hc)

theorem decimalReference_append {name : PyStr} (hname : 0x3b ∉ name) (s : PyStr) :
    decimalReference (name ++ 0x3b :: s) =
      (decimalReference (name ++ [0x3b])).map (follow s) := by
  rcases name with _ | ⟨c, name⟩
  · rfl
  · rw [decimalReference, decimalReference]
    by_cases hc : c = 0x23
    · subst hc
      have hrest : 0x3b ∉ name.dropWhile isDecimal :=
        notMem_of_suffix ((List.dropWhile_suffix _).trans (List.suffix_cons _ _)) hname
      have hhash (t : PyStr) : one 0x23 (0x23 :: name ++ t) = some (name ++ t) := rfl
      simp only [hhash, Option.bind_eq_bind, Option.bind_some,
        takeWhile_append_cons (p := isDecimal) (d := 0x3b) rfl,
        dropWhile_append_cons (p := isDecimal) (d := 0x3b) rfl]
      exact terminated_append _ _ hrest s
    · rw [List.cons_append, List.cons_append, one_of_ne hc, one_of_ne hc]
      rfl

theorem hexReference_of_ne {c : ℕ} (h : c ≠ 0x23) (s : PyStr) : hexReference (c :: s) = none := by
  rw [hexReference]
  exact fun _ _ hcons => h (List.cons.inj hcons).1

theorem hexReference_append {name : PyStr} (hname : 0x3b ∉ name) (s : PyStr) :
    hexReference (name ++ 0x3b :: s) = (hexReference (name ++ [0x3b])).map (follow s) := by
  rcases name with _ | ⟨c, name⟩
  · rw [List.nil_append, List.nil_append, hexReference_of_ne (by decide),
      hexReference_of_ne (by decide)]
    rfl
  · by_cases hc : c = 0x23
    · subst hc
      rcases name with _ | ⟨x, name⟩
      · rfl
      · have hrest : 0x3b ∉ name.dropWhile isHexadecimal :=
          notMem_of_suffix ((List.dropWhile_suffix _).trans
            ((List.suffix_cons _ _).trans (List.suffix_cons _ _))) hname
        simp only [List.cons_append, hexReference,
          takeWhile_append_cons (p := isHexadecimal) (d := 0x3b) rfl,
          dropWhile_append_cons (p := isHexadecimal) (d := 0x3b) rfl]
        split_ifs
        · exact terminated_append _ _ hrest s
        · rfl
    · rw [List.cons_append, List.cons_append, hexReference_of_ne hc, hexReference_of_ne hc]
      rfl

theorem namedReference_append {name : PyStr} (hname : 0x3b ∉ name) (s : PyStr) :
    namedReference (name ++ 0x3b :: s) = (namedReference (name ++ [0x3b])).map (follow s) := by
  have hsemicolon : inReference 0x3b = false := by decide
  have hle : ((name.takeWhile inReference).take 32).length ≤ name.length :=
    ((List.take_sublist _ _).trans (List.takeWhile_sublist _)).length_le
  simp only [namedReference, takeWhile_append_cons hsemicolon,
    List.drop_append_of_le_length hle]
  exact terminated_append _ _ (notMem_of_suffix (List.drop_suffix _ _) hname) s

/-- What a reference is resolved to does not depend on what stands after its semicolon. -/
theorem charref_append {name : PyStr} (hname : 0x3b ∉ name) (prev : Option ℕ) (s : PyStr) :
    charref prev (0x26 :: (name ++ 0x3b :: s)) =
      (charref none (0x26 :: (name ++ [0x3b]))).map (follow s) := by
  have hopen (t : PyStr) : one 0x26 (0x26 :: t) = some t := rfl
  rw [charref, charref, hopen, hopen]
  simp only [Option.bind_eq_bind, Option.bind_some]
  rw [decimalReference_append hname, hexReference_append hname, namedReference_append hname,
    Option.map_or, Option.map_or]

theorem Item.raw_ref (name : PyStr) (plain : ∀ c ∈ name, c ∉ [0, 0x26, 0x3b, 0x3c, 0x3e]) :
    (Item.ref name plain).raw = 0x26 :: (name ++ [0x3b]) := rfl

theorem charref_of_ne {c : ℕ} (h : c ≠ 0x26) (prev : Option ℕ) (s : PyStr) :
    charref prev (c :: s) = none := by
  rw [charref, one_of_ne h]
  rfl

theorem scans_of_notMem_amp {x : PyStr} (hx : 0x26 ∉ x) : Scans charref x (x.map .inl) :=
  scans_of_idle fun prev u d v s hd =>
    charref_of_ne (fun h => hx (by rw [hd, ← h]; simp)) prev _

section Reference

variable {name : PyStr} (plain : ∀ c ∈ name, c ∉ [0, 0x26, 0x3b, 0x3c, 0x3e])

include plain

theorem semicolon_notMem : 0x3b ∉ name := fun h => plain _ h (by decide)

theorem amp_notMem : 0x26 ∉ name ++ [0x3b] := fun h => by
  rcases List.mem_append.1 h with h | h
  · exact plain _ h (by decide)
  · exact absurd (List.mem_singleton.1 h) (by decide)

theorem charref_ref (prev : Option ℕ) (s : PyStr) :
    charref prev (0x26 :: (name ++ [0x3b] ++ s)) =
      (charref none (0x26 :: (name ++ [0x3b]))).map (follow s) := by
  rw [List.append_assoc]
  exact charref_append (semicolon_notMem plain) prev s

theorem scans_unmatched (h : charref none (0x26 :: (name ++ [0x3b])) = none) :
    Scans charref (0x26 :: (name ++ [0x3b])) ((0x26 :: (name ++ [0x3b])).map .inl) := by
  refine scans_of_idle fun prev u d v s hd => ?_
  rcases u with _ | ⟨c, u⟩
  · obtain ⟨rfl, rfl⟩ := List.cons.inj hd
    rw [charref_ref plain, h]
    rfl
  · obtain ⟨-, hinner⟩ := List.cons.inj hd
    exact charref_of_ne (fun h => amp_notMem plain (by rw [hinner, ← h]; simp)) prev _

theorem scans_matched {b z : PyStr} (h : charref none (0x26 :: (name ++ [0x3b])) = some (b, z)) :
    Scans charref (0x26 :: (name ++ [0x3b])) (.inr b :: z.map .inl) := by
  have hsplit := (List.cons.inj (charref_eq_some h)).2
  have hz : 0x26 ∉ z := fun hz => amp_notMem plain (hsplit ▸ List.mem_append_right _ hz)
  have hfollow := charref_ref plain
  rw [h, hsplit] at hfollow
  rw [hsplit, ← List.cons_append]
  refine (scans_of_notMem_amp hz).of_match (List.cons_ne_nil _ _) fun prev s => ?_
  rw [List.cons_append, ← List.append_assoc]
  exact hfollow prev s

end Reference

/-- An item is scanned in one way, whatever stands around it. -/
theorem Item.scans (item : Item) : Scans charref item.raw (scan charref item.raw) := by
  cases item with
  | char c plain =>
      exact (scans_of_notMem_amp (fun h => plain.2.1 (List.mem_singleton.1 h).symm)).self
  | ref name plain =>
      rw [Item.raw_ref]
      cases h : charref none (0x26 :: (name ++ [0x3b])) with
      | none => exact (scans_unmatched plain h).self
      | some found => exact (scans_matched plain h).self

theorem scans_rawText (items : List Item) :
    Scans charref (rawText items) (scan charref (rawText items)) :=
  (Scans.flatMap fun item _ => item.scans).self

theorem mapM_append_option {α β : Type} (f : α → Option β) (l l' : List α) :
    (l ++ l').mapM f = (l.mapM f).bind fun a => (l'.mapM f).map (a ++ ·) := by
  rw [List.mapM_append]
  cases l.mapM f with
  | none => rfl
  | some a => cases l'.mapM f <;> rfl

theorem unescape_append {x y : PyStr} {scanned scanned' : List (ℕ ⊕ PyStr)}
    (hx : Scans charref x scanned) (hy : Scans charref y scanned') :
    unescape tables (x ++ y) =
      (unescape tables x).bind fun a => (unescape tables y).map (a ++ ·) := by
  rw [unescape, unescape, unescape, (hx.append hy).scan_eq, hx.scan_eq, hy.scan_eq,
    mapM_append_option]
  cases scanned.mapM (resolved tables) with
  | none => rfl
  | some a =>
      cases scanned'.mapM (resolved tables) with
      | none => rfl
      | some b => exact congrArg some List.flatten_append

theorem mapM_resolved_inl (x : PyStr) :
    ((x.map .inl).mapM (resolved tables)) = some (x.map fun c => [c]) := by
  induction x with
  | nil => rfl
  | cons c x ih =>
      rw [List.map_cons, List.mapM_cons, ih]
      rfl

theorem unescape_of_scans {x : PyStr} (h : Scans charref x (x.map .inl)) :
    unescape tables x = some x := by
  rw [unescape, h.scan_eq, mapM_resolved_inl]
  exact congrArg some (List.flatMap_singleton' x)

theorem unescape_of_match {x b z : PyStr} (h : Scans charref x (.inr b :: z.map .inl)) :
    unescape tables x = (replaceCharref tables b).map (· ++ z) := by
  rw [unescape, h.scan_eq, List.mapM_cons, mapM_resolved_inl, resolved, Sum.elim_inr]
  cases replaceCharref tables b with
  | none => rfl
  | some text => exact congrArg (fun z => some (text ++ z)) (List.flatMap_singleton' z)

section

variable {σ : Type} {render shown : σ → PyStr} {blocks : List σ}

theorem isSome_unescape_flatMap
    (hscans : ∀ b ∈ blocks, Scans charref (render b) (scan charref (render b))) :
    (unescape tables (blocks.flatMap render)).isSome ↔
      ∀ b ∈ blocks, (unescape tables (render b)).isSome := by
  induction blocks with
  | nil => exact iff_of_true rfl (List.forall_mem_nil _)
  | cons b blocks ih =>
      obtain ⟨hb, hblocks⟩ := List.forall_mem_cons.1 hscans
      rw [List.flatMap_cons, unescape_append hb (Scans.flatMap hblocks), List.forall_mem_cons,
        ← ih hblocks]
      cases unescape tables (render b) with
      | none => simp
      | some a => simp

theorem unescape_flatMap
    (hscans : ∀ b ∈ blocks, Scans charref (render b) (scan charref (render b)))
    (hshown : ∀ b ∈ blocks, unescape tables (render b) = some (shown b)) :
    unescape tables (blocks.flatMap render) = some (blocks.flatMap shown) := by
  induction blocks with
  | nil => rfl
  | cons b blocks ih =>
      obtain ⟨hb, hblocks⟩ := List.forall_mem_cons.1 hscans
      obtain ⟨hshow, hshows⟩ := List.forall_mem_cons.1 hshown
      rw [List.flatMap_cons, unescape_append hb (Scans.flatMap hblocks), hshow,
        ih hblocks hshows]
      rfl

end

theorem rdropWhile_mark {run mark : PyStr} (hrun : ∀ c ∈ run, isDecimal c)
    (hmark : mark = [] ∨ mark = [0x3b]) : (run ++ mark).rdropWhile (· = 0x3b) = run := by
  have hlast : run.rdropWhile (· = 0x3b) = run := by
    rw [List.rdropWhile_eq_self_iff]
    intro hne h
    have hdecimal := hrun _ (List.getLast_mem hne)
    rw [of_decide_eq_true h] at hdecimal
    exact absurd hdecimal (by decide)
  rcases hmark with rfl | rfl
  · rw [List.append_nil, hlast]
  · rw [List.rdropWhile_concat_pos _ _ _ (by decide), hlast]

theorem isSome_replaceCharref_decimal {run mark : PyStr} (hrun : ∀ c ∈ run, isDecimal c)
    (hne : run ≠ []) (hmark : mark = [] ∨ mark = [0x3b]) :
    (replaceCharref tables (0x23 :: (run ++ mark))).isSome ↔ run.length ≤ maxStrDigits := by
  obtain ⟨x, digits, rfl⟩ := List.exists_cons_of_ne_nil hne
  have hx : ¬ (x = 0x78 ∨ x = 0x58) := by
    rintro (rfl | rfl)
    · exact absurd (hrun _ List.mem_cons_self) (by decide)
    · exact absurd (hrun _ List.mem_cons_self) (by decide)
  rw [replaceCharref, rdropWhile_mark hrun hmark]
  simp only [if_neg hx]
  split_ifs with hlong
  · exact iff_of_false Bool.false_ne_true (not_le.2 hlong)
  · exact iff_of_true rfl (not_lt.1 hlong)

theorem isSome_replaceCharref_hex {x : ℕ} (hx : x = 0x78 ∨ x = 0x58) (run : PyStr) :
    (replaceCharref tables (0x23 :: x :: run)).isSome := by
  have hne : x ≠ 0x3b := by omega
  have hnumber : ∃ digits, (x :: run).rdropWhile (· = 0x3b) = x :: digits := by
    induction run using List.reverseRecOn with
    | nil => exact ⟨[], List.rdropWhile_concat_neg _ [] _ (by simpa using hne)⟩
    | append_singleton run c ih =>
        rw [← List.cons_append]
        by_cases hc : c = 0x3b
        · rw [List.rdropWhile_concat_pos _ _ _ (by simpa using hc)]
          exact ih
        · exact ⟨run ++ [c], List.rdropWhile_concat_neg _ _ _ (by simpa using hc)⟩
  obtain ⟨digits, hdigits⟩ := hnumber
  rw [replaceCharref, hdigits]
  simp only [if_pos hx]
  rfl

theorem isSome_replaceCharref_named {b : PyStr} (h : b.head? ≠ some 0x23) :
    (replaceCharref tables b).isSome := by
  rw [replaceCharref]
  · cases tables.html5 b <;> rfl
  · rintro s rfl
    exact h rfl

theorem overlong_ref {name : PyStr} (plain : ∀ c ∈ name, c ∉ [0, 0x26, 0x3b, 0x3c, 0x3e]) :
    (Item.ref name plain).overlong ↔ (name ++ [0x3b]).head? = some 0x23 ∧
      maxStrDigits < ((name ++ [0x3b]).tail.takeWhile isDecimal).length := by
  rcases name with _ | ⟨c, name⟩
  · simp [Item.overlong]
  · rw [Item.overlong, Bool.and_eq_true, decide_eq_true_eq, decide_eq_true_eq, List.cons_append,
      List.tail_cons, List.tail_cons, takeWhile_append_cons (p := isDecimal) (d := 0x3b) rfl]
    rfl

/-- A reference is resolved unless its number is too long. -/
theorem isSome_unescape_raw (item : Item) :
    (unescape tables item.raw).isSome ↔ ¬ item.overlong := by
  cases item with
  | char c plain =>
      have hamp : 0x26 ∉ [c] := fun h => plain.2.1 (List.mem_singleton.1 h).symm
      rw [Item.raw, unescape_of_scans (scans_of_notMem_amp hamp)]
      exact iff_of_true rfl Bool.false_ne_true
  | ref name plain =>
      rw [Item.raw_ref, overlong_ref plain]
      have hdecimal : decimalReference (name ++ [0x3b]) = none →
          ¬ ((name ++ [0x3b]).head? = some 0x23 ∧
            maxStrDigits < ((name ++ [0x3b]).tail.takeWhile isDecimal).length) := by
        rintro hnone ⟨hhead, hlong⟩
        obtain ⟨t, ht⟩ := List.head?_eq_some_iff.1 hhead
        rw [ht] at hnone hlong
        have hrun : t.takeWhile isDecimal ≠ [] := by
          intro hnil
          rw [List.tail_cons, hnil] at hlong
          exact absurd hlong (Nat.not_lt_zero _)
        have hsome := isSome_terminated [0x23] hrun (t.dropWhile isDecimal)
        change terminated _ _ _ = none at hnone
        rw [hnone] at hsome
        cases hsome
      cases h : charref none (0x26 :: (name ++ [0x3b])) with
      | none =>
          rw [unescape_of_scans (scans_unmatched plain h)]
          exact iff_of_true rfl (hdecimal (Option.or_eq_none_iff.1 h).1)
      | some found =>
          obtain ⟨b, z⟩ := found
          rw [unescape_of_match (scans_matched plain h), Option.isSome_map]
          rcases Option.or_eq_some_iff.1 h with h | ⟨hnone, h⟩
          · obtain ⟨hsplit, run, mark, rfl, hrun, hne, hmark⟩ := decimalReference_eq_some h
            have hdigits : ∀ c ∈ run, isDecimal c := fun c hc =>
              List.mem_takeWhile_imp (hrun ▸ hc)
            rw [isSome_replaceCharref_decimal hdigits hne hmark, ← hrun, hsplit]
            simp
          · refine iff_of_true ?_ (hdecimal hnone)
            rcases Option.or_eq_some_iff.1 h with h | ⟨-, h⟩
            · obtain ⟨-, x, run, rfl, hx⟩ := hexReference_eq_some h
              exact isSome_replaceCharref_hex hx run
            · exact isSome_replaceCharref_named (namedReference_eq_some h).2

theorem zero_notMem_numericText (n : ℕ) : 0 ∉ numericText n := by
  rw [numericText]
  cases h : invalidCharrefs.lookup n with
  | some c =>
      obtain ⟨front, back, heq, -⟩ := List.lookup_eq_some_iff.1 h
      have hmem : c ∈ invalidCharrefs.map Prod.snd :=
        List.mem_map.2 ⟨(n, c), heq ▸ by simp, rfl⟩
      have hvalues : 0 ∉ invalidCharrefs.map Prod.snd := by decide
      exact fun hzero => hvalues (List.mem_singleton.1 hzero ▸ hmem)
  | none =>
      have hn : n ≠ 0 := by
        rintro rfl
        cases h
      simp only
      split_ifs
      · decide
      · exact List.not_mem_nil
      · exact fun hzero => hn (List.mem_singleton.1 hzero).symm

theorem zero_notMem_replaceCharref {b text : PyStr} (hb : 0 ∉ b)
    (h : replaceCharref tables b = some text) : 0 ∉ text := by
  rw [replaceCharref.eq_def] at h
  split at h
  · dsimp only at h
    split at h
    · cases h
    · split_ifs at h
      · rw [← Option.some.inj h]
        exact zero_notMem_numericText _
      · rw [← Option.some.inj h]
        exact zero_notMem_numericText _
  · split at h
    · rename_i text' hhtml
      rw [← Option.some.inj h]
      exact tables.html5_noNul _ _ hhtml
    · rename_i s _ hhtml
      have hamp : 0 ∉ 0x26 :: b := fun hzero => by
        rcases List.mem_cons.1 hzero with hzero | hzero
        · omega
        · exact hb hzero
      rw [← Option.some.inj h]
      cases hfound : (List.range' 2 (b.length - 2)).reverse.findSome? fun x =>
          (tables.html5 (b.take x)).map (· ++ b.drop x) with
      | none => exact hamp
      | some found =>
          obtain ⟨x, -, hx⟩ := List.exists_of_findSome?_eq_some hfound
          obtain ⟨front, hfront, rfl⟩ := Option.map_eq_some_iff.1 hx
          intro hzero
          rcases List.mem_append.1 hzero with hzero | hzero
          · exact tables.html5_noNul _ _ hfront hzero
          · exact hb (List.mem_of_mem_drop hzero)

theorem exists_of_mem_mapM {α : Type} {f : α → Option PyStr} {l : List α} {texts : List PyStr}
    (h : l.mapM f = some texts) {c : ℕ} (hc : c ∈ texts.flatten) :
    ∃ a ∈ l, ∃ text, f a = some text ∧ c ∈ text := by
  induction l generalizing texts with
  | nil =>
      cases h
      exact absurd hc List.not_mem_nil
  | cons a l ih =>
      rw [List.mapM_cons] at h
      obtain ⟨text, htext, hrest⟩ := Option.bind_eq_some_iff.1 h
      obtain ⟨texts', htexts, heq⟩ := Option.bind_eq_some_iff.1 hrest
      cases heq
      rcases List.mem_append.1 hc with hc | hc
      · exact ⟨a, List.mem_cons_self, text, htext, hc⟩
      · obtain ⟨a', ha', text', htext', hc'⟩ := ih htexts hc
        exact ⟨a', List.mem_cons_of_mem _ ha', text', htext', hc'⟩

theorem zero_notMem_unescape {text : PyStr} (h : unescape tables s = some text) (hs : 0 ∉ s) :
    0 ∉ text := by
  obtain ⟨texts, htexts, heq⟩ := Option.bind_eq_some_iff.1 h
  cases heq
  have hsublist : (write id (scan charref s)).Sublist s :=
    write_sublist (fun prev t b rest hmatch =>
      ⟨0x26 :: b, List.cons_ne_nil _ _, charref_eq_some hmatch, List.sublist_cons_self _ _⟩) none s
  have hpart {part : ℕ ⊕ PyStr} (hpart : part ∈ scan charref s) :
      0 ∉ part.elim (fun c => [c]) id := fun hzero =>
    hs (hsublist.subset (List.mem_flatMap.2 ⟨part, hpart, hzero⟩))
  intro hzero
  obtain ⟨part, hmem, text, htext, hc⟩ := exists_of_mem_mapM htexts hzero
  rcases part with c | b
  · cases htext
    exact hpart hmem hc
  · exact zero_notMem_replaceCharref (hpart hmem) htext hc

theorem zero_notMem_written (tables : Tables) (items : List Item) : 0 ∉ written tables items := by
  have hraw : 0 ∉ rawText items := fun h => (mem_rawText h).2 rfl
  rw [written]
  cases h : unescape tables (rawText items) with
  | none => exact hraw
  | some text => exact zero_notMem_unescape h hraw

/-- The segments of a document with the numbers of their placeholders. -/
def Content.parts (c : Content) : List Segment := numbered 0 (c.segments true)

theorem zero_notMem_raw (segment : Segment) : 0 ∉ segment.raw := by
  rcases segment with ⟨outside, items⟩ | ⟨outside, n, cdata⟩ | items
  · exact fun h => (mem_rawText h).2 rfl
  · have hstart : 0 ∉ pyStr "<![CDATA[" := by decide
    have hend : 0 ∉ pyStr "]]>" := by decide
    simp only [Segment.raw, Cdata.raw, List.mem_append, not_or]
    exact ⟨hstart, cdata.noNul, hend⟩
  · intro h
    simp only [Segment.raw, tagText, List.mem_cons, List.mem_append, List.not_mem_nil,
      or_false] at h
    rcases h with h | h | h
    · omega
    · exact (mem_rawText h).2 rfl
    · omega

section

variable {c : Content} (htags : ∀ tag ∈ c.tags, tag.length ≤ 4096)

include htags

theorem scan_cdata_source : scan cdata (c.source.filter (· ≠ 0)) =
    (c.segments true).flatMap cdataParts := by
  have hsource : c.source = (c.segments true).flatMap Segment.raw :=
    (c.flatMap_segments Segment.raw (fun _ _ => rfl) (fun _ => rfl) (fun _ _ => rfl) true).symm
  have hnul : c.source.filter (· ≠ 0) = c.source := by
    rw [List.filter_eq_self]
    intro d hd
    rw [hsource] at hd
    obtain ⟨segment, -, hd⟩ := List.mem_flatMap.1 hd
    exact decide_eq_true fun hzero => zero_notMem_raw segment (hzero ▸ hd)
  rw [hnul, hsource]
  exact (Scans.flatMap fun segment h => scans_cdata (Content.valid_of_mem_segments htags h)).scan_eq

theorem valid_of_mem_parts : ∀ segment ∈ c.parts, segment.Valid :=
  valid_of_mem_numbered fun _ h => Content.valid_of_mem_segments htags h

theorem withPlaceholders_source : withPlaceholders c.source = c.parts.flatMap Segment.held := by
  rw [withPlaceholders, scan_cdata_source htags, flat_number_cdataParts, Content.parts]

theorem getElem?_bodies_source {outside : Bool} {n : ℕ} {code : Cdata}
    (h : .code outside n code ∈ c.parts) : (bodies c.source)[n]? = some code.body := by
  refine getElem?_bodies ?_ outside n code h
  rw [bodies, scan_cdata_source htags, List.drop_zero]

end

/-- The segments of a document and, between them, the stretches that are dropped. -/
def stretchesOf (tables : Tables) (c : Content) : List (Segment ⊕ List Segment) :=
  stretches tables c.parts

/-- What is left of the segments: blanks for what is dropped and for the tags. -/
def leftOf (tables : Tables) (scanned : List (Segment ⊕ List Segment)) : List Segment :=
  (write (fun _ => [blankSegment]) scanned).map (onTags (blankOf tables))

def remaining (scanned : List (Segment ⊕ List Segment)) : List Segment :=
  scanned.filterMap Sum.getLeft?

def Resolvable (tables : Tables) (c : Content) : Prop :=
  ∀ segment ∈ remaining (stretchesOf tables c), ∀ item ∈ segment.items, ¬ item.overlong

theorem mem_write_blank {scanned : List (Segment ⊕ List Segment)} {segment : Segment}
    (h : segment ∈ write (fun _ => [blankSegment]) scanned) :
    segment = blankSegment ∨ segment ∈ remaining scanned := by
  obtain ⟨part, hpart, hsegment⟩ := List.mem_flatMap.1 h
  rcases part with segment' | stretch
  · obtain rfl := List.mem_singleton.1 hsegment
    exact Or.inr (List.mem_filterMap.2 ⟨_, hpart, rfl⟩)
  · exact Or.inl (List.mem_singleton.1 hsegment)

theorem mem_write_of_mem_remaining {scanned : List (Segment ⊕ List Segment)} {segment : Segment}
    (h : segment ∈ remaining scanned) : segment ∈ write (fun _ => [blankSegment]) scanned := by
  obtain ⟨part, hpart, hleft⟩ := List.mem_filterMap.1 h
  rcases part with segment' | stretch
  · cases hleft
    exact List.mem_flatMap.2 ⟨_, hpart, List.mem_singleton_self _⟩
  · cases hleft

theorem write_stretches (tables : Tables) (segments : List Segment) :
    write id (stretches tables segments) = segments :=
  write_id (fun prev s b rest h => by
    obtain ⟨hsplit, items, more, rfl⟩ := split_of_droppedStretch h
    exact ⟨List.cons_ne_nil _ _, hsplit⟩) none segments

theorem mem_parts_of_mem_remaining {c : Content} {segment : Segment}
    (h : segment ∈ remaining (stretchesOf tables c)) : segment ∈ c.parts := by
  obtain ⟨part, hpart, hleft⟩ := List.mem_filterMap.1 h
  rcases part with segment' | stretch
  · cases hleft
    rw [← write_stretches tables c.parts]
    exact List.mem_flatMap.2 ⟨_, hpart, List.mem_singleton_self _⟩
  · cases hleft

def resolvedText (tables : Tables) : Segment → PyStr
  | .text _ items => written tables items
  | .code _ n _ => placeholder n
  | .tag _ => []

/-- Whether a segment is character data with a reference that cannot be resolved. -/
theorem isSome_unescape_held {segment : Segment} (htag : ∀ items, segment ≠ .tag items) :
    (unescape tables segment.held).isSome ↔ ∀ item ∈ segment.items, ¬ item.overlong := by
  rcases segment with ⟨outside, items⟩ | ⟨outside, n, code⟩ | items
  · exact (isSome_unescape_flatMap fun item _ => item.scans).trans
      (forall₂_congr fun item _ => isSome_unescape_raw item)
  · have hamp : 0x26 ∉ placeholder n := notMem_placeholder (by decide) n
    rw [Segment.held, unescape_of_scans (scans_of_notMem_amp hamp)]
    exact iff_of_true rfl (List.forall_mem_nil _)
  · exact absurd rfl (htag items)

theorem scans_held {segment : Segment} (htag : ∀ items, segment ≠ .tag items) :
    Scans charref segment.held (scan charref segment.held) := by
  rcases segment with ⟨outside, items⟩ | ⟨outside, n, code⟩ | items
  · exact scans_rawText items
  · exact (scans_of_notMem_amp (notMem_placeholder (by decide) n)).self
  · exact absurd rfl (htag items)

theorem unescape_held {segment : Segment} (htag : ∀ items, segment ≠ .tag items)
    (h : (unescape tables segment.held).isSome) :
    unescape tables segment.held = some (resolvedText tables segment) := by
  rcases segment with ⟨outside, items⟩ | ⟨outside, n, code⟩ | items
  · obtain ⟨text, htext⟩ := Option.isSome_iff_exists.1 h
    have hwritten : written tables items = text := by
      rw [written]
      change unescape tables (rawText items) = _ at htext
      rw [htext]
      rfl
    rw [htext, resolvedText, hwritten]
  · exact unescape_of_scans (scans_of_notMem_amp (notMem_placeholder (by decide) n))
  · exact absurd rfl (htag items)

theorem ne_tag_of_mem_leftOf {scanned : List (Segment ⊕ List Segment)} {segment : Segment}
    (h : segment ∈ leftOf tables scanned) (items : List Item) : segment ≠ .tag items := by
  obtain ⟨segment, -, rfl⟩ := List.mem_map.1 h
  cases segment with
  | tag items' =>
      rw [onTags, blankOf]
      split_ifs <;> exact Segment.noConfusion
  | _ => exact Segment.noConfusion

theorem items_of_mem_leftOf {scanned : List (Segment ⊕ List Segment)} :
    (∀ segment ∈ leftOf tables scanned, ∀ item ∈ segment.items, ¬ item.overlong) ↔
      ∀ segment ∈ remaining scanned, ∀ item ∈ segment.items, ¬ item.overlong := by
  have hblank : ∀ segment, segment = blankSegment ∨ segment = newlineSegment →
      ∀ item ∈ segment.items, ¬ item.overlong := by
    rintro segment (rfl | rfl) item hitem
    · obtain rfl := List.mem_singleton.1 hitem
      exact Bool.false_ne_true
    · obtain rfl := List.mem_singleton.1 hitem
      exact Bool.false_ne_true
  constructor
  · intro h segment hsegment
    cases segment with
    | tag items => exact List.forall_mem_nil _
    | _ => exact h _ (List.mem_map.2 ⟨_, mem_write_of_mem_remaining hsegment, rfl⟩)
  · intro h segment hsegment
    obtain ⟨segment, hwrite, rfl⟩ := List.mem_map.1 hsegment
    rcases mem_write_blank hwrite with rfl | hremaining
    · exact hblank _ (Or.inl rfl)
    · cases segment with
      | tag items =>
          refine hblank _ ?_
          rw [onTags, blankOf]
          split_ifs
          · exact Or.inr rfl
          · exact Or.inl rfl
      | _ => exact h _ hremaining

def tokensOf (tables : Tables) : Segment → List (ℕ ⊕ ℕ)
  | .text _ items => (written tables items).map .inl
  | .code _ n _ => [.inr n]
  | .tag _ => []

theorem flat_tokensOf (segments : List Segment) :
    flat placeholder (segments.flatMap (tokensOf tables)) =
      segments.flatMap (resolvedText tables) := by
  induction segments with
  | nil => rfl
  | cons segment segments ih =>
      rw [List.flatMap_cons, List.flatMap_cons, flat_append, ih]
      rcases segment with ⟨outside, items⟩ | ⟨outside, n, code⟩ | items
      · rw [tokensOf, flat_map_inl, resolvedText]
      · rw [tokensOf, flat_inr, flat_nil, List.append_nil, resolvedText]
      · rfl

theorem noNul_tokensOf (segments : List Segment) : NoNul (segments.flatMap (tokensOf tables)) := by
  intro h
  obtain ⟨segment, -, hmem⟩ := List.mem_flatMap.1 h
  rcases segment with ⟨outside, items⟩ | ⟨outside, n, code⟩ | items
  · obtain ⟨d, hd, heq⟩ := List.mem_map.1 hmem
    cases heq
    exact zero_notMem_written tables items hd
  · exact absurd (List.mem_singleton.1 hmem) Sum.inl_ne_inr
  · exact absurd hmem List.not_mem_nil

/-- The bodies are put back where their placeholders are. -/
theorem sub_held {bodies : List PyStr} {segments : List Segment}
    (hbodies : ∀ outside n code, .code outside n code ∈ segments → bodies[n]? = some code.body) :
    sub (held tables.digits) (fun n => bodies[n]?.getD [])
      (segments.flatMap (resolvedText tables)) = segments.flatMap (Segment.shown tables) := by
  rw [← flat_tokensOf, sub, scan, scanFrom_held tables.digits (noNul_tokensOf segments), write,
    List.flatMap_assoc]
  refine List.flatMap_congr fun segment hsegment => ?_
  rcases segment with ⟨outside, items⟩ | ⟨outside, n, code⟩ | items
  · have hflat : flat (fun n : ℕ => bodies[n]?.getD []) ((written tables items).map .inl) =
        written tables items := flat_map_inl _
    exact hflat
  · have hbody := hbodies outside n code hsegment
    simp [tokensOf, hbody, Segment.shown]
  · rfl

theorem withoutTags_source {c : Content} (htags : ∀ tag ∈ c.tags, tag.length ≤ 4096) :
    withoutTags tables c.source =
      (leftOf tables (stretchesOf tables c)).flatMap Segment.held := by
  have hvalid := valid_of_mem_parts htags
  have hleft : ∀ segment ∈ write (fun _ => [blankSegment]) (stretches tables c.parts),
      segment.Valid := by
    intro segment hsegment
    rcases mem_write_blank hsegment with rfl | hremaining
    · trivial
    · exact hvalid segment (mem_parts_of_mem_remaining hremaining)
  rw [withoutTags, withPlaceholders_source htags]
  simp only [sub_droppedElements hvalid, sub_tag_breaks hleft]
  rfl

theorem storageToText_eq (tables : Tables) (storage : PyStr) :
    storageToText tables storage = (unescape tables (withoutTags tables storage)).map fun text =>
      tidy (sub (held tables.digits) (fun n => (bodies storage)[n]?.getD []) text) := by
  rw [storageToText]
  split_ifs with hempty
  · subst hempty
    rfl
  · cases unescape tables (withoutTags tables storage) <;> rfl

theorem isSome_storageToText {c : Content} (htags : ∀ tag ∈ c.tags, tag.length ≤ 4096) :
    (storageToText tables c.source).isSome ↔ Resolvable tables c := by
  rw [storageToText_eq, Option.isSome_map, withoutTags_source htags,
    isSome_unescape_flatMap fun segment h => scans_held (ne_tag_of_mem_leftOf h)]
  have hheld : (∀ segment ∈ leftOf tables (stretchesOf tables c),
      (unescape tables segment.held).isSome) ↔
        ∀ segment ∈ leftOf tables (stretchesOf tables c), ∀ item ∈ segment.items,
          ¬ item.overlong :=
    forall₂_congr fun segment h => isSome_unescape_held (ne_tag_of_mem_leftOf h)
  exact hheld.trans items_of_mem_leftOf

/-- The result is what the segments that are left show. -/
theorem storageToText_source {c : Content} (htags : ∀ tag ∈ c.tags, tag.length ≤ 4096)
    (hresolvable : Resolvable tables c) :
    storageToText tables c.source =
      some (tidy ((leftOf tables (stretchesOf tables c)).flatMap (Segment.shown tables))) := by
  have hunescape : unescape tables (withoutTags tables c.source) =
      some ((leftOf tables (stretchesOf tables c)).flatMap (resolvedText tables)) := by
    rw [withoutTags_source htags]
    refine unescape_flatMap (fun segment h => scans_held (ne_tag_of_mem_leftOf h))
      fun segment h => unescape_held (ne_tag_of_mem_leftOf h) ?_
    exact (isSome_unescape_held (ne_tag_of_mem_leftOf h)).2
      (items_of_mem_leftOf.2 hresolvable segment h)
  have hbodies : ∀ outside n code, .code outside n code ∈ leftOf tables (stretchesOf tables c) →
      (bodies c.source)[n]? = some code.body := by
    intro outside n code h
    obtain ⟨segment, hwrite, heq⟩ := List.mem_map.1 h
    cases segment with
    | text outside' items => cases heq
    | code outside' n' code' =>
        cases heq
        rcases mem_write_blank hwrite with hblank | hremaining
        · cases hblank
        · exact getElem?_bodies_source htags (mem_parts_of_mem_remaining hremaining)
    | tag items =>
        rw [onTags, blankOf] at heq
        split_ifs at heq <;> cases heq
  rw [storageToText_eq, hunescape, Option.map_some, sub_held hbodies]

/-- No stretch that is dropped has anything in it that a reader sees. -/
def Unswallowed (tables : Tables) (c : Content) : Prop :=
  ∀ stretch ∈ captures (stretchesOf tables c), ∀ segment ∈ stretch, segment.isRead →
    blank (segment.shown tables)

/-- What a reader sees is in the result, in its order and up to blanks. -/
def KeepsText (tables : Tables) (c : Content) : Prop :=
  ∃ text, storageToText tables c.source = some text ∧
    InOrder ((c.texts tables true).map squeezed) (squeezed text)

/-- Everything of the document that is no tag, metadata included. -/
def Content.allText (tables : Tables) (c : Content) : PyStr :=
  c.parts.flatMap (Segment.shown tables)

/-- Each text has a character that stands nowhere else. -/
def TextsTell (tables : Tables) (c : Content) : Prop :=
  ∀ text ∈ c.texts tables true, ¬ blank text →
    ∃ d ∈ text, ¬ spaceCode d ∧ (c.allText tables).count d = 1

theorem texts_parts (tables : Tables) (c : Content) :
    c.texts tables true = readTexts tables c.parts := by
  rw [Content.texts_eq, Content.parts, readTexts_numbered]

theorem squeezed_append (u v : PyStr) :
    ∃ gap, squeezed (u ++ v) = squeezed u ++ gap ++ squeezed v :=
  exists_squeeze_append spaceCode 0x20 u v

theorem inOrder_prepend_text {ps : List PyStr} {v : PyStr} (h : InOrder ps (squeezed v))
    (u : PyStr) : InOrder ps (squeezed (u ++ v)) := by
  obtain ⟨gap, hgap⟩ := squeezed_append u v
  rw [hgap]
  exact h.prepend _

theorem inOrder_blanks {ps qs : List PyStr} {v : PyStr} (hqs : ∀ q ∈ qs, q = [])
    (h : InOrder ps v) : InOrder (qs ++ ps) v := by
  induction qs with
  | nil => exact h
  | cons q qs ih =>
      obtain ⟨rfl, hrest⟩ := List.forall_mem_cons.1 hqs
      exact InOrder.cons [] [] (ih hrest)

theorem inOrder_left {scanned : List (Segment ⊕ List Segment)}
    (h : ∀ stretch ∈ captures scanned, ∀ segment ∈ stretch, segment.isRead →
      blank (segment.shown tables)) :
    InOrder ((readTexts tables (write id scanned)).map squeezed)
      (squeezed ((leftOf tables scanned).flatMap (Segment.shown tables))) := by
  induction scanned with
  | nil => exact .nil _
  | cons part scanned ih =>
      rcases part with segment | stretch
      · have hrest := ih h
        change InOrder ((readTexts tables (segment :: write id scanned)).map squeezed)
          (squeezed ((onTags (blankOf tables) segment).shown tables ++
            (leftOf tables scanned).flatMap (Segment.shown tables)))
        rw [readTexts_cons]
        split_ifs with hread
        · have hshown : (onTags (blankOf tables) segment).shown tables = segment.shown tables := by
            cases segment with
            | tag items => cases hread
            | _ => rfl
          obtain ⟨gap, hgap⟩ := squeezed_append (segment.shown tables)
            ((leftOf tables scanned).flatMap (Segment.shown tables))
          rw [hshown, hgap, List.append_assoc]
          exact InOrder.cons [] _ (hrest.prepend gap)
        · exact inOrder_prepend_text hrest _
      · obtain ⟨hstretch, hmore⟩ := List.forall_mem_cons.1 h
        change InOrder ((readTexts tables (stretch ++ write id scanned)).map squeezed)
          (squeezed (blankSegment.shown tables ++
            (leftOf tables scanned).flatMap (Segment.shown tables)))
        rw [readTexts_append, List.map_append]
        refine inOrder_blanks (fun q hq => ?_) (inOrder_prepend_text (ih hmore) _)
        obtain ⟨text, htext, rfl⟩ := List.mem_map.1 hq
        obtain ⟨segment, hsegment, rfl⟩ := List.mem_map.1 htext
        obtain ⟨hmem, hread⟩ := List.mem_filter.1 hsegment
        exact squeezed_eq_nil_of_blank (hstretch segment hmem hread)

theorem keepsText_of_unswallowed {c : Content} (htags : ∀ tag ∈ c.tags, tag.length ≤ 4096)
    (hunswallowed : Unswallowed tables c) (hresolvable : Resolvable tables c) :
    KeepsText tables c := by
  refine ⟨_, storageToText_source htags hresolvable, ?_⟩
  have hparts : write id (stretchesOf tables c) = c.parts := write_stretches tables c.parts
  rw [texts_parts, squeezed_tidy, ← hparts]
  exact inOrder_left hunswallowed

theorem shown_blanks (tables : Tables) (segment : Segment) {d : ℕ} (hd : ¬ spaceCode d)
    (hsegment : segment = blankSegment ∨ segment = newlineSegment) :
    (segment.shown tables).count d = 0 := by
  have hone (b : ℕ) (hb : spaceCode b) (hamp : 0x26 ≠ b) (plain : b ≠ 0x3c ∧ b ≠ 0x26 ∧ b ≠ 0) :
      (written tables [.char b plain]).count d = 0 := by
    have hraw : rawText [.char b plain] = [b] := rfl
    have hnot : 0x26 ∉ [b] := fun h => hamp (List.mem_singleton.1 h)
    rw [written, hraw, unescape_of_scans (scans_of_notMem_amp hnot), List.count_eq_zero]
    exact fun h => hd (List.mem_singleton.1 h ▸ hb)
  rcases hsegment with rfl | rfl
  · exact hone 0x20 (by decide) (by decide) _
  · exact hone 0xa (by decide) (by decide) _

/-- A character that is no blank comes from what is left or from what is dropped. -/
theorem count_shown (tables : Tables) {d : ℕ} (hd : ¬ spaceCode d)
    (scanned : List (Segment ⊕ List Segment)) :
    ((write id scanned).flatMap (Segment.shown tables)).count d =
      ((leftOf tables scanned).flatMap (Segment.shown tables)).count d +
        ((captures scanned).flatten.flatMap (Segment.shown tables)).count d := by
  induction scanned with
  | nil => rfl
  | cons part scanned ih =>
      rcases part with segment | stretch
      · change ((segment.shown tables ++
            (write id scanned).flatMap (Segment.shown tables))).count d =
          (((onTags (blankOf tables) segment).shown tables ++
            (leftOf tables scanned).flatMap (Segment.shown tables))).count d +
              ((captures scanned).flatten.flatMap (Segment.shown tables)).count d
        have hsegment : ((onTags (blankOf tables) segment).shown tables).count d =
            (segment.shown tables).count d := by
          cases segment with
          | tag items =>
              refine shown_blanks tables _ hd ?_
              rw [onTags, blankOf]
              split_ifs
              · exact Or.inr rfl
              · exact Or.inl rfl
          | _ => rfl
        rw [List.count_append, List.count_append, hsegment, ih, Nat.add_assoc]
      · change ((stretch ++ write id scanned).flatMap (Segment.shown tables)).count d =
          ((blankSegment.shown tables ++
            (leftOf tables scanned).flatMap (Segment.shown tables))).count d +
              ((stretch ++ (captures scanned).flatten).flatMap (Segment.shown tables)).count d
        rw [List.flatMap_append, List.flatMap_append, List.count_append, List.count_append,
          List.count_append, shown_blanks tables _ hd (Or.inl rfl), ih]
        omega

theorem unswallowed_of_keepsText {c : Content} (htags : ∀ tag ∈ c.tags, tag.length ≤ 4096)
    (htell : TextsTell tables c) (h : KeepsText tables c) :
    Unswallowed tables c ∧ Resolvable tables c := by
  obtain ⟨text, htext, horder⟩ := h
  have hresolvable : Resolvable tables c :=
    (isSome_storageToText htags).1 (Option.isSome_iff_exists.2 ⟨text, htext⟩)
  refine ⟨?_, hresolvable⟩
  rw [storageToText_source htags hresolvable] at htext
  intro stretch hstretch segment hsegment hread
  by_contra hblank
  have hparts : write id (stretchesOf tables c) = c.parts := write_stretches tables c.parts
  have hdropped : segment ∈ (captures (stretchesOf tables c)).flatten :=
    List.mem_flatten.2 ⟨stretch, hstretch, hsegment⟩
  have hpart : segment ∈ c.parts := by
    obtain ⟨part, hpart, hcapture⟩ := List.mem_filterMap.1 hstretch
    rcases part with other | taken
    · cases hcapture
    · cases hcapture
      rw [← hparts]
      exact List.mem_flatMap.2 ⟨_, hpart, hsegment⟩
  have hmem : segment.shown tables ∈ c.texts tables true := by
    rw [texts_parts]
    exact List.mem_map.2 ⟨segment, List.mem_filter.2 ⟨hpart, hread⟩, rfl⟩
  obtain ⟨d, hd, hspace, hcount⟩ := htell _ hmem hblank
  -- it is in the result, so it stands in a segment that is left as well
  have hleft : d ∈ (leftOf tables (stretchesOf tables c)).flatMap (Segment.shown tables) := by
    have hinfix := horder.infix_of_mem (List.mem_map.2 ⟨_, hmem, rfl⟩)
    have hresult := hinfix.subset ((mem_squeezed hspace).2 hd)
    rwa [mem_squeezed hspace, ← Option.some.inj htext, mem_tidy hspace] at hresult
  have hlost : d ∈ (captures (stretchesOf tables c)).flatten.flatMap (Segment.shown tables) :=
    List.mem_flatMap.2 ⟨segment, hdropped, hd⟩
  have htotal := count_shown tables hspace (stretchesOf tables c)
  rw [hparts, ← Content.allText, hcount] at htotal
  have hone := List.count_pos_iff.2 hleft
  have htwo := List.count_pos_iff.2 hlost
  omega

/-- The text of a document is kept where no dropped stretch has any of it and every reference
that is left can be resolved, and, up to a text that stands in the document once more, only
there: the result is what the segments outside of the dropped stretches show. -/
theorem text_kept_iff (tables : Tables) (c : Content) (htags : ∀ tag ∈ c.tags, tag.length ≤ 4096) :
    (Unswallowed tables c ∧ Resolvable tables c → KeepsText tables c) ∧
      (TextsTell tables c →
        (KeepsText tables c ↔ Unswallowed tables c ∧ Resolvable tables c)) ∧
      (Resolvable tables c → storageToText tables c.source =
        some (tidy ((leftOf tables (stretchesOf tables c)).flatMap (Segment.shown tables)))) :=
  ⟨fun h => keepsText_of_unswallowed htags h.1 h.2,
    fun htell => ⟨unswallowed_of_keepsText htags htell,
      fun h => keepsText_of_unswallowed htags h.1 h.2⟩,
    storageToText_source htags⟩

def asciiTables : Tables where
  isWord c := isAsciiAlpha c || (0x30 ≤ c && c ≤ 0x39) || c = 0x5f
  isWord_ascii _ _ := rfl
  digits := asciiDigits
  html5 name := if name = pyStr "amp;" then some [0x26] else none
  html5_noNul name text h := by
    split_ifs at h
    cases h
    decide

def pageLink : Name := ⟨pyStr "ri:page", by decide, by decide⟩

def paragraph : Name := ⟨pyStr "p", by decide, by decide⟩

def noAttributes : Attributes := ⟨[], rfl⟩

def noBlanks : Blanks := ⟨[], List.forall_mem_nil _⟩

def twoLinks : Content :=
  .empty pageLink noAttributes (.text (itemsOf (pyStr "hunter2") (by decide))
    (.element pageLink noAttributes .nil noBlanks .nil))

/-- The tag of the first link is paired with the end tag of the second. -/
theorem text_between_links_lost :
    twoLinks.source = pyStr "<ri:page/>hunter2<ri:page></ri:page>" ∧
      (∀ tag ∈ twoLinks.tags, tag.length ≤ 4096) ∧
      twoLinks.texts asciiTables true = [pyStr "hunter2"] ∧
      storageToText asciiTables twoLinks.source = some [] ∧ ¬ KeepsText asciiTables twoLinks := by
  have htexts : twoLinks.texts asciiTables true = [pyStr "hunter2"] := by decide
  have hresult : storageToText asciiTables twoLinks.source = some [] := by decide
  refine ⟨by decide, by decide, htexts, hresult, ?_⟩
  rintro ⟨text, htext, horder⟩
  rw [hresult] at htext
  rw [htexts, ← Option.some.inj htext] at horder
  have hinfix := horder.infix_of_mem List.mem_cons_self
  exact absurd (List.infix_nil.1 hinfix) (by decide)

/-- `<p>a &amp; b</p><ri:page/><![CDATA[<c>]]>` -/
def linkAndCode : Content :=
  .element paragraph noAttributes
    (.text (itemsOf (pyStr "a ") (by decide) ++ .ref (pyStr "amp") (by decide) ::
      itemsOf (pyStr " b") (by decide)) .nil) noBlanks
    (.empty pageLink noAttributes (.cdata ⟨pyStr "<c>", by decide, by decide⟩ .nil))

theorem linkAndCode_kept : KeepsText asciiTables linkAndCode ∧
    (KeepsText asciiTables linkAndCode ↔
      Unswallowed asciiTables linkAndCode ∧ Resolvable asciiTables linkAndCode) := by
  have htags : ∀ tag ∈ linkAndCode.tags, tag.length ≤ 4096 := by decide
  have hunswallowed : Unswallowed asciiTables linkAndCode := by
    unfold Unswallowed
    decide
  have hresolvable : Resolvable asciiTables linkAndCode := by
    unfold Resolvable
    decide
  have htell : TextsTell asciiTables linkAndCode := by
    unfold TextsTell
    decide
  exact ⟨(text_kept_iff asciiTables linkAndCode htags).1 ⟨hunswallowed, hresolvable⟩,
    (text_kept_iff asciiTables linkAndCode htags).2.1 htell⟩

end IcebergSST.Storage

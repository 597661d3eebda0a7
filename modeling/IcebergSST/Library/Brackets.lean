import Mathlib.Data.Int.Order.Basic
import Mathlib.Data.List.Induction
import Mathlib.Tactic.Common

/-!
# Groups between brackets

Tokens with a label each. A stack keeps for every open group whether it has a bar of its own
and whether a repetition stands in it; a group is reported when a repetition follows its
closing bracket. A closing bracket without an opening one says nothing, and no more does an
opening one that is never closed.
-/

namespace Brackets

variable {ι : Type*}

inductive Tok
  | opens
  | closes
  | bar
  | rep
  | atom
  deriving DecidableEq

structure Frame (ι : Type*) where
  opened : ι
  alternation : Bool
  nested : Bool

/-- The open groups, innermost first, and the group whose closing bracket was the last token. -/
structure State (ι : Type*) where
  frames : List (Frame ι)
  closed : Option (Frame ι × ι)

structure Report (ι : Type*) where
  opened : ι
  closed : ι
  alternation : Bool
  nested : Bool

def Frame.withBar (f : Frame ι) : Frame ι := { f with alternation := true }

/-- A repetition may stand in the group, or in a group of it. -/
def Frame.withRep (there : Bool) (f : Frame ι) : Frame ι := { f with nested := f.nested || there }

def State.start : State ι := ⟨[], none⟩

def step (s : State ι) (t : ι × Tok) : State ι :=
  match t.2, s.frames with
  | .opens, fs => ⟨⟨t.1, false, false⟩ :: fs, none⟩
  | .closes, [] => ⟨[], none⟩
  | .closes, f :: fs => ⟨fs.modifyHead (Frame.withRep f.nested), some (f, t.1)⟩
  | .bar, fs => ⟨fs.modifyHead Frame.withBar, none⟩
  | .rep, fs => ⟨fs.modifyHead (Frame.withRep true), none⟩
  | .atom, fs => ⟨fs, none⟩

def report (s : State ι) (t : ι × Tok) : List (Report ι) :=
  match t.2, s.closed with
  | .rep, some (f, c) => [⟨f.opened, c, f.alternation, f.nested⟩]
  | _, _ => []

def after (s : State ι) (ts : List (ι × Tok)) : State ι := ts.foldl step s

def reports : State ι → List (ι × Tok) → List (Report ι)
  | _, [] => []
  | s, t :: ts => report s t ++ reports (step s t) ts

/-- Where the groups open and close; `stack` is the groups that are open. -/
def spans : List ι → List (ι × Tok) → List (ι × ι)
  | _, [] => []
  | stack, (i, .opens) :: ts => spans (i :: stack) ts
  | o :: stack, (i, .closes) :: ts => (o, i) :: spans stack ts
  | [], (_, .closes) :: ts => spans [] ts
  | stack, _ :: ts => spans stack ts

/-- A bar that is in no group of them. -/
def ownBar : ℤ → List (ι × Tok) → Bool
  | _, [] => false
  | depth, (_, .opens) :: ts => ownBar (depth + 1) ts
  | depth, (_, .closes) :: ts => ownBar (depth - 1) ts
  | depth, (_, .bar) :: ts => depth = 0 || ownBar depth ts
  | depth, _ :: ts => ownBar depth ts

def hasRep (ts : List (ι × Tok)) : Bool := ts.any fun t => t.2 = .rep

inductive Balanced : List (ι × Tok) → Prop
  | nil : Balanced []
  | snoc {ts : List (ι × Tok)} {t : ι × Tok} : Balanced ts → t.2 ≠ .opens → t.2 ≠ .closes →
      Balanced (ts ++ [t])
  | group {ts ts' : List (ι × Tok)} {o c : ι} : Balanced ts → Balanced ts' →
      Balanced (ts ++ (o, .opens) :: (ts' ++ [(c, .closes)]))

variable {s : State ι} {t : ι × Tok} {ts ts' : List (ι × Tok)} {f : Frame ι} {fs : List (Frame ι)}
  {o c : ι} {r : Report ι}

@[simp] theorem after_nil : after s [] = s := rfl

@[simp] theorem after_cons : after s (t :: ts) = after (step s t) ts := rfl

@[simp] theorem after_append : after s (ts ++ ts') = after (after s ts) ts' := List.foldl_append

@[simp] theorem reports_nil : reports s [] = [] := rfl

@[simp] theorem reports_cons : reports s (t :: ts) = report s t ++ reports (step s t) ts := rfl

@[simp] theorem reports_append :
    reports s (ts ++ ts') = reports s ts ++ reports (after s ts) ts' := by
  induction ts generalizing s with
  | nil => rfl
  | cons t ts ih =>
      rw [List.cons_append, reports_cons, ih, reports_cons, List.append_assoc, after_cons]

@[simp] theorem hasRep_append : hasRep (ts ++ ts') = (hasRep ts || hasRep ts') := List.any_append

theorem Balanced.ownBar_append (h : Balanced ts) (depth : ℤ) (ts' : List (ι × Tok)) :
    0 ≤ depth → ownBar depth (ts ++ ts') = ((depth = 0 && ownBar 0 ts) || ownBar depth ts') := by
  induction h generalizing depth ts' with
  | nil =>
      intro _
      simp [ownBar]
  | @snoc ts t _ hopens hcloses ih =>
      intro hdepth
      rw [List.append_assoc, ih depth _ hdepth, ih 0 [t] le_rfl]
      obtain ⟨i, tok⟩ := t
      cases tok with
      | opens => exact absurd rfl hopens
      | closes => exact absurd rfl hcloses
      | bar => by_cases h : depth = 0 <;> simp [ownBar, h]
      | rep => simp [ownBar]
      | atom => simp [ownBar]
  | @group ts inner o c _ _ ih ih' =>
      intro hdepth
      have hinner (d : ℤ) (hd : 0 ≤ d) (more : List (ι × Tok)) :
          ownBar d ((o, .opens) :: (inner ++ [(c, .closes)]) ++ more) = ownBar d more := by
        rw [List.cons_append, List.append_assoc, ownBar, ih' (d + 1) _ (by omega)]
        have hne : d + 1 ≠ 0 := by omega
        simp [hne, ownBar]
      rw [List.append_assoc, ih depth _ hdepth, hinner depth hdepth, ih 0 _ le_rfl]
      have hzero := hinner 0 le_rfl []
      rw [List.append_nil] at hzero
      rw [hzero]
      simp [ownBar]

/-- A balanced part adds to the group it stands in, and what is reported in it depends on
nothing outside. -/
theorem Balanced.exists_run (h : Balanced ts) : ∃ closed rs, ∀ f fs,
    after ⟨f :: fs, none⟩ ts = (⟨⟨f.opened, f.alternation || ownBar 0 ts,
      f.nested || hasRep ts⟩ :: fs, closed⟩ : State ι) ∧ reports ⟨f :: fs, none⟩ ts = rs := by
  induction h with
  | nil => exact ⟨none, [], fun f fs => ⟨by simp [ownBar, hasRep], rfl⟩⟩
  | @snoc ts t hts hopens hcloses ih =>
      obtain ⟨closed, rs, hrun⟩ := ih
      refine ⟨none, rs ++ report ⟨[], closed⟩ t, fun f fs => ?_⟩
      obtain ⟨hafter, hreports⟩ := hrun f fs
      rw [after_append, reports_append, hafter, hreports, hts.ownBar_append 0 [t] le_rfl,
        hasRep_append]
      obtain ⟨i, tok⟩ := t
      cases tok with
      | opens => exact absurd rfl hopens
      | closes => exact absurd rfl hcloses
      | bar => simp [step, report, ownBar, hasRep, Frame.withBar]
      | rep => simp [step, report, ownBar, hasRep, Frame.withRep]
      | atom => simp [step, report, ownBar, hasRep]
  | @group ts inner o c hts hinner ih ih' =>
      obtain ⟨closed, rs, hrun⟩ := ih
      obtain ⟨closed', rs', hrun'⟩ := ih'
      refine ⟨some (⟨o, ownBar 0 inner, hasRep inner⟩, c), rs ++ rs', fun f fs => ?_⟩
      obtain ⟨hafter, hreports⟩ := hrun f fs
      obtain ⟨hafter', hreports'⟩ := hrun' ⟨o, false, false⟩ (⟨f.opened,
        f.alternation || ownBar 0 ts, f.nested || hasRep ts⟩ :: fs)
      have hgroup : ownBar 0 ((o, .opens) :: (inner ++ [(c, .closes)])) = false := by
        rw [ownBar, hinner.ownBar_append _ _ (by omega)]
        simp [ownBar]
      rw [after_append, reports_append, hafter, hreports, hts.ownBar_append 0 _ le_rfl, hgroup]
      simp only [after_cons, reports_cons, step, after_append, reports_append, report, hafter',
        hreports']
      simp [hasRep, Frame.withRep, Bool.or_assoc]

/-- The open groups and what has been read: each of them with a balanced part after its opening
bracket. -/
inductive Opened : List (Frame ι) → List (ι × Tok) → Prop
  | base (ts : List (ι × Tok)) : Opened [] ts
  | push {fs : List (Frame ι)} {ts ts' : List (ι × Tok)} (o : ι) : Opened fs ts → Balanced ts' →
      Opened (⟨o, ownBar 0 ts', hasRep ts'⟩ :: fs) (ts ++ (o, .opens) :: ts')

theorem Opened.snoc (h : Opened fs ts) (hopens : t.2 ≠ .opens) (hcloses : t.2 ≠ .closes) :
    Opened (step ⟨fs, none⟩ t).frames (ts ++ [t]) := by
  obtain ⟨i, tok⟩ := t
  cases h with
  | base =>
      cases tok with
      | opens => exact absurd rfl hopens
      | closes => exact absurd rfl hcloses
      | bar => exact .base _
      | rep => exact .base _
      | atom => exact .base _
  | @push fs ts ts' o hfs hts =>
      have hpush := Opened.push o hfs (hts.snoc hopens hcloses)
      rw [hts.ownBar_append 0 _ le_rfl, hasRep_append] at hpush
      rw [List.append_assoc, List.cons_append]
      cases tok with
      | opens => exact absurd rfl hopens
      | closes => exact absurd rfl hcloses
      | bar => simpa [step, ownBar, hasRep, Frame.withBar] using hpush
      | rep => simpa [step, ownBar, hasRep, Frame.withRep] using hpush
      | atom => simpa [step, ownBar, hasRep] using hpush

theorem opened_step (h : Opened s.frames ts) (t : ι × Tok) :
    Opened (step s t).frames (ts ++ [t]) := by
  obtain ⟨fs, closed⟩ := s
  obtain ⟨i, tok⟩ := t
  cases tok with
  | opens => exact .push i h .nil
  | closes =>
      cases h with
      | base => exact .base _
      | @push fs ts ts' o hfs hts =>
          rw [List.append_assoc, List.cons_append]
          cases hfs with
          | base => exact .base _
          | @push fs ts₀ ts₁ o' hfs hts₁ =>
              have hpush := Opened.push o' hfs (hts₁.group (o := o) (c := i) hts)
              have hgroup : ownBar 0 ((o, .opens) :: (ts' ++ [(i, .closes)])) = false := by
                rw [ownBar, hts.ownBar_append _ _ (by omega)]
                simp [ownBar]
              rw [hts₁.ownBar_append 0 _ le_rfl, hgroup, hasRep_append] at hpush
              rw [List.append_assoc, List.cons_append]
              simpa [step, hasRep, Frame.withRep] using hpush
  | bar => exact h.snoc (t := (i, .bar)) (by simp) (by simp)
  | rep => exact h.snoc (t := (i, .rep)) (by simp) (by simp)
  | atom => exact h.snoc (t := (i, .atom)) (by simp) (by simp)

theorem opened_after (ts : List (ι × Tok)) : Opened (after .start ts).frames ts := by
  induction ts using List.reverseRecOn with
  | nil => exact .base _
  | append_singleton ts t ih =>
      rw [after_append]
      exact opened_step ih t

theorem head?_frames_iff : (after .start ts).frames.head? = some f ↔
    ∃ a b, ts = a ++ (f.opened, .opens) :: b ∧ Balanced b ∧ f.alternation = ownBar 0 b ∧
      f.nested = hasRep b := by
  constructor
  · intro h
    have hopened := opened_after ts
    generalize (after State.start ts).frames = fs at h hopened
    cases hopened with
    | base => cases h
    | @push fs a b o hfs hb =>
        obtain rfl := Option.some.inj h
        exact ⟨a, b, rfl, hb, rfl, rfl⟩
  · rintro ⟨a, b, rfl, hb, hbar, hrep⟩
    obtain ⟨closed, rs, hrun⟩ := hb.exists_run
    have hafter := (hrun ⟨f.opened, false, false⟩ (after .start a).frames).1
    rw [after_append, after_cons]
    simp only [step, hafter, List.head?_cons, Bool.false_or, ← hbar, ← hrep]

theorem closed_step : (step s t).closed = some (f, c) ↔
    t = (c, .closes) ∧ s.frames.head? = some f := by
  obtain ⟨i, tok⟩ := t
  obtain ⟨fs, closed⟩ := s
  cases tok with
  | closes =>
      cases fs with
      | nil => simp [step]
      | cons g fs =>
          simp only [step, Option.some.injEq, Prod.mk.injEq, List.head?_cons, and_true]
          exact and_comm
  | _ => simp [step]

theorem exists_split_cons {P : List (ι × Tok) → ι × Tok → Prop} :
    (∃ a t' b, t :: ts = a ++ t' :: b ∧ P a t') ↔
      P [] t ∨ ∃ a t' b, ts = a ++ t' :: b ∧ P (t :: a) t' := by
  constructor
  · rintro ⟨_ | ⟨t₀, a⟩, t', b, heq, h⟩
    · obtain ⟨rfl, rfl⟩ := List.cons.inj heq
      exact Or.inl h
    · obtain ⟨rfl, rfl⟩ := List.cons.inj heq
      exact Or.inr ⟨a, t', b, rfl, h⟩
  · rintro (h | ⟨a, t', b, rfl, h⟩)
    · exact ⟨[], t, ts, rfl, h⟩
    · exact ⟨t :: a, t', b, rfl, h⟩

theorem mem_reports_iff : r ∈ reports s ts ↔
    ∃ a t b, ts = a ++ t :: b ∧ r ∈ report (after s a) t := by
  induction ts generalizing s with
  | nil => simp
  | cons t ts ih =>
      rw [reports_cons, List.mem_append, ih, exists_split_cons]
      rfl

theorem mem_report_iff : r ∈ report s t ↔ t.2 = .rep ∧ ∃ f, s.closed = some (f, r.closed) ∧
    r = ⟨f.opened, r.closed, f.alternation, f.nested⟩ := by
  obtain ⟨i, tok⟩ := t
  obtain ⟨fs, _ | ⟨f, c⟩⟩ := s
  · cases tok <;> simp [report]
  · cases tok with
    | rep =>
        simp only [report, List.mem_singleton, true_and]
        constructor
        · rintro rfl
          exact ⟨f, rfl, rfl⟩
        · rintro ⟨g, hclosed, hr⟩
          obtain ⟨rfl, hc⟩ := Prod.mk.inj (Option.some.inj hclosed)
          rw [hr, ← hc]
    | _ => simp [report]

/-- What is reported, said without the stack. -/
theorem mem_reports_start_iff : r ∈ reports .start ts ↔
    ∃ a b j e, ts = a ++ (r.opened, .opens) :: (b ++ (r.closed, .closes) :: (j, .rep) :: e) ∧
      Balanced b ∧ r.alternation = ownBar 0 b ∧ r.nested = hasRep b := by
  rw [mem_reports_iff]
  constructor
  · rintro ⟨a, ⟨j, tok⟩, e, rfl, hr⟩
    obtain ⟨hrep, f, hclosed, heq⟩ := mem_report_iff.1 hr
    dsimp only at hrep
    subst hrep
    rcases List.eq_nil_or_concat a with rfl | ⟨a, t, rfl⟩
    · cases hclosed
    · rw [List.concat_eq_append, after_append, after_cons, after_nil, closed_step] at hclosed
      obtain ⟨rfl, hhead⟩ := hclosed
      obtain ⟨a, b, rfl, hb, hbar, hnested⟩ := head?_frames_iff.1 hhead
      refine ⟨a, b, j, e, ?_, hb, ?_, ?_⟩
      · rw [heq]
        simp
      · rw [heq, hbar]
      · rw [heq, hnested]
  · rintro ⟨a, b, j, e, rfl, hb, hbar, hnested⟩
    refine ⟨a ++ (r.opened, .opens) :: (b ++ [(r.closed, .closes)]), (j, .rep), e, by simp, ?_⟩
    refine mem_report_iff.2 ⟨rfl, ⟨r.opened, r.alternation, r.nested⟩, ?_, rfl⟩
    rw [← List.cons_append, ← List.append_assoc, after_append, after_cons, after_nil, closed_step]
    exact ⟨rfl, head?_frames_iff.2 ⟨a, b, rfl, hb, hbar, hnested⟩⟩

theorem map_opened_modifyHead {g : Frame ι → Frame ι} (hg : ∀ f, (g f).opened = f.opened)
    (fs : List (Frame ι)) : (fs.modifyHead g).map Frame.opened = fs.map Frame.opened := by
  cases fs with
  | nil => rfl
  | cons f fs => simp [hg]

def closing (s : State ι) (t : ι × Tok) : List (ι × ι) :=
  (step s t).closed.toList.map fun p => (p.1.opened, p.2)

theorem spans_cons : spans (s.frames.map Frame.opened) (t :: ts) =
    closing s t ++ spans ((step s t).frames.map Frame.opened) ts := by
  obtain ⟨fs, closed⟩ := s
  obtain ⟨i, tok⟩ := t
  have hbar := map_opened_modifyHead (fun f : Frame ι => (rfl : f.withBar.opened = f.opened)) fs
  have hrep (there : Bool) (fs : List (Frame ι)) := map_opened_modifyHead
    (fun f : Frame ι => (rfl : (f.withRep there).opened = f.opened)) fs
  cases tok with
  | opens => cases fs <;> rfl
  | closes =>
      cases fs with
      | nil => rfl
      | cons f fs => simp [closing, step, spans, hrep]
  | bar =>
      simp only [closing, step, hbar]
      cases fs <;> rfl
  | rep =>
      simp only [closing, step, hrep]
      cases fs <;> rfl
  | atom => cases fs <;> rfl

theorem mem_spans_frames : (o, c) ∈ spans (s.frames.map Frame.opened) ts ↔
    ∃ a t b, ts = a ++ t :: b ∧ (o, c) ∈ closing (after s a) t := by
  induction ts generalizing s with
  | nil => simp [spans]
  | cons t ts ih =>
      rw [spans_cons, List.mem_append, ih, exists_split_cons]
      rfl

theorem mem_closing_iff : (o, c) ∈ closing s t ↔
    t = (c, .closes) ∧ ∃ f, s.frames.head? = some f ∧ f.opened = o := by
  simp only [closing, List.mem_map, Option.mem_toList, Prod.exists, Prod.mk.injEq,
    closed_step]
  constructor
  · rintro ⟨f, c', ⟨rfl, hhead⟩, rfl, rfl⟩
    exact ⟨rfl, f, hhead, rfl⟩
  · rintro ⟨rfl, f, hhead, rfl⟩
    exact ⟨f, c, ⟨rfl, hhead⟩, rfl, rfl⟩

theorem mem_spans_iff : (o, c) ∈ spans [] ts ↔
    ∃ a b e, ts = a ++ (o, .opens) :: (b ++ (c, .closes) :: e) ∧ Balanced b := by
  have hframes : (o, c) ∈ spans [] ts ↔ _ := mem_spans_frames (s := State.start)
  rw [hframes]
  constructor
  · rintro ⟨a, t, e, rfl, hclosing⟩
    obtain ⟨rfl, f, hhead, rfl⟩ := mem_closing_iff.1 hclosing
    obtain ⟨a, b, rfl, hb, -, -⟩ := head?_frames_iff.1 hhead
    exact ⟨a, b, e, by simp, hb⟩
  · rintro ⟨a, b, e, rfl, hb⟩
    refine ⟨a ++ (o, .opens) :: b, (c, .closes), e, by simp, mem_closing_iff.2 ⟨rfl, ?_⟩⟩
    exact ⟨⟨o, ownBar 0 b, hasRep b⟩, head?_frames_iff.2 ⟨a, b, rfl, hb, rfl, rfl⟩, rfl⟩

theorem after_atoms {k : List (ι × Tok)} (hk : ∀ t ∈ k, t.2 = .atom) :
    after ⟨fs, none⟩ k = ⟨fs, none⟩ := by
  induction k with
  | nil => rfl
  | cons t k ih =>
      obtain ⟨ht, hrest⟩ := List.forall_mem_cons.1 hk
      rw [after_cons, step, ht]
      exact ih hrest

theorem reports_atoms {k : List (ι × Tok)} (hk : ∀ t ∈ k, t.2 = .atom) : reports s k = [] := by
  refine List.eq_nil_iff_forall_not_mem.2 fun r hr => ?_
  obtain ⟨a, t, b, rfl, hreport⟩ := mem_reports_iff.1 hr
  have hrep := (mem_report_iff.1 hreport).1
  rw [hk t (by simp)] at hrep
  cases hrep

theorem ownBar_atoms {k : List (ι × Tok)} (hk : ∀ t ∈ k, t.2 = .atom) (depth : ℤ)
    (ts : List (ι × Tok)) : ownBar depth (k ++ ts) = ownBar depth ts := by
  induction k with
  | nil => rfl
  | cons t k ih =>
      obtain ⟨ht, hrest⟩ := List.forall_mem_cons.1 hk
      obtain ⟨i, tok⟩ := t
      dsimp only at ht
      rw [ht]
      exact ih hrest

theorem hasRep_atoms {k : List (ι × Tok)} (hk : ∀ t ∈ k, t.2 = .atom) : hasRep k = false := by
  refine List.any_eq_false.2 fun t ht => ?_
  rw [hk t ht]
  decide

/-- When the body of a repeated group is put into one more group, the bars of the body are not
the group's own any more; nothing else that is reported changes. -/
theorem exists_reports_wrapped {a k l b e : List (ι × Tok)} {n m j : ι}
    (hk : ∀ t ∈ k, t.2 = .atom) (hl : ∀ t ∈ l, t.2 = .atom) (hb : Balanced (k ++ b)) :
    ∃ before behind, reports .start (a ++ (o, .opens) :: (k ++ (b ++ (c, .closes) ::
        (j, .rep) :: e))) = before ++ ⟨o, c, ownBar 0 b, hasRep b⟩ :: behind ∧
      reports .start (a ++ (o, .opens) :: (k ++ (n, .opens) :: (l ++ (b ++ (m, .closes) ::
        (c, .closes) :: (j, .rep) :: e)))) = before ++ ⟨o, c, false, hasRep b⟩ :: behind := by
  obtain ⟨closed, rs, hrun⟩ := hb.exists_run
  simp only [after_append, reports_append, after_atoms hk, reports_atoms hk, List.nil_append,
    ownBar_atoms hk, hasRep_append, hasRep_atoms hk, Bool.false_or] at hrun
  have hplain := hrun ⟨o, false, false⟩ (after .start a).frames
  have hwrapped := hrun ⟨n, false, false⟩ (⟨o, false, false⟩ :: (after .start a).frames)
  simp only [Bool.false_or] at hplain hwrapped
  refine ⟨reports .start a ++ rs, reports ⟨((after .start a).frames.modifyHead
    (Frame.withRep (hasRep b))).modifyHead (Frame.withRep true), none⟩ e, ?_, ?_⟩
  · simp only [reports_append, reports_cons, report, step, after_atoms hk, reports_atoms hk,
      hplain, List.nil_append, List.append_assoc, List.singleton_append]
  · simp only [reports_append, reports_cons, report, step, after_atoms hk, reports_atoms hk,
      after_atoms hl, reports_atoms hl, hwrapped, List.modifyHead_cons, Frame.withRep,
      Bool.false_or, List.nil_append, List.append_assoc, List.singleton_append]

def Report.bad (r : Report ι) : Bool := r.nested || r.alternation

/-- A repeated group with a repetition in it, or with a bar of its own. -/
def Refused (toks : List Tok) : Prop :=
  ∃ r ∈ reports .start (toks.map fun tok => ((), tok)), r.bad

variable {κ : Type*}

def Frame.map (g : ι → κ) (f : Frame ι) : Frame κ := ⟨g f.opened, f.alternation, f.nested⟩

def State.map (g : ι → κ) (s : State ι) : State κ :=
  ⟨s.frames.map (Frame.map g), s.closed.map (Prod.map (Frame.map g) g)⟩

def Report.map (g : ι → κ) (r : Report ι) : Report κ :=
  ⟨g r.opened, g r.closed, r.alternation, r.nested⟩

theorem map_modifyHead (g : ι → κ) (h : Frame ι → Frame ι) (h' : Frame κ → Frame κ)
    (hg : ∀ f, (h f).map g = h' (f.map g)) (fs : List (Frame ι)) :
    (fs.modifyHead h).map (Frame.map g) = (fs.map (Frame.map g)).modifyHead h' := by
  cases fs with
  | nil => rfl
  | cons f fs => simp [hg]

theorem map_step (g : ι → κ) (s : State ι) (t : ι × Tok) :
    (step s t).map g = step (s.map g) (t.map g id) := by
  have hbar (fs : List (Frame ι)) : (fs.modifyHead Frame.withBar).map (Frame.map g) =
      (fs.map (Frame.map g)).modifyHead Frame.withBar :=
    map_modifyHead g Frame.withBar Frame.withBar (fun _ => rfl) fs
  have hrep (there : Bool) (fs : List (Frame ι)) :
      (fs.modifyHead (Frame.withRep there)).map (Frame.map g) =
        (fs.map (Frame.map g)).modifyHead (Frame.withRep there) :=
    map_modifyHead g (Frame.withRep there) (Frame.withRep there) (fun _ => rfl) fs
  obtain ⟨fs, closed⟩ := s
  obtain ⟨i, tok⟩ := t
  cases tok with
  | closes =>
      cases fs with
      | nil => rfl
      | cons f fs => simp [step, State.map, hrep, Frame.map]
  | bar => simp [step, State.map, hbar]
  | rep => simp [step, State.map, hrep]
  | opens => rfl
  | atom => rfl

theorem map_report (g : ι → κ) (s : State ι) (t : ι × Tok) :
    (report s t).map (Report.map g) = report (s.map g) (t.map g id) := by
  obtain ⟨fs, _ | ⟨f, c⟩⟩ := s
  all_goals
    obtain ⟨i, tok⟩ := t
    cases tok <;> rfl

theorem map_reports (g : ι → κ) (s : State ι) (ts : List (ι × Tok)) :
    (reports s ts).map (Report.map g) = reports (s.map g) (ts.map (Prod.map g id)) := by
  induction ts generalizing s with
  | nil => rfl
  | cons t ts ih =>
      rw [reports_cons, List.map_append, ih, map_report, map_step]
      rfl

theorem refused_iff : Refused (ts.map Prod.snd) ↔ ∃ r ∈ reports .start ts, r.bad := by
  have hlabels : (ts.map Prod.snd).map (fun tok => ((), tok)) =
      ts.map (Prod.map (fun _ => ()) id) := by
    rw [List.map_map]
    rfl
  have hmap := map_reports (fun _ : ι => ()) .start ts
  rw [Refused, hlabels, ← show State.map (fun _ => ()) State.start = .start from rfl, ← hmap]
  simp only [List.mem_map, exists_exists_and_eq_and]
  rfl

theorem after_atoms_of_ne_nil {k : List (ι × Tok)} (hk : ∀ t ∈ k, t.2 = .atom) (hne : k ≠ []) :
    after s k = ⟨s.frames, none⟩ := by
  obtain ⟨t, k, rfl⟩ := List.exists_cons_of_ne_nil hne
  obtain ⟨ht, hrest⟩ := List.forall_mem_cons.1 hk
  rw [after_cons, step, ht]
  exact after_atoms hrest

theorem atoms_replicate (n : ℕ) :
    ∀ t ∈ (List.replicate n Tok.atom).map (fun tok => ((), tok)), t.2 = .atom := by simp

/-- Any number of atoms is as good as one. -/
theorem refused_atoms {x y : List Tok} (m n : ℕ) :
    Refused (x ++ (List.replicate (m + 1) .atom ++ y)) ↔
      Refused (x ++ (List.replicate (n + 1) .atom ++ y)) := by
  have hrun (n : ℕ) (s : State Unit) :
      after s ((List.replicate (n + 1) .atom).map fun tok => ((), tok)) = ⟨s.frames, none⟩ ∧
        reports s ((List.replicate (n + 1) Tok.atom).map fun tok => ((), tok)) = [] :=
    ⟨after_atoms_of_ne_nil (atoms_replicate _) (by simp), reports_atoms (atoms_replicate _)⟩
  simp only [Refused, List.map_append, reports_append, hrun]

theorem refused_rep_atoms {x y : List Tok} (n : ℕ) :
    Refused (x ++ .rep :: (List.replicate n .atom ++ y)) ↔ Refused (x ++ .rep :: y) := by
  have hstep (s : State Unit) : step s ((), .rep) = ⟨(step s ((), .rep)).frames, none⟩ := rfl
  have hafter (s : State Unit) : after (step s ((), .rep))
      ((List.replicate n Tok.atom).map fun tok => ((), tok)) = step s ((), .rep) := by
    rw [hstep, after_atoms (atoms_replicate n)]
  simp only [Refused, List.map_append, List.map_cons, reports_append, reports_cons, hafter,
    reports_atoms (atoms_replicate n), List.nil_append]

/-- Each closing bracket is reported at most once. -/
theorem reports_closed_sublist (s : State ι) (ts : List (ι × Tok)) :
    ((reports s ts).map Report.closed).Sublist
      (s.closed.toList.map Prod.snd ++ ts.map Prod.fst) := by
  induction ts generalizing s with
  | nil => exact List.nil_sublist _
  | cons t ts ih =>
      obtain ⟨i, tok⟩ := t
      have hrest := ih (step s (i, tok))
      rw [reports_cons, List.map_append, List.map_cons]
      cases tok with
      | closes =>
          have hclosed : ((step s (i, .closes)).closed.toList.map Prod.snd).Sublist [i] := by
            obtain ⟨_ | ⟨f, fs⟩, closed⟩ := s <;> simp [step]
          refine (hrest.trans (hclosed.append_right _)).trans ?_
          exact List.sublist_append_right _ _
      | rep =>
          refine List.Sublist.append ?_ (hrest.trans (List.sublist_cons_self _ _))
          obtain ⟨fs, _ | ⟨f, c⟩⟩ := s <;> simp [report]
      | _ =>
          refine (List.Sublist.trans ?_ (List.sublist_cons_self i _)).trans
            (List.sublist_append_right _ _)
          exact hrest

end Brackets

import IcebergSST.Handoff
import IcebergSST.Library.LatestWins

/-!
# Callbacks in any order

What a receiver has said of a work item, as its callbacks are recorded one after another.
The state is that of the latest callback in every order. A name is taken from a callback
only if that callback is not already stale, so callbacks in another order may leave
another name, or none.
-/

namespace IcebergSST

/-- What the receiver has said: the state with its instant, and the names. -/
structure Said where
  state : Option HandoffExternalState
  externalId : Option String
  externalUrl : Option String
  deriving DecidableEq

namespace Said

def reference (s : Said) : Reference → Option String
  | .id => s.externalId
  | .url => s.externalUrl

def hear (s : Said) (c : HandoffCallback) : Said where
  state := some c.state
  externalId := c.named .id <|> s.externalId
  externalUrl := c.named .url <|> s.externalUrl

theorem ext_of {s s' : Said} (hstate : s.state = s'.state)
    (href : ∀ r, s.reference r = s'.reference r) : s = s' := by
  obtain ⟨state, id, url⟩ := s
  obtain ⟨state', id', url'⟩ := s'
  obtain rfl : state = state' := hstate
  obtain rfl : id = id' := href .id
  obtain rfl : url = url' := href .url
  rfl

theorem reference_hear (s : Said) (c : HandoffCallback) (r : Reference) :
    (s.hear c).reference r = (c.named r <|> s.reference r) := by
  cases r <;> rfl

end Said

namespace FindingHandoff

def said (h : FindingHandoff) : Said := ⟨h.externalState, h.externalId, h.externalUrl⟩

/-- What the row says of the work item, as a register stamped with the receiver's clock. -/
def register (h : FindingHandoff) : LatestWins.Register Said ℤ := ⟨h.said, h.externalStateAt⟩

end FindingHandoff

abbrev DatedCallback := {c : HandoffCallback // c.stateAt.isSome}

def DatedCallback.instant (c : DatedCallback) : ℤ := c.1.stateAt.get c.2

def DatedCallback.write (s : Said) (c : DatedCallback) : Said := s.hear c.1

def recordAll (h : FindingHandoff) (arrivals : List (DatedCallback × ℤ)) : FindingHandoff :=
  arrivals.foldl (fun h a => h.record a.1.1 a.2) h

open LatestWins

theorem record_register (h : FindingHandoff) (c : DatedCallback) (now : ℤ) :
    (h.record c.1 now).register = take DatedCallback.instant DatedCallback.write h.register c := by
  have hdated : c.1.stateAt = some c.instant := (Option.some_get c.2).symm
  unfold take FindingHandoff.record
  by_cases hstale : h.Stale c.1
  · obtain ⟨t, ht, u, hu, hlt⟩ := hstale
    have hstale' : h.register.stamp.any (c.instant < ·) = true := by
      rw [Option.any_eq_true]
      rw [hdated] at ht
      exact ⟨u, hu, by simpa [← Option.some.inj ht] using hlt⟩
    rw [if_pos ⟨t, ht, u, hu, hlt⟩, if_pos hstale']
    rfl
  · have hfresh : ¬ h.register.stamp.any (c.instant < ·) = true := by
      intro hany
      obtain ⟨u, hu, hlt⟩ := (Option.any_eq_true _ _).1 hany
      exact hstale ⟨c.instant, hdated, u, hu, of_decide_eq_true hlt⟩
    rw [if_neg hstale, if_neg hfresh]
    unfold FindingHandoff.register
    rw [hdated]
    rfl

theorem recordAll_register (h : FindingHandoff) (arrivals : List (DatedCallback × ℤ)) :
    (recordAll h arrivals).register =
      takeAll DatedCallback.instant DatedCallback.write h.register (arrivals.map Prod.fst) := by
  induction arrivals generalizing h with
  | nil => rfl
  | cons a arrivals ih =>
      rw [List.map_cons, takeAll_cons, ← record_register h a.1 a.2]
      exact ih _

/-- The same callbacks, in any order and any number of times. -/
def SameCallbacks (arrivals : List (DatedCallback × ℤ)) (calls : List DatedCallback) : Prop :=
  ∀ c, c ∈ arrivals.map Prod.fst ↔ c ∈ calls

def Latest (calls : List DatedCallback) (c : DatedCallback) : Prop :=
  c ∈ calls ∧ ∀ c' ∈ calls, c'.instant ≤ c.instant

def DistinctInstants (calls : List DatedCallback) : Prop :=
  ∀ c ∈ calls, ∀ c' ∈ calls, c.instant = c'.instant → c = c'

/-- Every order leaves the same, the state of the latest callback and a name that one of
them carries, if any does. -/
def Converges (h : FindingHandoff) (calls : List DatedCallback) : Prop :=
  ∃ final : Register Said ℤ,
    (∀ arrivals, SameCallbacks arrivals calls → (recordAll h arrivals).register = final) ∧
      (∀ c, Latest calls c → final.value.state = some c.1.state ∧ final.stamp = some c.instant) ∧
      ∀ r, (∃ c ∈ calls, c.1.named r ≠ none) →
        ∃ c ∈ calls, c.1.named r ≠ none ∧ final.value.reference r = c.1.named r

/-- The latest callback carries the name, or whichever carries it says what the row held. -/
def Carried (h : FindingHandoff) (calls : List DatedCallback) (r : Reference) : Prop :=
  ∀ latest, Latest calls latest → latest.1.named r ≠ none ∨
    ∀ c ∈ calls, c.1.named r ≠ none → c.1.named r = h.reference r

theorem exists_latest {calls : List DatedCallback} (h : calls ≠ []) :
    ∃ c, Latest calls c := by
  obtain ⟨c, hc⟩ := List.exists_mem_of_ne_nil calls h
  obtain ⟨latest, hmem, hmax⟩ := Set.exists_max_image {c | c ∈ calls} DatedCallback.instant
    (List.finite_toSet calls) ⟨c, hc⟩
  exact ⟨latest, hmem, hmax⟩

theorem Latest.unique {calls : List DatedCallback} (hdistinct : DistinctInstants calls)
    {c c' : DatedCallback} (hc : Latest calls c) (hc' : Latest calls c') : c = c' :=
  hdistinct c hc.1 c' hc'.1 (le_antisymm (hc'.2 c hc.1) (hc.2 c' hc'.1))

variable {h : FindingHandoff} {calls calls' : List DatedCallback} {latest : DatedCallback}

theorem record_fresh {c : DatedCallback} (hfresh : ∀ u ∈ h.externalStateAt, u ≤ c.instant)
    (now : ℤ) : (h.record c.1 now).register = ⟨h.said.hear c.1, some c.instant⟩ := by
  rw [record_register]
  exact take_fresh hfresh

/-- The latest callback has the last word, over names that the others may have left. -/
theorem recordAll_latest (hfresh : h.externalStateAt = none) (hdistinct : DistinctInstants calls)
    (hlatest : Latest calls latest) {arrivals : List (DatedCallback × ℤ)}
    (hsame : SameCallbacks arrivals calls) :
    ∃ v : Said, (recordAll h arrivals).register = ⟨v.hear latest.1, some latest.instant⟩ ∧
      ∀ P : Said → Prop, P h.said → (∀ v, ∀ c ∈ calls, P v → P (v.hear c.1)) → P v := by
  have hstart : ∀ u ∈ h.register.stamp, u ≤ latest.instant := by
    intro u hu
    change u ∈ h.externalStateAt at hu
    rw [hfresh] at hu
    cases hu
  have hlast : ∃ v, takeAll DatedCallback.instant DatedCallback.write h.register
      (arrivals.map Prod.fst) = ⟨DatedCallback.write v latest, some latest.instant⟩ ∧
        ∀ P : Said → Prop, P h.register.value → (∀ v, ∀ c ∈ arrivals.map Prod.fst, P v →
          P (DatedCallback.write v c)) → P v := by
    apply takeAll_latest ((hsame latest).2 hlatest.1) hstart
    · exact fun c hc => hlatest.2 c ((hsame c).1 hc)
    · exact fun c hc heq => hdistinct c ((hsame c).1 hc) latest hlatest.1 heq
  obtain ⟨v, hv, hP⟩ := hlast
  rw [recordAll_register]
  exact ⟨v, hv, fun P hbegin hkeep => hP P hbegin fun v c hc => hkeep v c ((hsame c).1 hc)⟩

/-- After the latest callback, a name it does not carry stays what it was. -/
theorem recordAll_after_latest (hdistinct : DistinctInstants calls) (hlatest : Latest calls latest)
    {r : Reference} (hsilent : latest.1.named r = none)
    (hstamp : h.externalStateAt = some latest.instant) {arrivals : List (DatedCallback × ℤ)}
    (hmem : ∀ c ∈ arrivals.map Prod.fst, c ∈ calls) :
    (recordAll h arrivals).register.value.reference r = h.reference r := by
  rw [recordAll_register]
  apply takeAll_settled (P := fun v : Said => v.reference r = h.reference r) hstamp
  · exact fun c hc => hlatest.2 c (hmem c hc)
  · exact fun c hc heq => hdistinct c (hmem c hc) latest hlatest.1 heq
  · cases r <;> rfl
  · intro v hv
    rw [DatedCallback.write, Said.reference_hear, hsilent]
    exact hv

def atOnce (calls : List DatedCallback) : List (DatedCallback × ℤ) := calls.map (·, 0)

theorem atOnce_fst (calls : List DatedCallback) : (atOnce calls).map Prod.fst = calls := by
  unfold atOnce
  rw [List.map_map]
  exact List.map_id calls

theorem sameCallbacks_atOnce (hmem : ∀ c ∈ calls, c ∈ calls') (hall : ∀ c ∈ calls', c ∈ calls) :
    SameCallbacks (atOnce calls) calls' := by
  intro c
  rw [atOnce_fst]
  exact ⟨hmem c, hall c⟩

theorem reference_register (h : FindingHandoff) (r : Reference) :
    h.register.value.reference r = h.reference r := by
  cases r <;> rfl

/-- What the latest callback alone leaves, every order leaves where the names are carried. -/
theorem recordAll_of_carried (hfresh : h.externalStateAt = none)
    (hdistinct : DistinctInstants calls) (hlatest : Latest calls latest)
    (hcarried : ∀ r, Carried h calls r) {arrivals : List (DatedCallback × ℤ)}
    (hsame : SameCallbacks arrivals calls) :
    (recordAll h arrivals).register = ⟨h.said.hear latest.1, some latest.instant⟩ := by
  obtain ⟨v, hv, hP⟩ := recordAll_latest hfresh hdistinct hlatest hsame
  rw [hv]
  congr 1
  have hstate : (v.hear latest.1).state = (h.said.hear latest.1).state := rfl
  apply Said.ext_of hstate
  intro r
  rw [Said.reference_hear, Said.reference_hear]
  rcases hcarried r latest hlatest with hnamed | hheld
  · cases hn : latest.1.named r with
    | none => exact absurd hn hnamed
    | some text => rfl
  · have hkept : v.reference r = h.said.reference r := by
      apply hP (fun v => v.reference r = h.said.reference r) rfl
      intro v c hc hv
      rw [Said.reference_hear]
      cases hn : c.1.named r with
      | none => exact hv
      | some text =>
          have hsays := hheld c hc (by rw [hn]; exact Option.some_ne_none text)
          rw [hn] at hsays
          exact hsays.trans (reference_register h r).symm
    rw [hkept]

/-- The latest callback says nothing of a name: heard first, before all the others, it
leaves what the row held. -/
theorem recordAll_silent_latest (hfresh : ∀ u ∈ h.externalStateAt, u ≤ latest.instant)
    (hdistinct : DistinctInstants calls) (hlatest : Latest calls latest) {r : Reference}
    (hsilent : latest.1.named r = none) :
    (recordAll h (atOnce (latest :: calls))).register.value.reference r = h.reference r := by
  have hheard := record_fresh hfresh 0
  have hmem : ∀ c ∈ (atOnce calls).map Prod.fst, c ∈ calls := by
    rw [atOnce_fst]
    exact fun c hc => hc
  have hafter := recordAll_after_latest (h := h.record latest.1 0) hdistinct hlatest hsilent
    (congrArg Register.stamp hheard) hmem
  rw [← reference_register, hheard, Said.reference_hear, hsilent] at hafter
  exact hafter.trans (reference_register h r)

/-- A name that a callback carries is the one on record once it is heard. -/
theorem reference_record_fresh {c : DatedCallback} (hfresh : ∀ u ∈ h.externalStateAt, u ≤ c.instant)
    {r : Reference} (hcarries : c.1.named r ≠ none) :
    (h.record c.1 0).reference r = c.1.named r := by
  rw [← reference_register, record_fresh hfresh, Said.reference_hear]
  cases hn : c.1.named r with
  | none => exact absurd hn hcarries
  | some text => rfl

/-- Heard before all the others, the latest callback shows what the row held; heard after
another that carries a name, it shows that name. -/
theorem Converges.carried (hfresh : h.externalStateAt = none)
    (hdistinct : DistinctInstants calls) (hconverges : Converges h calls) (r : Reference) :
    Carried h calls r := by
  obtain ⟨final, horder, -, -⟩ := hconverges
  intro latest hlatest
  by_contra hneither
  obtain ⟨hnamed, hother⟩ := not_or.1 hneither
  have hsilent : latest.1.named r = none := not_ne_iff.1 hnamed
  have hbefore : ∀ t, ∀ u ∈ h.externalStateAt, u ≤ t := by
    intro t u hu
    rw [hfresh] at hu
    cases hu
  apply hother
  intro c hc hcarries
  have hafter : ∀ u ∈ (h.record c.1 0).externalStateAt, u ≤ latest.instant := by
    intro u hu
    have hstamp : (h.record c.1 0).externalStateAt = some c.instant :=
      congrArg Register.stamp (record_fresh (hbefore _) 0)
    rw [hstamp] at hu
    obtain rfl := Option.some.inj hu
    exact hlatest.2 c hc
  have hfirst := horder (atOnce (latest :: calls)) (sameCallbacks_atOnce
    (List.forall_mem_cons.2 ⟨hlatest.1, fun c' hc' => hc'⟩)
    (fun c' hc' => List.mem_cons_of_mem _ hc'))
  have hsecond := horder (atOnce (c :: latest :: calls)) (sameCallbacks_atOnce
    (List.forall_mem_cons.2 ⟨hc, List.forall_mem_cons.2 ⟨hlatest.1, fun c' hc' => hc'⟩⟩)
    (fun c' hc' => List.mem_cons_of_mem _ (List.mem_cons_of_mem _ hc')))
  have hheld : final.value.reference r = h.reference r := by
    rw [← hfirst]
    exact recordAll_silent_latest (hbefore _) hdistinct hlatest hsilent
  have hsays : final.value.reference r = c.1.named r := by
    rw [← hsecond]
    exact (recordAll_silent_latest hafter hdistinct hlatest hsilent).trans
      (reference_record_fresh (hbefore _) hcarries)
  exact hsays.symm.trans hheld

/-- What the latest callback leaves of a name that was carried is what one that carries it
says. -/
theorem exists_carrier (hlatest : Latest calls latest) {r : Reference}
    (hcarried : Carried h calls r) {c : DatedCallback} (hc : c ∈ calls)
    (hcarries : c.1.named r ≠ none) :
    ∃ c ∈ calls, c.1.named r ≠ none ∧ (h.said.hear latest.1).reference r = c.1.named r := by
  rw [Said.reference_hear]
  cases hn : latest.1.named r with
  | some text =>
      refine ⟨latest, hlatest.1, ?_, hn.symm⟩
      rw [hn]
      exact Option.some_ne_none text
  | none =>
      refine ⟨c, hc, hcarries, ?_⟩
      rcases hcarried latest hlatest with hnamed | hheld
      · exact absurd hn hnamed
      · exact (reference_register h r).trans (hheld c hc hcarries).symm

theorem converges_nil (h : FindingHandoff) : Converges h [] := by
  refine ⟨h.register, ?_, ?_, ?_⟩
  · intro arrivals hsame
    rw [recordAll_register, List.eq_nil_iff_forall_not_mem.2 fun c hc =>
      absurd ((hsame c).1 hc) List.not_mem_nil]
    rfl
  · exact fun c hc => absurd hc.1 List.not_mem_nil
  · rintro r ⟨c, hc, -⟩
    cases hc

theorem converges_of_carried (hfresh : h.externalStateAt = none)
    (hdistinct : DistinctInstants calls) (hcarried : ∀ r, Carried h calls r) :
    Converges h calls := by
  by_cases hempty : calls = []
  · rw [hempty]
    exact converges_nil h
  · obtain ⟨latest, hlatest⟩ := exists_latest hempty
    refine ⟨⟨h.said.hear latest.1, some latest.instant⟩, ?_, ?_, ?_⟩
    · exact fun arrivals hsame => recordAll_of_carried hfresh hdistinct hlatest hcarried hsame
    · intro c hc
      rw [hc.unique hdistinct hlatest]
      exact ⟨rfl, rfl⟩
    · rintro r ⟨c, hc, hcarries⟩
      exact exists_carrier hlatest (hcarried r) hc hcarries

/-- Callbacks converge exactly when, for each name, the latest of them carries it or
whichever carries it says what the row held. -/
theorem callbacks_converge_iff (hfresh : h.externalStateAt = none)
    (hdistinct : DistinctInstants calls) :
    Converges h calls ↔ ∀ r, Carried h calls r := by
  constructor
  · intro hconverges r
    exact hconverges.carried hfresh hdistinct r
  · intro hcarried
    exact converges_of_carried hfresh hdistinct hcarried

/-- One callback names the work item and a later one reports on it. -/
def opened : DatedCallback := ⟨⟨.opened, some 1, some "T-1", none⟩, rfl⟩

def worked : DatedCallback := ⟨⟨.inProgress, some 2, none, none⟩, rfl⟩

def delivered : FindingHandoff where
  idempotencyKey := ⟨1, 2⟩
  status := .delivered
  nextAttemptAt := 0

instance (calls : List DatedCallback) (c : DatedCallback) :
    Decidable (Latest calls c) := inferInstanceAs (Decidable (_ ∧ _))

theorem callbacks_converge_iff_both_named : Converges delivered
    [opened, ⟨⟨.inProgress, some 2, some "T-1", none⟩, rfl⟩] := by
  apply (callbacks_converge_iff rfl (by unfold DistinctInstants; decide)).2
  intro r latest hlatest
  obtain ⟨hmem, hmax⟩ := hlatest
  cases r with
  | id =>
      left
      rcases List.mem_pair.1 hmem with rfl | rfl <;> decide
  | url =>
      right
      decide

/-- The name comes with the earlier of two callbacks, and is lost when that one comes last. -/
theorem callbacks_need_not_converge : ¬ Converges delivered [opened, worked] ∧
    (recordAll delivered (atOnce [opened, worked])).externalId = some "T-1" ∧
      (recordAll delivered (atOnce [worked, opened])).externalId = none := by
  have hin : (recordAll delivered (atOnce [opened, worked])).externalId = some "T-1" := by
    decide +kernel
  have hout : (recordAll delivered (atOnce [worked, opened])).externalId = none := by
    decide +kernel
  refine ⟨?_, hin, hout⟩
  rintro ⟨final, horder, -⟩
  have hsame := (horder (atOnce [opened, worked]) (sameCallbacks_atOnce (by simp) (by simp))).trans
    (horder (atOnce [worked, opened]) (sameCallbacks_atOnce (by simp) (by simp))).symm
  have hid := congrArg (fun r => r.value.externalId) hsame
  change (recordAll delivered _).externalId = (recordAll delivered _).externalId at hid
  rw [hin, hout] at hid
  cases hid

end IcebergSST

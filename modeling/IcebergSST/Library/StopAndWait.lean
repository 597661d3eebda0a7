import Mathlib.Tactic

/-!
# Numbered delivery over a link that loses requests and answers

A sender holds at most one message whose fate it does not know. The message is
bound to the number after the last acknowledged one, and is only ever retransmitted
verbatim. A receiver takes a message exactly when its number is one ahead of the
receiver's counter, and answers with the counter. The sender reads an answer below
the number it offered as a refusal and drops the message, any other as an
acknowledgement. Nothing is assumed about how many requests or answers get through.
-/

namespace StopAndWait

variable {π : Type*}

/-- Both ends of one link: the sender's acknowledged number, outstanding message and
ledger of acknowledged messages, and the receiver's counter and log. -/
structure Link (π : Type*) where
  acknowledged : ℕ
  outstanding : Option π
  ledger : List π
  counter : ℕ
  log : List π

namespace Link

def start (n : ℕ) : Link π := ⟨n, none, [], n, []⟩

def offer (l : Link π) (p : π) : Link π := { l with outstanding := some p }

def receive (l : Link π) : Link π :=
  match l.outstanding with
  | none => l
  | some p =>
      if l.counter = l.acknowledged then
        { l with counter := l.counter + 1, log := l.log ++ [p] }
      else l

/-- The sender reads the receiver's counter as the answer to its message. -/
def answer (l : Link π) : Link π :=
  match l.outstanding with
  | none => l
  | some p =>
      if l.counter < l.acknowledged + 1 then { l with outstanding := none }
      else { l with acknowledged := l.counter, outstanding := none, ledger := l.ledger ++ [p] }

/-- The receiver holds the sender's ledger, and beyond it at most the one message
whose fate the sender does not know. -/
def Sound (l : Link π) : Prop :=
  (l.counter = l.acknowledged ∧ l.log = l.ledger) ∨
    ∃ p, l.outstanding = some p ∧ l.counter = l.acknowledged + 1 ∧ l.log = l.ledger ++ [p]

theorem sound_start (n : ℕ) : (start n : Link π).Sound := Or.inl ⟨rfl, rfl⟩

theorem Sound.offer {l : Link π} (h : l.Sound) (hfree : l.outstanding = none) (p : π) :
    (l.offer p).Sound := by
  rcases h with h | ⟨q, hq, _⟩
  · exact Or.inl h
  · rw [hfree] at hq
    cases hq

theorem Sound.receive {l : Link π} (h : l.Sound) : l.receive.Sound := by
  cases ho : l.outstanding with
  | none => simpa only [Link.receive, ho] using h
  | some p =>
      simp only [Link.receive, ho]
      split_ifs with hc
      · rcases h with ⟨_, hlog⟩ | ⟨_, _, hc', _⟩
        · exact Or.inr ⟨p, rfl, by rw [← hc], by rw [← hlog]⟩
        · omega
      · exact h

theorem Sound.answer {l : Link π} (h : l.Sound) : l.answer.Sound := by
  cases ho : l.outstanding with
  | none => simpa only [Link.answer, ho] using h
  | some p =>
      simp only [Link.answer, ho]
      rcases h with ⟨hc, hlog⟩ | ⟨q, hq, hc, hlog⟩
      · rw [if_pos (by omega)]
        exact Or.inl ⟨hc, hlog⟩
      · obtain rfl : p = q := Option.some.inj (ho.symm.trans hq)
        rw [if_neg (by omega)]
        exact Or.inl ⟨rfl, hlog⟩

/-- When both counters agree nothing is outstanding at the receiver: its log is
exactly what the sender believes it to be. -/
theorem Sound.log_eq_ledger {l : Link π} (h : l.Sound) (hc : l.counter = l.acknowledged) :
    l.log = l.ledger := by
  rcases h with ⟨_, hlog⟩ | ⟨_, _, hc', _⟩
  · exact hlog
  · omega

end Link

end StopAndWait

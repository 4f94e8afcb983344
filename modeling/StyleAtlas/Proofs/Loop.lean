import Mathlib.Data.Nat.Init

/-!
# Loops

A loop repeats a round until the round gives an answer.  The round may also fail, as it does when it
reads where there is nothing to read, and then the loop has no answer; neither has a loop that goes
on forever.  So whoever shows that a loop has an answer has shown that it ends and that no round of
it fails.

Main results:

- Definitions `Loop.run` and `loop`: the answer of a loop.
- Theorem `exists_loop`: a loop answers if every round keeps an invariant and gets closer to an end.
-/

namespace StyleAtlas

variable {σ α : Type} {round : σ → Option (σ ⊕ α)}

/-- A loop, by its round, which goes on with a state or stops with an answer, unless it fails. -/
structure Loop (σ α : Type) where
  round : σ → Option (σ ⊕ α)

/-- Repeat the round of a loop.  There is no answer where a round fails, or where the loop never
stops. -/
def Loop.run (l : Loop σ α) (s : σ) : Option α := do
  match ← l.round s with
  | .inl next => l |>.run next
  | .inr answer => some answer
partial_fixpoint

/-- The answer of the loop with a round. -/
def loop (round : σ → Option (σ ⊕ α)) (s : σ) : Option α :=
  Loop.run ⟨round⟩ s

/-- A round that goes on leaves the rest to the loop from there. -/
theorem loop_next {s next : σ} (h : round s = some (.inl next)) :
    loop round s = loop round next := by
  rw [loop, Loop.run]
  simp only [h]
  rfl

/-- A round that answers ends the loop. -/
theorem loop_answer {s : σ} {answer : α} (h : round s = some (.inr answer)) :
    loop round s = some answer := by
  rw [loop, Loop.run]
  simp only [h]
  rfl

/-- A loop answers if, wherever an invariant holds, its round stops as promised, or keeps the
invariant and lowers a measure. -/
theorem exists_loop (invariant : σ → Prop) (measure : σ → Nat) {promise : α → Prop}
    (hround : ∀ s, invariant s →
      (∃ next, round s = some (.inl next) ∧ invariant next ∧ measure next < measure s) ∨
        ∃ answer, round s = some (.inr answer) ∧ promise answer)
    {s : σ} (h : invariant s) : ∃ answer, loop round s = some answer ∧ promise answer := by
  induction hmeasure : measure s using Nat.strong_induction_on generalizing s with
  | _ n ih =>
    subst hmeasure
    rcases hround s h with ⟨next, hnext, hkept, hlt⟩ | ⟨answer, hanswer, hpromise⟩
    · rw [loop_next hnext]
      exact ih (measure next) hlt hkept rfl
    · exact ⟨answer, loop_answer hanswer, hpromise⟩

/-- Where every place of a stretch leads to the same as the next, its start leads to the same as its
end. -/
theorem eq_of_forall_eq_succ {f : Nat → α} {start stop : Nat} (hle : start ≤ stop)
    (h : ∀ n, start ≤ n → n < stop → f n = f (n + 1)) : f start = f stop := by
  induction stop, hle using Nat.le_induction with
  | base => rfl
  | succ stop hle ih =>
      rw [ih fun n hn hlt => h n hn (by omega)]
      exact h stop hle (by omega)

end StyleAtlas

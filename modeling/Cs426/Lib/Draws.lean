import Mathlib.Data.Int.Notation
import Mathlib.Data.Nat.Notation
import Mathlib.Tactic.Common

/-!
# Data drawn from a pseudo-random source

A program that fills its tables with random data draws from a source that it has seeded, and
what it draws depends on the seed alone. The draws here are computations on the state of the
source; `Always` says what holds of a result whatever the state, so what is proved with it holds
for every seed and every way of generating numbers.

## What is proved

* `Always.bind`, `Always.onFst`, `Always.imp` — how computations are put together.
* `Always.forLoop` — an invariant of every turn is one of the loop.
-/

namespace Cs426.Draws

variable {σ τ α β : Type}

/-- A source of numbers: its state after it was seeded, and a number below `n` with the next
state. -/
structure Source (σ : Type) where
  seed : ℤ → σ
  intn : ℕ → StateM σ ℕ
  intn_lt : ∀ {n : ℕ} (s : σ), 0 < n → (intn n s).1 < n

/-- The same computation on a state of which its own is the first part. -/
def onFst (m : StateM σ α) : StateM (σ × τ) α := fun s => ((m s.1).1, (m s.1).2, s.2)

/-- The same computation on a state of which its own is the second part. -/
def onSnd (m : StateM τ α) : StateM (σ × τ) α := fun s => ((m s.2).1, s.1, (m s.2).2)

/-- The loop that runs `body` for `first`, `first + 1`, …, `n` times in all. -/
def forLoop (body : ℕ → β → StateM σ β) : ℕ → ℕ → β → StateM σ β
  | _, 0, b => pure b
  | first, n + 1, b => body first b >>= forLoop body (first + 1) n

theorem forLoop_zero (body : ℕ → β → StateM σ β) (first : ℕ) (b : β) : forLoop body first 0 b = pure b := rfl

theorem forLoop_succ (body : ℕ → β → StateM σ β) (first n : ℕ) (b : β) :
    forLoop body first (n + 1) b = body first b >>= forLoop body (first + 1) n := rfl

-- lest thousands of turns be unrolled
attribute [irreducible] forLoop

theorem bind_apply (m : StateM σ α) (k : α → StateM σ β) (s : σ) : (m >>= k) s = k (m s).1 (m s).2 := rfl

/-- The result has the property, whatever the state at the start. -/
def Always (m : StateM σ α) (P : α → Prop) : Prop := ∀ s, P (m s).1

namespace Always

variable {m : StateM σ α} {P Q : α → Prop}

theorem pure {a : α} (h : P a) : Always (pure a : StateM σ α) P := fun _ => h

theorem any (m : StateM σ α) : Always m fun _ => True := fun _ => trivial

theorem imp (h : Always m P) (hPQ : ∀ a, P a → Q a) : Always m Q := fun s => hPQ _ (h s)

theorem bind {k : α → StateM σ β} {R : β → Prop} (h : Always m P) (hk : ∀ a, P a → Always (k a) R) :
    Always (m >>= k) R := fun s => hk _ (h s) _

theorem onFst (h : Always m P) : Always (onFst m : StateM (σ × τ) α) P := fun s => h s.1

theorem intn (R : Source σ) {n : ℕ} (hn : 0 < n) : Always (R.intn n) (· < n) := fun s => R.intn_lt s hn

/-- **The invariant rule of a loop**: what each turn carries from `i` to `i + 1` holds at the
end. -/
theorem forLoop {I : ℕ → β → Prop} {body : ℕ → β → StateM σ β} {first n : ℕ} {b : β}
    (hbody : ∀ i b, first ≤ i → i < first + n → I i b → Always (body i b) (I (i + 1))) (hb : I first b) :
    Always (forLoop body first n b) (I (first + n)) := by
  induction n generalizing first b with
  | zero =>
    rw [forLoop_zero]
    exact pure hb
  | succ n ih =>
    rw [forLoop_succ]
    refine bind (hbody first b (Nat.le_refl _) (by omega) hb) fun b' hb' => ?_
    have hrest := ih (fun i b hi hlt => hbody i b (by omega) (by omega)) hb'
    rwa [Nat.add_right_comm] at hrest

end Always

end Cs426.Draws

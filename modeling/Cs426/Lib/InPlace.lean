import Mathlib.Tactic.Common

/-!
# Code that changes a state in place

Such code is handed a state and leaves it changed. It may return early with an error, and then
leaves what it has changed until there; or it panics, and there is no state after it.

The simp lemmas `exec_*` say what each construct does to the state, so that code is executed by
rewriting.
-/

namespace Cs426.InPlace

/-- Errors, over a state, over panics. -/
abbrev Prog (ε σ α : Type) := ExceptT ε (StateT σ Option) α

variable {ε σ α β : Type}

/-- What the code returns and the state it leaves; `none` if it panics. -/
def exec (p : Prog ε σ α) (s : σ) : Option (Except ε α × σ) := p.run.run s

/-- A value that is there, or a panic. -/
def orPanic (x : Option α) : Prog ε σ α := ExceptT.lift (StateT.lift x)

variable (s : σ)

@[simp] theorem exec_bind (p : Prog ε σ α) (f : α → Prog ε σ β) :
    exec (p >>= f) s = (exec p s).bind fun r =>
      match r.1 with
      | .ok a => exec (f a) r.2
      | .error e => some (.error e, r.2) := by
  show Option.bind _ _ = _
  congr 1
  funext r
  obtain ⟨res, s'⟩ := r
  cases res <;> rfl

@[simp] theorem exec_pure (a : α) : exec (pure a : Prog ε σ α) s = some (.ok a, s) := rfl

@[simp] theorem exec_get : exec (get : Prog ε σ σ) s = some (.ok s, s) := rfl

@[simp] theorem exec_set (s' : σ) : exec (set s' : Prog ε σ PUnit) s = some (.ok (), s') := rfl

@[simp] theorem exec_throw (e : ε) : exec (throw e : Prog ε σ α) s = some (.error e, s) := rfl

@[simp] theorem exec_orPanic (x : Option α) : exec (orPanic x : Prog ε σ α) s = x.map fun a => (.ok a, s) := by
  cases x <;> rfl

@[simp] theorem exec_ofExcept (x : Except ε α) : exec (ofExcept x : Prog ε σ α) s = some (x, s) := by
  cases x <;> rfl

@[simp] theorem exec_ite (c : Prop) [Decidable c] (p q : Prog ε σ α) :
    exec (if c then p else q) s = if c then exec p s else exec q s := by
  split_ifs <;> rfl

end Cs426.InPlace

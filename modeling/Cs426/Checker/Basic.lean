import Mathlib.Algebra.Order.Ring.Int
import Mathlib.Data.List.AList
import Mathlib.Logic.Function.Basic
import Cs426.Lib.Machine

/-!
# The consistency checker

`ConsistencyChecker` (`lab4/checker/checker.go`), which the stress tester runs beside the
key-value store: each `Set` is bracketed by `BeginWrite` and `CompleteWrite`, each `Get` by
`BeginRead` and `CheckReadCorrect`.

## The model

The four functions run under one mutex and are functions of the checker's state. A Go map
from keys is a function that is empty or zero where nothing is stored; the inner maps, which
the code iterates over and measures, are association lists. The counters wrap around as those
of the source do. An instant is an integer. An error carries the data its text is made of
(`ReadError`), but for the clock as the text is printed and for `overwrittenAt`, which is
never set.

A `History` is the checker with the calls made to it. Every call takes one tick of a counter,
so that the order of the ticks is the order of the calls in real time.
-/

namespace Cs426.Checker

/-- The command line flags. -/
structure Flags where
  checkCorrectness : Bool
  checkTtl : Bool
  ttlCheckBuffer : ℤ

structure StateValue where
  value : String
  writtenAt : ℤ
  maybeExpiredBy : ℤ
  definitelyExpiredBy : ℤ
  /-- The error of the `Set`, if it had one. -/
  err : Option String
deriving DecidableEq

/-- The values recorded for one key, by value. -/
abbrev Values := AList fun _ : String => StateValue

structure ConsistencyChecker where
  checksRun : UInt64
  values : String → Values
  overwrittenValues : String → Values
  version : String → Int64
  rc : String → Int64

/-- Why `CheckReadCorrect` complains. -/
inductive ReadError where
  /-- "no value found, but there unexpired potential values". -/
  | noValueFound (unexpired : List StateValue)
  /-- "incorrect value; was overrwritten". -/
  | overwritten (value : String)
  /-- "incorrect value; never written to key"; the text shows the zero `stateValue` that the
  lookup returned, and not the value read. -/
  | neverWritten
  /-- "value was written, but expired at least ...ms ago". -/
  | expired (value : String) (ago : ℤ)
deriving DecidableEq

def makeConsistencyChecker : ConsistencyChecker := ⟨0, fun _ => ∅, fun _ => ∅, fun _ => 0, fun _ => 0⟩

/-- The loop of `CompleteWrite` that moves the values of a key to those overwritten. -/
def overwriteAll (values overwritten : Values) : Values :=
  values.entries.foldl (fun moved e => moved.insert e.2.value e.2) overwritten

namespace ConsistencyChecker

variable (flags : Flags) (cc : ConsistencyChecker)

def beginWrite (key : String) : ConsistencyChecker × Int64 :=
  if flags.checkCorrectness = false then (cc, 0)
  else ({ cc with rc := Function.update cc.rc key (cc.rc key + 1) }, cc.version key)

/-- A completed write is recorded: in place of all values of the key if it succeeded and
nothing shows that another write overlapped it, beside them otherwise. -/
def record (key : String) (newVal : StateValue) (initialVersion : Int64) : ConsistencyChecker :=
  let recorded :=
    if newVal.err = none ∧ initialVersion = cc.version key ∧ cc.rc key = 1 then
      { cc with
        overwrittenValues := Function.update cc.overwrittenValues key
          (overwriteAll (cc.values key) (cc.overwrittenValues key))
        values := Function.update cc.values key (AList.singleton newVal.value newVal) }
    else { cc with values := Function.update cc.values key ((cc.values key).insert newVal.value newVal) }
  { recorded with
    rc := Function.update cc.rc key (cc.rc key - 1)
    version := Function.update cc.version key (cc.version key + 1) }

/-- `none` is the panic on a duplicate value. -/
def completeWrite (key value : String) (err : Option String)
    (initialVersion : Int64) (maybeExpiredBy definitelyExpiredBy now : ℤ) : Option ConsistencyChecker :=
  if flags.checkCorrectness = false then some cc
  else if value ∈ cc.values key then none
  else if value ∈ cc.overwrittenValues key then none
  else some (cc.record key ⟨value, now, maybeExpiredBy, definitelyExpiredBy + flags.ttlCheckBuffer, err⟩ initialVersion)

def beginRead (key : String) : Int64 × Bool :=
  if flags.checkCorrectness = false then (0, false) else (cc.version key, cc.rc key != 0)

/-- The verdict on a read that no write may have overlapped. -/
def verdict (key value : String) (wasFound : Bool) (startTime now : ℤ) : Option ReadError :=
  if wasFound = false then
    let values := (cc.values key).entries.map Sigma.snd
    let someValueExpired := values.isEmpty || values.any fun val => decide (val.maybeExpiredBy < now)
    if someValueExpired then none
    else some (.noValueFound (values.filter fun val => decide (¬ val.maybeExpiredBy < now)))
  else
    match (cc.values key).lookup value with
    | none => if value ∈ cc.overwrittenValues key then some (.overwritten value) else some .neverWritten
    | some val =>
      if flags.checkTtl ∧ val.err = none ∧ val.definitelyExpiredBy < startTime then
        some (.expired value (startTime - val.maybeExpiredBy))
      else none

/-- The checker afterwards, and the error if there is one; `now` is read when the check has
begun. -/
def checkReadCorrect (key value : String) (wasFound : Bool) (startTime : ℤ) (initialVersion : Int64)
    (writesPending : Bool) (now : ℤ) : ConsistencyChecker × Option ReadError :=
  if flags.checkCorrectness = false then (cc, none)
  else if cc.version key ≠ initialVersion ∨ writesPending = true ∨ cc.rc key ≠ 0 then (cc, none)
  else ({ cc with checksRun := cc.checksRun + 1 }, cc.verdict flags key value wasFound startTime now)

end ConsistencyChecker

/-! ### Histories -/

/-- A `Set` and its bracket. What is passed to `CompleteWrite` is written down from the
start. -/
structure WriteOp where
  key : String
  value : String
  maybeExpiredBy : ℤ
  definitelyExpiredBy : ℤ
  /-- What `BeginWrite` returned. -/
  initialVersion : Int64
  /-- The tick of `BeginWrite`. -/
  began : ℕ
  /-- The tick of `CompleteWrite`, if there was one. -/
  ended : Option ℕ
  /-- The error the `Set` returned. -/
  err : Option String
deriving DecidableEq

/-- A `Get` and its bracket. -/
structure ReadOp where
  key : String
  /-- Read off the clock before `BeginRead`. -/
  startTime : ℤ
  /-- What `BeginRead` returned. -/
  initialVersion : Int64
  writesPending : Bool
  /-- The tick of `BeginRead`. -/
  began : ℕ
deriving DecidableEq

structure History where
  cc : ConsistencyChecker
  writes : List WriteOp
  reads : List ReadOp
  tick : ℕ

/-- A call of one of the four functions. -/
inductive Call where
  | beginWrite (key value : String) (maybeExpiredBy definitelyExpiredBy : ℤ)
  /-- The `i`-th write is completed. -/
  | completeWrite (i : ℕ) (err : Option String) (now : ℤ)
  | beginRead (key : String) (startTime : ℤ)
  /-- The `i`-th read has returned `value` and `wasFound`, and is checked. -/
  | checkReadCorrect (i : ℕ) (value : String) (wasFound : Bool) (now : ℤ)

/-- The write is over by tick `t`. -/
def WriteOp.EndedBefore (w : WriteOp) (t : ℕ) : Prop := ∃ e, w.ended = some e ∧ e < t

instance (w : WriteOp) (t : ℕ) : Decidable (w.EndedBefore t) :=
  decidable_of_iff (w.ended.any (· < t) = true) (by simp [WriteOp.EndedBefore, Option.any_eq_true])

namespace History

/-- Nothing called yet. -/
def fresh : History := ⟨makeConsistencyChecker, [], [], 0⟩

/-- The history after one call. No key is given a value twice; `none` is also the panic of
`CompleteWrite`. -/
def step (flags : Flags) (h : History) : Call → Option History
  | .beginWrite key value maybeExpiredBy definitelyExpiredBy =>
    if ∀ w ∈ h.writes, w.key = key → w.value ≠ value then
      let r := h.cc.beginWrite flags key
      some { h with
        cc := r.1
        writes := h.writes ++ [⟨key, value, maybeExpiredBy, definitelyExpiredBy, r.2, h.tick, none, none⟩]
        tick := h.tick + 1 }
    else none
  | .completeWrite i err now =>
    h.writes[i]?.bind fun w =>
      if w.ended = none then
        (h.cc.completeWrite flags w.key w.value err w.initialVersion w.maybeExpiredBy w.definitelyExpiredBy now).map
          fun cc => { h with
            cc := cc, writes := h.writes.set i { w with ended := some h.tick, err := err }, tick := h.tick + 1 }
      else none
  | .beginRead key startTime =>
    let r := h.cc.beginRead flags key
    some { h with reads := h.reads ++ [⟨key, startTime, r.1, r.2, h.tick⟩], tick := h.tick + 1 }
  | .checkReadCorrect i value wasFound now =>
    h.reads[i]?.map fun r =>
      { h with
        cc := (h.cc.checkReadCorrect flags r.key value wasFound r.startTime r.initialVersion r.writesPending now).1
        tick := h.tick + 1 }

end History

/-! ### What the functions do, with checking enabled -/

theorem mem_overwriteAll_aux (es : List (Sigma fun _ : String => StateValue)) (overwritten : Values) (v : String) :
    v ∈ es.foldl (fun (moved : Values) e => moved.insert e.2.value e.2) overwritten ↔
      v ∈ overwritten ∨ ∃ e ∈ es, e.2.value = v := by
  induction es generalizing overwritten with
  | nil => simp
  | cons e es ih =>
    rw [List.foldl_cons, ih, AList.mem_insert]
    constructor
    · rintro ((rfl | hmem) | ⟨e', he', rfl⟩)
      · exact Or.inr ⟨e, List.mem_cons_self .., rfl⟩
      · exact Or.inl hmem
      · exact Or.inr ⟨e', List.mem_cons_of_mem _ he', rfl⟩
    · rintro (hmem | ⟨e', he', rfl⟩)
      · exact Or.inl (Or.inr hmem)
      · rcases List.mem_cons.mp he' with rfl | he'
        · exact Or.inl (Or.inl rfl)
        · exact Or.inr ⟨e', he', rfl⟩

/-- Where every value is stored under itself, all of them are moved. -/
theorem mem_overwriteAll {values overwritten : Values}
    (hown : ∀ v sv, values.lookup v = some sv → sv.value = v) (v : String) :
    v ∈ overwriteAll values overwritten ↔ v ∈ overwritten ∨ v ∈ values := by
  rw [overwriteAll, mem_overwriteAll_aux]
  refine or_congr_right ⟨?_, fun hv => ?_⟩
  · rintro ⟨⟨v', sv⟩, he, rfl⟩
    have hl := AList.mem_lookup_iff.mpr he
    rw [hown v' sv hl]
    exact AList.lookup_isSome.mp (by rw [Option.mem_def.mp hl]; rfl)
  · obtain ⟨sv, hsv⟩ := Option.isSome_iff_exists.mp (AList.lookup_isSome.mpr hv)
    exact ⟨⟨v, sv⟩, AList.mem_lookup_iff.mp hsv, hown v sv hsv⟩

end Cs426.Checker

import Cs426.Checker.Basic
import Cs426.Lib.Counting

/-!
# What the stress tester reports

`stressGets` and `stressSets` (`lab4/cmd/stress/tester.go`): goroutines that send one `Get` or
one `Set` each, run the consistency checker beside it and update the counters that `main`
prints at the end.

## The model

* `getCalls` and `setCalls` are the goroutines started so far and how far each has come. A step
  is one of them moving on to its next shared access; the semaphore, which only keeps some of
  them from starting, is left out.
* The checker is the real one, with the reads and the writes interleaved in any way. What the
  store answers, the clock readings and the answers of the two log limiters are part of the
  event.
* `log` are the lines written, each `Get`'s with the number of its goroutine.
* The counters, and the differences of the report, are of 64 bits.

## What is proved

* `quiet_or_settle` — all that a step can do to the counts.
* `inconsistencies_reported_iff` — with fewer than `2 ^ 64` `Get`s, the printed number of correct
  responses does not wrap; and every wrong answer is counted, and none logged as OK, exactly in
  the runs in which the limiter of the error log allows every wrong answer to be logged: the code
  counts a wrong answer only if it may log it, and goes on to the line of a right answer otherwise
  (`inconsistency_logged_ok`).
-/

namespace Cs426.Checker

open Cs426.Machine Cs426.Counting

/-- A `Get` after `BeginRead`. -/
structure GetCall where
  key : String
  startTime : ℤ
  initialVersion : Int64
  writesPending : Bool
deriving DecidableEq

/-- How far a goroutine of `stressGets` has come. -/
inductive GetPhase where
  /-- The store is asked. -/
  | asked (c : GetCall)
  /-- It has returned an error. -/
  | failed (c : GetCall) (err : String)
  /-- It has returned an answer. -/
  | answered (c : GetCall) (val : String) (wasFound : Bool)
  /-- `CheckReadCorrect` has returned. -/
  | checked (c : GetCall) (err : Option ReadError)
  /-- Over, with an error of the store. -/
  | errored
  /-- Over, with an answer and the error of `CheckReadCorrect`. -/
  | ended (err : Option ReadError)
deriving DecidableEq

/-- A `Set` after `BeginWrite`. -/
structure SetCall where
  key : String
  value : String
  startTime : ℤ
  initialVersion : Int64

/-- How far a goroutine of `stressSets` has come. -/
inductive SetPhase where
  | asked (c : SetCall)
  | returned (c : SetCall) (err : Option String) (endTime : ℤ)
  /-- The outcome is logged, `CompleteWrite` comes next. -/
  | logged (c : SetCall) (err : Option String) (endTime : ℤ)
  | ended

/-- A line of the log. -/
inductive LogLine where
  /-- "get failed: ...". -/
  | getFailed (i : ℕ) (key err : String)
  /-- "get returned wrong answer: ...". -/
  | wrongAnswer (i : ℕ) (key : String) (err : ReadError)
  /-- "[sampled] get OK". -/
  | getOk (i : ℕ) (key : String)
  /-- "set failed: ...". -/
  | setFailed (key err : String)
  /-- "[sampled] set OK". -/
  | setOk (key : String)
deriving DecidableEq

structure StressTester where
  gets : UInt64
  getErrs : UInt64
  sets : UInt64
  setErrs : UInt64
  inconsistencies : UInt64
  cc : ConsistencyChecker
  getCalls : List GetPhase
  setCalls : List SetPhase
  log : List LogLine

/-- What can happen during a stress test. -/
inductive StressEvent where
  | startGet (key : String) (startTime : ℤ)
  | getReturns (i : ℕ) (res : Except String (String × Bool))
  /-- The answer of `errorLogLimiter`. -/
  | getFails (i : ℕ) (allow : Bool)
  | checkRead (i : ℕ) (now : ℤ)
  /-- The answers of `errorLogLimiter` and of `successLogLimiter`, as far as they are asked. -/
  | settle (i : ℕ) (allowError allowSuccess : Bool)
  | startSet (key value : String) (startTime : ℤ)
  | setReturns (i : ℕ) (err : Option String) (endTime : ℤ)
  /-- The answer of `errorLogLimiter` if the `Set` failed, of `successLogLimiter` otherwise. -/
  | logSet (i : ℕ) (allow : Bool)
  | completeWrite (i : ℕ) (now : ℤ)

namespace GetPhase

/-- The error of `CheckReadCorrect`, once it has returned. -/
def verdict : GetPhase → Option ReadError
  | checked _ err | ended err => err
  | _ => none

def isOver : GetPhase → Bool
  | ended _ => true
  | _ => false

/-- `CheckReadCorrect` has returned. -/
def isChecked : GetPhase → Bool
  | checked .. | ended _ => true
  | _ => false

/-- A `Get` for which `CheckReadCorrect` returned an error. -/
def isWrong (p : GetPhase) : Bool := p.verdict.isSome

/-- The same, and the goroutine is done with it. -/
def isSettledWrong (p : GetPhase) : Bool := p.isOver && p.verdict.isSome

theorem isOver_of_not_isChecked {p : GetPhase} (h : p.isChecked = false) : p.isOver = false := by
  cases p <;> first | rfl | cases h

theorem isWrong_of_not_isChecked {p : GetPhase} (h : p.isChecked = false) : p.isWrong = false := by
  cases p <;> first | rfl | cases h

end GetPhase

namespace StressTester

/-- `makeStressTester`. -/
def fresh : StressTester := ⟨0, 0, 0, 0, 0, makeConsistencyChecker, [], [], []⟩

/-- The end of a `Get` that was checked. -/
def settle (st : StressTester) (i : ℕ) (c : GetCall) (err : Option ReadError) (allowError allowSuccess : Bool) :
    StressTester :=
  let st := { st with getCalls := st.getCalls.set i (.ended err) }
  match err, allowError with
  | some e, true =>
    { st with inconsistencies := st.inconsistencies + 1, log := st.log ++ [.wrongAnswer i c.key e] }
  | _, _ => if allowSuccess then { st with log := st.log ++ [.getOk i c.key] } else st

/-- One step; `none` where the goroutine is not at that point, and at the panic of
`CompleteWrite`. -/
def step (flags : Flags) (ttl : ℤ) (st : StressTester) : StressEvent → Option StressTester
  | .startGet key startTime =>
    let r := st.cc.beginRead flags key
    some { st with getCalls := st.getCalls ++ [.asked ⟨key, startTime, r.1, r.2⟩] }
  | .getReturns i res =>
    match st.getCalls[i]? with
    | some (.asked c) =>
      match res with
      | .error err => some { st with gets := st.gets + 1, getCalls := st.getCalls.set i (.failed c err) }
      | .ok (val, wasFound) =>
        some { st with gets := st.gets + 1, getCalls := st.getCalls.set i (.answered c val wasFound) }
    | _ => none
  | .getFails i allow =>
    match st.getCalls[i]? with
    | some (.failed c err) =>
      some { st with
        getErrs := st.getErrs + 1
        getCalls := st.getCalls.set i .errored
        log := if allow then st.log ++ [.getFailed i c.key err] else st.log }
    | _ => none
  | .checkRead i now =>
    match st.getCalls[i]? with
    | some (.answered c val wasFound) =>
      let r := st.cc.checkReadCorrect flags c.key val wasFound c.startTime c.initialVersion c.writesPending now
      some { st with cc := r.1, getCalls := st.getCalls.set i (.checked c r.2) }
    | _ => none
  | .settle i allowError allowSuccess =>
    match st.getCalls[i]? with
    | some (.checked c err) => some (st.settle i c err allowError allowSuccess)
    | _ => none
  | .startSet key value startTime =>
    let r := st.cc.beginWrite flags key
    some { st with cc := r.1, setCalls := st.setCalls ++ [.asked ⟨key, value, startTime, r.2⟩] }
  | .setReturns i err endTime =>
    match st.setCalls[i]? with
    | some (.asked c) => some { st with sets := st.sets + 1, setCalls := st.setCalls.set i (.returned c err endTime) }
    | _ => none
  | .logSet i allow =>
    match st.setCalls[i]? with
    | some (.returned c err endTime) =>
      let st := { st with setCalls := st.setCalls.set i (.logged c err endTime) }
      match err with
      | some e =>
        some { st with
          setErrs := st.setErrs + 1
          log := if allow then st.log ++ [.setFailed c.key e] else st.log }
      | none => some { st with log := if allow then st.log ++ [.setOk c.key] else st.log }
    | _ => none
  | .completeWrite i now =>
    match st.setCalls[i]? with
    | some (.logged c err endTime) =>
      (st.cc.completeWrite flags c.key c.value err c.initialVersion (c.startTime + ttl) (endTime + ttl) now).map
        fun cc => { st with cc := cc, setCalls := st.setCalls.set i .ended }
    | _ => none

/-- `wait` has returned, as far as the `Get`s go. -/
def Finished (st : StressTester) : Prop := ∀ p ∈ st.getCalls, p = .errored ∨ ∃ err, p = .ended err

instance (st : StressTester) : Decidable st.Finished :=
  decidable_of_iff (∀ p ∈ st.getCalls, p = .errored ∨ p.isOver = true) <| by
    refine forall₂_congr fun p _ => or_congr_right ?_
    cases p <;> simp [GetPhase.isOver]

/-- The number of `Get`s for which `CheckReadCorrect` returned an error. -/
def wrongGets (st : StressTester) : ℕ := st.getCalls.countP GetPhase.isWrong

/-- The number of those for which it returned. -/
def checkedGets (st : StressTester) : ℕ := st.getCalls.countP GetPhase.isChecked

/-- The number `main` prints as that of the correct responses. -/
def correctResponses (st : StressTester) : UInt64 := st.cc.checksRun - st.inconsistencies

/-- The limiter of the error log does not refuse a wrong answer. -/
def Allowed (st : StressTester) (e : StressEvent) : Prop :=
  ∀ i allowSuccess c err, e = .settle i false allowSuccess → st.getCalls[i]? ≠ some (.checked c (some err))

end StressTester

/-! ### What the checker counts -/

theorem beginWrite_checksRun (flags : Flags) (cc : ConsistencyChecker) (key : String) :
    (cc.beginWrite flags key).1.checksRun = cc.checksRun := by
  rw [ConsistencyChecker.beginWrite]
  split_ifs <;> rfl

theorem completeWrite_checksRun {flags : Flags} {cc cc' : ConsistencyChecker} {key value : String}
    {err : Option String} {initialVersion : Int64} {maybeExpiredBy definitelyExpiredBy now : ℤ}
    (h : cc.completeWrite flags key value err initialVersion maybeExpiredBy definitelyExpiredBy now = some cc') :
    cc'.checksRun = cc.checksRun := by
  rw [ConsistencyChecker.completeWrite] at h
  split_ifs at h <;> obtain rfl := Option.some.inj h
  · rfl
  · simp only [ConsistencyChecker.record]
    split_ifs <;> rfl

/-- An error of `CheckReadCorrect` is that of a check that was counted. -/
theorem checkReadCorrect_checksRun (flags : Flags) (cc : ConsistencyChecker) (key value : String) (wasFound : Bool)
    (startTime : ℤ) (initialVersion : Int64) (writesPending : Bool) (now : ℤ) :
    ∃ n ≤ 1, (cc.checkReadCorrect flags key value wasFound startTime initialVersion writesPending now).1.checksRun =
        cc.checksRun + UInt64.ofNat n ∧
      (cc.checkReadCorrect flags key value wasFound startTime initialVersion writesPending now).2.isSome.toNat ≤ n := by
  simp only [ConsistencyChecker.checkReadCorrect]
  split_ifs
  · exact ⟨0, Nat.zero_le _, (UInt64.add_zero _).symm, le_rfl⟩
  · exact ⟨0, Nat.zero_le _, (UInt64.add_zero _).symm, le_rfl⟩
  · exact ⟨1, le_rfl, rfl, Bool.toNat_le _⟩

namespace StressTester

variable {flags : Flags} {ttl : ℤ} {st st' : StressTester} {e : StressEvent}

/-! ### The steps -/

/-- A step that settles no `Get`: what is reported stays, a `Get` found wrong is one more
check, no `Get` is logged as OK, and those over stay so. -/
structure Quiet (st st' : StressTester) : Prop where
  inconsistencies : st'.inconsistencies = st.inconsistencies
  settled : st'.getCalls.countP GetPhase.isSettledWrong = st.getCalls.countP GetPhase.isSettledWrong
  checks : ∃ n, st'.cc.checksRun = st.cc.checksRun + UInt64.ofNat n ∧ st'.wrongGets ≤ st.wrongGets + n ∧
    st.checkedGets + n ≤ st'.checkedGets
  ok : ∀ i key, .getOk i key ∈ st'.log → .getOk i key ∈ st.log
  ended : ∀ (i : ℕ) (err : Option ReadError), st.getCalls[i]? = some (.ended err) → st'.getCalls[i]? = some (.ended err)
  started : st.getCalls.length ≤ st'.getCalls.length

/-- Nothing about the `Get`s changes. -/
theorem Quiet.of_same (hcalls : st'.getCalls = st.getCalls) (hinc : st'.inconsistencies = st.inconsistencies)
    (hchecks : st'.cc.checksRun = st.cc.checksRun) (hlog : ∀ i key, .getOk i key ∈ st'.log → .getOk i key ∈ st.log) :
    Quiet st st' where
  inconsistencies := hinc
  settled := by rw [hcalls]
  checks := by
    rw [hchecks, wrongGets, wrongGets, checkedGets, checkedGets, hcalls]
    exact ⟨0, (UInt64.add_zero _).symm, le_rfl, le_rfl⟩
  ok := hlog
  ended i err h := by rw [hcalls, h]
  started := by rw [hcalls]

/-- A `Get` moves on, without coming to its end. -/
theorem Quiet.of_set {i : ℕ} {p p' : GetPhase} (hp : st.getCalls[i]? = some p) (hchecked : p.isChecked = false)
    (hover' : p'.isOver = false) (hcalls : st'.getCalls = st.getCalls.set i p')
    (hinc : st'.inconsistencies = st.inconsistencies)
    (hchecks : ∃ n, st'.cc.checksRun = st.cc.checksRun + UInt64.ofNat n ∧ p'.isWrong.toNat ≤ n ∧ n ≤ p'.isChecked.toNat)
    (hlog : ∀ i key, .getOk i key ∈ st'.log → .getOk i key ∈ st.log) : Quiet st st' where
  inconsistencies := hinc
  settled := by
    have hcount := countP_set_add GetPhase.isSettledWrong hp p'
    rwa [GetPhase.isSettledWrong, GetPhase.isSettledWrong, GetPhase.isOver_of_not_isChecked hchecked, hover',
      Bool.false_and, Bool.false_and, Nat.add_right_cancel_iff, ← hcalls] at hcount
  checks := by
    obtain ⟨n, hn, hwrong, hle⟩ := hchecks
    have hcount := countP_set_add GetPhase.isWrong hp p'
    rw [GetPhase.isWrong_of_not_isChecked hchecked, Bool.toNat_false, ← hcalls] at hcount
    have hcount' := countP_set_add GetPhase.isChecked hp p'
    rw [hchecked, Bool.toNat_false, ← hcalls] at hcount'
    rw [wrongGets, wrongGets, checkedGets, checkedGets]
    exact ⟨n, hn, by omega, by omega⟩
  ok := hlog
  ended j err h := by
    have hne : i ≠ j := by
      rintro rfl
      rw [hp, Option.some.injEq] at h
      rw [h] at hchecked
      cases hchecked
    rw [hcalls, List.getElem?_set_ne hne, h]
  started := by rw [hcalls, List.length_set]

/-- All that a step can do to what is counted. -/
theorem quiet_or_settle (h : st.step flags ttl e = some st') :
    (∀ i a b, e ≠ .settle i a b) ∧ Quiet st st' ∨
    ∃ i c err a b, e = .settle i a b ∧ st.getCalls[i]? = some (.checked c err) ∧ st' = st.settle i c err a b := by
  cases e with
  | startGet key startTime =>
    obtain rfl := Option.some.inj h
    refine .inl ⟨by simp, rfl, ?_, ⟨0, ?_, ?_, ?_⟩, fun _ _ h => h, fun i err h => ?_, ?_⟩
    · simp [GetPhase.isSettledWrong, GetPhase.isOver]
    · exact (UInt64.add_zero _).symm
    · simp [wrongGets, GetPhase.isWrong, GetPhase.verdict]
    · simp [checkedGets]
    · exact (List.getElem?_append_left (List.getElem?_eq_some_iff.mp h).1).trans h
    · simp
  | getReturns i res =>
    simp only [step] at h
    split at h
    · next c hc =>
      cases res with
      | error err | ok r =>
        obtain rfl := Option.some.inj h
        exact .inl ⟨by simp, .of_set hc rfl rfl rfl rfl ⟨0, (UInt64.add_zero _).symm, le_rfl, le_rfl⟩ fun _ _ h => h⟩
    · cases h
  | getFails i allow =>
    simp only [step] at h
    split at h
    · next c err hc =>
      obtain rfl := Option.some.inj h
      refine .inl ⟨by simp, .of_set hc rfl rfl rfl rfl ⟨0, (UInt64.add_zero _).symm, le_rfl, le_rfl⟩
        fun j key hlog => ?_⟩
      cases allow <;> simpa using hlog
    · cases h
  | checkRead i now =>
    simp only [step] at h
    split at h
    · next c val wasFound hc =>
      obtain rfl := Option.some.inj h
      obtain ⟨n, hle, hn, hwrong⟩ := checkReadCorrect_checksRun flags st.cc c.key val wasFound c.startTime
        c.initialVersion c.writesPending now
      exact .inl ⟨by simp, .of_set hc rfl rfl rfl rfl ⟨n, hn, hwrong, hle⟩ fun _ _ h => h⟩
    · cases h
  | settle i a b =>
    simp only [step] at h
    split at h
    · next c err hc => exact .inr ⟨i, c, err, a, b, rfl, hc, (Option.some.inj h).symm⟩
    · cases h
  | startSet key value startTime =>
    obtain rfl := Option.some.inj h
    exact .inl ⟨by simp, .of_same rfl rfl (beginWrite_checksRun ..) fun _ _ h => h⟩
  | setReturns i err endTime =>
    simp only [step] at h
    split at h
    · obtain rfl := Option.some.inj h
      exact .inl ⟨by simp, .of_same rfl rfl rfl fun _ _ h => h⟩
    · cases h
  | logSet i allow =>
    simp only [step] at h
    split at h
    · next c err endTime hc =>
      cases err with
      | some e | none =>
        obtain rfl := Option.some.inj h
        refine .inl ⟨by simp, .of_same rfl rfl rfl fun j key hlog => ?_⟩
        cases allow <;> simpa using hlog
    · cases h
  | completeWrite i now =>
    simp only [step] at h
    split at h
    · obtain ⟨cc, hcc, rfl⟩ := Option.map_eq_some_iff.mp h
      exact .inl ⟨by simp, .of_same rfl rfl (completeWrite_checksRun hcc) fun _ _ h => h⟩
    · cases h

section Settle

variable {i : ℕ} {c : GetCall} {err : Option ReadError} {a b : Bool}

theorem settle_getCalls : (st.settle i c err a b).getCalls = st.getCalls.set i (.ended err) := by
  rcases err with _ | err <;> cases a <;> cases b <;> rfl

theorem settle_checksRun : (st.settle i c err a b).cc.checksRun = st.cc.checksRun := by
  rcases err with _ | err <;> cases a <;> cases b <;> rfl

/-- A wrong answer is counted if it may be logged. -/
theorem settle_inconsistencies :
    (st.settle i c err a b).inconsistencies = st.inconsistencies + UInt64.ofNat (err.isSome && a).toNat := by
  rcases err with _ | err <;> cases a <;> cases b <;> first | rfl | exact (UInt64.add_zero _).symm

/-- It is one more that is over. -/
theorem settle_settled (hc : st.getCalls[i]? = some (.checked c err)) :
    (st.settle i c err a b).getCalls.countP GetPhase.isSettledWrong =
      st.getCalls.countP GetPhase.isSettledWrong + err.isSome.toNat := by
  rw [settle_getCalls]
  exact countP_set_add GetPhase.isSettledWrong hc (.ended err)

theorem settle_wrongGets (hc : st.getCalls[i]? = some (.checked c err)) :
    (st.settle i c err a b).wrongGets = st.wrongGets := by
  rw [wrongGets, settle_getCalls]
  exact countP_set_of_eq GetPhase.isWrong hc (.ended err) rfl

theorem settle_checkedGets (hc : st.getCalls[i]? = some (.checked c err)) :
    (st.settle i c err a b).checkedGets = st.checkedGets := by
  rw [checkedGets, settle_getCalls]
  exact countP_set_of_eq GetPhase.isChecked hc (.ended err) rfl

end Settle

/-- No `Get` is forgotten. -/
theorem length_getCalls_step (h : st.step flags ttl e = some st') : st.getCalls.length ≤ st'.getCalls.length := by
  rcases quiet_or_settle h with ⟨-, hq⟩ | ⟨i, c, err, a, b, -, -, rfl⟩
  · exact hq.started
  · rw [settle_getCalls, List.length_set]

/-! ### The counts along a run -/

/-- Every wrong `Get` was checked, and no more are reported than are over. -/
structure Counted (st : StressTester) : Prop where
  wrong : st.wrongGets ≤ st.cc.checksRun.toNat
  checks : st.cc.checksRun.toNat ≤ st.checkedGets
  reported : st.inconsistencies.toNat ≤ st.getCalls.countP GetPhase.isSettledWrong

theorem Counted.init : Counted fresh := ⟨Nat.le_refl _, Nat.le_refl _, Nat.le_refl _⟩

/-- The report does not wrap. -/
theorem Counted.settle_reported (hst : Counted st) (hbound : st.getCalls.length < 2 ^ 64) {i : ℕ} {c : GetCall}
    {err : Option ReadError} {a b : Bool} (hc : st.getCalls[i]? = some (.checked c err)) :
    (st.settle i c err a b).inconsistencies.toNat = st.inconsistencies.toNat + (err.isSome && a).toNat := by
  rw [settle_inconsistencies]
  refine toNat_add_ofNat ?_
  have hreported := hst.reported
  have hsettled := settle_settled (a := a) (b := b) hc
  have hlength : (st.settle i c err a b).getCalls.countP GetPhase.isSettledWrong ≤ st.getCalls.length := by
    rw [settle_getCalls, ← List.length_set (i := i) (a := .ended err)]
    exact List.countP_le_length
  have : (err.isSome && a).toNat ≤ err.isSome.toNat := by cases err.isSome <;> cases a <;> decide
  omega

theorem Counted.step (hst : Counted st) (hbound : st'.getCalls.length < 2 ^ 64) (h : st.step flags ttl e = some st') :
    Counted st' := by
  have hlength := length_getCalls_step h
  obtain ⟨hwrong, hchecks, hreported⟩ := id hst
  rcases quiet_or_settle h with ⟨-, hq⟩ | ⟨i, c, err, a, b, rfl, hc, rfl⟩
  · obtain ⟨n, hn, hwrong', hchecks'⟩ := hq.checks
    have hle : st'.checkedGets ≤ st'.getCalls.length := List.countP_le_length
    have htoNat : st'.cc.checksRun.toNat = st.cc.checksRun.toNat + n := by
      rw [hn]
      exact toNat_add_ofNat (by omega)
    refine ⟨by omega, by omega, ?_⟩
    rw [hq.inconsistencies, hq.settled]
    exact hreported
  · refine ⟨?_, ?_, ?_⟩
    · rwa [settle_wrongGets hc, settle_checksRun]
    · rwa [settle_checkedGets hc, settle_checksRun]
    · rw [hst.settle_reported (by omega) hc, settle_settled hc]
      have : (err.isSome && a).toNat ≤ err.isSome.toNat := by cases err.isSome <;> cases a <;> decide
      omega

theorem Counted.of_run {events : List StressEvent} (hbound : st.getCalls.length < 2 ^ 64)
    (h : run (StressTester.step flags ttl) .fresh events = some st) : Counted st := by
  refine run_inductive (I := fun st : StressTester => st.getCalls.length < 2 ^ 64 → Counted st)
    (fun st e st' hst hs hlt => ?_) (fun _ => .init) h hbound
  exact (hst ((length_getCalls_step hs).trans_lt hlt)).step hlt hs

/-- A `Get` that is over and wrong was checked. -/
theorem settled_le_wrongGets (st : StressTester) : st.getCalls.countP GetPhase.isSettledWrong ≤ st.wrongGets :=
  List.countP_mono_left fun _ _ h => (Bool.and_eq_true_iff.mp h).2

/-- Where all are over, those are all. -/
theorem Finished.settled_eq (hst : st.Finished) : st.getCalls.countP GetPhase.isSettledWrong = st.wrongGets := by
  refine List.countP_congr fun p hp => ?_
  obtain rfl | ⟨err, rfl⟩ := hst p hp
  · rfl
  · rw [GetPhase.isSettledWrong, GetPhase.isWrong, GetPhase.isOver, Bool.true_and]

/-- Nothing missed so far: every wrong `Get` that is over has been counted. -/
def Complete (st : StressTester) : Prop := st.getCalls.countP GetPhase.isSettledWrong = st.inconsistencies.toNat

/-- Every `Get` logged as OK was right. -/
def LogsRight (st : StressTester) : Prop := ∀ i key, .getOk i key ∈ st.log → st.getCalls[i]? = some (.ended none)

/-- With a limiter that allows it, a `Get` is counted when it should be, and only logged as OK
when it is. -/
theorem complete_step (hst : Counted st) (hbound : st.getCalls.length < 2 ^ 64) (hcomplete : Complete st)
    (hlogs : LogsRight st) (hallowed : Allowed st e) (h : st.step flags ttl e = some st') :
    Complete st' ∧ LogsRight st' := by
  rcases quiet_or_settle h with ⟨-, hq⟩ | ⟨i, c, err, a, b, rfl, hc, rfl⟩
  · refine ⟨?_, fun j key hlog => hq.ended j none (hlogs j key (hq.ok j key hlog))⟩
    rw [Complete, hq.settled, hq.inconsistencies]
    exact hcomplete
  · have hlt : i < st.getCalls.length := (List.getElem?_eq_some_iff.mp hc).1
    have hkeep : ∀ j key, .getOk j key ∈ st.log →
        (st.settle i c err a b).getCalls[j]? = some (.ended none) := fun j key hlog => by
      have hj := hlogs j key hlog
      have hne : i ≠ j := by
        rintro rfl
        rw [hc] at hj
        cases hj
      rw [settle_getCalls, List.getElem?_set_ne hne, hj]
    cases err with
    | none =>
      refine ⟨?_, fun j key hlog => ?_⟩
      · rw [Complete, settle_settled hc, hst.settle_reported hbound hc]
        exact hcomplete
      cases b with
      | false => exact hkeep j key (by simpa [settle] using hlog)
      | true =>
        rcases (by simpa [settle] using hlog : LogLine.getOk j key ∈ st.log ∨ j = i ∧ key = c.key) with hlog | ⟨rfl, -⟩
        · exact hkeep j key hlog
        · rw [settle_getCalls, List.getElem?_set_self hlt]
    | some e =>
      cases a with
      | false => exact absurd hc (hallowed i b c e rfl)
      | true =>
        refine ⟨?_, fun j key hlog => hkeep j key (by simpa [settle] using hlog)⟩
        rw [Complete, settle_settled hc, hst.settle_reported hbound hc, hcomplete]
        rfl

/-- What was missed stays missed. -/
theorem complete_of_step (hst : Counted st) (hbound : st.getCalls.length < 2 ^ 64)
    (h : st.step flags ttl e = some st') (hst' : Complete st') : Complete st ∧ Allowed st e := by
  have hreported := hst.reported
  rcases quiet_or_settle h with ⟨hne, hq⟩ | ⟨i, c, err, a, b, rfl, hc, rfl⟩
  · rw [Complete, hq.settled, hq.inconsistencies] at hst'
    exact ⟨hst', fun i b c err he => absurd he (hne i false b)⟩
  · rw [Complete, settle_settled hc, hst.settle_reported hbound hc] at hst'
    cases a with
    | false =>
      rw [Bool.and_false, Bool.toNat_false] at hst'
      have hnone : err.isSome.toNat = 0 := by omega
      refine ⟨by rw [Complete]; omega, ?_⟩
      rintro j b' c' e' ⟨⟩ hc'
      rw [hc, Option.some.injEq, GetPhase.checked.injEq] at hc'
      rw [hc'.2] at hnone
      cases hnone
    | true =>
      rw [Bool.and_true] at hst'
      refine ⟨Nat.add_right_cancel hst', ?_⟩
      rintro j b' c' e' ⟨⟩

/-- A run at whose end nothing is missed was allowed to log every wrong answer. -/
theorem along_allowed_of_complete {events : List StressEvent} (hst : Counted st)
    (hbound : st'.getCalls.length < 2 ^ 64) (h : run (StressTester.step flags ttl) st events = some st')
    (hst' : Complete st') : Complete st ∧ Along (StressTester.step flags ttl) Allowed st events := by
  induction events generalizing st with
  | nil =>
    rw [run_nil, Option.some.injEq] at h
    exact ⟨h ▸ hst', trivial⟩
  | cons e events ih =>
    obtain ⟨u, hu, h⟩ := (run_cons_iff _).mp h
    have hlater : u.getCalls.length ≤ st'.getCalls.length :=
      run_inductive (I := fun v : StressTester => u.getCalls.length ≤ v.getCalls.length)
        (fun _ _ _ hle hs => hle.trans (length_getCalls_step hs)) le_rfl h
    obtain ⟨hcomplete, hrest⟩ := ih (hst.step (hlater.trans_lt hbound) hu) h
    obtain ⟨hcomplete, hallowed⟩ := complete_of_step hst
      (((length_getCalls_step hu).trans hlater).trans_lt hbound) hu hcomplete
    exact ⟨hcomplete, (along_cons_iff _ hu).mpr ⟨hallowed, hrest⟩⟩

/-! ### The report -/

/-- **What is printed.** With fewer than `2 ^ 64` `Get`s, the number of inconsistencies never exceeds
that of the checks, so their difference does not wrap. At the end it is the number of `Get`s for
which `CheckReadCorrect` returned an error, and none of these is logged as OK, exactly if the limiter
of the error log refused none of them. -/
theorem inconsistencies_reported_iff {events : List StressEvent}
    (h : run (StressTester.step flags ttl) .fresh events = some st) (hbound : st.getCalls.length < 2 ^ 64) :
    st.inconsistencies ≤ st.cc.checksRun ∧
    st.correctResponses.toNat = st.cc.checksRun.toNat - st.inconsistencies.toNat ∧
    (st.Finished →
      ((st.inconsistencies.toNat = st.wrongGets ∧
          ∀ i key, .getOk i key ∈ st.log → st.getCalls[i]? = some (.ended none)) ↔
        Along (StressTester.step flags ttl) Allowed .fresh events)) := by
  have hcounted := Counted.of_run hbound h
  have hle : st.inconsistencies ≤ st.cc.checksRun :=
    UInt64.le_iff_toNat_le.mpr (hcounted.reported.trans ((settled_le_wrongGets st).trans hcounted.wrong))
  refine ⟨hle, UInt64.toNat_sub_of_le _ _ hle, fun hdone => ⟨fun hexact => ?_, fun hallowed => ?_⟩⟩
  · have hcomplete : Complete st := hdone.settled_eq.trans hexact.1.symm
    exact (along_allowed_of_complete .init hbound h hcomplete).2
  · have hinit : Counted fresh ∧ Complete fresh ∧ LogsRight fresh :=
      ⟨.init, rfl, fun _ _ hlog => absurd hlog List.not_mem_nil⟩
    obtain ⟨-, hcomplete, hlogs⟩ := run_invariant
      (I := fun st => st.getCalls.length < 2 ^ 64 → Counted st ∧ Complete st ∧ LogsRight st)
      (fun st e st' hst hallowed hs hlt => by
        have hearlier := (length_getCalls_step hs).trans_lt hlt
        obtain ⟨hcounted, hcomplete, hlogs⟩ := hst hearlier
        exact ⟨hcounted.step hlt hs, complete_step hcounted hearlier hcomplete hlogs hallowed hs⟩)
      hallowed (fun _ => hinit) h hbound
    exact ⟨hcomplete.symm.trans hdone.settled_eq, hlogs⟩

/-! #### A value that was never written is read -/

/-- `Set` of `a` on the key `k`, and a `Get` that returns `b`; the limiter of the error log answers
`allow`, that of the success log allows. -/
def readNeverWritten (allow : Bool) : List StressEvent :=
  [.startSet "k" "a" 0, .setReturns 0 none 1, .logSet 0 false, .completeWrite 0 2,
   .startGet "k" 3, .getReturns 0 (.ok ("b", true)), .checkRead 0 4, .settle 0 allow true]

def afterNeverWritten (allow : Bool) : Option StressTester :=
  run (StressTester.step ⟨true, true, 0⟩ 2000) .fresh (readNeverWritten allow)

def reported : StressTester := (afterNeverWritten true).get (by decide +kernel)

/-- Allowed: the inconsistency is counted. -/
theorem inconsistencies_reported_iff_allowed : reported.Finished ∧ reported.wrongGets = 1 ∧
    reported.inconsistencies = 1 ∧
    Along (StressTester.step ⟨true, true, 0⟩ 2000) Allowed .fresh (readNeverWritten true) := by
  have hrun : afterNeverWritten true = some reported := run_eq_some_get _ _
  have hdone : reported.Finished := by decide +kernel
  have hwrong : reported.wrongGets = 1 := by decide +kernel
  have hinc : reported.inconsistencies = 1 := by decide +kernel
  have hlog : reported.log = [.wrongAnswer 0 "k" .neverWritten] := by decide +kernel
  refine ⟨hdone, hwrong, hinc, ((inconsistencies_reported_iff hrun (by decide +kernel)).2.2 hdone).mp ⟨?_, ?_⟩⟩
  · rw [hinc, hwrong]
    rfl
  · simp [hlog]

def unreported : StressTester := (afterNeverWritten false).get (by decide +kernel)

/-- Refused: the inconsistency is not counted, and the `Get` is logged as OK. -/
theorem inconsistency_logged_ok : afterNeverWritten false = some unreported ∧ unreported.Finished ∧
    unreported.wrongGets = 1 ∧ unreported.inconsistencies = 0 ∧
    unreported.getCalls[0]? = some (.ended (some .neverWritten)) ∧ .getOk 0 "k" ∈ unreported.log :=
  ⟨run_eq_some_get _ _, by decide +kernel, by decide +kernel, by decide +kernel, by decide +kernel,
    by decide +kernel⟩

end StressTester

end Cs426.Checker

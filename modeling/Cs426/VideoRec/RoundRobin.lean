import Mathlib.Algebra.Order.Ring.Int
import Cs426.Lib.Counting
import Cs426.Lib.Machine
import Cs426.Lib.Striping

/-!
# Choosing a connection in turn

`getClientRoundRobin` (`lab1/video_rec_service/server_lib/server_lib.go`), which every request
calls once for the user service and once for the video service.

## The model

Any number of calls run at the same time. The counter of a pool is loaded by one atomic
operation and increased by another, so a call is there, has loaded and chosen, or has returned.
A connection is named by its place in its pool. The counters are `int64`, and `int` has 64 bits;
an empty pool, and a negative index, make the call panic.

## What is proved

* `round_robin_balanced` — if no call loads a counter while another call of its kind is between
  its load and its add, then, once all calls of that kind have returned, no two connections of
  the pool were chosen numbers of times that differ by more than one.
* `round_robin_races` — two calls that load before either adds choose the same connection.

The counter itself loses no update: it is always the number of calls that have returned
(`Counted`). What it is loaded as is the turn of a call only if all calls before have added.
-/

namespace Cs426.VideoRec

open Cs426.Machine Cs426.Counting Cs426.Striping

/-- How far a call of `getClientRoundRobin(server, user)` has come. -/
inductive RobinCall where
  | called (user : Bool)
  /-- Has loaded the counter and chosen the client. -/
  | loaded (user : Bool) (client : ℕ)
  | returned (user : Bool) (client : ℕ)
deriving DecidableEq

namespace RobinCall

def user : RobinCall → Bool
  | called user | loaded user _ | returned user _ => user

/-- The call has chosen. -/
def hasLoaded (kind : Bool) : RobinCall → Bool
  | called _ => false
  | loaded user _ | returned user _ => user == kind

/-- The call has chosen this client. -/
def chose (kind : Bool) (j : ℕ) : RobinCall → Bool
  | called _ => false
  | loaded user client | returned user client => user == kind && client == j

def hasReturned (kind : Bool) : RobinCall → Bool
  | returned user _ => user == kind
  | _ => false

end RobinCall

/-- The lengths of the pools, their counters, and the calls so far. -/
structure Robin where
  userConnPool : ℕ
  videoConnPool : ℕ
  userRobinCount : Int64
  videoRobinCount : Int64
  calls : List RobinCall

/-- What can happen. -/
inductive RobinMove where
  /-- `getClientRoundRobin` is called. -/
  | call (user : Bool)
  /-- `atomic.LoadInt64`, and the choice. -/
  | load (i : ℕ)
  /-- `atomic.AddInt64`, and the return. -/
  | add (i : ℕ)

namespace Robin

def fresh (userConnPool videoConnPool : ℕ) : Robin := ⟨userConnPool, videoConnPool, 0, 0, []⟩

def connPool (s : Robin) (user : Bool) : ℕ := if user then s.userConnPool else s.videoConnPool

def robinCount (s : Robin) (user : Bool) : Int64 := if user then s.userRobinCount else s.videoRobinCount

def addRobinCount (s : Robin) (user : Bool) : Robin :=
  if user then { s with userRobinCount := s.userRobinCount + 1 }
  else { s with videoRobinCount := s.videoRobinCount + 1 }

/-- `pool[index % len(pool)]`. -/
def choose (len : ℕ) (index : ℤ) : Option ℕ :=
  if len = 0 then none
  else if index.tmod len < 0 then none
  else some (index.tmod len).toNat

/-- One step; there is none where the call panics. -/
def step (s : Robin) : RobinMove → Option Robin
  | .call user => some { s with calls := s.calls ++ [.called user] }
  | .load i =>
    match s.calls[i]? with
    | some (.called user) =>
      (choose (s.connPool user) (s.robinCount user).toInt).map fun client =>
        { s with calls := s.calls.set i (.loaded user client) }
    | _ => none
  | .add i =>
    match s.calls[i]? with
    | some (.loaded user client) => some ({ s with calls := s.calls.set i (.returned user client) }.addRobinCount user)
    | _ => none

/-- How often the calls that have returned chose this connection. -/
def timesChosen (s : Robin) (user : Bool) (j : ℕ) : ℕ := s.calls.count (.returned user j)

/-- A call of this kind loads only when no other is between its load and its add. -/
def Serial (user : Bool) (s : Robin) : RobinMove → Prop
  | .load i => s.calls[i]? = some (.called user) → ∀ c ∈ s.calls, c.hasLoaded user = true → c.hasReturned user = true
  | _ => True

instance (user : Bool) (s : Robin) (l : RobinMove) : Decidable (Serial user s l) := by
  cases l <;> unfold Serial <;> infer_instance

variable {s s' : Robin} {user : Bool}

@[simp] theorem calls_addRobinCount (s : Robin) (user : Bool) : (s.addRobinCount user).calls = s.calls := by
  cases user <;> rfl

@[simp] theorem connPool_addRobinCount (s : Robin) (user kind : Bool) :
    (s.addRobinCount user).connPool kind = s.connPool kind := by
  cases user <;> rfl

theorem robinCount_addRobinCount (s : Robin) (user kind : Bool) :
    (s.addRobinCount user).robinCount kind = s.robinCount kind + if user = kind then 1 else 0 := by
  cases user <;> cases kind <;> simp [addRobinCount, robinCount]

theorem choose_natCast {len : ℕ} (hlen : 0 < len) (index : ℕ) : choose len index = some (index % len) := by
  have hmod : (index : ℤ).tmod len = ((index % len : ℕ) : ℤ) := by
    rw [Int.ofNat_tmod]
  rw [choose, if_neg (by omega), hmod, if_neg (by omega), Int.toNat_natCast]

/-- What a step does to the calls. -/
inductive CallsChange (s s' : Robin) : RobinMove → Prop
  | call {user : Bool} : s'.calls = s.calls ++ [.called user] → s'.robinCount = s.robinCount →
      CallsChange s s' (.call user)
  | load {i : ℕ} {user : Bool} {client : ℕ} : s.calls[i]? = some (.called user) →
      choose (s.connPool user) (s.robinCount user).toInt = some client →
      s'.calls = s.calls.set i (.loaded user client) → s'.robinCount = s.robinCount → CallsChange s s' (.load i)
  | add {i : ℕ} {user : Bool} {client : ℕ} : s.calls[i]? = some (.loaded user client) →
      s'.calls = s.calls.set i (.returned user client) →
      (∀ kind, s'.robinCount kind = s.robinCount kind + if user = kind then 1 else 0) → CallsChange s s' (.add i)

theorem step_cases {l : RobinMove} (h : s.step l = some s') :
    s'.connPool = s.connPool ∧ s.CallsChange s' l := by
  cases l with
  | call user =>
    cases h
    exact ⟨rfl, .call rfl rfl⟩
  | load i =>
    simp only [step] at h
    split at h
    · next user hi =>
      obtain ⟨client, hclient, rfl⟩ := Option.map_eq_some_iff.mp h
      exact ⟨rfl, .load hi hclient rfl rfl⟩
    · cases h
  | add i =>
    simp only [step] at h
    split at h
    · next user client hi =>
      cases h
      exact ⟨funext fun kind => connPool_addRobinCount _ user kind,
        .add hi (calls_addRobinCount _ user) fun kind => robinCount_addRobinCount _ user kind⟩
    · cases h

/-! ### No update is lost -/

/-- The counter is the number of calls that have returned. -/
def Counted (user : Bool) (s : Robin) : Prop :=
  (s.robinCount user).toInt = s.calls.countP (RobinCall.hasReturned user)

/-- The number of calls of this kind. -/
def numCalls (s : Robin) (user : Bool) : ℕ := s.calls.countP fun c => c.user == user

theorem countP_hasReturned_le (s : Robin) (user : Bool) :
    s.calls.countP (RobinCall.hasReturned user) ≤ s.numCalls user := by
  refine List.countP_mono_left fun c _ h => ?_
  cases c with
  | called _ | loaded _ _ => cases h
  | returned _ _ => exact h

theorem numCalls_step {l : RobinMove} (h : s.step l = some s') : s.numCalls user ≤ s'.numCalls user := by
  cases (step_cases h).2 with
  | call hcalls =>
    rw [numCalls, numCalls, hcalls, List.countP_append]
    exact Nat.le_add_right _ _
  | @load i kind client hi _ hcalls =>
    rw [numCalls, numCalls, hcalls, countP_set_of_eq _ hi (.loaded kind client) rfl]
  | @add i kind client hi hcalls =>
    rw [numCalls, numCalls, hcalls, countP_set_of_eq _ hi (.returned kind client) rfl]

theorem Counted.step {l : RobinMove} (hC : s.Counted user) (h : s.step l = some s')
    (hlt : s'.numCalls user < 2 ^ 63) : s'.Counted user := by
  have hle := s'.countP_hasReturned_le user
  unfold Counted at hC ⊢
  cases (step_cases h).2 with
  | call hcalls hcount =>
    rw [hcount, hC, hcalls, List.countP_append]
    rfl
  | @load i kind client hi _ hcalls hcount =>
    rw [hcount, hC, hcalls, countP_set_of_eq _ hi (.loaded kind client) rfl]
  | @add i kind client hi hcalls hcount =>
    have hset := countP_set_add (RobinCall.hasReturned user) hi (.returned kind client)
    rw [← hcalls] at hset
    rw [hcount]
    split_ifs with hkind
    · -- the addition does not wrap
      have hnew : s'.calls.countP (RobinCall.hasReturned user) = s.calls.countP (RobinCall.hasReturned user) + 1 := by
        simpa [RobinCall.hasReturned, hkind] using hset
      rw [Int64.toInt_add, hC, show (1 : Int64).toInt = 1 from rfl, hnew]
      exact Int.bmod_eq_of_le (by omega) (by omega)
    · have hne : (kind == user) = false := by simpa using hkind
      rw [Int64.add_zero, hC, hcalls, countP_set_of_eq _ hi (.returned kind client) hne]

/-! ### Turns -/

/-- The calls that have chosen took their turns. -/
def Striped (user : Bool) (s : Robin) : Prop :=
  ∀ j, s.calls.countP (RobinCall.chose user j) =
    (stripe (s.connPool user) 0 (s.calls.countP (RobinCall.hasLoaded user))).count j

/-- Where all calls that have loaded have returned, the counter is the number of choices made. -/
theorem countP_hasLoaded (hall : ∀ c ∈ s.calls, c.hasLoaded user = true → c.hasReturned user = true) :
    s.calls.countP (RobinCall.hasLoaded user) = s.calls.countP (RobinCall.hasReturned user) := by
  refine List.countP_congr fun c hc => ⟨hall c hc, fun h => ?_⟩
  cases c with
  | called _ | loaded _ _ => cases h
  | returned _ _ => exact h

theorem Striped.step {l : RobinMove} (hpos : 0 < s.connPool user) (hC : s.Counted user) (hS : s.Striped user)
    (hl : Serial user s l) (h : s.step l = some s') : s'.Striped user := by
  obtain ⟨hpool, hchange⟩ := step_cases h
  intro j
  have hSj := hS j
  rw [hpool]
  cases hchange with
  | call hcalls =>
    rw [hcalls, List.countP_append, List.countP_append]
    exact hSj
  | @add i kind client hi hcalls =>
    rw [hcalls, countP_set_of_eq (RobinCall.chose user j) hi (.returned kind client) rfl,
      countP_set_of_eq (RobinCall.hasLoaded user) hi (.returned kind client) rfl]
    exact hSj
  | @load i kind client hi hclient hcalls =>
    rw [hcalls]
    by_cases hkind : kind = user
    · subst hkind
      -- the counter is the number of choices so far, so this one is next
      have hturn : s.calls.countP (RobinCall.hasLoaded kind) = s.calls.countP (RobinCall.hasReturned kind) :=
        countP_hasLoaded (hl hi)
      rw [hC, ← hturn, choose_natCast hpos, Option.some.injEq] at hclient
      have hloaded := countP_set_add (RobinCall.hasLoaded kind) hi (.loaded kind client)
      have hchose := countP_set_add (RobinCall.chose kind j) hi (.loaded kind client)
      simp only [RobinCall.hasLoaded, RobinCall.chose, beq_self_eq_true, Bool.true_and, Bool.toNat_false,
        Bool.toNat_true, Nat.add_zero] at hloaded hchose
      rw [hloaded, hchose, hSj, stripe_succ, List.count_append, Nat.zero_add, hclient, List.count_singleton]
      cases client == j <;> rfl
    · have hne : (kind == user) = false := by simpa using hkind
      rw [countP_set_of_eq _ hi (.loaded kind client) (by simp [RobinCall.chose, hne]),
        countP_set_of_eq _ hi (.loaded kind client) (by simp [RobinCall.hasLoaded, hne])]
      exact hSj

/-- What holds along a serial run, as long as the calls can be counted. -/
def Inv (user : Bool) (s : Robin) : Prop :=
  0 < s.connPool user ∧ (s.numCalls user < 2 ^ 63 → s.Counted user ∧ s.Striped user)

theorem Inv.step {l : RobinMove} (hI : s.Inv user) (hl : Serial user s l) (h : s.step l = some s') :
    s'.Inv user := by
  obtain ⟨hpos, hI⟩ := hI
  refine ⟨(step_cases h).1 ▸ hpos, fun hlt => ?_⟩
  obtain ⟨hC, hS⟩ := hI ((numCalls_step h).trans_lt hlt)
  exact ⟨hC.step h hlt, hS.step hpos hC hl h⟩

/-- **Round robin, one at a time.** If a call of a kind loads the counter only when no other is
between its load and its add, then, once the calls of that kind have returned, any two connections
of the pool were chosen equally often, or one of them once more. -/
theorem round_robin_balanced {userConnPool videoConnPool : ℕ} {ls : List RobinMove}
    (hpos : 0 < (fresh userConnPool videoConnPool).connPool user)
    (hserial : Along Robin.step (Serial user) (fresh userConnPool videoConnPool) ls)
    (h : run Robin.step (fresh userConnPool videoConnPool) ls = some s)
    (hlt : s.numCalls user < 2 ^ 63)
    (hret : ∀ c ∈ s.calls, c.user = user → c.hasReturned user = true) :
    ∀ i < s.connPool user, ∀ j < s.connPool user, s.timesChosen user i ≤ s.timesChosen user j + 1 := by
  have hfresh : (fresh userConnPool videoConnPool).Inv user := by
    refine ⟨hpos, fun _ => ⟨?_, fun j => rfl⟩⟩
    cases user <;> rfl
  have hI : s.Inv user := run_invariant (fun _ _ _ hI hl hs => hI.step hl hs) hserial hfresh h
  have hS := (hI.2 hlt).2
  have htimes (j : ℕ) : s.timesChosen user j = s.calls.countP (RobinCall.chose user j) := by
    refine List.countP_congr fun c hc => ?_
    cases c with
    | called kind | returned kind client => simp [RobinCall.chose]
    | loaded kind client =>
      refine iff_of_false (by simp) fun hchose => ?_
      have hkind : kind = user := (by simpa [RobinCall.chose] using hchose : kind = user ∧ client = j).1
      cases hret _ hc hkind
  intro i hi j hj
  rw [htimes, htimes, hS, hS]
  exact count_stripe_le hi hj

/-- Four calls for a user connection, one after the other, and one for a video connection in
between, with pools of three. -/
def oneByOne : List RobinMove :=
  [.call true, .load 0, .add 0, .call true, .call false, .load 1, .load 2, .add 1, .call true, .load 3, .add 2,
    .add 3, .call true, .load 4, .add 4]

def afterOneByOne : Robin := (run Robin.step (fresh 3 3) oneByOne).get (by decide)

theorem round_robin_balanced_oneByOne :
    afterOneByOne.calls = [.returned true 0, .returned true 1, .returned false 0, .returned true 2, .returned true 0] ∧
      afterOneByOne.timesChosen true 0 ≤ afterOneByOne.timesChosen true 2 + 1 := by
  have hserial : Along Robin.step (Serial true) (fresh 3 3) oneByOne := by decide
  have hrun : run Robin.step (fresh 3 3) oneByOne = some afterOneByOne := run_eq_some_get _ _
  exact ⟨by decide, round_robin_balanced (by decide) hserial hrun (by decide) (by decide) 0 (by decide) 2 (by decide)⟩

/-- **Round robin races.** Two calls load before either adds: both choose the first of three
connections, and the others are never chosen. -/
theorem round_robin_races :
    ∃ s, run Robin.step (fresh 3 3) [.call true, .call true, .load 0, .load 1, .add 0, .add 1] = some s ∧
      s.calls = [.returned true 0, .returned true 0] ∧
      ¬ s.timesChosen true 0 ≤ s.timesChosen true 1 + 1 :=
  ⟨_, rfl, rfl, by decide⟩

end Robin

end Cs426.VideoRec

import Cs426.Checker.Basic
import Cs426.Lib.Counting

/-!
# What the version and the count of a key tell

The checker never sees which calls overlap. It has, for each key, the number of writes that
were completed (`version`) and the number of those begun and not completed (`rc`), both in 64
bits, and it compares the version at the start of an operation with the version at its end. This
module proves what that is worth: along every history,

* `Inv.replaces_of_isolated` — `CompleteWrite` takes a write for the only correct value if it
  succeeded and overlapped no other write of its key;
* `Inv.checked_of_quiet` — `CheckReadCorrect` checks a read if no write of its key overlapped it;
* `Inv.isolated_of_replaces`, `Inv.quiet_of_checked` — and only then, as long as the numbers do
  not wrap around.
-/

namespace Cs426.Checker

open Cs426.Machine Cs426.Counting

namespace History

variable {flags : Flags} {h h' : History}

/-! ### The calls, one by one -/

/-- A write as `BeginWrite` leaves it. -/
def newWrite (h : History) (key value : String) (maybeExpiredBy definitelyExpiredBy : ℤ) : WriteOp :=
  ⟨key, value, maybeExpiredBy, definitelyExpiredBy, h.cc.version key, h.tick, none, none⟩

/-- A write as `CompleteWrite` leaves it. -/
def endWrite (h : History) (w : WriteOp) (err : Option String) : WriteOp :=
  { w with ended := some h.tick, err := err }

/-- What is recorded of it. -/
def newVal (flags : Flags) (w : WriteOp) (err : Option String) (now : ℤ) : StateValue :=
  ⟨w.value, now, w.maybeExpiredBy, w.definitelyExpiredBy + flags.ttlCheckBuffer, err⟩

theorem step_beginWrite_iff (hc : flags.checkCorrectness = true) {key value : String} {mb db : ℤ} :
    h.step flags (.beginWrite key value mb db) = some h' ↔
      (∀ w ∈ h.writes, w.key = key → w.value ≠ value) ∧
      h' = { h with
        cc := { h.cc with rc := Function.update h.cc.rc key (h.cc.rc key + 1) }
        writes := h.writes ++ [h.newWrite key value mb db]
        tick := h.tick + 1 } := by
  simp only [step, ConsistencyChecker.beginWrite, hc, newWrite, Bool.true_eq_false, if_false,
    Option.ite_none_right_eq_some, Option.some.injEq, eq_comm (a := h')]

theorem step_completeWrite_iff (hc : flags.checkCorrectness = true) {i : ℕ} {err : Option String} {now : ℤ} :
    h.step flags (.completeWrite i err now) = some h' ↔ ∃ w, h.writes[i]? = some w ∧ w.ended = none ∧
      w.value ∉ h.cc.values w.key ∧ w.value ∉ h.cc.overwrittenValues w.key ∧
      h' = { h with
        cc := h.cc.record w.key (newVal flags w err now) w.initialVersion
        writes := h.writes.set i (h.endWrite w err)
        tick := h.tick + 1 } := by
  simp only [step, ConsistencyChecker.completeWrite, hc, Bool.true_eq_false, if_false, Option.bind_eq_some_iff,
    Option.ite_none_right_eq_some, Option.map_eq_some_iff, Option.ite_none_left_eq_some, Option.some.injEq,
    newVal, endWrite]
  constructor
  · rintro ⟨w, hw, hend, cc, ⟨hv, ho, rfl⟩, rfl⟩
    exact ⟨w, hw, hend, hv, ho, rfl⟩
  · rintro ⟨w, hw, hend, hv, ho, rfl⟩
    exact ⟨w, hw, hend, _, ⟨hv, ho, rfl⟩, rfl⟩

theorem step_beginRead_iff (hc : flags.checkCorrectness = true) {key : String} {startTime : ℤ} :
    h.step flags (.beginRead key startTime) = some h' ↔
      h' = { h with
        reads := h.reads ++ [⟨key, startTime, h.cc.version key, h.cc.rc key != 0, h.tick⟩]
        tick := h.tick + 1 } := by
  simp only [step, ConsistencyChecker.beginRead, hc, Bool.true_eq_false, if_false, Option.some.injEq,
    eq_comm (a := h')]

/-- A check changes nothing but the number of checks. -/
theorem step_checkReadCorrect {i : ℕ} {value : String} {wasFound : Bool} {now : ℤ}
    (hs : h.step flags (.checkReadCorrect i value wasFound now) = some h') :
    ∃ n, h' = { h with cc := { h.cc with checksRun := n }, tick := h.tick + 1 } := by
  obtain ⟨r, -, rfl⟩ := Option.map_eq_some_iff.mp hs
  unfold ConsistencyChecker.checkReadCorrect
  split_ifs
  · exact ⟨h.cc.checksRun, rfl⟩
  · exact ⟨h.cc.checksRun, rfl⟩
  · exact ⟨h.cc.checksRun + 1, rfl⟩

/-- No write is forgotten. -/
theorem length_writes_step {l : Call} (hs : h.step flags l = some h') : h.writes.length ≤ h'.writes.length := by
  cases l with
  | beginWrite key value mb db =>
    obtain ⟨-, hh⟩ := Option.ite_none_right_eq_some.mp hs
    cases hh
    simp
  | completeWrite i err now =>
    obtain ⟨w, -, hif⟩ := Option.bind_eq_some_iff.mp hs
    obtain ⟨-, hh⟩ := Option.ite_none_right_eq_some.mp hif
    obtain ⟨cc, -, rfl⟩ := Option.map_eq_some_iff.mp hh
    simp
  | beginRead key startTime =>
    cases hs
    exact le_rfl
  | checkReadCorrect i value wasFound now =>
    obtain ⟨r, -, rfl⟩ := Option.map_eq_some_iff.mp hs
    exact le_rfl

@[simp] theorem endWrite_key (w : WriteOp) (err : Option String) : (h.endWrite w err).key = w.key := rfl

@[simp] theorem endWrite_began (w : WriteOp) (err : Option String) : (h.endWrite w err).began = w.began := rfl

@[simp] theorem endWrite_ended (w : WriteOp) (err : Option String) : (h.endWrite w err).ended = some h.tick := rfl

/-- A write that ends now was not over at any moment so far. -/
theorem not_endedBefore_endWrite {w : WriteOp} {err : Option String} {t : ℕ} (ht : t ≤ h.tick) :
    ¬ (h.endWrite w err).EndedBefore t := by
  rintro ⟨e, he, hlt⟩
  obtain rfl : h.tick = e := Option.some.inj he
  exact absurd ht (not_le.mpr hlt)

/-! ### Counting writes -/

/-- The writes of the key that were over by tick `t`. -/
def endedBy (writes : List WriteOp) (key : String) (t : ℕ) : ℕ :=
  writes.countP fun w => w.key = key ∧ w.EndedBefore t

/-- Those begun by then, and not over. -/
def pendingAt (writes : List WriteOp) (key : String) (t : ℕ) : ℕ :=
  writes.countP fun w => w.key = key ∧ w.began < t ∧ ¬ w.EndedBefore t

/-- The writes of the key that are over. -/
def completed (writes : List WriteOp) (key : String) : ℕ := writes.countP fun w => w.key = key ∧ w.ended ≠ none

/-- Those that are not. -/
def pending (writes : List WriteOp) (key : String) : ℕ := writes.countP fun w => w.key = key ∧ w.ended = none

section Counts

variable {writes : List WriteOp} {key : String} {t : ℕ} {x : WriteOp}

theorem not_endedBefore (hx : x.ended = none) : ¬ x.EndedBefore t := by
  rintro ⟨e, he, -⟩
  rw [hx] at he
  cases he

theorem ended_ne_none_of_endedBefore (hx : x.EndedBefore t) : x.ended ≠ none := fun hend => not_endedBefore hend hx

/-! #### A write begins -/

theorem endedBy_concat (hx : x.ended = none) : endedBy (writes ++ [x]) key t = endedBy writes key t := by
  simp [endedBy, not_endedBefore hx]

theorem pendingAt_concat (ht : t ≤ x.began) : pendingAt (writes ++ [x]) key t = pendingAt writes key t := by
  simp [pendingAt, Nat.not_lt.mpr ht]

theorem completed_concat (hx : x.ended = none) : completed (writes ++ [x]) key = completed writes key := by
  simp [completed, hx]

theorem pending_concat (hx : x.ended = none) :
    pending (writes ++ [x]) key = pending writes key + (decide (x.key = key)).toNat := by
  by_cases hkey : x.key = key <;> simp [pending, hx, hkey]

/-! #### A write ends -/

variable {i : ℕ} {w : WriteOp} (hw : writes[i]? = some w) (hend : w.ended = none) (err : Option String)
include hw hend

theorem endedBy_set (ht : t ≤ h.tick) : endedBy (writes.set i (h.endWrite w err)) key t = endedBy writes key t := by
  refine countP_set_of_eq _ hw _ ?_
  simp [not_endedBefore_endWrite ht, not_endedBefore hend]

theorem pendingAt_set (ht : t ≤ h.tick) : pendingAt (writes.set i (h.endWrite w err)) key t = pendingAt writes key t := by
  refine countP_set_of_eq _ hw _ ?_
  simp [not_endedBefore_endWrite ht, not_endedBefore hend]

theorem completed_set :
    completed (writes.set i (h.endWrite w err)) key = completed writes key + (decide (w.key = key)).toNat := by
  have hcount := countP_set_add (fun w => decide (w.key = key ∧ w.ended ≠ none)) hw (h.endWrite w err)
  simpa [completed, hend] using hcount

theorem pending_set :
    pending (writes.set i (h.endWrite w err)) key + (decide (w.key = key)).toNat = pending writes key := by
  have hcount := countP_set_add (fun w => decide (w.key = key ∧ w.ended = none)) hw (h.endWrite w err)
  simpa [pending, hend] using hcount

end Counts

/-! ### Overlap -/

/-- The `k`-th write `b` succeeded, and every other write of its key was over before it began or
began after it was over. -/
def Isolated (h : History) (k : ℕ) (b : WriteOp) : Prop :=
  b.ended ≠ none ∧ b.err = none ∧ ∀ (j : ℕ) (a : WriteOp), h.writes[j]? = some a → j ≠ k → a.key = b.key →
    a.EndedBefore b.began ∨ b.EndedBefore a.began

/-- No write of the key of `r` overlaps it so far. -/
def Quiet (h : History) (r : ReadOp) : Prop :=
  ∀ (j : ℕ) (w : WriteOp), h.writes[j]? = some w → w.key = r.key → w.EndedBefore r.began

/-- What holds of the calls and of the two numbers the checker keeps for each key. -/
structure Inv (h : History) : Prop where
  began_lt : ∀ (j : ℕ) (w : WriteOp), h.writes[j]? = some w → w.began < h.tick
  ended_lt : ∀ (j : ℕ) (w : WriteOp) (e : ℕ), h.writes[j]? = some w → w.ended = some e → w.began < e ∧ e < h.tick
  distinct : ∀ (i j : ℕ) (a b : WriteOp), h.writes[i]? = some a → h.writes[j]? = some b → a.key = b.key →
    a.value = b.value → i = j
  version : ∀ key, h.cc.version key = Int64.ofNat (completed h.writes key)
  rc : ∀ key, h.cc.rc key = Int64.ofNat (pending h.writes key)
  write : ∀ (j : ℕ) (w : WriteOp), h.writes[j]? = some w →
    w.initialVersion = Int64.ofNat (endedBy h.writes w.key w.began)
  read : ∀ r ∈ h.reads, r.began < h.tick ∧ r.initialVersion = Int64.ofNat (endedBy h.writes r.key r.began) ∧
    r.writesPending = (Int64.ofNat (pendingAt h.writes r.key r.began) != 0)

namespace Inv

theorem endedBefore_tick (hI : h.Inv) {j : ℕ} {w : WriteOp} (hw : h.writes[j]? = some w) (hend : w.ended ≠ none) :
    w.EndedBefore h.tick := by
  obtain ⟨e, he⟩ := Option.ne_none_iff_exists'.mp hend
  exact ⟨e, he, (hI.ended_lt j w e hw he).2⟩

/-- What is over now. -/
theorem endedBy_tick (hI : h.Inv) (key : String) : endedBy h.writes key h.tick = completed h.writes key := by
  refine List.countP_congr fun w hw => ?_
  obtain ⟨j, hj⟩ := List.getElem?_of_mem hw
  simp only [decide_eq_true_eq]
  exact and_congr_right fun _ => ⟨ended_ne_none_of_endedBefore, hI.endedBefore_tick hj⟩

theorem pendingAt_tick (hI : h.Inv) (key : String) : pendingAt h.writes key h.tick = pending h.writes key := by
  refine List.countP_congr fun w hw => ?_
  obtain ⟨j, hj⟩ := List.getElem?_of_mem hw
  simp only [decide_eq_true_eq]
  refine and_congr_right fun _ => ⟨fun hnot => ?_, fun hend => ⟨hI.began_lt j w hj, not_endedBefore hend⟩⟩
  by_contra hend
  exact hnot.2 (hI.endedBefore_tick hj hend)

/-! #### The invariant is kept -/

theorem record_version (cc : ConsistencyChecker) (key : String) (newVal : StateValue) (iv : Int64) :
    (cc.record key newVal iv).version = Function.update cc.version key (cc.version key + 1) := by
  unfold ConsistencyChecker.record
  split_ifs <;> rfl

theorem record_rc (cc : ConsistencyChecker) (key : String) (newVal : StateValue) (iv : Int64) :
    (cc.record key newVal iv).rc = Function.update cc.rc key (cc.rc key - 1) := by
  unfold ConsistencyChecker.record
  split_ifs <;> rfl

/-- Kept by `BeginWrite`. -/
theorem begun (hI : h.Inv) {key value : String} (hnew : ∀ w ∈ h.writes, w.key = key → w.value ≠ value) (mb db : ℤ) :
    ({ h with
        cc := { h.cc with rc := Function.update h.cc.rc key (h.cc.rc key + 1) }
        writes := h.writes ++ [h.newWrite key value mb db]
        tick := h.tick + 1 } : History).Inv where
  began_lt j w hw := by
    rcases getElem?_concat_cases hw with hw | rfl
    · exact (hI.began_lt j w hw).trans (Nat.lt_succ_self _)
    · exact Nat.lt_succ_self _
  ended_lt j w e hw he := by
    rcases getElem?_concat_cases hw with hw | rfl
    · exact ⟨(hI.ended_lt j w e hw he).1, (hI.ended_lt j w e hw he).2.trans (Nat.lt_succ_self _)⟩
    · cases he
  distinct i j a b ha hb hkey hval := by
    have hfresh : ∀ (k : ℕ) (c : WriteOp), h.writes[k]? = some c → c.key = key → c.value ≠ value :=
      fun k c hck => hnew c (List.mem_of_getElem? hck)
    by_cases hi : i < h.writes.length <;> by_cases hj : j < h.writes.length
    · rw [List.getElem?_append_left hi] at ha
      rw [List.getElem?_append_left hj] at hb
      exact hI.distinct i j a b ha hb hkey hval
    · rw [List.getElem?_append_left hi] at ha
      rcases getElem?_concat_cases hb with hb | rfl
      · exact absurd (List.getElem?_eq_some_iff.mp hb).1 hj
      · exact absurd hval (hfresh i a ha hkey)
    · rw [List.getElem?_append_left hj] at hb
      rcases getElem?_concat_cases ha with ha | rfl
      · exact absurd (List.getElem?_eq_some_iff.mp ha).1 hi
      · exact absurd hval.symm (hfresh j b hb hkey.symm)
    · have := (List.getElem?_eq_some_iff.mp ha).1
      have := (List.getElem?_eq_some_iff.mp hb).1
      simp only [List.length_append, List.length_singleton] at *
      omega
  version k := by
    rw [completed_concat rfl]
    exact hI.version k
  rc k := by
    rw [pending_concat rfl, Int64.ofNat_add, ← hI.rc k]
    by_cases hk : k = key
    · subst hk
      simp [newWrite]
    · simp [newWrite, hk, Ne.symm hk]
  write j w hw := by
    rw [endedBy_concat rfl]
    rcases getElem?_concat_cases hw with hw | rfl
    · exact hI.write j w hw
    · exact (hI.version key).trans (congrArg _ (hI.endedBy_tick key).symm)
  read r hr := by
    obtain ⟨hlt, hv, hp⟩ := hI.read r hr
    rw [endedBy_concat rfl, pendingAt_concat hlt.le]
    exact ⟨hlt.trans (Nat.lt_succ_self _), hv, hp⟩

/-- Kept by `CompleteWrite`. -/
theorem ended (hI : h.Inv) {i : ℕ} {w : WriteOp} (hw : h.writes[i]? = some w) (hend : w.ended = none)
    (err : Option String) (newVal : StateValue) (iv : Int64) :
    ({ h with
        cc := h.cc.record w.key newVal iv
        writes := h.writes.set i (h.endWrite w err)
        tick := h.tick + 1 } : History).Inv where
  began_lt j b hb := by
    rcases getElem?_set_cases hb with ⟨-, hb⟩ | ⟨-, rfl⟩
    · exact (hI.began_lt j b hb).trans (Nat.lt_succ_self _)
    · exact (hI.began_lt i w hw).trans (Nat.lt_succ_self _)
  ended_lt j b e hb he := by
    rcases getElem?_set_cases hb with ⟨-, hb⟩ | ⟨-, rfl⟩
    · exact ⟨(hI.ended_lt j b e hb he).1, (hI.ended_lt j b e hb he).2.trans (Nat.lt_succ_self _)⟩
    · obtain rfl : h.tick = e := Option.some.inj he
      exact ⟨hI.began_lt i w hw, Nat.lt_succ_self _⟩
  distinct j k a b ha hb hkey hval := by
    rcases getElem?_set_cases ha with ⟨-, ha'⟩ | ⟨rfl, rfl⟩ <;> rcases getElem?_set_cases hb with ⟨-, hb'⟩ | ⟨rfl, rfl⟩
    · exact hI.distinct j k a b ha' hb' hkey hval
    · exact hI.distinct j _ a w ha' hw hkey hval
    · exact hI.distinct _ k w b hw hb' hkey hval
    · rfl
  version k := by
    rw [record_version, completed_set hw hend, Int64.ofNat_add, ← hI.version k]
    by_cases hk : k = w.key
    · subst hk
      rw [Function.update_self]
      simp
    · rw [Function.update_of_ne hk]
      simp [Ne.symm hk]
  rc k := by
    have hcount := hI.rc k
    rw [← pending_set hw hend err, Int64.ofNat_add] at hcount
    rw [record_rc]
    by_cases hk : k = w.key
    · subst hk
      rw [Function.update_self, hcount, decide_eq_true rfl]
      exact Int64.add_sub_cancel ..
    · rw [Function.update_of_ne hk, hcount, decide_eq_false (Ne.symm hk)]
      exact Int64.add_zero _
  write j b hb := by
    rcases getElem?_set_cases hb with ⟨-, hb⟩ | ⟨-, rfl⟩
    · rw [endedBy_set hw hend err (hI.began_lt j b hb).le]
      exact hI.write j b hb
    · have hbegan : (h.endWrite w err).began ≤ h.tick := (hI.began_lt i w hw).le
      rw [endedBy_set hw hend err hbegan]
      exact hI.write i w hw
  read r hr := by
    obtain ⟨hlt, hv, hp⟩ := hI.read r hr
    rw [endedBy_set hw hend err hlt.le, pendingAt_set hw hend err hlt.le]
    exact ⟨hlt.trans (Nat.lt_succ_self _), hv, hp⟩

/-- Kept by `BeginRead`. -/
theorem readBegun (hI : h.Inv) (key : String) (startTime : ℤ) :
    ({ h with
        reads := h.reads ++ [⟨key, startTime, h.cc.version key, h.cc.rc key != 0, h.tick⟩]
        tick := h.tick + 1 } : History).Inv where
  began_lt j w hw := (hI.began_lt j w hw).trans (Nat.lt_succ_self _)
  ended_lt j w e hw he := ⟨(hI.ended_lt j w e hw he).1, (hI.ended_lt j w e hw he).2.trans (Nat.lt_succ_self _)⟩
  distinct := hI.distinct
  version := hI.version
  rc := hI.rc
  write := hI.write
  read r hr := by
    rcases List.mem_append.mp hr with hr | hr
    · exact ⟨(hI.read r hr).1.trans (Nat.lt_succ_self _), (hI.read r hr).2⟩
    · obtain rfl := List.mem_singleton.mp hr
      refine ⟨Nat.lt_succ_self _, ?_, ?_⟩
      · rw [hI.endedBy_tick, hI.version]
      · rw [hI.pendingAt_tick, hI.rc]

/-- Kept by `CheckReadCorrect`. -/
theorem checked (hI : h.Inv) (n : UInt64) :
    ({ h with cc := { h.cc with checksRun := n }, tick := h.tick + 1 } : History).Inv where
  began_lt j w hw := (hI.began_lt j w hw).trans (Nat.lt_succ_self _)
  ended_lt j w e hw he := ⟨(hI.ended_lt j w e hw he).1, (hI.ended_lt j w e hw he).2.trans (Nat.lt_succ_self _)⟩
  distinct := hI.distinct
  version := hI.version
  rc := hI.rc
  write := hI.write
  read r hr := ⟨(hI.read r hr).1.trans (Nat.lt_succ_self _), (hI.read r hr).2⟩

theorem step (hc : flags.checkCorrectness = true) (hI : h.Inv) {l : Call} (hs : h.step flags l = some h') :
    h'.Inv := by
  cases l with
  | beginWrite key value mb db =>
    obtain ⟨hnew, rfl⟩ := (step_beginWrite_iff hc).mp hs
    exact hI.begun hnew mb db
  | completeWrite i err now =>
    obtain ⟨w, hw, hend, -, -, rfl⟩ := (step_completeWrite_iff hc).mp hs
    exact hI.ended hw hend err _ _
  | beginRead key startTime =>
    obtain rfl := (step_beginRead_iff hc).mp hs
    exact hI.readBegun key startTime
  | checkReadCorrect i value wasFound now =>
    obtain ⟨n, rfl⟩ := step_checkReadCorrect hs
    exact hI.checked n

theorem fresh : History.fresh.Inv where
  began_lt j w hw := by simp [History.fresh] at hw
  ended_lt j w e hw := by simp [History.fresh] at hw
  distinct i j a b ha := by simp [History.fresh] at ha
  version key := rfl
  rc key := rfl
  write j w hw := by simp [History.fresh] at hw
  read r hr := by simp [History.fresh] at hr

/-! #### What the numbers tell -/

section Numbers

variable {key : String} {t : ℕ}

/-- If no write of the key was completed since tick `t`, the version is the same. -/
theorem version_eq (hI : h.Inv) (hall : ∀ w ∈ h.writes, w.key = key → w.ended ≠ none → w.EndedBefore t) :
    h.cc.version key = Int64.ofNat (endedBy h.writes key t) := by
  rw [hI.version]
  refine congrArg Int64.ofNat (List.countP_congr fun w hw => ?_)
  simp only [decide_eq_true_eq]
  exact and_congr_right fun hkey => ⟨hall w hw hkey, ended_ne_none_of_endedBefore⟩

/-- And only then, if it did not wrap around. -/
theorem endedBefore_of_version_eq (hI : h.Inv) (hbound : h.writes.length < 2 ^ 64)
    (hver : h.cc.version key = Int64.ofNat (endedBy h.writes key t)) {w : WriteOp} (hw : w ∈ h.writes)
    (hkey : w.key = key) (hend : w.ended ≠ none) : w.EndedBefore t := by
  rw [hI.version] at hver
  have hcount : completed h.writes key = endedBy h.writes key t :=
    int64_ofNat_inj (List.countP_le_length.trans_lt hbound) (List.countP_le_length.trans_lt hbound) hver
  have hall := forall_of_countP_le (fun x _ hx => ?_) hcount.le w hw (decide_eq_true ⟨hkey, hend⟩)
  · exact (of_decide_eq_true hall).2
  · have hx := of_decide_eq_true hx
    exact decide_eq_true ⟨hx.1, ended_ne_none_of_endedBefore hx.2⟩

/-- The count is zero if no write of the key is pending. -/
theorem pending_eq_zero_iff {writes : List WriteOp} :
    pending writes key = 0 ↔ ∀ w ∈ writes, w.key = key → w.ended ≠ none := by
  simp [pending, List.countP_eq_zero]

theorem rc_eq_iff (hI : h.Inv) (hbound : h.writes.length < 2 ^ 64) {n : ℕ} (hn : n < 2 ^ 64) :
    h.cc.rc key = Int64.ofNat n ↔ pending h.writes key = n := by
  rw [hI.rc]
  exact ⟨int64_ofNat_inj (List.countP_le_length.trans_lt hbound) hn, congrArg _⟩

end Numbers

/-- **What is checked**: a read that no write of its key overlapped. -/
theorem checked_of_quiet (hI : h.Inv) {r : ReadOp} (hr : r ∈ h.reads) (hq : h.Quiet r) :
    h.cc.version r.key = r.initialVersion ∧ r.writesPending = false ∧ h.cc.rc r.key = 0 := by
  obtain ⟨-, hver, hpend⟩ := hI.read r hr
  have hover : ∀ w ∈ h.writes, w.key = r.key → w.EndedBefore r.began := fun w hw hkey => by
    obtain ⟨j, hj⟩ := List.getElem?_of_mem hw
    exact hq j w hj hkey
  refine ⟨?_, ?_, ?_⟩
  · rw [hver]
    exact hI.version_eq fun w hw hkey _ => hover w hw hkey
  · have hnone : pendingAt h.writes r.key r.began = 0 := by
      refine List.countP_eq_zero.mpr fun w hw hp => ?_
      have hp := of_decide_eq_true hp
      exact hp.2.2 (hover w hw hp.1)
    rw [hpend, hnone]
    rfl
  · rw [hI.rc, pending_eq_zero_iff.mpr fun w hw hkey => ended_ne_none_of_endedBefore (hover w hw hkey)]
    rfl

theorem quiet_of_checked (hI : h.Inv) (hbound : h.writes.length < 2 ^ 64) {r : ReadOp} (hr : r ∈ h.reads)
    (hver : h.cc.version r.key = r.initialVersion) (hrc : h.cc.rc r.key = 0) : h.Quiet r := by
  intro j w hw hkey
  have hmem := List.mem_of_getElem? hw
  have hend := pending_eq_zero_iff.mp ((hI.rc_eq_iff hbound (by decide)).mp hrc) w hmem hkey
  exact hI.endedBefore_of_version_eq hbound (hver.trans (hI.read r hr).2.1) hmem hkey hend

section Replaces

variable {i : ℕ} {w : WriteOp} (hw : h.writes[i]? = some w) (hend : w.ended = none) {err : Option String}
  {newVal : StateValue} {iv : Int64}
include hw hend

/-- **What a completed write replaces.** The test of `CompleteWrite` succeeds if the write succeeded
and overlapped no other write of its key. -/
theorem replaces_of_isolated (hI : h.Inv)
    (hiso : ({ h with
        cc := h.cc.record w.key newVal iv
        writes := h.writes.set i (h.endWrite w err)
        tick := h.tick + 1 } : History).Isolated i (h.endWrite w err)) :
    err = none ∧ w.initialVersion = h.cc.version w.key ∧ h.cc.rc w.key = 1 := by
  obtain ⟨-, herr, hall⟩ := hiso
  -- no other write began after this one ended, just now
  have hover : ∀ (j : ℕ) (a : WriteOp), h.writes[j]? = some a → j ≠ i → a.key = w.key → a.EndedBefore w.began := by
    intro j a ha hj hkey
    rcases hall j a (by rw [List.getElem?_set_ne (Ne.symm hj), ha]) hj hkey with hbefore | hafter
    · exact hbefore
    · exact absurd hafter (not_endedBefore_endWrite (hI.began_lt j a ha).le)
  refine ⟨herr, ?_, ?_⟩
  · rw [hI.write i w hw]
    refine (hI.version_eq fun a ha hkey haend => ?_).symm
    obtain ⟨j, hj⟩ := List.getElem?_of_mem ha
    refine hover j a hj (fun hji => haend ?_) hkey
    subst hji
    exact Option.some.inj (hw.symm.trans hj) ▸ hend
  · have hnone : pending (h.writes.set i (h.endWrite w err)) w.key = 0 := by
      refine pending_eq_zero_iff.mpr fun a ha hkey => ?_
      obtain ⟨j, hj⟩ := List.getElem?_of_mem ha
      rcases getElem?_set_cases hj with ⟨hji, hj⟩ | ⟨-, rfl⟩
      · exact ended_ne_none_of_endedBefore (hover j a hj hji hkey)
      · simp
    rw [hI.rc, ← pending_set hw hend err, hnone, decide_eq_true rfl]
    rfl

theorem isolated_of_replaces (hI : h.Inv) (hbound : h.writes.length < 2 ^ 64) (herr : err = none)
    (hver : w.initialVersion = h.cc.version w.key) (hrc : h.cc.rc w.key = 1) :
    ({ h with
        cc := h.cc.record w.key newVal iv
        writes := h.writes.set i (h.endWrite w err)
        tick := h.tick + 1 } : History).Isolated i (h.endWrite w err) := by
  have hnone : pending (h.writes.set i (h.endWrite w err)) w.key = 0 := by
    have hcount := (hI.rc_eq_iff hbound (by decide : 1 < 2 ^ 64)).mp hrc
    rw [← pending_set hw hend err, decide_eq_true rfl] at hcount
    exact Nat.succ_injective hcount
  refine ⟨by simp, herr, fun j a ha hj hkey => .inl ?_⟩
  have hend' := pending_eq_zero_iff.mp hnone a (List.mem_of_getElem? ha) hkey
  rw [List.getElem?_set_ne (Ne.symm hj)] at ha
  exact hI.endedBefore_of_version_eq hbound (hver.symm.trans (hI.write i w hw)) (List.mem_of_getElem? ha) hkey hend'

end Replaces

end Inv

end History

end Cs426.Checker

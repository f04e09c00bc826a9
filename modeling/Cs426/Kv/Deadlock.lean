import Cs426.Kv.Notifier
import Cs426.Kv.ShardMap

/-!
# Where `Update` and `Shutdown` wait for each other

`Update` sends on the channel of a listener while it holds the read lock of the shard map, and
`Shutdown` stops the loop that receives from that channel before it takes the write lock to
remove the channel. If the loop is stopped while an `Update` has yet to notify it, or if an
`Update` takes the read lock after the loop is stopped and before the channel is removed, then
the `Update` waits for a receiver that is gone and `Close` waits for the `Update`
(`update_shutdown_stuck`).

## What is proved

* `no_deadlock` — no send is ever on a closed channel; and as long as those two orders do not
  occur (`Calm`), whenever a call of `Update` or `Shutdown` has not returned, some thread can go
  on, and in one of the permitted orders.

## The argument

Along calm steps a loop that is to be notified is not stopped (`Attended`). So a reader of the
lock can go on: it sends, or the loop it sends to can go on until it receives. Without readers
an announced writer can go on. Without either, every other call can.
-/

namespace Cs426.Kv.Notifier

open Cs426.Machine

variable {ι σ : Type*} [DecidableEq ι]

/-- Some call of `Update` or `Shutdown` has not returned. -/
def Unfinished (n : Notifier ι σ) : Prop :=
  (∃ c ∈ n.updates, c ≠ .returned) ∨ ∃ i, (n.servers i).owner = .shutdown ∨ (n.servers i).owner = .close

/-- The steps in the permitted orders: no loop is stopped while a call of `Update` has yet to
notify it, and no call takes the read lock between the end of a loop and the removal of its
channel. -/
def Calm (n : Notifier ι σ) : Move ι σ → Prop
  | .stop i => ∀ c ∈ n.updates, i ∉ c.todo
  | .rLock _ order => ∀ i ∈ order, (n.servers i).loop ≠ .exited
  | _ => True

instance (n : Notifier ι σ) (l : Move ι σ) : Decidable (n.Calm l) := by
  cases l <;> unfold Calm <;> infer_instance

/-- No loop that is to be notified has been stopped. -/
def Attended (n : Notifier ι σ) : Prop :=
  ∀ todo, .sending todo ∈ n.updates → ∀ i ∈ todo, (n.servers i).loop ≠ .exited

/-- Some thread can take a step in a permitted order. -/
def Movable (n : Notifier ι σ) : Prop := ∃ l, l.isCall = false ∧ n.Calm l ∧ ∃ n', n.step l = some n'

variable {n n' : Notifier ι σ}

theorem exited_cases {l : Move ι σ} (hs : n.step l = some n') {i : ι} (h : (n'.servers i).loop = .exited) :
    (n.servers i).loop = .exited ∨ l = .stop i := by
  cases threads_cases hs i with
  | same ht => exact .inl (ht ▸ h)
  | stop => exact .inr rfl
  | make _ ht | register _ ht | startOwn _ ht | finishOwn _ ht | shutdown _ ht | close _ ht =>
    rw [ht] at h
    exact .inl h
  | listen _ ht | notify _ ht | startLoop _ ht | finishLoop _ ht =>
    rw [ht] at h
    cases h

theorem Attended.step (hA : n.Attended) {l : Move ι σ} (hc : n.Calm l) (hs : n.step l = some n') : n'.Attended := by
  intro todo htodo i hi hexit
  rcases exited_cases hs hexit with hexit | rfl
  · rcases sending_cases hs htodo with ⟨rest, hold⟩ | ⟨u, rfl⟩
    · exact hA _ hold i (List.mem_append_right _ hi) hexit
    · exact hc i hi hexit
  · rcases sending_cases hs htodo with ⟨rest, hold⟩ | ⟨u, hl⟩
    · exact hc _ hold (List.mem_append_right _ hi)
    · cases hl

/-- A server that is never made takes no part in anything. -/
theorem absent_of_run {ls : List (Move ι σ)} {i : ι} (hls : ∀ l ∈ ls, ∀ j, l = .makeKvServer j → j ≠ i)
    (h : (n.servers i).owner = .absent ∧ (n.servers i).loop = .off) (hrun : run Notifier.step n ls = some n') :
    (n'.servers i).owner = .absent ∧ (n'.servers i).loop = .off := by
  refine run_invariant (I := fun n => (n.servers i).owner = .absent ∧ (n.servers i).loop = .off)
    (fun m l m' h hl hs => ?_) (along_of_forall_mem n hls) h hrun
  cases threads_cases hs i with
  | same ht => exact ht ▸ h
  | make => exact absurd rfl (hl i rfl)
  | register ho | listen ho | startOwn ho | finishOwn ho | shutdown ho | stop ho | close ho => simp [h.1] at ho
  | notify hloop | startLoop hloop | finishLoop hloop => simp [h.2] at hloop

/-! ### Who can go on -/

/-- A loop that runs and is not in its `select` can go on. -/
theorem Movable.of_loop {i : ι} (hoff : (n.servers i).loop ≠ .off) (hexit : (n.servers i).loop ≠ .exited)
    (hsel : (n.servers i).loop ≠ .selecting) : n.Movable := by
  cases hl : (n.servers i).loop with
  | off => exact absurd hl hoff
  | exited => exact absurd hl hexit
  | selecting => exact absurd hl hsel
  | notified => exact ⟨.startLoop i, rfl, trivial, _, iterate_iff.mpr ⟨hl, rfl⟩⟩
  | handling => exact ⟨.finishLoop i, rfl, trivial, _, iterate_iff.mpr ⟨hl, rfl⟩⟩

/-- A call of `Update` that holds the lock goes on, or the loop it is waiting for does. -/
theorem Movable.of_reader (hI : n.Inv) (hA : n.Attended) {todo : List ι} (h : .sending todo ∈ n.updates) :
    n.Movable := by
  obtain ⟨u, hu⟩ := List.getElem?_of_mem h
  cases todo with
  | nil => exact ⟨.rUnlock u, rfl, trivial, _, step_rUnlock_iff.mpr ⟨hu, rfl⟩⟩
  | cons i todo =>
    have hlis := hI.sending _ h i (List.mem_cons_self ..)
    have hexit := hA _ h i (List.mem_cons_self ..)
    have hcoh := hI.coherent i
    by_cases hreg : (n.servers i).owner = .registered
    · exact ⟨.listen i, rfl, trivial, _, step_listen_iff.mpr ⟨hreg, rfl⟩⟩
    · have hoff : (n.servers i).loop ≠ .off := by
        rw [ne_eq, hcoh.off]
        rintro (ho | ho | ho)
        · simp [ho, Owner.isListening] at hlis
        · simp [ho, Owner.isListening] at hlis
        · exact hreg ho
      by_cases hsel : (n.servers i).loop = .selecting
      · have hclosed : (n.servers i).closed = false := by
          rw [← Bool.not_eq_true, hcoh.closed]
          intro ho
          simp [ho, Owner.isListening] at hlis
        exact ⟨.send u, rfl, trivial, _, step_send_iff.mpr ⟨i, todo, hu, hclosed, hsel, rfl⟩⟩
      · exact .of_loop hoff hexit hsel

/-- A writer that is announced gets the lock when nobody reads. -/
theorem Movable.of_writer (hI : n.Inv) (hread : n.unread = true) {i : ι} (hw : n.writer = some i) : n.Movable := by
  have hlock := hI.writer i hw
  cases ho : (n.servers i).owner with
  | makeListener => exact ⟨.lock i, rfl, trivial, _, step_lock_iff.mpr ⟨hw, hread, .inl ⟨ho, rfl⟩⟩⟩
  | close => exact ⟨.lock i, rfl, trivial, _, step_lock_iff.mpr ⟨hw, hread, .inr ⟨ho, rfl⟩⟩⟩
  | _ => simp [ho, Owner.isLocking] at hlock

/-- Without readers and writers, every call can go on. -/
theorem Movable.of_unlocked (hI : n.Inv) (hread : n.unread = true) (hw : n.writer = none) (hun : n.Unfinished) :
    n.Movable := by
  have hnone := unread_iff.mp hread
  by_cases hclose : ∃ i, (n.servers i).owner = .close
  · obtain ⟨i, ho⟩ := hclose
    exact ⟨.announce i, rfl, trivial, _, step_announce_iff.mpr ⟨hw, by simp [ho, Owner.isLocking], rfl⟩⟩
  rcases hun with ⟨c, hc, hret⟩ | ⟨i, ho | ho⟩
  · obtain ⟨u, hu⟩ := List.getElem?_of_mem hc
    cases c with
    | called st => exact ⟨.swap u, rfl, trivial, _, step_swap_iff.mpr ⟨st, hu, rfl⟩⟩
    | swapped =>
      -- every loop whose channel is there runs, since no server is at its `Close`
      refine ⟨.rLock u n.listeners, rfl, fun i hi hexit => ?_, _, step_rLock_iff.mpr ⟨hu, hw, .refl _, rfl⟩⟩
      rcases (hI.coherent i).exited.mp hexit with ho | ho
      · exact hclose ⟨i, ho⟩
      · simpa [ho, Owner.isListening] using hI.mem_listeners.mp hi
    | sending todo => exact absurd hc (hnone todo)
    | returned => exact absurd rfl hret
  · have hcoh := hI.coherent i
    by_cases hsel : (n.servers i).loop = .selecting
    · refine ⟨.stop i, rfl, fun c hc => ?_, _, step_stop_iff.mpr ⟨ho, hsel, rfl⟩⟩
      cases c with
      | sending todo => exact absurd hc (hnone todo)
      | _ => exact List.not_mem_nil
    · exact .of_loop (by simp [hcoh.off, ho]) (by simp [hcoh.exited, ho]) hsel
  · exact absurd ⟨i, ho⟩ hclose

theorem Movable.of_unfinished (hI : n.Inv) (hA : n.Attended) (hun : n.Unfinished) : n.Movable := by
  by_cases hread : n.unread = true
  · cases hw : n.writer with
    | some i => exact .of_writer hI hread hw
    | none => exact .of_unlocked hI hread hw hun
  · rw [unread_iff, not_forall] at hread
    obtain ⟨todo, h⟩ := hread
    exact .of_reader hI hA (not_not.mp h)

/-- **No deadlock in the permitted orders.** Wherever the threads of any number of servers and
any number of calls of `Update` arrive, no call is about to send on a closed channel; and if all
steps were in the permitted orders and a call of `Update` or `Shutdown` has not returned, some
thread can take a step in such an order. -/
theorem no_deadlock (st : σ) {ls : List (Move ι σ)} (hrun : run Notifier.step (fresh st) ls = some n) :
    (∀ i todo, .sending (i :: todo) ∈ n.updates → (n.servers i).closed = false) ∧
      (Along Notifier.step Calm (fresh st) ls → n.Unfinished → n.Movable) := by
  have hI : n.Inv := run_inductive (fun _ _ _ hI hs => hI.step hs) (Inv.fresh st) hrun
  refine ⟨fun i todo htodo => ?_, fun hcalm => .of_unfinished hI ?_⟩
  · have hlis := hI.sending _ htodo i (List.mem_cons_self ..)
    rw [← Bool.not_eq_true, (hI.coherent i).closed]
    intro ho
    simp [ho, Owner.isListening] at hlis
  · have hfresh : (fresh st : Notifier ι σ).Attended := fun todo htodo => absurd htodo (by simp [fresh])
    exact run_invariant (fun _ _ _ hA hc hs => Attended.step hA hc hs) hcalm hfresh hrun

/-- No server is there, and no shard is assigned. -/
def bare : Notifier String ShardMapState := fresh (.oneShard ["n1"] [])

/-- Node `n1` is made and a call of `Update` is about to notify it. -/
def aboutToNotify : List (Move String ShardMapState) :=
  [.makeKvServer "n1", .announce "n1", .lock "n1", .listen "n1", .startOwn "n1", .finishOwn "n1",
    .update (.oneShard ["n1"] ["n1"]), .swap 0, .rLock 0 ["n1"]]

/-- Where these steps arrive. -/
def notifying : Notifier String ShardMapState := (run Notifier.step bare aboutToNotify).get (by decide +kernel)

theorem no_deadlock_aboutToNotify : notifying.Movable := by
  have hun : notifying.Unfinished := Or.inl ⟨.sending ["n1"], List.mem_singleton.mpr rfl, by simp⟩
  exact (no_deadlock _ (run_eq_some_get _ _)).2 (by decide +kernel) hun

/-- From there the loop is stopped, and `Close` waits for the lock. -/
def stuckMoves : List (Move String ShardMapState) :=
  aboutToNotify ++ [.shutdown "n1", .stop "n1", .announce "n1"]

/-- Where this leads. -/
def stuck : Notifier String ShardMapState := (run Notifier.step bare stuckMoves).get (by decide +kernel)

theorem stuck_run : run Notifier.step bare stuckMoves = some stuck := run_eq_some_get _ _

/-- No server is anywhere from where it could go on. -/
theorem stuck_servers (i : String) :
    ((stuck.servers i).owner = .close ∨ (stuck.servers i).owner = .absent) ∧
      ((stuck.servers i).loop = .exited ∨ (stuck.servers i).loop = .off) := by
  by_cases hi : i = "n1"
  · subst hi
    exact ⟨Or.inl rfl, Or.inl rfl⟩
  · obtain ⟨ho, hl⟩ := absent_of_run (i := i) (by simp [stuckMoves, aboutToNotify, Ne.symm hi]) ⟨rfl, rfl⟩ stuck_run
    exact ⟨Or.inr ho, Or.inr hl⟩

/-- The `Update` and the `Shutdown` have not returned, and no thread can go on. -/
theorem update_shutdown_stuck :
    run Notifier.step bare stuckMoves = some stuck ∧ stuck.Unfinished ∧
      ∀ l, l.isCall = false → stuck.step l = none := by
  have hcall : ∀ {u : ℕ} {c : UpdateCall String ShardMapState}, stuck.updates[u]? = some c → c = .sending ["n1"] :=
    fun hu => List.mem_singleton.mp (List.mem_of_getElem? hu)
  refine ⟨stuck_run, Or.inl ⟨_, List.mem_singleton.mpr rfl, by simp⟩, fun l hl => ?_⟩
  rw [Option.eq_none_iff_forall_ne_some]
  intro n' hs
  cases l with
  | update | makeKvServer | shutdown => cases hl
  | swap =>
    obtain ⟨st, hu, -⟩ := step_swap_iff.mp hs
    cases hcall hu
  | rLock =>
    obtain ⟨-, hw, -⟩ := step_rLock_iff.mp hs
    cases hw
  | send =>
    obtain ⟨i, todo, hu, -, hsel, -⟩ := step_send_iff.mp hs
    cases hcall hu
    cases hsel
  | rUnlock =>
    obtain ⟨hu, -⟩ := step_rUnlock_iff.mp hs
    cases hcall hu
  | announce =>
    obtain ⟨hw, -⟩ := step_announce_iff.mp hs
    cases hw
  | lock =>
    obtain ⟨-, hread, -⟩ := step_lock_iff.mp hs
    cases hread
  | listen i =>
    obtain ⟨ho, -⟩ := step_listen_iff.mp hs
    simpa [ho] using (stuck_servers i).1
  | startOwn i | finishOwn i =>
    obtain ⟨ho, -⟩ := own_iff.mp hs
    simpa [ho] using (stuck_servers i).1
  | startLoop i | finishLoop i =>
    obtain ⟨hloop, -⟩ := iterate_iff.mp hs
    simpa [hloop] using (stuck_servers i).2
  | stop i =>
    obtain ⟨ho, -⟩ := step_stop_iff.mp hs
    simpa [ho] using (stuck_servers i).1

end Cs426.Kv.Notifier

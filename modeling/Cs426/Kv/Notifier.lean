import Mathlib.Data.List.AList
import Mathlib.Logic.Function.Basic
import Cs426.Lib.Machine

/-!
# The notifications of a shard map

`ShardMap.Update`, `MakeListener` and `ShardMapListener.Close` (`lab4/kv/shardmap.go`), and the
threads of a server that take part in them: `MakeKvServer`, `shardMapListenLoop` and
`KvServerImpl.Shutdown` (`lab4/kv/server.go`).

## The model

A step is what one thread does between two points at which it can be made to wait; a
communication on an unbuffered channel is one step of both its ends.

* `sm.mutex` is a `sync.RWMutex`. `Lock` first announces the writer, which keeps new readers and
  other writers out, and then waits for the readers that are there. The readers are the
  `Update` calls that have something to send or to unlock, the writers `MakeListener` and
  `Close`, whose bodies do not wait and are one step.
* The channels of `updateChannels` are named by the servers that listen on them. The order in
  which `Update` goes through them is drawn when it takes the lock.
* A server is made once and shut down at most once, after `MakeKvServer` has returned. What
  `handleShardMapUpdate` does is left open here: it starts and it finishes. So is the end of
  `Shutdown`, where the monitors of the shards are stopped.

The names of servers and the states are of any type.
-/

namespace Cs426.Kv

/-- How far a call of `Update` has come. -/
inductive UpdateCall (ι σ : Type*) where
  /-- Called with this state. -/
  | called (st : σ)
  /-- The state is swapped; the read lock is next. -/
  | swapped
  /-- Holds the read lock, and has yet to notify these listeners. -/
  | sending (todo : List ι)
  | returned

/-- The listeners a call has yet to notify. -/
def UpdateCall.todo {ι σ : Type*} : UpdateCall ι σ → List ι
  | sending todo => todo
  | _ => []

/-- What the owner of a server does: `MakeKvServer`, and later `Shutdown`. -/
inductive Owner where
  /-- There is no server yet. -/
  | absent
  /-- `MakeListener` waits for the lock. -/
  | makeListener
  /-- The listener is there; the loop is started next. -/
  | registered
  /-- The loop is started; `handleShardMapUpdate` is next. -/
  | started
  | handling
  /-- `MakeKvServer` has returned. -/
  | running
  /-- `Shutdown` sends on the channel `shutdown`. -/
  | shutdown
  /-- `Close` waits for the lock. -/
  | close
  | closed
deriving DecidableEq

/-- Where `shardMapListenLoop` is. -/
inductive Loop where
  /-- Not started. -/
  | off
  /-- In its `select`. -/
  | selecting
  /-- It has received a notification; `handleShardMapUpdate` is next. -/
  | notified
  | handling
  | exited
deriving DecidableEq

/-- The threads of a server, the id of its listener and whether the channel of that is closed. -/
structure Threads where
  owner : Owner
  loop : Loop
  id : ℕ
  closed : Bool
deriving DecidableEq

structure Notifier (ι σ : Type*) where
  state : σ
  /-- The writer that `sm.mutex` knows of. -/
  writer : Option ι
  updateChannels : AList fun _ : ℕ => ι
  updateChannelCounter : ℕ
  updates : List (UpdateCall ι σ)
  servers : ι → Threads

/-- What can happen. -/
inductive Move (ι σ : Type*) where
  /-- `Update` is called. -/
  | update (st : σ)
  /-- `MakeKvServer` is called. -/
  | makeKvServer (i : ι)
  /-- `Shutdown` is called. -/
  | shutdown (i : ι)
  | swap (u : ℕ)
  | rLock (u : ℕ) (order : List ι)
  /-- The next listener receives the notification. -/
  | send (u : ℕ)
  | rUnlock (u : ℕ)
  /-- `Lock` is called. -/
  | announce (i : ι)
  /-- `Lock` returns, and the rest of `MakeListener` or `Close` is executed. -/
  | lock (i : ι)
  /-- `go server.shardMapListenLoop()`. -/
  | listen (i : ι)
  | startOwn (i : ι)
  | finishOwn (i : ι)
  | startLoop (i : ι)
  | finishLoop (i : ι)
  /-- The loop receives from `shutdown` and returns. -/
  | stop (i : ι)

/-- The move is a new call, and not a step of one that is there. -/
def Move.isCall {ι σ : Type*} : Move ι σ → Bool
  | update _ | makeKvServer _ | shutdown _ => true
  | _ => false

/-- The channel of the server is in `updateChannels`. -/
def Owner.isListening : Owner → Bool
  | absent | makeListener | closed => false
  | _ => true

/-- The owner waits for the lock. -/
def Owner.isLocking : Owner → Bool
  | makeListener | close => true
  | _ => false

namespace Notifier

variable {ι σ : Type*} [DecidableEq ι]

/-- No server, and no call of `Update`. -/
def fresh (st : σ) : Notifier ι σ := ⟨st, none, ∅, 0, [], fun _ => ⟨.absent, .off, 0, false⟩⟩

/-- The listeners, in the order in which the map is stored. -/
def listeners (n : Notifier ι σ) : List ι := n.updateChannels.entries.map Sigma.snd

/-- Nobody holds the read lock. -/
def unread (n : Notifier ι σ) : Bool :=
  n.updates.all fun
    | .sending _ => false
    | _ => true

def setServer (n : Notifier ι σ) (i : ι) (t : Threads) : Notifier ι σ :=
  { n with servers := Function.update n.servers i t }

/-- The owner of the server goes on. -/
def own (n : Notifier ι σ) (i : ι) (before after : Owner) : Option (Notifier ι σ) :=
  if (n.servers i).owner = before then some (n.setServer i { n.servers i with owner := after }) else none

/-- The loop of the server goes on. -/
def iterate (n : Notifier ι σ) (i : ι) (before after : Loop) : Option (Notifier ι σ) :=
  if (n.servers i).loop = before then some (n.setServer i { n.servers i with loop := after }) else none

/-- `MakeListener`, once it has the lock. -/
def makeListener (n : Notifier ι σ) (i : ι) : Notifier ι σ :=
  { n with
    writer := none
    updateChannels := n.updateChannels.insert n.updateChannelCounter i
    updateChannelCounter := n.updateChannelCounter + 1 }.setServer i
      { n.servers i with owner := .registered, id := n.updateChannelCounter }

/-- `Close`, once it has the lock. -/
def close (n : Notifier ι σ) (i : ι) : Notifier ι σ :=
  { n with
    writer := none
    updateChannels := n.updateChannels.erase (n.servers i).id }.setServer i
      { n.servers i with owner := .closed, closed := true }

/-- One step. There is none where the code waits; a send on a closed channel panics. -/
def step (n : Notifier ι σ) : Move ι σ → Option (Notifier ι σ)
  | .update st => some { n with updates := n.updates ++ [.called st] }
  | .makeKvServer i => n.own i .absent .makeListener
  | .shutdown i => n.own i .running .shutdown
  | .swap u =>
    match n.updates[u]? with
    | some (.called st) => some { n with state := st, updates := n.updates.set u .swapped }
    | _ => none
  | .rLock u order =>
    match n.updates[u]? with
    | some .swapped =>
      if n.writer.isNone ∧ order.Perm n.listeners then some { n with updates := n.updates.set u (.sending order) }
      else none
    | _ => none
  | .send u =>
    match n.updates[u]? with
    | some (.sending (i :: todo)) =>
      if (n.servers i).closed = false ∧ (n.servers i).loop = .selecting then
        some ({ n with updates := n.updates.set u (.sending todo) }.setServer i
          { n.servers i with loop := .notified })
      else none
    | _ => none
  | .rUnlock u =>
    match n.updates[u]? with
    | some (.sending []) => some { n with updates := n.updates.set u .returned }
    | _ => none
  | .announce i =>
    if n.writer.isNone ∧ (n.servers i).owner.isLocking then some { n with writer := some i } else none
  | .lock i =>
    if n.writer = some i ∧ n.unread then
      match (n.servers i).owner with
      | .makeListener => some (n.makeListener i)
      | .close => some (n.close i)
      | _ => none
    else none
  | .listen i =>
    if (n.servers i).owner = .registered then
      some (n.setServer i { n.servers i with owner := .started, loop := .selecting })
    else none
  | .startOwn i => n.own i .started .handling
  | .finishOwn i => n.own i .handling .running
  | .startLoop i => n.iterate i .notified .handling
  | .finishLoop i => n.iterate i .handling .selecting
  | .stop i =>
    if (n.servers i).owner = .shutdown ∧ (n.servers i).loop = .selecting then
      some (n.setServer i { n.servers i with owner := .close, loop := .exited })
    else none

/-! ### The steps, one by one -/

section Steps

variable {n n' : Notifier ι σ} {i : ι} {u : ℕ}

@[simp] theorem setServer_self (n : Notifier ι σ) (i : ι) (t : Threads) : (n.setServer i t).servers i = t :=
  Function.update_self ..

theorem setServer_of_ne (n : Notifier ι σ) {i j : ι} (h : j ≠ i) (t : Threads) :
    (n.setServer i t).servers j = n.servers j := Function.update_of_ne h ..

theorem own_iff {before after : Owner} : n.own i before after = some n' ↔
    (n.servers i).owner = before ∧ n' = n.setServer i { n.servers i with owner := after } := by
  simp only [own, Option.ite_none_right_eq_some, Option.some.injEq, eq_comm (a := n')]

theorem iterate_iff {before after : Loop} : n.iterate i before after = some n' ↔
    (n.servers i).loop = before ∧ n' = n.setServer i { n.servers i with loop := after } := by
  simp only [iterate, Option.ite_none_right_eq_some, Option.some.injEq, eq_comm (a := n')]

theorem step_swap_iff : n.step (.swap u) = some n' ↔
    ∃ st, n.updates[u]? = some (.called st) ∧ n' = { n with state := st, updates := n.updates.set u .swapped } := by
  simp only [step]
  split
  · next st h => simp [h, eq_comm (a := n')]
  · next h => simpa using fun st hst => absurd hst (h st)

theorem step_rLock_iff {order : List ι} : n.step (.rLock u order) = some n' ↔
    n.updates[u]? = some .swapped ∧ n.writer = none ∧ order.Perm n.listeners ∧
      n' = { n with updates := n.updates.set u (.sending order) } := by
  simp only [step]
  split
  · next h => simp [h, Option.ite_none_right_eq_some, and_assoc, eq_comm (a := n')]
  · next h => exact iff_of_false (by simp) fun hu => h hu.1

theorem step_send_iff : n.step (.send u) = some n' ↔ ∃ i todo, n.updates[u]? = some (.sending (i :: todo)) ∧
    (n.servers i).closed = false ∧ (n.servers i).loop = .selecting ∧
    n' = { n with updates := n.updates.set u (.sending todo) }.setServer i { n.servers i with loop := .notified } := by
  simp only [step]
  split
  · next i todo h => simp [h, Option.ite_none_right_eq_some, and_assoc, eq_comm (a := n')]
  · next h => simpa using fun i todo hu => absurd hu (h i todo)

theorem step_rUnlock_iff : n.step (.rUnlock u) = some n' ↔
    n.updates[u]? = some (.sending []) ∧ n' = { n with updates := n.updates.set u .returned } := by
  simp only [step]
  split
  · next h => simp [h, eq_comm (a := n')]
  · next h => exact iff_of_false (by simp) fun hu => h hu.1

theorem step_announce_iff : n.step (.announce i) = some n' ↔
    n.writer = none ∧ (n.servers i).owner.isLocking = true ∧ n' = { n with writer := some i } := by
  simp only [step, Option.ite_none_right_eq_some, Option.isNone_iff_eq_none, Option.some.injEq, and_assoc,
    eq_comm (a := n')]

theorem step_lock_iff : n.step (.lock i) = some n' ↔ n.writer = some i ∧ n.unread = true ∧
    ((n.servers i).owner = .makeListener ∧ n' = n.makeListener i ∨
      (n.servers i).owner = .close ∧ n' = n.close i) := by
  simp only [step, Option.ite_none_right_eq_some, and_assoc]
  refine and_congr_right fun _ => and_congr_right fun _ => ?_
  split
  · next h => simp [h, eq_comm (a := n')]
  · next h => simp [h, eq_comm (a := n')]
  · next h h' =>
    refine iff_of_false (by simp) ?_
    rintro (⟨ho, -⟩ | ⟨ho, -⟩)
    exacts [h ho, h' ho]

theorem step_listen_iff : n.step (.listen i) = some n' ↔ (n.servers i).owner = .registered ∧
    n' = n.setServer i { n.servers i with owner := .started, loop := .selecting } := by
  simp only [step, Option.ite_none_right_eq_some, Option.some.injEq, eq_comm (a := n')]

theorem step_stop_iff : n.step (.stop i) = some n' ↔
    (n.servers i).owner = .shutdown ∧ (n.servers i).loop = .selecting ∧
      n' = n.setServer i { n.servers i with owner := .close, loop := .exited } := by
  simp only [step, Option.ite_none_right_eq_some, Option.some.injEq, and_assoc, eq_comm (a := n')]

omit [DecidableEq ι] in
theorem unread_iff : n.unread = true ↔ ∀ todo, .sending todo ∉ n.updates := by
  rw [unread, List.all_eq_true]
  constructor
  · intro h todo hmem
    simpa using h _ hmem
  · intro h c hc
    split
    · exact absurd hc (h _)
    · rfl

end Steps

/-! ### What one step changes -/

/-- What a step can do to the threads of a server. -/
inductive ThreadsChange (t t' : Threads) (i : ι) : Move ι σ → Prop
  | same {l : Move ι σ} : t' = t → ThreadsChange t t' i l
  | make : t.owner = .absent → t' = { t with owner := .makeListener } → ThreadsChange t t' i (.makeKvServer i)
  | register {id : ℕ} : t.owner = .makeListener → t' = { t with owner := .registered, id := id } →
      ThreadsChange t t' i (.lock i)
  | listen : t.owner = .registered → t' = { t with owner := .started, loop := .selecting } →
      ThreadsChange t t' i (.listen i)
  | startOwn : t.owner = .started → t' = { t with owner := .handling } → ThreadsChange t t' i (.startOwn i)
  | finishOwn : t.owner = .handling → t' = { t with owner := .running } → ThreadsChange t t' i (.finishOwn i)
  | notify {u : ℕ} : t.loop = .selecting → t' = { t with loop := .notified } → ThreadsChange t t' i (.send u)
  | startLoop : t.loop = .notified → t' = { t with loop := .handling } → ThreadsChange t t' i (.startLoop i)
  | finishLoop : t.loop = .handling → t' = { t with loop := .selecting } → ThreadsChange t t' i (.finishLoop i)
  | shutdown : t.owner = .running → t' = { t with owner := .shutdown } → ThreadsChange t t' i (.shutdown i)
  | stop : t.owner = .shutdown → t.loop = .selecting → t' = { t with owner := .close, loop := .exited } →
      ThreadsChange t t' i (.stop i)
  | close : t.owner = .close → t' = { t with owner := .closed, closed := true } → ThreadsChange t t' i (.lock i)

section Changes

variable {n n' : Notifier ι σ} {l : Move ι σ}

/-- Where one server is set, every other one stays. -/
theorem ThreadsChange.of_setServer {m : Notifier ι σ} {i j : ι} {t : Threads} (hm : m.servers = n.servers)
    (h : ThreadsChange (n.servers i) t i l) : ThreadsChange (n.servers j) ((m.setServer i t).servers j) j l := by
  by_cases hj : j = i
  · subst hj
    rwa [setServer_self]
  · exact .same (by rw [setServer_of_ne m hj, hm])

theorem threads_cases (hs : n.step l = some n') (j : ι) : ThreadsChange (n.servers j) (n'.servers j) j l := by
  cases l with
  | update st => obtain rfl := Option.some.inj hs; exact .same rfl
  | makeKvServer i => obtain ⟨ho, rfl⟩ := own_iff.mp hs; exact .of_setServer rfl (.make ho rfl)
  | shutdown i => obtain ⟨ho, rfl⟩ := own_iff.mp hs; exact .of_setServer rfl (.shutdown ho rfl)
  | swap u => obtain ⟨_, -, rfl⟩ := step_swap_iff.mp hs; exact .same rfl
  | rLock u order => obtain ⟨-, -, -, rfl⟩ := step_rLock_iff.mp hs; exact .same rfl
  | send u => obtain ⟨i, _, -, -, hsel, rfl⟩ := step_send_iff.mp hs; exact .of_setServer rfl (.notify hsel rfl)
  | rUnlock u => obtain ⟨-, rfl⟩ := step_rUnlock_iff.mp hs; exact .same rfl
  | announce i => obtain ⟨-, -, rfl⟩ := step_announce_iff.mp hs; exact .same rfl
  | lock i =>
    obtain ⟨-, -, ⟨ho, rfl⟩ | ⟨ho, rfl⟩⟩ := step_lock_iff.mp hs
    · exact .of_setServer rfl (.register ho rfl)
    · exact .of_setServer rfl (.close ho rfl)
  | listen i => obtain ⟨ho, rfl⟩ := step_listen_iff.mp hs; exact .of_setServer rfl (.listen ho rfl)
  | startOwn i => obtain ⟨ho, rfl⟩ := own_iff.mp hs; exact .of_setServer rfl (.startOwn ho rfl)
  | finishOwn i => obtain ⟨ho, rfl⟩ := own_iff.mp hs; exact .of_setServer rfl (.finishOwn ho rfl)
  | startLoop i => obtain ⟨hl, rfl⟩ := iterate_iff.mp hs; exact .of_setServer rfl (.startLoop hl rfl)
  | finishLoop i => obtain ⟨hl, rfl⟩ := iterate_iff.mp hs; exact .of_setServer rfl (.finishLoop hl rfl)
  | stop i => obtain ⟨ho, hl, rfl⟩ := step_stop_iff.mp hs; exact .of_setServer rfl (.stop ho hl rfl)

/-- What a step can do to the calls of `Update`. -/
inductive UpdatesChange (n n' : Notifier ι σ) : Move ι σ → Prop
  | same {l : Move ι σ} : n'.updates = n.updates → n'.state = n.state → UpdatesChange n n' l
  | call {st : σ} : n'.updates = n.updates ++ [.called st] → n'.state = n.state → UpdatesChange n n' (.update st)
  | swap {u : ℕ} {st : σ} : n.updates[u]? = some (.called st) → n'.updates = n.updates.set u .swapped →
      n'.state = st → UpdatesChange n n' (.swap u)
  | rLock {u : ℕ} {order : List ι} : n.updates[u]? = some .swapped → n.writer = none → order.Perm n.listeners →
      n'.updates = n.updates.set u (.sending order) → n'.state = n.state → UpdatesChange n n' (.rLock u order)
  | send {u : ℕ} {i : ι} {todo : List ι} : n.updates[u]? = some (.sending (i :: todo)) →
      n'.updates = n.updates.set u (.sending todo) → (n'.servers i).loop = .notified → n'.state = n.state →
      UpdatesChange n n' (.send u)
  | rUnlock {u : ℕ} : n.updates[u]? = some (.sending []) → n'.updates = n.updates.set u .returned →
      n'.state = n.state → UpdatesChange n n' (.rUnlock u)

theorem updates_cases (hs : n.step l = some n') : UpdatesChange n n' l := by
  cases l with
  | update st => obtain rfl := Option.some.inj hs; exact .call rfl rfl
  | makeKvServer | shutdown | startOwn | finishOwn => obtain ⟨-, rfl⟩ := own_iff.mp hs; exact .same rfl rfl
  | swap u => obtain ⟨_, hu, rfl⟩ := step_swap_iff.mp hs; exact .swap hu rfl rfl
  | rLock u order => obtain ⟨hu, hw, hp, rfl⟩ := step_rLock_iff.mp hs; exact .rLock hu hw hp rfl rfl
  | send u =>
    obtain ⟨i, todo, hu, -, -, rfl⟩ := step_send_iff.mp hs
    exact .send hu rfl (by rw [setServer_self]) rfl
  | rUnlock u => obtain ⟨hu, rfl⟩ := step_rUnlock_iff.mp hs; exact .rUnlock hu rfl rfl
  | announce i => obtain ⟨-, -, rfl⟩ := step_announce_iff.mp hs; exact .same rfl rfl
  | lock i => obtain ⟨-, -, ⟨-, rfl⟩ | ⟨-, rfl⟩⟩ := step_lock_iff.mp hs <;> exact .same rfl rfl
  | listen i => obtain ⟨-, rfl⟩ := step_listen_iff.mp hs; exact .same rfl rfl
  | startLoop | finishLoop => obtain ⟨-, rfl⟩ := iterate_iff.mp hs; exact .same rfl rfl
  | stop i => obtain ⟨-, -, rfl⟩ := step_stop_iff.mp hs; exact .same rfl rfl

/-- Where the listeners that a call has yet to notify come from. -/
theorem sending_cases (hs : n.step l = some n') {todo : List ι} (h : .sending todo ∈ n'.updates) :
    (∃ rest, .sending (rest ++ todo) ∈ n.updates) ∨ ∃ u, l = .rLock u todo := by
  cases updates_cases hs with
  | same hu => exact .inl ⟨[], hu ▸ h⟩
  | call hu =>
    rw [hu, List.mem_append] at h
    exact .inl ⟨[], h.resolve_right (by simp)⟩
  | swap _ hu | rUnlock _ hu =>
    rw [hu] at h
    exact .inl ⟨[], (List.mem_or_eq_of_mem_set h).resolve_right (by simp)⟩
  | @rLock u _ _ _ _ hu =>
    rw [hu] at h
    rcases List.mem_or_eq_of_mem_set h with h | h
    · exact .inl ⟨[], h⟩
    · cases h
      exact .inr ⟨u, rfl⟩
  | @send u i _ hold hu =>
    rw [hu] at h
    rcases List.mem_or_eq_of_mem_set h with h | h
    · exact .inl ⟨[], h⟩
    · cases h
      exact .inl ⟨[i], List.mem_of_getElem? hold⟩

/-- Every state that is or will be in force satisfies `P`. -/
def States (P : σ → Prop) (n : Notifier ι σ) : Prop := P n.state ∧ ∀ st, .called st ∈ n.updates → P st

theorem States.step {P : σ → Prop} (h : n.States P) (hl : ∀ st, l = .update st → P st) (hs : n.step l = some n') :
    n'.States P := by
  cases updates_cases hs with
  | same hu hst => exact ⟨hst ▸ h.1, hu ▸ h.2⟩
  | call hu hst =>
    refine ⟨hst ▸ h.1, fun st hmem => ?_⟩
    rw [hu, List.mem_append, List.mem_singleton] at hmem
    rcases hmem with hmem | hmem
    · exact h.2 st hmem
    · cases hmem
      exact hl _ rfl
  | swap hold hu hst =>
    refine ⟨hst ▸ h.2 _ (List.mem_of_getElem? hold), fun st hmem => ?_⟩
    exact h.2 st ((List.mem_or_eq_of_mem_set (hu ▸ hmem)).resolve_right (by simp))
  | rLock _ _ _ hu hst | send _ hu _ hst | rUnlock _ hu hst =>
    refine ⟨hst ▸ h.1, fun st hmem => ?_⟩
    exact h.2 st ((List.mem_or_eq_of_mem_set (hu ▸ hmem)).resolve_right (by simp))

end Changes

/-! ### The threads and the map of channels -/

/-- The loop runs from its start until `Shutdown` reaches it, and the channel is closed at the
end. -/
structure Coherent (t : Threads) : Prop where
  off : t.loop = .off ↔ t.owner = .absent ∨ t.owner = .makeListener ∨ t.owner = .registered
  exited : t.loop = .exited ↔ t.owner = .close ∨ t.owner = .closed
  closed : t.closed = true ↔ t.owner = .closed

/-- What holds of every state: each id leads to the server it was given to, and whoever is to be
notified listens. -/
structure Inv (n : Notifier ι σ) : Prop where
  coherent : ∀ i, Coherent (n.servers i)
  channel : ∀ id i, n.updateChannels.lookup id = some i ↔
    (n.servers i).owner.isListening = true ∧ (n.servers i).id = id
  bound : ∀ i, (n.servers i).owner.isListening = true → (n.servers i).id < n.updateChannelCounter
  writer : ∀ i, n.writer = some i → (n.servers i).owner.isLocking = true
  sending : ∀ todo, .sending todo ∈ n.updates → ∀ i ∈ todo, (n.servers i).owner.isListening = true

namespace Inv

variable {n n' : Notifier ι σ}

omit [DecidableEq ι] in
theorem mem_listeners (hI : n.Inv) {i : ι} : i ∈ n.listeners ↔ (n.servers i).owner.isListening = true := by
  rw [listeners, List.mem_map]
  constructor
  · rintro ⟨⟨id, i⟩, he, rfl⟩
    exact ((hI.channel id i).mp (AList.mem_lookup_iff.mpr he)).1
  · intro h
    exact ⟨⟨_, i⟩, AList.mem_lookup_iff.mp ((hI.channel _ i).mpr ⟨h, rfl⟩), rfl⟩

omit [DecidableEq ι] in
/-- Only calls of `Update` go on. -/
theorem updates (hI : n.Inv) (st : σ) {us : List (UpdateCall ι σ)}
    (h : ∀ todo, .sending todo ∈ us → ∀ i ∈ todo, (n.servers i).owner.isListening = true) :
    ({ n with state := st, updates := us } : Notifier ι σ).Inv :=
  ⟨hI.coherent, hI.channel, hI.bound, hI.writer, h⟩

/-- Only the threads of one server go on, and its listener stays. -/
theorem thread (hI : n.Inv) {i : ι} {t : Threads} (hcoh : Coherent t)
    (hlis : t.owner.isListening = (n.servers i).owner.isListening) (hid : t.id = (n.servers i).id)
    (hlock : (n.servers i).owner.isLocking = true → t.owner.isLocking = true) : (n.setServer i t).Inv := by
  have hservers : ∀ j, ((n.setServer i t).servers j).owner.isListening = (n.servers j).owner.isListening ∧
      ((n.setServer i t).servers j).id = (n.servers j).id := by
    intro j
    by_cases hj : j = i
    · subst hj
      rw [setServer_self]
      exact ⟨hlis, hid⟩
    · rw [setServer_of_ne n hj]
      exact ⟨rfl, rfl⟩
  refine ⟨fun j => ?_, fun id j => ?_, fun j => ?_, fun j hw => ?_, fun todo htodo j hj => ?_⟩
  · by_cases hj : j = i
    · subst hj
      rw [setServer_self]
      exact hcoh
    · rw [setServer_of_ne n hj]
      exact hI.coherent j
  · rw [(hservers j).1, (hservers j).2]
    exact hI.channel id j
  · rw [(hservers j).1, (hservers j).2]
    exact hI.bound j
  · by_cases hj : j = i
    · subst hj
      rw [setServer_self]
      exact hlock (hI.writer j hw)
    · rw [setServer_of_ne n hj]
      exact hI.writer j hw
  · rw [(hservers j).1]
    exact hI.sending todo htodo j hj

/-- The owner goes on, the loop and the listener staying as they are. -/
theorem own (hI : n.Inv) {i : ι} {before after : Owner} (hs : n.own i before after = some n')
    (hcoh : ∀ t : Threads, Coherent t → t.owner = before → Coherent { t with owner := after })
    (hlis : after.isListening = before.isListening) (hlock : before.isLocking = false) : n'.Inv := by
  obtain ⟨hb, rfl⟩ := own_iff.mp hs
  exact hI.thread (hcoh _ (hI.coherent i) hb) (hb ▸ hlis) rfl (by simp [hb, hlock])

/-- The loop goes on. -/
theorem iterate (hI : n.Inv) {i : ι} {before after : Loop} (hs : n.iterate i before after = some n')
    (hb : before ≠ .off ∧ before ≠ .exited) (ha : after ≠ .off ∧ after ≠ .exited) : n'.Inv := by
  obtain ⟨hl, rfl⟩ := iterate_iff.mp hs
  have hcoh := hI.coherent i
  exact hI.thread ⟨by simp [ha.1, ← hcoh.off, hl, hb.1], by simp [ha.2, ← hcoh.exited, hl, hb.2], hcoh.closed⟩
    rfl rfl id

/-- `MakeListener` takes an id that no listener has. -/
theorem makeListener (hI : n.Inv) (hu : n.unread = true) {i : ι} (ho : (n.servers i).owner = .makeListener) :
    (n.makeListener i).Inv := by
  have hcoh := hI.coherent i
  have hself : (n.makeListener i).servers i = { n.servers i with owner := .registered, id := n.updateChannelCounter } :=
    setServer_self ..
  have hother : ∀ j, j ≠ i → (n.makeListener i).servers j = n.servers j := fun j hj => setServer_of_ne _ hj _
  refine ⟨fun j => ?_, fun id j => ?_, fun j => ?_, fun j hw => ?_, fun todo htodo => ?_⟩
  · by_cases hj : j = i
    · subst hj
      rw [hself]
      exact ⟨by simp [hcoh.off, ho], by simp [hcoh.exited, ho], by simp [hcoh.closed, ho]⟩
    · rw [hother j hj]
      exact hI.coherent j
  · have hlookup : (n.makeListener i).updateChannels.lookup id =
        if id = n.updateChannelCounter then some i else n.updateChannels.lookup id := by
      by_cases hid : id = n.updateChannelCounter
      · rw [if_pos hid, hid]
        exact AList.lookup_insert _
      · rw [if_neg hid]
        exact AList.lookup_insert_ne hid
    rw [hlookup]
    by_cases hj : j = i
    · subst hj
      rw [hself]
      split_ifs with hid
      · simp [hid, Owner.isListening]
      · -- the server had no listener before
        simp [hI.channel, ho, Owner.isListening, Ne.symm hid]
    · rw [hother j hj]
      split_ifs with hid
      · refine iff_of_false (by simp [Ne.symm hj]) ?_
        rintro ⟨hlis, rfl⟩
        exact absurd (hI.bound j hlis) (by simp [hid])
      · exact hI.channel id j
  · by_cases hj : j = i
    · subst hj
      rw [hself]
      exact fun _ => Nat.lt_succ_self _
    · rw [hother j hj]
      exact fun hlis => Nat.lt_succ_of_lt (hI.bound j hlis)
  · cases hw
  · exact absurd htodo (unread_iff.mp hu todo)

/-- `Close` removes the listener of its own server and no other. -/
theorem close (hI : n.Inv) (hu : n.unread = true) {i : ι} (ho : (n.servers i).owner = .close) :
    (n.close i).Inv := by
  have hcoh := hI.coherent i
  have hself : (n.close i).servers i = { n.servers i with owner := .closed, closed := true } := setServer_self ..
  have hother : ∀ j, j ≠ i → (n.close i).servers j = n.servers j := fun j hj => setServer_of_ne _ hj _
  have howner : n.updateChannels.lookup (n.servers i).id = some i :=
    (hI.channel _ i).mpr ⟨by simp [ho, Owner.isListening], rfl⟩
  refine ⟨fun j => ?_, fun id j => ?_, fun j => ?_, fun j hw => ?_, fun todo htodo => ?_⟩
  · by_cases hj : j = i
    · subst hj
      rw [hself]
      exact ⟨by simp [hcoh.off, ho], by simp [hcoh.exited, ho], by simp⟩
    · rw [hother j hj]
      exact hI.coherent j
  · have hlookup : (n.close i).updateChannels.lookup id =
        if id = (n.servers i).id then none else n.updateChannels.lookup id := by
      by_cases hid : id = (n.servers i).id
      · rw [if_pos hid, hid]
        exact AList.lookup_erase ..
      · rw [if_neg hid]
        exact AList.lookup_erase_ne hid
    rw [hlookup]
    by_cases hj : j = i
    · subst hj
      rw [hself]
      split_ifs with hid
      · simp [Owner.isListening]
      · refine iff_of_false (fun hl => hid ((hI.channel id j).mp hl).2.symm) (by simp [Owner.isListening])
    · rw [hother j hj]
      split_ifs with hid
      · refine iff_of_false (by simp) ?_
        rintro ⟨hlis, rfl⟩
        -- two servers would share an id
        have hj' := (hI.channel _ j).mpr ⟨hlis, rfl⟩
        rw [hid, howner, Option.some.injEq] at hj'
        exact hj hj'.symm
      · exact hI.channel id j
  · by_cases hj : j = i
    · subst hj
      rw [hself]
      exact fun hlis => absurd hlis (by simp [Owner.isListening])
    · rw [hother j hj]
      exact hI.bound j
  · cases hw
  · exact absurd htodo (unread_iff.mp hu todo)

/-- After a step, calls of `Update` are still only about to send to servers that listened
before it. -/
theorem sending_step (hI : n.Inv) {l : Move ι σ} (hs : n.step l = some n') {todo : List ι}
    (h : .sending todo ∈ n'.updates) : ∀ i ∈ todo, (n.servers i).owner.isListening = true := by
  intro i hi
  rcases sending_cases hs h with ⟨rest, hmem⟩ | ⟨u, rfl⟩
  · exact hI.sending _ hmem i (List.mem_append_right rest hi)
  · obtain ⟨-, -, hperm, -⟩ := step_rLock_iff.mp hs
    exact hI.mem_listeners.mp (hperm.mem_iff.mp hi)

/-- Kept by every step. -/
theorem step (hI : n.Inv) {l : Move ι σ} (hs : n.step l = some n') : n'.Inv := by
  cases l with
  | update st =>
    obtain rfl := Option.some.inj hs
    exact hI.updates n.state fun todo => hI.sending_step hs
  | makeKvServer i | shutdown i | startOwn i | finishOwn i =>
    exact hI.own hs (fun t ht ho => ⟨by simp [ht.off, ho], by simp [ht.exited, ho], by simp [ht.closed, ho]⟩) rfl rfl
  | swap u =>
    obtain ⟨st, -, rfl⟩ := step_swap_iff.mp hs
    exact hI.updates st fun todo => hI.sending_step hs
  | rLock u order =>
    obtain ⟨-, -, -, rfl⟩ := step_rLock_iff.mp hs
    exact hI.updates n.state fun todo => hI.sending_step hs
  | send u =>
    obtain ⟨i, todo, -, -, hsel, rfl⟩ := step_send_iff.mp hs
    have hcoh := hI.coherent i
    exact (hI.updates n.state fun todo => hI.sending_step hs).thread ⟨by simp [← hcoh.off, hsel], by simp [← hcoh.exited, hsel], hcoh.closed⟩ rfl rfl id
  | rUnlock u =>
    obtain ⟨-, rfl⟩ := step_rUnlock_iff.mp hs
    exact hI.updates n.state fun todo => hI.sending_step hs
  | announce i =>
    obtain ⟨-, hlock, rfl⟩ := step_announce_iff.mp hs
    refine ⟨hI.coherent, hI.channel, hI.bound, fun j hj => ?_, hI.sending⟩
    cases hj
    exact hlock
  | lock i =>
    obtain ⟨-, hu, ⟨ho, rfl⟩ | ⟨ho, rfl⟩⟩ := step_lock_iff.mp hs
    · exact hI.makeListener hu ho
    · exact hI.close hu ho
  | listen i =>
    obtain ⟨ho, rfl⟩ := step_listen_iff.mp hs
    have hcoh := hI.coherent i
    exact hI.thread ⟨by simp, by simp, by simp [hcoh.closed, ho]⟩ (by simp [ho, Owner.isListening]) rfl
      (by simp [ho, Owner.isLocking])
  | startLoop i | finishLoop i => exact hI.iterate hs (by decide) (by decide)
  | stop i =>
    obtain ⟨ho, hsel, rfl⟩ := step_stop_iff.mp hs
    have hcoh := hI.coherent i
    exact hI.thread ⟨by simp, by simp, by simp [hcoh.closed, ho]⟩ (by simp [ho, Owner.isListening]) rfl
      (by simp [ho, Owner.isLocking])

omit [DecidableEq ι] in
theorem fresh (st : σ) : (fresh st : Notifier ι σ).Inv where
  coherent _ := ⟨by simp [Notifier.fresh], by simp [Notifier.fresh], by simp [Notifier.fresh]⟩
  channel id i := by simp [Notifier.fresh, Owner.isListening]
  bound i h := by simp [Notifier.fresh, Owner.isListening] at h
  writer i h := by cases h
  sending todo h := by cases h

end Inv

end Notifier

end Cs426.Kv

import Cs426.Kv.Cluster
import Cs426.Kv.Notifier

/-!
# Servers and the shard map that notifies them

The servers of `Cs426.Kv.Cluster` together with the threads of `Cs426.Kv.Notifier`. A step of
the threads is a step of the servers as well where it swaps the state of the shard map or starts
a call of `handleShardMapUpdate`; such a call is over when the server has finished it. Everything
else the servers do on their own.

So the machine has, for every server, the order of `MakeKvServer`: the listener is registered,
the loop is started, and then the server handles the shard map once by itself, while the loop
may already handle notifications.
-/

namespace Cs426.Kv

open Cs426.Machine

structure System where
  notifier : Notifier String ShardMapState
  cluster : Cluster

/-- What can happen. -/
inductive SystemLabel where
  /-- A step of the threads. -/
  | move (l : Move String ShardMapState)
  /-- A step of the servers alone. -/
  | serve (l : Label)

/-- The event starts a call of `handleShardMapUpdate`. -/
def Event.isStart : Event → Bool
  | startUpdate _ => true
  | _ => false

/-- The servers take this step on their own. -/
def Label.isServe : Label → Bool
  | update _ => false
  | event _ e => !e.isStart
  | ask .. | fail .. => true

/-- The step with which a caller starts `handleShardMapUpdate`. -/
def Caller.start (name : String) : Caller → Move String ShardMapState
  | makeKvServer => .startOwn name
  | shardMapListenLoop => .startLoop name

theorem Caller.start_inj {name name' : String} {caller caller' : Caller} (h : caller.start name = caller'.start name') :
    caller = caller' ∧ name = name' := by
  cases caller <;> cases caller' <;> cases h <;> exact ⟨rfl, rfl⟩

/-- The step with which it is back from it. -/
def Caller.finish (name : String) : Caller → Move String ShardMapState
  | makeKvServer => .finishOwn name
  | shardMapListenLoop => .finishLoop name

/-- The caller is in `handleShardMapUpdate`. -/
def Threads.handles (t : Threads) : Caller → Bool
  | .makeKvServer => t.owner = .handling
  | .shardMapListenLoop => t.loop = .handling

/-- What the servers do when the threads take a step, after which `st` is in force. -/
def Cluster.follow (c : Cluster) (st : ShardMapState) : Move String ShardMapState → Option Cluster
  | .swap _ => c.step (.update st)
  | .startOwn name => c.step (.event name (.startUpdate .makeKvServer))
  | .startLoop name => c.step (.event name (.startUpdate .shardMapListenLoop))
  | .finishOwn name => if (c.servers name).handlers .makeKvServer = .idle then some c else none
  | .finishLoop name => if (c.servers name).handlers .shardMapListenLoop = .idle then some c else none
  | _ => some c

namespace System

/-- One step of the system. -/
def step (s : System) : SystemLabel → Option System
  | .move l => (s.notifier.step l).bind fun n => (s.cluster.follow n.state l).map fun c => ⟨n, c⟩
  | .serve l => if l.isServe then (s.cluster.step l).map fun c => { s with cluster := c } else none

/-- How a system starts: a shard map with a state, and no server made yet. -/
def Init (s : System) : Prop := s.notifier = .fresh s.cluster.shardMap ∧ s.cluster.Init

/-- A system at its start, with every clock at zero. -/
def fresh (st : ShardMapState) : System := ⟨.fresh st, .fresh st⟩

theorem fresh_init (st : ShardMapState) : (fresh st).Init := ⟨rfl, Cluster.fresh_init st⟩

/-! ### The steps, one by one -/

section Steps

variable {s s' : System}

theorem step_move_iff {l : Move String ShardMapState} : s.step (.move l) = some s' ↔
    s.notifier.step l = some s'.notifier ∧ s.cluster.follow s'.notifier.state l = some s'.cluster := by
  simp only [step, Option.bind_eq_some_iff, Option.map_eq_some_iff]
  constructor
  · rintro ⟨n, hn, c, hc, rfl⟩
    exact ⟨hn, hc⟩
  · rintro ⟨hn, hc⟩
    exact ⟨_, hn, _, hc, rfl⟩

theorem step_serve_iff {l : Label} : s.step (.serve l) = some s' ↔
    l.isServe = true ∧ s.cluster.step l = some s'.cluster ∧ s'.notifier = s.notifier := by
  simp only [step, Option.ite_none_right_eq_some, Option.map_eq_some_iff]
  refine and_congr_right fun _ => ⟨?_, ?_⟩
  · rintro ⟨c, hc, rfl⟩
    exact ⟨hc, rfl⟩
  · rintro ⟨hc, hn⟩
    exact ⟨_, hc, by rw [← hn]⟩

/-- What the servers can do in a step of the threads. -/
inductive FollowChange (c c' : Cluster) (st : ShardMapState) : Move String ShardMapState → Prop
  | swap {u : ℕ} : c' = { c with shardMap := st } → FollowChange c c' st (.swap u)
  | start {caller : Caller} {name : String} : c'.shardMap = c.shardMap →
      (∀ other, other ≠ name → c'.servers other = c.servers other) →
      (c.servers name).step c.shardMap (.startUpdate caller) = some (c'.servers name) →
      FollowChange c c' st (caller.start name)
  | same {l : Move String ShardMapState} : c' = c → (∀ u, l ≠ .swap u) →
      (∀ (caller : Caller) (name : String), l ≠ caller.start name) →
      (∀ (caller : Caller) (name : String), l = caller.finish name → (c.servers name).handlers caller = .idle) →
      FollowChange c c' st l

/-- A call of `handleShardMapUpdate` is started: one server takes the event. -/
theorem FollowChange.of_start {c c' : Cluster} {st : ShardMapState} {name : String} (caller : Caller)
    (h : c.step (.event name (.startUpdate caller)) = some c') : FollowChange c c' st (caller.start name) := by
  obtain ⟨-, h⟩ := Cluster.step_event_iff.mp h
  obtain ⟨srv, hsrv, rfl⟩ := Cluster.act_iff.mp h
  exact .start rfl (fun other ho => Cluster.setServer_of_ne c ho srv) (by rw [Cluster.setServer_self, hsrv])

theorem follow_cases {c c' : Cluster} {st : ShardMapState} {l : Move String ShardMapState}
    (h : c.follow st l = some c') : FollowChange c c' st l := by
  cases l with
  | swap u => exact .swap (Option.some.inj h).symm
  | startOwn name => exact .of_start .makeKvServer h
  | startLoop name => exact .of_start .shardMapListenLoop h
  | finishOwn name =>
    obtain ⟨hidle, hc⟩ := Option.ite_none_right_eq_some.mp h
    refine .same (Option.some.inj hc).symm (by simp) (by rintro ⟨⟩ <;> simp [Caller.start]) fun caller other hl => ?_
    cases caller <;> cases hl
    exact hidle
  | finishLoop name =>
    obtain ⟨hidle, hc⟩ := Option.ite_none_right_eq_some.mp h
    refine .same (Option.some.inj hc).symm (by simp) (by rintro ⟨⟩ <;> simp [Caller.start]) fun caller other hl => ?_
    cases caller <;> cases hl
    exact hidle
  | _ =>
    exact .same (Option.some.inj h).symm (by simp) (by rintro ⟨⟩ <;> simp [Caller.start])
      (by rintro ⟨⟩ <;> simp [Caller.finish])

/-- A caller is in `handleShardMapUpdate` until it is back from it. -/
theorem handles_step {n n' : Notifier String ShardMapState} {l : Move String ShardMapState}
    (hs : n.step l = some n') (hI : n.Inv) {name : String} {caller : Caller}
    (h : (n.servers name).handles caller = true) :
    (n'.servers name).handles caller = true ∨ l = caller.finish name := by
  cases caller with
  | makeKvServer =>
    have ho : (n.servers name).owner = .handling := of_decide_eq_true h
    cases Notifier.threads_cases hs name with
    | same ht => exact .inl (ht ▸ h)
    | finishOwn => exact .inr rfl
    | startOwn hb | make hb | register hb | listen hb | shutdown hb | stop hb | close hb => simp [ho] at hb
    | notify _ ht | startLoop _ ht | finishLoop _ ht => exact .inl (by simp [ht, Threads.handles, ho])
  | shardMapListenLoop =>
    have hl : (n.servers name).loop = .handling := of_decide_eq_true h
    cases Notifier.threads_cases hs name with
    | same ht => exact .inl (ht ▸ h)
    | finishLoop => exact .inr rfl
    | startLoop hb | notify hb | stop _ hb => simp [hl] at hb
    | listen hb => simp [(hI.coherent name).off.mpr (.inr (.inr hb))] at hl
    | make _ ht | register _ ht | startOwn _ ht | finishOwn _ ht | shutdown _ ht | close _ ht =>
      exact .inl (by simp [ht, Threads.handles, hl])

theorem handles_of_start {n n' : Notifier String ShardMapState} {name : String} {caller : Caller}
    (hs : n.step (caller.start name) = some n') : (n'.servers name).handles caller = true := by
  cases caller with
  | makeKvServer =>
    obtain ⟨-, rfl⟩ := Notifier.own_iff.mp hs
    simp [Threads.handles]
  | shardMapListenLoop =>
    obtain ⟨-, rfl⟩ := Notifier.iterate_iff.mp hs
    simp [Threads.handles]

/-- A caller is in `handleShardMapUpdate` once it has started it. -/
theorem handles_cases {n n' : Notifier String ShardMapState} {l : Move String ShardMapState}
    (hs : n.step l = some n') {name : String} {caller : Caller} (h : (n'.servers name).handles caller = true) :
    (n.servers name).handles caller = true ∨ l = caller.start name := by
  cases caller with
  | makeKvServer =>
    have ho : (n'.servers name).owner = .handling := of_decide_eq_true h
    cases Notifier.threads_cases hs name with
    | same ht => exact .inl (ht ▸ h)
    | startOwn => exact .inr rfl
    | finishOwn _ ht | make _ ht | register _ ht | listen _ ht | shutdown _ ht | stop _ _ ht | close _ ht =>
      simp [ht] at ho
    | notify _ ht | startLoop _ ht | finishLoop _ ht =>
      rw [ht] at h
      exact .inl h
  | shardMapListenLoop =>
    have hl : (n'.servers name).loop = .handling := of_decide_eq_true h
    cases Notifier.threads_cases hs name with
    | same ht => exact .inl (ht ▸ h)
    | startLoop => exact .inr rfl
    | finishLoop _ ht | notify _ ht | stop _ _ ht | listen _ ht => simp [ht] at hl
    | make _ ht | register _ ht | startOwn _ ht | finishOwn _ ht | shutdown _ ht | close _ ht =>
      rw [ht] at h
      exact .inl h

end Steps

end System

/-- What the events keep that start no call of `handleShardMapUpdate`, a server keeps in every
step the servers take on their own. -/
theorem Cluster.serve_invariant {c c' : Cluster} {l : Label} {P : Server → Prop} (hl : l.isServe = true)
    (h : c.step l = some c') (hP : ∀ srv e srv', e.isStart = false → P srv → srv.step c.shardMap e = some srv' → P srv')
    {name : String} (hname : P (c.servers name)) : c'.shardMap = c.shardMap ∧ P (c'.servers name) := by
  have hact : ∀ {c₁ c₂ : Cluster} {other : String} {e : Event}, c₁.shardMap = c.shardMap → e.isStart = false →
      c₁.act other e = some c₂ → P (c₁.servers name) → c₂.shardMap = c.shardMap ∧ P (c₂.servers name) := by
    intro c₁ c₂ other e hst he hact hc₁
    obtain ⟨hst', hsame | ⟨-, hstep⟩⟩ := act_cases hact name
    · exact ⟨hst'.trans hst, hsame ▸ hc₁⟩
    · exact ⟨hst'.trans hst, hP _ e _ he hc₁ (hst ▸ hstep)⟩
  cases l with
  | update st => cases hl
  | event other e =>
    obtain ⟨-, h⟩ := step_event_iff.mp h
    exact hact rfl (by simpa [Label.isServe] using hl) h hname
  | fail other caller f now => exact hact rfl rfl h hname
  | ask other caller f visits finish received =>
    obtain ⟨shard, node, rest, c₁, -, h₁, -, h₂⟩ := step_ask_iff.mp h
    obtain ⟨hst₁, hc₁⟩ := hact rfl rfl h₁ hname
    exact hact hst₁ rfl h₂ hc₁

namespace Server

variable {st : ShardMapState} {srv srv' : Server} {e : Event}

/-- A call that is not running starts with `startUpdate`. -/
theorem idle_of_not_start (h : srv.step st e = some srv') (he : e.isStart = false) {c : Caller}
    (hc : srv.handlers c = .idle) : srv'.handlers c = .idle := by
  cases handler_cases h c with
  | same hh => rw [hh, hc]
  | start => cases he
  | finish _ hh' => exact hh'
  | add hh | reply hh | refuse hh | giveUp hh | relock hh | install hh => rw [hc] at hh; cases hh

/-- Only the start of a call gives it shards to create. -/
theorem todo_of_not_start (h : srv.step st e = some srv') (he : e.isStart = false) {c : Caller} {shard : ℤ}
    (hs : shard ∈ (srv'.handlers c).todo) : shard ∈ (srv.handlers c).todo := by
  cases handler_cases h c with
  | same hh => exact hh ▸ hs
  | start => cases he
  | add hh _ hh' =>
    rw [hh'] at hs
    exact hh ▸ List.mem_of_mem_erase hs
  | reply hh _ hh' | refuse hh _ hh' | giveUp hh _ hh' =>
    rw [hh'] at hs
    exact hh ▸ hs
  | relock _ _ hh' | install _ hh' | finish _ hh' => simp [hh', Handler.todo] at hs

/-- The start of one call leaves the other alone. -/
theorem handlers_of_start {caller c : Caller} (h : srv.step st (.startUpdate caller) = some srv') (hc : c ≠ caller) :
    srv'.handlers c = srv.handlers c := by
  cases handler_cases h c with
  | same hh => exact hh
  | start => exact absurd rfl hc

end Server

namespace System

variable {s s' : System}

/-- The two halves of a system are in step: what holds wherever it arrives. -/
structure Inv (s : System) : Prop where
  threads : s.notifier.Inv
  state : s.cluster.shardMap = s.notifier.state
  nodeName : ∀ name, (s.cluster.servers name).nodeName = name
  idle : ∀ name caller, (s.notifier.servers name).handles caller = false →
    (s.cluster.servers name).handlers caller = .idle

namespace Inv

theorem init (h : s.Init) : s.Inv where
  threads := h.1 ▸ Notifier.Inv.fresh _
  state := by rw [h.1]; rfl
  nodeName name := by
    obtain ⟨now, hname⟩ := h.2 name
    rw [hname]
    rfl
  idle name caller _ := by
    obtain ⟨now, hname⟩ := h.2 name
    rw [hname]
    rfl

/-- The servers take a step on their own. -/
theorem serve (hI : s.Inv) {l : Label} (hs : s.step (.serve l) = some s') : s'.Inv := by
  obtain ⟨hl, hc, hn⟩ := step_serve_iff.mp hs
  have hname : ∀ name, s'.cluster.shardMap = s.cluster.shardMap ∧ (s'.cluster.servers name).nodeName = name :=
    fun name => Cluster.serve_invariant (P := fun srv => srv.nodeName = name) hl hc
      (fun _ _ _ _ hsrv hstep => (Server.nodeName_step hstep).trans hsrv) (hI.nodeName name)
  refine ⟨hn ▸ hI.threads, by rw [hn, (hname "").1, hI.state], fun name => (hname name).2, fun name caller hnot => ?_⟩
  exact (Cluster.serve_invariant (P := fun srv => srv.handlers caller = .idle) hl hc
    (fun _ _ _ he hsrv hstep => Server.idle_of_not_start hstep he hsrv) (hI.idle name caller (hn ▸ hnot))).2

/-- The threads take a step. -/
theorem move (hI : s.Inv) {l : Move String ShardMapState} (hs : s.step (.move l) = some s') : s'.Inv := by
  obtain ⟨hn, hc⟩ := step_move_iff.mp hs
  -- whoever is not in a call was not in it before, or is just back
  have hbefore : ∀ {name caller}, (s'.notifier.servers name).handles caller = false →
      (s.notifier.servers name).handles caller = false ∨ l = caller.finish name := by
    intro name caller hnot
    by_cases h : (s.notifier.servers name).handles caller = true
    · exact .inr ((handles_step hn hI.threads h).resolve_left (by simp [hnot]))
    · exact .inl (Bool.not_eq_true _ ▸ h)
  have hstate : (∀ u, l ≠ .swap u) → s'.notifier.state = s.notifier.state := by
    intro hl
    cases Notifier.updates_cases hn with
    | swap => exact absurd rfl (hl _)
    | same _ h | call _ h | rLock _ _ _ _ h | send _ _ _ h | rUnlock _ _ h => exact h
  cases follow_cases hc with
  | swap hc' =>
    refine ⟨hI.threads.step hn, by rw [hc'], fun name => by rw [hc']; exact hI.nodeName name, fun name caller hnot => ?_⟩
    rw [hc']
    exact hI.idle name caller ((hbefore hnot).resolve_right (by cases caller <;> simp [Caller.finish]))
  | same hc' hl _ hfinish =>
    refine ⟨hI.threads.step hn, by rw [hc', hstate hl, hI.state], fun name => by rw [hc']; exact hI.nodeName name,
      fun name caller hnot => ?_⟩
    rw [hc']
    rcases hbefore hnot with h | h
    · exact hI.idle name caller h
    · exact hfinish caller name h
  | @start caller₀ name₀ hmap hother hstart =>
    have hl : ∀ u, caller₀.start name₀ ≠ .swap u := by cases caller₀ <;> simp [Caller.start]
    refine ⟨hI.threads.step hn, by rw [hmap, hstate hl, hI.state], fun name => ?_, fun name caller hnot => ?_⟩
    · by_cases hname : name = name₀
      · subst hname
        exact (Server.nodeName_step hstart).trans (hI.nodeName name)
      · rw [hother name hname]
        exact hI.nodeName name
    · have hidle := hI.idle name caller
        ((hbefore hnot).resolve_right (by cases caller <;> cases caller₀ <;> simp [Caller.finish, Caller.start]))
      by_cases hname : name = name₀
      · subst hname
        rw [Server.handlers_of_start hstart, hidle]
        rintro rfl
        simp [handles_of_start hn] at hnot
      · rw [hother name hname, hidle]

theorem step (hI : s.Inv) {l : SystemLabel} (hs : s.step l = some s') : s'.Inv := by
  cases l with
  | move l => exact hI.move hs
  | serve l => exact hI.serve hs

/-- Wherever a system arrives. -/
theorem of_run {ls : List SystemLabel} (h : s.Init) (hrun : run System.step s ls = some s') : s'.Inv :=
  run_inductive (fun _ _ _ hI hs => hI.step hs) (init h) hrun

end Inv

/-! ### What a system does, seen from the servers -/

theorem follow_step {c c' : Cluster} {st : ShardMapState} {l : Move String ShardMapState}
    (h : c.follow st l = some c') : c' = c ∨ ∃ cl, c.step cl = some c' ∧ ∀ st', cl = .update st' → st' = st := by
  cases l with
  | swap u => exact .inr ⟨.update st, h, fun st' he => by cases he; rfl⟩
  | startOwn name => exact .inr ⟨.event name (.startUpdate .makeKvServer), h, by simp⟩
  | startLoop name => exact .inr ⟨.event name (.startUpdate .shardMapListenLoop), h, by simp⟩
  | finishOwn | finishLoop => exact .inl (Option.some.inj (Option.ite_none_right_eq_some.mp h).2).symm
  | _ => exact .inl (Option.some.inj h).symm

/-- **A run of the system is a run of the cluster**, whose updates are states that `Update` was
called with. -/
theorem cluster_run {P : ShardMapState → Prop} (h : s.notifier.States P) {ls : List SystemLabel}
    (hls : ∀ st, .move (.update st) ∈ ls → P st) (hrun : run System.step s ls = some s') :
    s'.notifier.States P ∧ ∃ cls, run Cluster.step s.cluster cls = some s'.cluster ∧
      ∀ st, Label.update st ∈ cls → P st := by
  induction ls generalizing s with
  | nil =>
    obtain rfl : s = s' := Option.some.inj hrun
    exact ⟨h, [], rfl, by simp⟩
  | cons l ls ih =>
    obtain ⟨u, hu, hrun'⟩ := (run_cons_iff System.step).mp hrun
    have hls' : ∀ st, .move (.update st) ∈ ls → P st := fun st hst => hls st (List.mem_cons_of_mem _ hst)
    cases l with
    | serve l =>
      obtain ⟨hl, hc, hn⟩ := step_serve_iff.mp hu
      obtain ⟨hst, cls, hcls, hP⟩ := ih (hn ▸ h) hls' hrun'
      refine ⟨hst, l :: cls, (run_cons_iff _).mpr ⟨_, hc, hcls⟩, fun st hmem => ?_⟩
      rcases List.mem_cons.mp hmem with rfl | hmem
      · cases hl
      · exact hP st hmem
    | move l =>
      obtain ⟨hn, hc⟩ := step_move_iff.mp hu
      have hstates := h.step (fun st he => hls st (by rw [he]; exact List.mem_cons_self ..)) hn
      obtain ⟨hst, cls, hcls, hP⟩ := ih hstates hls' hrun'
      rcases follow_step hc with hsame | ⟨cl, hcl, heq⟩
      · exact ⟨hst, cls, hsame ▸ hcls, hP⟩
      · refine ⟨hst, cl :: cls, (run_cons_iff _).mpr ⟨_, hcl, hcls⟩, fun st hmem => ?_⟩
        rcases List.mem_cons.mp hmem with hst' | hmem
        · exact heq st hst'.symm ▸ hstates.1
        · exact hP st hmem

theorem Init.states {P : ShardMapState → Prop} (h : s.Init) (hP : P s.cluster.shardMap) : s.notifier.States P := by
  rw [h.1]
  exact ⟨hP, by simp [Notifier.fresh]⟩

/-- The state in force is the first one or one that `Update` was called with. -/
theorem shardMap_of_run {P : ShardMapState → Prop} (h : s.Init) (hP : P s.cluster.shardMap) {ls : List SystemLabel}
    (hls : ∀ st, .move (.update st) ∈ ls → P st) (hrun : run System.step s ls = some s') : P s'.cluster.shardMap := by
  rw [(Inv.of_run h hrun).state]
  exact (cluster_run (h.states hP) hls hrun).1.1

end System

end Cs426.Kv

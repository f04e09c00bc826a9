import Cs426.Kv.System
import Cs426.Lib.Counting

/-!
# Routing and hosting agree once updates settle

A notification carries nothing: a server that receives one reads the shard map as it is then.
So no notification may get lost between the moment a state is swapped and the moment a server
that has not seen it is told.

## The argument

A server is *behind* (`Behind`) as long as somebody has yet to make it look: it has not begun the
`handleShardMapUpdate` of its own `MakeKvServer`, its loop has received a notification it has
not begun to handle, or a call of `Update` has yet to take the lock or to notify it. Only the
start of a call of `handleShardMapUpdate` ends that (`behind_cases`): a call of `Update` that takes
the lock finds every listener that is registered, and a server that registers later has its own
call before it.

When a call starts it makes the shards a server hosts or is about to create those of the state in
force (`reserved_start`), and nothing else changes them (`reserved_step`). So this is what a server
that is not behind hosts.
-/

namespace Cs426.Kv

open Cs426.Machine Cs426.Counting

/-! ### The shards a server hosts or is about to create -/

namespace Server

variable {st : ShardMapState} {srv srv' : Server} {e : Event}

/-- The shard is hosted, or a call of `handleShardMapUpdate` is about to create it. -/
def Reserved (srv : Server) (shard : ℤ) : Prop := srv.Hosts shard ∨ ∃ c, shard ∈ (srv.handlers c).todo

/-- Without the lock nobody is about to create anything. -/
theorem todo_of_not_locked (h : srv.locked = false) (c : Caller) {shard : ℤ} : shard ∉ (srv.handlers c).todo := by
  intro hs
  rw [← Bool.not_eq_true, locked_iff] at h
  exact h ⟨c, Handler.holdsLock_of_mem_todo hs⟩

/-- **The start of a call** makes these the shards of the map. -/
theorem reserved_start {caller : Caller} (h : srv.step st (.startUpdate caller) = some srv') (shard : ℤ) :
    srv'.Reserved shard ↔ shard ∈ st.fetchShards srv.nodeName := by
  obtain ⟨-, hl, hsrv⟩ := step_startUpdate_iff.mp h
  have hhandlers : srv'.handlers = if srv.added st = [] then srv.handlers
      else Function.update srv.handlers caller (.copying (srv.added st) [] []) := by rw [hsrv]
  have hhosts : srv'.Hosts shard ↔ srv.Hosts shard ∧ shard ∈ st.fetchShards srv.nodeName := by
    rw [hosts_iff, hsrv, lookup_kept, hosts_iff]
    split_ifs with hmem <;> simp [hmem]
  constructor
  · rintro (hhost | ⟨c, hc⟩)
    · exact (hhosts.mp hhost).2
    · by_cases hadd : srv.added st = []
      · rw [hhandlers, if_pos hadd] at hc
        exact absurd hc (todo_of_not_locked hl c)
      · rw [hhandlers, if_neg hadd] at hc
        by_cases hcc : c = caller
        · subst hcc
          rw [Function.update_self] at hc
          exact (mem_added.mp hc).1
        · rw [Function.update_of_ne hcc] at hc
          exact absurd hc (todo_of_not_locked hl c)
  · intro hmem
    by_cases hhost : srv.Hosts shard
    · exact .inl (hhosts.mpr ⟨hhost, hmem⟩)
    · have hadd := mem_added.mpr ⟨hmem, hhost⟩
      refine .inr ⟨caller, ?_⟩
      rw [hhandlers, if_neg (List.ne_nil_of_mem hadd), Function.update_self]
      exact hadd

/-- What a call is about to create it has created when it is not about to any more. -/
theorem todo_step (h : srv.step st e = some srv') {c : Caller} {shard : ℤ} (hs : shard ∈ (srv.handlers c).todo) :
    shard ∈ (srv'.handlers c).todo ∨ srv'.Hosts shard := by
  cases handler_cases h c with
  | same hh => exact .inl (hh ▸ hs)
  | start hh | install hh | finish hh | relock hh => simp [hh, Handler.todo] at hs
  | @add s index todo _ _ hh _ hh' =>
    rw [hh] at hs
    by_cases hne : shard = s
    · subst hne
      obtain ⟨_, _, _, -, -, rfl⟩ := step_addShard_iff.mp h
      exact .inr ((hosts_insert rfl).mpr (.inl rfl))
    · rw [hh']
      exact .inl ((List.mem_erase_of_ne hne).mpr hs)
  | reply hh _ hh' | refuse hh _ hh' | giveUp hh _ hh' =>
    rw [hh] at hs
    rw [hh']
    exact .inl hs

/-- **Nothing else** changes them. -/
theorem reserved_step (h : srv.step st e = some srv') (he : e.isStart = false) (shard : ℤ) :
    srv'.Reserved shard ↔ srv.Reserved shard := by
  constructor
  · rintro (hhost | ⟨c, hc⟩)
    · rcases hosts_cases h shard with hiff | ⟨_, rfl, -⟩ | ⟨c, index, rfl, -⟩
      · exact .inl (hiff.mp hhost)
      · cases he
      · obtain ⟨_, _, _, hh, ⟨hmem, -⟩, -⟩ := step_addShard_iff.mp h
        exact .inr ⟨c, by rw [hh]; exact hmem⟩
    · exact .inr ⟨c, todo_of_not_start h he hc⟩
  · rintro (hhost | ⟨c, hc⟩)
    · rcases hosts_cases h shard with hiff | ⟨_, rfl, -⟩ | ⟨c, index, -, hhost'⟩
      · exact .inl (hiff.mpr hhost)
      · cases he
      · exact .inl hhost'
    · rcases todo_step h hc with hc | hhost
      · exact .inr ⟨c, hc⟩
      · exact .inl hhost

end Server

/-! ### Who has yet to look at the shard map -/

/-- The server has begun its own `handleShardMapUpdate` and listens. -/
def Owner.follows : Owner → Bool
  | handling | running | shutdown | close => true
  | _ => false

namespace Notifier

variable {n n' : Notifier String ShardMapState} {l : Move String ShardMapState} {name : String}

/-- Somebody has yet to make the server look at the shard map. -/
def Behind (n : Notifier String ShardMapState) (name : String) : Prop :=
  (n.servers name).owner.follows = false ∨ (n.servers name).loop = .notified ∨ .swapped ∈ n.updates ∨
    ∃ todo, .sending todo ∈ n.updates ∧ name ∈ todo

/-- A server that has not begun its own call begins it first of all. -/
theorem Behind.of_owner (hs : n.step l = some n') (hown : l ≠ .startOwn name)
    (h : (n.servers name).owner.follows = false) : n'.Behind name := by
  refine .inl ?_
  cases threads_cases hs name with
  | same ht => rw [ht]; exact h
  | make _ ht | register _ ht | listen _ ht | close _ ht => simp [ht, Owner.follows]
  | startOwn => exact absurd rfl hown
  | finishOwn ho | shutdown ho | stop ho => simp [ho, Owner.follows] at h
  | notify _ ht | startLoop _ ht | finishLoop _ ht =>
    rw [ht]
    exact h

theorem Behind.of_notified (hI : n.Inv) (hs : n.step l = some n') (hloop : l ≠ .startLoop name)
    (h : (n.servers name).loop = .notified) : n'.Behind name := by
  refine .inr (.inl ?_)
  cases threads_cases hs name with
  | same ht => rw [ht]; exact h
  | startLoop => exact absurd rfl hloop
  | notify hl | finishLoop hl | stop _ hl => simp [h] at hl
  | listen ho => simp [(hI.coherent name).off.mpr (.inr (.inr ho))] at h
  | make _ ht | register _ ht | startOwn _ ht | finishOwn _ ht | shutdown _ ht | close _ ht =>
    rw [ht]
    exact h

/-- A call that takes the lock finds every server that follows. -/
theorem Behind.of_swapped (hI : n.Inv) (hs : n.step l = some n') (h : .swapped ∈ n.updates) : n'.Behind name := by
  cases updates_cases hs with
  | same hu => exact .inr (.inr (.inl (hu ▸ h)))
  | call hu => exact .inr (.inr (.inl (hu ▸ List.mem_append_left _ h)))
  | swap hold hu | send hold hu | rUnlock hold hu => exact .inr (.inr (.inl (hu ▸ mem_set_of_ne h hold (by simp))))
  | @rLock u order hold _ hperm hu =>
    by_cases hf : (n.servers name).owner.follows = true
    · have hlis : (n.servers name).owner.isListening = true := by
        cases ho : (n.servers name).owner <;> simp [ho, Owner.follows] at hf <;> rfl
      exact .inr (.inr (.inr ⟨order, hu ▸ List.mem_set (List.getElem?_eq_some_iff.mp hold).1 _,
        hperm.mem_iff.mpr (hI.mem_listeners.mpr hlis)⟩))
    · exact .of_owner hs (by simp) (Bool.not_eq_true _ ▸ hf)

/-- A call that has yet to notify the server notifies it. -/
theorem Behind.of_sending (hs : n.step l = some n') {todo : List String} (h : .sending todo ∈ n.updates)
    (hname : name ∈ todo) : n'.Behind name := by
  cases updates_cases hs with
  | same hu => exact .inr (.inr (.inr ⟨todo, hu ▸ h, hname⟩))
  | call hu => exact .inr (.inr (.inr ⟨todo, hu ▸ List.mem_append_left _ h, hname⟩))
  | swap hold hu | rLock hold _ _ hu =>
    exact .inr (.inr (.inr ⟨todo, hu ▸ mem_set_of_ne h hold (by simp), hname⟩))
  | rUnlock hold hu =>
    exact .inr (.inr (.inr ⟨todo, hu ▸ mem_set_of_ne h hold (by simp [List.ne_nil_of_mem hname]), hname⟩))
  | @send u i todo' hold hu hnot =>
    by_cases htodo : todo = i :: todo'
    · subst htodo
      rcases List.mem_cons.mp hname with rfl | hname
      · exact .inr (.inl hnot)
      · exact .inr (.inr (.inr ⟨todo', hu ▸ List.mem_set (List.getElem?_eq_some_iff.mp hold).1 _, hname⟩))
    · exact .inr (.inr (.inr ⟨todo, hu ▸ mem_set_of_ne h hold (by simpa using htodo), hname⟩))

/-- **No notification is lost**: a server stops being behind only by starting a call. -/
theorem behind_cases (hI : n.Inv) (hs : n.step l = some n') (h : ¬ n'.Behind name) :
    (∃ caller : Caller, l = caller.start name) ∨ ¬ n.Behind name ∧ ∀ u, l ≠ .swap u := by
  by_cases hown : l = .startOwn name
  · exact .inl ⟨.makeKvServer, hown⟩
  by_cases hloop : l = .startLoop name
  · exact .inl ⟨.shardMapListenLoop, hloop⟩
  refine .inr ⟨?_, ?_⟩
  · rintro (hf | hn | hsw | ⟨todo, hse, hname⟩)
    · exact h (.of_owner hs hown hf)
    · exact h (.of_notified hI hs hloop hn)
    · exact h (.of_swapped hI hs hsw)
    · exact h (.of_sending hs hse hname)
  · rintro u rfl
    obtain ⟨st, hu, rfl⟩ := step_swap_iff.mp hs
    exact h (.inr (.inr (.inl (List.mem_set (List.getElem?_eq_some_iff.mp hu).1 _))))

end Notifier

namespace System

variable {s s' : System}

/-- A server that is not behind hosts, or is about to create, the shards of the state in force. -/
structure UpToDate (s : System) : Prop extends s.Inv where
  reserved : ∀ name, ¬ s.notifier.Behind name → ∀ shard,
    (s.cluster.servers name).Reserved shard ↔ shard ∈ s.cluster.shardMap.fetchShards name

namespace UpToDate

theorem init (h : s.Init) : s.UpToDate where
  toInv := .init h
  reserved name hnot := absurd (by rw [h.1]; exact .inl rfl) hnot

theorem step (hU : s.UpToDate) {l : SystemLabel} (hs : s.step l = some s') : s'.UpToDate where
  toInv := hU.toInv.step hs
  reserved name hnot shard := by
    cases l with
    | serve l =>
      obtain ⟨hl, hc, hn⟩ := step_serve_iff.mp hs
      obtain ⟨hmap, hres⟩ := Cluster.serve_invariant
        (P := fun srv => srv.Reserved shard ↔ shard ∈ s.cluster.shardMap.fetchShards name) hl hc
        (fun _ _ _ he hsrv hstep => (Server.reserved_step hstep he shard).trans hsrv)
        (hU.reserved name (hn ▸ hnot) shard)
      rw [hmap]
      exact hres
    | move l =>
      obtain ⟨hn, hc⟩ := step_move_iff.mp hs
      have hcases := Notifier.behind_cases hU.threads hn hnot
      cases System.follow_cases hc with
      | swap =>
        rcases hcases with ⟨caller, hl⟩ | ⟨-, hl⟩
        · cases caller <;> cases hl
        · exact absurd rfl (hl _)
      | same hc' _ hl =>
        rw [hc']
        rcases hcases with ⟨caller, hl'⟩ | ⟨hnot', -⟩
        · exact absurd hl' (hl caller name)
        · exact hU.reserved name hnot' shard
      | @start caller₀ name₀ hmap hother hstart =>
        rw [hmap]
        by_cases hname : name = name₀
        · subst hname
          rw [Server.reserved_start hstart, hU.nodeName]
        · rw [hother name hname]
          rcases hcases with ⟨caller, hl⟩ | ⟨hnot', -⟩
          · exact absurd (Caller.start_inj hl).2.symm hname
          · exact hU.reserved name hnot' shard

/-- Wherever a system arrives. -/
theorem of_run {ls : List SystemLabel} (h : s.Init) (hrun : run System.step s ls = some s') : s'.UpToDate :=
  run_inductive (fun _ _ _ hU hs => hU.step hs) (init h) hrun

end UpToDate

end System

/-! ### Answers -/

/-- What a server answers for a key whose shard it does not host. -/
def notHosted : Status := ⟨.notFound, "shard not hosted"⟩

namespace Server

variable {srv : Server} {numShards : ℤ} {key : String}

theorem shardOf_eq_notHosted_iff :
    srv.shardOf numShards key = .error notHosted ↔ ¬ srv.Hosts (int32 (getShardForKey key numShards)) := by
  rw [hosts_iff]
  unfold shardOf
  cases hs : srv.shards.lookup (int32 (getShardForKey key numShards)) with
  | none => simp [hs, notHosted]
  | some kvShard => by_cases hkey : key = "" <;> simp [hs, hkey, notHosted]

end Server

/-- **Routing and hosting agree once updates settle.** Any number of servers are made and any
number of calls of `Update` run, in any order, with valid states that all have the same number of
shards, less than `2 ^ 31`. When all calls of `Update` have returned, a server whose
`MakeKvServer` has returned and whose loop is in its `select` hosts exactly its shards of the
state in force. So the nodes that a client contacts for a key are exactly those that do not
answer that the shard is not hosted. -/
theorem hosting_settles {N : ℤ} (hN : N < 2 ^ 31) {s₀ s : System} (h₀ : s₀.Init)
    (hst₀ : s₀.cluster.shardMap.isValid = true ∧ s₀.cluster.shardMap.numShards = N) (ls : List SystemLabel)
    (hls : ∀ st, .move (.update st) ∈ ls → st.isValid = true ∧ st.numShards = N)
    (hrun : run System.step s₀ ls = some s) (hret : ∀ c ∈ s.notifier.updates, c = .returned) {name : String}
    (howner : (s.notifier.servers name).owner = .running) (hloop : (s.notifier.servers name).loop = .selecting) :
    (∀ shard, (s.cluster.servers name).Hosts shard ↔ shard ∈ s.cluster.shardMap.shardsForNode name) ∧
    ∀ key, let contacted := name ∈ s.cluster.shardMap.nodesForShard (getShardForKey key s.cluster.shardMap.numShards)
      let srv := s.cluster.servers name
      let numShards := s.cluster.shardMap.numShards
      (∀ now, contacted ↔ srv.get numShards key now ≠ .error notHosted) ∧
      (∀ value ttlMs now, contacted ↔ srv.set numShards key value ttlMs now ≠ .error notHosted) ∧
      (contacted ↔ srv.delete numShards key ≠ .error notHosted) := by
  have hU := System.UpToDate.of_run h₀ hrun
  obtain ⟨hvalid, hnum⟩ := System.shardMap_of_run (P := fun st => st.isValid = true ∧ st.numShards = N) h₀ hst₀ hls hrun
  have hnot : ¬ s.notifier.Behind name := by
    rintro (h | h | h | ⟨todo, h, -⟩)
    · simp [howner, Owner.follows] at h
    · simp [hloop] at h
    · cases hret _ h
    · cases hret _ h
  -- nobody is about to create a shard
  have hidle : ∀ caller, (s.cluster.servers name).handlers caller = .idle := fun caller =>
    hU.idle name caller (by cases caller <;> simp [Threads.handles, howner, hloop])
  have hhosts : ∀ shard, (s.cluster.servers name).Hosts shard ↔ name ∈ s.cluster.shardMap.nodesForShard shard := by
    intro shard
    rw [← ShardMapState.mem_fetchShards_iff hvalid (hnum ▸ hN), ← hU.reserved name hnot shard, Server.Reserved]
    simp [hidle, Handler.todo]
  -- what is made of the shard does not change the answer that there is none
  have hkey : ∀ key {α : Type} (f : ℤ × KvShard → α),
      name ∈ s.cluster.shardMap.nodesForShard (getShardForKey key s.cluster.shardMap.numShards) ↔
        ((s.cluster.servers name).shardOf s.cluster.shardMap.numShards key).map f ≠ .error notHosted := by
    intro key α f
    have hmap : ((s.cluster.servers name).shardOf s.cluster.shardMap.numShards key).map f = .error notHosted ↔
        (s.cluster.servers name).shardOf s.cluster.shardMap.numShards key = .error notHosted := by
      cases (s.cluster.servers name).shardOf s.cluster.shardMap.numShards key <;> simp [Except.map]
    rw [ne_eq, hmap, Server.shardOf_eq_notHosted_iff, not_not, hhosts]
    by_cases hpos : 0 < s.cluster.shardMap.numShards
    · rw [int32_getShardForKey key hpos (hnum ▸ hN)]
    · -- a map without shards assigns none
      have hempty : ∀ shard, name ∉ s.cluster.shardMap.nodesForShard shard := fun shard hmem => by
        have := ShardMapState.range_of_mem_nodesForShard hvalid hmem
        omega
      exact iff_of_false (hempty _) (hempty _)
  exact ⟨fun shard => (hhosts shard).trans ShardMapState.mem_shardsForNode.symm, fun key =>
    ⟨fun _ => hkey key _, fun _ _ _ => hkey key _, hkey key _⟩⟩

/-- Node `n1` is made, is then given the only shard, and handles that. -/
def settleLabels : List SystemLabel :=
  [.move (.makeKvServer "n1"), .move (.announce "n1"), .move (.lock "n1"), .move (.listen "n1"),
    .move (.update (.oneShard ["n1"] ["n1"])), .move (.startOwn "n1"), .move (.swap 0), .move (.finishOwn "n1"),
    .move (.rLock 0 ["n1"]), .move (.send 0), .move (.rUnlock 0), .move (.startLoop "n1"),
    .serve (.event "n1" (.addShard .shardMapListenLoop 1 0)), .serve (.event "n1" (.fetchGiveUp .shardMapListenLoop 0)),
    .serve (.event "n1" (.relock .shardMapListenLoop)), .serve (.event "n1" (.finishUpdate .shardMapListenLoop)),
    .move (.finishLoop "n1")]

/-- Where these steps arrive. -/
def settled : System := (run System.step (.fresh (.oneShard ["n1"] [])) settleLabels).get (by decide +kernel)

theorem hosting_settles_oneServer : (settled.cluster.servers "n1").Hosts 1 := by
  have hret : ∀ c ∈ settled.notifier.updates, c = .returned := fun c hc => List.mem_singleton.mp hc
  refine ((hosting_settles (N := 1) (by decide) (System.fresh_init _) (by decide) settleLabels ?_ (run_eq_some_get _ _)
    hret rfl rfl).1 1).mpr (by decide +kernel)
  intro st hst
  obtain rfl : st = .oneShard ["n1"] ["n1"] := by simpa [settleLabels] using hst
  decide

end Cs426.Kv

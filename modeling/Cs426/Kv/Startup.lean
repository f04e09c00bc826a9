import Cs426.Kv.Migration
import Cs426.Kv.Routing

/-!
# Two calls of `handleShardMapUpdate` at startup

`MakeKvServer` starts the loop before it calls `handleShardMapUpdate` itself, and a call gives
the lock of the server up while it waits for its peers. So a call of the loop can begin in the
middle of the one of `MakeKvServer`, or the other way round:

* The later call removes a shard that the earlier one is copying. When the copy is installed
  the shard is not there, and the server dies of a nil pointer.
* The earlier call, of the loop, has created a shard and is copying it. The later one, of
  `MakeKvServer`, finds nothing to add, and the server is handed out without the copy.

Both happen (`startup_unsafe`).

## What is proved

* `startup_copies` — if no call of a server begins while another one runs, every copied key is
  installed into a shard that is there, and when `MakeKvServer` returns, every shard that was
  assigned to the node all the time is hosted and its copy is installed.
-/

namespace Cs426.Kv

open Cs426.Machine

/-! ### Copies -/

namespace Server

variable {st : ShardMapState} {srv srv' : Server} {e : Event} {shard : ℤ}

/-- A copy begins with the creation of the shard. -/
theorem copying_cases (h : srv.step st e = some srv') (hc : srv'.Copying shard) :
    srv.Copying shard ∨ ∃ c index, e = .addShard c shard index ∧ shard ∈ (srv.handlers c).todo := by
  rcases hc with ⟨rest, hf⟩ | ⟨v, hv⟩
  · rcases fetching_cases h hf with hf | ⟨node, hf⟩ | ⟨c, index, he, hmem, -⟩
    · exact .inl (.inl ⟨rest, hf⟩)
    · exact .inl (.inl ⟨node :: rest, hf⟩)
    · exact .inr ⟨c, index, he, hmem⟩
  · rcases pending_cases h hv with hv | ⟨c, f, vs, node, rest, -, hf, -⟩
    · exact .inl (.inr ⟨v, hv⟩)
    · exact .inl (.inl ⟨node :: rest, c, List.mem_of_getElem? hf⟩)

theorem not_copying_of_idle (h : ∀ c, srv.handlers c = .idle) : ¬ srv.Copying shard := by
  rintro (⟨rest, c, hf⟩ | ⟨v, c, hv⟩)
  · simp [h c, Handler.fetches] at hf
  · simp [h c, Handler.values] at hv

/-- A call that begins while no other one runs has not begun to copy. -/
theorem not_copying_of_start {caller : Caller} (h : srv.step st (.startUpdate caller) = some srv')
    (hidle : ∀ c, srv.handlers c = .idle) : ¬ srv'.Copying shard := by
  intro hc
  rcases copying_cases h hc with hc | ⟨_, _, he, -⟩
  · exact not_copying_of_idle hidle hc
  · cases he

theorem hosts_of_not_start (h : srv.step st e = some srv') (he : e.isStart = false) (hhost : srv.Hosts shard) :
    srv'.Hosts shard := by
  rcases hosts_cases h shard with hiff | ⟨_, rfl, -⟩ | ⟨_, _, -, hhost'⟩
  · exact hiff.mpr hhost
  · cases he
  · exact hhost'

/-- What is being copied is hosted. -/
def CopiesHosted (srv : Server) : Prop := ∀ shard, srv.Copying shard → srv.Hosts shard

theorem CopiesHosted.step (hC : srv.CopiesHosted) (h : srv.step st e = some srv') (he : e.isStart = false) :
    srv'.CopiesHosted := by
  intro shard hc
  rcases copying_cases h hc with hc | ⟨c, index, rfl, -⟩
  · exact hosts_of_not_start h he (hC shard hc)
  · obtain ⟨_, _, _, -, -, rfl⟩ := step_addShard_iff.mp h
    exact (hosts_insert rfl).mpr (.inl rfl)

/-- How far a server is with a shard that is assigned to it, once `MakeKvServer` has begun its own
call: while this runs, no other call does and the shard is hosted or about to be; after it the
shard is hosted and its copy is installed. -/
structure Ready (srv : Server) (shard : ℤ) : Prop where
  installed : srv.handlers .makeKvServer = .idle →
    srv.Hosts shard ∧ ¬ srv.Copying shard ∧ ∀ c, shard ∉ (srv.handlers c).todo
  running : srv.handlers .makeKvServer ≠ .idle → srv.Reserved shard ∧ srv.handlers .shardMapListenLoop = .idle

namespace Ready

/-- A shard that a call has created is there when no call runs. -/
theorem of_idle (hidle : ∀ c, srv.handlers c = .idle) (hres : srv.Reserved shard) : srv.Ready shard where
  installed _ := by
    have htodo : ∀ c, shard ∉ (srv.handlers c).todo := fun c => by simp [hidle c, Handler.todo]
    rcases hres with hhost | ⟨c, hc⟩
    · exact ⟨hhost, not_copying_of_idle hidle, htodo⟩
    · exact absurd hc (htodo c)
  running h := absurd (hidle _) h

theorem step (hR : srv.Ready shard) (h : srv.step st e = some srv') (he : e.isStart = false) : srv'.Ready shard := by
  by_cases hown : srv.handlers .makeKvServer = .idle
  · obtain ⟨hhost, hcopy, htodo⟩ := hR.installed hown
    refine ⟨fun _ => ⟨hosts_of_not_start h he hhost, fun hc => ?_, fun c hc => htodo c (todo_of_not_start h he hc)⟩,
      fun hrun => absurd (idle_of_not_start h he hown) hrun⟩
    rcases copying_cases h hc with hc | ⟨c, _, -, hmem⟩
    · exact hcopy hc
    · exact htodo c hmem
  · obtain ⟨hres, hloop⟩ := hR.running hown
    have hres' := (reserved_step h he shard).mpr hres
    have hloop' := idle_of_not_start h he hloop
    by_cases hown' : srv'.handlers .makeKvServer = .idle
    · exact of_idle (fun c => by cases c; exacts [hown', hloop']) hres'
    · exact ⟨fun hidle => absurd hidle hown', fun _ => ⟨hres', hloop'⟩⟩

/-- `MakeKvServer` begins its own call. -/
theorem startOwn (h : srv.step st (.startUpdate .makeKvServer) = some srv') (hidle : ∀ c, srv.handlers c = .idle)
    (hmem : shard ∈ st.fetchShards srv.nodeName) : srv'.Ready shard := by
  have hres := (reserved_start h shard).mpr hmem
  have hloop : srv'.handlers .shardMapListenLoop = .idle := (handlers_of_start h (by decide)).trans (hidle _)
  by_cases hown : srv'.handlers .makeKvServer = .idle
  · exact of_idle (fun c => by cases c; exacts [hown, hloop]) hres
  · exact ⟨fun h => absurd h hown, fun _ => ⟨hres, hloop⟩⟩

/-- The loop begins a call. -/
theorem startLoop (hR : srv.Ready shard) (h : srv.step st (.startUpdate .shardMapListenLoop) = some srv')
    (hidle : ∀ c, srv.handlers c = .idle) (hmem : shard ∈ st.fetchShards srv.nodeName) : srv'.Ready shard := by
  obtain ⟨hhost, -, htodo⟩ := hR.installed (hidle _)
  have hown : srv'.handlers .makeKvServer = .idle := (handlers_of_start h (by decide)).trans (hidle _)
  have htodo' : ∀ c, shard ∉ (srv'.handlers c).todo := fun c hc => by
    rcases todo_cases h hc with hc | hc
    · exact htodo c hc
    · exact (mem_added.mp hc).2 hhost
  refine ⟨fun _ => ⟨?_, not_copying_of_start h hidle, htodo'⟩, fun hrun => absurd hown hrun⟩
  exact ((reserved_start h shard).mpr hmem).resolve_right fun ⟨c, hc⟩ => htodo' c hc

end Ready

end Server

/-! ### Servers whose calls do not overlap -/

namespace System

variable {s s' : System} {name : String} {N : ℤ}

/-- No call of `handleShardMapUpdate` of the server begins while another one runs. -/
def Separate (name : String) (s : System) : SystemLabel → Prop
  | .move (.startOwn n) | .move (.startLoop n) => n = name →
      (s.cluster.servers name).handlers .makeKvServer = .idle ∧
      (s.cluster.servers name).handlers .shardMapListenLoop = .idle
  | _ => True

instance (name : String) (s : System) (l : SystemLabel) : Decidable (s.Separate name l) := by
  unfold Separate
  split <;> infer_instance

theorem Separate.idle {caller : Caller} (h : s.Separate name (.move (caller.start name))) (c : Caller) :
    (s.cluster.servers name).handlers c = .idle := by
  cases caller <;> cases c <;> simp [Separate, Caller.start] at h <;> simp [h]

theorem copiesHosted_step (hC : (s.cluster.servers name).CopiesHosted) {l : SystemLabel} (hl : s.Separate name l)
    (hs : s.step l = some s') : (s'.cluster.servers name).CopiesHosted := by
  cases l with
  | serve l =>
    obtain ⟨hserve, hc, -⟩ := step_serve_iff.mp hs
    exact (Cluster.serve_invariant hserve hc (fun _ _ _ he hsrv hstep => hsrv.step hstep he) hC).2
  | move l =>
    obtain ⟨-, hc⟩ := step_move_iff.mp hs
    cases follow_cases hc with
    | swap hc' | same hc' => exact hc' ▸ hC
    | @start caller₀ name₀ hmap hother hstart =>
      by_cases hname : name = name₀
      · subst hname
        exact fun shard hcopy => absurd hcopy (Server.not_copying_of_start hstart hl.idle)
      · rw [hother name hname]
        exact hC

/-- While the shard is assigned to the node, its own call makes it ready. -/
theorem ready_step {shard : ℤ} (hI : s.Inv)
    (hR : (s.notifier.servers name).handles .makeKvServer = true → (s.cluster.servers name).Ready shard)
    (hmem : shard ∈ s.cluster.shardMap.fetchShards name) {l : SystemLabel} (hl : s.Separate name l)
    (hs : s.step l = some s') (hown : (s'.notifier.servers name).handles .makeKvServer = true) :
    (s'.cluster.servers name).Ready shard := by
  cases l with
  | serve l =>
    obtain ⟨hserve, hc, hn⟩ := step_serve_iff.mp hs
    exact (Cluster.serve_invariant (P := fun srv => srv.Ready shard) hserve hc
      (fun _ _ _ he hsrv hstep => hsrv.step hstep he) (hR (hn ▸ hown))).2
  | move l =>
    obtain ⟨hn, hc⟩ := step_move_iff.mp hs
    have hbefore := handles_cases hn hown
    cases follow_cases hc with
    | swap hc' =>
      rw [hc']
      exact hR (hbefore.resolve_right (by simp [Caller.start]))
    | same hc' _ hstart =>
      rw [hc']
      exact hR (hbefore.resolve_right (hstart _ _))
    | @start caller₀ name₀ hmap hother hstart =>
      by_cases hname : name = name₀
      · subst hname
        have hmem' : shard ∈ s.cluster.shardMap.fetchShards (s.cluster.servers name).nodeName :=
          (hI.nodeName name).symm ▸ hmem
        cases caller₀ with
        | makeKvServer => exact .startOwn hstart hl.idle hmem'
        | shardMapListenLoop =>
          exact (hR (hbefore.resolve_right (by simp [Caller.start]))).startLoop hstart hl.idle hmem'
      · rw [hother name hname]
        refine hR (hbefore.resolve_right fun he => hname (Caller.start_inj he).2.symm)

/-- What holds of a server while its node is assigned the shard, from the call of `MakeKvServer`
on. -/
structure Starting (N : ℤ) (name : String) (shard : ℤ) (s : System) : Prop extends s.Inv where
  states : s.notifier.States fun st => st.isValid = true ∧ st.numShards = N
  ready : (s.notifier.servers name).handles .makeKvServer = true → (s.cluster.servers name).Ready shard

theorem Starting.step {shard : ℤ} (hS : s.Starting N name shard) (hN' : N < 2 ^ 31)
    (hmem : name ∈ s.cluster.shardMap.nodesForShard shard) {l : SystemLabel} (hl : s.Separate name l)
    (hst : ∀ st, l = .move (.update st) → st.isValid = true ∧ st.numShards = N) (hs : s.step l = some s') :
    s'.Starting N name shard where
  toInv := hS.toInv.step hs
  states := by
    cases l with
    | serve l => exact (step_serve_iff.mp hs).2.2 ▸ hS.states
    | move l => exact hS.states.step (fun st he => hst st (he ▸ rfl)) (step_move_iff.mp hs).1
  ready := by
    obtain ⟨hvalid, hnum⟩ := hS.state ▸ hS.states.1
    exact ready_step hS.toInv hS.ready ((ShardMapState.mem_fetchShards_iff hvalid (hnum ▸ hN')).mpr hmem) hl hs

/-- **Startup copies are safe and finished**, if no call of `handleShardMapUpdate` of the server
begins while another one runs. Any number of servers and of calls of `Update`, in any order,
with valid states that all have the same number of shards, between 1 and `2 ^ 31 - 1`: a value
that the server is about to install is of a shard that is there; and if `MakeKvServer` returns
now, every shard that was assigned to the node in every state in force since its call is hosted,
and its copy is installed. -/
theorem startup_copies (hN : 0 < N) (hN' : N < 2 ^ 31) {s₀ s : System} (h₀ : s₀.Init)
    (hst₀ : s₀.cluster.shardMap.isValid = true ∧ s₀.cluster.shardMap.numShards = N) (ls : List SystemLabel)
    (hls : ∀ st, .move (.update st) ∈ ls → st.isValid = true ∧ st.numShards = N)
    (hrun : run System.step s₀ ls = some s) (hsep : Along System.step (Separate name) s₀ ls) :
    (∀ caller shard v values, (s.cluster.servers name).handlers caller = .installing ((shard, v) :: values) →
      (s.cluster.servers name).Hosts (int32 (getShardForKey v.key s.cluster.shardMap.numShards))) ∧
    ∀ ls₁ ls₂ s₁ s' shard, ls = ls₁ ++ .move (.makeKvServer name) :: ls₂ → run System.step s₀ ls₁ = some s₁ →
      Along System.step (fun s _ => name ∈ s.cluster.shardMap.nodesForShard shard) s₁
        (.move (.makeKvServer name) :: ls₂) →
      name ∈ s.cluster.shardMap.nodesForShard shard → s.step (.move (.finishOwn name)) = some s' →
      (s'.cluster.servers name).Hosts shard ∧ ¬ (s'.cluster.servers name).Copying shard := by
  have hlabels : Along System.step
      (fun _ l => ∀ st, l = .move (.update st) → st.isValid = true ∧ st.numShards = N) s₀ ls :=
    along_of_forall_mem s₀ fun l hl st he => hls st (he ▸ hl)
  constructor
  · intro caller shard v values hh
    obtain ⟨-, cls, hcls, hP⟩ := cluster_run (h₀.states hst₀) hls hrun
    have hplaced := (Cluster.Placed.init h₀.2 hst₀.2).of_run hN hN' (fun st hst => (hP st hst).2) hcls
    have hcopies : (s.cluster.servers name).CopiesHosted := by
      refine run_invariant (fun _ _ _ hC hl hs => copiesHosted_step hC hl hs) hsep (fun shard hcopy => ?_) hrun
      obtain ⟨now, hname⟩ := h₀.2 name
      exact absurd hcopy (Server.not_copying_of_idle fun c => by rw [hname]; rfl)
    have hpending : (s.cluster.servers name).Pending shard v := ⟨caller, by rw [hh]; exact List.mem_cons_self ..⟩
    rw [hplaced.numShards_eq, int32_getShardForKey v.key hN hN', (hplaced.servers name).pending shard v hpending]
    exact hcopies shard (.inr ⟨v, hpending⟩)
  · rintro ls₁ ls₂ s₁ s' shard rfl hrun₁ hassigned hmem hret
    have hrun₂ : run System.step s₁ (.move (.makeKvServer name) :: ls₂) = some s := by
      rwa [run_append, hrun₁, Option.bind_some] at hrun
    -- nothing has been done for the shard when `MakeKvServer` is called
    have hstart : s₁.Starting N name shard := by
      refine ⟨Inv.of_run h₀ hrun₁, (cluster_run (h₀.states hst₀)
        (fun st hst => hls st (List.mem_append_left _ hst)) hrun₁).1, fun hown => ?_⟩
      obtain ⟨u, hu, -⟩ := (run_cons_iff System.step).mp hrun₂
      obtain ⟨ho, -⟩ := Notifier.own_iff.mp (step_move_iff.mp hu).1
      simp [Threads.handles, ho] at hown
    have hS : s.Starting N name shard := run_invariant
      (fun _ _ _ hS hl hs => hS.step hN' hl.1 hl.2.1 hl.2.2 hs)
      (hassigned.and (((along_append_iff.mp hsep).2 s₁ hrun₁).and ((along_append_iff.mp hlabels).2 s₁ hrun₁))) hstart hrun₂
    obtain ⟨hn, hc⟩ := step_move_iff.mp hret
    obtain ⟨ho, -⟩ := Notifier.own_iff.mp hn
    obtain ⟨hidle, hc'⟩ := Option.ite_none_right_eq_some.mp hc
    obtain ⟨hhost, hcopy, -⟩ := (hS.ready (by simp [Threads.handles, ho])).installed hidle
    rw [← Option.some.inj hc']
    exact ⟨hhost, hcopy⟩

end System

/-- A value of a shard that is not there cannot be installed. -/
theorem System.step_install_eq_none {s : System} {name : String} {caller : Caller} {shard : ℤ} {v : GetShardValue}
    {values : List (ℤ × GetShardValue)}
    (hh : (s.cluster.servers name).handlers caller = .installing ((shard, v) :: values))
    (hnot : ¬ (s.cluster.servers name).Hosts (int32 (getShardForKey v.key s.cluster.shardMap.numShards))) (now : ℤ) :
    s.step (.serve (.event name (.install caller now))) = none := by
  rw [Option.eq_none_iff_forall_ne_some]
  intro s' hs
  obtain ⟨-, hc, -⟩ := step_serve_iff.mp hs
  obtain ⟨srv, hsrv, -⟩ := Cluster.act_iff.mp (Cluster.step_event_iff.mp hc).2
  obtain ⟨_, w, _, kvShard, hh', hfound, -⟩ := Server.step_install_iff.mp hsrv
  obtain ⟨⟨-, rfl⟩, -⟩ : (shard = _ ∧ v = w) ∧ _ := by simpa using hh.symm.trans hh'
  exact hnot (Server.hosts_iff.mpr ⟨kvShard, hfound⟩)

/-! ### Runs -/

/-- The only shard is assigned to both nodes. -/
def bothAssigned : System := .fresh (.oneShard ["n1", "n2"] ["n1", "n2"])

/-- Node `n2` is made, finds no peer, and stores a key. -/
def peerLabels : List SystemLabel :=
  [.move (.makeKvServer "n2"), .move (.announce "n2"), .move (.lock "n2"), .move (.listen "n2"),
    .move (.startOwn "n2"), .serve (.event "n2" (.addShard .makeKvServer 1 0)), .serve (.fail "n2" .makeKvServer 0 1),
    .serve (.event "n2" (.fetchGiveUp .makeKvServer 0)), .serve (.event "n2" (.relock .makeKvServer)),
    .serve (.event "n2" (.finishUpdate .makeKvServer)), .move (.finishOwn "n2"),
    .serve (.event "n2" (.set "k" "v" 1000 5))]

/-- Node `n1`, whose `MakeKvServer` has been called, fetches the shard from `n2`. -/
def fetchLabels : List SystemLabel :=
  [.move (.announce "n1"), .move (.lock "n1"), .move (.listen "n1"), .move (.startOwn "n1"),
    .serve (.event "n1" (.addShard .makeKvServer 1 0)), .serve (.ask "n1" .makeKvServer 0 [⟨"k", 6, 6⟩] 7 8)]

/-- It installs the copy. -/
def copiedLabels : List SystemLabel :=
  peerLabels ++ .move (.makeKvServer "n1") :: (fetchLabels ++ [.serve (.event "n1" (.relock .makeKvServer)),
    .serve (.event "n1" (.install .makeKvServer 9)), .serve (.event "n1" (.finishUpdate .makeKvServer))])

/-- Node `n1` before `MakeKvServer` is called, -/
def peered : System := (run System.step bothAssigned peerLabels).get (by decide +kernel)

/-- before it returns, -/
def copied : System := (run System.step bothAssigned copiedLabels).get (by decide +kernel)

/-- and after that. -/
def handedOut : System := (copied.step (.move (.finishOwn "n1"))).get (by decide +kernel)

theorem startup_copies_fromPeer :
    (handedOut.cluster.servers "n1").Hosts 1 ∧ ¬ (handedOut.cluster.servers "n1").Copying 1 :=
  (System.startup_copies (N := 1) (by decide) (by decide) (System.fresh_init _) (by decide) copiedLabels
    (by simp [copiedLabels, peerLabels, fetchLabels]) (run_eq_some_get _ _) (by decide +kernel)).2 peerLabels _ peered
    handedOut 1 rfl (run_eq_some_get _ _) (by decide +kernel) (by decide +kernel) (Option.some_get _).symm

/-- While `n1` has the copy in its hands, the shard is taken away from it, and its loop handles
that. -/
def crashLabels : List SystemLabel :=
  peerLabels ++ .move (.makeKvServer "n1") :: (fetchLabels ++ [.move (.update (.oneShard ["n1", "n2"] ["n2"])),
    .move (.swap 0), .move (.rLock 0 ["n1", "n2"]), .move (.send 0), .move (.startLoop "n1"),
    .serve (.event "n1" (.relock .makeKvServer))])

def crashed : System := (run System.step bothAssigned crashLabels).get (by decide +kernel)

/-- Before `n1` begins its own call, it is notified and its loop begins to copy the shard. -/
def earlyLabels : List SystemLabel :=
  [.move (.makeKvServer "n1"), .move (.announce "n1"), .move (.lock "n1"), .move (.listen "n1"),
    .move (.update (.oneShard ["n1", "n2"] ["n1", "n2"])), .move (.swap 0), .move (.rLock 0 ["n1"]), .move (.send 0),
    .move (.startLoop "n1"), .serve (.event "n1" (.addShard .shardMapListenLoop 1 0)), .move (.startOwn "n1"),
    .move (.finishOwn "n1")]

def early : System := (run System.step bothAssigned earlyLabels).get (by decide +kernel)

/-- In the first run `n1` is about to install a key into the shard it has just dropped, and there is
no step. In the second its `MakeKvServer` has returned, with the shard assigned to it all the
time, and the copy of the shard has not arrived. -/
theorem startup_unsafe :
    (run System.step bothAssigned crashLabels = some crashed ∧
      (crashed.cluster.servers "n1").handlers .makeKvServer = .installing [(1, ⟨"k", "v", 1000⟩)] ∧
      ¬ (crashed.cluster.servers "n1").Hosts (int32 (getShardForKey "k" crashed.cluster.shardMap.numShards)) ∧
      ∀ now, crashed.step (.serve (.event "n1" (.install .makeKvServer now))) = none) ∧
    run System.step bothAssigned earlyLabels = some early ∧
      Along System.step (fun s _ => "n1" ∈ s.cluster.shardMap.nodesForShard 1) bothAssigned earlyLabels ∧
      (early.notifier.servers "n1").owner = .running ∧ (early.cluster.servers "n1").Copying 1 := by
  have hinstalling : (crashed.cluster.servers "n1").handlers .makeKvServer = .installing [(1, ⟨"k", "v", 1000⟩)] := by
    decide +kernel
  have hgone : ¬ (crashed.cluster.servers "n1").Hosts (int32 (getShardForKey "k" crashed.cluster.shardMap.numShards)) := by
    decide +kernel
  exact ⟨⟨run_eq_some_get _ _, hinstalling, hgone, System.step_install_eq_none hinstalling hgone⟩, run_eq_some_get _ _,
    by decide +kernel, by decide +kernel, .inl ⟨["n2"], .shardMapListenLoop, by decide +kernel⟩⟩

end Cs426.Kv

import Cs426.Kv.System

/-!
# One snapshot of the shard map per update

`handleShardMapUpdate` loads the state of the shard map once for `ShardsForNode` and once more
for the `NodesForShard` of every shard it adds. `Update` swaps the state without asking anybody,
so the state may change in between. Then the nodes of an added shard are those of another
state: this server need not be among them, and there may be none, in which case `rand.Intn`
panics in `fetchShardContent` (`snapshot_torn`).

## What is proved

* `nodes_of_added` — as long as the state is not swapped between the first of these loads and the
  last, this server is among the nodes of every shard it adds. The numbers of shards are below
  `2 ^ 31`: the server asks for the nodes of the shard it has converted to `int32`.
-/

namespace Cs426.Kv

open Cs426.Machine

namespace System

variable {s s' : System} {name : String}

/-- The state is not swapped while a call of `handleShardMapUpdate` of the server has shards to
create whose nodes it has not read. -/
def Undisturbed (name : String) (s : System) : SystemLabel → Prop
  | .move (.swap _) => ((s.cluster.servers name).handlers .makeKvServer).todo = [] ∧
      ((s.cluster.servers name).handlers .shardMapListenLoop).todo = []
  | _ => True

instance (name : String) (s : System) (l : SystemLabel) : Decidable (s.Undisturbed name l) := by
  unfold Undisturbed
  split <;> infer_instance

/-- What the server has yet to create is assigned to it by the state in force. -/
def Assigned (name : String) (s : System) : Prop :=
  ∀ caller, ∀ shard ∈ ((s.cluster.servers name).handlers caller).todo, shard ∈ s.cluster.shardMap.fetchShards name

theorem Assigned.step (hA : s.Assigned name) (hI : s.Inv) {l : SystemLabel} (hl : s.Undisturbed name l)
    (hs : s.step l = some s') : s'.Assigned name := by
  cases l with
  | serve l =>
    obtain ⟨hserve, hc, -⟩ := step_serve_iff.mp hs
    intro caller shard hshard
    obtain ⟨hmap, htodo⟩ := Cluster.serve_invariant
      (P := fun srv => shard ∈ (srv.handlers caller).todo → shard ∈ s.cluster.shardMap.fetchShards name) hserve hc
      (fun _ _ _ he hsrv hstep hmem => hsrv (Server.todo_of_not_start hstep he hmem)) (hA caller shard)
    rw [hmap]
    exact htodo hshard
  | move l =>
    obtain ⟨hn, hc⟩ := step_move_iff.mp hs
    cases follow_cases hc with
    | swap hc' =>
      intro caller shard hshard
      rw [hc'] at hshard
      cases caller with
      | makeKvServer => exact absurd (hl.1 ▸ hshard) List.not_mem_nil
      | shardMapListenLoop => exact absurd (hl.2 ▸ hshard) List.not_mem_nil
    | same hc' => exact fun caller shard hshard => hc' ▸ hA caller shard (hc' ▸ hshard)
    | @start caller₀ name₀ hmap hother hstart =>
      intro caller shard hshard
      rw [hmap]
      by_cases hname : name = name₀
      · subst hname
        rcases Server.todo_cases hstart hshard with hold | hnew
        · exact hA caller shard hold
        · exact hI.nodeName name ▸ (Server.mem_added.mp hnew).1
      · rw [hother name hname] at hshard
        exact hA caller shard hshard

/-- A shard that is to be created is, with any node of its list to begin with. -/
theorem isSome_step_addShard {caller : Caller} {shard : ℤ} {index : ℕ}
    (hshard : shard ∈ ((s.cluster.servers name).handlers caller).todo)
    (hindex : index < (s.cluster.shardMap.nodesForShard shard).length) :
    (s.step (.serve (.event name (.addShard caller shard index)))).isSome = true := by
  cases hh : (s.cluster.servers name).handlers caller with
  | copying todo fetches results =>
    rw [hh] at hshard
    have hstep := Server.step_addShard_iff.mpr ⟨todo, fetches, results, hh, ⟨hshard, hindex⟩, rfl⟩
    have hc := Cluster.step_event_iff.mpr ⟨rfl, Cluster.act_iff.mpr ⟨_, hstep, rfl⟩⟩
    exact Option.isSome_iff_exists.mpr ⟨⟨s.notifier, _⟩, step_serve_iff.mpr ⟨rfl, hc, rfl⟩⟩
  | idle | installing => simp [hh, Handler.todo] at hshard

/-- **One snapshot per update**, if the state is not swapped in the middle. Any number of calls of
`Update`, in any order, with valid states of fewer than `2 ^ 31` shards: for every shard a
server has yet to add, the list of nodes it passes to `fetchShardContent` contains the server
itself. So the list is not empty, and whatever index is drawn, the server goes on. -/
theorem nodes_of_added {s₀ s : System} (h₀ : s₀.Init)
    (hst₀ : s₀.cluster.shardMap.isValid = true ∧ s₀.cluster.shardMap.numShards < 2 ^ 31) (ls : List SystemLabel)
    (hls : ∀ st, .move (.update st) ∈ ls → st.isValid = true ∧ st.numShards < 2 ^ 31)
    (hrun : run System.step s₀ ls = some s) (hcalm : Along System.step (Undisturbed name) s₀ ls) (caller : Caller)
    (shard : ℤ) (hshard : shard ∈ ((s.cluster.servers name).handlers caller).todo) :
    name ∈ s.cluster.shardMap.nodesForShard shard ∧ s.cluster.shardMap.nodesForShard shard ≠ [] ∧
      ∀ index < (s.cluster.shardMap.nodesForShard shard).length,
        (s.step (.serve (.event name (.addShard caller shard index)))).isSome = true := by
  obtain ⟨-, hA⟩ : s.Inv ∧ s.Assigned name := by
    refine run_invariant (I := fun s => s.Inv ∧ s.Assigned name)
      (fun _ _ _ h hl hs => ⟨h.1.step hs, h.2.step h.1 hl hs⟩) hcalm ⟨Inv.init h₀, ?_⟩ hrun
    intro caller shard hshard
    obtain ⟨now, hname⟩ := h₀.2 name
    simp [hname, makeKvServer, Handler.todo] at hshard
  obtain ⟨hvalid, hN⟩ := shardMap_of_run (P := fun st => st.isValid = true ∧ st.numShards < 2 ^ 31) h₀ hst₀ hls hrun
  have hmem := (ShardMapState.mem_fetchShards_iff hvalid hN).mp (hA caller shard hshard)
  exact ⟨hmem, List.ne_nil_of_mem hmem, fun index hindex => isSome_step_addShard hshard hindex⟩

end System

/-- Node `n1` is made and about to create the only shard. -/
def addingLabels : List SystemLabel :=
  [.move (.makeKvServer "n1"), .move (.announce "n1"), .move (.lock "n1"), .move (.listen "n1"),
    .move (.startOwn "n1")]

/-- Where these steps arrive. -/
def adding : System := (run System.step (.fresh (.oneShard ["n1"] ["n1"])) addingLabels).get (by decide +kernel)

theorem nodes_of_added_oneShard : "n1" ∈ adding.cluster.shardMap.nodesForShard 1 :=
  (System.nodes_of_added (System.fresh_init _) (by decide) addingLabels (by simp [addingLabels]) (run_eq_some_get _ _)
    (by decide +kernel) .makeKvServer 1 (by decide +kernel)).1

/-- From there the shard is assigned to no node. -/
def tornLabels : List SystemLabel := addingLabels ++ [.move (.update (.oneShard ["n1"] [])), .move (.swap 0)]

/-- Where this leads. -/
def torn : System := (run System.step (.fresh (.oneShard ["n1"] ["n1"])) tornLabels).get (by decide +kernel)

/-- Two valid states, the second swapped in while `n1` is about to create a shard of the first: the
shard has no nodes now, and whatever index is drawn, there is none. -/
theorem snapshot_torn :
    (ShardMapState.oneShard ["n1"] ["n1"]).isValid = true ∧ (ShardMapState.oneShard ["n1"] []).isValid = true ∧
      run System.step (.fresh (.oneShard ["n1"] ["n1"])) tornLabels = some torn ∧
      (torn.cluster.servers "n1").handlers .makeKvServer = .copying [1] [] [] ∧
      torn.cluster.shardMap.nodesForShard 1 = [] ∧
      ∀ index, torn.step (.serve (.event "n1" (.addShard .makeKvServer 1 index))) = none := by
  refine ⟨by decide, by decide, run_eq_some_get _ _, by decide +kernel, by decide +kernel, fun index => rfl⟩

end Cs426.Kv

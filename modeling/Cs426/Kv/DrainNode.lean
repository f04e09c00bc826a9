import Cs426.Kv.MoveShard
import Cs426.Kv.Replicas

/-!
# Draining and removing nodes

The workflows of `lab4/kv/test/test_setup.go` other than `MoveShard`: `DrainNode`, which moves
all shards of a node away, `RemoveNode`, which drops them, `DropShard`, and the random ones.
They work on a copy of the shard map and put it in force with `UpdateShardMapping`.

`ShardsForNode` lists the shards in any order; each call of `rand.Perm` draws anything.

## What is proved

* `drainNode_empties` — draining never fails: the node is left without shards, each of them
  has as many replicas as before, or all other nodes, and no other replica goes.
* `workflows_keep_shard` — whatever workflows run, in any order and number, the keys of a shard
  that always has a host after them are on all its hosts, and nothing else has come up.
-/

namespace Cs426.Kv

open Cs426.Machine Cs426.InPlace
open ShardMapState (twoNodes)

/-! ### The loops -/

/-- The loop of `DrainNode` that gives every shard another node, if there is one. -/
def addToShards (rand : ℤ → RandPerm) (numNodes : ℕ) : List ℤ → Prog WorkflowError ShardMapState Unit
  | [] => pure ()
  | shard :: shards => do
    let smState ← get
    if (smState.nodesForShard shard).length < numNodes then
      addReplicasForShard (rand shard) shard 1 []
      addToShards rand numNodes shards
    else addToShards rand numNodes shards

/-- The loop of `DrainNode` and `RemoveNode` that takes a node from every shard. -/
def dropFromShards (rand : ℤ → RandPerm) (nodeName : String) : List ℤ → Prog WorkflowError ShardMapState Unit
  | [] => pure ()
  | shard :: shards => do
    dropReplicasForShard (rand shard) shard 1 [nodeName]
    dropFromShards rand nodeName shards

variable {st st' : ShardMapState} {shards : List ℤ} {nodeName : String}

namespace Reassigned

theorem refl (h : st.isValid = true) : Reassigned [] st st := ⟨h, rfl, rfl, fun _ _ => rfl⟩

theorem trans {st₁ : ShardMapState} {shard : ℤ} (h : Reassigned [shard] st st₁) (h' : Reassigned shards st₁ st') :
    Reassigned (shard :: shards) st st' := by
  refine ⟨h'.valid, h'.nodes.trans h.nodes, h'.numShards.trans h.numShards, fun s hs => ?_⟩
  simp only [List.mem_cons, not_or] at hs
  rw [h'.others s hs.2, h.others s (by simpa using hs.1)]

theorem mono (h : Reassigned [] st st') (shard : ℤ) : Reassigned [shard] st st' :=
  ⟨h.valid, h.nodes, h.numShards, fun s _ => h.others s (by simp)⟩

theorem nodesForShard_eq (h : Reassigned shards st st') {s : ℤ} (hs : s ∉ shards) :
    st'.nodesForShard s = st.nodesForShard s := by
  rw [ShardMapState.nodesForShard, ShardMapState.nodesForShard, h.others s hs]

end Reassigned

/-- **The first loop of `DrainNode`**: it cannot fail, and gives a new node to each of the shards
that lacks one of them all. -/
theorem exec_addToShards (rand : ℤ → RandPerm) (hvalid : st.isValid = true) (hnodup : shards.Nodup)
    (hin : ∀ s ∈ shards, 1 ≤ s ∧ s ≤ st.numShards) :
    ∃ st', exec (addToShards rand st.nodes.keys.length shards) st = some (.ok (), st') ∧ Reassigned shards st st' ∧
      ∀ s ∈ shards, if (st.nodesForShard s).length < st.nodes.keys.length then
        ∃ node, node ∉ st.nodesForShard s ∧ st'.nodesForShard s = st.nodesForShard s ++ [node]
        else st'.nodesForShard s = st.nodesForShard s := by
  induction shards generalizing st with
  | nil => exact ⟨st, rfl, .refl hvalid, by simp⟩
  | cons shard shards ih =>
    obtain ⟨hnew, hnodup⟩ := List.nodup_cons.mp hnodup
    obtain ⟨hshard, hin⟩ := List.forall_mem_cons.mp hin
    -- the map after the first shard
    have hone : ∃ st₁, exec (addToShards rand st.nodes.keys.length (shard :: shards)) st =
        exec (addToShards rand st.nodes.keys.length shards) st₁ ∧ Reassigned [shard] st st₁ ∧
        if (st.nodesForShard shard).length < st.nodes.keys.length then
          ∃ node, node ∉ st.nodesForShard shard ∧ st₁.nodesForShard shard = st.nodesForShard shard ++ [node]
          else st₁.nodesForShard shard = st.nodesForShard shard := by
      simp only [addToShards, exec_bind, exec_get, Option.bind_some, exec_ite]
      split_ifs with hroom
      · obtain ⟨nodes, hadd, hlen, hold, hnn, hknown⟩ := add_succeeds hvalid (rand shard)
          (show ([] : List String).length ≤ 1 by simp) List.nodup_nil (by simp)
          (show (st.nodesForShard shard).length + 1 ≤ st.nodes.keys.length by omega)
        rw [exec_addReplicasForShard (rand shard) (by simp), hadd]
        refine ⟨st.setNodes shard nodes, rfl, .setNodes hvalid hshard hnn hknown, ?_⟩
        rw [ShardMapState.nodesForShard_setNodes, if_pos rfl]
        rw [List.append_nil] at hold
        obtain ⟨new, rfl⟩ := hold
        obtain ⟨node, rfl⟩ := List.length_eq_one_iff.mp (by simpa using hlen : new.length = 1)
        refine ⟨node, fun hmem => ?_, rfl⟩
        exact (List.disjoint_of_nodup_append hnn) hmem (List.mem_singleton_self node)
      · exact ⟨st, rfl, (Reassigned.refl hvalid).mono shard, rfl⟩
    obtain ⟨st₁, hexec, hedit, hfirst⟩ := hone
    have hin₁ : ∀ s ∈ shards, 1 ≤ s ∧ s ≤ st₁.numShards := fun s hs => hedit.numShards ▸ hin s hs
    obtain ⟨st', hrest, hedit', hothers⟩ := ih hedit.valid hnodup hin₁
    rw [hedit.nodes] at hrest hothers
    refine ⟨st', hexec.trans hrest, hedit.trans hedit', List.forall_mem_cons.mpr ⟨?_, fun s hs => ?_⟩⟩
    · rw [hedit'.nodesForShard_eq hnew]
      exact hfirst
    · have hsame := hedit.nodesForShard_eq (by rintro (h : s ∈ [shard]); exact hnew (List.mem_singleton.mp h ▸ hs))
      have := hothers s hs
      rwa [hsame] at this

/-- **The loop that takes a node from its shards** cannot fail, and takes only that node. -/
theorem exec_dropFromShards (rand : ℤ → RandPerm) (hvalid : st.isValid = true) (hnodup : shards.Nodup)
    (hin : ∀ s ∈ shards, nodeName ∈ st.nodesForShard s) :
    ∃ st', exec (dropFromShards rand nodeName shards) st = some (.ok (), st') ∧ Reassigned shards st st' ∧
      ∀ s ∈ shards, (st'.nodesForShard s).Perm ((st.nodesForShard s).erase nodeName) := by
  induction shards generalizing st with
  | nil => exact ⟨st, rfl, .refl hvalid, by simp⟩
  | cons shard shards ih =>
    obtain ⟨hnew, hnodup⟩ := List.nodup_cons.mp hnodup
    obtain ⟨hshard, hin⟩ := List.forall_mem_cons.mp hin
    obtain ⟨nodes, hdrop, hlen, hnn, hkept⟩ := drop_succeeds hvalid (rand shard)
      (show [nodeName].length ≤ 1 by simp) (by simpa using hshard) (List.length_pos_of_mem hshard)
    have hold := ShardMapState.nodup_nodesForShard hvalid shard
    have hedit : Reassigned [shard] st (st.setNodes shard nodes) :=
      .setNodes hvalid (ShardMapState.range_of_mem_nodesForShard hvalid hshard) hnn fun node hnode =>
        hold.2 node (hkept node hnode).1
    have hperm : nodes.Perm ((st.nodesForShard shard).erase nodeName) := by
      refine List.Subperm.perm_of_length_le (List.subperm_of_subset hnn fun node hnode => ?_) ?_
      · obtain ⟨hmem, hne⟩ := hkept node hnode
        exact (List.mem_erase_of_ne (by simpa using hne)).mpr hmem
      · rw [List.length_erase_of_mem hshard]
        omega
    have hsame : ∀ s ∈ shards, (st.setNodes shard nodes).nodesForShard s = st.nodesForShard s := fun s hs =>
      hedit.nodesForShard_eq fun h => hnew (List.mem_singleton.mp h ▸ hs)
    obtain ⟨st', hrest, hedit', hothers⟩ := ih hedit.valid hnodup fun s hs => by rw [hsame s hs]; exact hin s hs
    refine ⟨st', ?_, hedit.trans hedit', List.forall_mem_cons.mpr ⟨?_, fun s hs => ?_⟩⟩
    · simp only [dropFromShards, exec_bind, exec_dropReplicasForShard, List.length_singleton] at hdrop ⊢
      rw [hdrop]
      exact hrest
    · rw [hedit'.nodesForShard_eq hnew, ShardMapState.nodesForShard_setNodes, if_pos rfl]
      exact hperm
    · rw [← hsame s hs]
      exact hothers s hs

theorem Reassigned.updateShardMapping (h : Reassigned shards st st') : st.updateShardMapping st' = st' := by
  obtain ⟨nodes, shardsToNodes, numShards⟩ := st'
  obtain ⟨-, rfl, rfl, -⟩ := h
  rfl

/-- The shards of a node, in any order. -/
theorem ShardMapState.shards_of_perm (hvalid : st.isValid = true) (h : shards.Perm (st.shardsForNode nodeName)) :
    shards.Nodup ∧ ∀ s, s ∈ shards ↔ nodeName ∈ st.nodesForShard s :=
  ⟨h.nodup_iff.mpr (nodup_shardsForNode hvalid nodeName), fun _ => h.mem_iff.trans mem_shardsForNode⟩

/-- Nothing is dropped in the first loop of `DrainNode`. -/
theorem addToShards_keeps {rand : ℤ → RandPerm} (hvalid : st.isValid = true)
    (hshards : shards.Perm (st.shardsForNode nodeName))
    (hadd : exec (addToShards rand st.nodes.keys.length shards) st = some (.ok (), st')) {s : ℤ} {node : String}
    (hnode : node ∈ st.nodesForShard s) : node ∈ (st.updateShardMapping st').nodesForShard s := by
  obtain ⟨hnodup, hmem⟩ := ShardMapState.shards_of_perm hvalid hshards
  obtain ⟨st₁, hexec, hedit, hadded⟩ := exec_addToShards rand hvalid hnodup fun s hs =>
    ShardMapState.range_of_mem_nodesForShard hvalid ((hmem s).mp hs)
  cases hexec.symm.trans hadd
  rw [hedit.updateShardMapping]
  by_cases hs : s ∈ shards
  · have := hadded s hs
    split_ifs at this
    · obtain ⟨new, -, heq⟩ := this
      rw [heq]
      exact List.mem_append_left _ hnode
    · rwa [this]
  · rwa [hedit.nodesForShard_eq hs]

/-- **Draining a node.** On every valid map, in whatever order the shards of the node come and
whatever is drawn, the two loops of `DrainNode` succeed. The node is left without shards; each
shard it had keeps its other nodes, and has as many nodes as before, or all others if these are
fewer; the other shards are as they were. (So the only node of a map takes its shards along.) -/
theorem drainNode_empties (rand rand' : ℤ → RandPerm) (hvalid : st.isValid = true)
    (hshards : shards.Perm (st.shardsForNode nodeName)) :
    ∃ st₁ st₂, exec (addToShards rand st.nodes.keys.length shards) st = some (.ok (), st₁) ∧
      exec (dropFromShards rand' nodeName shards) (st.updateShardMapping st₁) = some (.ok (), st₂) ∧
      st₂.isValid = true ∧ st₂.shardsForNode nodeName = [] ∧
      (∀ s, nodeName ∈ st.nodesForShard s →
        (st₂.nodesForShard s).length = min (st.nodesForShard s).length (st.nodes.keys.length - 1) ∧
        ∀ node ∈ st.nodesForShard s, node ≠ nodeName → node ∈ st₂.nodesForShard s) ∧
      ∀ s, nodeName ∉ st.nodesForShard s → st₂.nodesForShard s = st.nodesForShard s := by
  obtain ⟨hnodup, hmem⟩ := ShardMapState.shards_of_perm hvalid hshards
  obtain ⟨st₁, hadd, hedit₁, hadded⟩ := exec_addToShards rand hvalid hnodup fun s hs =>
    ShardMapState.range_of_mem_nodesForShard hvalid ((hmem s).mp hs)
  -- the old nodes stay in front
  have hgrown : ∀ s ∈ shards, ∃ new, st₁.nodesForShard s = st.nodesForShard s ++ new ∧
      (new = [] ∧ st.nodes.keys.length ≤ (st.nodesForShard s).length ∨
        new.length = 1 ∧ (st.nodesForShard s).length < st.nodes.keys.length) := by
    intro s hs
    have := hadded s hs
    split_ifs at this with hroom
    · obtain ⟨node, -, heq⟩ := this
      exact ⟨[node], heq, .inr ⟨rfl, hroom⟩⟩
    · exact ⟨[], by rw [this, List.append_nil], .inl ⟨rfl, by omega⟩⟩
  have hin : ∀ s ∈ shards, nodeName ∈ st₁.nodesForShard s := by
    intro s hs
    have := addToShards_keeps hvalid hshards hadd ((hmem s).mp hs)
    rwa [hedit₁.updateShardMapping] at this
  obtain ⟨st₂, hdrop, hedit₂, hdropped⟩ := exec_dropFromShards rand' hedit₁.valid hnodup hin
  refine ⟨st₁, st₂, hadd, by rw [hedit₁.updateShardMapping, hdrop], hedit₂.valid, ?_, fun s hs => ?_, fun s hs => ?_⟩
  · refine List.eq_nil_iff_forall_not_mem.mpr fun s hs => ?_
    rw [ShardMapState.mem_shardsForNode] at hs
    by_cases hin' : s ∈ shards
    · rw [(hdropped s hin').mem_iff, (ShardMapState.nodup_nodesForShard hedit₁.valid s).1.mem_erase_iff] at hs
      exact hs.1 rfl
    · rw [hedit₂.nodesForShard_eq hin', hedit₁.nodesForShard_eq hin'] at hs
      exact hin' ((hmem s).mpr hs)
  · have hs' := (hmem s).mpr hs
    obtain ⟨new, heq, hcount⟩ := hgrown s hs'
    have hle : (st.nodesForShard s).length ≤ st.nodes.keys.length := by
      obtain ⟨hnn, hknown⟩ := ShardMapState.nodup_nodesForShard hvalid s
      exact (List.subperm_of_subset hnn hknown).length_le
    refine ⟨?_, fun node hnode hne => ?_⟩
    · rw [(hdropped s hs').length_eq, List.length_erase_of_mem (hin s hs'), heq, List.length_append]
      rcases hcount with ⟨rfl, hfull⟩ | ⟨hone, hroom⟩
      · rw [List.length_nil]
        omega
      · omega
    · rw [(hdropped s hs').mem_iff, List.mem_erase_of_ne hne, heq]
      exact List.mem_append_left _ hnode
  · have hs' : s ∉ shards := fun h => hs ((hmem s).mp h)
    rw [hedit₂.nodesForShard_eq hs', hedit₁.nodesForShard_eq hs']

theorem drainNode_empties_twoNodes :
    ∃ st₁ st₂, exec (addToShards (fun _ => inOrder) 2 [1]) twoNodes = some (.ok (), st₁) ∧
      exec (dropFromShards (fun _ => inOrder) "n1" [1]) (twoNodes.updateShardMapping st₁) = some (.ok (), st₂) ∧
      st₂.shardsForNode "n1" = [] := by
  obtain ⟨st₁, st₂, hadd, hdrop, -, hnone, -⟩ := drainNode_empties (fun _ => inOrder) (fun _ => inOrder)
    (show twoNodes.isValid = true by decide) (show [1].Perm (twoNodes.shardsForNode "n1") by decide)
  exact ⟨st₁, st₂, hadd, hdrop, hnone⟩

/-! ### The workflows -/

/-- `DrainNode`, from one state of the cluster to the next, with its ways out. -/
inductive DrainNode (nodeName : String) (c : Cluster) : Cluster → Prop
  | addFails {rand : ℤ → RandPerm} {shards : List ℤ} {e : WorkflowError} {smState : ShardMapState} :
      shards.Perm (c.shardMap.shardsForNode nodeName) →
      exec (addToShards rand c.shardMap.nodes.keys.length shards) c.shardMap = some (.error e, smState) →
      DrainNode nodeName c c
  | dropFails {rand rand' : ℤ → RandPerm} {shards : List ℤ} {e : WorkflowError} {smState smState' : ShardMapState}
      {c' : Cluster} : shards.Perm (c.shardMap.shardsForNode nodeName) →
      exec (addToShards rand c.shardMap.nodes.keys.length shards) c.shardMap = some (.ok (), smState) →
      Handled c (c.shardMap.updateShardMapping smState) c' →
      exec (dropFromShards rand' nodeName shards) c'.shardMap = some (.error e, smState') → DrainNode nodeName c c'
  | drains {rand rand' : ℤ → RandPerm} {shards : List ℤ} {smState smState' : ShardMapState} {c' c'' : Cluster} :
      shards.Perm (c.shardMap.shardsForNode nodeName) →
      exec (addToShards rand c.shardMap.nodes.keys.length shards) c.shardMap = some (.ok (), smState) →
      Handled c (c.shardMap.updateShardMapping smState) c' →
      exec (dropFromShards rand' nodeName shards) c'.shardMap = some (.ok (), smState') →
      Handled c' (c'.shardMap.updateShardMapping smState') c'' → DrainNode nodeName c c''

inductive RemoveNode (nodeToRemove : String) (c : Cluster) : Cluster → Prop
  | fails {rand : ℤ → RandPerm} {shards : List ℤ} {e : WorkflowError} {smState : ShardMapState} :
      shards.Perm (c.shardMap.shardsForNode nodeToRemove) →
      exec (dropFromShards rand nodeToRemove shards) c.shardMap = some (.error e, smState) → RemoveNode nodeToRemove c c
  | removes {rand : ℤ → RandPerm} {shards : List ℤ} {smState : ShardMapState} {c' : Cluster} :
      shards.Perm (c.shardMap.shardsForNode nodeToRemove) →
      exec (dropFromShards rand nodeToRemove shards) c.shardMap = some (.ok (), smState) →
      Handled c (c.shardMap.updateShardMapping smState) c' → RemoveNode nodeToRemove c c'

/-- `DropShard`; `DropRandomShard` is this with a shard of the map. -/
inductive DropShard (shardToDrop : ℤ) (c : Cluster) : Cluster → Prop
  | fails {rand : RandPerm} {e : WorkflowError} {smState : ShardMapState} :
      exec (dropReplicasForShard rand shardToDrop (c.shardMap.nodesForShard shardToDrop).length []) c.shardMap =
        some (.error e, smState) → DropShard shardToDrop c c
  | drops {rand : RandPerm} {smState : ShardMapState} {c' : Cluster} :
      exec (dropReplicasForShard rand shardToDrop (c.shardMap.nodesForShard shardToDrop).length []) c.shardMap =
        some (.ok (), smState) →
      Handled c (c.shardMap.updateShardMapping smState) c' → DropShard shardToDrop c c'

/-- Any number of workflows, and time that passes in between, after each of which `shard` has a
host. `MoveRandomShard` is a `MoveShard` to a node that it draws. -/
inductive Workflows (shard : ℤ) (c : Cluster) : Cluster → Prop
  | refl : Workflows shard c c
  | wait {c' c'' : Cluster} {ls : List Label} : Workflows shard c c' → (∀ l ∈ ls, l.Quiet c'.shardMap) →
      run Cluster.step c' ls = some c'' → c''.Settled → Workflows shard c c''
  | move {c' c'' : Cluster} {s : ℤ} {srcNode dstNode : String} : Workflows shard c c' →
      1 ≤ s ∧ s ≤ c'.shardMap.numShards → dstNode ∈ c'.shardMap.nodes.keys →
      MoveShard s srcNode dstNode c' c'' → Workflows shard c c''
  | drain {c' c'' : Cluster} {nodeName : String} : Workflows shard c c' → DrainNode nodeName c' c'' →
      c''.shardMap.nodesForShard shard ≠ [] → Workflows shard c c''
  | remove {c' c'' : Cluster} {nodeName : String} : Workflows shard c c' → RemoveNode nodeName c' c'' →
      c''.shardMap.nodesForShard shard ≠ [] → Workflows shard c c''
  | drop {c' c'' : Cluster} {s : ℤ} : Workflows shard c c' → 1 ≤ s ∧ s ≤ c'.shardMap.numShards →
      DropShard s c' c'' → c''.shardMap.nodesForShard shard ≠ [] → Workflows shard c c''

/-! ### What the workflows keep -/

theorem Eases.shardMap_eq {c c' : Cluster} (h : Eases c st c') : c'.shardMap = st := by
  obtain ⟨ls, hls, hrun, -⟩ := h
  exact Label.shardMap_of_run hls rfl hrun

namespace Gentle

variable {shard : ℤ}

/-- Nodes go, but not all. -/
theorem of_shrunk (h : Reassigned shards st st') (hsub : ∀ node ∈ st'.nodesForShard shard, node ∈ st.nodesForShard shard)
    (hne : st'.nodesForShard shard ≠ []) : Gentle shard st (st.updateShardMapping st') := by
  rw [h.updateShardMapping]
  obtain ⟨name, hname⟩ := List.exists_mem_of_ne_nil _ hne
  exact ⟨h.valid, h.numShards, ⟨name, hname, hsub name hname⟩, fun p _ hp _ hnot _ => absurd (hsub p hp) hnot⟩

/-- The first update of `DrainNode`. -/
theorem of_addToShards {rand : ℤ → RandPerm} (hvalid : st.isValid = true)
    (hshards : shards.Perm (st.shardsForNode nodeName))
    (hadd : exec (addToShards rand st.nodes.keys.length shards) st = some (.ok (), st'))
    (hne : st.nodesForShard shard ≠ []) : Gentle shard st (st.updateShardMapping st') := by
  obtain ⟨hnodup, hmem⟩ := ShardMapState.shards_of_perm hvalid hshards
  obtain ⟨st₁, hexec, hedit, hadded⟩ := exec_addToShards rand hvalid hnodup fun s hs =>
    ShardMapState.range_of_mem_nodesForShard hvalid ((hmem s).mp hs)
  cases hexec.symm.trans hadd
  by_cases hs : shard ∈ shards
  · have := hadded shard hs
    split_ifs at this
    · obtain ⟨node, -, heq⟩ := this
      rw [hedit.updateShardMapping]
      obtain ⟨name, hname⟩ := List.exists_mem_of_ne_nil _ hne
      refine ⟨hedit.valid, hedit.numShards, ⟨name, heq ▸ List.mem_append_left _ hname, hname⟩, fun p q hp hq hp' hq' => ?_⟩
      rw [heq, List.mem_append, List.mem_singleton] at hp hq
      exact (hp.resolve_left hp').trans (hq.resolve_left hq').symm
    · exact of_shrunk hedit (fun node hnode => this ▸ hnode) (by rwa [this])
  · have := hedit.nodesForShard_eq hs
    exact of_shrunk hedit (fun node hnode => this ▸ hnode) (by rwa [this])

/-- The second update of `DrainNode`, and that of `RemoveNode`. -/
theorem of_dropFromShards {rand : ℤ → RandPerm} (hvalid : st.isValid = true) (hnodup : shards.Nodup)
    (hin : ∀ s ∈ shards, nodeName ∈ st.nodesForShard s)
    (hdrop : exec (dropFromShards rand nodeName shards) st = some (.ok (), st'))
    (hne : (st.updateShardMapping st').nodesForShard shard ≠ []) : Gentle shard st (st.updateShardMapping st') := by
  obtain ⟨st₁, hexec, hedit, hdropped⟩ := exec_dropFromShards rand hvalid hnodup hin
  cases hexec.symm.trans hdrop
  rw [hedit.updateShardMapping] at hne
  refine of_shrunk hedit (fun node hnode => ?_) hne
  by_cases hs : shard ∈ shards
  · exact List.mem_of_mem_erase ((hdropped shard hs).mem_iff.mp hnode)
  · exact hedit.nodesForShard_eq hs ▸ hnode

/-- The update of `DropShard`. -/
theorem of_dropShard {rand : RandPerm} {s : ℤ} (hvalid : st.isValid = true) (hs : 1 ≤ s ∧ s ≤ st.numShards)
    (hdrop : exec (dropReplicasForShard rand s (st.nodesForShard s).length []) st = some (.ok (), st'))
    (hne : (st.updateShardMapping st').nodesForShard shard ≠ []) : Gentle shard st (st.updateShardMapping st') := by
  obtain ⟨nodes, hexec, -, hnn, hkept⟩ := drop_succeeds hvalid rand
    (show ([] : List String).length ≤ (st.nodesForShard s).length by simp) (List.nil_subset _) le_rfl
  rw [exec_dropReplicasForShard, hexec] at hdrop
  cases hdrop
  have hknown : ∀ node ∈ nodes, node ∈ st.nodes.keys := fun node hnode =>
    (ShardMapState.nodup_nodesForShard hvalid s).2 node (hkept node hnode).1
  have hedit : Reassigned [s] st (st.setNodes s nodes) := .setNodes hvalid hs hnn hknown
  rw [hedit.updateShardMapping] at hne
  refine of_shrunk hedit (fun node hnode => ?_) hne
  rw [ShardMapState.nodesForShard_setNodes] at hnode
  split_ifs at hnode with heq
  · exact heq ▸ (hkept node hnode).1
  · exact hnode

end Gentle

variable {N : ℤ} {c c₀ : Cluster} {shard : ℤ}

/-- **The rule for workflows**: what every gentle update of a shard preserves, any number of
workflows preserves that leave it a host. -/
theorem Workflows.induction {P : Cluster → Prop} (hN : 0 < N) (hN' : N < 2 ^ 31) (h₀ : c₀.Ready N)
    (hne₀ : c₀.shardMap.nodesForShard shard ≠ []) (hP₀ : P c₀)
    (hstep : ∀ c st c', c.Ready N → P c → Gentle shard c.shardMap st → Eases c st c' → P c')
    (h : Workflows shard c₀ c) : c.Ready N ∧ c.shardMap.nodesForShard shard ≠ [] ∧ P c := by
  have hone : ∀ {c st c'}, c.Ready N ∧ c.shardMap.nodesForShard shard ≠ [] ∧ P c → Gentle shard c.shardMap st →
      Eases c st c' → c'.Ready N ∧ c'.shardMap.nodesForShard shard ≠ [] ∧ P c' := by
    intro c st c' hc hst h
    obtain ⟨hready, hmap⟩ := hc.1.handled hN hN' hst.valid hst.numShards_eq h
    obtain ⟨name, hname, -⟩ := hst.kept
    exact ⟨hready, hmap ▸ List.ne_nil_of_mem hname, hstep _ _ _ hc.1 hc.2.2 hst h⟩
  induction h with
  | refl => exact ⟨h₀, hne₀, hP₀⟩
  | wait _ hls hrun hsettled ih =>
    exact hone ih ((Graceful.refl ih.1.valid).gentle ih.2.1) ⟨_, hls, hrun, hsettled⟩
  | move _ hshard hdst hmove ih =>
    exact Moves.induction (P := fun d => d.shardMap.nodesForShard shard ≠ [] ∧ P d) hN hN' ih.1 ih.2
      (fun d st d' hd hP hst he => (hone ⟨hd, hP⟩ (hst.gentle hP.1) he).2) (.move .refl hshard hdst hmove)
  | @drain c' c'' nodeName _ hdrain hne ih =>
    cases hdrain with
    | addFails => exact ih
    | dropFails hperm hadd hhandled =>
      exact hone ih (.of_addToShards ih.1.valid hperm hadd ih.2.1) hhandled.eases
    | @drains _ _ shards _ _ c₁ _ hperm hadd hhandled hdrop hhandled' =>
      have ih₁ := hone ih (.of_addToShards ih.1.valid hperm hadd ih.2.1) hhandled.eases
      obtain ⟨hnodup, hmem⟩ := ShardMapState.shards_of_perm ih.1.valid hperm
      have hin : ∀ s ∈ shards, nodeName ∈ c₁.shardMap.nodesForShard s := fun s hs => by
        rw [hhandled.eases.shardMap_eq]
        exact addToShards_keeps ih.1.valid hperm hadd ((hmem s).mp hs)
      rw [hhandled'.eases.shardMap_eq] at hne
      exact hone ih₁ (.of_dropFromShards ih₁.1.valid hnodup hin hdrop hne) hhandled'.eases
  | remove _ hremove hne ih =>
    cases hremove with
    | fails => exact ih
    | removes hperm hdrop hhandled =>
      obtain ⟨hnodup, hmem⟩ := ShardMapState.shards_of_perm ih.1.valid hperm
      rw [hhandled.eases.shardMap_eq] at hne
      exact hone ih (.of_dropFromShards ih.1.valid hnodup (fun s hs => (hmem s).mp hs) hdrop hne) hhandled.eases
  | drop _ hs hdrop hne ih =>
    cases hdrop with
    | fails => exact ih
    | drops hdrop hhandled =>
      rw [hhandled.eases.shardMap_eq] at hne
      exact hone ih (.of_dropShard ih.1.valid hs hdrop hne) hhandled.eases

/-- **No workflow loses a shard that has a host.** Run any number of workflows, in any order: moves,
drains, removals of nodes and of shards; let the shard have a host after each of them, and let `t`
be a moment that no clock has passed in the end. Before them let the hosts of the shard have agreed
on what they have under a key at `t`. If they had it, unexpired, it is on every host now, with its
value, and `Get` returns it whichever replica it starts with. Whatever a host has under the shard
was stored before. -/
theorem workflows_keep_shard (hN : 0 < N) (hN' : N < 2 ^ 31) (h₀ : c₀.Sound N) (hsettled : c₀.Settled)
    (hvalid : c₀.shardMap.isValid = true) (hhosted : c₀.shardMap.nodesForShard shard ≠ [])
    (h : Workflows shard c₀ c) {t : ℤ} (ht : c.Before t) (key : String) :
    (c₀.Agree shard key t → ∀ q value, (c₀.servers q).valueAt shard key t = some value →
      (∀ p, (c.servers p).Hosts shard → (c.servers p).valueAt shard key t = some value) ∧
      (key ≠ "" → ∀ index clock, (∀ name, (c.servers name).now ≤ clock name ∧ clock name ≤ t) →
        c.get key index clock = .ok ⟨value, true⟩)) ∧
    ∀ p value, (c.servers p).valueAt shard key t = some value →
      ∃ q obj, (c₀.servers q).entry shard key = some obj ∧ obj.value = value := by
  have hready : c₀.Ready N := ⟨h₀, hsettled, hvalid⟩
  refine ⟨fun hagree q value hvalue => ?_, fun p value hvalue => ?_⟩
  · obtain ⟨hhas₀, hplaced⟩ := hagree.has hready hN' hvalue
    obtain ⟨hc, -, hhas⟩ := h.induction (P := fun d => d.Before t → d.Has ⟨shard, key, value, t⟩) hN hN' hready hhosted
      (fun _ => hhas₀) fun d st d' hd hP hst he hb => (hP (hb.of_eases he)).handled hd hN hN' hplaced hst he hb
    exact ⟨fun p hp => (hhas ht).valueAt_eq hp,
      fun hkey index clock hclock => (hhas ht).get_eq hc hN hN' hplaced hkey index hclock⟩
  · obtain ⟨obj, hobj, rfl, -⟩ := Server.valueAt_eq_some_iff.mp hvalue
    have hfrom₀ : c₀.From fun shard key value =>
        ∃ q obj, (c₀.servers q).entry shard key = some obj ∧ obj.value = value :=
      ⟨fun q _ _ obj hobj => ⟨q, obj, hobj, rfl⟩, fun _ _ _ hv => absurd hv hsettled.idle.not_pending⟩
    exact (h.induction hN hN' hready hhosted hfrom₀ fun d st d' hd hf hst he =>
      hf.handled hd hN hN' hst.numShards_eq he).2.2.stored p shard key obj hobj

/-- Draining `n1` in the cluster of `beforeMove` goes through the same maps as moving the shard. -/
theorem drainNode_beforeMove : DrainNode "n1" beforeMove afterMove := by
  have hmap : afterAdd.shardMap = .oneShard ["n1", "n2", "n3"] ["n1", "n2", "n3"] := handled_add.eases.shardMap_eq
  have hadd : exec (addToShards (fun _ => inOrder) beforeMove.shardMap.nodes.keys.length [1]) beforeMove.shardMap =
      some (.ok (), .oneShard ["n1", "n2", "n3"] ["n1", "n2", "n3"]) := by
    rw [← ShardMapState.setNodes_oneShard _ ["n1", "n2"]]
    rfl
  have hdrop : exec (dropFromShards (fun _ => inOrder) "n1" [1]) afterAdd.shardMap =
      some (.ok (), .oneShard ["n1", "n2", "n3"] ["n2", "n3"]) := by
    rw [hmap, ← ShardMapState.setNodes_oneShard _ ["n1", "n2", "n3"]]
    rfl
  refine .drains (.refl _) hadd handled_add hdrop ?_
  rw [hmap]
  exact handled_drop

theorem workflows_keep_shard_drained : afterMove.get "k" 1 (fun _ => 9000000) = .ok ⟨"v", true⟩ := by
  have hworked : Workflows 1 beforeMove afterMove := by
    refine .drain .refl drainNode_beforeMove ?_
    rw [handled_drop.eases.shardMap_eq]
    decide
  exact ((workflows_keep_shard (by decide) (by decide) (Cluster.hosting_sound KvShard.single_stored)
    Cluster.hosting_settled (by decide +kernel) (by decide +kernel) hworked (afterMove_before (by decide)) "k").1
    (Cluster.hosting_agree 1 "k" _) "n2" "v" (by decide +kernel)).2 (by decide) 1 _
    fun name => ⟨afterMove_before (by decide) name, le_rfl⟩

end Cs426.Kv

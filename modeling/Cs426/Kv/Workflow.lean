import Cs426.Kv.Migration
import Cs426.Kv.Validity

/-!
# Moving shards

`addReplicasForShard`, `dropReplicasForShard` and the workflow `MoveShard` over them
(`lab4/kv/test/test_setup.go`).

What `rand.Perm` draws is an argument. A panic is the absence of a result: an index that the
drawn permutation does not have. The errors keep what their texts show.
`UpdateShardMapping` puts the new map in force, twice, and so waits until every server has
handled it; here a workflow goes on when every server has (`Handled`).
-/

namespace Cs426.Kv

open Cs426.Machine

inductive WorkflowError where
  /-- not enough nodes available to satisfy replication requirement for shard -/
  | notEnoughNodes (shard : ℤ)
  /-- dstNode already added for shard -/
  | alreadyAdded (dstNode : String) (shard : ℤ)
  /-- attempting to drop more replicas than there are nodes for shard -/
  | tooFewNodes (numReplicasToDrop numCurrentNodes : ℕ) (shard : ℤ)
  /-- provided too many srcNodes to drop for shard -/
  | tooManySrcNodes (numSrcNodes numReplicasToDrop : ℕ) (shard : ℤ)
  /-- srcNodes not in the node set for shard -/
  | notInNodeSet (srcNodes : List String) (shard : ℤ)

/-- `options[perm[i]]` for `i` below a bound, in order. -/
def pick (options : List String) : ℕ → List ℕ → Option (List String)
  | 0, _ => some []
  | _ + 1, [] => none
  | k + 1, i :: perm => options[i]?.bind fun node => (pick options k perm).map (node :: ·)

/-- The loop over `dstNodes`, `nodes` being those added so far. -/
def addDstNodes (shard : ℤ) : List String → List String → Except WorkflowError (List String)
  | nodes, [] => .ok nodes
  | nodes, node :: dstNodes =>
    if node ∈ nodes then .error (.alreadyAdded node shard) else addDstNodes shard (nodes ++ [node]) dstNodes

/-- The loop over `nodes` that drops the `srcNodes`: those it has not come across, and the
candidates to stay. -/
def dropSrcNodes : List String → List String → List String × List String
  | srcNodes, [] => (srcNodes, [])
  | srcNodes, node :: nodes =>
    if node ∈ srcNodes then dropSrcNodes (srcNodes.erase node) nodes
    else ((dropSrcNodes srcNodes nodes).1, node :: (dropSrcNodes srcNodes nodes).2)

namespace ShardMapState

/-- The nodes of a shard are replaced. -/
def setNodes (st : ShardMapState) (shard : ℤ) (nodes : List String) : ShardMapState :=
  { st with shardsToNodes := st.shardsToNodes.insert shard nodes }

def addReplicasForShard (st : ShardMapState) (shard : ℤ) (numReplicasToAdd : ℕ) (dstNodes : List String)
    (perm : List ℕ) : Option (Except WorkflowError ShardMapState) :=
  let nodes := st.nodesForShard shard
  if nodes.length + numReplicasToAdd > st.nodes.keys.length then some (.error (.notEnoughNodes shard))
  else
    match addDstNodes shard nodes dstNodes with
    | .error e => some (.error e)
    | .ok nodes =>
      let dstOptions := st.nodes.keys.filter fun node => node ∉ nodes
      (pick dstOptions (numReplicasToAdd - dstNodes.length) perm).map fun chosen =>
        .ok (st.setNodes shard (nodes ++ chosen))

def dropReplicasForShard (st : ShardMapState) (shard : ℤ) (numReplicasToDrop : ℕ) (srcNodes : List String)
    (perm : List ℕ) : Option (Except WorkflowError ShardMapState) :=
  let nodes := st.nodesForShard shard
  if nodes.length < numReplicasToDrop then some (.error (.tooFewNodes numReplicasToDrop nodes.length shard))
  else if srcNodes.length > numReplicasToDrop then
    some (.error (.tooManySrcNodes srcNodes.length numReplicasToDrop shard))
  else
    match dropSrcNodes srcNodes.dedup nodes with
    | ([], candidates) =>
      (pick candidates (nodes.length - numReplicasToDrop) perm).map fun chosen => .ok (st.setNodes shard chosen)
    | (missing, _) => some (.error (.notInNodeSet missing shard))

/-- `UpdateShardMapping`: the map it puts in force. -/
def updateShardMapping (st smState : ShardMapState) : ShardMapState :=
  { st with shardsToNodes := smState.shardsToNodes }

end ShardMapState

/-- The update to `st` is put in force and every server handles it; nobody writes and no call
fails. -/
def Handled (c : Cluster) (st : ShardMapState) (c' : Cluster) : Prop :=
  ∃ ls, (∀ l ∈ ls, Label.Quiet st l) ∧ run Cluster.step c (.update st :: ls) = some c' ∧ c'.Settled

/-- `MoveShard`, from one state of the cluster to the next, with its ways out. -/
inductive MoveShard (shard : ℤ) (srcNode dstNode : String) (c : Cluster) : Cluster → Prop
  | noop : srcNode = dstNode → MoveShard shard srcNode dstNode c c
  | addFails {perm : List ℕ} {e : WorkflowError} : srcNode ≠ dstNode →
      c.shardMap.addReplicasForShard shard 1 [dstNode] perm = some (.error e) → MoveShard shard srcNode dstNode c c
  | dropFails {perm perm' : List ℕ} {smState : ShardMapState} {c' : Cluster} {e : WorkflowError} : srcNode ≠ dstNode →
      c.shardMap.addReplicasForShard shard 1 [dstNode] perm = some (.ok smState) →
      Handled c (c.shardMap.updateShardMapping smState) c' →
      c'.shardMap.dropReplicasForShard shard 1 [srcNode] perm' = some (.error e) →
      MoveShard shard srcNode dstNode c c'
  | moves {perm perm' : List ℕ} {smState smState' : ShardMapState} {c' c'' : Cluster} : srcNode ≠ dstNode →
      c.shardMap.addReplicasForShard shard 1 [dstNode] perm = some (.ok smState) →
      Handled c (c.shardMap.updateShardMapping smState) c' →
      perm'.Perm (List.range ((c'.shardMap.nodesForShard shard).length - 1)) →
      c'.shardMap.dropReplicasForShard shard 1 [srcNode] perm' = some (.ok smState') →
      Handled c' (c'.shardMap.updateShardMapping smState') c'' →
      MoveShard shard srcNode dstNode c c''

/-- Any number of workflows, each with a shard and a node of the map, and time that passes in
between. -/
inductive Moves (c : Cluster) : Cluster → Prop
  | refl : Moves c c
  | wait {c' c'' : Cluster} {ls : List Label} : Moves c c' → (∀ l ∈ ls, l.Quiet c'.shardMap) →
      run Cluster.step c' ls = some c'' → c''.Settled → Moves c c''
  | move {c' c'' : Cluster} {shard : ℤ} {srcNode dstNode : String} : Moves c c' →
      1 ≤ shard ∧ shard ≤ c'.shardMap.numShards → dstNode ∈ c'.shardMap.nodes.keys →
      MoveShard shard srcNode dstNode c' c'' → Moves c c''

/-! ### The maps of a workflow -/

theorem pick_eq_some {options : List String} {k : ℕ} {perm : List ℕ} {chosen : List String}
    (h : pick options k perm = some chosen) : chosen = (perm.take k).filterMap (options[·]?) := by
  induction k generalizing perm chosen with
  | zero => simpa [pick, eq_comm] using h
  | succ k ih =>
    cases perm with
    | nil => cases h
    | cons i perm =>
      obtain ⟨node, hnode, h⟩ := Option.bind_eq_some_iff.mp h
      obtain ⟨rest, hrest, rfl⟩ := Option.map_eq_some_iff.mp h
      rw [List.take_succ_cons, List.filterMap_cons_some hnode, ih hrest]

theorem filterMap_range_getElem? (options : List String) :
    (List.range options.length).filterMap (options[·]?) = options := by
  induction options with
  | nil => rfl
  | cons node options ih =>
    rw [List.length_cons, List.range_succ_eq_map, List.filterMap_cons_some (by rfl), List.filterMap_map]
    exact congrArg _ ih

/-- Drawing all the options only reorders them. -/
theorem pick_perm {options : List String} {perm : List ℕ} {chosen : List String}
    (hperm : perm.Perm (List.range options.length)) (h : pick options options.length perm = some chosen) :
    chosen.Perm options := by
  rw [pick_eq_some h, List.take_of_length_le (by rw [hperm.length_eq, List.length_range])]
  exact (hperm.filterMap _).trans (List.Perm.of_eq (filterMap_range_getElem? options))

theorem dropSrcNodes_nil (nodes : List String) : dropSrcNodes [] nodes = ([], nodes) := by
  induction nodes with
  | nil => rfl
  | cons node nodes ih => simp [dropSrcNodes, ih]

theorem dropSrcNodes_singleton (srcNode : String) (nodes : List String) : dropSrcNodes [srcNode] nodes =
    if srcNode ∈ nodes then ([], nodes.erase srcNode) else ([srcNode], nodes) := by
  induction nodes with
  | nil => simp [dropSrcNodes]
  | cons node nodes ih =>
    by_cases hnode : node = srcNode
    · subst hnode
      simp [dropSrcNodes, dropSrcNodes_nil]
    · have hne : srcNode ≠ node := fun h => hnode h.symm
      by_cases hmem : srcNode ∈ nodes <;> simp [dropSrcNodes, ih, hnode, hne, hmem]

namespace ShardMapState

variable {st : ShardMapState}

theorem nodesForShard_setNodes (st : ShardMapState) (shard s : ℤ) (nodes : List String) :
    (st.setNodes shard nodes).nodesForShard s = if s = shard then nodes else st.nodesForShard s := by
  by_cases hs : s = shard
  · subst hs
    simp [setNodes, nodesForShard]
  · simp [setNodes, nodesForShard, hs]

/-- A valid map stays valid when a shard gets other nodes of the map. -/
theorem isValid_setNodes (h : st.isValid = true) {shard : ℤ} (hshard : 1 ≤ shard ∧ shard ≤ st.numShards)
    {nodes : List String} (hnodup : nodes.Nodup) (hknown : ∀ node ∈ nodes, node ∈ st.nodes.keys) :
    (st.setNodes shard nodes).isValid = true := by
  obtain ⟨-, hentries⟩ := isValid_iff_wellFormed.mp h
  have hall : ∀ s ns, (st.setNodes shard nodes).shardsToNodes.lookup s = some ns →
      (1 ≤ s ∧ s ≤ st.numShards) ∧ ns.Nodup ∧ ∀ node ∈ ns, node ∈ st.nodes.keys := by
    intro s ns hl
    by_cases hs : s = shard
    · subst hs
      rw [setNodes, AList.lookup_insert, Option.some.injEq] at hl
      exact hl ▸ ⟨hshard, hnodup, hknown⟩
    · rw [setNodes, AList.lookup_insert_ne hs] at hl
      exact hentries s ns hl
  exact isValid_iff_wellFormed.mpr ⟨(isValid_iff_wellFormed.mp h).1, hall⟩

theorem addReplicasForShard_one {shard : ℤ} {dstNode : String} {perm : List ℕ} {smState : ShardMapState}
    (h : st.addReplicasForShard shard 1 [dstNode] perm = some (.ok smState)) :
    dstNode ∉ st.nodesForShard shard ∧ smState = st.setNodes shard (st.nodesForShard shard ++ [dstNode]) := by
  simp only [addReplicasForShard, addDstNodes] at h
  split_ifs at h with hlen hmem
  · simp at h
  · simp at h
  · refine ⟨hmem, ?_⟩
    simpa [pick, eq_comm] using h

theorem dropReplicasForShard_one {shard : ℤ} {srcNode : String} {perm : List ℕ} {smState : ShardMapState}
    (hperm : perm.Perm (List.range ((st.nodesForShard shard).length - 1)))
    (h : st.dropReplicasForShard shard 1 [srcNode] perm = some (.ok smState)) :
    ∃ chosen, chosen.Perm ((st.nodesForShard shard).erase srcNode) ∧ smState = st.setNodes shard chosen := by
  simp only [dropReplicasForShard, (List.nodup_singleton srcNode).dedup, dropSrcNodes_singleton] at h
  by_cases hmem : srcNode ∈ st.nodesForShard shard
  · simp only [hmem, if_true] at h
    split_ifs at h with hlen
    · simp at h
    · simp at h
    · obtain ⟨chosen, hchosen, hst⟩ := Option.map_eq_some_iff.mp h
      rw [← List.length_erase_of_mem hmem] at hperm hchosen
      exact ⟨chosen, pick_perm hperm hchosen, (Except.ok.inj hst).symm⟩
  · simp only [hmem, if_false] at h
    split_ifs at h <;> simp at h

end ShardMapState

end Cs426.Kv

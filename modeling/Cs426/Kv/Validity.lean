import Mathlib.Order.Interval.Finset.Basic
import Mathlib.Data.Int.Interval
import Cs426.Kv.ShardMap

/-!
# What `IsValid` decides

`IsValid` (`lab4/kv/shardmap.go`) goes through the shards and their nodes and rejects the
first thing that is out of place; before that it rejects a map with more shards than
`NumShards`. On the maps it accepts, `ShardsForNode` and `NodesForShard` are two readings of
one relation.

The test at the start is redundant for every map that has a shard: distinct numbers between
`1` and `NumShards` are at most `NumShards` many. It is not redundant for a map without
shards: one with a negative `NumShards` has nothing out of place, and is rejected by it
(`isValid_negative`).
-/

namespace Cs426.Kv

namespace ShardMapState

variable {st : ShardMapState}

/-- Every shard is between `1` and `NumShards`, and its nodes are known and listed once. -/
def WellFormed (st : ShardMapState) : Prop :=
  ∀ shard nodes, st.shardsToNodes.lookup shard = some nodes →
    (1 ≤ shard ∧ shard ≤ st.numShards) ∧ nodes.Nodup ∧ ∀ node ∈ nodes, node ∈ st.nodes.keys

/-- Distinct shards between `1` and `NumShards` are at most `NumShards` many. -/
theorem WellFormed.length_keys_le (h : st.WellFormed) (h0 : 0 ≤ st.numShards) :
    (st.shardsToNodes.keys.length : ℤ) ≤ st.numShards := by
  have hsub : st.shardsToNodes.keys.toFinset ⊆ Finset.Icc 1 st.numShards := by
    intro shard hshard
    have hmem := AList.mem_keys.mpr (List.mem_toFinset.mp hshard)
    obtain ⟨nodes, hnodes⟩ := Option.isSome_iff_exists.mp (AList.lookup_isSome.mpr hmem)
    exact Finset.mem_Icc.mpr (h shard nodes hnodes).1
  have hcard := Finset.card_le_card hsub
  rw [List.toFinset_card_of_nodup (AList.keys_nodup _), Int.card_Icc] at hcard
  omega

/-- `IsValid` accepts the well-formed maps whose `NumShards` is not negative. -/
theorem isValid_iff_wellFormed : st.isValid = true ↔ 0 ≤ st.numShards ∧ st.WellFormed := by
  rw [isValid_iff]
  constructor
  · rintro ⟨hlen, h⟩
    exact ⟨by omega, h⟩
  · rintro ⟨h0, h⟩
    exact ⟨h.length_keys_le h0, h⟩

/-- The nodes of a shard of a valid map are known and listed once. -/
theorem nodup_nodesForShard (h : st.isValid = true) (shard : ℤ) :
    (st.nodesForShard shard).Nodup ∧ ∀ node ∈ st.nodesForShard shard, node ∈ st.nodes.keys := by
  unfold nodesForShard
  cases hl : st.shardsToNodes.lookup shard with
  | none => simp
  | some nodes => exact ((isValid_iff_wellFormed.mp h).2 shard nodes hl).2

/-- The shards of a node are listed once: a shard has the node once, and the map has the
shard once. -/
theorem nodup_shardsForNode (h : st.isValid = true) (nodeName : String) : (st.shardsForNode nodeName).Nodup := by
  have hone : ∀ e ∈ st.shardsToNodes.entries, ((e.2.filter (· == nodeName)).map fun _ => e.1).Nodup := by
    rintro ⟨shard, nodes⟩ he
    have hnodup := ((isValid_iff_wellFormed.mp h).2 shard nodes (AList.mem_lookup_iff.mpr he)).2.1
    rw [List.filter_beq, List.map_replicate]
    exact List.nodup_replicate.mpr (List.nodup_iff_count_le_one.mp hnodup nodeName)
  have hapart : st.shardsToNodes.entries.Pairwise (Function.onFun List.Disjoint fun e =>
      (e.2.filter (· == nodeName)).map fun _ => e.1) := by
    refine (List.nodupKeys_iff_pairwise.mp st.shardsToNodes.nodupKeys).imp fun {e e'} hne => ?_
    intro shard hshard hshard'
    obtain ⟨-, -, rfl⟩ := List.mem_map.mp hshard
    obtain ⟨-, -, heq⟩ := List.mem_map.mp hshard'
    exact hne heq.symm
  exact List.nodup_flatMap.mpr ⟨hone, hapart⟩

/-- The order in which the shards are visited does not matter. -/
theorem isValid_of_perm {shards : AList fun _ : ℤ => List String}
    (hperm : shards.entries.Perm st.shardsToNodes.entries) :
    ({ st with shardsToNodes := shards } : ShardMapState).isValid = st.isValid := by
  have hlookup : ∀ shard, shards.lookup shard = st.shardsToNodes.lookup shard := fun _ => AList.perm_lookup hperm
  rw [Bool.eq_iff_iff, isValid_iff_wellFormed, isValid_iff_wellFormed]
  simp only [WellFormed, hlookup]

/-- **What `IsValid` decides, and what it is good for.** In whatever order the shards are
visited, it accepts a map just when `NumShards` is not negative, every shard is between `1`
and `NumShards`, and every list of nodes is without repetition and names known nodes only. On
a map it accepts, a node has a shard in `ShardsForNode` just when the shard has the node in
`NodesForShard`, and neither list repeats anything. -/
theorem isValid_decides (st : ShardMapState) :
    (st.isValid = true ↔ 0 ≤ st.numShards ∧ st.WellFormed) ∧
    (∀ shards : AList fun _ : ℤ => List String, shards.entries.Perm st.shardsToNodes.entries →
      ({ st with shardsToNodes := shards } : ShardMapState).isValid = st.isValid) ∧
    (st.isValid = true → ∀ shard nodeName,
      (shard ∈ st.shardsForNode nodeName ↔ nodeName ∈ st.nodesForShard shard) ∧
        (st.shardsForNode nodeName).Nodup ∧ (st.nodesForShard shard).Nodup) :=
  ⟨isValid_iff_wellFormed, fun _ hperm => isValid_of_perm hperm, fun h shard nodeName =>
    ⟨mem_shardsForNode, nodup_shardsForNode h nodeName, (nodup_nodesForShard h shard).1⟩⟩

/-- Two nodes, and three shards of which the first is on both. -/
def twoNodes : ShardMapState where
  nodes := AList.insert "n1" ⟨"localhost", 9001⟩ (AList.insert "n2" ⟨"localhost", 9002⟩ ∅)
  shardsToNodes := AList.insert 1 ["n1", "n2"] (AList.insert 2 ["n2"] (AList.insert 3 [] ∅))
  numShards := 3

theorem isValid_decides_twoNodes : twoNodes.isValid = true ∧ (twoNodes.shardsForNode "n2").Nodup ∧
    (1 ∈ twoNodes.shardsForNode "n2" ↔ "n2" ∈ twoNodes.nodesForShard 1) :=
  have hvalid : twoNodes.isValid = true := by decide
  have h := (isValid_decides twoNodes).2.2 hvalid 1 "n2"
  ⟨hvalid, h.2.1, h.1⟩

/-- **A map without shards is not always accepted**: with a negative `NumShards` it is
rejected, though there is no shard or node to object to. -/
theorem isValid_negative : (⟨∅, ∅, -1⟩ : ShardMapState).WellFormed ∧ (⟨∅, ∅, -1⟩ : ShardMapState).isValid = false :=
  ⟨fun shard nodes h => by simp at h, by decide⟩

end ShardMapState

end Cs426.Kv

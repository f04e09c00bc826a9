import Cs426.Kv.Workflow
import Cs426.Lib.InPlace

/-!
# Adding and dropping replicas

`addReplicasForShard` and `dropReplicasForShard` (`lab4/kv/test/test_setup.go`) as they are
written: they change the shard map they are handed in place, and may return an error or panic on
the way. What a workflow makes of them is in `Workflow`, where they are functions from map to map;
here each is shown to be that function (`exec_addReplicasForShard`, `exec_dropReplicasForShard`).

`rand.Perm` is a parameter that draws any permutation of the right length. The map
`ShardsToNodes` is not `nil`: the callers hand over copies, whose maps are made.

## What is proved

* `replicas_keep_valid` — on a valid map and with arguments as the comments of the two functions
  ask for them, whatever is drawn, there is no panic; a call that succeeds changes the nodes of
  that one shard, by exactly the number it was asked for and as it was asked to, and leaves a
  valid map; one that fails changes nothing.
-/

namespace Cs426.Kv

open Cs426.InPlace
open ShardMapState (twoNodes)

/-- `rand.Perm`. -/
structure RandPerm where
  draw : ℕ → List ℕ
  perm : ∀ n, (draw n).Perm (List.range n)

def addReplicasForShard (rand : RandPerm) (shard : ℤ) (numReplicasToAdd : ℕ) (dstNodes : List String) :
    Prog WorkflowError ShardMapState Unit := do
  let smState ← get
  let nodes := smState.nodesForShard shard
  let allNodesSet := smState.nodes.keys
  if nodes.length + numReplicasToAdd > allNodesSet.length then throw (.notEnoughNodes shard)
  else
    let nodes ← ofExcept (addDstNodes shard nodes dstNodes)
    -- `make` panics on a negative capacity
    if allNodesSet.length < nodes.length then orPanic none
    else
      let dstOptions := allNodesSet.filter fun node => node ∉ nodes
      let perm := rand.draw dstOptions.length
      let chosen ← orPanic (pick dstOptions (numReplicasToAdd - dstNodes.length) perm)
      set (smState.setNodes shard (nodes ++ chosen))

def dropReplicasForShard (rand : RandPerm) (shard : ℤ) (numReplicasToDrop : ℕ) (srcNodes : List String) :
    Prog WorkflowError ShardMapState Unit := do
  let smState ← get
  let nodes := smState.nodesForShard shard
  if nodes.length < numReplicasToDrop then throw (.tooFewNodes numReplicasToDrop nodes.length shard)
  else if srcNodes.length > numReplicasToDrop then
    throw (.tooManySrcNodes srcNodes.length numReplicasToDrop shard)
  else
    let srcNodesSet := (dropSrcNodes srcNodes.dedup nodes).1
    let candidates := (dropSrcNodes srcNodes.dedup nodes).2
    if srcNodesSet.length > 0 then throw (.notInNodeSet srcNodesSet shard)
    else
      let perm := rand.draw (nodes.length - srcNodes.length)
      let chosen ← orPanic (pick candidates (nodes.length - numReplicasToDrop) perm)
      set (smState.setNodes shard chosen)

/-! ### As functions from map to map -/

/-- What a caller sees of a function that returns the new map: an error leaves the old one. -/
def inPlace (st : ShardMapState) : Except WorkflowError ShardMapState → Except WorkflowError Unit × ShardMapState
  | .ok smState => (.ok (), smState)
  | .error e => (.error e, st)

/-- The loop over `dstNodes` appends them all, or stops with an error. -/
theorem addDstNodes_eq_ok {shard : ℤ} {nodes dstNodes nodes' : List String}
    (h : addDstNodes shard nodes dstNodes = .ok nodes') : nodes' = nodes ++ dstNodes := by
  induction dstNodes generalizing nodes with
  | nil =>
    cases h
    exact (List.append_nil _).symm
  | cons node dstNodes ih =>
    rw [addDstNodes] at h
    split_ifs at h
    rw [ih h, List.append_assoc, List.singleton_append]

variable {st : ShardMapState} {shard : ℤ}

/-- The nodes `addReplicasForShard` chooses from. -/
def dstOptions (st : ShardMapState) (shard : ℤ) (dstNodes : List String) : List String :=
  st.nodes.keys.filter fun node => node ∉ st.nodesForShard shard ++ dstNodes

theorem exec_addReplicasForShard (rand : RandPerm) {numReplicasToAdd : ℕ} {dstNodes : List String}
    (hlen : dstNodes.length ≤ numReplicasToAdd) :
    exec (addReplicasForShard rand shard numReplicasToAdd dstNodes) st =
      (st.addReplicasForShard shard numReplicasToAdd dstNodes
        (rand.draw (dstOptions st shard dstNodes).length)).map (inPlace st) := by
  simp only [addReplicasForShard, ShardMapState.addReplicasForShard, exec_bind, exec_get, exec_ite, exec_throw,
    exec_ofExcept, exec_orPanic, exec_set, Option.bind_some]
  split_ifs with hroom
  · rfl
  · cases hadd : addDstNodes shard (st.nodesForShard shard) dstNodes with
    | error e => rfl
    | ok nodes =>
      obtain rfl := addDstNodes_eq_ok hadd
      have hcap : ¬ st.nodes.keys.length < (st.nodesForShard shard ++ dstNodes).length := by
        rw [List.length_append]
        omega
      simp only [if_neg hcap, dstOptions]
      generalize pick _ _ _ = picked
      cases picked <;> rfl

theorem exec_dropReplicasForShard (rand : RandPerm) (numReplicasToDrop : ℕ) (srcNodes : List String) :
    exec (dropReplicasForShard rand shard numReplicasToDrop srcNodes) st =
      (st.dropReplicasForShard shard numReplicasToDrop srcNodes
        (rand.draw ((st.nodesForShard shard).length - srcNodes.length))).map (inPlace st) := by
  simp only [dropReplicasForShard, ShardMapState.dropReplicasForShard, exec_bind, exec_get, exec_ite, exec_throw,
    exec_orPanic, exec_set, Option.bind_some]
  split_ifs with hfew hmany hmissing
  · rfl
  · rfl
  · cases hdrop : dropSrcNodes srcNodes.dedup (st.nodesForShard shard) with
    | mk missing candidates =>
      cases missing with
      | nil => simp [hdrop] at hmissing
      | cons node missing => rfl
  · cases hdrop : dropSrcNodes srcNodes.dedup (st.nodesForShard shard) with
    | mk missing candidates =>
      cases missing with
      | cons node missing => simp [hdrop] at hmissing
      | nil =>
        dsimp only
        generalize pick _ _ _ = picked
        cases picked <;> rfl

/-! ### Choosing -/

/-- What is drawn is there to be picked. -/
theorem pick_isSome {options : List String} {k : ℕ} {perm : List ℕ} (hk : k ≤ perm.length)
    (hlt : ∀ i ∈ perm, i < options.length) : ∃ chosen, pick options k perm = some chosen ∧ chosen.length = k := by
  induction k generalizing perm with
  | zero => exact ⟨[], rfl, rfl⟩
  | succ k ih =>
    cases perm with
    | nil => simp at hk
    | cons i perm =>
      obtain ⟨hi, hperm⟩ := List.forall_mem_cons.mp hlt
      obtain ⟨chosen, hpick, hlen⟩ := ih (by simpa using hk) hperm
      refine ⟨options[i] :: chosen, ?_, by rw [List.length_cons, hlen]⟩
      rw [pick, List.getElem?_eq_getElem hi, Option.bind_some, hpick, Option.map_some]

/-- **The draw.** A permutation of the first `m` of the options picks `k ≤ m` of them, each once. -/
theorem pick_draw (rand : RandPerm) {options : List String} {k m : ℕ} (hk : k ≤ m) (hm : m ≤ options.length)
    (hnodup : options.Nodup) : ∃ chosen, pick options k (rand.draw m) = some chosen ∧ chosen.length = k ∧
      chosen.Nodup ∧ ∀ node ∈ chosen, node ∈ options := by
  have hlt : ∀ i ∈ rand.draw m, i < options.length := by
    intro i hi
    have hrange := List.mem_range.mp ((rand.perm m).subset hi)
    omega
  have hlen : (rand.draw m).length = m := by
    rw [(rand.perm m).length_eq, List.length_range]
  obtain ⟨chosen, hpick, hchosen⟩ := pick_isSome (show k ≤ (rand.draw m).length by omega) hlt
  refine ⟨chosen, hpick, hchosen, ?_, ?_⟩
  · rw [pick_eq_some hpick]
    refine List.Nodup.filterMap ?_ (((rand.perm m).nodup_iff.mpr List.nodup_range).sublist (List.take_sublist _ _))
    intro i j node hi hj
    obtain ⟨hlt, -⟩ := List.getElem?_eq_some_iff.mp hi
    exact (List.getElem?_inj hlt hnodup).mp (hi.trans hj.symm)
  · intro node hnode
    rw [pick_eq_some hpick] at hnode
    obtain ⟨i, -, hi⟩ := List.mem_filterMap.mp hnode
    exact List.mem_of_getElem? hi

/-- What is left of a list without some of its members. -/
theorem length_filter_notMem {l l' : List String} (hl : l.Nodup) (hl' : l'.Nodup) (hsub : l' ⊆ l) :
    (l.filter fun node => node ∉ l').length + l'.length = l.length := by
  have hperm : (l.filter fun node => node ∈ l').Perm l' := by
    refine (List.perm_ext_iff_of_nodup (hl.filter _) hl').mpr fun node => ?_
    simpa using fun hnode => hsub hnode
  rw [← hperm.length_eq, List.length_eq_length_filter_add (l := l) fun node => node ∈ l', Nat.add_comm]
  simp

/-! ### Adding -/

/-- The loop over `dstNodes` succeeds if they are new. -/
theorem addDstNodes_eq {shard : ℤ} {nodes dstNodes : List String} (h : (nodes ++ dstNodes).Nodup) :
    addDstNodes shard nodes dstNodes = .ok (nodes ++ dstNodes) := by
  induction dstNodes generalizing nodes with
  | nil => rw [addDstNodes, List.append_nil]
  | cons node dstNodes ih =>
    have happ : nodes ++ node :: dstNodes = nodes ++ [node] ++ dstNodes := by simp
    have hnew : node ∉ nodes := by
      intro hmem
      exact List.disjoint_of_nodup_append h hmem (List.mem_cons_self ..)
    rw [addDstNodes, if_neg hnew, happ]
    exact ih (happ ▸ h)

theorem add_succeeds (hvalid : st.isValid = true) (rand : RandPerm) {numReplicasToAdd : ℕ} {dstNodes : List String}
    (hlen : dstNodes.length ≤ numReplicasToAdd) (hnodup : dstNodes.Nodup)
    (hdst : ∀ node ∈ dstNodes, node ∈ st.nodes.keys ∧ node ∉ st.nodesForShard shard)
    (hroom : (st.nodesForShard shard).length + numReplicasToAdd ≤ st.nodes.keys.length) :
    ∃ nodes, st.addReplicasForShard shard numReplicasToAdd dstNodes
        (rand.draw (dstOptions st shard dstNodes).length) = some (.ok (st.setNodes shard nodes)) ∧
      nodes.length = (st.nodesForShard shard).length + numReplicasToAdd ∧
      st.nodesForShard shard ++ dstNodes <+: nodes ∧ nodes.Nodup ∧ ∀ node ∈ nodes, node ∈ st.nodes.keys := by
  obtain ⟨hold, hknown⟩ := ShardMapState.nodup_nodesForShard hvalid shard
  have hfirst : (st.nodesForShard shard ++ dstNodes).Nodup :=
    hold.append hnodup fun node hmem hdstmem => (hdst node hdstmem).2 hmem
  have hsub : st.nodesForShard shard ++ dstNodes ⊆ st.nodes.keys :=
    List.append_subset.mpr ⟨hknown, fun node hnode => (hdst node hnode).1⟩
  have hcount := length_filter_notMem st.nodes.keys_nodup hfirst hsub
  rw [← dstOptions, List.length_append] at hcount
  obtain ⟨chosen, hpick, hchosen, hcnodup, hcmem⟩ := pick_draw rand
    (show numReplicasToAdd - dstNodes.length ≤ (dstOptions st shard dstNodes).length by omega) le_rfl
    (st.nodes.keys_nodup.filter _)
  have hoption : ∀ node ∈ chosen, node ∈ st.nodes.keys ∧ node ∉ st.nodesForShard shard ++ dstNodes := by
    intro node hnode
    simpa [dstOptions] using hcmem node hnode
  refine ⟨st.nodesForShard shard ++ dstNodes ++ chosen, ?_, ?_, List.prefix_append .., ?_, ?_⟩
  · rw [ShardMapState.addReplicasForShard, if_neg (by omega), addDstNodes_eq hfirst]
    exact congrArg (Option.map _) hpick
  · rw [List.length_append, List.length_append, hchosen]
    omega
  · exact hfirst.append hcnodup fun node hmem hnode => (hoption node hnode).2 hmem
  · intro node hnode
    rcases List.mem_append.mp hnode with hnode | hnode
    · exact hsub hnode
    · exact (hoption node hnode).1

/-! ### Dropping -/

/-- The loop that drops the `srcNodes` keeps the others, and comes across all of them. -/
theorem dropSrcNodes_eq {srcNodes nodes : List String} (hsrc : srcNodes.Nodup) (hnodes : nodes.Nodup)
    (hsub : srcNodes ⊆ nodes) : dropSrcNodes srcNodes nodes = ([], nodes.filter fun node => node ∉ srcNodes) := by
  induction nodes generalizing srcNodes with
  | nil =>
    obtain rfl := List.eq_nil_of_subset_nil hsub
    rfl
  | cons node nodes ih =>
    obtain ⟨hnode, hnodes⟩ := List.nodup_cons.mp hnodes
    rw [dropSrcNodes]
    split_ifs with hmem
    · have hrest : srcNodes.erase node ⊆ nodes := by
        intro src hin
        obtain ⟨hne, hin⟩ := hsrc.mem_erase_iff.mp hin
        exact List.mem_of_ne_of_mem hne (hsub hin)
      rw [ih (hsrc.erase node) hnodes hrest, List.filter_cons_of_neg (by simpa using hmem)]
      congr 1
      refine List.filter_congr fun other hother => ?_
      have hne : other ≠ node := by
        rintro rfl
        exact hnode hother
      simp [hsrc.mem_erase_iff, hne]
    · have hrest : srcNodes ⊆ nodes := by
        intro src hin
        refine List.mem_of_ne_of_mem ?_ (hsub hin)
        rintro rfl
        exact hmem hin
      rw [ih hsrc hnodes hrest, List.filter_cons_of_pos (by simpa using hmem)]

theorem drop_succeeds (hvalid : st.isValid = true) (rand : RandPerm) {numReplicasToDrop : ℕ}
    {srcNodes : List String} (hlen : srcNodes.length ≤ numReplicasToDrop) (hsrc : srcNodes ⊆ st.nodesForShard shard)
    (henough : numReplicasToDrop ≤ (st.nodesForShard shard).length) :
    ∃ nodes, st.dropReplicasForShard shard numReplicasToDrop srcNodes
        (rand.draw ((st.nodesForShard shard).length - srcNodes.length)) = some (.ok (st.setNodes shard nodes)) ∧
      nodes.length + numReplicasToDrop = (st.nodesForShard shard).length ∧ nodes.Nodup ∧
      ∀ node ∈ nodes, node ∈ st.nodesForShard shard ∧ node ∉ srcNodes := by
  obtain ⟨hold, -⟩ := ShardMapState.nodup_nodesForShard hvalid shard
  have hsub : srcNodes.dedup ⊆ st.nodesForShard shard := List.Subset.trans (List.dedup_subset srcNodes) hsrc
  have hcount := length_filter_notMem hold (List.nodup_dedup srcNodes) hsub
  have hdedup : srcNodes.dedup.length ≤ srcNodes.length := (List.dedup_sublist srcNodes).length_le
  -- with repetitions among `srcNodes` the draw is shorter than the list of candidates
  obtain ⟨chosen, hpick, hchosen, hnodup, hmem⟩ := pick_draw rand
    (show (st.nodesForShard shard).length - numReplicasToDrop ≤ (st.nodesForShard shard).length - srcNodes.length
      by omega) (by omega) (hold.filter fun node => node ∉ srcNodes.dedup)
  refine ⟨chosen, ?_, by omega, hnodup, ?_⟩
  · rw [ShardMapState.dropReplicasForShard, if_neg (by omega), if_neg (by omega),
      dropSrcNodes_eq (List.nodup_dedup srcNodes) hold hsub]
    exact congrArg (Option.map _) hpick
  · intro node hnode
    simpa using hmem node hnode

/-! ### Together -/

/-- Some shards of a map have got other nodes, and it is valid. -/
structure Reassigned (shards : List ℤ) (st st' : ShardMapState) : Prop where
  valid : st'.isValid = true
  nodes : st'.nodes = st.nodes
  numShards : st'.numShards = st.numShards
  others : ∀ s, s ∉ shards → st'.shardsToNodes.lookup s = st.shardsToNodes.lookup s

theorem Reassigned.setNodes (hvalid : st.isValid = true) (hshard : 1 ≤ shard ∧ shard ≤ st.numShards)
    {nodes : List String} (hnodup : nodes.Nodup) (hknown : ∀ node ∈ nodes, node ∈ st.nodes.keys) :
    Reassigned [shard] st (st.setNodes shard nodes) :=
  ⟨ShardMapState.isValid_setNodes hvalid hshard hnodup hknown, rfl, rfl,
    fun _ hs => AList.lookup_insert_ne fun h => hs (List.mem_singleton.mpr h)⟩

/-- **Replicas can be added and dropped.** On a valid map, for a shard of it, and whatever is drawn:
with `dstNodes` that are at most as many as asked for, known, distinct and not among the nodes of
the shard, `addReplicasForShard` does not panic, and it adds them and as many others as are left to
add, or fails and changes nothing, for want of nodes; with `srcNodes` that are at most as many as
asked for and among the nodes of the shard, `dropReplicasForShard` does not panic, and it drops
them and as many others as are left to drop, or fails and changes nothing, for want of nodes. -/
theorem replicas_keep_valid (hvalid : st.isValid = true) (hshard : 1 ≤ shard ∧ shard ≤ st.numShards)
    (rand : RandPerm) (num : ℕ) (named : List String) (hlen : named.length ≤ num) :
    (named.Nodup → (∀ node ∈ named, node ∈ st.nodes.keys ∧ node ∉ st.nodesForShard shard) →
      ∃ res st', exec (addReplicasForShard rand shard num named) st = some (res, st') ∧
        (res = .ok () ∧ (st.nodesForShard shard).length + num ≤ st.nodes.keys.length ∧
          (st'.nodesForShard shard).length = (st.nodesForShard shard).length + num ∧
          (∀ node ∈ named, node ∈ st'.nodesForShard shard) ∧
          (∀ node ∈ st.nodesForShard shard, node ∈ st'.nodesForShard shard) ∧ Reassigned [shard] st st' ∨
        res = .error (.notEnoughNodes shard) ∧ st.nodes.keys.length < (st.nodesForShard shard).length + num ∧
          st' = st)) ∧
      (named ⊆ st.nodesForShard shard →
        ∃ res st', exec (dropReplicasForShard rand shard num named) st = some (res, st') ∧
          (res = .ok () ∧ num ≤ (st.nodesForShard shard).length ∧
            (st'.nodesForShard shard).length + num = (st.nodesForShard shard).length ∧
            (∀ node ∈ named, node ∉ st'.nodesForShard shard) ∧
            (∀ node ∈ st'.nodesForShard shard, node ∈ st.nodesForShard shard) ∧ Reassigned [shard] st st' ∨
          res = .error (.tooFewNodes num (st.nodesForShard shard).length shard) ∧
            (st.nodesForShard shard).length < num ∧ st' = st)) := by
  have hnew (nodes : List String) : (st.setNodes shard nodes).nodesForShard shard = nodes := by
    rw [ShardMapState.nodesForShard_setNodes, if_pos rfl]
  constructor
  · intro hnodup hdst
    rw [exec_addReplicasForShard rand hlen]
    by_cases hroom : (st.nodesForShard shard).length + num ≤ st.nodes.keys.length
    · obtain ⟨nodes, hadd, hcount, hfirst, hnn, hknown⟩ := add_succeeds hvalid rand hlen hnodup hdst hroom
      refine ⟨_, _, by rw [hadd]; rfl, .inl ⟨rfl, hroom, ?_, ?_, ?_, .setNodes hvalid hshard hnn hknown⟩⟩
      · rw [hnew, hcount]
      · intro node hnode
        rw [hnew]
        exact hfirst.subset (List.mem_append_right _ hnode)
      · intro node hnode
        rw [hnew]
        exact hfirst.subset (List.mem_append_left _ hnode)
    · have hfail : (st.nodesForShard shard).length + num > st.nodes.keys.length := by omega
      refine ⟨_, _, by rw [ShardMapState.addReplicasForShard, if_pos hfail]; rfl, .inr ⟨rfl, hfail, rfl⟩⟩
  · intro hsrc
    rw [exec_dropReplicasForShard]
    by_cases henough : num ≤ (st.nodesForShard shard).length
    · obtain ⟨nodes, hdrop, hcount, hnn, hkept⟩ := drop_succeeds hvalid rand hlen hsrc henough
      have hknown : ∀ node ∈ nodes, node ∈ st.nodes.keys := fun node hnode =>
        (ShardMapState.nodup_nodesForShard hvalid shard).2 node (hkept node hnode).1
      refine ⟨_, _, by rw [hdrop]; rfl, .inl ⟨rfl, henough, ?_, ?_, ?_, .setNodes hvalid hshard hnn hknown⟩⟩
      · rw [hnew, hcount]
      · intro node hnode
        rw [hnew]
        exact fun hmem => (hkept node hmem).2 hnode
      · intro node hnode
        rw [hnew] at hnode
        exact (hkept node hnode).1
    · have hfail : (st.nodesForShard shard).length < num := by omega
      refine ⟨_, _, by rw [ShardMapState.dropReplicasForShard, if_pos hfail]; rfl, .inr ⟨rfl, hfail, rfl⟩⟩

/-- The draw that changes no order. -/
def inOrder : RandPerm := ⟨List.range, fun _ => .refl _⟩

theorem replicas_keep_valid_twoNodes :
    exec (addReplicasForShard inOrder 2 1 ["n1"]) twoNodes = some (.ok (), twoNodes.setNodes 2 ["n2", "n1"]) ∧
      (twoNodes.setNodes 2 ["n2", "n1"]).isValid = true ∧
      exec (dropReplicasForShard inOrder 1 1 ["n1"]) twoNodes = some (.ok (), twoNodes.setNodes 1 ["n2"]) ∧
      (twoNodes.setNodes 1 ["n2"]).isValid = true := by
  have hvalid : twoNodes.isValid = true := by decide
  have hadd : exec (addReplicasForShard inOrder 2 1 ["n1"]) twoNodes =
      some (.ok (), twoNodes.setNodes 2 ["n2", "n1"]) := rfl
  have hdrop : exec (dropReplicasForShard inOrder 1 1 ["n1"]) twoNodes = some (.ok (), twoNodes.setNodes 1 ["n2"]) :=
    rfl
  refine ⟨hadd, ?_, hdrop, ?_⟩
  · obtain ⟨res, st', hexec, hres⟩ :=
      (replicas_keep_valid hvalid (show (1 : ℤ) ≤ 2 ∧ 2 ≤ twoNodes.numShards by decide) inOrder 1 ["n1"] (by decide)).1
        (by decide) (by decide)
    cases hadd.symm.trans hexec
    rcases hres with ⟨-, -, -, -, -, hre⟩ | ⟨-, hlt, -⟩
    · exact hre.valid
    · exact absurd hlt (by decide)
  · obtain ⟨res, st', hexec, hres⟩ :=
      (replicas_keep_valid hvalid (show (1 : ℤ) ≤ 1 ∧ 1 ≤ twoNodes.numShards by decide) inOrder 1 ["n1"] (by decide)).2
        (by decide)
    cases hdrop.symm.trans hexec
    rcases hres with ⟨-, -, -, -, -, hre⟩ | ⟨-, hlt, -⟩
    · exact hre.valid
    · exact absurd hlt (by decide)

end Cs426.Kv

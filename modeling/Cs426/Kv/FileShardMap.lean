import Cs426.Kv.Validity

/-!
# The shard map in a file

`WatchShardMapFile`, `watchForUpdates` and `applyFromFile` (`lab4/kv/file_shardmap.go`): the
shard map is read from a file, and read again whenever the file is written or created.

## The model

What reading the file and decoding it gives is a `Content`; a state that is decoded may be
any state. The loop of `watchForUpdates` takes one `WatchEvent` at a time: an event in the
watched directory, with the content of the file when it is read; an error of the watcher; or
one of the two channels being closed, after which the `break` leaves the `select` only and the
loop goes on. The name of an event is that of the directory that is watched with the file's:
for a file named without a directory, `./map.json` where the loop looks for `map.json`.
`fileSm.done` is never made, so nothing is ever received from it. What `Update` does besides
replacing the state is in `Cs426.Kv.Notifier`.

## What is proved

* `watchForUpdates_eq` — a turn of the loop replaces the state by what the file decodes to, or
  does nothing.
* `good_in_force_iff` — the state in force is good all along just when every state that was
  ever decoded is, since nothing in between looks at it; and what is rejected changes nothing.
* `bad_maps_in_force` — two files that are accepted and should not be.
-/

namespace Cs426.Kv

/-- What `os.ReadFile` and `json.Unmarshal` make of the file. -/
inductive Content where
  | unreadable (err : String)
  | unparsable (err : String)
  | parsed (smState : ShardMapState)

structure FileShardMap where
  filename : String
  /-- The state in the `ShardMap`; there is none before the first `Update`. -/
  shardMap : Option ShardMapState

/-- A bit set of `fsnotify`. -/
abbrev Op := BitVec 32

/-- `fsnotify.Create`. -/
def Op.create : Op := 1

/-- `fsnotify.Write`. -/
def Op.write : Op := 2

def isBitSet (bitset bit : Op) : Bool := bitset &&& bit != 0

/-- What `watchForUpdates` receives. -/
inductive WatchEvent where
  /-- Something happened to the file `name`; `content` is what the shard map file holds when
  it is read. -/
  | event (name : String) (op : Op) (content : Content)
  | eventsClosed
  | error (err : String)
  | errorsClosed

namespace FileShardMap

/-- The map afterwards, and the error if there is one. -/
def applyFromFile (fileSm : FileShardMap) : Content → FileShardMap × Option String
  | .unreadable err => (fileSm, some err)
  | .unparsable err => (fileSm, some err)
  | .parsed smState => ({ fileSm with shardMap := some smState }, none)

/-- One turn of the loop. -/
def watchForUpdates (fileSm : FileShardMap) : WatchEvent → FileShardMap
  | .event name op content =>
    if name ≠ fileSm.filename then fileSm
    else if isBitSet op Op.write || isBitSet op Op.create then (fileSm.applyFromFile content).1
    else fileSm
  | .eventsClosed | .error _ | .errorsClosed => fileSm

/-- The shard map of a file; making the watcher and adding the directory to it may fail. -/
def watchShardMapFile (filename : String) (newWatcher add : Except String Unit) (content : Content) :
    Except String FileShardMap :=
  newWatcher.bind fun _ => add.bind fun _ =>
    match applyFromFile ⟨filename, none⟩ content with
    | (_, some err) => .error err
    | (fileSm, none) => .ok fileSm

end FileShardMap

/-- The state an event puts in force, the shard map file being `filename`. -/
def WatchEvent.applied (filename : String) : WatchEvent → Option ShardMapState
  | event name op (.parsed smState) =>
    if name = filename ∧ (isBitSet op Op.write || isBitSet op Op.create) = true then some smState else none
  | _ => none

/-- A state that clients and servers can work with: it is valid and has shards for the keys. -/
def ShardMapState.Good (st : ShardMapState) : Prop := st.isValid = true ∧ 0 < st.numShards

/-- With a good state every key has a shard. -/
theorem ShardMapState.Good.getShardForKey {st : ShardMapState} (h : st.Good) (key : String) :
    1 ≤ getShardForKey key st.numShards ∧ getShardForKey key st.numShards ≤ st.numShards :=
  ⟨one_le_getShardForKey key st.numShards, getShardForKey_le key h.2⟩

namespace FileShardMap

/-- The state in force satisfies `P`. -/
def InForce (P : ShardMapState → Prop) (fileSm : FileShardMap) : Prop := ∃ st, fileSm.shardMap = some st ∧ P st

/-- **What a turn of the loop does.** -/
theorem watchForUpdates_eq (fileSm : FileShardMap) (e : WatchEvent) : fileSm.watchForUpdates e =
    match e.applied fileSm.filename with
    | some smState => { fileSm with shardMap := some smState }
    | none => fileSm := by
  cases e with
  | event name op content =>
    by_cases hname : name = fileSm.filename
    · subst hname
      by_cases hop : (isBitSet op Op.write || isBitSet op Op.create) = true
      · cases content <;> simp [watchForUpdates, WatchEvent.applied, applyFromFile, hop]
      · cases content <;> simp [watchForUpdates, WatchEvent.applied, hop]
    · cases content <;> simp [watchForUpdates, WatchEvent.applied, hname]
  | eventsClosed | error | errorsClosed => rfl

theorem watchForUpdates_filename (fileSm : FileShardMap) (e : WatchEvent) :
    (fileSm.watchForUpdates e).filename = fileSm.filename := by
  rw [watchForUpdates_eq]
  cases e.applied fileSm.filename <;> rfl

theorem foldl_filename (fileSm : FileShardMap) (events : List WatchEvent) :
    (events.foldl watchForUpdates fileSm).filename = fileSm.filename := by
  induction events generalizing fileSm with
  | nil => rfl
  | cons e events ih => rw [List.foldl_cons, ih, watchForUpdates_filename]

/-- A shard map comes only from a file that was decoded, and it is what it decoded to. -/
theorem watchShardMapFile_eq_ok {filename : String} {newWatcher add : Except String Unit} {content : Content}
    {fileSm : FileShardMap} (h : watchShardMapFile filename newWatcher add content = .ok fileSm) :
    ∃ smState, content = .parsed smState ∧ fileSm = ⟨filename, some smState⟩ := by
  cases newWatcher with
  | error err => cases h
  | ok =>
    cases add with
    | error err => cases h
    | ok =>
      cases content with
      | unreadable err => cases h
      | unparsable err => cases h
      | parsed smState =>
        cases h
        exact ⟨smState, rfl, rfl⟩

/-- Over a whole run: the states in force after the first, the second, ... turn satisfy `P`
just when those put in force do. -/
theorem inForce_foldl_iff {P : ShardMapState → Prop} {fileSm : FileShardMap} (h : fileSm.InForce P)
    (events : List WatchEvent) :
    (∀ seen, seen <+: events → (seen.foldl watchForUpdates fileSm).InForce P) ↔
      ∀ e ∈ events, ∀ smState, e.applied fileSm.filename = some smState → P smState := by
  induction events generalizing fileSm with
  | nil =>
    simp only [List.prefix_nil, List.not_mem_nil, false_imp_iff, implies_true, iff_true]
    rintro _ rfl
    exact h
  | cons e events ih =>
    -- the first turn, and then the run from the map it leaves
    have hfirst : (fileSm.watchForUpdates e).InForce P ↔
        ∀ smState, e.applied fileSm.filename = some smState → P smState := by
      rw [watchForUpdates_eq]
      cases e.applied fileSm.filename with
      | none => simpa using h
      | some smState => simp [InForce]
    rw [List.forall_mem_cons, ← hfirst]
    constructor
    · intro hall
      have hnext : (fileSm.watchForUpdates e).InForce P := hall [e] (by simp)
      refine ⟨hnext, ?_⟩
      rw [← watchForUpdates_filename fileSm e]
      exact (ih hnext).mp fun seen hseen => hall (e :: seen) (List.cons_prefix_cons.mpr ⟨rfl, hseen⟩)
    · rintro ⟨hnext, hrest⟩ seen hseen
      rw [← watchForUpdates_filename fileSm e] at hrest
      cases seen with
      | nil => exact h
      | cons e' seen =>
        obtain ⟨rfl, hshorter⟩ := List.cons_prefix_cons.mp hseen
        exact (ih hnext).mpr hrest seen hshorter

/-- **When only good shard maps are in force.** Whatever happens to the file: after every step
the state in force is valid and has shards, if and only if every state the file was ever
decoded to is and does, the first one included. With such a state in force every key has a
shard between `1` and `NumShards`. And an event that puts no state in force, because the file
could not be read or decoded or the event is about something else, leaves everything as it
was. -/
theorem good_in_force_iff {filename : String} {newWatcher add : Except String Unit} {content : Content}
    {fileSm : FileShardMap} (h : watchShardMapFile filename newWatcher add content = .ok fileSm)
    (events : List WatchEvent) :
    ((∀ seen, seen <+: events → (seen.foldl watchForUpdates fileSm).InForce ShardMapState.Good) ↔
      (∀ smState, content = .parsed smState → smState.Good) ∧
        ∀ e ∈ events, ∀ smState, e.applied filename = some smState → smState.Good) ∧
    (∀ seen : List WatchEvent, (seen.foldl watchForUpdates fileSm).InForce ShardMapState.Good →
      (seen.foldl watchForUpdates fileSm).InForce fun st => ∀ key,
        1 ≤ getShardForKey key st.numShards ∧ getShardForKey key st.numShards ≤ st.numShards) ∧
    ∀ (seen : List WatchEvent) (e : WatchEvent), e.applied filename = none →
      (seen.foldl watchForUpdates fileSm).watchForUpdates e = seen.foldl watchForUpdates fileSm := by
  obtain ⟨first, rfl, rfl⟩ := watchShardMapFile_eq_ok h
  refine ⟨⟨fun hall => ?_, fun ⟨hfirst, hrest⟩ => ?_⟩, fun seen => ?_, fun seen e he => ?_⟩
  · have hstart : (⟨filename, some first⟩ : FileShardMap).InForce ShardMapState.Good := hall [] (List.nil_prefix ..)
    refine ⟨fun smState hparsed => ?_, (inForce_foldl_iff hstart events).mp hall⟩
    cases hparsed
    obtain ⟨st, hst, hgood⟩ := hstart
    cases hst
    exact hgood
  · exact (inForce_foldl_iff ⟨first, rfl, hfirst first rfl⟩ events).mpr hrest
  · rintro ⟨st, hst, hgood⟩
    exact ⟨st, hst, hgood.getShardForKey⟩
  · rw [watchForUpdates_eq, foldl_filename, he]

/-- A map with one shard on one node; then the file cannot be decoded. -/
theorem good_in_force_iff_unparsable :
    ∃ fileSm, watchShardMapFile "conf/map.json" (.ok ()) (.ok ()) (.parsed (.oneShard ["n1"] ["n1"])) = .ok fileSm ∧
      fileSm.watchForUpdates (.event "conf/map.json" Op.write (.unparsable "unexpected end of JSON input")) = fileSm ∧
      fileSm.InForce ShardMapState.Good := by
  have hread : watchShardMapFile "conf/map.json" (.ok ()) (.ok ()) (.parsed (.oneShard ["n1"] ["n1"])) =
      .ok ⟨"conf/map.json", some (.oneShard ["n1"] ["n1"])⟩ := rfl
  obtain ⟨hgood, -, hrejected⟩ := good_in_force_iff hread []
  refine ⟨_, hread, hrejected [] _ rfl, hgood.mpr ⟨fun smState hparsed => ?_, by simp⟩ [] (List.nil_prefix ..)⟩
  cases hparsed
  exact ⟨by decide, by decide⟩

/-- **Bad shard maps do come into force**: `WatchShardMapFile` accepts a file without a
`numShards`, and `watchForUpdates` takes over one with a shard that is out of range and on a
node that does not exist. -/
theorem bad_maps_in_force :
    (∃ fileSm, watchShardMapFile "conf/map.json" (.ok ()) (.ok ()) (.parsed ⟨∅, ∅, 0⟩) = .ok fileSm ∧
      ¬ fileSm.InForce ShardMapState.Good) ∧
    ∃ fileSm, watchShardMapFile "conf/map.json" (.ok ()) (.ok ()) (.parsed (.oneShard ["n1"] ["n1"])) = .ok fileSm ∧
      ¬ (fileSm.watchForUpdates (.event "conf/map.json" Op.write
        (.parsed ⟨∅, AList.singleton 7 ["n9"], 1⟩))).InForce ShardMapState.Good := by
  refine ⟨⟨_, rfl, ?_⟩, _, rfl, ?_⟩
  · rintro ⟨st, hst, -, hpos⟩
    cases hst
    exact absurd hpos (by decide)
  · rintro ⟨st, hst, hvalid, -⟩
    cases hst
    exact absurd hvalid (by decide)

end FileShardMap

end Cs426.Kv

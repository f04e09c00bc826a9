import Mathlib.Data.List.AList
import Cs426.Kv.ShardMap
import Cs426.Lib.Counting
import Cs426.Lib.Machine

/-!
# The client pool

`GrpcClientPool.GetClient` and `MakeClientPool` (`lab4/kv/clientpool.go`): clients are cached by
node name, looked up under the read lock first, and made under the write lock after a second
lookup.

## The model

Any number of calls run at the same time, and a step is what one of them does between two
points at which another can come in. `pool.mutex` is a `sync.RWMutex`: `Lock` announces the
writer, which keeps new readers and other writers out, and then waits for the readers that are
there. What `makeConnection` returns is chosen by the environment each time it is called, and
the shard map can be replaced at any time. `made` records, for the statements only, the
connections that were made.

## What is proved

* `getClient_once` — in every interleaving, at most one connection is made for a node, every
  call for it that succeeds returns that one, the cache only grows, and only by a call that
  succeeds; and whatever has failed so far, a later call for a known node can still succeed.

## The argument

Between its second lookup and its insertion a call is the only writer, so the entry it found
missing stays missing, and no other connection to that node is being made (`Sound`). Each step
brings its call closer to its end (`turn_work`), and while there are calls one of them can go on
(`exists_turn`); so all of them can be brought to their end.
-/

namespace Cs426.Kv

open Cs426.Machine Cs426.Counting

/-- The errors of `GetClient`: its own, or the one `makeConnection` returned. -/
inductive GetClientError (ε : Type*) where
  | errorf (text : String)
  | makeConnection (err : ε)
deriving DecidableEq

/-- How far a call of `GetClient` has come. -/
inductive GetClientPhase (κ ε : Type*) where
  | called
  /-- Holds the read lock. -/
  | reading
  /-- Has looked the client up, and holds the read lock. -/
  | read (client : Option κ)
  /-- Has released the read lock without a client. -/
  | missed
  /-- Is announced as a writer. -/
  | locking
  /-- Holds the write lock from here on; the second lookup is next. -/
  | locked
  /-- `pool.shardMap.Nodes()` is next. -/
  | resolving
  /-- `makeConnection` is next. -/
  | dialing (address : String)
  /-- The connection is made; its insertion is next. -/
  | connected (client : κ)
  /-- The deferred `Unlock` is next. -/
  | leaving (res : Except (GetClientError ε) κ)
  | returned (res : Except (GetClientError ε) κ)
deriving DecidableEq

namespace GetClientPhase

variable {κ ε : Type*}

/-- Holds the read lock. -/
def isReader : GetClientPhase κ ε → Bool
  | reading | read _ => true
  | _ => false

/-- Holds the write lock. -/
def isOwner : GetClientPhase κ ε → Bool
  | locked | resolving | dialing _ | connected _ | leaving _ => true
  | _ => false

/-- Is announced as a writer. -/
def isWriter (p : GetClientPhase κ ε) : Bool :=
  match p with
  | locking => true
  | _ => p.isOwner

/-- The number of steps to the end of the call, at most. -/
def work : GetClientPhase κ ε → ℕ
  | called => 10
  | reading => 9
  | read _ => 8
  | missed => 7
  | locking => 6
  | locked => 5
  | resolving => 4
  | dialing _ => 3
  | connected _ => 2
  | leaving _ => 1
  | returned _ => 0

end GetClientPhase

structure GetClientCall (κ ε : Type*) where
  nodeName : String
  phase : GetClientPhase κ ε
deriving DecidableEq

structure GrpcClientPool (κ ε : Type*) where
  shardMap : ShardMapState
  clients : AList fun _ : String => κ
  calls : List (GetClientCall κ ε)
  /-- The connections made so far, with the nodes they are for. -/
  made : List (String × κ)

/-- What can happen. -/
inductive PoolMove (κ ε : Type*) where
  /-- `GetClient` is called. -/
  | getClient (nodeName : String)
  /-- The shard map is replaced. -/
  | update (st : ShardMapState)
  /-- A call goes on; `conn` is what `makeConnection` returns if that is what it calls. -/
  | next (i : ℕ) (conn : Except ε κ)

namespace GrpcClientPool

variable {κ ε : Type*}

def makeClientPool (shardMap : ShardMapState) : GrpcClientPool κ ε := ⟨shardMap, ∅, [], []⟩

/-- Nobody holds the read lock. -/
def unread (s : GrpcClientPool κ ε) : Bool := s.calls.all fun c => !c.phase.isReader

/-- No writer is announced. -/
def unwritten (s : GrpcClientPool κ ε) : Bool := s.calls.all fun c => !c.phase.isWriter

/-- What a call of `GetClient` does next; there is nothing while it waits for the lock, or when
it has returned. -/
def turn (s : GrpcClientPool κ ε) (nodeName : String) (conn : Except ε κ) :
    GetClientPhase κ ε → Option (GetClientPhase κ ε)
  | .called => if s.unwritten then some .reading else none
  | .reading => some (.read (s.clients.lookup nodeName))
  | .read (some client) => some (.returned (.ok client))
  | .read none => some .missed
  | .missed => if s.unwritten then some .locking else none
  | .locking => if s.unread then some .locked else none
  | .locked =>
    match s.clients.lookup nodeName with
    | some client => some (.leaving (.ok client))
    | none => some .resolving
  | .resolving =>
    match s.shardMap.nodes.lookup nodeName with
    | none => some (.leaving (.error (.errorf ("no node named: " ++ nodeName))))
    | some nodeInfo => some (.dialing (nodeInfo.address ++ ":" ++ toString nodeInfo.port))
  | .dialing _ =>
    match conn with
    | .error err => some (.leaving (.error (.makeConnection err)))
    | .ok client => some (.connected client)
  | .connected client => some (.leaving (.ok client))
  | .leaving res => some (.returned res)
  | .returned _ => none

/-- The cache after the step of a call in this phase. -/
def clientsAfter (s : GrpcClientPool κ ε) (nodeName : String) : GetClientPhase κ ε → AList fun _ : String => κ
  | .connected client => s.clients.insert nodeName client
  | _ => s.clients

/-- The connections made after a step of a call into this phase. -/
def madeAfter (s : GrpcClientPool κ ε) (nodeName : String) : GetClientPhase κ ε → List (String × κ)
  | .connected client => s.made ++ [(nodeName, client)]
  | _ => s.made

def step (s : GrpcClientPool κ ε) : PoolMove κ ε → Option (GrpcClientPool κ ε)
  | .getClient nodeName => some { s with calls := s.calls ++ [⟨nodeName, .called⟩] }
  | .update st => some { s with shardMap := st }
  | .next i conn =>
    match s.calls[i]? with
    | none => none
    | some ⟨nodeName, phase⟩ =>
      (s.turn nodeName conn phase).map fun phase' =>
        { s with
          calls := s.calls.set i ⟨nodeName, phase'⟩
          clients := s.clientsAfter nodeName phase
          made := s.madeAfter nodeName phase' }

/-- The connections made for a node. -/
def madeFor (s : GrpcClientPool κ ε) (nodeName : String) : List κ :=
  (s.made.filter fun m => m.1 = nodeName).map Prod.snd

section Steps

variable {s s' : GrpcClientPool κ ε} {n : String} {p p' : GetClientPhase κ ε} {i : ℕ} {conn : Except ε κ}

theorem unread_iff : s.unread = true ↔ ∀ c ∈ s.calls, c.phase.isReader = false := by
  simp [unread, List.all_eq_true]

theorem unwritten_iff : s.unwritten = true ↔ ∀ c ∈ s.calls, c.phase.isWriter = false := by
  simp [unwritten, List.all_eq_true]

/-- What a step of a call does to the cache and to the record of connections. -/
inductive Effect (s s' : GrpcClientPool κ ε) (n : String) : GetClientPhase κ ε → GetClientPhase κ ε → Prop
  | quiet {p p' : GetClientPhase κ ε} : (∀ client, p ≠ .connected client) → (∀ client, p' ≠ .connected client) →
      s'.clients = s.clients → s'.made = s.made → Effect s s' n p p'
  | connect {address : String} {client : κ} : s'.clients = s.clients → s'.made = s.made ++ [(n, client)] →
      Effect s s' n (.dialing address) (.connected client)
  | insert {client : κ} : s'.clients = s.clients.insert n client → s'.made = s.made →
      Effect s s' n (.connected client) (.leaving (.ok client))

/-- What a step of a call is. -/
theorem next_cases (h : s.step (.next i conn) = some s') : ∃ n p p', s.calls[i]? = some ⟨n, p⟩ ∧
    s.turn n conn p = some p' ∧ s'.calls = s.calls.set i ⟨n, p'⟩ ∧ s'.shardMap = s.shardMap ∧ s.Effect s' n p p' := by
  simp only [step] at h
  split at h
  · cases h
  · next n p hi =>
    obtain ⟨p', hturn, rfl⟩ := Option.map_eq_some_iff.mp h
    refine ⟨n, p, p', hi, hturn, rfl, rfl, ?_⟩
    unfold turn at hturn
    split at hturn
    case h_9 =>
      -- `makeConnection` has returned
      split at hturn
      · cases hturn
        exact .quiet (by simp) (by simp) rfl rfl
      · cases hturn
        exact .connect rfl rfl
    case h_10 =>
      cases hturn
      exact .insert rfl rfl
    all_goals
      (try split at hturn) <;> cases hturn <;> exact .quiet (by simp) (by simp) rfl rfl

/-- A call becomes a writer only when there is none. -/
theorem turn_isWriter (h : s.turn n conn p = some p') (hp : p'.isWriter = true) :
    p.isWriter = true ∨ s.unwritten = true := by
  unfold turn at h
  grind [GetClientPhase.isWriter, GetClientPhase.isOwner]

/-- A call gets the write lock only when nobody reads. -/
theorem turn_isOwner (h : s.turn n conn p = some p') (hp : p'.isOwner = true) :
    p.isWriter = true ∧ (p.isOwner = true ∨ s.unread = true) := by
  unfold turn at h
  grind [GetClientPhase.isWriter, GetClientPhase.isOwner]

/-- A call gets the read lock only when there is no writer. -/
theorem turn_isReader (h : s.turn n conn p = some p') (hp : p'.isReader = true) :
    p.isReader = true ∨ s.unwritten = true := by
  unfold turn at h
  grind [GetClientPhase.isReader]

theorem turn_work (h : s.turn n conn p = some p') : p'.work < p.work := by
  unfold turn at h
  grind [GetClientPhase.work]

end Steps

/-! ### The lock -/

/-- At most one writer is announced, and nobody reads while one holds the lock. -/
structure Locked (s : GrpcClientPool κ ε) : Prop where
  writer {i j : ℕ} {a b : GetClientCall κ ε} : s.calls[i]? = some a → s.calls[j]? = some b →
    a.phase.isWriter = true → b.phase.isWriter = true → i = j
  owner {a b : GetClientCall κ ε} : a ∈ s.calls → b ∈ s.calls → a.phase.isOwner = true → b.phase.isReader = false

theorem isWriter_of_isOwner {p : GetClientPhase κ ε} (h : p.isOwner = true) : p.isWriter = true := by
  cases p <;> first | rfl | cases h

variable {s s' : GrpcClientPool κ ε} {n : String} {p p' : GetClientPhase κ ε} {i : ℕ} {conn : Except ε κ}

/-- While a call is, or becomes, a writer, no other one is. -/
theorem Locked.alone (hL : s.Locked) (hi : s.calls[i]? = some ⟨n, p⟩) (hturn : s.turn n conn p = some p')
    (hp : p'.isWriter = true) {j : ℕ} {b : GetClientCall κ ε} (hj : s.calls[j]? = some b) (hij : j ≠ i) :
    b.phase.isWriter = false := by
  rcases turn_isWriter hturn hp with hw | hw
  · by_contra hb
    exact hij (hL.writer hj hi (by simpa using hb) hw)
  · exact unwritten_iff.mp hw b (List.mem_of_getElem? hj)

theorem Locked.next (hL : s.Locked) (hi : s.calls[i]? = some ⟨n, p⟩) (hturn : s.turn n conn p = some p')
    (hcalls : s'.calls = s.calls.set i ⟨n, p'⟩) : s'.Locked := by
  constructor
  · intro j k a b ha hb hwa hwb
    rw [hcalls] at ha hb
    rcases getElem?_set_cases ha with ⟨hj, ha⟩ | ⟨hj, rfl⟩ <;>
      rcases getElem?_set_cases hb with ⟨hk, hb⟩ | ⟨hk, rfl⟩
    · exact hL.writer ha hb hwa hwb
    · simp [hL.alone hi hturn hwb ha hj] at hwa
    · simp [hL.alone hi hturn hwa hb hk] at hwb
    · rw [hj, hk]
  · intro a b ha hb hown
    have hmem := List.mem_of_getElem? hi
    rw [hcalls] at ha hb
    rcases List.mem_or_eq_of_mem_set ha with ha | rfl <;> rcases List.mem_or_eq_of_mem_set hb with hb | rfl
    · exact hL.owner ha hb hown
    · -- the call that moved can only have become a reader when there was no writer
      by_contra hread
      rcases turn_isReader hturn (by simpa using hread) with hp | hp
      · simp [hL.owner ha hmem hown] at hp
      · have hw := isWriter_of_isOwner hown
        simp [unwritten_iff.mp hp a ha] at hw
    · rcases (turn_isOwner hturn hown).2 with hp | hp
      · exact hL.owner hmem hb hp
      · exact unread_iff.mp hp b hb
    · cases p' <;> first | rfl | cases hown

/-! ### The cache -/

/-- What a call knows about the cache and about the connections made for its node. -/
def Knows (s : GrpcClientPool κ ε) (c : GetClientCall κ ε) : Prop :=
  match c.phase with
  | .read (some client) | .leaving (.ok client) | .returned (.ok client) =>
    s.clients.lookup c.nodeName = some client
  | .resolving | .dialing _ => s.madeFor c.nodeName = []
  | .connected client => s.clients.lookup c.nodeName = none ∧ s.madeFor c.nodeName = [client]
  | _ => True

/-- The lock is kept, each call knows what it should, and a connection that was made is in the
cache or about to be put there. -/
structure Sound (s : GrpcClientPool κ ε) : Prop where
  locked : s.Locked
  knows (c : GetClientCall κ ε) : c ∈ s.calls → s.Knows c
  cached (n : String) (client : κ) : s.clients.lookup n = some client → s.madeFor n = [client]
  uncached (n : String) : s.clients.lookup n = none →
    s.madeFor n = [] ∨ ∃ client, (⟨n, .connected client⟩ : GetClientCall κ ε) ∈ s.calls

theorem madeFor_of_eq (h : s'.made = s.made) (m : String) : s'.madeFor m = s.madeFor m := by
  unfold madeFor
  rw [h]

theorem madeFor_append {client : κ} (h : s'.made = s.made ++ [(n, client)]) (m : String) :
    s'.madeFor m = if n = m then s.madeFor m ++ [client] else s.madeFor m := by
  unfold madeFor
  rw [h, List.filter_append, List.map_append]
  by_cases hm : n = m <;> simp [hm]

/-- A connection is being made for a node by the one writer only. -/
theorem Sound.madeFor_eq_nil (hS : s.Sound) (hi : s.calls[i]? = some ⟨n, p⟩) (hw : p.isWriter = true)
    (hp : ∀ client, p ≠ .connected client) (hnone : s.clients.lookup n = none) : s.madeFor n = [] := by
  refine (hS.uncached n hnone).resolve_right ?_
  rintro ⟨client, hmem⟩
  obtain ⟨j, hj⟩ := List.getElem?_of_mem hmem
  obtain rfl : i = j := hS.locked.writer hi hj hw rfl
  rw [hj, Option.some.injEq, GetClientCall.mk.injEq] at hi
  exact hp client hi.2.symm

/-- Nothing is replaced in the cache. -/
theorem Sound.lookup_mono (hS : s.Sound) (hi : s.calls[i]? = some ⟨n, p⟩) (hE : s.Effect s' n p p')
    {m : String} {client : κ} (h : s.clients.lookup m = some client) : s'.clients.lookup m = some client := by
  cases hE with
  | quiet _ _ hc _ | connect hc _ => rwa [hc]
  | insert hc _ =>
    have hnone : s.clients.lookup n = none := (hS.knows _ (List.mem_of_getElem? hi)).1
    have hne : m ≠ n := by
      rintro rfl
      rw [hnone] at h
      cases h
    rwa [hc, AList.lookup_insert_ne hne]

/-- What a call knows stays so while the cache grows and, if the call is a writer, nothing
happens to it. -/
theorem Knows.mono {c : GetClientCall κ ε} (h : s.Knows c)
    (hgrow : ∀ m client, s.clients.lookup m = some client → s'.clients.lookup m = some client)
    (hsame : c.phase.isWriter = true → s'.clients = s.clients ∧ s'.made = s.made) : s'.Knows c := by
  obtain ⟨m, q⟩ := c
  cases q with
  | read client =>
    cases client with
    | none => trivial
    | some client => exact hgrow m client h
  | leaving res | returned res =>
    cases res with
    | error err => trivial
    | ok client => exact hgrow m client h
  | resolving | dialing _ => exact (madeFor_of_eq (hsame rfl).2 m).trans h
  | connected client => exact ⟨(hsame rfl).1 ▸ h.1, (madeFor_of_eq (hsame rfl).2 m).trans h.2⟩
  | _ => trivial

/-- The steps of the others change nothing for a writer. -/
theorem Locked.same (hL : s.Locked) (hi : s.calls[i]? = some ⟨n, p⟩) (hturn : s.turn n conn p = some p')
    (hE : s.Effect s' n p p') {j : ℕ} {c : GetClientCall κ ε} (hj : s.calls[j]? = some c) (hij : j ≠ i)
    (hw : c.phase.isWriter = true) : s'.clients = s.clients ∧ s'.made = s.made := by
  cases hE with
  | quiet _ _ hc hm => exact ⟨hc, hm⟩
  | connect | insert => simp [hL.alone hi hturn rfl hj hij] at hw

/-- What a call comes to know by its own step. -/
theorem Sound.knows_turn (hS : s.Sound) (hi : s.calls[i]? = some ⟨n, p⟩) (hturn : s.turn n conn p = some p')
    (hE : s.Effect s' n p p') : s'.Knows ⟨n, p'⟩ := by
  have hk := hS.knows _ (List.mem_of_getElem? hi)
  cases hE with
  | connect hc hm =>
    have hnil : s.madeFor n = [] := hk
    refine ⟨?_, by rw [madeFor_append hm, if_pos rfl, hnil, List.nil_append]⟩
    rw [hc]
    by_contra hne
    obtain ⟨client, hl⟩ := Option.ne_none_iff_exists'.mp hne
    simp [hS.cached n client hl] at hnil
  | insert hc hm =>
    show s'.clients.lookup n = _
    rw [hc, AList.lookup_insert]
  | quiet hp hp' hc hm =>
    apply Knows.mono _ (fun m client h => hc ▸ h) fun _ => ⟨hc, hm⟩
    unfold turn at hturn
    split at hturn
    case h_2 =>
      cases hturn
      show s.Knows ⟨n, .read (s.clients.lookup n)⟩
      cases hl : s.clients.lookup n with
      | none => trivial
      | some client => exact hl
    case h_3 =>
      cases hturn
      exact hk
    case h_7 =>
      split at hturn
      · next hl =>
        cases hturn
        exact hl
      · next hl =>
        cases hturn
        exact hS.madeFor_eq_nil hi rfl (by simp) hl
    case h_8 =>
      split at hturn <;> cases hturn
      · trivial
      · exact hk
    case h_9 =>
      split at hturn <;> cases hturn
      · trivial
      · exact absurd rfl (hp' _)
    case h_10 => exact absurd rfl (hp _)
    case h_11 res =>
      cases hturn
      cases res with
      | error err => trivial
      | ok client => exact hk
    all_goals
      (try split at hturn) <;> cases hturn <;> trivial

theorem Sound.cached_next (hS : s.Sound) (hi : s.calls[i]? = some ⟨n, p⟩) (hE : s.Effect s' n p p')
    (m : String) (client : κ) (hl : s'.clients.lookup m = some client) : s'.madeFor m = [client] := by
  have hk := hS.knows _ (List.mem_of_getElem? hi)
  cases hE with
  | quiet _ _ hc hm => exact (madeFor_of_eq hm m).trans (hS.cached m client (hc ▸ hl))
  | connect hc hm =>
    have hne : n ≠ m := by
      rintro rfl
      have hnil : s.madeFor n = [] := hk
      simp [hS.cached n client (hc ▸ hl)] at hnil
    rw [madeFor_append hm, if_neg hne]
    exact hS.cached m client (hc ▸ hl)
  | insert hc hm =>
    rw [madeFor_of_eq hm]
    by_cases hne : m = n
    · subst hne
      rw [hc, AList.lookup_insert, Option.some.injEq] at hl
      exact hl ▸ hk.2
    · rw [hc, AList.lookup_insert_ne hne] at hl
      exact hS.cached m client hl

theorem Sound.uncached_next (hS : s.Sound) (hi : s.calls[i]? = some ⟨n, p⟩)
    (hcalls : s'.calls = s.calls.set i ⟨n, p'⟩) (hE : s.Effect s' n p p') (m : String)
    (hnone : s'.clients.lookup m = none) :
    s'.madeFor m = [] ∨ ∃ client, (⟨m, .connected client⟩ : GetClientCall κ ε) ∈ s'.calls := by
  -- a call that is about to insert stays there, unless it is the one that moves
  have hstay (hne : ∀ client, (⟨m, .connected client⟩ : GetClientCall κ ε) ≠ ⟨n, p⟩)
      (hnone : s.clients.lookup m = none) :
      s.madeFor m = [] ∨ ∃ client, (⟨m, .connected client⟩ : GetClientCall κ ε) ∈ s'.calls := by
    refine (hS.uncached m hnone).imp_right ?_
    rintro ⟨client, hmem⟩
    refine ⟨client, ?_⟩
    obtain ⟨j, hj⟩ := List.getElem?_of_mem hmem
    have hij : i ≠ j := by
      rintro rfl
      rw [hi, Option.some.injEq] at hj
      exact hne client hj.symm
    rw [hcalls]
    exact List.mem_of_getElem? ((List.getElem?_set_ne hij).trans hj)
  cases hE with
  | quiet hp _ hc hm =>
    rw [madeFor_of_eq hm]
    apply hstay _ (hc ▸ hnone)
    intro client heq
    exact hp client (GetClientCall.mk.inj heq).2.symm
  | @connect _ client hc hm =>
    rw [madeFor_append hm]
    split_ifs with hnm
    · subst hnm
      refine .inr ⟨client, ?_⟩
      rw [hcalls]
      exact List.mem_set (List.getElem?_eq_some_iff.mp hi).1 _
    · exact hstay (by simp) (hc ▸ hnone)
  | insert hc hm =>
    rw [madeFor_of_eq hm]
    have hne : m ≠ n := by
      rintro rfl
      rw [hc, AList.lookup_insert] at hnone
      cases hnone
    apply hstay
    · intro client heq
      exact hne (GetClientCall.mk.inj heq).1
    · rwa [hc, AList.lookup_insert_ne hne] at hnone

theorem Sound.next (hS : s.Sound) (h : s.step (.next i conn) = some s') : s'.Sound := by
  obtain ⟨n, p, p', hi, hturn, hcalls, -, hE⟩ := next_cases h
  refine ⟨hS.locked.next hi hturn hcalls, ?_, hS.cached_next hi hE, hS.uncached_next hi hcalls hE⟩
  intro c hc
  obtain ⟨j, hj⟩ := List.getElem?_of_mem hc
  rw [hcalls] at hj
  rcases getElem?_set_cases hj with ⟨hij, hj⟩ | ⟨-, rfl⟩
  · exact (hS.knows c (List.mem_of_getElem? hj)).mono (fun m client => hS.lookup_mono hi hE)
      (hS.locked.same hi hturn hE hj hij)
  · exact hS.knows_turn hi hturn hE

/-- A new call knows nothing, and does not take part in the lock. -/
theorem Sound.getClient (hS : s.Sound) (nodeName : String) :
    Sound { s with calls := s.calls ++ [⟨nodeName, .called⟩] } := by
  have hcases {c : GetClientCall κ ε} (hc : c ∈ s.calls ++ [⟨nodeName, .called⟩]) :
      c ∈ s.calls ∨ c = ⟨nodeName, .called⟩ := by
    simpa using hc
  have hold {j : ℕ} {c : GetClientCall κ ε} (hj : (s.calls ++ [⟨nodeName, .called⟩])[j]? = some c)
      (hw : c.phase.isWriter = true) : s.calls[j]? = some c := by
    rcases getElem?_concat_cases hj with hj | rfl
    · exact hj
    · cases hw
  refine ⟨⟨?_, ?_⟩, ?_, hS.cached, ?_⟩
  · intro j k a b ha hb hwa hwb
    exact hS.locked.writer (hold ha hwa) (hold hb hwb) hwa hwb
  · intro a b ha hb hown
    rcases hcases ha with ha | rfl
    · rcases hcases hb with hb | rfl
      · exact hS.locked.owner ha hb hown
      · rfl
    · cases hown
  · intro c hc
    rcases hcases hc with hc | rfl
    · exact hS.knows c hc
    · trivial
  · intro m hnone
    refine (hS.uncached m hnone).imp_right ?_
    rintro ⟨client, hmem⟩
    exact ⟨client, List.mem_append_left _ hmem⟩

theorem Sound.step (hS : s.Sound) {l : PoolMove κ ε} (h : s.step l = some s') : s'.Sound := by
  cases l with
  | getClient nodeName =>
    cases h
    exact hS.getClient nodeName
  | update st =>
    cases h
    exact ⟨⟨hS.locked.writer, hS.locked.owner⟩, hS.knows, hS.cached, hS.uncached⟩
  | next i conn => exact hS.next h

theorem Sound.makeClientPool (st : ShardMapState) : (makeClientPool st : GrpcClientPool κ ε).Sound := by
  constructor
  · constructor
    · intro i j a b ha
      cases ha
    · intro a b ha
      cases ha
  · intro c hc
    cases hc
  · intro n client hl
    cases hl
  · intro n _
    exact .inl rfl

theorem Sound.of_run {st : ShardMapState} {ls : List (PoolMove κ ε)}
    (h : run GrpcClientPool.step (GrpcClientPool.makeClientPool st) ls = some s) : s.Sound :=
  run_inductive (fun _ _ _ hS hs => hS.step hs) (.makeClientPool st) h

/-! ### What the cache and the results keep -/

theorem Sound.lookup_step (hS : s.Sound) {l : PoolMove κ ε} (h : s.step l = some s') {m : String} {client : κ}
    (hl : s.clients.lookup m = some client) : s'.clients.lookup m = some client := by
  cases l with
  | getClient nodeName | update st =>
    cases h
    exact hl
  | next i conn =>
    obtain ⟨n, p, p', hi, -, -, -, hE⟩ := next_cases h
    exact hS.lookup_mono hi hE hl

theorem Sound.lookup_run (hS : s.Sound) {ls : List (PoolMove κ ε)} (h : run GrpcClientPool.step s ls = some s')
    {m : String} {client : κ} (hl : s.clients.lookup m = some client) : s'.clients.lookup m = some client := by
  apply And.right
  exact run_inductive (I := fun u : GrpcClientPool κ ε => u.Sound ∧ u.clients.lookup m = some client)
    (fun _ _ _ hu hs => ⟨hu.1.step hs, hu.1.lookup_step hs hu.2⟩) ⟨hS, hl⟩ h

/-- The call returns this client, or has done so. -/
def Yields (s : GrpcClientPool κ ε) (i : ℕ) (n : String) (client : κ) : Prop :=
  s.calls[i]? = some ⟨n, .leaving (.ok client)⟩ ∨ s.calls[i]? = some ⟨n, .returned (.ok client)⟩

/-- The calls that are there, other than the one that moves, are as they were. -/
theorem getElem?_step {l : PoolMove κ ε} (h : s.step l = some s') {j : ℕ} {c : GetClientCall κ ε}
    (hj : s.calls[j]? = some c) :
    s'.calls[j]? = some c ∨ ∃ conn p', l = .next j conn ∧ s.turn c.nodeName conn c.phase = some p' ∧
      s'.calls[j]? = some ⟨c.nodeName, p'⟩ := by
  have hlt := (List.getElem?_eq_some_iff.mp hj).1
  cases l with
  | getClient nodeName =>
    cases h
    exact .inl ((List.getElem?_append_left hlt).trans hj)
  | update st =>
    cases h
    exact .inl hj
  | next i conn =>
    obtain ⟨n, p, p', hi, hturn, hcalls, -, -⟩ := next_cases h
    rw [hcalls]
    by_cases hij : i = j
    · subst hij
      obtain rfl := Option.some.inj (hi.symm.trans hj)
      exact .inr ⟨conn, p', rfl, hturn, List.getElem?_set_self hlt⟩
    · exact .inl ((List.getElem?_set_ne hij).trans hj)

theorem Yields.step {client : κ} (hY : s.Yields i n client) {l : PoolMove κ ε} (h : s.step l = some s') :
    s'.Yields i n client := by
  rcases hY with hi | hi
  · rcases getElem?_step h hi with hi' | ⟨conn, p', -, hturn, hi'⟩
    · exact .inl hi'
    · cases hturn
      exact .inr hi'
  · rcases getElem?_step h hi with hi' | ⟨conn, p', -, hturn, -⟩
    · exact .inr hi'
    · cases hturn

/-- A step that changes the cache puts a client where there was none, by a call that returns it
and while nobody looks. -/
theorem Sound.clients_cases (hS : s.Sound) {l : PoolMove κ ε} (h : s.step l = some s')
    (hne : s'.clients ≠ s.clients) : ∃ i conn n client, l = .next i conn ∧ s.clients.lookup n = none ∧
      s'.clients = s.clients.insert n client ∧ (∀ c ∈ s.calls, c.phase.isReader = false) ∧
      s'.Yields i n client := by
  cases l with
  | getClient nodeName | update st =>
    cases h
    exact absurd rfl hne
  | next i conn =>
    obtain ⟨n, p, p', hi, -, hcalls, -, hE⟩ := next_cases h
    have hmem := List.mem_of_getElem? hi
    cases hE with
    | quiet _ _ hc _ | connect hc _ => exact absurd hc hne
    | @insert client hc _ =>
      refine ⟨i, conn, n, client, rfl, (hS.knows _ hmem).1, hc, fun c hc => hS.locked.owner hmem hc rfl, .inl ?_⟩
      rw [hcalls]
      exact List.getElem?_set_self (List.getElem?_eq_some_iff.mp hi).1

/-! ### Every call can be brought to its end -/

/-- The number of steps to the end of all calls, at most. -/
def work (s : GrpcClientPool κ ε) : ℕ := (s.calls.map fun c => c.phase.work).sum

theorem work_next (h : s.step (.next i conn) = some s') : s'.work < s.work := by
  obtain ⟨n, p, p', hi, hturn, hcalls, -, -⟩ := next_cases h
  have hsum := sum_map_set (fun c : GetClientCall κ ε => c.phase.work) hi ⟨n, p'⟩
  have hlt : p'.work < p.work := turn_work hturn
  dsimp only at hsum
  rw [work, hcalls, work]
  omega

/-- When a call cannot go on: it has returned, or waits for the lock. -/
theorem waits_of_turn (h : s.turn n conn p = none) : (∃ res, p = .returned res) ∨
    (p = .called ∨ p = .missed) ∧ s.unwritten = false ∨ p = .locking ∧ s.unread = false := by
  unfold turn at h
  grind

/-- While a call has not returned, some call can go on: a reader, else the writer, else any. -/
theorem exists_turn {c : GetClientCall κ ε} (hc : c ∈ s.calls) (hret : ∀ res, c.phase ≠ .returned res)
    (conn : Except ε κ) : ∃ d ∈ s.calls, s.turn d.nodeName conn d.phase ≠ none := by
  by_contra hall
  push Not at hall
  have hread : s.unread = true := by
    refine unread_iff.mpr fun d hd => ?_
    rcases waits_of_turn (hall d hd) with ⟨res, hp⟩ | ⟨hp | hp, -⟩ | ⟨hp, -⟩ <;>
    · rw [hp]
      rfl
  have hwrite : s.unwritten = true := by
    refine unwritten_iff.mpr fun d hd => ?_
    rcases waits_of_turn (hall d hd) with ⟨res, hp⟩ | ⟨hp | hp, -⟩ | ⟨-, hunread⟩
    iterate 3
      rw [hp]
      rfl
    simp [hread] at hunread
  rcases waits_of_turn (hall c hc) with ⟨res, hp⟩ | ⟨-, hunwritten⟩ | ⟨-, hunread⟩
  · exact hret res hp
  · simp [hwrite] at hunwritten
  · simp [hread] at hunread

theorem exists_next {c : GetClientCall κ ε} (hc : c ∈ s.calls) (hret : ∀ res, c.phase ≠ .returned res)
    (conn : Except ε κ) : ∃ i s', s.step (.next i conn) = some s' := by
  obtain ⟨⟨n, p⟩, hd, hturn⟩ := exists_turn hc hret conn
  obtain ⟨i, hi⟩ := List.getElem?_of_mem hd
  obtain ⟨p', hturn⟩ := Option.ne_none_iff_exists'.mp hturn
  refine ⟨i, ?_⟩
  rw [← Option.ne_none_iff_exists']
  simp [step, hi, hturn]

/-- All calls return, if they are let on and `makeConnection` returns `conn`. -/
theorem exists_finish (conn : Except ε κ) (s : GrpcClientPool κ ε) : ∃ ls s', (∀ l ∈ ls, ∃ i, l = .next i conn) ∧
    run GrpcClientPool.step s ls = some s' ∧ ∀ c ∈ s'.calls, ∃ res, c.phase = .returned res := by
  induction hw : s.work using Nat.strong_induction_on generalizing s with
  | _ w ih =>
    by_cases hall : ∀ c ∈ s.calls, ∃ res, c.phase = .returned res
    · exact ⟨[], s, by simp, rfl, hall⟩
    · push Not at hall
      obtain ⟨c, hc, hret⟩ := hall
      obtain ⟨i, u, hu⟩ := exists_next hc hret conn
      obtain ⟨ls, s', hls, hrun, hdone⟩ := ih u.work (hw ▸ work_next hu) u rfl
      refine ⟨.next i conn :: ls, s', ?_, (run_cons_iff _).mpr ⟨u, hu, hrun⟩, hdone⟩
      exact List.forall_mem_cons.mpr ⟨⟨i, rfl⟩, hls⟩

/-- The node of the call is known, and the call has not failed. -/
def OnTrack (s : GrpcClientPool κ ε) (i : ℕ) (n : String) : Prop :=
  n ∈ s.shardMap.nodes ∧ ∃ p, s.calls[i]? = some ⟨n, p⟩ ∧ ∀ err, p ≠ .leaving (.error err) ∧ p ≠ .returned (.error err)

/-- A call for a known node does not fail unless `makeConnection` does. -/
theorem turn_onTrack {client : κ} (hn : n ∈ s.shardMap.nodes) (h : s.turn n (.ok client) p = some p')
    (hp : ∀ err, p ≠ .leaving (.error err)) (err : GetClientError ε) :
    p' ≠ .leaving (.error err) ∧ p' ≠ .returned (.error err) := by
  have hl := AList.lookup_isSome.mpr hn
  unfold turn at h
  grind

theorem OnTrack.next {client : κ} {j : ℕ} (hT : s.OnTrack i n) (h : s.step (.next j (.ok client)) = some s') :
    s'.OnTrack i n := by
  obtain ⟨hn, p, hi, hp⟩ := hT
  obtain ⟨-, -, -, -, -, -, hmap, -⟩ := next_cases h
  refine ⟨hmap ▸ hn, ?_⟩
  rcases getElem?_step h hi with hi' | ⟨conn, p', hl, hturn, hi'⟩
  · exact ⟨p, hi', hp⟩
  · cases hl
    exact ⟨p', hi', turn_onTrack hn hturn fun err => (hp err).1⟩

/-- A call for a known node can succeed. -/
theorem exists_success (s : GrpcClientPool κ ε) (hn : n ∈ s.shardMap.nodes) (conn : κ) :
    ∃ ls s' client, (∀ l ∈ ls, ∃ i, l = .next i (.ok conn)) ∧
      run GrpcClientPool.step s (.getClient n :: ls) = some s' ∧
      s'.calls[s.calls.length]? = some ⟨n, .returned (.ok client)⟩ := by
  obtain ⟨ls, s', hls, hrun, hdone⟩ := exists_finish (.ok conn) { s with calls := s.calls ++ [⟨n, .called⟩] }
  have hstart : OnTrack { s with calls := s.calls ++ [⟨n, .called⟩] } s.calls.length n :=
    ⟨hn, .called, List.getElem?_concat_length .., by simp⟩
  obtain ⟨-, p, hi, hp⟩ : s'.OnTrack s.calls.length n := by
    refine run_invariant (I := fun u : GrpcClientPool κ ε => u.OnTrack s.calls.length n) ?_
      (along_of_forall_mem _ hls) hstart hrun
    rintro u l u' hT ⟨i, rfl⟩ hu
    exact hT.next hu
  obtain ⟨res, hres⟩ := hdone _ (List.mem_of_getElem? hi)
  cases hres
  cases res with
  | error err => exact absurd rfl (hp err).2
  | ok client => exact ⟨ls, s', client, hls, (run_cons_iff _).mpr ⟨_, rfl, hrun⟩, hi⟩

/-- **One connection per node.** In every interleaving of calls, with any failures of
`makeConnection` and any changes of the shard map: at most one connection is made for a node;
the calls that succeed return that one; a step that changes the cache fills an empty entry, by a
call that succeeds; what is in the cache stays; and a later call for a known node may succeed. -/
theorem getClient_once {st : ShardMapState} {ls : List (PoolMove κ ε)}
    (h : run GrpcClientPool.step (makeClientPool st) ls = some s) :
    (∀ n, (s.madeFor n).length ≤ 1) ∧
      (∀ (i : ℕ) n client, s.calls[i]? = some ⟨n, .returned (.ok client)⟩ →
        s.madeFor n = [client] ∧ s.clients.lookup n = some client) ∧
      (∀ l s', s.step l = some s' → s'.clients ≠ s.clients → ∃ i conn n client, l = .next i conn ∧
        s.clients.lookup n = none ∧ s'.clients = s.clients.insert n client ∧
        (∀ c ∈ s.calls, c.phase.isReader = false) ∧
        ∀ ls' s'', run GrpcClientPool.step s' ls' = some s'' → s''.Yields i n client) ∧
      (∀ ls' s' n client, run GrpcClientPool.step s ls' = some s' →
        s.clients.lookup n = some client → s'.clients.lookup n = some client) ∧
      ∀ n ∈ s.shardMap.nodes, ∀ conn, ∃ ls' s' client, (∀ l ∈ ls', ∃ i, l = .next i (.ok conn)) ∧
        run GrpcClientPool.step s (.getClient n :: ls') = some s' ∧
        s'.calls[s.calls.length]? = some ⟨n, .returned (.ok client)⟩ := by
  have hS := Sound.of_run h
  refine ⟨?_, ?_, ?_, ?_, ?_⟩
  · intro n
    cases hl : s.clients.lookup n with
    | some client => simp [hS.cached n client hl]
    | none =>
      rcases hS.uncached n hl with hnil | ⟨client, hmem⟩
      · simp [hnil]
      · have hmade : s.madeFor n = [client] := (hS.knows _ hmem).2
        simp [hmade]
  · intro i n client hi
    have hl : s.clients.lookup n = some client := hS.knows _ (List.mem_of_getElem? hi)
    exact ⟨hS.cached n client hl, hl⟩
  · intro l s' hs hne
    obtain ⟨i, conn, n, client, hl, hnone, hins, hread, hY⟩ := hS.clients_cases hs hne
    refine ⟨i, conn, n, client, hl, hnone, hins, hread, fun ls' s'' hrun => ?_⟩
    exact run_inductive (I := fun u : GrpcClientPool κ ε => u.Yields i n client) (fun _ _ _ hY hs => hY.step hs) hY hrun
  · intro ls' s' n client hrun
    exact hS.lookup_run hrun
  · intro n hn conn
    exact exists_success s hn conn

/-- Two calls miss the cache together, the connection of one fails and the other makes it, and a
third call finds it. -/
def contendedMoves : List (PoolMove ℕ Unit) :=
  [.getClient "n1", .getClient "n1", .next 0 (.error ()), .next 1 (.error ()), .next 0 (.error ()),
    .next 1 (.error ()), .next 0 (.error ()), .next 1 (.error ())] ++
  (List.replicate 6 (PoolMove.next 1 (.error ())) : List (PoolMove ℕ Unit)) ++
  (List.replicate 7 (PoolMove.next 0 (.ok 7)) : List (PoolMove ℕ Unit)) ++
  (PoolMove.getClient "n1" :: List.replicate 3 (.next 2 (.ok 8)) : List (PoolMove ℕ Unit))

def contended : GrpcClientPool ℕ Unit :=
  (run GrpcClientPool.step (makeClientPool (.oneShard ["n1"] ["n1"])) contendedMoves).get (by decide +kernel)

theorem getClient_once_contended :
    contended.calls = [⟨"n1", .returned (.ok 7)⟩, ⟨"n1", .returned (.error (.makeConnection ()))⟩,
        ⟨"n1", .returned (.ok 7)⟩] ∧
      contended.madeFor "n1" = [7] := by
  have hrun : run GrpcClientPool.step (makeClientPool (.oneShard ["n1"] ["n1"])) contendedMoves = some contended :=
    run_eq_some_get _ _
  have hcalls : contended.calls = [⟨"n1", .returned (.ok 7)⟩, ⟨"n1", .returned (.error (.makeConnection ()))⟩,
      ⟨"n1", .returned (.ok 7)⟩] := by
    decide +kernel
  exact ⟨hcalls, ((getClient_once hrun).2.1 0 "n1" 7 (by rw [hcalls]; rfl)).1⟩

end GrpcClientPool

end Cs426.Kv

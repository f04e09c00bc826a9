import Cs426.Lib.Counting
import Cs426.Lib.Machine
import Mathlib.Logic.Function.Basic

/-!
# The simulated network

`lab3/labrpc/labrpc.go`: client ends send requests over one channel to a network that loses
requests and replies, delays them, and gives up on servers that are taken away while they
work.

## The model

A `Call` is three goroutines: the caller, `processReq`, and the one that runs the handler;
when `processReq` gives up on the server there is a fourth that takes the handler's reply
from the channel `ech`, so that the handler's goroutine can end. A `Request` says where each
of them is, and a step is what one of them does between two points at which another can come
in (`Act`). An end, a connection or a server can be changed at any time (`Board`). Server
pointers are of any type `V`; a handler returns whatever it returns, when it likes, or never.
Random choices are part of the labels. How long a sleep or a delay is does not matter, since
any other step may come before or after it: `longDelays` and `longReordering` are left out,
and so are the bytes sent. An unknown service or method ends the process.

## What is proved

* `Request.act_iff`, `Network.step_cases`, `Network.request_cases` — everything that can
  happen to a call.
-/

namespace Cs426.Rpc

open Cs426.Machine Cs426.Counting

variable {E S V R : Type*}

/-! ### The board -/

/-- What the network knows of ends and servers, under `rn.mu`. -/
structure Board (E S V : Type*) where
  reliable : Bool
  ends : E → Bool
  enabled : E → Bool
  connections : E → Option S
  servers : S → Option V

namespace Board

section Changes

variable [DecidableEq E] [DecidableEq S]

/-- A name that is taken ends the process. -/
def makeEnd (rn : Board E S V) (endname : E) : Option (Board E S V) :=
  if rn.ends endname then none
  else some { rn with
    ends := Function.update rn.ends endname true
    enabled := Function.update rn.enabled endname false
    connections := Function.update rn.connections endname none }

def addServer (rn : Board E S V) (servername : S) (rs : V) : Board E S V :=
  { rn with servers := Function.update rn.servers servername (some rs) }

def deleteServer (rn : Board E S V) (servername : S) : Board E S V :=
  { rn with servers := Function.update rn.servers servername none }

def connect (rn : Board E S V) (endname : E) (servername : S) : Board E S V :=
  { rn with connections := Function.update rn.connections endname (some servername) }

def enable (rn : Board E S V) (endname : E) (enabled : Bool) : Board E S V :=
  { rn with enabled := Function.update rn.enabled endname enabled }

end Changes

/-- `enabled`, `servername`, `server` and `reliable` for an end. -/
def readEndnameInfo (rn : Board E S V) (endname : E) : Bool × Option S × Option V × Bool :=
  (rn.enabled endname, rn.connections endname, (rn.connections endname).bind rn.servers, rn.reliable)

def isServerDead [DecidableEq V] (rn : Board E S V) (endname : E) (servername : S) (server : V) : Bool :=
  rn.enabled endname == false || rn.servers servername != some server

theorem isServerDead_eq_false_iff [DecidableEq V] {rn : Board E S V} {endname : E} {servername : S} {server : V} :
    rn.isServerDead endname servername server = false ↔
      rn.enabled endname = true ∧ rn.servers servername = some server := by
  simp [isServerDead]

end Board

/-! ### Requests -/

/-- What `processReq` has read of an enabled end with a server. -/
structure Info (S V : Type*) where
  servername : S
  server : V
  reliable : Bool
  deriving DecidableEq

/-- Where `Call` and `processReq` are. A reply is `none` for `replyMsg{false, nil}`. -/
inductive Proc (S V R : Type*) where
  /-- `Call` is sending the request on `e.ch`. -/
  | called
  /-- `processReq` has started. -/
  | accepted
  /-- The end is enabled and has a server. -/
  | chosen (info : Info S V)
  /-- In the loop that waits for the handler. -/
  | waiting (info : Info S V)
  /-- Out of the loop with a reply, before the last look at the server. -/
  | answered (info : Info S V) (reply : R)
  /-- Out of the loop without one. -/
  | deserted (info : Info S V)
  /-- Sending on `replyCh`, at once or after a delay. -/
  | sending (reply : Option R)
  | returned (reply : Option R)
  deriving DecidableEq

/-- Where the goroutine is that runs the handler. -/
inductive Handler (V R : Type*) where
  | idle
  /-- Started, and not yet counted by the server. -/
  | spawned (server : V)
  | running (server : V)
  /-- The handler has returned; the reply waits at `ech`. -/
  | finished (server : V) (reply : R)
  /-- The reply has been taken. -/
  | gone (server : V) (reply : R)
  deriving DecidableEq

/-- A call. -/
structure Request (E S V R : Type*) where
  endname : E
  proc : Proc S V R
  handler : Handler V R
  /-- Somebody drains `ech`. -/
  drain : Bool
  deriving DecidableEq

/-- What happens to a call. -/
inductive Act (R : Type*) where
  /-- The network's goroutine receives the request. -/
  | accept
  /-- `Call` sees that the network is closed. -/
  | refuse
  | read
  /-- The request is lost. -/
  | drop
  | spawn
  | begin
  /-- The handler returns. -/
  | finish (reply : R)
  /-- `processReq` takes the reply. -/
  | hand
  /-- A tenth of a second has passed in the loop. -/
  | poll
  | drain
  /-- The last look at the server; `lose` is the draw for losing the reply. -/
  | check (lose : Bool)
  /-- `Call` takes what `processReq` sends. -/
  | deliver

/-- The network. `count` is its `int32`, `served` the `count` of each server, an `int`. -/
structure Network (E S V R : Type*) where
  board : Board E S V
  requests : List (Request E S V R)
  count : Int32
  served : V → Int64
  /-- `rn.done` is closed. -/
  done : Bool
  /-- The goroutine of `MakeNetwork` is running. -/
  loop : Bool

def makeNetwork : Network E S V R where
  board := ⟨true, fun _ => false, fun _ => false, fun _ => none, fun _ => none⟩
  requests := []
  count := 0
  served := fun _ => 0
  done := false
  loop := true

/-- What becomes of a call; `none` is what cannot happen now. -/
def Request.act [DecidableEq V] (rn : Network E S V R) (q : Request E S V R) : Act R → Option (Request E S V R)
  | .accept =>
    match q.proc with
    | .called => if rn.loop then some { q with proc := .accepted } else none
    | _ => none
  | .refuse =>
    match q.proc with
    | .called => if rn.done then some { q with proc := .returned none } else none
    | _ => none
  | .read =>
    match q.proc with
    | .accepted =>
      match rn.board.readEndnameInfo q.endname with
      | (true, some servername, some server, reliable) =>
        some { q with proc := .chosen ⟨servername, server, reliable⟩ }
      | _ => some { q with proc := .sending none }
    | _ => none
  | .drop =>
    match q.proc with
    | .chosen info => if info.reliable then none else some { q with proc := .sending none }
    | _ => none
  | .spawn =>
    match q.proc with
    | .chosen info => some { q with proc := .waiting info, handler := .spawned info.server }
    | _ => none
  | .begin =>
    match q.handler with
    | .spawned server => some { q with handler := .running server }
    | _ => none
  | .finish reply =>
    match q.handler with
    | .running server => some { q with handler := .finished server reply }
    | _ => none
  | .hand =>
    match q.proc, q.handler with
    | .waiting info, .finished server reply =>
      some { q with proc := .answered info reply, handler := .gone server reply }
    | _, _ => none
  | .poll =>
    match q.proc with
    | .waiting info =>
      if rn.board.isServerDead q.endname info.servername info.server then
        some { q with proc := .deserted info, drain := true }
      else some q
    | _ => none
  | .drain =>
    match q.handler with
    | .finished server reply => if q.drain then some { q with handler := .gone server reply } else none
    | _ => none
  | .check lose =>
    match q.proc with
    | .answered info reply =>
      if rn.board.isServerDead q.endname info.servername info.server then some { q with proc := .sending none }
      else if !info.reliable && lose then some { q with proc := .sending none }
      else some { q with proc := .sending (some reply) }
    | .deserted _ => some { q with proc := .sending none }
    | _ => none
  | .deliver =>
    match q.proc with
    | .sending reply => some { q with proc := .returned reply }
    | _ => none

/-- What each act does, and when it can happen. -/
inductive Acts [DecidableEq V] (rn : Network E S V R) (q : Request E S V R) : Act R → Request E S V R → Prop
  | accept : q.proc = .called → rn.loop = true → Acts rn q .accept { q with proc := .accepted }
  | refuse : q.proc = .called → rn.done = true → Acts rn q .refuse { q with proc := .returned none }
  | read (info : Info S V) : q.proc = .accepted →
      rn.board.readEndnameInfo q.endname = (true, some info.servername, some info.server, info.reliable) →
      Acts rn q .read { q with proc := .chosen info }
  | unserved : q.proc = .accepted → (∀ servername server reliable,
      rn.board.readEndnameInfo q.endname ≠ (true, some servername, some server, reliable)) →
      Acts rn q .read { q with proc := .sending none }
  | drop (info : Info S V) : q.proc = .chosen info → info.reliable = false →
      Acts rn q .drop { q with proc := .sending none }
  | spawn (info : Info S V) : q.proc = .chosen info →
      Acts rn q .spawn { q with proc := .waiting info, handler := .spawned info.server }
  | begin (server : V) : q.handler = .spawned server → Acts rn q .begin { q with handler := .running server }
  | finish (server : V) (reply : R) : q.handler = .running server →
      Acts rn q (.finish reply) { q with handler := .finished server reply }
  | hand (info : Info S V) (server : V) (reply : R) : q.proc = .waiting info → q.handler = .finished server reply →
      Acts rn q .hand { q with proc := .answered info reply, handler := .gone server reply }
  | wait (info : Info S V) : q.proc = .waiting info →
      rn.board.isServerDead q.endname info.servername info.server = false → Acts rn q .poll q
  | desert (info : Info S V) : q.proc = .waiting info →
      rn.board.isServerDead q.endname info.servername info.server = true →
      Acts rn q .poll { q with proc := .deserted info, drain := true }
  | drain (server : V) (reply : R) : q.handler = .finished server reply → q.drain = true →
      Acts rn q .drain { q with handler := .gone server reply }
  | lose (info : Info S V) (reply : R) (lose : Bool) : q.proc = .answered info reply →
      rn.board.isServerDead q.endname info.servername info.server = true ∨ info.reliable = false ∧ lose = true →
      Acts rn q (.check lose) { q with proc := .sending none }
  | pass (info : Info S V) (reply : R) (lose : Bool) : q.proc = .answered info reply →
      rn.board.isServerDead q.endname info.servername info.server = false → info.reliable = true ∨ lose = false →
      Acts rn q (.check lose) { q with proc := .sending (some reply) }
  | fail (info : Info S V) (lose : Bool) : q.proc = .deserted info →
      Acts rn q (.check lose) { q with proc := .sending none }
  | deliver (reply : Option R) : q.proc = .sending reply → Acts rn q .deliver { q with proc := .returned reply }

/-- **What an act does.** -/
theorem Request.act_iff [DecidableEq V] {rn : Network E S V R} {q q' : Request E S V R} {a : Act R} :
    q.act rn a = some q' ↔ Acts rn q a q' := by
  constructor
  · intro h
    cases a <;> simp only [Request.act] at h
    case accept =>
      split at h
      · next hp =>
        obtain ⟨hl, rfl⟩ := by simpa using h
        exact .accept hp hl
      · cases h
    case refuse =>
      split at h
      · next hp =>
        obtain ⟨hd, rfl⟩ := by simpa using h
        exact .refuse hp hd
      · cases h
    case read =>
      split at h
      · next hp =>
        split at h <;> cases h
        · next servername server reliable hread => exact .read ⟨servername, server, reliable⟩ hp hread
        · next hno => exact .unserved hp fun servername server reliable => hno servername server reliable
      · cases h
    case drop =>
      split at h
      · next info hp =>
        obtain ⟨hrel, rfl⟩ := by simpa using h
        exact .drop info hp hrel
      · cases h
    case spawn =>
      split at h <;> cases h
      next info hp => exact .spawn info hp
    case begin =>
      split at h <;> cases h
      next server hh => exact .begin server hh
    case finish reply =>
      split at h <;> cases h
      next server hh => exact .finish server reply hh
    case hand =>
      split at h <;> cases h
      next info server reply hp hh => exact .hand info server reply hp hh
    case poll =>
      split at h
      · next info hp =>
        split at h <;> cases h
        · next hdead => exact .desert info hp hdead
        · next halive => exact .wait info hp (by simpa using halive)
      · cases h
    case drain =>
      split at h
      · next server reply hh =>
        obtain ⟨hd, rfl⟩ := by simpa using h
        exact .drain server reply hh hd
      · cases h
    case check lose =>
      split at h
      · next info reply hp =>
        split at h
        · next hdead =>
          cases h
          exact .lose info reply lose hp (.inl hdead)
        · next halive =>
          split at h <;> cases h
          · next hlost => exact .lose info reply lose hp (.inr (by simpa using hlost))
          · next hkept =>
            refine .pass info reply lose hp (by simpa using halive) ?_
            cases hrel : info.reliable
            · exact .inr (by simpa [hrel] using hkept)
            · exact .inl rfl
      · next info hp =>
        cases h
        exact .fail info lose hp
      · cases h
    case deliver =>
      split at h <;> cases h
      next reply hp => exact .deliver reply hp
  · intro h
    cases h with
    | lose info reply lose hp hdead =>
      rcases hdead with hdead | ⟨hrel, hlose⟩
      · simp [Request.act, hp, hdead]
      · simp [Request.act, hp, hrel, hlose]
    | pass info reply lose hp halive hkeep =>
      rcases hkeep with hkeep | hkeep <;> simp [Request.act, hp, halive, hkeep]
    | accept | refuse | read | unserved | drop | spawn | begin | finish | hand | wait | desert | drain | fail
    | deliver => simp_all [Request.act]

/-- What happens. -/
inductive NetLabel (E S V R : Type*) where
  | call (endname : E)
  | act (r : ℕ) (a : Act R)
  | makeEnd (endname : E)
  | connect (endname : E) (servername : S)
  | enable (endname : E) (enabled : Bool)
  | addServer (servername : S) (rs : V)
  | deleteServer (servername : S)
  | reliable (yes : Bool)
  | cleanup
  /-- The goroutine of `MakeNetwork` sees that the network is closed. -/
  | stop

namespace Network

variable [DecidableEq E] [DecidableEq S] [DecidableEq V]

/-- The counters of the network and of the servers. -/
def counted (rn : Network E S V R) (q : Request E S V R) (a : Act R) : Network E S V R :=
  { rn with
    count := match a with
      | .accept => rn.count + 1
      | _ => rn.count
    served := match a, q.handler with
      | .begin, .spawned server => Function.update rn.served server (rn.served server + 1)
      | _, _ => rn.served }

/-- `GetCount` of a name that has no server is a panic. -/
def getCount (rn : Network E S V R) (servername : S) : Option Int64 := (rn.board.servers servername).map rn.served

def getTotalCount (rn : Network E S V R) : Int64 := rn.count.toInt64

/-- One step of the network. -/
def step (rn : Network E S V R) : NetLabel E S V R → Option (Network E S V R)
  | .call endname =>
    if rn.board.ends endname then
      some { rn with requests := rn.requests ++ [⟨endname, .called, .idle, false⟩] }
    else none
  | .act r a =>
    rn.requests[r]?.bind fun q => (q.act rn a).map fun q' =>
      { rn.counted q a with requests := rn.requests.set r q' }
  | .makeEnd endname => (rn.board.makeEnd endname).map fun b => { rn with board := b }
  | .connect endname servername => some { rn with board := rn.board.connect endname servername }
  | .enable endname enabled => some { rn with board := rn.board.enable endname enabled }
  | .addServer servername rs => some { rn with board := rn.board.addServer servername rs }
  | .deleteServer servername => some { rn with board := rn.board.deleteServer servername }
  | .reliable yes => some { rn with board := { rn.board with reliable := yes } }
  | .cleanup => if rn.done then none else some { rn with done := true }
  | .stop => if rn.done && rn.loop then some { rn with loop := false } else none

variable {rn rn' : Network E S V R} {l : NetLabel E S V R} {r : ℕ} {q q' : Request E S V R} {a : Act R}

theorem step_act_iff :
    step rn (.act r a) = some rn' ↔ ∃ q q', rn.requests[r]? = some q ∧ Acts rn q a q' ∧
      rn' = { rn.counted q a with requests := rn.requests.set r q' } := by
  simp only [step, Option.bind_eq_some_iff, Option.map_eq_some_iff, Request.act_iff, eq_comm (a := rn')]
  constructor
  · rintro ⟨q, hq, q', hacts, h⟩
    exact ⟨q, q', hq, hacts, h⟩
  · rintro ⟨q, q', hq, hacts, h⟩
    exact ⟨q, hq, q', hacts, h⟩

/-- An act that can happen can be taken, and leaves the call as it says. -/
theorem step_of_acts (hq : rn.requests[r]? = some q) (hacts : Acts rn q a q') :
    ∃ rn', step rn (.act r a) = some rn' ∧ rn'.requests[r]? = some q' :=
  ⟨_, step_act_iff.mpr ⟨q, q', hq, hacts, rfl⟩, List.getElem?_set_self (List.getElem?_eq_some_iff.mp hq).1⟩

/-- **What a step does**: an act of a call; or nothing to the calls but that one is made. -/
theorem step_cases (hs : step rn l = some rn') :
    (rn'.count = rn.count ∧ rn'.served = rn.served ∧ (∀ r a, l ≠ .act r a) ∧
      (rn'.requests = rn.requests ∨ ∃ e, rn'.requests = rn.requests ++ [⟨e, .called, .idle, false⟩])) ∨
    ∃ r a q q', l = .act r a ∧ rn.requests[r]? = some q ∧ Acts rn q a q' ∧
      rn' = { rn.counted q a with requests := rn.requests.set r q' } := by
  cases l with
  | call e =>
    simp only [step, Option.ite_none_right_eq_some] at hs
    obtain ⟨-, ⟨⟩⟩ := hs
    exact .inl ⟨rfl, rfl, nofun, .inr ⟨e, rfl⟩⟩
  | act r a =>
    obtain ⟨q, q', hq, hacts, rfl⟩ := step_act_iff.mp hs
    exact .inr ⟨r, a, q, q', rfl, hq, hacts, rfl⟩
  | makeEnd e =>
    obtain ⟨b, -, rfl⟩ := Option.map_eq_some_iff.mp hs
    exact .inl ⟨rfl, rfl, nofun, .inl rfl⟩
  | connect | enable | addServer | deleteServer | reliable =>
    cases hs
    exact .inl ⟨rfl, rfl, nofun, .inl rfl⟩
  | cleanup =>
    simp only [step, Option.ite_none_left_eq_some] at hs
    obtain ⟨-, ⟨⟩⟩ := hs
    exact .inl ⟨rfl, rfl, nofun, .inl rfl⟩
  | stop =>
    simp only [step, Option.ite_none_right_eq_some] at hs
    obtain ⟨-, ⟨⟩⟩ := hs
    exact .inl ⟨rfl, rfl, nofun, .inl rfl⟩

/-- **What a step does to a call**: nothing; it has just been made; or the step is one of its
acts. -/
theorem request_cases (hs : step rn l = some rn') (hq' : rn'.requests[r]? = some q') :
    rn.requests[r]? = some q' ∨ (∃ e, q' = ⟨e, .called, .idle, false⟩) ∨
    ∃ a q, l = .act r a ∧ rn.requests[r]? = some q ∧ Acts rn q a q' := by
  rcases step_cases hs with ⟨-, -, -, hreq | ⟨e, hreq⟩⟩ | ⟨r', a, q, q'', rfl, hq, hacts, rfl⟩
  · exact .inl (hreq ▸ hq')
  · rw [hreq] at hq'
    rcases getElem?_concat_cases hq' with hq' | rfl
    · exact .inl hq'
    · exact .inr (.inl ⟨e, rfl⟩)
  · rcases getElem?_set_cases hq' with ⟨-, hq'⟩ | ⟨rfl, rfl⟩
    · exact .inl hq'
    · exact .inr (.inr ⟨a, q, rfl, hq, hacts⟩)

/-- A call stays on record, as it was or after one of its acts. -/
theorem request_step (hs : step rn l = some rn') (hq : rn.requests[r]? = some q) :
    ∃ q', rn'.requests[r]? = some q' ∧ (q' = q ∨ ∃ a, l = .act r a ∧ Acts rn q a q') := by
  have hlt := (List.getElem?_eq_some_iff.mp hq).1
  rcases step_cases hs with ⟨-, -, -, hreq | ⟨e, hreq⟩⟩ | ⟨r', a, q₀, q', rfl, hq₀, hacts, rfl⟩
  · exact ⟨q, hreq ▸ hq, .inl rfl⟩
  · exact ⟨q, by rw [hreq, List.getElem?_append_left hlt, hq], .inl rfl⟩
  · by_cases hr : r' = r
    · subst hr
      obtain rfl : q₀ = q := Option.some.inj (hq₀.symm.trans hq)
      exact ⟨q', List.getElem?_set_self hlt, .inr ⟨a, rfl, hacts⟩⟩
    · exact ⟨q, by rw [List.getElem?_set_ne hr, hq], .inl rfl⟩

end Network

end Cs426.Rpc

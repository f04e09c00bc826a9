import Cs426.Rpc.Calls
import Mathlib.Data.List.FinRange

/-!
# The Raft tester's configuration

`lab3/raft/config.go` and `lab3/raft/persister.go`: `n` peers on the simulated network,
which the tester starts, crashes, connects and disconnects while they run.

## The model

An instance of a peer cannot really be killed: it keeps running, calling and saving. Each
instance has a `Persister` and a server of its own, and what the tester hands on is the
content of the last persister. A persister is modelled by the states saved to it or to the
ones it was copied from, newest first, so that what `ReadRaftState` returns is the first of
them. `start1`, `crash1`, `connect` and `disconnect` are sequences of small steps (`Micro`),
each of which holds `cfg.mu` or `rn.mu` where the code does; the tester runs one operation
at a time, and calls, handlers and saves come in between anywhere. `randstring` is part of
the operation that draws the names; the apply channel and `Kill` change nothing here.
-/

namespace Cs426.Rpc

open Cs426.Machine

variable {n : ℕ} {E σ R : Type*}

/-- A small step of the tester. -/
inductive Micro (n : ℕ) (E : Type*) where
  /-- `cfg.connected[i] = yes`. -/
  | mark (i : Fin n) (yes : Bool)
  /-- Enable the end from `src` to `dst`, if `other` is connected. -/
  | enable (src dst other : Fin n)
  /-- Disable the end from `src` to `dst`, if `src` has ends. -/
  | disable (src dst : Fin n)
  | deleteServer (i : Fin n)
  /-- `cfg.saved[i] = cfg.saved[i].Copy()`, if there is one; or a new persister with the
  state and the snapshot read from it. -/
  | copySaved (i : Fin n)
  /-- `cfg.rafts[i] = nil`. -/
  | forget (i : Fin n)
  | rename (i : Fin n) (names : Fin n → E)
  | makeEnd (i j : Fin n)
  | connectEnd (i j : Fin n)
  /-- A copy of the persister, or the first one. -/
  | freshSaved (i : Fin n)
  /-- `rf := Make(ends, i, cfg.saved[i], applyCh)`. -/
  | make (i : Fin n)
  | addServer (i : Fin n)

/-- An operation of the tester. -/
inductive Op (n : ℕ) (E : Type*) where
  | start1 (i : Fin n) (names : Fin n → E)
  | crash1 (i : Fin n)
  | connect (i : Fin n)
  | disconnect (i : Fin n)

def disconnect (i : Fin n) : List (Micro n E) :=
  .mark i false :: ((List.finRange n).map (fun j => .disable i j) ++ (List.finRange n).map fun j => .disable j i)

def connect (i : Fin n) : List (Micro n E) :=
  .mark i true :: ((List.finRange n).map (fun j => .enable i j j) ++ (List.finRange n).map fun j => .enable j i j)

def crash1 (i : Fin n) : List (Micro n E) :=
  disconnect i ++ [.deleteServer i, .copySaved i, .forget i, .copySaved i]

def start1 (i : Fin n) (names : Fin n → E) : List (Micro n E) :=
  crash1 i ++ (.rename i names :: ((List.finRange n).flatMap (fun j => [.makeEnd i j, .connectEnd i j]) ++
    [.freshSaved i, .make i, .addServer i]))

def Op.program : Op n E → List (Micro n E)
  | .start1 i names => Rpc.start1 i names
  | .crash1 i => Rpc.crash1 i
  | .connect i => Rpc.connect i
  | .disconnect i => Rpc.disconnect i

/-- An instance of a peer, with the persister it was given. -/
structure Instance (n : ℕ) where
  peer : Fin n
  persister : ℕ
  deriving DecidableEq

/-- The tester, the network and the instances. Pointers to persisters and instances are
places in the lists; a server is named by its instance. -/
structure Config (n : ℕ) (E σ R : Type*) where
  net : Network E (Fin n) ℕ R
  connected : Fin n → Bool
  endnames : Fin n → Option (Fin n → E)
  saved : Fin n → Option ℕ
  rafts : Fin n → Option ℕ
  persisters : List (List σ)
  instances : List (Instance n)
  /-- What is left of the operation the tester is in. -/
  todo : List (Micro n E)

/-- What happens. -/
inductive Event (n : ℕ) (E σ R : Type*) where
  /-- The tester begins an operation. -/
  | op (o : Op n E)
  /-- The tester takes its next small step. -/
  | tester
  | call (endname : E)
  | act (r : ℕ) (a : Act R)
  /-- Instance `k` saves a state. -/
  | save (k : ℕ) (state : σ)
  | reliable (yes : Bool)

namespace Config

/-- `make_config` before its loops: no peer has been started. -/
def make (n : ℕ) (E σ R : Type*) : Config n E σ R where
  net := makeNetwork
  connected := fun _ => false
  endnames := fun _ => none
  saved := fun _ => none
  rafts := fun _ => none
  persisters := []
  instances := []
  todo := []

/-- The board of the network is now `board`. -/
def setBoard (c : Config n E σ R) (board : Board E (Fin n) ℕ) : Config n E σ R :=
  { c with net := { c.net with board := board } }

/-- Peer `i` gets a new persister with the content `states`. -/
def setSaved (c : Config n E σ R) (i : Fin n) (states : List σ) : Config n E σ R :=
  { c with
    persisters := c.persisters ++ [states]
    saved := Function.update c.saved i (some c.persisters.length) }

variable [DecidableEq E]

/-- A small step of the tester; `none` is a panic or the end of the process. -/
def micro (c : Config n E σ R) : Micro n E → Option (Config n E σ R)
  | .mark i yes => some { c with connected := Function.update c.connected i yes }
  | .enable src dst other =>
    if c.connected other then
      (c.endnames src).map fun names => c.setBoard (c.net.board.enable (names dst) true)
    else some c
  | .disable src dst =>
    match c.endnames src with
    | some names => some (c.setBoard (c.net.board.enable (names dst) false))
    | none => some c
  | .deleteServer i => some (c.setBoard (c.net.board.deleteServer i))
  | .copySaved i =>
    match c.saved i with
    | some p => c.persisters[p]?.map fun states => c.setSaved i states
    | none => some c
  | .forget i => some { c with rafts := Function.update c.rafts i none }
  | .rename i names => some { c with endnames := Function.update c.endnames i (some names) }
  | .makeEnd i j =>
    (c.endnames i).bind fun names => (c.net.board.makeEnd (names j)).map c.setBoard
  | .connectEnd i j => (c.endnames i).map fun names => c.setBoard (c.net.board.connect (names j) j)
  | .freshSaved i =>
    match c.saved i with
    | some p => c.persisters[p]?.map fun states => c.setSaved i states
    | none => some (c.setSaved i [])
  | .make i =>
    (c.saved i).map fun p =>
      { c with
        instances := c.instances ++ [⟨i, p⟩]
        rafts := Function.update c.rafts i (some c.instances.length) }
  | .addServer i => (c.rafts i).map fun k => c.setBoard (c.net.board.addServer i k)

/-- One step of the tester, the network or an instance. -/
def step (c : Config n E σ R) : Event n E σ R → Option (Config n E σ R)
  | .op o => if c.todo.isEmpty then some { c with todo := o.program } else none
  | .tester =>
    match c.todo with
    | [] => none
    | m :: todo => (c.micro m).map fun c' => { c' with todo := todo }
  | .call endname => (c.net.step (.call endname)).map fun net => { c with net := net }
  | .act r a => (c.net.step (.act r a)).map fun net => { c with net := net }
  | .save k state =>
    c.instances[k]?.bind fun inst => c.persisters[inst.persister]?.map fun states =>
      { c with persisters := c.persisters.set inst.persister (state :: states) }
  | .reliable yes => (c.net.step (.reliable yes)).map fun net => { c with net := net }

/-- The states saved by instance `k`, or by those its persister was copied from. -/
def stored (c : Config n E σ R) (k : ℕ) : List σ :=
  (c.instances[k]?.bind fun inst => c.persisters[inst.persister]?).getD []

/-- The content of the persister of peer `i`: what its next instance starts from. -/
def kept (c : Config n E σ R) (i : Fin n) : List σ := ((c.saved i).bind fun p => c.persisters[p]?).getD []

end Config

end Cs426.Rpc

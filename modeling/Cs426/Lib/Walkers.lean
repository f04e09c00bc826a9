import Cs426.Lib.Counting
import Cs426.Lib.Machine
import Mathlib.Data.List.Perm.Lattice
import Mathlib.Logic.Relation
import Mathlib.Algebra.BigOperators.Group.Multiset.Basic

/-!
# Walking a graph together

Several walkers go through a graph and leave marks. A walker has a stack of tasks: to visit a
node, or to put something out. Visiting a node that has no mark yet marks it, and puts the
tasks of the node on the stack; visiting one that has a mark does nothing. A walker takes a
step at a time, and the others come in between anywhere.

What has been done is kept, and what the walkers were asked to do.

## What is proved

* `Balanced.step` — what is done and what is left is what was asked for and the tasks of the
  marked nodes, each node once.
* `marked_iff` — when nothing is left, the marked nodes are those that can be reached.
* `done_perm`, `countP_isGo_le` — what has been done then, and how many steps there can be.
-/

namespace Cs426.Walkers

open Cs426.Machine Cs426.Counting

variable {T X : Type*}

inductive Task (T X : Type*) where
  | visit (t : T)
  | emit (x : X)
  deriving DecidableEq

structure Walk (T X : Type*) where
  marked : List T
  walkers : List (List (Task T X))
  /-- What the walkers were asked to do. -/
  asked : List (Task T X)
  /-- What they have done, in order. -/
  done : List (Task T X)

inductive Label (T X : Type*) where
  /-- A walker starts with these tasks. -/
  | start (tasks : List (Task T X))
  /-- A walker does its next task. -/
  | go (w : ℕ)

/-- What a label asks for. -/
def Label.tasks : Label T X → List (Task T X)
  | .start tasks => tasks
  | .go _ => []

/-- The label is a step of a walker. -/
def Label.isGo : Label T X → Bool
  | .start _ => false
  | .go _ => true

namespace Walk

def init : Walk T X := ⟨[], [], [], []⟩

variable [DecidableEq T] (body : T → List (Task T X))

/-- What is on the stack of a walker after a task, with the marks that are set. -/
def expand (marked : List T) : Task T X → List T × List (Task T X)
  | .visit t => if t ∈ marked then (marked, []) else (t :: marked, body t)
  | .emit _ => (marked, [])

def step (s : Walk T X) : Label T X → Option (Walk T X)
  | .start tasks => some { s with walkers := s.walkers ++ [tasks], asked := s.asked ++ tasks }
  | .go w =>
    match s.walkers[w]? with
    | some (task :: rest) =>
      some { s with
        marked := (expand body s.marked task).1
        walkers := s.walkers.set w ((expand body s.marked task).2 ++ rest)
        done := s.done ++ [task] }
    | _ => none

variable {body} {s s' : Walk T X}

/-- **What a step does**: a walker starts, or does a task. -/
theorem step_cases {l : Label T X} (h : s.step body l = some s') :
    (∃ tasks, l = .start tasks ∧ s' = { s with walkers := s.walkers ++ [tasks], asked := s.asked ++ tasks }) ∨
    ∃ w task rest, l = .go w ∧ s.walkers[w]? = some (task :: rest) ∧
      s' = { s with
        marked := (expand body s.marked task).1
        walkers := s.walkers.set w ((expand body s.marked task).2 ++ rest)
        done := s.done ++ [task] } := by
  cases l with
  | start tasks =>
    cases h
    exact .inl ⟨tasks, rfl, rfl⟩
  | go w =>
    simp only [step] at h
    split at h
    · next task rest hw =>
      cases h
      exact .inr ⟨w, task, rest, rfl, hw, rfl⟩
    · cases h

/-- What the walkers have left to do. -/
def left (s : Walk T X) : Multiset (Task T X) := (s.walkers.map Multiset.ofList).sum

variable (body) in
/-- The tasks of the marked nodes. -/
def opened (s : Walk T X) : Multiset (Task T X) := (s.marked.map fun t => Multiset.ofList (body t)).sum

/-- **Nothing is lost or done twice**: what is done and what is left is what was asked for and
the tasks of the marked nodes, which are all different. -/
structure Balanced (body : T → List (Task T X)) (s : Walk T X) : Prop where
  nodup : s.marked.Nodup
  balance : (s.done : Multiset (Task T X)) + s.left = s.asked + s.opened body

omit [DecidableEq T] in
theorem Balanced.init : Balanced body (Walk.init : Walk T X) := ⟨List.nodup_nil, rfl⟩

omit [DecidableEq T] in
theorem left_go {w : ℕ} {task : Task T X} {rest : List (Task T X)} (hw : s.walkers[w]? = some (task :: rest))
    (new : List (Task T X)) :
    ((s.walkers.set w (new ++ rest)).map Multiset.ofList).sum + {task} = s.left + new := by
  have hsum := sum_map_set Multiset.ofList hw (new ++ rest)
  refine add_right_cancel (b := (rest : Multiset (Task T X))) ?_
  rw [add_assoc, Multiset.singleton_add, Multiset.cons_coe, hsum, ← Multiset.coe_add, left, add_assoc]

/-- What a task opens. -/
theorem opened_expand (marked : List T) (task : Task T X) :
    ((expand body marked task).1.map fun t => Multiset.ofList (body t)).sum =
      (marked.map fun t => Multiset.ofList (body t)).sum + Multiset.ofList (expand body marked task).2 := by
  cases task with
  | emit x => simp [expand]
  | visit t =>
    by_cases ht : t ∈ marked
    · simp [expand, ht]
    · simp [expand, ht, add_comm]

theorem nodup_expand {marked : List T} (h : marked.Nodup) (task : Task T X) : (expand body marked task).1.Nodup := by
  cases task with
  | emit x => exact h
  | visit t =>
    by_cases ht : t ∈ marked
    · simpa [expand, ht] using h
    · simpa [expand, ht] using h

theorem Balanced.step {l : Label T X} (hb : s.Balanced body) (h : s.step body l = some s') : s'.Balanced body := by
  rcases step_cases h with ⟨tasks, rfl, rfl⟩ | ⟨w, task, rest, rfl, hw, rfl⟩
  · refine ⟨hb.nodup, ?_⟩
    have hbal := hb.balance
    simp only [left, opened, List.map_append, List.map_singleton, List.sum_append, List.sum_singleton,
      ← Multiset.coe_add] at hbal ⊢
    rw [← add_assoc, hbal, add_right_comm]
  · refine ⟨nodup_expand hb.nodup task, ?_⟩
    have hgo := left_go hw (expand body s.marked task).2
    have hbal := hb.balance
    simp only [left, opened, ← Multiset.coe_add, Multiset.coe_singleton, opened_expand] at hbal hgo ⊢
    rw [add_assoc, add_comm ({task} : Multiset (Task T X)), hgo, ← add_assoc, hbal, add_assoc]

/-! ### What is marked -/

variable (body) in
/-- From one node to one of those it says to visit. -/
def Edge (t u : T) : Prop := .visit u ∈ body t

/-- A walker has still to visit `u`. -/
def Pending (s : Walk T X) (u : T) : Prop := ∃ tasks ∈ s.walkers, .visit u ∈ tasks

/-- What has to be visited is marked, or going to be; and only what can be reached is. -/
structure Covers (body : T → List (Task T X)) (s : Walk T X) : Prop where
  asked : ∀ u, .visit u ∈ s.asked → u ∈ s.marked ∨ s.Pending u
  closed : ∀ t ∈ s.marked, ∀ u, Edge body t u → u ∈ s.marked ∨ s.Pending u
  reached : ∀ u, u ∈ s.marked ∨ s.Pending u → ∃ r, .visit r ∈ s.asked ∧ Relation.ReflTransGen (Edge body) r u

omit [DecidableEq T] in
theorem Covers.init : Covers body (Walk.init : Walk T X) := by
  refine ⟨nofun, nofun, fun u hu => ?_⟩
  rcases hu with hu | ⟨tasks, htasks, -⟩
  · cases hu
  · cases htasks

theorem mem_expand {marked : List T} {task : Task T X} {u : T} :
    u ∈ (expand body marked task).1 ↔ u ∈ marked ∨ task = .visit u := by
  cases task with
  | emit x => simp [expand]
  | visit t =>
    by_cases ht : t ∈ marked
    · simp only [expand, if_pos ht, Task.visit.injEq]
      exact ⟨.inl, fun h => h.elim id fun h => h ▸ ht⟩
    · simp [expand, ht, or_comm, eq_comm]

/-- What a walker gets to do is what a node that it has just marked says. -/
theorem mem_expand_snd {marked : List T} {task v : Task T X} :
    v ∈ (expand body marked task).2 ↔ ∃ t, task = .visit t ∧ t ∉ marked ∧ v ∈ body t := by
  cases task with
  | emit x => simp [expand]
  | visit t =>
    by_cases ht : t ∈ marked
    · simp [expand, ht]
    · simp [expand, ht]

section Go

variable {w : ℕ} {task : Task T X} {rest : List (Task T X)}

omit [DecidableEq T] in
/-- What was left before a walker did a task is that task, or still left. -/
theorem pending_go (hw : s.walkers[w]? = some (task :: rest)) (new : List (Task T X)) {u : T} (hu : s.Pending u) :
    task = .visit u ∨ ∃ tasks ∈ s.walkers.set w (new ++ rest), .visit u ∈ tasks := by
  obtain ⟨tasks, htasks, hu⟩ := hu
  obtain ⟨j, hj⟩ := List.mem_iff_getElem?.mp htasks
  by_cases hjw : w = j
  · subst hjw
    obtain rfl : task :: rest = tasks := Option.some.inj (hw.symm.trans hj)
    rcases List.mem_cons.mp hu with hu | hu
    · exact .inl hu.symm
    · refine .inr ⟨new ++ rest, ?_, List.mem_append_right _ hu⟩
      exact List.mem_of_getElem? (List.getElem?_set_self (List.getElem?_eq_some_iff.mp hj).1)
  · exact .inr ⟨tasks, List.mem_of_getElem? ((List.getElem?_set_ne hjw).trans hj), hu⟩

omit [DecidableEq T] in
/-- What is left after a walker did a task was left before, or is new. -/
theorem pending_of_go (hw : s.walkers[w]? = some (task :: rest)) {new : List (Task T X)} {u : T}
    (hu : ∃ tasks ∈ s.walkers.set w (new ++ rest), .visit u ∈ tasks) : s.Pending u ∨ .visit u ∈ new := by
  obtain ⟨tasks, htasks, hu⟩ := hu
  rcases List.mem_or_eq_of_mem_set htasks with htasks | rfl
  · exact .inl ⟨tasks, htasks, hu⟩
  · rcases List.mem_append.mp hu with hu | hu
    · exact .inr hu
    · exact .inl ⟨task :: rest, List.mem_of_getElem? hw, List.mem_cons_of_mem _ hu⟩

end Go

theorem Covers.step {l : Label T X} (hc : s.Covers body) (h : s.step body l = some s') : s'.Covers body := by
  rcases step_cases h with ⟨tasks, rfl, rfl⟩ | ⟨w, task, rest, rfl, hw, rfl⟩
  · have hold : ∀ {u}, u ∈ s.marked ∨ s.Pending u → u ∈ s.marked ∨ Pending
        { s with walkers := s.walkers ++ [tasks], asked := s.asked ++ tasks } u := by
      rintro u (hu | ⟨ts, hts, hu⟩)
      · exact .inl hu
      · exact .inr ⟨ts, List.mem_append_left _ hts, hu⟩
    refine ⟨fun u hu => ?_, fun t ht u hu => hold (hc.closed t ht u hu), fun u hu => ?_⟩
    · rcases List.mem_append.mp hu with hu | hu
      · exact hold (hc.asked u hu)
      · exact .inr ⟨tasks, List.mem_append_right _ (List.mem_singleton_self _), hu⟩
    · have hfrom : (u ∈ s.marked ∨ s.Pending u) ∨ .visit u ∈ tasks := by
        rcases hu with hu | ⟨ts, hts, hu⟩
        · exact .inl (.inl hu)
        · rcases List.mem_append.mp hts with hts | hts
          · exact .inl (.inr ⟨ts, hts, hu⟩)
          · exact .inr (List.mem_singleton.mp hts ▸ hu)
      rcases hfrom with hu | hu
      · obtain ⟨r, hr, hreach⟩ := hc.reached u hu
        exact ⟨r, List.mem_append_left _ hr, hreach⟩
      · exact ⟨u, List.mem_append_right _ hu, .refl⟩
  · have hold : ∀ {u}, u ∈ s.marked ∨ s.Pending u → u ∈ (expand body s.marked task).1 ∨ Pending
        { s with
          marked := (expand body s.marked task).1
          walkers := s.walkers.set w ((expand body s.marked task).2 ++ rest)
          done := s.done ++ [task] } u := by
      rintro u (hu | hu)
      · exact .inl (mem_expand.mpr (.inl hu))
      · rcases pending_go hw (expand body s.marked task).2 hu with hu | hu
        · exact .inl (mem_expand.mpr (.inr hu))
        · exact .inr hu
    refine ⟨fun u hu => hold (hc.asked u hu), fun t ht u hu => ?_, fun u hu => ?_⟩
    · by_cases htm : t ∈ s.marked
      · exact hold (hc.closed t htm u hu)
      · -- the node that has just been marked: its tasks are on the stack
        have htask := (mem_expand.mp ht).resolve_left htm
        refine .inr ⟨_, List.mem_of_getElem? (List.getElem?_set_self (List.getElem?_eq_some_iff.mp hw).1), ?_⟩
        exact List.mem_append_left _ (mem_expand_snd.mpr ⟨t, htask, htm, hu⟩)
    · have htask : ∀ {t}, task = .visit t → s.Pending t := fun h =>
        ⟨task :: rest, List.mem_of_getElem? hw, h ▸ List.mem_cons_self ..⟩
      rcases hu with hu | hu
      · exact hc.reached u ((mem_expand.mp hu).imp id htask)
      · rcases pending_of_go hw hu with hu | hu
        · exact hc.reached u (.inr hu)
        · obtain ⟨t, ht, -, hedge⟩ := mem_expand_snd.mp hu
          obtain ⟨r, hr, hreach⟩ := hc.reached t (.inr (htask ht))
          exact ⟨r, hr, hreach.tail hedge⟩

/-! ### Over whole runs -/

/-- Nothing is left to do. -/
def Rests (s : Walk T X) : Prop := ∀ tasks ∈ s.walkers, tasks = []

variable {ls : List (Label T X)}

theorem of_run (h : run (step body) init ls = some s) : s.Balanced body ∧ s.Covers body :=
  run_inductive (I := fun s => s.Balanced body ∧ s.Covers body)
    (fun _ _ _ hI hs => ⟨hI.1.step hs, hI.2.step hs⟩) ⟨.init, .init⟩ h

theorem asked_eq_of_run (h : run (step body) init ls = some s) : s.asked = ls.flatMap Label.tasks := by
  have hall : ∀ {s₀ : Walk T X}, run (step body) s₀ ls = some s → s.asked = s₀.asked ++ ls.flatMap Label.tasks := by
    clear h
    induction ls with
    | nil =>
      intro s₀ h
      rw [run_nil, Option.some.injEq] at h
      rw [h, List.flatMap_nil, List.append_nil]
    | cons l ls ih =>
      intro s₀ h
      obtain ⟨s₁, hs₁, h⟩ := (run_cons_iff _).mp h
      rw [ih h, List.flatMap_cons, ← List.append_assoc]
      rcases step_cases hs₁ with ⟨tasks, rfl, rfl⟩ | ⟨w, task, rest, rfl, -, rfl⟩
      · rfl
      · rw [Label.tasks, List.append_nil]
  exact hall h

/-- **When nothing is left to do, the marked nodes are those that can be reached** from those
that were asked for. -/
theorem marked_iff (h : run (step body) init ls = some s) (hs : s.Rests) (u : T) :
    u ∈ s.marked ↔ ∃ r, .visit r ∈ s.asked ∧ Relation.ReflTransGen (Edge body) r u := by
  obtain ⟨-, hc⟩ := of_run h
  have hnone : ∀ {u}, u ∈ s.marked ∨ s.Pending u → u ∈ s.marked := by
    rintro u (hu | ⟨tasks, htasks, hu⟩)
    · exact hu
    · rw [hs tasks htasks] at hu
      cases hu
  constructor
  · exact fun hu => hc.reached u (.inl hu)
  · rintro ⟨r, hr, hreach⟩
    induction hreach with
    | refl => exact hnone (hc.asked r hr)
    | tail _ hedge ih => exact hnone (hc.closed _ ih _ hedge)

omit [DecidableEq T] in
theorem opened_eq (s : Walk T X) : s.opened body = s.marked.flatMap body := by
  unfold opened
  induction s.marked with
  | nil => rfl
  | cons t marked ih => rw [List.map_cons, List.sum_cons, ih, Multiset.coe_add, List.flatMap_cons]

/-- **What has been done then**: what was asked for, and the tasks of the marked nodes, each once. -/
theorem done_perm (h : run (step body) init ls = some s) (hs : s.Rests) :
    s.done.Perm (s.asked ++ s.marked.flatMap body) := by
  obtain ⟨hb, -⟩ := of_run h
  have hleft : s.left = 0 := by
    refine List.sum_eq_zero fun tasks htasks => ?_
    obtain ⟨ts, hts, rfl⟩ := List.mem_map.mp htasks
    rw [hs ts hts]
    rfl
  have hbal := hb.balance
  rw [hleft, add_zero, opened_eq, Multiset.coe_add] at hbal
  exact Multiset.coe_eq_coe.mp hbal

/-- **There are no more steps** than tasks asked for and tasks of marked nodes. -/
theorem countP_isGo_le (h : run (step body) init ls = some s) :
    ls.countP Label.isGo ≤ s.asked.length + (s.marked.flatMap body).length := by
  have hcount : s.done.length = ls.countP Label.isGo := by
    have := run_countP (f := fun s : Walk T X => s.done.length) (p := Label.isGo) (I := fun _ => True)
      (fun _ _ _ _ _ => trivial) (fun s l s' _ hs => ?_) trivial h
    · simpa [init] using this
    · rcases step_cases hs with ⟨tasks, rfl, rfl⟩ | ⟨w, task, rest, rfl, -, rfl⟩
      · rfl
      · simp [Label.isGo]
  have hbal := congrArg Multiset.card (of_run h).1.balance
  simp only [Multiset.card_add, Multiset.coe_card, opened_eq] at hbal
  omega

end Walk

end Cs426.Walkers

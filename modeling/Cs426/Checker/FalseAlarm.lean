import Cs426.Checker.Detection

/-!
# When the checker raises a false alarm

The checker beside a store that does nothing wrong: for each key an atomic register. A `Set`
takes effect at one moment between its call and its return, unless it fails, when it may take
none; a `Get` reads the register at one moment between its call and its return; a value
disappears by itself between the two instants that `CompleteWrite` records for it. Clock
readings strictly increase.

The checker is right about such a store but for one case. The value of a `Set` that failed
is recorded as one that may be read, and a read that finds nothing is accepted only if one of
the values recorded may have expired or none is recorded. So after a `Set` that failed and
took no effect, a `Get` that finds nothing, as it must, is reported (`false_alarm`). As soon as
some `Set` of the key has taken effect, or while none has been completed, the checker accepts
every read (`no_false_alarm`), as long as its 64-bit counts have not wrapped around.
-/

namespace Cs426.Checker

open Cs426.Machine Cs426.Counting

/-- The checker's history and the store: for each key the last write that took effect and
whether its value is still there; the writes that have taken effect; and what each read
returned. -/
structure Bench where
  history : History
  clock : ℤ
  registers : String → Option (ℕ × Bool)
  effects : List ℕ
  answers : ℕ → Option (Option String)

/-- What can happen. -/
inductive Act where
  | beginWrite (key value : String) (maybeExpiredBy definitelyExpiredBy : ℤ)
  /-- The `i`-th write takes effect. -/
  | effect (i : ℕ)
  /-- The `Set` of the `i`-th write returns, and it is completed. -/
  | completeWrite (i : ℕ) (err : Option String)
  /-- The value stored under the key disappears. -/
  | expire (key : String)
  /-- A read begins; the clock was read before. -/
  | beginRead (key : String) (startTime : ℤ)
  /-- The `Get` of the `i`-th read looks at the register. -/
  | get (i : ℕ)
  /-- The `Get` of the `i`-th read returns, and it is checked. -/
  | check (i : ℕ)

namespace Bench

/-- A store with nothing in it. -/
def fresh (clock : ℤ) : Bench := ⟨.fresh, clock, fun _ => none, [], fun _ => none⟩

/-- What a `Get` finds: `none` is nothing. By its second instant a value has disappeared. -/
def lookup (flags : Flags) (b : Bench) (key : String) : Option (Option String) :=
  match b.registers key with
  | some (i, true) => b.history.writes[i]?.bind fun w =>
      if b.clock ≤ w.definitelyExpiredBy + flags.ttlCheckBuffer then some (some w.value) else none
  | _ => some none

/-- The bench after one act, at the instant the clock shows. -/
def act (flags : Flags) (b : Bench) : Act → Option Bench
  | .beginWrite key value maybeExpiredBy definitelyExpiredBy =>
    (b.history.step flags (.beginWrite key value maybeExpiredBy definitelyExpiredBy)).map
      fun h => { b with history := h }
  | .effect i =>
    b.history.writes[i]?.bind fun w =>
      if w.ended = none ∧ i ∉ b.effects then
        some { b with
          registers := Function.update b.registers w.key (some (i, true))
          effects := i :: b.effects }
      else none
  | .completeWrite i err =>
    if err = none → i ∈ b.effects then
      (b.history.step flags (.completeWrite i err b.clock)).map fun h => { b with history := h }
    else none
  | .expire key =>
    match b.registers key with
    | some (i, true) => b.history.writes[i]?.bind fun w =>
        if w.maybeExpiredBy ≤ b.clock then
          some { b with registers := Function.update b.registers key (some (i, false)) }
        else none
    | _ => none
  | .beginRead key startTime =>
    if startTime ≤ b.clock then
      (b.history.step flags (.beginRead key startTime)).map fun h => { b with history := h }
    else none
  | .get i =>
    b.history.reads[i]?.bind fun r =>
      if b.answers i = none then
        (b.lookup flags r.key).map fun answer => { b with answers := Function.update b.answers i (some answer) }
      else none
  | .check i =>
    (b.answers i).bind fun answer =>
      (b.history.step flags (.checkReadCorrect i (answer.getD "") answer.isSome b.clock)).map
        fun h => { b with history := h }

/-- One step: the clock is read again, and then something happens. -/
def step (flags : Flags) (b : Bench) (e : ℤ × Act) : Option Bench :=
  if b.clock < e.1 then { b with clock := e.1 }.act flags e.2 else none

/-- What the checker says of the `i`-th read when it is checked at `now`. -/
def verdict (flags : Flags) (b : Bench) (i : ℕ) (now : ℤ) : Option ReadError :=
  match b.history.reads[i]?, b.answers i with
  | some r, some answer =>
    (b.history.cc.checkReadCorrect flags r.key (answer.getD "") answer.isSome r.startTime r.initialVersion
      r.writesPending now).2
  | _, _ => none

/-- No write is forgotten. -/
theorem length_writes_step {flags : Flags} {b b' : Bench} {e : ℤ × Act} (hs : b.step flags e = some b') :
    b.history.writes.length ≤ b'.history.writes.length := by
  obtain ⟨-, hact⟩ := Option.ite_none_right_eq_some.mp hs
  obtain ⟨now, l⟩ := e
  cases l with
  | beginWrite key value mb db =>
    obtain ⟨h', hh, rfl⟩ := Option.map_eq_some_iff.mp hact
    exact History.length_writes_step hh
  | effect i =>
    obtain ⟨w, -, hif⟩ := Option.bind_eq_some_iff.mp hact
    obtain ⟨-, hb⟩ := Option.ite_none_right_eq_some.mp hif
    cases hb
    exact le_rfl
  | completeWrite i err | beginRead key startTime =>
    obtain ⟨-, hb⟩ := Option.ite_none_right_eq_some.mp hact
    obtain ⟨h', hh, rfl⟩ := Option.map_eq_some_iff.mp hb
    exact History.length_writes_step hh
  | expire key =>
    simp only [act] at hact
    split at hact
    · obtain ⟨w, -, hif⟩ := Option.bind_eq_some_iff.mp hact
      obtain ⟨-, hb⟩ := Option.ite_none_right_eq_some.mp hif
      cases hb
      exact le_rfl
    · cases hact
  | get i =>
    obtain ⟨r, -, hif⟩ := Option.bind_eq_some_iff.mp hact
    obtain ⟨-, hb⟩ := Option.ite_none_right_eq_some.mp hif
    obtain ⟨answer, -, rfl⟩ := Option.map_eq_some_iff.mp hb
    exact le_rfl
  | check i =>
    obtain ⟨answer, -, hb⟩ := Option.bind_eq_some_iff.mp hact
    obtain ⟨h', hh, rfl⟩ := Option.map_eq_some_iff.mp hb
    exact History.length_writes_step hh

/-! ### What the registers have to do with the records -/

/-- What a read returned is what the register of its key says. -/
def Explains (flags : Flags) (b : Bench) (r : ReadOp) : Option String → Prop
  | some v => ∃ a p w, b.registers r.key = some (a, p) ∧ b.history.writes[a]? = some w ∧ w.value = v ∧
      r.startTime ≤ w.definitelyExpiredBy + flags.ttlCheckBuffer
  | none => ∀ a p, b.registers r.key = some (a, p) → p = false

structure Sound (flags : Flags) (b : Bench) : Prop where
  recorded : b.history.Recorded flags
  author : ∀ key a p, b.registers key = some (a, p) → a ∈ b.effects ∧ ∃ w, b.history.writes[a]? = some w ∧
    w.key = key ∧ (p = false → w.maybeExpiredBy ≤ b.clock)
  effect : ∀ i ∈ b.effects, ∃ w, b.history.writes[i]? = some w ∧ b.registers w.key ≠ none
  success : ∀ (i : ℕ) (w : WriteOp), b.history.writes[i]? = some w → w.ended ≠ none → w.err = none → i ∈ b.effects
  /-- The last write to take effect was not over when another that took effect began. -/
  last : ∀ (key : String) (a : ℕ) (p : Bool) (op : WriteOp) (i : ℕ) (w : WriteOp), b.registers key = some (a, p) →
    b.history.writes[a]? = some op → i ∈ b.effects → b.history.writes[i]? = some w → w.key = key →
    ¬ op.EndedBefore w.began
  current : ∀ (key : String) (a : ℕ) (p : Bool) (op : WriteOp), b.registers key = some (a, p) →
    b.history.writes[a]? = some op → op.ended ≠ none → op.value ∈ b.history.cc.values key
  started : ∀ (i : ℕ) (r : ReadOp), b.history.reads[i]? = some r → r.startTime ≤ b.clock
  unanswered : ∀ i, b.history.reads.length ≤ i → b.answers i = none
  answer : ∀ (i : ℕ) (r : ReadOp) (answer : Option String), b.history.reads[i]? = some r →
    b.answers i = some answer → b.history.Quiet r → b.Explains flags r answer

/-- A register after one of them was set. -/
theorem update_eq_some_iff {f : String → Option (ℕ × Bool)} {key k : String} {v x : ℕ × Bool} :
    Function.update f key (some v) k = some x ↔ k = key ∧ x = v ∨ k ≠ key ∧ f k = some x := by
  by_cases hk : k = key
  · subst hk
    simp [eq_comm]
  · simp [hk]

theorem update_ne_none {f : String → Option (ℕ × Bool)} {key k : String} {v : ℕ × Bool} (h : k = key ∨ f k ≠ none) :
    Function.update f key (some v) k ≠ none := by
  by_cases hk : k = key
  · simp [hk]
  · rw [Function.update_of_ne hk]
    exact h.resolve_left hk

namespace Sound

variable {flags : Flags} {b b' : Bench} {h' : History}

/-- Time passes. -/
theorem tick (hS : b.Sound flags) {now : ℤ} (hnow : b.clock ≤ now) : ({ b with clock := now } : Bench).Sound flags where
  recorded := hS.recorded
  author key a p hr := by
    obtain ⟨ha, w, hw, hkey, hexp⟩ := hS.author key a p hr
    exact ⟨ha, w, hw, hkey, fun hp => (hexp hp).trans hnow⟩
  effect := hS.effect
  success := hS.success
  last := hS.last
  current := hS.current
  started i r hr := (hS.started i r hr).trans hnow
  unanswered := hS.unanswered
  answer := hS.answer

/-- Kept where a call ends no write. -/
theorem extend (hS : b.Sound flags) (hR : h'.Recorded flags) (hvals : h'.cc.values = b.history.cc.values)
    (hold : ∀ (j : ℕ) (w : WriteOp), b.history.writes[j]? = some w → h'.writes[j]? = some w)
    (hnew : ∀ (j : ℕ) (w : WriteOp), h'.writes[j]? = some w → w.ended ≠ none → b.history.writes[j]? = some w)
    (hreads : b.history.reads.length ≤ h'.reads.length)
    (hread : ∀ (i : ℕ) (r : ReadOp), h'.reads[i]? = some r →
      b.history.reads[i]? = some r ∨ b.history.reads.length ≤ i ∧ r.startTime ≤ b.clock) :
    ({ b with history := h' } : Bench).Sound flags := by
  -- a write that took effect is one of the old ones
  have heffect : ∀ i ∈ b.effects, ∀ w, h'.writes[i]? = some w → b.history.writes[i]? = some w := by
    intro i hi w hw
    obtain ⟨w', hw', -⟩ := hS.effect i hi
    rw [hold i w' hw', Option.some.injEq] at hw
    rw [hw', hw]
  exact
    { recorded := hR
      author := fun key a p hr => by
        obtain ⟨ha, w, hw, hrest⟩ := hS.author key a p hr
        exact ⟨ha, w, hold a w hw, hrest⟩
      effect := fun i hi => by
        obtain ⟨w, hw, hr⟩ := hS.effect i hi
        exact ⟨w, hold i w hw, hr⟩
      success := fun i w hw hend => hS.success i w (hnew i w hw hend) hend
      last := fun key a p op i w hr hop hi hw =>
        hS.last key a p op i w hr (heffect a (hS.author key a p hr).1 op hop) hi (heffect i hi w hw)
      current := fun key a p op hr hop hend => by
        rw [hvals]
        exact hS.current key a p op hr (heffect a (hS.author key a p hr).1 op hop) hend
      started := fun i r hr => (hread i r hr).elim (hS.started i r) fun hnew => hnew.2
      unanswered := fun i hi => hS.unanswered i (hreads.trans hi)
      answer := fun i r answer hr hans hquiet => by
        rcases hread i r hr with hr | ⟨hlen, -⟩
        · have hexp := hS.answer i r answer hr hans fun j w hw => hquiet j w (hold j w hw)
          cases answer with
          | none => exact hexp
          | some v =>
            obtain ⟨a, p, w, hreg, hw, hrest⟩ := hexp
            exact ⟨a, p, w, hreg, hold a w hw, hrest⟩
        · rw [hS.unanswered i hlen] at hans
          cases hans }

/-- A write takes effect. -/
theorem effected (hS : b.Sound flags) {i : ℕ} {w : WriteOp} (hw : b.history.writes[i]? = some w)
    (hend : w.ended = none) :
    ({ b with
        registers := Function.update b.registers w.key (some (i, true))
        effects := i :: b.effects } : Bench).Sound flags := by
  have hpending : ∀ t, ¬ w.EndedBefore t := by
    rintro t ⟨e, he, -⟩
    rw [hend] at he
    cases he
  refine
    { recorded := hS.recorded
      author := fun key a p hr => ?_
      effect := fun j hj => ?_
      success := fun j x hx hxend herr => List.mem_cons_of_mem _ (hS.success j x hx hxend herr)
      last := fun key a p op j x hr hop hj hx hxk => ?_
      current := fun key a p op hr hop hopend => ?_
      started := hS.started
      unanswered := hS.unanswered
      answer := fun j r answer hr hans hquiet => ?_ }
  · rcases update_eq_some_iff.mp hr with ⟨rfl, hx⟩ | ⟨-, hr⟩
    · obtain ⟨rfl, rfl⟩ := Prod.mk.inj hx
      exact ⟨List.mem_cons_self .., w, hw, rfl, by simp⟩
    · obtain ⟨ha, hrest⟩ := hS.author key a p hr
      exact ⟨List.mem_cons_of_mem _ ha, hrest⟩
  · rcases List.mem_cons.mp hj with rfl | hj
    · exact ⟨w, hw, update_ne_none (Or.inl rfl)⟩
    · obtain ⟨x, hx, hreg⟩ := hS.effect j hj
      exact ⟨x, hx, update_ne_none (Or.inr hreg)⟩
  · rcases update_eq_some_iff.mp hr with ⟨rfl, hxi⟩ | ⟨hk, hr⟩
    · obtain ⟨rfl, rfl⟩ := Prod.mk.inj hxi
      obtain rfl := Option.some.inj (hw.symm.trans hop)
      exact hpending _
    · rcases List.mem_cons.mp hj with rfl | hj
      · obtain rfl := Option.some.inj (hw.symm.trans hx)
        exact absurd hxk.symm hk
      · exact hS.last key a p op j x hr hop hj hx hxk
  · rcases update_eq_some_iff.mp hr with ⟨rfl, hx⟩ | ⟨-, hr⟩
    · obtain ⟨rfl, rfl⟩ := Prod.mk.inj hx
      obtain rfl := Option.some.inj (hw.symm.trans hop)
      exact absurd hend hopend
    · exact hS.current key a p op hr hop hopend
  · -- a read of this key is overlapped by the write
    have hk : r.key ≠ w.key := fun hk => hpending _ (hquiet i w hw hk.symm)
    have hexp := hS.answer j r answer hr hans hquiet
    cases answer with
    | none =>
      intro a p hreg
      rcases update_eq_some_iff.mp hreg with ⟨hk', -⟩ | ⟨-, hreg⟩
      · exact absurd hk' hk
      · exact hexp a p hreg
    | some v =>
      obtain ⟨a, p, x, hreg, hrest⟩ := hexp
      exact ⟨a, p, x, update_eq_some_iff.mpr (Or.inr ⟨hk, hreg⟩), hrest⟩

/-- A value disappears. -/
theorem expired (hS : b.Sound flags) {key : String} {i : ℕ} {w : WriteOp}
    (hreg : b.registers key = some (i, true)) (hw : b.history.writes[i]? = some w)
    (hexp : w.maybeExpiredBy ≤ b.clock) :
    ({ b with registers := Function.update b.registers key (some (i, false)) } : Bench).Sound flags := by
  -- the last write to take effect stays the same
  have hsame : ∀ k a p, Function.update b.registers key (some (i, false)) k = some (a, p) →
      ∃ p', b.registers k = some (a, p') := by
    intro k a p hr
    rcases update_eq_some_iff.mp hr with ⟨rfl, hx⟩ | ⟨-, hr⟩
    · exact ⟨true, (Prod.mk.inj hx).1 ▸ hreg⟩
    · exact ⟨p, hr⟩
  refine
    { recorded := hS.recorded
      author := fun k a p hr => ?_
      effect := fun j hj => ?_
      success := hS.success
      last := fun k a p op j x hr => ?_
      current := fun k a p op hr => ?_
      started := hS.started
      unanswered := hS.unanswered
      answer := fun j r answer hr hans hquiet => ?_ }
  · rcases update_eq_some_iff.mp hr with ⟨rfl, hx⟩ | ⟨-, hr⟩
    · obtain ⟨rfl, rfl⟩ := Prod.mk.inj hx
      obtain ⟨ha, x, hx, hxk, -⟩ := hS.author k a true hreg
      obtain rfl := Option.some.inj (hw.symm.trans hx)
      exact ⟨ha, w, hw, hxk, fun _ => hexp⟩
    · exact hS.author k a p hr
  · obtain ⟨x, hx, hr⟩ := hS.effect j hj
    exact ⟨x, hx, update_ne_none (Or.inr hr)⟩
  · obtain ⟨p', hr'⟩ := hsame k a p hr
    exact hS.last k a p' op j x hr'
  · obtain ⟨p', hr'⟩ := hsame k a p hr
    exact hS.current k a p' op hr'
  · have hold := hS.answer j r answer hr hans hquiet
    cases answer with
    | none =>
      intro a p hr'
      rcases update_eq_some_iff.mp hr' with ⟨-, hx⟩ | ⟨-, hr'⟩
      · exact (Prod.mk.inj hx).2
      · exact hold a p hr'
    | some v =>
      obtain ⟨a, p, x, hra, hrest⟩ := hold
      by_cases hk : r.key = key
      · rw [hk, hreg, Option.some.injEq, Prod.mk.injEq] at hra
        obtain ⟨rfl, rfl⟩ := hra
        exact ⟨i, false, x, update_eq_some_iff.mpr (Or.inl ⟨hk, rfl⟩), hrest⟩
      · exact ⟨a, p, x, update_eq_some_iff.mpr (Or.inr ⟨hk, hra⟩), hrest⟩

/-- A `Get` looks at the register. -/
theorem answered (hS : b.Sound flags) {i : ℕ} {r : ReadOp} {answer : Option String}
    (hr : b.history.reads[i]? = some r) (hl : b.lookup flags r.key = some answer) :
    ({ b with answers := Function.update b.answers i (some answer) } : Bench).Sound flags := by
  refine
    { recorded := hS.recorded
      author := hS.author
      effect := hS.effect
      success := hS.success
      last := hS.last
      current := hS.current
      started := hS.started
      unanswered := fun j hj => ?_
      answer := fun j r' answer' hr' hans hquiet => ?_ }
  · have hlt : i < b.history.reads.length := (List.getElem?_eq_some_iff.mp hr).1
    have hne : j ≠ i := fun h => absurd (h ▸ hlt) (not_lt.mpr hj)
    exact (Function.update_of_ne hne _ _).trans (hS.unanswered j hj)
  · by_cases hj : j = i
    · subst hj
      obtain rfl := Option.some.inj (hr.symm.trans hr')
      have hans : Function.update b.answers j (some answer) j = some answer' := hans
      rw [Function.update_self, Option.some.injEq] at hans
      subst hans
      unfold lookup at hl
      split at hl
      · next a hreg =>
        obtain ⟨w, hw, hif⟩ := Option.bind_eq_some_iff.mp hl
        obtain ⟨hle, hans⟩ := Option.ite_none_right_eq_some.mp hif
        obtain rfl := Option.some.inj hans
        exact ⟨a, true, w, hreg, hw, rfl, (hS.started j r hr).trans hle⟩
      · next hnot =>
        obtain rfl := Option.some.inj hl
        intro a p hreg
        cases p with
        | false => rfl
        | true => exact absurd hreg (hnot a)
    · exact hS.answer j r' answer' hr' ((Function.update_of_ne hj _ _).symm.trans hans) hquiet

/-- Ending a write changes nothing else about it. -/
theorem getElem?_completed {h : History} {i : ℕ} {w : WriteOp} (hw : h.writes[i]? = some w) (err : Option String)
    {j : ℕ} {x : WriteOp} (hx : h.writes[j]? = some x) :
    ∃ x', (h.writes.set i (h.endWrite w err))[j]? = some x' ∧ x'.key = x.key ∧ x'.value = x.value ∧
      x'.maybeExpiredBy = x.maybeExpiredBy ∧ x'.definitelyExpiredBy = x.definitelyExpiredBy := by
  by_cases hj : j = i
  · subst hj
    obtain rfl := Option.some.inj (hw.symm.trans hx)
    exact ⟨_, List.getElem?_set_self (List.getElem?_eq_some_iff.mp hw).1, rfl, rfl, rfl, rfl⟩
  · exact ⟨x, by rw [List.getElem?_set_ne (Ne.symm hj), hx], rfl, rfl, rfl, rfl⟩

/-- A write is completed. -/
theorem completed (hS : b.Sound flags) {i : ℕ} {w : WriteOp} (hw : b.history.writes[i]? = some w)
    (hend : w.ended = none) (hbound : b.history.writes.length < 2 ^ 64) {err : Option String}
    (heff : err = none → i ∈ b.effects) (now : ℤ) (hv : w.value ∉ b.history.cc.values w.key)
    (ho : w.value ∉ b.history.cc.overwrittenValues w.key) :
    ({ b with
        history :=
          { b.history with
            cc := b.history.cc.record w.key (History.newVal flags w err now) w.initialVersion
            writes := b.history.writes.set i (b.history.endWrite w err)
            tick := b.history.tick + 1 } } : Bench).Sound flags := by
  have hI := hS.recorded.inv
  have hself := List.getElem?_set_self (a := b.history.endWrite w err) (List.getElem?_eq_some_iff.mp hw).1
  refine
    { recorded := hS.recorded.ended hw hend err now hv ho
      author := fun key a p hr => ?_
      effect := fun j hj => ?_
      success := fun j x hx hxend herr => ?_
      last := fun key a p op j x hr hop hj hx hxk => ?_
      current := fun key a p op hr hop hopend => ?_
      started := hS.started
      unanswered := hS.unanswered
      answer := fun j r answer hr hans hquiet => ?_ }
  · obtain ⟨ha, x, hx, hkey, hexp⟩ := hS.author key a p hr
    obtain ⟨x', hx', hkey', -, hmb, -⟩ := getElem?_completed hw err hx
    exact ⟨ha, x', hx', hkey'.trans hkey, fun hp => hmb ▸ hexp hp⟩
  · obtain ⟨x, hx, hreg⟩ := hS.effect j hj
    obtain ⟨x', hx', hkey', -⟩ := getElem?_completed hw err hx
    exact ⟨x', hx', hkey' ▸ hreg⟩
  · rcases getElem?_set_cases hx with ⟨-, hx⟩ | ⟨rfl, rfl⟩
    · exact hS.success j x hx hxend herr
    · exact heff herr
  · -- the tick at which a write ends is later than the start of every write
    have hlater : x.began < b.history.tick := by
      rcases getElem?_set_cases hx with ⟨-, hx⟩ | ⟨-, rfl⟩
      · exact hI.began_lt j x hx
      · exact hI.began_lt i w hw
    rcases getElem?_set_cases hop with ⟨-, hop'⟩ | ⟨-, rfl⟩
    · rcases getElem?_set_cases hx with ⟨-, hx'⟩ | ⟨rfl, rfl⟩
      · exact hS.last key a p op j x hr hop' hj hx' hxk
      · exact hS.last key a p op j w hr hop' hj hw hxk
    · exact History.not_endedBefore_endWrite hlater.le
  · rcases getElem?_set_cases hop with ⟨hai, hop⟩ | ⟨rfl, rfl⟩
    · have hmem := hS.current key a p op hr hop hopend
      obtain ⟨-, x, hx, hxk, -⟩ := hS.author key a p hr
      obtain rfl := Option.some.inj (hop.symm.trans hx)
      refine mem_values_record hmem fun hrep hk => ?_
      -- an isolated write that took effect was the last one to do so
      obtain ⟨herr, hver, hrc⟩ := hrep
      obtain ⟨-, -, hall⟩ : ({ b.history with
          cc := b.history.cc.record w.key (History.newVal flags w err now) w.initialVersion
          writes := b.history.writes.set i (b.history.endWrite w err)
          tick := b.history.tick + 1 } : History).Isolated i (b.history.endWrite w err) :=
        hI.isolated_of_replaces hw hend hbound herr hver hrc
      rcases hall a op (by rw [List.getElem?_set_ne (Ne.symm hai), hop]) hai (hxk.trans hk) with hbefore | hafter
      · exact hS.last key a p op i w hr hop (heff herr) hw hk.symm hbefore
      · exact History.not_endedBefore_endWrite (hI.began_lt a op hop).le hafter
    · obtain ⟨-, x, hx, hxk, -⟩ := hS.author key a p hr
      obtain rfl := Option.some.inj (hw.symm.trans hx)
      subst hxk
      have hself : ((b.history.cc.record w.key (History.newVal flags w err now) w.initialVersion).values
          w.key).lookup (History.newVal flags w err now).value = some (History.newVal flags w err now) :=
        lookup_record_self
      exact mem_values_iff.mpr ⟨_, hself⟩
  · have hlt := (hI.read r (List.mem_of_getElem? hr)).1
    have hquiet' : b.history.Quiet r := by
      intro k x hx hxk
      by_cases hk : k = i
      · subst hk
        obtain rfl := Option.some.inj (hw.symm.trans hx)
        exact absurd (hquiet k (b.history.endWrite w err) hself hxk) (History.not_endedBefore_endWrite hlt.le)
      · exact hquiet k x (by rw [List.getElem?_set_ne (Ne.symm hk), hx]) hxk
    have hexp := hS.answer j r answer hr hans hquiet'
    cases answer with
    | none => exact hexp
    | some v =>
      obtain ⟨a, p, x, hreg, hx, hxv, hdb⟩ := hexp
      obtain ⟨x', hx', -, hval, -, hdb'⟩ := getElem?_completed hw err hx
      exact ⟨a, p, x', hreg, hx', hval.trans hxv, hdb' ▸ hdb⟩

/-- Kept by whatever happens. -/
theorem act (hc : flags.checkCorrectness = true) (hS : b.Sound flags) (hbound : b.history.writes.length < 2 ^ 64)
    {l : Act} (hs : b.act flags l = some b') : b'.Sound flags := by
  cases l with
  | beginWrite key value mb db =>
    obtain ⟨h', hh, rfl⟩ := Option.map_eq_some_iff.mp hs
    have hR := hS.recorded.step hc hh
    obtain ⟨-, rfl⟩ := (History.step_beginWrite_iff hc).mp hh
    refine hS.extend hR rfl (fun j w hw => ?_) (fun j w hw hend => ?_) le_rfl fun i r hr => Or.inl hr
    · rw [List.getElem?_append_left (List.getElem?_eq_some_iff.mp hw).1, hw]
    · rcases getElem?_concat_cases hw with hw | rfl
      · exact hw
      · exact absurd rfl hend
  | effect i =>
    obtain ⟨w, hw, hif⟩ := Option.bind_eq_some_iff.mp hs
    obtain ⟨⟨hend, -⟩, hb⟩ := Option.ite_none_right_eq_some.mp hif
    obtain rfl := Option.some.inj hb
    exact hS.effected hw hend
  | completeWrite i err =>
    obtain ⟨heff, hb⟩ := Option.ite_none_right_eq_some.mp hs
    obtain ⟨h', hh, rfl⟩ := Option.map_eq_some_iff.mp hb
    obtain ⟨w, hw, hend, hv, ho, rfl⟩ := (History.step_completeWrite_iff hc).mp hh
    exact hS.completed hw hend hbound heff b.clock hv ho
  | expire key =>
    simp only [Bench.act] at hs
    split at hs
    · next i hreg =>
      obtain ⟨w, hw, hif⟩ := Option.bind_eq_some_iff.mp hs
      obtain ⟨hexp, hb⟩ := Option.ite_none_right_eq_some.mp hif
      obtain rfl := Option.some.inj hb
      exact hS.expired hreg hw hexp
    · cases hs
  | beginRead key startTime =>
    obtain ⟨hle, hb⟩ := Option.ite_none_right_eq_some.mp hs
    obtain ⟨h', hh, rfl⟩ := Option.map_eq_some_iff.mp hb
    have hR := hS.recorded.step hc hh
    obtain rfl := (History.step_beginRead_iff hc).mp hh
    refine hS.extend hR rfl (fun _ _ => id) (fun _ _ hw _ => hw) (by simp) fun i r hr => ?_
    by_cases hi : i < b.history.reads.length
    · rw [List.getElem?_append_left hi] at hr
      exact Or.inl hr
    · rw [List.getElem?_append_right (not_lt.mp hi)] at hr
      obtain rfl : r = _ := List.mem_singleton.mp (List.mem_of_getElem? hr)
      exact Or.inr ⟨not_lt.mp hi, hle⟩
  | get i =>
    obtain ⟨r, hr, hif⟩ := Option.bind_eq_some_iff.mp hs
    obtain ⟨-, hb⟩ := Option.ite_none_right_eq_some.mp hif
    obtain ⟨answer, hl, rfl⟩ := Option.map_eq_some_iff.mp hb
    exact hS.answered hr hl
  | check i =>
    obtain ⟨answer, -, hb⟩ := Option.bind_eq_some_iff.mp hs
    obtain ⟨h', hh, rfl⟩ := Option.map_eq_some_iff.mp hb
    have hR := hS.recorded.step hc hh
    obtain ⟨n, rfl⟩ := History.step_checkReadCorrect hh
    exact hS.extend hR rfl (fun _ _ => id) (fun _ _ hw _ => hw) le_rfl fun i r hr => Or.inl hr

theorem step (hc : flags.checkCorrectness = true) (hS : b.Sound flags) (hbound : b.history.writes.length < 2 ^ 64)
    {e : ℤ × Act} (hs : b.step flags e = some b') : b'.Sound flags := by
  obtain ⟨hlt, hact⟩ := Option.ite_none_right_eq_some.mp hs
  exact (hS.tick hlt.le).act hc hbound hact

theorem fresh (clock : ℤ) : (Bench.fresh clock).Sound flags where
  recorded := History.Recorded.fresh
  author key a p hr := by cases hr
  effect i hi := by cases hi
  success i w hw := by simp [Bench.fresh, History.fresh] at hw
  last key a p op i w hr := by cases hr
  current key a p op hr := by cases hr
  started i r hr := by simp [Bench.fresh, History.fresh] at hr
  unanswered i _ := rfl
  answer i r answer hr := by simp [Bench.fresh, History.fresh] at hr

theorem of_run (hc : flags.checkCorrectness = true) {clock : ℤ} {es : List (ℤ × Act)}
    (hbound : b.history.writes.length < 2 ^ 64) (hrun : run (Bench.step flags) (.fresh clock) es = some b) :
    b.Sound flags := by
  -- there were not more writes at any earlier moment
  refine run_inductive (I := fun b : Bench => b.history.writes.length < 2 ^ 64 → b.Sound flags)
    (fun b e b' hS hs hlt => ?_) (fun _ => fresh clock) hrun hbound
  have hearlier := (length_writes_step hs).trans_lt hlt
  exact step hc (hS hearlier) hearlier hs

end Sound

/-- What is recorded for the value of the last write that took effect, once that is over. -/
theorem Sound.lookup_current {flags : Flags} {b : Bench} (hS : b.Sound flags) {key : String} {a : ℕ} {p : Bool}
    {w : WriteOp} (hreg : b.registers key = some (a, p)) (hw : b.history.writes[a]? = some w) (hend : w.ended ≠ none) :
    ∃ now, (b.history.cc.values key).lookup w.value = some (History.newVal flags w w.err now) := by
  obtain ⟨sv, hsv⟩ := mem_values_iff.mp (hS.current key a p w hreg hw hend)
  obtain ⟨j, x, now, hx, hxk, hxv, -, rfl⟩ := hS.recorded.entry key w.value sv hsv
  obtain ⟨-, y, hy, hyk, -⟩ := hS.author key a p hreg
  obtain rfl := Option.some.inj (hw.symm.trans hy)
  -- no two writes of a key have the same value
  obtain rfl := hS.recorded.inv.distinct j a x w hx hw (hxk.trans hyk.symm) hxv
  obtain rfl := Option.some.inj (hx.symm.trans hw)
  exact ⟨now, hsv⟩

/-- A read that found nothing is accepted. -/
theorem Sound.verdict_notFound {flags : Flags} {b : Bench} (hS : b.Sound flags) {r : ReadOp}
    (hquiet : b.history.Quiet r) (hexp : b.Explains flags r none) {now : ℤ} (hnow : b.clock < now)
    (heff : b.registers r.key ≠ none ∨ ∀ w ∈ b.history.writes, w.key = r.key → w.ended = none) (value : String) :
    b.history.cc.verdict flags r.key value false r.startTime now = none := by
  have hexpired : (((b.history.cc.values r.key).entries.map Sigma.snd).isEmpty ||
      ((b.history.cc.values r.key).entries.map Sigma.snd).any fun val => decide (val.maybeExpiredBy < now)) = true := by
    rw [Bool.or_eq_true, List.isEmpty_iff, List.map_eq_nil_iff, List.any_eq_true]
    rcases heff with heff | hnone
    · -- the value the register held has disappeared
      obtain ⟨⟨a, p⟩, hreg⟩ := Option.ne_none_iff_exists'.mp heff
      obtain ⟨-, w, hw, hkey, hmb⟩ := hS.author r.key a p hreg
      obtain ⟨e, he, -⟩ := hquiet a w hw hkey
      obtain ⟨t, hl⟩ := hS.lookup_current hreg hw (by simp [he])
      exact Or.inr ⟨_, List.mem_map_of_mem (AList.mem_lookup_iff.mp hl),
        decide_eq_true ((hmb (hexp a p hreg)).trans_lt hnow)⟩
    · -- nothing is recorded
      refine Or.inl (List.eq_nil_iff_forall_not_mem.mpr ?_)
      rintro ⟨v, sv⟩ hmem
      obtain ⟨j, w, -, hw, hkey, -, hend, -⟩ := hS.recorded.entry r.key v sv (AList.mem_lookup_iff.mpr hmem)
      exact hend (hnone w (List.mem_of_getElem? hw) hkey)
  simp only [ConsistencyChecker.verdict, if_true, hexpired]

/-- A read that found something is accepted. -/
theorem Sound.verdict_found {flags : Flags} {b : Bench} (hS : b.Sound flags) {r : ReadOp}
    (hquiet : b.history.Quiet r) {v : String} (hexp : b.Explains flags r (some v)) (now : ℤ) :
    b.history.cc.verdict flags r.key v true r.startTime now = none := by
  obtain ⟨a, p, w, hreg, hw, rfl, hdb⟩ := hexp
  obtain ⟨-, x, hx, hkey, -⟩ := hS.author r.key a p hreg
  obtain rfl := Option.some.inj (hw.symm.trans hx)
  obtain ⟨e, he, -⟩ := hquiet a w hw hkey
  obtain ⟨t, hl⟩ := hS.lookup_current hreg hw (by simp [he])
  simp [ConsistencyChecker.verdict, hl, History.newVal, hdb]

/-- **No false alarm**, once some `Set` of the key has taken effect or while none has been
completed. Wherever a run of the checker beside an atomic register arrives, with fewer writes than
its 64-bit counts can tell apart, checking a read that has returned raises no alarm. -/
theorem no_false_alarm {flags : Flags} {b : Bench} (hc : flags.checkCorrectness = true) {clock : ℤ}
    {es : List (ℤ × Act)} (hrun : run (Bench.step flags) (.fresh clock) es = some b)
    (hbound : b.history.writes.length < 2 ^ 64) {i : ℕ} {r : ReadOp} (hr : b.history.reads[i]? = some r) {now : ℤ}
    (hnow : b.clock < now)
    (heff : b.registers r.key ≠ none ∨ ∀ w ∈ b.history.writes, w.key = r.key → w.ended = none) :
    b.verdict flags i now = none := by
  have hS := Sound.of_run hc hbound hrun
  unfold verdict
  rw [hr]
  cases hans : b.answers i with
  | none => rfl
  | some answer =>
    by_cases hquiet : b.history.Quiet r
    · obtain ⟨hver, hpend, hrc⟩ := hS.recorded.inv.checked_of_quiet (List.mem_of_getElem? hr) hquiet
      have hexp := hS.answer i r answer hr hans hquiet
      simp only [ConsistencyChecker.checkReadCorrect, hc, hver, hpend, hrc, Bool.true_eq_false, ne_eq,
        not_true_eq_false, Bool.false_eq_true, or_self, if_false]
      cases answer with
      | none => exact hS.verdict_notFound hquiet hexp hnow heff ""
      | some v => exact hS.verdict_found hquiet hexp now
    · -- a read that a write overlapped is not checked
      have hskip : b.history.cc.version r.key ≠ r.initialVersion ∨ r.writesPending = true ∨
          b.history.cc.rc r.key ≠ 0 := by
        by_contra hnot
        simp only [not_or, ne_eq, not_not] at hnot
        exact hquiet (hS.recorded.inv.quiet_of_checked hbound (List.mem_of_getElem? hr) hnot.1 hnot.2.2)
      simp only [ConsistencyChecker.checkReadCorrect, hc, Bool.true_eq_false, if_false, if_pos hskip]

end Bench

/-- A `Set` that takes effect and returns, and a `Get` that finds the value. -/
def foundActs : List (ℤ × Act) :=
  [(1, .beginWrite "k" "v" 100 101), (2, .effect 0), (3, .completeWrite 0 none), (4, .beginRead "k" 4), (5, .get 0)]

/-- Where these acts arrive. -/
def foundBench : Bench := (run (Bench.step defaultFlags) (.fresh 0) foundActs).get (by decide +kernel)

theorem no_false_alarm_found :
    foundBench.answers 0 = some (some "v") ∧ foundBench.verdict defaultFlags 0 6 = none := by
  have hreads : foundBench.history.reads[0]? = some ⟨"k", 4, 1, false, 2⟩ := by decide +kernel
  exact ⟨by decide +kernel, Bench.no_false_alarm rfl (run_eq_some_get _ _) (by decide +kernel) hreads (by decide +kernel)
    (Or.inl (by decide +kernel))⟩

/-- A `Set` that fails without having taken effect, and a `Get` that finds nothing. -/
def failedActs : List (ℤ × Act) :=
  [(1, .beginWrite "k" "v" 100 101), (2, .completeWrite 0 (some "timeout")), (3, .beginRead "k" 3), (4, .get 0)]

/-- Where these acts arrive. -/
def failedBench : Bench := (run (Bench.step defaultFlags) (.fresh 0) failedActs).get (by decide +kernel)

/-- The read found nothing in a store in which nothing was ever stored, and the checker reports it. -/
theorem false_alarm :
    run (Bench.step defaultFlags) (.fresh 0) failedActs = some failedBench ∧
      failedBench.answers 0 = some none ∧ failedBench.registers "k" = none ∧
      failedBench.verdict defaultFlags 0 5 = some (.noValueFound [⟨"v", 2, 100, 111, some "timeout"⟩]) :=
  ⟨run_eq_some_get _ _, by decide +kernel, by decide +kernel, by decide +kernel⟩

end Cs426.Checker

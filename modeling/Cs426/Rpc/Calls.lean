import Cs426.Rpc.Network

/-!
# Calls over the simulated network

What a `Call` says about the server, over every interleaving of callers, handlers, timeouts
and changes of the network.

## What is proved

* `Request.Fits` — how the goroutines of a call stand to each other.
* `calls_once` — a handler is started at most once for a call; a call returns `true` only
  with the reply its handler has returned, and only if after that there was a moment when the
  end was enabled and the server was still in place.
* `getTotalCount_eq`, `getCount_eq` — the network counts the calls it takes from its channel, a
  server the handlers started on it.
* `call_can_return` — whatever has happened, a call can still return, if its handler does;
  and as long as the handler does not and the server stays in place, it does not return.
-/

namespace Cs426.Rpc

open Cs426.Machine Cs426.Counting

variable {E S V R : Type*}

/-- The server on which the handler has been started. -/
def Handler.begunOn : Handler V R → Option V
  | .idle | .spawned _ => none
  | .running server | .finished server _ | .gone server _ => some server

/-- The handler has returned `reply`. -/
def Handler.HasReturned (h : Handler V R) (reply : R) : Prop :=
  ∃ server, h = .finished server reply ∨ h = .gone server reply

namespace Act

def isBegin : Act R → Bool
  | .begin => true
  | _ => false

end Act

/-- The handler of call `r` is started. -/
def NetLabel.isBegin (r : ℕ) : NetLabel E S V R → Bool
  | .act r' a => r' == r && a.isBegin
  | _ => false

/-! ### The goroutines of a call -/

namespace Request

/-- How the goroutines of a call stand to each other. -/
def Fits (q : Request E S V R) : Prop :=
  match q.proc with
  | .called | .accepted | .chosen _ => q.handler = .idle ∧ q.drain = false
  | .waiting info => q.drain = false ∧ (q.handler = .spawned info.server ∨ q.handler = .running info.server ∨
      ∃ reply, q.handler = .finished info.server reply)
  | .answered info reply => q.handler = .gone info.server reply
  | .deserted _ => q.drain = true
  -- a handler that is left alone is drained
  | .sending none | .returned none => q.handler = .idle ∨ q.drain = true ∨ ∃ server reply, q.handler = .gone server reply
  | .sending (some reply) | .returned (some reply) => ∃ server, q.handler = .gone server reply

/-- The handler's goroutine moves on, before its reply is taken. -/
theorem Fits.of_handler {q : Request E S V R} (hq : q.Fits) {handler : Handler V R} (hidle : q.handler ≠ .idle)
    (hgone : ∀ server reply, q.handler ≠ .gone server reply)
    (hw : ∀ info, q.proc = .waiting info → handler = .running info.server ∨ ∃ reply, handler = .finished info.server reply) :
    ({ q with handler := handler } : Request E S V R).Fits := by
  obtain ⟨e, proc, h, d⟩ := q
  cases proc with
  | called | accepted | chosen => exact absurd hq.1 hidle
  | waiting info => exact ⟨hq.1, .inr (hw info rfl)⟩
  | answered info reply => exact absurd hq (hgone _ _)
  | deserted => exact hq
  | sending reply | returned reply =>
    cases reply with
    | none =>
      rcases hq with hq | hq | ⟨server, reply, hq⟩
      · exact absurd hq hidle
      · exact .inr (.inl hq)
      · exact absurd hq (hgone _ _)
    | some reply =>
      obtain ⟨server, hq⟩ := hq
      exact absurd hq (hgone _ _)

/-- **Every act keeps it.** -/
theorem Fits.acts [DecidableEq V] {rn : Network E S V R} {q q' : Request E S V R} {a : Act R} (hq : q.Fits)
    (h : Acts rn q a q') : q'.Fits := by
  cases h with
  | accept hp | refuse hp | read _ hp | unserved hp | drop _ hp | spawn _ hp | desert _ hp | wait _ hp | fail _ _ hp
  | pass _ _ _ hp => simp_all [Fits]
  | begin server hh =>
    refine hq.of_handler (by simp [hh]) (by simp [hh]) fun info hp => .inl ?_
    simp only [Fits, hp, hh] at hq
    simpa using hq.2
  | finish server reply hh =>
    refine hq.of_handler (by simp [hh]) (by simp [hh]) fun info hp => .inr ⟨reply, ?_⟩
    simp only [Fits, hp, hh] at hq
    simpa using hq.2
  | hand info server reply hp hh =>
    simp only [Fits, hp, hh] at hq ⊢
    simpa using hq.2
  | drain server reply hh hd =>
    obtain ⟨e, proc, h, d⟩ := q
    cases proc with
    | called | accepted | chosen | waiting | answered => simp_all [Fits]
    | deserted => exact hd
    | sending reply | returned reply => cases reply <;> simp_all [Fits]
  | lose info reply lose hp =>
    simp only [Fits, hp] at hq ⊢
    exact .inr (.inr ⟨_, _, hq⟩)
  | deliver reply hp =>
    simp only [Fits, hp] at hq ⊢
    cases reply <;> exact hq

end Request

/-- Only `begin` starts a handler. -/
theorem Request.Fits.begunOn [DecidableEq V] {rn : Network E S V R} {q q' : Request E S V R} {a : Act R}
    (hq : q.Fits) (h : Acts rn q a q') :
    (a = .begin ∧ ∃ server, q.handler = .spawned server ∧ q'.handler = .running server) ∨
      a.isBegin = false ∧ q'.handler.begunOn = q.handler.begunOn := by
  cases h with
  | begin server hh => exact .inl ⟨rfl, server, hh, rfl⟩
  | spawn info hp =>
    simp only [Request.Fits, hp] at hq
    exact .inr ⟨rfl, by rw [hq.1]; rfl⟩
  | finish _ _ hh | hand _ _ _ _ hh | drain _ _ hh => exact .inr ⟨rfl, by rw [hh]; rfl⟩
  | accept | refuse | read | unserved | drop | wait | desert | lose | pass | fail | deliver => exact .inr ⟨rfl, rfl⟩

/-- Only the handler's return makes it have returned. -/
theorem Acts.hasReturned [DecidableEq V] {rn : Network E S V R} {q q' : Request E S V R} {a : Act R}
    (h : Acts rn q a q') {reply : R} (hq' : q'.handler.HasReturned reply) :
    q.handler.HasReturned reply ∨ a = .finish reply := by
  obtain ⟨server, hq'⟩ := hq'
  cases h with
  | spawn | begin => simp at hq'
  | finish server' reply' hh =>
    right
    simp only [Handler.finished.injEq, reduceCtorEq, or_false] at hq'
    rw [hq'.2]
  | hand info server' reply' hp hh | drain server' reply' hh =>
    simp only [reduceCtorEq, false_or, Handler.gone.injEq] at hq'
    exact .inl ⟨server', .inl (hq'.2 ▸ hh)⟩
  | accept | refuse | read | unserved | drop | wait | desert | lose | pass | fail | deliver =>
    exact .inl ⟨server, hq'⟩

/-- What a call is going to say, or has said: `true`, with `reply`. -/
def Proc.Says (p : Proc S V R) (reply : R) : Prop := p = .sending (some reply) ∨ p = .returned (some reply)

/-- Only the last look at the server, with the end enabled and the server in place, makes a
call say `true`. -/
theorem Acts.says [DecidableEq V] {rn : Network E S V R} {q q' : Request E S V R} {a : Act R} (h : Acts rn q a q')
    {reply : R} (hq' : q'.proc.Says reply) :
    q.proc.Says reply ∨ ∃ lose info, a = .check lose ∧ q.proc = .answered info reply ∧
      rn.board.enabled q.endname = true ∧ rn.board.servers info.servername = some info.server := by
  cases h with
  | accept | refuse | read | unserved | drop | spawn | hand | desert | lose | fail => simp [Proc.Says] at hq'
  | begin | finish | wait | drain => exact .inl hq'
  | pass info reply' lose hp halive =>
    simp only [Proc.Says, Proc.sending.injEq, Option.some.injEq, reduceCtorEq, or_false] at hq'
    exact .inr ⟨lose, info, rfl, hq' ▸ hp, Board.isServerDead_eq_false_iff.mp halive⟩
  | deliver reply' hp =>
    simp only [Proc.Says, reduceCtorEq, Proc.returned.injEq, false_or] at hq'
    exact .inl (.inl (hq' ▸ hp))

/-- A reply that was taken stays taken. -/
theorem Request.Fits.gone [DecidableEq V] {rn : Network E S V R} {q q' : Request E S V R} {a : Act R} (hq : q.Fits)
    (h : Acts rn q a q') {server : V} {reply : R} (hh : q.handler = .gone server reply) :
    q'.handler = .gone server reply := by
  cases h with
  | spawn info hp =>
    simp only [Request.Fits, hp, hh] at hq
    exact absurd hq.1 nofun
  | begin _ hh' | finish _ _ hh' | hand _ _ _ _ hh' | drain _ _ hh' =>
    rw [hh'] at hh
    cases hh
  | accept | refuse | read | unserved | drop | wait | desert | lose | pass | fail | deliver => exact hh

/-- A handler that has returned only has its reply taken. -/
theorem Request.Fits.returned [DecidableEq V] {rn : Network E S V R} {q q' : Request E S V R} {a : Act R}
    (hq : q.Fits) (h : Acts rn q a q') {server : V} {reply : R}
    (hh : q.handler = .finished server reply ∨ q.handler = .gone server reply) :
    q'.handler = .finished server reply ∨ q'.handler = .gone server reply := by
  rcases hh with hh | hh
  · cases h with
    | spawn info hp =>
      simp only [Request.Fits, hp, hh] at hq
      exact absurd hq.1 nofun
    | begin _ hh' | finish _ _ hh' => exact absurd (hh'.symm.trans hh) nofun
    | hand _ _ _ _ hh' | drain _ _ hh' =>
      have := hh'.symm.trans hh
      simp only [Handler.finished.injEq] at this
      obtain ⟨rfl, rfl⟩ := this
      exact .inr rfl
    | accept | refuse | read | unserved | drop | wait | desert | lose | pass | fail | deliver => exact .inl hh
  · exact .inr (hq.gone h hh)

/-- What `processReq` has read of the end and the server. -/
def Proc.info? : Proc S V R → Option (Info S V)
  | .chosen info | .waiting info | .answered info _ | .deserted info => some info
  | .called | .accepted | .sending _ | .returned _ => none

/-- Only looking up the end gives a call a server. -/
theorem Acts.info? [DecidableEq V] {rn : Network E S V R} {q q' : Request E S V R} {a : Act R}
    (h : Acts rn q a q') {info : Info S V} (hq' : q'.proc.info? = some info) :
    q.proc.info? = some info ∨ rn.board.servers info.servername = some info.server := by
  cases h with
  | read info' hp hread =>
    obtain rfl : info' = info := Option.some.inj hq'
    simp only [Board.readEndnameInfo, Prod.mk.injEq] at hread
    obtain ⟨-, hconn, hserver, -⟩ := hread
    right
    rwa [hconn, Option.bind_some] at hserver
  | accept | refuse | unserved | drop | lose | pass | fail | deliver => cases hq'
  | spawn _ hp | hand _ _ _ hp | desert _ hp => exact .inl (by rw [hp]; exact hq')
  | begin | finish | wait | drain => exact .inl hq'

/-- The server on which the handler is to run, or has run. -/
def Handler.server? : Handler V R → Option V
  | .idle => none
  | .spawned server | .running server | .finished server _ | .gone server _ => some server

/-- A handler runs on the server the call has found. -/
theorem Acts.server? [DecidableEq V] {rn : Network E S V R} {q q' : Request E S V R} {a : Act R}
    (h : Acts rn q a q') {server : V} (hq' : q'.handler.server? = some server) :
    q.handler.server? = some server ∨ ∃ info, q.proc.info? = some info ∧ info.server = server := by
  cases h with
  | spawn info hp => exact .inr ⟨info, by rw [hp]; rfl, Option.some.inj hq'⟩
  | begin _ hh | finish _ _ hh | hand _ _ _ _ hh | drain _ _ hh => exact .inl (by rw [hh]; exact hq')
  | accept | refuse | read | unserved | drop | wait | desert | lose | pass | fail | deliver => exact .inl hq'

theorem Acts.endname [DecidableEq V] {rn : Network E S V R} {q q' : Request E S V R} {a : Act R}
    (h : Acts rn q a q') : q'.endname = q.endname := by
  cases h <;> rfl

/-! ### Calls over whole runs -/

section Runs

variable [DecidableEq E] [DecidableEq S] [DecidableEq V] {rn rn' : Network E S V R} {l : NetLabel E S V R}
  {ls : List (NetLabel E S V R)} {r : ℕ} {q : Request E S V R}

/-- Every call fits. -/
def Network.Fit (rn : Network E S V R) : Prop := ∀ (r : ℕ) (q : Request E S V R), rn.requests[r]? = some q → q.Fits

theorem Network.Fit.step (h : rn.Fit) (hs : rn.step l = some rn') : rn'.Fit := by
  intro r q hq
  rcases Network.request_cases hs hq with hq | ⟨e, rfl⟩ | ⟨a, q₀, -, hq₀, hacts⟩
  · exact h r q hq
  · exact ⟨rfl, rfl⟩
  · exact (h r q₀ hq₀).acts hacts

omit [DecidableEq E] [DecidableEq S] [DecidableEq V] in
theorem fit_makeNetwork : (makeNetwork : Network E S V R).Fit := by
  intro r q hq
  simp [makeNetwork] at hq

theorem Network.Fit.of_run (h : run Network.step makeNetwork ls = some rn) : rn.Fit :=
  run_inductive (I := Network.Fit) (fun _ _ _ hI hs => hI.step hs) fit_makeNetwork h

/-- Whether the handler of call `r` has been started, as a number. -/
def begun (rn : Network E S V R) (r : ℕ) : ℕ := (rn.requests[r]?.bind fun q => q.handler.begunOn).isSome.toNat

theorem begun_step (h : rn.Fit) (hs : rn.step l = some rn') :
    begun rn' r = begun rn r + (l.isBegin r).toNat := by
  rcases Network.step_cases hs with ⟨-, -, hl, hreq⟩ | ⟨r', a, q₀, q', rfl, hq₀, hacts, rfl⟩
  · have hb : l.isBegin r = false := by
      cases l with
      | act r' a => exact absurd rfl (hl r' a)
      | _ => rfl
    rw [hb, Bool.toNat_false, Nat.add_zero]
    rcases hreq with hreq | ⟨e, hreq⟩ <;> unfold begun <;> rw [hreq]
    by_cases hlt : r < rn.requests.length
    · rw [List.getElem?_append_left hlt]
    · rw [List.getElem?_eq_none (not_lt.mp hlt)]
      cases hq : (rn.requests ++ [(⟨e, .called, .idle, false⟩ : Request E S V R)])[r]? with
      | none => rfl
      | some q =>
        rw [List.getElem?_append_right (not_lt.mp hlt)] at hq
        rw [List.mem_singleton.mp (List.mem_of_getElem? hq)]
        rfl
  · by_cases hr : r' = r
    · subst hr
      have hlt := (List.getElem?_eq_some_iff.mp hq₀).1
      simp only [begun, List.getElem?_set_self hlt, hq₀, Option.bind_some, NetLabel.isBegin, beq_self_eq_true,
        Bool.true_and]
      rcases (h r' q₀ hq₀).begunOn hacts with ⟨rfl, server, hh, hh'⟩ | ⟨ha, hh⟩
      · rw [hh, hh']
        rfl
      · rw [hh, ha]
        rfl
    · simp [begun, List.getElem?_set_ne hr, NetLabel.isBegin, hr]

/-- A handler is started as often as `begun` says. -/
theorem countP_isBegin (h : run Network.step makeNetwork ls = some rn) : ls.countP (NetLabel.isBegin r) = begun rn r := by
  have := run_countP (f := fun rn : Network E S V R => begun rn r) (p := NetLabel.isBegin r)
    (fun _ _ _ hI hs => Network.Fit.step hI hs) (fun _ _ _ hI hs => begun_step hI hs) fit_makeNetwork h
  simpa [begun, makeNetwork] using this.symm

/-- A reply that was taken stays taken, over a whole run. -/
theorem gone_run {server : V} {reply : R} (hf : rn.Fit) (hq : rn.requests[r]? = some q)
    (hh : q.handler = .gone server reply) (h : run Network.step rn ls = some rn') :
    ∃ q', rn'.requests[r]? = some q' ∧ q'.endname = q.endname ∧ q'.handler = .gone server reply := by
  refine (run_inductive (I := fun rn : Network E S V R => rn.Fit ∧ ∃ q', rn.requests[r]? = some q' ∧
    q'.endname = q.endname ∧ q'.handler = .gone server reply) (fun rn l rn' hI hs => ?_) ⟨hf, q, hq, rfl, hh⟩ h).2
  obtain ⟨hf, q₁, hq₁, he, hh⟩ := hI
  obtain ⟨q₂, hq₂, rfl | ⟨a, -, hacts⟩⟩ := Network.request_step hs hq₁
  · exact ⟨hf.step hs, q₂, hq₂, he, hh⟩
  · exact ⟨hf.step hs, q₂, hq₂, hacts.endname.trans he, (hf r q₁ hq₁).gone hacts hh⟩

/-- A handler that has returned has done so in some step. -/
theorem finish_mem {reply : R} (h : run Network.step makeNetwork ls = some rn) (hq : rn.requests[r]? = some q)
    (hh : q.handler.HasReturned reply) : NetLabel.act r (.finish reply) ∈ ls := by
  obtain ⟨ls₁, l, ls₂, u, u', rfl, -, hs, -, hnot, q', hq', hh'⟩ :=
    exists_step_of_run (Q := fun rn : Network E S V R => ∃ q, rn.requests[r]? = some q ∧ q.handler.HasReturned reply)
      (by simp [makeNetwork]) h ⟨q, hq, hh⟩
  refine List.mem_append_right _ (List.mem_cons.mpr (.inl ?_))
  rcases Network.request_cases hs hq' with hq' | ⟨e, rfl⟩ | ⟨a, q₀, rfl, hq₀, hacts⟩
  · exact absurd ⟨q', hq', hh'⟩ hnot
  · obtain ⟨server, hh' | hh'⟩ := hh' <;> cases hh'
  · rcases hacts.hasReturned hh' with hh₀ | rfl
    · exact absurd ⟨q₀, hq₀, hh₀⟩ hnot
    · rfl

/-- **At most once, and `true` only from a server in place.** Over every interleaving of calls,
handlers and changes of the network, the handler of a call is started at most once. If the
call has returned `true` with `reply`, then there was a last look at the server before which
the handler had been started exactly once and had returned `reply`, and at which the end was
enabled and the server that ran the handler was in place. -/
theorem calls_once (h : run Network.step makeNetwork ls = some rn) (hq : rn.requests[r]? = some q) :
    ls.countP (NetLabel.isBegin r) ≤ 1 ∧ ∀ reply, q.proc = .returned (some reply) →
      ∃ ls₁ lose ls₂ rn₁ servername server, ls = ls₁ ++ .act r (.check lose) :: ls₂ ∧
        run Network.step makeNetwork ls₁ = some rn₁ ∧ ls₁.countP (NetLabel.isBegin r) = 1 ∧
        NetLabel.act r (.finish reply) ∈ ls₁ ∧ q.handler = .gone server reply ∧
        rn₁.board.enabled q.endname = true ∧ rn₁.board.servers servername = some server := by
  refine ⟨?_, fun reply hret => ?_⟩
  · rw [countP_isBegin h]
    exact Bool.toNat_le _
  · -- the step in which the call came to say `true`
    obtain ⟨ls₁, l, ls₂, u, u', rfl, hu, hs, hu', hnot, q', hq', hsays⟩ :=
      exists_step_of_run (Q := fun rn : Network E S V R => ∃ q, rn.requests[r]? = some q ∧ q.proc.Says reply)
        (by simp [makeNetwork]) h ⟨q, hq, .inr hret⟩
    rcases Network.request_cases hs hq' with hq' | ⟨e, rfl⟩ | ⟨a, q₀, rfl, hq₀, hacts⟩
    · exact absurd ⟨q', hq', hsays⟩ hnot
    · rcases hsays with hsays | hsays <;> cases hsays
    · rcases hacts.says hsays with hsays | ⟨lose, info, rfl, hp, hen, hserver⟩
      · exact absurd ⟨q₀, hq₀, hsays⟩ hnot
      · have hfit := Network.Fit.of_run hu
        have hh : q₀.handler = .gone info.server reply := by simpa [Request.Fits, hp] using hfit r q₀ hq₀
        have hrest : run Network.step u (.act r (.check lose) :: ls₂) = some rn := (run_cons_iff _).mpr ⟨u', hs, hu'⟩
        obtain ⟨q₁, hq₁, he, hh₁⟩ := gone_run hfit hq₀ hh hrest
        obtain rfl : q₁ = q := Option.some.inj (hq₁.symm.trans hq)
        refine ⟨ls₁, lose, ls₂, u, info.servername, info.server, rfl, hu, ?_, finish_mem hu hq₀ ⟨_, .inr hh⟩, hh₁,
          he ▸ hen, hserver⟩
        rw [countP_isBegin hu, begun, hq₀, Option.bind_some, hh]
        rfl

/-- One end, connected to one server; a call and its handler take their course. -/
def oneCall : List (NetLabel ℕ ℕ ℕ ℕ) :=
  [.makeEnd 0, .connect 0 1, .addServer 1 5, .enable 0 true, .call 0, .act 0 .accept, .act 0 .read, .act 0 .spawn,
   .act 0 .begin, .act 0 (.finish 7), .act 0 .hand, .act 0 (.check false), .act 0 .deliver]

theorem calls_once_oneCall :
    ∃ rn q, run Network.step makeNetwork oneCall = some rn ∧ rn.requests[0]? = some q ∧
      oneCall.countP (NetLabel.isBegin 0) ≤ 1 ∧ NetLabel.act 0 (.finish 7) ∈ oneCall ∧ ∃ server, q.handler = .gone server 7 := by
  have hr : run Network.step makeNetwork oneCall = some _ := run_eq_some_get _ (by decide)
  have hq : ((run Network.step makeNetwork oneCall).get (by decide)).requests[0]? =
    some ⟨0, .returned (some 7), .gone 5 7, false⟩ := by decide
  obtain ⟨ls₁, lose, ls₂, -, -, server, hls, -, -, hmem, hh, -⟩ := (calls_once hr hq).2 7 rfl
  exact ⟨_, _, hr, hq, (calls_once hr hq).1, hls ▸ List.mem_append_left _ hmem, server, hh⟩

/-! ### What is counted -/

/-- The network's goroutine takes a call from the channel. -/
def NetLabel.isAccept : NetLabel E S V R → Bool
  | .act _ .accept => true
  | _ => false

/-- The network's count is the number of calls taken from the channel, as an `int32`. -/
theorem count_eq (h : run Network.step makeNetwork ls = some rn) :
    rn.count = Int32.ofNat (ls.countP NetLabel.isAccept) := by
  refine run_history (I := fun done rn => rn.count = Int32.ofNat (done.countP NetLabel.isAccept))
    (fun done rn l rn' _ hI hs => ?_) rfl h
  rw [List.countP_append, List.countP_singleton, Int32.ofNat_add, ← hI]
  rcases Network.step_cases hs with ⟨hsame, -, hl, -⟩ | ⟨r, a, q, q', rfl, -, -, rfl⟩
  · cases l with
    | act r a => exact absurd rfl (hl r a)
    | _ => exact hsame.trans (Int32.add_zero _).symm
  · cases a with
    | accept => rfl
    | _ => exact (Int32.add_zero _).symm

/-- **`GetTotalCount` is the number of calls taken from the channel**, if these are few enough for
an `int32`. Calls refused after `Cleanup` are not in it. -/
theorem getTotalCount_eq (h : run Network.step makeNetwork ls = some rn)
    (hbound : ls.countP NetLabel.isAccept < 2 ^ 31) :
    rn.getTotalCount = Int64.ofNat (ls.countP NetLabel.isAccept) := by
  have hmax : Int32.maxValue.toInt = 2 ^ 31 - 1 := rfl
  rw [Network.getTotalCount, count_eq h, Int32.toInt64_ofNat' (by omega)]

/-- A server's count is the number of handlers started on it, as an `int`. -/
theorem served_eq (h : run Network.step makeNetwork ls = some rn) (v : V) :
    rn.served v = Int64.ofNat (rn.requests.countP fun q => decide (q.handler.begunOn = some v)) := by
  refine (run_inductive (I := fun rn : Network E S V R => rn.Fit ∧
    rn.served v = Int64.ofNat (rn.requests.countP fun q => decide (q.handler.begunOn = some v)))
    (fun rn l rn' hI hs => ?_) ⟨fit_makeNetwork, rfl⟩ h).2
  obtain ⟨hf, hserved⟩ := hI
  refine ⟨hf.step hs, ?_⟩
  rcases Network.step_cases hs with ⟨-, hsame, -, hreq | ⟨e, hreq⟩⟩ | ⟨r, a, q, q', rfl, hq, hacts, rfl⟩
  · rw [hsame, hreq, hserved]
  · rw [hsame, hreq, hserved, List.countP_append]
    simp [Handler.begunOn]
  · have hcount := countP_set_add (fun q : Request E S V R => decide (q.handler.begunOn = some v)) hq q'
    rcases (hf r q hq).begunOn hacts with ⟨rfl, server, hh, hh'⟩ | ⟨ha, hh⟩
    · have hb : q.handler.begunOn = none := by rw [hh]; rfl
      have hb' : q'.handler.begunOn = some server := by rw [hh']; rfl
      simp only [hb, hb', reduceCtorEq, decide_false, Bool.toNat_false, Nat.add_zero, Option.some.injEq] at hcount
      have hnew : (rn.counted q .begin).served = Function.update rn.served server (rn.served server + 1) := by
        simp only [Network.counted, hh]
      simp only [hcount, hnew]
      by_cases hv : v = server
      · subst hv
        simp [hserved, Int64.ofNat_add]
      · rw [Function.update_of_ne hv, hserved, decide_eq_false (Ne.symm hv)]
        rfl
    · have hsame : (rn.counted q a).served = rn.served := by
        cases a with
        | begin => cases ha
        | _ => rfl
      simp only [hh] at hcount
      simp only [hsame, hserved]
      rw [Nat.add_right_cancel hcount]

/-- **`GetCount` is the number of handlers started on the server** that has the name now: those
started on an earlier server of this name are not in it. -/
theorem getCount_eq (h : run Network.step makeNetwork ls = some rn) {servername : S} {v : V}
    (hserver : rn.board.servers servername = some v) :
    rn.getCount servername = some (Int64.ofNat (rn.requests.countP fun q => decide (q.handler.begunOn = some v))) := by
  rw [Network.getCount, hserver, Option.map_some, served_eq h]

/-! ### That calls return -/

/-- Acts of call `r` alone can bring it to its end. -/
def CanReturn (rn : Network E S V R) (r : ℕ) : Prop :=
  ∃ ls rn' q reply, (∀ l ∈ ls, ∃ a, l = .act r a) ∧ run Network.step rn ls = some rn' ∧
    rn'.requests[r]? = some q ∧ q.proc = .returned reply

namespace CanReturn

theorem of_acts {q' : Request E S V R} {a : Act R} (hq : rn.requests[r]? = some q) (hacts : Acts rn q a q')
    (h : ∀ rn', rn'.requests[r]? = some q' → CanReturn rn' r) : CanReturn rn r := by
  obtain ⟨u, hs, hq'⟩ := Network.step_of_acts hq hacts
  obtain ⟨ls, rn', q'', reply, hls, hrun, hq'', hret⟩ := h u hq'
  refine ⟨.act r a :: ls, rn', q'', reply, ?_, (run_cons_iff _).mpr ⟨u, hs, hrun⟩, hq'', hret⟩
  intro l hl
  rcases List.mem_cons.mp hl with rfl | hl
  · exact ⟨a, rfl⟩
  · exact hls l hl

theorem of_returned {reply : Option R} (hq : rn.requests[r]? = some q) (hp : q.proc = .returned reply) : CanReturn rn r :=
  ⟨[], rn, q, reply, nofun, rfl, hq, hp⟩

theorem of_sending {reply : Option R} (hq : rn.requests[r]? = some q) (hp : q.proc = .sending reply) : CanReturn rn r :=
  of_acts hq (.deliver reply hp) fun _ hq' => of_returned hq' rfl

theorem of_answered {info : Info S V} {reply : R} (hq : rn.requests[r]? = some q)
    (hp : q.proc = .answered info reply) : CanReturn rn r := by
  cases hdead : rn.board.isServerDead q.endname info.servername info.server with
  | true => exact of_acts hq (.lose info reply false hp (.inl hdead)) fun _ hq' => of_sending hq' rfl
  | false => exact of_acts hq (.pass info reply false hp hdead (.inr rfl)) fun _ hq' => of_sending hq' rfl

theorem of_deserted {info : Info S V} (hq : rn.requests[r]? = some q) (hp : q.proc = .deserted info) : CanReturn rn r :=
  of_acts hq (.fail info false hp) fun _ hq' => of_sending hq' rfl

theorem of_finished {info : Info S V} {server : V} {reply : R} (hq : rn.requests[r]? = some q)
    (hp : q.proc = .waiting info) (hh : q.handler = .finished server reply) : CanReturn rn r :=
  of_acts hq (.hand info server reply hp hh) fun _ hq' => of_answered hq' rfl

/-- The handler returns `rep`. -/
theorem of_running {info : Info S V} {server : V} (rep : R) (hq : rn.requests[r]? = some q)
    (hp : q.proc = .waiting info) (hh : q.handler = .running server) : CanReturn rn r :=
  of_acts hq (.finish server rep hh) fun _ hq' => of_finished hq' hp rfl

theorem of_spawned {info : Info S V} {server : V} (rep : R) (hq : rn.requests[r]? = some q)
    (hp : q.proc = .waiting info) (hh : q.handler = .spawned server) : CanReturn rn r :=
  of_acts hq (.begin server hh) fun _ hq' => of_running rep hq' hp rfl

theorem of_chosen {info : Info S V} (rep : R) (hq : rn.requests[r]? = some q) (hp : q.proc = .chosen info) :
    CanReturn rn r :=
  of_acts hq (.spawn info hp) fun _ hq' => of_spawned rep hq' rfl rfl

theorem of_accepted (rep : R) (hq : rn.requests[r]? = some q) (hp : q.proc = .accepted) : CanReturn rn r := by
  by_cases hread : ∃ servername server reliable,
      rn.board.readEndnameInfo q.endname = (true, some servername, some server, reliable)
  · obtain ⟨servername, server, reliable, hread⟩ := hread
    exact of_acts hq (.read ⟨servername, server, reliable⟩ hp hread) fun _ hq' => of_chosen rep hq' rfl
  · push Not at hread
    exact of_acts hq (.unserved hp hread) fun _ hq' => of_sending hq' rfl

end CanReturn

/-- The goroutine of `MakeNetwork` runs until the network is closed. -/
theorem loop_or_done (h : run Network.step makeNetwork ls = some rn) : rn.loop = true ∨ rn.done = true := by
  refine run_inductive (I := fun rn : Network E S V R => rn.loop = true ∨ rn.done = true)
    (fun rn l rn' hI hs => ?_) (.inl rfl) h
  cases l with
  | call e | stop =>
    simp only [Network.step, Option.ite_none_right_eq_some] at hs
    obtain ⟨hc, ⟨⟩⟩ := hs
    first
      | exact hI
      | exact .inr (by simpa using And.left (by simpa using hc))
  | cleanup =>
    simp only [Network.step, Option.ite_none_left_eq_some] at hs
    obtain ⟨-, ⟨⟩⟩ := hs
    exact .inr rfl
  | act r a =>
    obtain ⟨q, q', -, -, rfl⟩ := Network.step_act_iff.mp hs
    exact hI
  | makeEnd e =>
    obtain ⟨b, -, rfl⟩ := Option.map_eq_some_iff.mp hs
    exact hI
  | connect | enable | addServer | deleteServer | reliable =>
    cases hs
    exact hI

/-- While the handler has not returned and the server is in place, the call waits. -/
theorem waiting_run {info : Info S V} (hq : rn.requests[r]? = some q) (hp : q.proc = .waiting info)
    (hh : ∀ reply, ¬ q.handler.HasReturned reply)
    (hal : Along Network.step (fun rn l => (∀ reply, l ≠ .act r (.finish reply)) ∧
      rn.board.isServerDead q.endname info.servername info.server = false) rn ls)
    (h : run Network.step rn ls = some rn') : ∃ q', rn'.requests[r]? = some q' ∧ q'.proc = .waiting info := by
  have hI := run_invariant (I := fun rn : Network E S V R => ∃ q', rn.requests[r]? = some q' ∧ q'.proc = .waiting info ∧
    q'.endname = q.endname ∧ ∀ reply, ¬ q'.handler.HasReturned reply) (fun rn l rn' hI hl hs => ?_) hal
    ⟨q, hq, hp, rfl, hh⟩ h
  · obtain ⟨q', hq', hp', -⟩ := hI
    exact ⟨q', hq', hp'⟩
  · obtain ⟨q₁, hq₁, hp₁, he, hh₁⟩ := hI
    obtain ⟨q₂, hq₂, rfl | ⟨a, rfl, hacts⟩⟩ := Network.request_step hs hq₁
    · exact ⟨q₂, hq₂, hp₁, he, hh₁⟩
    · refine ⟨q₂, hq₂, ?_, hacts.endname.trans he, fun reply hret => ?_⟩
      · cases hacts with
        | accept hp | refuse hp | read _ hp | unserved hp | drop _ hp | spawn _ hp | lose _ _ _ hp | pass _ _ _ hp
        | fail _ _ hp | deliver _ hp =>
          rw [hp] at hp₁
          cases hp₁
        | begin | finish | wait | drain => exact hp₁
        | hand _ server reply _ hh' => exact absurd ⟨server, .inl hh'⟩ (hh₁ reply)
        | desert info' hp hdead =>
          rw [hp] at hp₁
          cases hp₁
          rw [he, hl.2] at hdead
          cases hdead
      · rcases hacts.hasReturned hret with hret | rfl
        · exact hh₁ reply hret
        · exact hl.1 reply rfl

/-- Once the server is gone, a waiting call can return without its handler. -/
theorem returns_of_dead {info : Info S V} (hq : rn.requests[r]? = some q) (hp : q.proc = .waiting info)
    (hdead : rn.board.isServerDead q.endname info.servername info.server = true) :
    ∃ rn' q', run Network.step rn [.act r .poll, .act r (.check false), .act r .deliver] = some rn' ∧
      rn'.requests[r]? = some q' ∧ q'.proc = .returned none := by
  obtain ⟨rn₁, h₁, hq₁⟩ := Network.step_of_acts hq (.desert info hp hdead)
  obtain ⟨rn₂, h₂, hq₂⟩ := Network.step_of_acts hq₁ (.fail info false rfl)
  obtain ⟨rn₃, h₃, hq₃⟩ := Network.step_of_acts hq₂ (.deliver none rfl)
  refine ⟨rn₃, _, ?_, hq₃, rfl⟩
  rw [run_cons_iff]
  refine ⟨rn₁, h₁, (run_cons_iff _).mpr ⟨rn₂, h₂, (run_cons_iff _).mpr ⟨rn₃, h₃, rfl⟩⟩⟩

/-- **Calls return, if their handlers do.** Whatever has happened, acts of a call alone, the
return of its handler among them, can bring it to its end. A call that waits for its handler
can do without it as soon as the end is disabled or the server is gone, and as long as
neither is so and the handler does not return, it waits. -/
theorem call_can_return [Inhabited R] (h : run Network.step makeNetwork ls = some rn)
    (hq : rn.requests[r]? = some q) :
    CanReturn rn r ∧ ∀ info, q.proc = .waiting info →
      (rn.board.isServerDead q.endname info.servername info.server = true →
        ∃ rn' q', run Network.step rn [.act r .poll, .act r (.check false), .act r .deliver] = some rn' ∧
          rn'.requests[r]? = some q' ∧ q'.proc = .returned none) ∧
      ((∀ reply, ¬ q.handler.HasReturned reply) → ∀ ls' rn',
        Along Network.step (fun rn l => (∀ reply, l ≠ .act r (.finish reply)) ∧
          rn.board.isServerDead q.endname info.servername info.server = false) rn ls' →
        run Network.step rn ls' = some rn' → ∃ q', rn'.requests[r]? = some q' ∧ q'.proc = .waiting info) := by
  have hfits := Network.Fit.of_run h r q hq
  refine ⟨?_, fun info hp => ⟨returns_of_dead hq hp, fun hh ls' rn' hal hrun => waiting_run hq hp hh hal hrun⟩⟩
  cases hp : q.proc with
  | called =>
    rcases loop_or_done h with hl | hd
    · exact .of_acts hq (.accept hp hl) fun _ hq' => .of_accepted default hq' rfl
    · exact .of_acts hq (.refuse hp hd) fun _ hq' => .of_returned hq' rfl
  | accepted => exact .of_accepted default hq hp
  | chosen info => exact .of_chosen default hq hp
  | waiting info =>
    simp only [Request.Fits, hp] at hfits
    rcases hfits.2 with hh | hh | ⟨reply, hh⟩
    · exact .of_spawned default hq hp hh
    · exact .of_running default hq hp hh
    · exact .of_finished hq hp hh
  | answered info reply => exact .of_answered hq hp
  | deserted info => exact .of_deserted hq hp
  | sending reply => exact .of_sending hq hp
  | returned reply => exact .of_returned hq hp

theorem call_can_return_oneCall :
    ∃ rn : Network ℕ ℕ ℕ ℕ, run Network.step makeNetwork (oneCall.take 9) = some rn ∧ CanReturn rn 0 := by
  have hr : run Network.step makeNetwork (oneCall.take 9) = some _ := run_eq_some_get _ (by decide)
  have hq : ((run Network.step makeNetwork (oneCall.take 9)).get (by decide)).requests[0]? =
    some ⟨0, .waiting ⟨1, 5, true⟩, .running 5, false⟩ := by decide
  exact ⟨_, hr, (call_can_return hr hq).1⟩

end Runs

end Cs426.Rpc

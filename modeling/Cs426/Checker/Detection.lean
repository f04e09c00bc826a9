import Cs426.Checker.Overlap

/-!
# What the checker detects

For each key the checker keeps the values a read may return and, apart from them, those that
have been overwritten for certain. Along every history the two are disjoint and together are
the values of the completed writes (`Recorded`), and once a successful write that overlapped
no other has been completed, the values of all writes before it are gone for good. So a read
that overlaps no write and returns such a value is reported (`checker_detects`).
-/

namespace Cs426.Checker

open Cs426.Machine Cs426.Counting

/-! ### Recording a write -/

section Record

variable {cc : ConsistencyChecker} {key : String} {nv : StateValue} {iv : Int64}

/-- The test that a write replaces all values of its key. -/
def ConsistencyChecker.Replaces (cc : ConsistencyChecker) (key : String) (nv : StateValue) (iv : Int64) : Prop :=
  nv.err = none ∧ iv = cc.version key ∧ cc.rc key = 1

theorem record_of_replaces (hr : cc.Replaces key nv iv) :
    (cc.record key nv iv).values = Function.update cc.values key (AList.singleton nv.value nv) ∧
      (cc.record key nv iv).overwrittenValues = Function.update cc.overwrittenValues key
        (overwriteAll (cc.values key) (cc.overwrittenValues key)) := by
  unfold ConsistencyChecker.Replaces at hr
  simp only [ConsistencyChecker.record, if_pos hr, and_self]

theorem record_of_not_replaces (hr : ¬ cc.Replaces key nv iv) :
    (cc.record key nv iv).values = Function.update cc.values key ((cc.values key).insert nv.value nv) ∧
      (cc.record key nv iv).overwrittenValues = cc.overwrittenValues := by
  unfold ConsistencyChecker.Replaces at hr
  simp only [ConsistencyChecker.record, if_neg hr, and_self]

theorem lookup_singleton {v v' : String} {sv sv' : StateValue} :
    (AList.singleton v sv : Values).lookup v' = some sv' ↔ v' = v ∧ sv' = sv := by
  have hl : (AList.singleton v sv : Values).lookup v' = some sv' ↔
      (⟨v', sv'⟩ : Sigma fun _ : String => StateValue) ∈ (AList.singleton v sv : Values).entries :=
    AList.mem_lookup_iff
  rw [hl]
  simp

theorem mem_values_iff {values : Values} {v : String} : v ∈ values ↔ ∃ sv, values.lookup v = some sv := by
  rw [← AList.lookup_isSome, Option.isSome_iff_exists]

/-- A value recorded afterwards is the new one or was recorded before. -/
theorem lookup_record {k v : String} {sv : StateValue}
    (hl : ((cc.record key nv iv).values k).lookup v = some sv) :
    (k = key ∧ v = nv.value ∧ sv = nv) ∨ (cc.values k).lookup v = some sv := by
  by_cases hk : k = key
  · subst hk
    by_cases hr : cc.Replaces k nv iv
    · rw [(record_of_replaces hr).1, Function.update_self, lookup_singleton] at hl
      exact Or.inl ⟨rfl, hl⟩
    · rw [(record_of_not_replaces hr).1, Function.update_self] at hl
      by_cases hv : v = nv.value
      · subst hv
        rw [AList.lookup_insert, Option.some.injEq] at hl
        exact Or.inl ⟨rfl, rfl, hl.symm⟩
      · rw [AList.lookup_insert_ne hv] at hl
        exact Or.inr hl
  · by_cases hr : cc.Replaces key nv iv
    · rw [(record_of_replaces hr).1, Function.update_of_ne hk] at hl
      exact Or.inr hl
    · rw [(record_of_not_replaces hr).1, Function.update_of_ne hk] at hl
      exact Or.inr hl

/-- The new value may be returned. -/
theorem lookup_record_self : ((cc.record key nv iv).values key).lookup nv.value = some nv := by
  by_cases hr : cc.Replaces key nv iv
  · rw [(record_of_replaces hr).1, Function.update_self, lookup_singleton]
    exact ⟨rfl, rfl⟩
  · rw [(record_of_not_replaces hr).1, Function.update_self, AList.lookup_insert]

/-- A value that may be returned stays one, unless all values of its key are replaced. -/
theorem mem_values_record {k v : String} (hmem : v ∈ cc.values k) (hkeep : cc.Replaces key nv iv → k ≠ key) :
    v ∈ (cc.record key nv iv).values k := by
  by_cases hr : cc.Replaces key nv iv
  · rw [(record_of_replaces hr).1, Function.update_of_ne (hkeep hr)]
    exact hmem
  · rw [(record_of_not_replaces hr).1]
    by_cases hk : k = key
    · subst hk
      rw [Function.update_self, AList.mem_insert]
      exact Or.inr hmem
    · rw [Function.update_of_ne hk]
      exact hmem

/-- Recording a value adds it to those known, and loses none. -/
theorem known_record (hown : ∀ v sv, (cc.values key).lookup v = some sv → sv.value = v) (k v : String) :
    (v ∈ (cc.record key nv iv).values k ∨ v ∈ (cc.record key nv iv).overwrittenValues k) ↔
      (k = key ∧ v = nv.value) ∨ v ∈ cc.values k ∨ v ∈ cc.overwrittenValues k := by
  by_cases hr : cc.Replaces key nv iv
  · obtain ⟨hvals, hover⟩ := record_of_replaces hr
    by_cases hk : k = key
    · subst hk
      rw [hvals, hover, Function.update_self, Function.update_self, mem_overwriteAll hown, mem_values_iff]
      simp only [lookup_singleton, true_and, exists_and_left, exists_eq, and_true]
      rw [or_comm (a := v ∈ cc.values k)]
    · rw [hvals, hover, Function.update_of_ne hk, Function.update_of_ne hk]
      simp [hk]
  · obtain ⟨hvals, hover⟩ := record_of_not_replaces hr
    rw [hvals, hover]
    by_cases hk : k = key
    · subst hk
      rw [Function.update_self, AList.mem_insert, or_assoc]
      simp
    · rw [Function.update_of_ne hk]
      simp [hk]

/-- Recording a value that is not known keeps the two sets of a key disjoint. -/
theorem disjoint_record (hown : ∀ v sv, (cc.values key).lookup v = some sv → sv.value = v)
    (hdis : ∀ k v, v ∈ cc.values k → v ∉ cc.overwrittenValues k) (hv : nv.value ∉ cc.values key)
    (ho : nv.value ∉ cc.overwrittenValues key) (k v : String) (hmem : v ∈ (cc.record key nv iv).values k) :
    v ∉ (cc.record key nv iv).overwrittenValues k := by
  obtain ⟨sv, hsv⟩ := mem_values_iff.mp hmem
  by_cases hr : cc.Replaces key nv iv
  · obtain ⟨hvals, hover⟩ := record_of_replaces hr
    by_cases hk : k = key
    · subst hk
      rw [hvals, Function.update_self, lookup_singleton] at hsv
      rw [hover, Function.update_self, mem_overwriteAll hown, hsv.1]
      exact fun hor => hor.elim ho hv
    · rw [hvals, Function.update_of_ne hk] at hmem
      rw [hover, Function.update_of_ne hk]
      exact hdis k v hmem
  · rw [(record_of_not_replaces hr).2]
    rcases lookup_record hsv with ⟨rfl, rfl, -⟩ | hold
    · exact ho
    · exact hdis k v (mem_values_iff.mpr ⟨sv, hold⟩)

end Record

/-! ### What is recorded along a history -/

namespace History

variable {flags : Flags} {h h' : History}

/-- The values recorded are those of the completed writes, with what was passed for them; and
none that an isolated write came after may still be returned. -/
structure Recorded (flags : Flags) (h : History) : Prop where
  inv : h.Inv
  entry : ∀ key v sv, (h.cc.values key).lookup v = some sv → ∃ (j : ℕ) (w : WriteOp) (now : ℤ),
    h.writes[j]? = some w ∧ w.key = key ∧ w.value = v ∧ w.ended ≠ none ∧ sv = newVal flags w w.err now
  known : ∀ key v, (v ∈ h.cc.values key ∨ v ∈ h.cc.overwrittenValues key) ↔ ∃ (j : ℕ) (w : WriteOp),
    h.writes[j]? = some w ∧ w.key = key ∧ w.value = v ∧ w.ended ≠ none
  disjoint : ∀ key v, v ∈ h.cc.values key → v ∉ h.cc.overwrittenValues key
  gone : ∀ (j k : ℕ) (a b : WriteOp), h.writes[j]? = some a → h.writes[k]? = some b → a.key = b.key →
    h.Isolated k b → a.EndedBefore b.began → a.value ∉ h.cc.values a.key

namespace Recorded

/-- Every value is stored under itself. -/
theorem own (hR : h.Recorded flags) {key v : String} {sv : StateValue}
    (hl : (h.cc.values key).lookup v = some sv) : sv.value = v := by
  obtain ⟨j, w, now, -, -, hv, -, rfl⟩ := hR.entry key v sv hl
  exact hv

/-- Kept where a call changes neither the values nor the writes that are over. -/
theorem of_same (hR : h.Recorded flags) (hI : h'.Inv) (hvals : h'.cc.values = h.cc.values)
    (hover : h'.cc.overwrittenValues = h.cc.overwrittenValues)
    (hold : ∀ (j : ℕ) (w : WriteOp), h.writes[j]? = some w → h'.writes[j]? = some w)
    (hnew : ∀ (j : ℕ) (w : WriteOp), h'.writes[j]? = some w → w.ended ≠ none → h.writes[j]? = some w) :
    h'.Recorded flags where
  inv := hI
  entry key v sv hl := by
    obtain ⟨j, w, now, hw, hrest⟩ := hR.entry key v sv (hvals ▸ hl)
    exact ⟨j, w, now, hold j w hw, hrest⟩
  known key v := by
    rw [hvals, hover, hR.known key v]
    exact ⟨fun ⟨j, w, hw, hrest⟩ => ⟨j, w, hold j w hw, hrest⟩,
      fun ⟨j, w, hw, hk, hv, hend⟩ => ⟨j, w, hnew j w hw hend, hk, hv, hend⟩⟩
  disjoint key v := by
    rw [hvals, hover]
    exact hR.disjoint key v
  gone j k a b ha hb hkey hiso hbefore := by
    obtain ⟨e, he, -⟩ := id hbefore
    rw [hvals]
    exact hR.gone j k a b (hnew j a ha (by simp [he])) (hnew k b hb hiso.1) hkey
      ⟨hiso.1, hiso.2.1, fun i c hc => hiso.2.2 i c (hold i c hc)⟩ hbefore

/-- A write that is over is not the one that ends now. -/
theorem getElem?_set_of_ended {writes : List WriteOp} {i j : ℕ} {w b : WriteOp} (hw : writes[i]? = some w)
    (hend : w.ended = none) (hb : writes[j]? = some b) (hbend : b.ended ≠ none) {x : WriteOp} :
    (writes.set i x)[j]? = some b := by
  rw [List.getElem?_set_ne, hb]
  rintro rfl
  obtain rfl := Option.some.inj (hw.symm.trans hb)
  exact hbend hend

/-- Kept by `CompleteWrite`. -/
theorem ended (hR : h.Recorded flags) {i : ℕ} {w : WriteOp} (hw : h.writes[i]? = some w) (hend : w.ended = none)
    (err : Option String) (now : ℤ) (hv : w.value ∉ h.cc.values w.key)
    (ho : w.value ∉ h.cc.overwrittenValues w.key) :
    ({ h with
        cc := h.cc.record w.key (newVal flags w err now) w.initialVersion
        writes := h.writes.set i (h.endWrite w err)
        tick := h.tick + 1 } : History).Recorded flags where
  inv := hR.inv.ended hw hend err _ _
  entry key v sv hl := by
    have hlt := (List.getElem?_eq_some_iff.mp hw).1
    rcases lookup_record hl with ⟨rfl, rfl, rfl⟩ | hl
    · exact ⟨i, h.endWrite w err, now, List.getElem?_set_self hlt, rfl, rfl, by simp [endWrite], rfl⟩
    · obtain ⟨j, b, now', hb, hkey, hval, hbend, rfl⟩ := hR.entry key v sv hl
      exact ⟨j, b, now', getElem?_set_of_ended hw hend hb hbend, hkey, hval, hbend, rfl⟩
  known key v := by
    have hlt := (List.getElem?_eq_some_iff.mp hw).1
    rw [known_record fun v sv hl => hR.own hl, hR.known key v]
    constructor
    · rintro (⟨rfl, rfl⟩ | ⟨j, b, hb, hkey, hval, hbend⟩)
      · exact ⟨i, h.endWrite w err, List.getElem?_set_self hlt, rfl, rfl, by simp [endWrite]⟩
      · exact ⟨j, b, getElem?_set_of_ended hw hend hb hbend, hkey, hval, hbend⟩
    · rintro ⟨j, b, hb, hkey, hval, hbend⟩
      rcases getElem?_set_cases hb with ⟨-, hb⟩ | ⟨-, rfl⟩
      · exact Or.inr ⟨j, b, hb, hkey, hval, hbend⟩
      · exact Or.inl ⟨hkey.symm, hval.symm⟩
  disjoint key v hmem := disjoint_record (fun v sv hl => hR.own hl) hR.disjoint hv ho key v hmem
  gone j k a b ha hb hkey hiso hbefore := by
    -- `a` was over before `b` began, so it is not the write that ends now
    have hji : j ≠ i := by
      rintro rfl
      have hbt := (hR.inv.ended hw hend err (newVal flags w err now) w.initialVersion).began_lt k b hb
      rw [List.getElem?_set_self (List.getElem?_eq_some_iff.mp hw).1, Option.some.injEq] at ha
      subst ha
      exact not_endedBefore_endWrite (Nat.lt_succ_iff.mp hbt) hbefore
    have ha' : h.writes[j]? = some a := by rwa [List.getElem?_set_ne (Ne.symm hji)] at ha
    have hne : a.key = w.key → a.value ≠ w.value := fun hk hval => hji (hR.inv.distinct j i a w ha' hw hk hval)
    intro hmem
    obtain ⟨sv, hsv⟩ := mem_values_iff.mp hmem
    rcases getElem?_set_cases hb with ⟨hki, hb'⟩ | ⟨rfl, rfl⟩
    · -- `b` had ended before and was isolated before
      rcases lookup_record hsv with ⟨hk, hval, -⟩ | hl
      · exact hne hk hval
      · refine hR.gone j k a b ha' hb' hkey ⟨hiso.1, hiso.2.1, fun l c hc hlk hck => ?_⟩ hbefore
          (mem_values_iff.mpr ⟨sv, hl⟩)
        by_cases hli : l = i
        · subst hli
          obtain rfl := Option.some.inj (hw.symm.trans hc)
          rcases hiso.2.2 l (h.endWrite w err) (List.getElem?_set_self (List.getElem?_eq_some_iff.mp hw).1)
            hlk hck with hover | hafter
          · exact absurd hover (not_endedBefore_endWrite (hR.inv.began_lt k b hb').le)
          · exact Or.inr hafter
        · exact hiso.2.2 l c (by rw [List.getElem?_set_ne (Ne.symm hli), hc]) hlk hck
    · -- the write that ends now is isolated, so it replaces everything
      have hrep : h.cc.Replaces w.key (newVal flags w err now) w.initialVersion :=
        hR.inv.replaces_of_isolated hw hend hiso
      have hk : a.key = w.key := hkey
      simp only [hk, (record_of_replaces hrep).1, Function.update_self, lookup_singleton] at hsv
      exact hne hk hsv.1

theorem step (hc : flags.checkCorrectness = true) (hR : h.Recorded flags) {l : Call}
    (hs : h.step flags l = some h') : h'.Recorded flags := by
  have hI := hR.inv.step hc hs
  cases l with
  | beginWrite key value mb db =>
    obtain ⟨-, rfl⟩ := (step_beginWrite_iff hc).mp hs
    refine hR.of_same hI rfl rfl (fun j w hw => ?_) fun j w hw hend => ?_
    · rw [List.getElem?_append_left (List.getElem?_eq_some_iff.mp hw).1, hw]
    · rcases getElem?_concat_cases hw with hw | rfl
      · exact hw
      · exact absurd rfl hend
  | completeWrite i err now =>
    obtain ⟨w, hw, hend, hv, ho, rfl⟩ := (step_completeWrite_iff hc).mp hs
    exact hR.ended hw hend err now hv ho
  | beginRead key startTime =>
    obtain rfl := (step_beginRead_iff hc).mp hs
    exact hR.of_same hI rfl rfl (fun _ _ => id) fun _ _ hw _ => hw
  | checkReadCorrect i value wasFound now =>
    obtain ⟨n, rfl⟩ := step_checkReadCorrect hs
    exact hR.of_same hI rfl rfl (fun _ _ => id) fun _ _ hw _ => hw

theorem fresh : History.fresh.Recorded flags where
  inv := Inv.fresh
  entry key v sv hl := by simp [History.fresh, makeConsistencyChecker] at hl
  known key v := by simp [History.fresh, makeConsistencyChecker]
  disjoint key v hv := by simp [History.fresh, makeConsistencyChecker] at hv
  gone j k a b ha := by simp [History.fresh] at ha

theorem of_run (hc : flags.checkCorrectness = true) {ls : List Call}
    (hrun : run (History.step flags) .fresh ls = some h) : h.Recorded flags :=
  run_inductive (fun _ _ _ hR hs => step hc hR hs) fresh hrun

/-- A write that is not over is not known, so `CompleteWrite` does not panic. -/
theorem completes (hc : flags.checkCorrectness = true) (hR : h.Recorded flags) {i : ℕ} {w : WriteOp}
    (hw : h.writes[i]? = some w) (hend : w.ended = none) (err : Option String) (now : ℤ) :
    (h.step flags (.completeWrite i err now)).isSome = true := by
  have hunknown : ¬ (w.value ∈ h.cc.values w.key ∨ w.value ∈ h.cc.overwrittenValues w.key) := by
    rw [hR.known]
    rintro ⟨j, b, hb, hkey, hval, hbend⟩
    obtain rfl := hR.inv.distinct j i b w hb hw hkey hval
    obtain rfl := Option.some.inj (hw.symm.trans hb)
    exact hbend hend
  push Not at hunknown
  exact Option.isSome_iff_exists.mpr
    ⟨_, (step_completeWrite_iff hc).mpr ⟨w, hw, hend, hunknown.1, hunknown.2, rfl⟩⟩

end Recorded

/-- **The checker detects stale reads.** Wherever a history with checking enabled arrives: the
values a read of a key may return and those overwritten are disjoint and together are those
of the completed writes of the key, every write can be completed, and if `a` was over before
`b` began, `b` succeeded and overlapped no other write of the key, and the read `r` began
after `b` was over and no write of the key overlapped it, then `CheckReadCorrect` does not
accept the value of `a` for `r`. -/
theorem checker_detects (hc : flags.checkCorrectness = true) {ls : List Call}
    (hrun : run (History.step flags) .fresh ls = some h) :
    (∀ key v, v ∈ h.cc.values key → v ∉ h.cc.overwrittenValues key) ∧
    (∀ key v, (v ∈ h.cc.values key ∨ v ∈ h.cc.overwrittenValues key) ↔
      ∃ w ∈ h.writes, w.key = key ∧ w.value = v ∧ w.ended ≠ none) ∧
    (∀ (i : ℕ) (w : WriteOp) (err : Option String) (now : ℤ), h.writes[i]? = some w → w.ended = none →
      (h.step flags (.completeWrite i err now)).isSome = true) ∧
    ∀ (j k : ℕ) (a b : WriteOp) (r : ReadOp) (now : ℤ), h.writes[j]? = some a → h.writes[k]? = some b →
      r ∈ h.reads → a.key = r.key → b.key = r.key → a.EndedBefore b.began → h.Isolated k b →
      b.EndedBefore r.began → h.Quiet r →
      (h.cc.checkReadCorrect flags r.key a.value true r.startTime r.initialVersion r.writesPending now).2 ≠ none := by
  have hR := Recorded.of_run hc hrun
  refine ⟨hR.disjoint, fun key v => ?_, fun i w err now hw hend => hR.completes hc hw hend err now, ?_⟩
  · rw [hR.known key v]
    constructor
    · rintro ⟨j, w, hw, hrest⟩
      exact ⟨w, List.mem_of_getElem? hw, hrest⟩
    · rintro ⟨w, hw, hrest⟩
      obtain ⟨j, hj⟩ := List.getElem?_of_mem hw
      exact ⟨j, w, hj, hrest⟩
  · intro j k a b r now ha hb hr hak hbk hbefore hiso _ hquiet
    obtain ⟨hver, hpend, hrc⟩ := hR.inv.checked_of_quiet hr hquiet
    have hgone := hR.gone j k a b ha hb (hak.trans hbk.symm) hiso hbefore
    have hlookup : (h.cc.values r.key).lookup a.value = none := by
      rw [AList.lookup_eq_none, ← hak]
      exact hgone
    simp only [ConsistencyChecker.checkReadCorrect, hc, hver, hpend, hrc, ConsistencyChecker.verdict, hlookup]
    split_ifs <;> simp_all

end History

/-- The flags as they are by default, in milliseconds. -/
def defaultFlags : Flags := ⟨true, true, 10⟩

/-- Two writes of a key one after the other, and a read after them. -/
def overwriteCalls : List Call :=
  [.beginWrite "k" "old" 100 101, .completeWrite 0 none 1, .beginWrite "k" "new" 102 103, .completeWrite 1 none 3,
    .beginRead "k" 4]

/-- Where these calls arrive. -/
def overwriteHistory : History :=
  (run (History.step defaultFlags) .fresh overwriteCalls).get (by decide +kernel)

def oldWrite : WriteOp := ⟨"k", "old", 100, 101, 0, 0, some 1, none⟩

def newWrite : WriteOp := ⟨"k", "new", 102, 103, 1, 2, some 3, none⟩

def lateRead : ReadOp := ⟨"k", 4, 2, false, 4⟩

theorem overwriteHistory_run : run (History.step defaultFlags) .fresh overwriteCalls = some overwriteHistory :=
  run_eq_some_get _ _

theorem overwriteHistory_calls :
    overwriteHistory.writes = [oldWrite, newWrite] ∧ overwriteHistory.reads = [lateRead] := by decide +kernel

theorem checker_detects_overwritten :
    (overwriteHistory.cc.checkReadCorrect defaultFlags "k" "old" true 4 2 false 5).2 ≠ none := by
  obtain ⟨hwrites, hreads⟩ := overwriteHistory_calls
  refine (History.checker_detects rfl overwriteHistory_run).2.2.2 0 1 oldWrite newWrite lateRead 5 (by rw [hwrites]; rfl)
    (by rw [hwrites]; rfl) (by simp [hreads]) rfl rfl ⟨1, rfl, by decide⟩ ⟨by decide, rfl, ?_⟩ ⟨3, rfl, by decide⟩ ?_
  · intro j a ha hj _
    rw [hwrites] at ha
    rcases j with _ | _ | j
    · obtain rfl : oldWrite = a := by simpa using ha
      exact Or.inl ⟨1, rfl, by decide⟩
    · exact absurd rfl hj
    · simp at ha
  · intro j w hw _
    rw [hwrites] at hw
    rcases j with _ | _ | j
    · obtain rfl : oldWrite = w := by simpa using hw
      exact ⟨1, rfl, by decide⟩
    · obtain rfl : newWrite = w := by simpa using hw
      exact ⟨3, rfl, by decide⟩
    · simp at hw

end Cs426.Checker

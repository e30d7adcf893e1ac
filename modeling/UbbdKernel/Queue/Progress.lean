import UbbdKernel.Queue.Kept
import UbbdKernel.Queue.Work

/-!
# The driver's calls return

A lock is held by a thread that is about to release it (`LockedBy`), a flush
waits for workers, which wait for nobody else, and a thread that releases pages
has a request whose call on the pages has returned (`Releases`). So as long as a
work is queued, a call is running or a lock is held, the driver can go on
(`never_stuck`); with `work_le_price`, every call returns.
-/

namespace Ubbd.Queue

variable {C : Conf} {s s' : State C}

/-! ## Locks -/

/-- The thread holds `state_lock`. -/
def Pc.manages : Pc C → Bool
  | .stopSet | .stopFlush | .stopFlushing _ | .stopFlushed | .startSet => true
  | _ => false

/-- The thread holds `inflight_reqs_lock`. -/
def Pc.sets : Pc C → Bool
  | .setStopped _ _ => true
  | _ => false

/-- A lock that is held is held by a thread in the section under it. -/
def LockedBy (sl il : Option Nat) (threads : Nat → Pc C) : Prop :=
  (∀ x, sl = some x → (threads x).manages = true) ∧ ∀ x, il = some x → (threads x).sets = true

theorem lockedBy_init (n r : Nat) :
    LockedBy (initState C n r).stateLock (initState C n r).inflightLock (initState C n r).threads :=
  ⟨fun _ h => (nomatch h), fun _ h => (nomatch h)⟩

/-- A thread that moves keeps its locks, or others have them. -/
theorem LockedBy.move {sl il sl' il' : Option Nat} {x : Nat} {pc : Pc C} (h : LockedBy sl il s.threads)
    (hsl : sl' = sl ∧ ((s.threads x).manages = true → pc.manages = true) ∨
      sl' = none ∨ sl' = some x ∧ pc.manages = true)
    (hil : il' = il ∧ ((s.threads x).sets = true → pc.sets = true) ∨ il' = none ∨ il' = some x ∧ pc.sets = true) :
    LockedBy sl' il' (s.setPc x pc).threads := by
  refine ⟨fun y hy => ?_, fun y hy => ?_⟩
  · rw [State.setPc_threads]
    rcases hsl with ⟨rfl, hm⟩ | rfl | ⟨rfl, hm⟩
    · split
      · rename_i hyx
        exact hm (hyx ▸ h.1 y hy)
      · exact h.1 y hy
    · cases hy
    · rw [if_pos (Option.some.inj hy).symm]
      exact hm
  · rw [State.setPc_threads]
    rcases hil with ⟨rfl, hm⟩ | rfl | ⟨rfl, hm⟩
    · split
      · rename_i hyx
        exact hm (hyx ▸ h.2 y hy)
      · exact h.2 y hy
    · cases hy
    · rw [if_pos (Option.some.inj hy).symm]
      exact hm

theorem lockedBy_thStep {x : Nat} {l : ThLabel} (h : LockedBy s.stateLock s.inflightLock s.threads)
    (hs : ThStep s x l s') : LockedBy s'.stateLock s'.inflightLock s'.threads := by
  -- a thread without locks
  have hfree : ∀ {pc : Pc C}, (s.threads x).manages = false → (s.threads x).sets = false →
      LockedBy s.stateLock s.inflightLock (s.setPc x pc).threads := fun hm hs =>
    h.move (.inl ⟨rfl, fun h => absurd h (by rw [hm]; decide)⟩) (.inl ⟨rfl, fun h => absurd h (by rw [hs]; decide)⟩)
  -- a thread with `state_lock`
  have hstate : ∀ {pc : Pc C}, pc.manages = true → (s.threads x).sets = false →
      LockedBy s.stateLock s.inflightLock (s.setPc x pc).threads := fun hm hs =>
    h.move (.inl ⟨rfl, fun _ => hm⟩) (.inl ⟨rfl, fun h => absurd h (by rw [hs]; decide)⟩)
  cases hs with
  | back l call pc => exact h
  | stopRead pc lock st =>
    exact h.move (.inr (.inr ⟨rfl, rfl⟩)) (.inl ⟨rfl, fun hx => by rw [pc] at hx; cases hx⟩)
  | startRead pc lock st =>
    exact h.move (.inr (.inr ⟨rfl, rfl⟩)) (.inl ⟨rfl, fun hx => by rw [pc] at hx; cases hx⟩)
  | stopSet pc => exact hstate rfl (by rw [pc]; rfl)
  | stopFlush pc => exact hstate rfl (by rw [pc]; rfl)
  | stopFlushed snap pc flushed => exact hstate rfl (by rw [pc]; rfl)
  | stopFinal pc lock => exact h.move (.inr (.inl rfl)) (.inl ⟨rfl, fun hx => by rw [pc] at hx; cases hx⟩)
  | startSet pc => exact h.move (.inr (.inl rfl)) (.inl ⟨rfl, fun hx => by rw [pc] at hx; cases hx⟩)
  | last tid pc lock t mem tid_eq st empty =>
    exact h.move (.inl ⟨rfl, fun hx => by rw [pc] at hx; cases hx⟩) (.inr (.inr ⟨rfl, rfl⟩))
  | setStopped t tid pc => exact h.move (.inl ⟨rfl, fun hx => by rw [pc] at hx; cases hx⟩) (.inr (.inl rfl))
  | _ => exact hfree (by simp only [*]; rfl) (by simp only [*]; rfl)

theorem lockedBy_step {a : Label C} (h : LockedBy s.stateLock s.inflightLock s.threads) (hs : step s a = some s') :
    LockedBy s'.stateLock s'.inflightLock s'.threads := by
  cases step_cases hs with
  | rq hw =>
    obtain ⟨-, hth, hsl, hil, -⟩ := hw.control
    rw [hth, hsl, hil]
    exact h
  | th hx => exact lockedBy_thStep h hx
  | _ => exact h

/-! ## Releases -/

/-- The call of `ubbd_req_release` that a thread waits for is running or has
returned. -/
def Releases (s : State C) : Prop := ∀ x t by_, s.threads x = .release t by_ → Pages.Releasing (s.pages.reqs t)

/-- No two threads have the same request. -/
theorem Own.holder (h : Own s) {t : C.Tag} {x y : Nat} (hx : (s.threads x).holds = some t)
    (hy : (s.threads y).holds = some t) : y = x := by
  by_contra hne
  have h₁ := (h.of_holds hx).2.2 (some y) fun hh => hne (Option.some.inj hh)
  have h₂ := (h.of_holds hy).2.1
  omega

/-- The request of a thread that is about to release its pages has them. -/
theorem Holding.has_of_mark (ho : Own s) (h : Holding s) {x : Nat} {t : C.Tag} {by_ : By}
    (hx : s.threads x = .mark t by_) : Has (s.rqs t) (s.pages.reqs t) := by
  have hholds : (s.threads x).holds = some t := by rw [hx]; rfl
  have hwants := h.wants t fun y hy => by
    obtain rfl := ho.holder hholds (Pc.holds_of_releases hy)
    rw [hx] at hy
    cases hy
  rw [(ho.of_holds hholds).1] at hwants
  exact hwants

theorem Has.ready_or_idle {r : Rq C.pageSize} {q : Pages.Req} (h : Has r q) :
    q.pc = .ready ∨ q.pc = .idle ∧ q.pi = [] := by
  rcases h with ⟨-, hpc, hpi⟩ | ⟨-, hpc, -⟩
  · exact .inr ⟨hpc, hpi⟩
  · exact .inl hpc

theorem releases_thStep {x : Nat} {l : ThLabel} (ho : Own s) (hh : Holding s) (h : Releases s)
    (hs : ThStep s x l s') : Releases s' := by
  -- the thread goes elsewhere
  have hmove : ∀ {q : State C} {p : Pc C}, q.threads = (s.setPc x p).threads → q.pages = s.pages →
      (∀ t by_, p ≠ .release t by_) → Releases q := by
    intro q p hth hp hpc y t by_ hy
    rw [hth, State.setPc_threads] at hy
    rw [hp]
    split at hy
    · exact absurd hy (hpc t by_)
    · exact h y t by_ hy
  cases hs with
  | back l call pc => exact h
  | mark t by_ pc =>
    intro y u by' hy
    have hcall := hh.call_release t
    rw [show _ = (s.setPc x (.release t by_)).threads y from rfl, State.setPc_threads] at hy
    show Pages.Releasing (((Pages.step s.pages (.release t)).getD s.pages).reqs u)
    split at hy
    · cases hy
      exact Pages.releasing_release (hh.has_of_mark ho pc).ready_or_idle
    · rename_i hyx
      have hut : u ≠ t := by
        rintro rfl
        exact hyx (ho.holder (by rw [pc]; rfl) (by rw [hy]; rfl))
      rw [hcall.2 u hut]
      exact h y u by' hy
  | released t by_ pc idle =>
    exact hmove (p := .finish t by_) rfl rfl fun _ _ he => by cases he
  | finish t by_ pc =>
    exact hmove (p := .advance by_) rfl rfl fun _ _ he => by cases he
  | remFlushed force snap pc flushed => exact hmove rfl rfl fun _ _ he => by cases force <;> cases he
  | advance by_ pc =>
    exact hmove (p := by_.next) rfl rfl fun _ _ he => by cases by_ <;> cases he
  | _ => exact hmove rfl rfl fun _ _ he => by cases he

theorem releases_step {a : Label C} (ho : Own s) (hh : Holding s) (h : Releases s) (hs : step s a = some s') :
    Releases s' := by
  cases step_cases hs with
  | rq hw =>
    intro x u by_ hx
    rw [hw.control.2.1] at hx
    rw [wkStep_pages hw]
    · exact h x u by_ hx
    · rintro rfl
      exact hw.wk_ne (ho.of_holds (x := x) (by rw [hx]; rfl)).1
  | th hx => exact releases_thStep ho hh h hx
  | page l hl p hp =>
    intro x u by_ hx
    have hrel := h x u by_ hx
    have hcalls : l.calls = false := by cases l <;> first | rfl | cases hl
    by_cases hu : u = l.req
    · rw [hu] at hrel ⊢
      exact (Pages.step_goes hcalls hp).releasing hrel
    · show Pages.Releasing (p.reqs u)
      rw [Pages.step_other hp hu]
      exact hrel
  | _ => exact h

/-! ## What may be blocked -/

/-- The driver has nothing left to do: no work is queued, all calls have returned,
and no lock is held. -/
structure Settled (s : State C) : Prop where
  worker : ∀ t, (s.rqs t).wk.active = false
  thread : ∀ x, s.threads x = .idle ∨ ∃ force, s.threads x = .removed force
  pages : ∀ t, (s.pages.reqs t).pc = .idle ∨ (s.pages.reqs t).pc = .ready
  locks : s.stateLock = none ∧ s.inflightLock = none

/-- The driver can take no step. -/
def Stuck (s : State C) : Prop := ∀ a : Label C, a.inner = true → step s a = none

namespace Stuck

theorem rq (h : Stuck s) {t : C.Tag} {l : WkLabel C} (hl : l.inner = true) {s' : State C} :
    stepWk s t l ≠ some s' := by
  rw [show stepWk s t l = none from h (.rq t l) hl]
  exact (Option.some_ne_none _).symm

theorem th (h : Stuck s) {x : Nat} {l : ThLabel} (hl : l.inner = true) {s' : State C} :
    stepTh s x l ≠ some s' := by
  rw [show stepTh s x l = none from h (.th x l) hl]
  exact (Option.some_ne_none _).symm

/-- No call on the pages is running. -/
theorem pages (h : Stuck s) (hst : Stocked s) (t : C.Tag) :
    (s.pages.reqs t).pc = .idle ∨ (s.pages.reqs t).pc = .ready := by
  by_contra hpc
  obtain ⟨a, ha, hs⟩ := Pages.step_enabled (hst.sourced.spare t) (fun hi => hpc (.inl hi)) fun hr => hpc (.inr hr)
  have hin : inside a = true := by cases a <;> first | rfl | cases ha
  have hnone := h (.page a) rfl
  obtain ⟨p, hp⟩ := Option.isSome_iff_exists.mp hs
  simp only [step, if_pos hin, hp, Option.map_some] at hnone
  cases hnone

theorem inflightLock (h : Stuck s) (hl : LockedBy s.stateLock s.inflightLock s.threads) : s.inflightLock = none := by
  cases hlock : s.inflightLock with
  | none => rfl
  | some x =>
    have hx := hl.2 x hlock
    cases hpc : s.threads x with
    | setStopped t tid => exact absurd (by simp only [stepTh, hpc]; rfl) (h.th (x := x) (l := .setStopped) rfl)
    | _ =>
      rw [hpc] at hx
      cases hx

/-- A worker can always go on. -/
theorem worker (h : Stuck s) (hst : Stocked s) (ho : Own s) (hh : Holding s)
    (hl : LockedBy s.stateLock s.inflightLock s.threads) (t : C.Tag) : (s.rqs t).wk.active = false := by
  have hlock := h.inflightLock hl
  cases hwk : (s.rqs t).wk with
  | none | starting | published => rfl
  | queued =>
    cases hstatus : s.status <;>
      exact absurd (by simp only [stepWk, hwk, hstatus]; rfl) (h.rq (t := t) (l := .status) rfl)
  | passed =>
    have hidle : (s.pages.reqs t).pc = .idle := by
      have hwants := hh.wants t (ho.not_releases (by rw [hwk]; decide))
      rw [hwk] at hwants
      exact hwants.1
    have hnone : stepWk s t (.prepare true) = none := h (.rq t (.prepare true)) rfl
    simp only [stepWk, hwk, if_true, prepareRq, Pages.step, hidle, Option.map_some, Bool.true_eq_false, and_false,
      if_false] at hnone
    split at hnone <;> cases hnone
  | pages =>
    rcases h.pages hst t with hpc | hpc
    · exact absurd (by simp only [stepWk, hwk, hpc]; rfl) (h.rq (t := t) (l := .pages) rfl)
    · exact absurd (by simp only [stepWk, hwk, hpc]; rfl) (h.rq (t := t) (l := .pages) rfl)
  | prepared =>
    exact absurd (by simp only [stepWk, hwk, hlock, and_self, if_true]; rfl) (h.rq (t := t) (l := .insert) rfl)
  | inserted => exact absurd (by simp only [stepWk, hwk, if_true]; rfl) (h.rq (t := t) (l := .submit) rfl)
  | full =>
    exact absurd (by simp only [stepWk, hwk, hlock, and_self, if_true]; rfl) (h.rq (t := t) (l := .remove) rfl)
  | failed e => exact absurd (by simp only [stepWk, hwk]; rfl) (h.rq (t := t) (l := .endRequest) rfl)

/-- A flush returns. -/
theorem flushed (hw : ∀ t, (s.rqs t).wk.active = false) (snap : C.Tag → Nat) : s.Flushed snap := by
  intro t ht
  rw [hw t] at ht
  cases ht

/-- Nobody holds `state_lock`: its holder waits for workers only. -/
theorem manages (h : Stuck s) (hw : ∀ t, (s.rqs t).wk.active = false) (hlock : s.inflightLock = none) (x : Nat) :
    (s.threads x).manages = false := by
  cases hpc : s.threads x with
  | stopSet => exact absurd (by simp only [stepTh, hpc]; rfl) (h.th (x := x) (l := .stopSet) rfl)
  | stopFlush => exact absurd (by simp only [stepTh, hpc]; rfl) (h.th (x := x) (l := .stopFlush) rfl)
  | stopFlushing snap =>
    exact absurd (by simp only [stepTh, hpc, if_pos (flushed hw snap)]; rfl)
      (h.th (x := x) (l := .stopFlushed) rfl)
  | stopFlushed => exact absurd (by simp only [stepTh, hpc, hlock]; rfl) (h.th (x := x) (l := .stopFinal) rfl)
  | startSet => exact absurd (by simp only [stepTh, hpc]; rfl) (h.th (x := x) (l := .startSet) rfl)
  | _ => rfl

theorem stateLock (hl : LockedBy s.stateLock s.inflightLock s.threads) (hm : ∀ x, (s.threads x).manages = false) :
    s.stateLock = none := by
  cases hlock : s.stateLock with
  | none => rfl
  | some x => exact absurd (hl.1 x hlock) (by rw [hm x]; decide)

/-- A thread waits for `state_lock` and for workers only. -/
theorem thread (h : Stuck s) (hst : Stocked s) (hr : Releases s) (hw : ∀ t, (s.rqs t).wk.active = false)
    (hlock : s.inflightLock = none) (hstate : s.stateLock = none) (hm : ∀ x, (s.threads x).manages = false)
    (x : Nat) : s.threads x = .idle ∨ ∃ force, s.threads x = .removed force := by
  have hmx := hm x
  cases hpc : s.threads x with
  | idle => exact .inl rfl
  | removed force => exact .inr ⟨force, rfl⟩
  | remSet force => exact absurd (by simp only [stepTh, hpc, hstate]; rfl) (h.th (x := x) (l := .remSet) rfl)
  | remFlush force => exact absurd (by simp only [stepTh, hpc]; rfl) (h.th (x := x) (l := .remFlush) rfl)
  | remFlushing force snap =>
    exact absurd (by simp only [stepTh, hpc, if_pos (flushed hw snap)]; rfl)
      (h.th (x := x) (l := .remFlushed) rfl)
  | remSplice => exact absurd (by simp only [stepTh, hpc, hlock]; rfl) (h.th (x := x) (l := .remSplice) rfl)
  | remNext =>
    cases htmp : s.tmp x <;>
      exact absurd (by simp only [stepTh, hpc, htmp]; rfl) (h.th (x := x) (l := .remNext) rfl)
  | again => exact absurd (by simp only [stepTh, hpc]; rfl) (h.th (x := x) (l := .none) rfl)
  | took tid => exact absurd (by simp only [stepTh, hpc, hlock]; rfl) (h.th (x := x) (l := .fetch) rfl)
  | setStopped t tid => exact absurd (by simp only [stepTh, hpc]; rfl) (h.th (x := x) (l := .setStopped) rfl)
  | mark t by_ => exact absurd (by simp only [stepTh, hpc]; rfl) (h.th (x := x) (l := .mark) rfl)
  | release t by_ =>
    have hidle : (s.pages.reqs t).pc = .idle := by
      rcases hr x t by_ hpc with hrel | ⟨hidle, -⟩
      · rcases h.pages hst t with hi | hready
        · exact hi
        · rw [hrel] at hready
          cases hready
      · exact hidle
    exact absurd (by simp only [stepTh, hpc, if_pos hidle]; rfl) (h.th (x := x) (l := .released) rfl)
  | finish t by_ => exact absurd (by simp only [stepTh, hpc]; rfl) (h.th (x := x) (l := .finish) rfl)
  | advance by_ => exact absurd (by simp only [stepTh, hpc]; rfl) (h.th (x := x) (l := .advance) rfl)
  | _ =>
    rw [hpc] at hmx
    cases hmx

theorem settled (h : Stuck s) (hst : Stocked s) (ho : Own s) (hh : Holding s) (hr : Releases s)
    (hl : LockedBy s.stateLock s.inflightLock s.threads) : Settled s := by
  have hlock := h.inflightLock hl
  have hw := h.worker hst ho hh hl
  have hm := h.manages hw hlock
  have hstate := stateLock hl hm
  exact ⟨hw, h.thread hst hr hw hlock hstate hm, h.pages hst, hstate, hlock⟩

end Stuck

/-- In every state of a run in which completion entries are answers, no more than
`2 ^ 64 - 1` commands are published and REMOVING is not overwritten, the driver
can take a step or has nothing left to do. -/
theorem never_stuck (C : Conf) {n : Nat} (hn : n ≤ 2 ^ 31) (r : Nat) (as : List (Label C))
    (h : (lts C).Steps (fun s a s' => Answers s a ∧ Unwrapped s a ∧ Lasts s s') (initState C n r) as) :
    (lts C).States (fun s => Stuck s → Settled s) (initState C n r) as := by
  have hinv := Lts.states_of_steps (M := lts C)
    (I := fun s => Regular s ∧ Stocked s ∧ Releases s ∧ LockedBy s.stateLock s.inflightLock s.threads)
    (fun s a s' ⟨hreg, hst, hr, hl⟩ hs ⟨ha, hu, hla⟩ => ⟨hreg.step hs ha hu hla, hst.step hs,
      releases_step hreg.traced.own hreg.holding hr hs, lockedBy_step hl hs⟩)
    ⟨regular_init hn r, stocked_init hn r, fun _ _ _ hx => (nomatch hx), lockedBy_init n r⟩ h
  exact hinv.mono fun s ⟨hreg, hst, hr, hl⟩ hstuck => hstuck.settled hst hreg.traced.own hreg.holding hr hl

/-- Without a removal the status is never REMOVING. -/
theorem lasts_of_notMem {as : List (Label C)} (h : ∀ x, .th x .remSet ∉ as) (hst : s.status ≠ .removing) :
    (lts C).Steps (fun s _ s' => Lasts s s') s as := by
  have hlabels : (lts C).Steps (fun _ a _ => ∀ x, a ≠ .th x .remSet) s as :=
    Lts.steps_of_forall (fun a ha _ _ x he => by rw [he] at ha; exact h x ha) s
  refine Lts.steps_of_steps (I := fun s => s.status ≠ .removing) (fun s a s' hi hs ha => ?_) hst hlabels
  refine ⟨?_, fun hr => absurd hr hi⟩
  cases step_cases hs with
  | rq hw =>
    rw [hw.control.1]
    exact hi
  | th hx =>
    cases hx with
    | remSet force pc lock => exact absurd rfl (ha _)
    | stopSet pc => exact fun he => by cases he
    | startSet pc => exact fun he => by cases he
    | setStopped t tid pc => exact fun he => by cases he
    | stopFinal pc lock =>
      show (if s.inflight = [] then .stopped else s.status) ≠ QueueStatus.removing
      split
      · exact fun he => by cases he
      · exact hi
    | _ => exact hi
  | _ => exact hi

/-- When a write is completed, its thread has not yet left, so that the driver can
go on. -/
theorem never_stuck_writeDone :
    (lts (smallConf 1)).States (fun s => Stuck s → Settled s) (initState (smallConf 1) 8 6) writeDone ∧
      ((lts (smallConf 1)).exec (initState (smallConf 1) 8 6) writeDone).map
        (fun s => ((s.threads 0).work, (s.rqs ⟨0, by decide⟩).wk)) = some (1, .none) := by
  refine ⟨never_stuck _ (by decide) _ _ ?_, by decide +kernel⟩
  have hanswers : (lts (smallConf 1)).Steps (fun s a _ => Answers s a) (initState (smallConf 1) 8 6) writeDone := by
    unfold writeDone
    iterate 14 refine Lts.Steps.cons rfl trivial ?_
    refine Lts.Steps.cons rfl ⟨_, List.mem_singleton.mpr rfl, rfl⟩ ?_
    iterate 7 refine Lts.Steps.cons rfl trivial ?_
    trivial
  exact hanswers.and ((unwrapped_of_length (by decide)).and
    (lasts_of_notMem (by simp [writeDone, insertWrite]) fun he => by cases he))

end Ubbd.Queue

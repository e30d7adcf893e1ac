import UbbdKernel.Framework.Potential
import UbbdKernel.Pages.Work
import UbbdKernel.Queue.Teardown

/-!
# The work of the driver

The block layer starts requests, the backend puts entries into the ring and
administrators stop, start and remove queues; every other step is the driver's
own (`Label.inner`). However the steps of all parties interleave, the driver
never spins: its steps are bounded by the price of what was asked of it
(`work_le_price`), which for a request is linear in the number of its segments.
-/

namespace Ubbd.Queue

variable {C : Conf} {s s' : State C}

/-! ## What is asked, and what is left to do -/

def WkLabel.inner : WkLabel C → Bool
  | .rqRead | .rqStart _ => false
  | _ => true

def ThLabel.inner : ThLabel → Bool
  | .stopRead | .startRead | .remCheck _ | .enter | .take _ => false
  | _ => true

/-- The step is the driver's own. -/
def Label.inner : Label C → Bool
  | .rq _ l => l.inner
  | .th _ l => l.inner
  | .page _ => true
  | .pad _ | .open_ | .close => false

def WkLabel.price : WkLabel C → Nat
  | .rqStart r =>
    match ubbdOp r.op with
    | some op => 8 * r.ubbdReqSegments op + 25
    | none => 0
  | _ => 0

def ThLabel.price : ThLabel → Nat
  | .stopRead => 4
  | .remCheck _ => 5
  | .startRead | .enter | .take _ => 1
  | _ => 0

/-- How many steps the label may cost the driver. -/
def Label.price : Label C → Nat
  | .rq _ l => l.price
  | .th _ l => l.price
  | _ => 0

/-- The steps a worker has left, but for those of its call on the data pages.
To put the request on `inflight_reqs` includes the steps that take it off. -/
def Wk.work (segments : Nat) : Wk → Nat
  | .none | .starting | .published => 0
  | .failed _ => 1
  | .full => 2
  | .inserted => 3
  | .prepared => 12
  | .pages => 13
  | .passed => 8 * segments + 24
  | .queued => 8 * segments + 25

/-- The steps a thread has left, but for those for the requests it has yet to take
off a list. -/
def Pc.work : Pc C → Nat
  | .idle | .removed _ => 0
  | .startSet | .stopFlushed | .remNext | .again => 1
  | .stopFlushing _ | .remSplice | .took _ | .advance _ => 2
  | .stopFlush | .remFlushing _ _ | .finish _ _ => 3
  | .stopSet | .remFlush _ | .release _ _ => 4
  | .remSet _ | .mark _ _ => 5
  | .setStopped _ _ => 6

def Rq.work {pageSize : Nat} (r : Rq pageSize) : Nat := r.wk.work (r.req.ubbdReqSegments r.op)

namespace State

def rqWork (s : State C) (t : C.Tag) : Nat := (s.rqs t).work + (s.pages.reqs t).work

def thWork (s : State C) (x : Nat) : Nat := (s.threads x).work + 8 * (s.tmp x).length

/-- The steps that are left for all requests and for the threads `X`. -/
def work (X : Finset Nat) (s : State C) : Nat :=
  ∑ t, s.rqWork t + 8 * s.inflight.length + ∑ x ∈ X, s.thWork x

end State

/-- `1` for a step of the driver. -/
def cost (b : Bool) : Nat := if b then 1 else 0

/-! ## Steps of requests -/

/-- The worker of the request has moved on. -/
theorem rqWork_setWk (s : State C) (t : C.Tag) (w : Wk) :
    (s.setWk t w).rqWork t =
      w.work ((s.rqs t).req.ubbdReqSegments (s.rqs t).op) + (s.pages.reqs t).work := by
  rw [State.rqWork, State.setWk_rqs, if_pos rfl]
  rfl

theorem rqWork_setRq (s : State C) (t : C.Tag) (r : Rq C.pageSize) :
    (s.setRq t r).rqWork t = r.work + (s.pages.reqs t).work := by
  rw [State.rqWork, State.setRq_rqs, if_pos rfl]
  rfl

theorem rqWork_startRq (s : State C) (t : C.Tag) (r : Request C.pageSize) :
    (startRq s t r).rqWork t = (WkLabel.rqStart r).price := by
  have hfresh : ((s.pages.setReq t Pages.Req.fresh).reqs t).work = 0 := by
    rw [Pages.State.setReq_reqs, if_pos rfl]
    rfl
  rw [startRq, WkLabel.price]
  cases ubbdOp r.op with
  | some op =>
    show State.rqWork (State.setRq _ t _) t = _
    rw [rqWork_setRq, hfresh]
    rfl
  | none =>
    show State.rqWork (State.setRq _ t _) t = _
    rw [rqWork_setRq, hfresh]
    rfl

theorem rqWork_prepare {t : C.Tag} {piOk : Bool} (hs : stepWk s t (.prepare piOk) = some s') :
    s'.rqWork t + 1 ≤ s.rqWork t ∧ s'.inflight = s.inflight := by
  simp only [stepWk, prepareRq] at hs
  split at hs <;> [skip; cases hs]
  rename_i wk
  have hw : s.rqWork t =
      8 * (s.rqs t).req.ubbdReqSegments (s.rqs t).op + 24 + (s.pages.reqs t).work := by
    rw [State.rqWork, Rq.work, wk, Wk.work]
  rw [hw]
  split at hs
  · cases hs
    rw [rqWork_setRq]
    refine ⟨?_, rfl⟩
    show 1 + _ + 1 ≤ _
    omega
  · split at hs
    · cases hs
      rw [rqWork_setRq]
      refine ⟨?_, rfl⟩
      show 12 + _ + 1 ≤ _
      omega
    · obtain ⟨p, hp, rfl⟩ := Option.map_eq_some_iff.mp hs
      have hget := Pages.work_get hp
      refine ⟨?_, rfl⟩
      have hwk : ((s.setRq t { s.rqs t with
          piCnt := (s.rqs t).req.ubbdReqSegments (s.rqs t).op
          heapPi := decide ((s.rqs t).req.ubbdReqSegments (s.rqs t).op > inlinePiMax)
          wk := .pages }).rqs t).wk = .pages := by rw [State.setRq_rqs, if_pos rfl]
      show ((s.setRq t _).rqs t).work + (p.reqs t).work + 1 ≤ _
      rw [Rq.work, hwk, Wk.work]
      omega

/-- What a step of a request leaves to do for it, with its place on the list. -/
theorem wkStep_work {t : C.Tag} {l : WkLabel C} (hs : stepWk s t l = some s') :
    s'.rqWork t + 8 * s'.inflight.length + cost l.inner ≤ s.rqWork t + 8 * s.inflight.length + l.price := by
  have hbefore : s.rqWork t =
      (s.rqs t).wk.work ((s.rqs t).req.ubbdReqSegments (s.rqs t).op) + (s.pages.reqs t).work := rfl
  have hw := stepWk_cases hs
  cases hw with
  | refused wk => exact Nat.le_refl _
  | rqStart wk r =>
    have hin : (startRq s t r).inflight = s.inflight := by
      obtain ⟨op, w, -, heq⟩ := startRq_eq s t r
      rw [heq]
      rfl
    rw [rqWork_startRq, hin]
    show _ + _ + 0 ≤ _
    omega
  | noPi wk cnt =>
    obtain ⟨hwork, hin⟩ := rqWork_prepare hs
    rw [hin]
    show _ + _ + 1 ≤ _ + _ + 0
    omega
  | noData wk piOk cnt =>
    obtain ⟨hwork, hin⟩ := rqWork_prepare hs
    rw [hin]
    show _ + _ + 1 ≤ _ + _ + 0
    omega
  | get wk piOk cnt pos p hp =>
    obtain ⟨hwork, hin⟩ := rqWork_prepare hs
    rw [hin]
    show _ + _ + 1 ≤ _ + _ + 0
    omega
  | rqRead wk st =>
    rw [rqWork_setWk, hbefore, wk]
    exact Nat.le_refl _
  | pass wk st =>
    rw [rqWork_setWk, hbefore, wk]
    show 8 * _ + 24 + _ + 8 * s.inflight.length + 1 ≤ 8 * _ + 25 + _ + 8 * s.inflight.length + 0
    omega
  | refuse wk e =>
    rw [rqWork_setWk, hbefore, wk]
    show 1 + _ + 8 * s.inflight.length + 1 ≤ 8 * _ + 25 + _ + 8 * s.inflight.length + 0
    omega
  | gotPages wk pc =>
    rw [rqWork_setWk, hbefore, wk]
    show 12 + _ + 8 * s.inflight.length + 1 ≤ 13 + _ + 8 * s.inflight.length + 0
    omega
  | noPages wk pc =>
    rw [rqWork_setRq, hbefore, wk]
    show 1 + _ + 8 * s.inflight.length + 1 ≤ 13 + _ + 8 * s.inflight.length + 0
    omega
  | insert wk lock =>
    rw [hbefore, wk]
    show (s.setWk t .inserted).rqWork t + 8 * (s.inflight ++ [t]).length + 1 ≤ 12 + _ + 8 * s.inflight.length + 0
    rw [rqWork_setWk, Wk.work, List.length_append, List.length_singleton]
    omega
  | full wk =>
    rw [rqWork_setWk, hbefore, wk]
    show 2 + _ + 8 * s.inflight.length + 1 ≤ 3 + _ + 8 * s.inflight.length + 0
    omega
  | publish wk ring se =>
    rw [hbefore, wk]
    show (s.setRq t _).rqWork t + 8 * s.inflight.length + 1 ≤ 3 + _ + 8 * s.inflight.length + 0
    rw [rqWork_setRq]
    show 0 + (s.pages.reqs t).work + _ + 1 ≤ _
    omega
  | remove wk lock =>
    have hlen : (s.inflight.erase t).length ≤ s.inflight.length := List.erase_sublist.length_le
    rw [hbefore, wk]
    show (s.setWk t _).rqWork t + 8 * (s.inflight.erase t).length + 1 ≤ 2 + _ + 8 * s.inflight.length + 0
    rw [rqWork_setWk, Wk.work]
    omega
  | endRequest e wk =>
    rw [hbefore, wk]
    show (s.setWk t _).rqWork t + 8 * s.inflight.length + 1 ≤ 1 + _ + 8 * s.inflight.length + 0
    rw [rqWork_setWk, Wk.work]
    omega

/-- Steps of a request leave no more to do for the others and for the threads. -/
theorem wkStep_work_others {t : C.Tag} {l : WkLabel C} (hs : WkStep s t l s') :
    (∀ u, u ≠ t → s'.rqWork u = s.rqWork u) ∧ ∀ x, s'.thWork x ≤ s.thWork x := by
  refine ⟨fun u hu => ?_, fun x => ?_⟩
  · rw [State.rqWork, State.rqWork, hs.other hu, wkStep_pages hs hu]
  · rw [State.thWork, State.thWork, hs.control.2.1]
    have htmp : (s'.tmp x).length ≤ (s.tmp x).length := by
      cases hs with
      | rqStart wk r =>
        obtain ⟨op, w, -, heq⟩ := startRq_eq s t r
        rw [heq]
        exact Nat.le_refl _
      | remove wk lock => exact List.erase_sublist.length_le
      | _ => exact Nat.le_refl _
    omega

/-! ## Steps of threads -/

theorem thWork_setPc (s : State C) (x : Nat) (pc : Pc C) :
    (s.setPc x pc).thWork x = pc.work + 8 * (s.tmp x).length := by
  rw [State.thWork, State.setPc_threads, if_pos rfl]
  rfl

theorem By.work_next (by_ : By) : (by_.next : Pc C).work = 1 := by
  cases by_ <;> rfl

/-- What a step of a thread leaves to do for it, with the list. -/
theorem thStep_work {x : Nat} {l : ThLabel} (hs : ThStep s x l s') :
    s'.thWork x + 8 * s'.inflight.length + cost l.inner ≤ s.thWork x + 8 * s.inflight.length + l.price := by
  have hbefore : s.thWork x = (s.threads x).work + 8 * (s.tmp x).length := rfl
  -- a thread that moves, and leaves the lists alone
  have hmove : ∀ {q : State C} {p : Pc C}, q.thWork x = (s.setPc x p).thWork x → q.inflight = s.inflight →
      p.work + cost l.inner ≤ (s.threads x).work + l.price →
      q.thWork x + 8 * q.inflight.length + cost l.inner ≤ s.thWork x + 8 * s.inflight.length + l.price := by
    intro q p hq hin hpay
    rw [hq, hin, thWork_setPc, hbefore]
    omega
  have herase : ∀ {t : C.Tag}, t ∈ s.inflight → (s.inflight.erase t).length + 1 = s.inflight.length := fun ht => by
    rw [List.length_erase_of_mem ht]
    have := List.length_pos_of_mem ht
    omega
  cases hs with
  | back l call pc =>
    have hinner : l.inner = false := by cases l <;> first | rfl | cases call
    rw [hinner]
    exact Nat.le_add_right _ _
  | remSplice pc lock =>
    rw [hbefore, pc]
    show Pc.work ((s.setPc x Pc.remNext).threads x) + 8 * (Function.update s.tmp x s.inflight x).length + 8 * 0 + 1 ≤
      2 + _ + _ + 0
    rw [State.setPc_threads, if_pos rfl, Function.update_self, Pc.work]
    omega
  | remNext pc t ts tmp =>
    rw [hbefore, pc, tmp]
    show Pc.work ((s.setPc x (Pc.mark t By.removal)).threads x) + 8 * (Function.update s.tmp x ts x).length +
      8 * s.inflight.length + 1 ≤ 1 + 8 * (ts.length + 1) + 8 * s.inflight.length + 0
    rw [State.setPc_threads, if_pos rfl, Function.update_self, Pc.work]
    omega
  | last tid pc lock t mem tid_eq st empty =>
    have hlen := herase mem
    rw [hbefore, pc]
    show (s.setPc x (.setStopped t tid)).thWork x + 8 * (s.inflight.erase t).length + 1 ≤ 2 + _ + _ + 0
    rw [thWork_setPc, Pc.work]
    omega
  | fetch tid pc lock t mem tid_eq =>
    have hlen := herase mem
    rw [hbefore, pc]
    show (s.setPc x (.mark t (.entry tid))).thWork x + 8 * (s.inflight.erase t).length + 1 ≤ 2 + _ + _ + 0
    rw [thWork_setPc, Pc.work]
    omega
  | remFlushed force snap pc flushed =>
    refine hmove rfl rfl ?_
    rw [pc]
    cases force <;> exact Nat.le_of_ble_eq_true rfl
  | advance by_ pc =>
    refine hmove (p := by_.next) rfl rfl ?_
    rw [pc, By.work_next]
    exact Nat.le_refl _
  | released t by_ pc idle => exact hmove (p := .finish t by_) rfl rfl (by rw [pc]; exact Nat.le_refl _)
  | finish t by_ pc => exact hmove (p := .advance by_) rfl rfl (by rw [pc]; exact Nat.le_refl _)
  | _ => exact hmove rfl rfl (by simp only [*]; exact Nat.le_of_ble_eq_true rfl)

theorem thStep_work_others {x : Nat} {l : ThLabel} (hs : ThStep s x l s') :
    (∀ t, s'.rqWork t ≤ s.rqWork t) ∧ ∀ y, y ≠ x → s'.thWork y = s.thWork y := by
  have hpc : ∀ {q : State C} {p : Pc C} {y : Nat}, q.tmp = s.tmp → q.threads = (s.setPc x p).threads → y ≠ x →
      q.thWork y = s.thWork y := by
    intro q p y htmp hth hy
    rw [State.thWork, State.thWork, htmp, hth, State.setPc_threads, if_neg hy]
  have htmp : ∀ {q : State C} {pc : Pc C} {l : List C.Tag} {y : Nat}, q.tmp = Function.update s.tmp x l →
      q.threads = (s.setPc x pc).threads → y ≠ x → q.thWork y = s.thWork y := by
    intro q pc l y htmp hth hy
    rw [State.thWork, State.thWork, htmp, hth, State.setPc_threads, if_neg hy, Function.update_of_ne hy]
  refine ⟨fun t => ?_, fun y hy => ?_⟩
  · obtain ⟨hreq, hop, -⟩ := thStep_rqs hs t
    have hwk : (s'.rqs t).work ≤ (s.rqs t).work := by
      rw [Rq.work, Rq.work, hreq, hop]
      rcases (hs.wk t).2 with hw | ⟨-, hw⟩
      · rw [hw]
      · rw [hw]
        exact Nat.zero_le _
    have hpages : (s'.pages.reqs t).work ≤ (s.pages.reqs t).work := by
      cases hs with
      | mark u by_ pc =>
        show (((Pages.step s.pages (.release u)).getD s.pages).reqs t).work ≤ _
        cases hp : Pages.step s.pages (.release u) with
        | none => exact Nat.le_refl _
        | some p =>
          by_cases htu : t = u
          · rw [htu]
            exact Pages.work_release hp
          · exact Nat.le_of_eq (congrArg Pages.Req.work (Pages.step_other hp htu))
      | _ => exact Nat.le_refl _
    exact Nat.add_le_add hwk hpages
  · cases hs with
    | back l call pc => rfl
    | remSplice pc lock => exact htmp rfl rfl hy
    | remNext pc t ts tmp => exact htmp rfl rfl hy
    | released t by_ pc idle => exact hpc (p := .finish t by_) rfl rfl hy
    | finish t by_ pc => exact hpc (p := .advance by_) rfl rfl hy
    | _ => exact hpc rfl rfl hy

/-! ## Runs -/

/-- The thread of a label. -/
def Label.thread : Label C → Option Nat
  | .th x _ => some x
  | _ => none

theorem work_le_of_rq {X : Finset Nat} {t : C.Tag} {a b : Nat}
    (ht : s'.rqWork t + 8 * s'.inflight.length + a ≤ s.rqWork t + 8 * s.inflight.length + b)
    (hrq : ∀ u, u ≠ t → s'.rqWork u ≤ s.rqWork u) (hth : ∀ x, s'.thWork x ≤ s.thWork x) :
    s'.work X + a ≤ s.work X + b := by
  have hrqs := Lts.sum_le_of_one (Finset.mem_univ t) (fun u _ hu => hrq u hu)
    (a := 8 * s'.inflight.length + a) (b := 8 * s.inflight.length + b) (by omega)
  have hths : ∑ x ∈ X, s'.thWork x ≤ ∑ x ∈ X, s.thWork x := Finset.sum_le_sum fun x _ => hth x
  rw [State.work, State.work]
  omega

theorem work_le_of_th {X : Finset Nat} {x : Nat} (hx : x ∈ X) {a b : Nat}
    (hth : s'.thWork x + 8 * s'.inflight.length + a ≤ s.thWork x + 8 * s.inflight.length + b)
    (hrq : ∀ t, s'.rqWork t ≤ s.rqWork t) (hoth : ∀ y, y ≠ x → s'.thWork y = s.thWork y) :
    s'.work X + a ≤ s.work X + b := by
  have hths := Lts.sum_le_of_one hx (fun y _ hy => Nat.le_of_eq (hoth y hy))
    (a := 8 * s'.inflight.length + a) (b := 8 * s.inflight.length + b) (by omega)
  have hrqs : ∑ t, s'.rqWork t ≤ ∑ t, s.rqWork t := Finset.sum_le_sum fun t _ => hrq t
  rw [State.work, State.work]
  omega

/-- Every step is paid: a step of the driver by the work that was left, any other by
its price. -/
theorem work_step {X : Finset Nat} {a : Label C} (h : Stocked s) (ha : ∀ x, a.thread = some x → x ∈ X)
    (hs : step s a = some s') : s'.work X + cost a.inner ≤ s.work X + a.price := by
  cases step_cases hs with
  | rq hw =>
    obtain ⟨hrq, hth⟩ := wkStep_work_others hw
    exact work_le_of_rq (wkStep_work hs) (fun u hu => Nat.le_of_eq (hrq u hu)) hth
  | th hx =>
    obtain ⟨hrq, hth⟩ := thStep_work_others hx
    exact work_le_of_th (ha _ rfl) (thStep_work hx) hrq hth
  | page l hl p hp =>
    have hcalls : l.calls = false := by cases l <;> first | rfl | cases hl
    have hlt := Pages.work_step hcalls (h.sourced.spare l.req) hp
    refine work_le_of_rq (t := l.req) ?_ (fun u hu => Nat.le_of_eq ?_) fun _ => Nat.le_refl _
    · show (s.rqs l.req).work + (p.reqs l.req).work + 8 * s.inflight.length + 1 ≤
        (s.rqs l.req).work + (s.pages.reqs l.req).work + 8 * s.inflight.length + 0
      omega
    · show (s.rqs u).work + (p.reqs u).work = (s.rqs u).work + (s.pages.reqs u).work
      rw [Pages.step_other hp hu]
  | pad pos ring => exact Nat.le_refl _
  | open_ => exact Nat.le_refl _
  | close => exact Nat.le_refl _

theorem work_init (C : Conf) (n r : Nat) (X : Finset Nat) : (initState C n r).work X = 0 := by
  have hrq : ∀ t, (initState C n r).rqWork t = 0 := fun _ => rfl
  have hth : ∀ x, (initState C n r).thWork x = 0 := fun _ => rfl
  simp only [State.work, hrq, hth, Finset.sum_const_zero]
  rfl

/-- In every run, of any number of requests and threads, the driver makes no more
steps than what was asked of it is worth. -/
theorem work_le_price (C : Conf) {n : Nat} (hn : n ≤ 2 ^ 31) (r : Nat) (as : List (Label C)) {s : State C}
    (h : (lts C).exec (initState C n r) as = some s) : as.countP Label.inner ≤ (as.map Label.price).sum := by
  let X := (as.filterMap Label.thread).toFinset
  have hthreads : ∀ a ∈ as, ∀ x, a.thread = some x → x ∈ X := fun a ha x hx =>
    List.mem_toFinset.mpr (List.mem_filterMap.mpr ⟨a, ha, hx⟩)
  have hrun : as.countP Label.inner + s.work X ≤ (initState C n r).work X + (as.map Label.price).sum :=
    Lts.countP_le_credit (State.work X) (fun _ _ _ hi ha hs => ⟨hi.step hs, work_step hi ha hs⟩)
      (stocked_init hn r) hthreads h
  rw [work_init] at hrun
  omega

/-- A write of one segment, from its start to its end. -/
theorem work_le_price_writeDone :
    writeDone.countP Label.inner ≤ (writeDone.map Label.price).sum ∧
      (writeDone.countP Label.inner, (writeDone.map Label.price).sum) = (18, 35) :=
  ⟨work_le_price (smallConf 1) (n := 8) (by decide) 6 writeDone rfl, by decide⟩

end Ubbd.Queue

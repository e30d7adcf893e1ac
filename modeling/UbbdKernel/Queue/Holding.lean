import UbbdKernel.Pages.Lost
import UbbdKernel.Queue.Leak

/-!
# What a submitted request has

From the moment `queue_req_prepare` returns until its pages are released, a
request has a data page index for each of its segments, alone, whatever
becomes of other requests (`Holding`). That a request which found the ring full
may start again with the indices of its last attempt lost does not matter here.
-/

namespace Ubbd.Queue

variable {C : Conf}

/-- The request has an index for each of its segments. -/
def Has (r : Rq C.pageSize) (q : Pages.Req) : Prop :=
  (r.piCnt = 0 ∧ q.pc = .idle ∧ q.pi = []) ∨ (0 < r.piCnt ∧ q.pc = .ready ∧ q.pi.length = r.piCnt)

/-- What a request has, by what its worker has done. -/
def Wants (r : Rq C.pageSize) (q : Pages.Req) : Wk → Prop
  | .queued | .passed => q.pc = .idle ∧ q.pi = []
  | .pages => 0 < r.piCnt ∧ Pages.Calling r.piCnt q
  | .prepared | .inserted | .full | .published => Has r q
  | _ => True

/-- `queue_req_prepare` has counted the segments. -/
def Wk.counted : Wk → Bool
  | .pages | .prepared | .inserted | .full | .published => true
  | _ => false

/-- The operation is that of the block layer's request, and `pi_cnt` the number
of its segments. -/
structure Known (r : Rq C.pageSize) : Prop where
  op : r.wk.stage ≠ .free → ubbdOp r.req.op = some r.op
  cnt : r.wk.counted = true → r.piCnt = r.req.ubbdReqSegments r.op

structure Holding (s : State C) : Prop where
  owned : Pages.Owned s.pages
  wants : ∀ t, (∀ x, (s.threads x).releases ≠ some t) → Wants (s.rqs t) (s.pages.reqs t) (s.rqs t).wk
  known : ∀ t, Known (s.rqs t)

theorem holding_init {n : Nat} (hn : n ≤ 2 ^ 31) (r : Nat) : Holding (initState C n r) where
  owned := Pages.owned_init hn r _
  wants _ _ := trivial
  known _ := ⟨fun h => absurd rfl h, nofun⟩

theorem Has.pc {r : Rq C.pageSize} {q : Pages.Req} (h : Has r q) : q.pc = .idle ∨ q.pc = .ready := by
  rcases h with ⟨-, hpc, -⟩ | ⟨-, hpc, -⟩
  · exact .inl hpc
  · exact .inr hpc

theorem Has.length {r : Rq C.pageSize} {q : Pages.Req} (h : Has r q) : q.pi.length = r.piCnt := by
  rcases h with ⟨hcnt, -, hpi⟩ | ⟨-, -, hlen⟩
  · rw [hcnt, hpi]
    rfl
  · exact hlen

/-- What the request has does not depend on its other fields. -/
theorem Wants.congr {r r' : Rq C.pageSize} {q : Pages.Req} {w : Wk} (hc : r'.piCnt = r.piCnt) (h : Wants r q w) :
    Wants r' q w := by
  have hhas : Has r q → Has r' q := fun h => by
    unfold Has
    rw [hc]
    exact h
  cases w with
  | pages => exact (by rw [hc]; exact h : 0 < r'.piCnt ∧ Pages.Calling r'.piCnt q)
  | prepared => exact hhas h
  | inserted => exact hhas h
  | full => exact hhas h
  | published => exact hhas h
  | _ => exact h

/-! ## Requests -/

theorem startRq_known (s : State C) (t : C.Tag) (r : Request C.pageSize) : Known ((startRq s t r).rqs t) := by
  unfold startRq
  split
  · rename_i op hop
    rw [State.setRq_rqs, if_pos rfl]
    exact ⟨fun _ => hop, nofun⟩
  · rw [State.setRq_rqs, if_pos rfl]
    exact ⟨fun h => absurd rfl h, nofun⟩

theorem known_prepare {s s' : State C} {t : C.Tag} {piOk : Bool} (h : Known (s.rqs t))
    (hs : stepWk s t (.prepare piOk) = some s') : Known (s'.rqs t) := by
  simp only [stepWk, prepareRq] at hs
  split at hs <;> [skip; cases hs]
  rename_i wk
  have hop := h.op (by rw [wk]; decide)
  split at hs
  · cases hs
    rw [State.setRq_rqs, if_pos rfl]
    exact ⟨fun _ => hop, fun h => absurd h Bool.false_ne_true⟩
  · split at hs
    · cases hs
      rw [State.setRq_rqs, if_pos rfl]
      exact ⟨fun _ => hop, fun _ => rfl⟩
    · obtain ⟨p, -, rfl⟩ := Option.map_eq_some_iff.mp hs
      show Known ((s.setRq t _).rqs t)
      rw [State.setRq_rqs, if_pos rfl]
      exact ⟨fun _ => hop, fun _ => rfl⟩

/-- The worker goes on, or ends the request. -/
theorem Known.setWk {s : State C} {t : C.Tag} (h : Known (s.rqs t)) {w : Wk}
    (hop : w.stage ≠ .free → (s.rqs t).wk.stage ≠ .free) (hcnt : w.counted = true → (s.rqs t).wk.counted = true) :
    Known ((s.setWk t w).rqs t) := by
  rw [State.setWk_rqs, if_pos rfl]
  exact ⟨fun hw => h.op (hop hw), fun hw => h.cnt (hcnt hw)⟩

theorem known_stepWk {s s' : State C} {t : C.Tag} {l : WkLabel C} (h : Known (s.rqs t))
    (hs : stepWk s t l = some s') : Known (s'.rqs t) := by
  have hw := stepWk_cases hs
  cases hw with
  | refused wk => exact h
  | rqStart wk r => exact startRq_known s t r
  | noPi wk cnt => exact known_prepare h hs
  | noData wk piOk cnt => exact known_prepare h hs
  | get wk piOk cnt pos p hp => exact known_prepare h hs
  | noPages wk pc =>
    have hop := h.op (by rw [wk]; nofun)
    rw [State.setRq_rqs, if_pos rfl]
    exact ⟨fun _ => hop, nofun⟩
  | publish wk ring se =>
    have hop := h.op (by rw [wk]; nofun)
    have hcnt := h.cnt (by rw [wk]; rfl)
    show Known ((s.setRq t _).rqs t)
    rw [State.setRq_rqs, if_pos rfl]
    exact ⟨fun _ => hop, fun _ => hcnt⟩
  | rqRead wk st => exact h.setWk (fun hne => absurd rfl hne) nofun
  | pass wk st => exact h.setWk (fun _ => by rw [wk]; nofun) nofun
  | refuse wk e => exact h.setWk (fun _ => by rw [wk]; nofun) nofun
  | gotPages wk pc => exact h.setWk (fun _ => by rw [wk]; nofun) fun _ => by rw [wk]; rfl
  | insert wk lock => exact h.setWk (fun _ => by rw [wk]; nofun) fun _ => by rw [wk]; rfl
  | full wk => exact h.setWk (fun _ => by rw [wk]; nofun) fun _ => by rw [wk]; rfl
  | remove wk lock => exact h.setWk (fun _ => by rw [wk]; nofun) nofun
  | endRequest e wk => exact h.setWk (fun hne => absurd rfl hne) nofun

/-- Steps of a request leave what the others have alone. -/
theorem wkStep_pages {s s' : State C} {t : C.Tag} {l : WkLabel C} (hs : WkStep s t l s') {u : C.Tag} (hu : u ≠ t) :
    s'.pages.reqs u = s.pages.reqs u := by
  cases hs with
  | rqStart wk r =>
    obtain ⟨op, w, -, heq⟩ := startRq_eq s t r
    rw [heq]
    exact (Pages.State.setReq_reqs ..).trans (if_neg hu)
  | get wk piOk cnt pos p hp => exact Pages.step_other hp hu
  | _ => rfl

theorem wkStep_owned {s s' : State C} {t : C.Tag} {l : WkLabel C} (h : Pages.Owned s.pages) (hs : WkStep s t l s') :
    Pages.Owned s'.pages := by
  cases hs with
  | rqStart wk r =>
    obtain ⟨op, w, -, heq⟩ := startRq_eq s t r
    rw [heq]
    exact h.reset t
  | get wk piOk cnt pos p hp => exact h.step (Pages.step_effect hp)
  | _ => exact h

theorem wkStep_wants {s s' : State C} {t : C.Tag} {l : WkLabel C} (h : Wants (s.rqs t) (s.pages.reqs t) (s.rqs t).wk)
    (hs : WkStep s t l s') : Wants (s'.rqs t) (s'.pages.reqs t) (s'.rqs t).wk := by
  cases hs with
  | refused wk => exact h
  | rqStart wk r =>
    obtain ⟨op, w, hw, heq⟩ := startRq_eq s t r
    rw [heq, State.setRq_rqs, if_pos rfl]
    show Wants _ ((s.pages.setReq t Pages.Req.fresh).reqs t) w
    rw [Pages.State.setReq_reqs, if_pos rfl]
    rcases hw with rfl | rfl
    · exact ⟨rfl, rfl⟩
    · trivial
  | get wk piOk cnt pos p hp =>
    rw [wk] at h
    show Wants _ (p.reqs t) _
    rw [State.setRq_rqs, if_pos rfl]
    exact ⟨pos, Pages.step_get hp h.2⟩
  | gotPages wk pc =>
    rw [wk] at h
    rw [State.setWk_rqs, if_pos rfl]
    have hlen := h.2
    rw [Pages.Calling, pc] at hlen
    exact .inr ⟨h.1, pc, hlen⟩
  | noData wk piOk cnt =>
    rw [wk] at h
    rw [State.setRq_rqs, if_pos rfl]
    exact .inl ⟨rfl, h⟩
  | rqRead wk st =>
    rw [State.setWk_rqs, if_pos rfl]
    trivial
  | refuse wk e =>
    rw [State.setWk_rqs, if_pos rfl]
    trivial
  | noPi wk cnt =>
    rw [State.setRq_rqs, if_pos rfl]
    trivial
  | noPages wk pc =>
    rw [State.setRq_rqs, if_pos rfl]
    trivial
  | remove wk lock =>
    show Wants ((s.setWk t _).rqs t) _ ((s.setWk t _).rqs t).wk
    rw [State.setWk_rqs, if_pos rfl]
    trivial
  | endRequest e wk =>
    show Wants ((s.setWk t _).rqs t) _ ((s.setWk t _).rqs t).wk
    rw [State.setWk_rqs, if_pos rfl]
    trivial
  | pass wk st =>
    rw [wk] at h
    rw [State.setWk_rqs, if_pos rfl]
    exact h
  | insert wk lock =>
    rw [wk] at h
    show Wants ((s.setWk t _).rqs t) _ ((s.setWk t _).rqs t).wk
    rw [State.setWk_rqs, if_pos rfl]
    exact h
  | full wk =>
    rw [wk] at h
    rw [State.setWk_rqs, if_pos rfl]
    exact h
  | publish wk ring se =>
    rw [wk] at h
    show Wants ((s.setRq t _).rqs t) _ ((s.setRq t _).rqs t).wk
    rw [State.setRq_rqs, if_pos rfl]
    exact h

theorem holding_rq {s s' : State C} {t : C.Tag} {l : WkLabel C} (ho : Own s) (h : Holding s)
    (hs : stepWk s t l = some s') : Holding s' := by
  have hw := stepWk_cases hs
  refine ⟨wkStep_owned h.owned hw, fun u hu => ?_, fun u => ?_⟩
  · rw [hw.control.2.1] at hu
    by_cases hut : u = t
    · rw [hut]
      exact wkStep_wants (h.wants t (ho.not_releases hw.wk_ne)) hw
    · rw [hw.other hut, wkStep_pages hw hut]
      exact h.wants u hu
  · by_cases hut : u = t
    · rw [hut]
      exact known_stepWk (h.known t) hs
    · rw [hw.other hut]
      exact h.known u

/-! ## Threads and calls -/

/-- A step of a thread leaves a request as it is, but for `heapPi`, and for the
end of a request the thread has. -/
theorem thStep_rqs {s s' : State C} {x : Nat} {l : ThLabel} (hs : ThStep s x l s') (u : C.Tag) :
    (s'.rqs u).req = (s.rqs u).req ∧ (s'.rqs u).op = (s.rqs u).op ∧ (s'.rqs u).piCnt = (s.rqs u).piCnt ∧
      (s'.rqs u).tid = (s.rqs u).tid ∧ (s'.rqs u).se = (s.rqs u).se ∧ (s'.rqs u).start = (s.rqs u).start := by
  cases hs with
  | released t by_ pc idle =>
    by_cases hu : u = t <;> simp [State.setPc, State.setRq_rqs, hu]
  | finish t by_ pc =>
    by_cases hu : u = t <;> simp [State.setPc, finishRq, State.setWk_rqs, hu]
  | _ => exact ⟨rfl, rfl, rfl, rfl, rfl, rfl⟩

theorem thStep_known {s s' : State C} {x : Nat} {l : ThLabel} (hs : ThStep s x l s') {u : C.Tag}
    (h : Known (s.rqs u)) : Known (s'.rqs u) := by
  obtain ⟨hreq, hop, hcnt, -, -, -⟩ := thStep_rqs hs u
  rcases (hs.wk u).2 with hw | ⟨-, hw⟩
  · exact ⟨by rw [hw, hreq, hop]; exact h.op, by rw [hw, hreq, hop, hcnt]; exact h.cnt⟩
  · rw [show (s'.rqs u) = s'.rqs u from rfl]
    exact ⟨by rw [hw]; exact fun hne => absurd rfl hne, by rw [hw]; nofun⟩

/-- The call of `ubbd_req_release`, and what it leaves alone. -/
theorem Holding.call_release {s : State C} (h : Holding s) (t : C.Tag) :
    Pages.Owned ((Pages.step s.pages (.release t)).getD s.pages) ∧
      ∀ u, u ≠ t → ((Pages.step s.pages (.release t)).getD s.pages).reqs u = s.pages.reqs u := by
  cases hp : Pages.step s.pages (.release t) with
  | none => exact ⟨h.owned, fun _ _ => rfl⟩
  | some p => exact ⟨h.owned.step (Pages.step_effect hp), fun u hu => Pages.step_other hp hu⟩

/-- Who releases nothing after the step of the thread `x`, and did not before. -/
theorem releases_setPc {s : State C} {x : Nat} {pc : Pc C} {u : C.Tag}
    (hu : ∀ y, ((s.setPc x pc).threads y).releases ≠ some u) (hx : (s.threads x).releases ≠ some u) (y : Nat) :
    (s.threads y).releases ≠ some u := by
  by_cases hyx : y = x
  · rw [hyx]
    exact hx
  · have := hu y
    rwa [State.setPc_threads, if_neg hyx] at this

theorem thStep_wants {s s' : State C} {x : Nat} {l : ThLabel} (ho : Own s) (h : Holding s) (hs : ThStep s x l s')
    {u : C.Tag} (hu : ∀ y, (s'.threads y).releases ≠ some u) :
    Wants (s'.rqs u) (s'.pages.reqs u) (s'.rqs u).wk := by
  cases hs with
  | back l call pc => exact h.wants u hu
  | mark t by_ pc =>
    have hut : u ≠ t := by
      rintro rfl
      have := hu x
      rw [show (({ s.setPc x (.release u by_) with
          ring := Ring.setDone C.header s.ring (s.rqs u).se
          pages := (Pages.step s.pages (.release u)).getD s.pages } : State C).threads x) =
        (s.setPc x (.release u by_)).threads x from rfl, State.setPc_threads, if_pos rfl] at this
      exact this rfl
    show Wants (s.rqs u) (((Pages.step s.pages (.release t)).getD s.pages).reqs u) (s.rqs u).wk
    rw [(h.call_release t).2 u hut]
    exact h.wants u (releases_setPc hu (by rw [pc]; exact nofun))
  | released t by_ pc idle =>
    have hx := hu x
    rw [State.setPc_threads, if_pos rfl] at hx
    have hut : u ≠ t := fun he => hx (congrArg some he.symm)
    show Wants ((s.setRq t _).rqs u) (s.pages.reqs u) ((s.setRq t _).rqs u).wk
    rw [State.setRq_rqs, if_neg hut]
    refine h.wants u (releases_setPc (show ∀ y, ((s.setPc x (.finish t by_)).threads y).releases ≠ some u from hu) ?_)
    rw [pc]
    exact hx
  | finish t by_ pc =>
    have hwk := (ho.of_holds (x := x) (t := t) (by rw [pc]; rfl)).1
    show Wants ((finishRq s t by_).rqs u) (s.pages.reqs u) ((finishRq s t by_).rqs u).wk
    rw [finishRq_wk by_ hwk u]
    split
    · trivial
    · rename_i hut
      have hrq : (finishRq s t by_).rqs u = s.rqs u := (State.setWk_rqs ..).trans (if_neg hut)
      rw [hrq]
      refine h.wants u (releases_setPc (show ∀ y, ((s.setPc x (.advance by_)).threads y).releases ≠ some u from hu) ?_)
      rw [pc]
      exact fun he => hut (Option.some.inj he).symm
  | remFlushed force snap pc flushed =>
    exact h.wants u (releases_setPc hu (by rw [pc]; exact nofun))
  | advance by_ pc =>
    exact h.wants u (releases_setPc hu (by rw [pc]; exact nofun))
  | _ => exact h.wants u (releases_setPc hu (by simp only [*]; exact nofun))

theorem holding_th {s s' : State C} {x : Nat} {l : ThLabel} (ho : Own s) (h : Holding s) (hs : ThStep s x l s') :
    Holding s' := by
  refine ⟨?_, fun u hu => thStep_wants ho h hs hu, fun u => thStep_known hs (h.known u)⟩
  cases hs with
  | mark t by_ pc => exact (h.call_release t).1
  | _ => exact h.owned

/-- A step inside a call leaves a request alone that has all its indices. -/
theorem Has.page {s : State C} {l : Pages.Label C.Tag} {p : Pages.State C.Tag} {r : Rq C.pageSize} {t : C.Tag}
    (h : Has r (s.pages.reqs t)) (hl : inside l = true) (hp : Pages.step s.pages l = some p) :
    p.reqs t = s.pages.reqs t := by
  have hcalls : l.calls = false := by cases l <;> first | rfl | cases hl
  by_cases htl : t = l.req
  · have hgoes := Pages.step_goes hcalls hp
    rw [← htl] at hgoes
    rcases h.pc with hpc | hpc
    · exact absurd hpc hgoes.running.1
    · exact absurd hpc hgoes.running.2
  · exact Pages.step_other hp htl

theorem holding_page {s : State C} {l : Pages.Label C.Tag} {p : Pages.State C.Tag} (h : Holding s)
    (hl : inside l = true) (hp : Pages.step s.pages l = some p) : Holding { s with pages := p } := by
  have hcalls : l.calls = false := by cases l <;> first | rfl | cases hl
  refine ⟨h.owned.step (Pages.step_effect hp), fun t ht => ?_, h.known⟩
  have hwants := h.wants t ht
  have hhas : Has (s.rqs t) (s.pages.reqs t) → Has (s.rqs t) (p.reqs t) := fun hh => by
    rw [hh.page hl hp]
    exact hh
  have hgoes := Pages.step_goes hcalls hp
  -- a request that has none is not in a call
  have hnone : (s.pages.reqs t).pc = .idle ∧ (s.pages.reqs t).pi = [] → (p.reqs t).pc = .idle ∧ (p.reqs t).pi = [] := by
    rintro ⟨hpc, hpi⟩
    rw [Pages.step_other hp fun htl => hgoes.running.1 (htl ▸ hpc)]
    exact ⟨hpc, hpi⟩
  show Wants (s.rqs t) (p.reqs t) (s.rqs t).wk
  generalize (s.rqs t).wk = w at hwants ⊢
  cases w with
  | queued => exact hnone hwants
  | passed => exact hnone hwants
  | pages =>
    refine ⟨hwants.1, ?_⟩
    by_cases htl : t = l.req
    · rw [← htl] at hgoes
      exact hgoes.calling _ hwants.2
    · rw [Pages.step_other hp htl]
      exact hwants.2
  | prepared => exact hhas hwants
  | inserted => exact hhas hwants
  | full => exact hhas hwants
  | published => exact hhas hwants
  | _ => trivial

theorem holding_step {s s' : State C} {a : Label C} (ho : Own s) (h : Holding s) (hs : step s a = some s') :
    Holding s' := by
  cases hq : step_cases hs with
  | rq hw => exact holding_rq ho h hs
  | th ht => exact holding_th ho h ht
  | page l hl p hp => exact holding_page h hl hp
  | _ => exact ⟨h.owned, h.wants, h.known⟩

end Ubbd.Queue

import UbbdKernel.Pages.Teardown
import UbbdKernel.Queue.Holding

/-!
# The end of a queue

`ubbd_dev_destroy` waits for the work of the queue before it frees the data
pages. A call of `ubbd_get_data_pages` runs within the work of its request
(`Stocked.settled`), so no call has a spare page then, and `ubbd_page_release`
frees all pages, also those whose index a request has lost
(`page_release_frees_all`). Of the run of the queue nothing is assumed.
-/

namespace Ubbd.Queue

variable {C : Conf} {s s' : State C}

/-- Every page that is allocated is in the array or with a running call, and
calls run only while their request waits for them. -/
structure Stocked (s : State C) : Prop where
  owned : Pages.Owned s.pages
  sourced : Pages.Sourced s.pages
  settled : ∀ t, (s.rqs t).wk ≠ .pages → (s.pages.reqs t).pc.getting = false

theorem stocked_init {n : Nat} (hn : n ≤ 2 ^ 31) (r : Nat) : Stocked (initState C n r) where
  owned := Pages.owned_init hn r _
  sourced := Pages.sourced_init n r
  settled _ _ := rfl

/-! ## Steps of the calls -/

theorem getting_of_releasing {q : Pages.Req} (h : Pages.Releasing q) : q.pc.getting = false := by
  rcases h with h | ⟨h, -⟩
  · rw [h]
    rfl
  · rw [h]
    rfl

/-- A step inside a call goes on with the call. -/
theorem getting_page {p p' : Pages.State C.Tag} {l : Pages.Label C.Tag} (hl : inside l = true)
    (hs : Pages.step p l = some p') {t : C.Tag} (h : (p.reqs t).pc.getting = false) :
    (p'.reqs t).pc.getting = false := by
  have hcalls : l.calls = false := by cases l <;> first | rfl | cases hl
  by_cases ht : t = l.req
  · have hgoes := Pages.step_goes hcalls hs
    rw [← ht] at hgoes
    refine getting_of_releasing (hgoes.releasing (.inl ?_))
    obtain ⟨hidle, hready⟩ := hgoes.running
    generalize (p.reqs t).pc = pc at h hidle hready
    cases pc with
    | release => rfl
    | idle => exact absurd rfl hidle
    | ready => exact absurd rfl hready
    | _ => cases h
  · rw [Pages.step_other hs ht]
    exact h

/-- `ubbd_req_release` is called. -/
theorem getting_release {p p' : Pages.State C.Tag} {t : C.Tag} (hs : Pages.step p (.release t) = some p')
    {u : C.Tag} (h : (p.reqs u).pc.getting = false) : (p'.reqs u).pc.getting = false := by
  simp only [Pages.step] at hs
  split at hs <;> cases hs
  rw [Pages.State.setReq_reqs]
  split
  · rfl
  · exact h

theorem Stocked.call_release (h : Stocked s) (t : C.Tag) :
    Pages.Owned ((Pages.step s.pages (.release t)).getD s.pages) ∧
      Pages.Sourced ((Pages.step s.pages (.release t)).getD s.pages) ∧
      ∀ u, (s.pages.reqs u).pc.getting = false →
        (((Pages.step s.pages (.release t)).getD s.pages).reqs u).pc.getting = false := by
  cases hp : Pages.step s.pages (.release t) with
  | none => exact ⟨h.owned, h.sourced, fun _ hu => hu⟩
  | some p => exact ⟨h.owned.step (Pages.step_effect hp), h.sourced.step h.owned hp, fun _ => getting_release hp⟩

/-! ## Steps of the queue -/

theorem wkStep_sourced {t : C.Tag} {l : WkLabel C} (h : Stocked s) (hs : WkStep s t l s') :
    Pages.Sourced s'.pages := by
  cases hs with
  | rqStart wk r =>
    obtain ⟨op, w, -, heq⟩ := startRq_eq s t r
    rw [heq]
    exact h.sourced.reset ((h.sourced.spare t).none (h.settled t (by rw [wk]; decide)))
  | get wk piOk cnt pos p hp => exact h.sourced.step h.owned hp
  | _ => exact h.sourced

/-- The request waits for its call from `queue_req_prepare` on, until the call
has returned. -/
theorem wkStep_settled {t : C.Tag} {l : WkLabel C} (h : Stocked s) (hs : WkStep s t l s')
    (hw : (s'.rqs t).wk ≠ .pages) : (s'.pages.reqs t).pc.getting = false := by
  cases hs with
  | refused wk => exact h.settled t hw
  | rqStart wk r =>
    obtain ⟨op, w, -, heq⟩ := startRq_eq s t r
    rw [heq]
    show ((s.pages.setReq t Pages.Req.fresh).reqs t).pc.getting = false
    rw [Pages.State.setReq_reqs, if_pos rfl]
    rfl
  | get wk piOk cnt pos p hp =>
    refine absurd ?_ hw
    show ((s.setRq t _).rqs t).wk = .pages
    rw [State.setRq_rqs, if_pos rfl]
  | gotPages wk pc =>
    show (s.pages.reqs t).pc.getting = false
    rw [pc]
    rfl
  | noPages wk pc =>
    show (s.pages.reqs t).pc.getting = false
    rw [pc]
    rfl
  | endRequest e wk => exact h.settled t (by simp [wk])
  | _ => exact h.settled t (by simp only [*]; decide)

theorem Stocked.step {a : Label C} (h : Stocked s) (hs : step s a = some s') : Stocked s' := by
  cases step_cases hs with
  | rq hw =>
    rename_i t l
    refine ⟨wkStep_owned h.owned hw, wkStep_sourced h hw, fun u hu => ?_⟩
    by_cases hut : u = t
    · subst hut
      exact wkStep_settled h hw hu
    · rw [wkStep_pages hw hut]
      rw [hw.other hut] at hu
      exact h.settled u hu
  | th hx =>
    -- a thread leaves a request that waits for its call alone
    have hwk : ∀ u, (s'.rqs u).wk ≠ .pages → (s.rqs u).wk ≠ .pages := by
      intro u hu
      rcases (hx.wk u).2 with heq | ⟨heq, -⟩
      · rw [← heq]
        exact hu
      · rw [heq]
        decide
    cases hx with
    | mark t by_ pc =>
      obtain ⟨ho, hsrc, hget⟩ := h.call_release t
      exact ⟨ho, hsrc, fun u hu => hget u (h.settled u (hwk u hu))⟩
    | _ => exact ⟨h.owned, h.sourced, fun u hu => h.settled u (hwk u hu)⟩
  | page l hl p hp =>
    exact ⟨h.owned.step (Pages.step_effect hp), h.sourced.step h.owned hp,
      fun t ht => getting_page hl hp (h.settled t ht)⟩
  | _ => exact ⟨h.owned, h.sourced, h.settled⟩

/-- When no work of the queue is queued or running, as after `destroy_workqueue`. -/
theorem page_release_frees_all (C : Conf) {n : Nat} (hn : n ≤ 2 ^ 31) (r : Nat) (as : List (Label C)) :
    (lts C).States (fun s => (∀ t, (s.rqs t).wk.active = false) → Pages.TornDown s.pages.pool)
      (initState C n r) as :=
  (Lts.states_of_steps (fun _ _ _ hi hs _ => hi.step hs) (stocked_init hn r) (Lts.steps_true _ as)).mono
    fun s hi hidle => hi.sourced.tornDown hi.owned fun t => hi.settled t fun hw => by
      have := hidle t
      rw [hw] at this
      cases this

/-- The ring is full for a second write, whose next start is refused by a stop:
the page whose index it has lost is freed with the other one. -/
theorem page_release_frees_lost :
    (lts (smallConf 2)).States (fun s => (∀ t, (s.rqs t).wk.active = false) → Pages.TornDown s.pages.pool)
        (initState (smallConf 2) 8 6) (writeFull ++ [.th 0 .stopRead, .th 0 .stopSet, .rq ⟨1, by decide⟩ .status,
          .rq ⟨1, by decide⟩ .endRequest]) ∧
      ((lts (smallConf 2)).exec (initState (smallConf 2) 8 6) (writeFull ++ [.th 0 .stopRead, .th 0 .stopSet,
          .rq ⟨1, by decide⟩ .status, .rq ⟨1, by decide⟩ .endRequest])).map
        (fun s => ((s.rqs ⟨0, by decide⟩).wk.active, (s.rqs ⟨1, by decide⟩).wk.active,
          (Pages.ubbdPageRelease s.pages.pool).2)) = some (false, false, [0, 1]) :=
  ⟨page_release_frees_all _ (by decide) _ _, by decide +kernel⟩

end Ubbd.Queue

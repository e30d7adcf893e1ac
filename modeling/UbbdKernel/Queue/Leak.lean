import UbbdKernel.Pages.Calls
import UbbdKernel.Pages.Owner
import UbbdKernel.Queue.Once

/-!
# Who has the data pages

A worker that gives a request up has to give back its data pages and its `pi`
array, since the next `ubbd_queue_rq` wipes the private data. The exits of
`ubbd_queue_workfn` do so, but for the one taken when the command ring is
full: there the request goes off the list and is requeued with all it has.
`Paged` says what a request has at each point, and `noLeak_iff` that nothing
leaks exactly in the runs where that exit is only taken by requests without
data.
-/

namespace Ubbd.Queue

variable {C : Conf}

/-- The worker is preparing the request. -/
def Preparing (s : State C) (t : C.Tag) : Prop := (s.rqs t).wk = .pages ∨ (s.rqs t).wk = .prepared

/-- The request is on `inflight_reqs`, or with the thread that took it off to
end it. -/
def InFlight (s : State C) (t : C.Tag) : Prop := ∃ p, t ∈ place s p

/-- The request is not submitted: its worker has not taken pages yet, or has
given up, or is gone. -/
def Wk.unsubmitted : Wk → Bool
  | .none | .starting | .queued | .passed | .failed _ => true
  | _ => false

/-- A request that is not submitted has no data page and no `pi` array, and a
set bit belongs to one request, which is being prepared or in flight. -/
structure NoLeak (s : State C) : Prop where
  unsubmitted : ∀ t, (s.rqs t).wk.unsubmitted = true →
    (s.pages.reqs t).pi = [] ∧ (s.rqs t).heapPi = false
  owned : ∀ x, s.pages.pool.bitmap x = true →
    ∃ t, (Preparing s t ∨ InFlight s t) ∧ ∀ u, x ∈ (s.pages.reqs u).pi ↔ u = t
  zero : (∀ t, ¬ Preparing s t ∧ ¬ InFlight s t) → ∀ x, s.pages.pool.bitmap x = false

/-- The exit for a full ring is taken by requests without data only. -/
def FullNoData (s : State C) : Label C → Prop
  | .rq t .remove => (s.rqs t).piCnt = 0
  | _ => True

/-! ## What a request has -/

/-- Nothing. -/
structure Clean (r : Rq C.pageSize) (q : Pages.Req) : Prop where
  pc : q.pc = .idle
  pi : q.pi = []
  heapPi : r.heapPi = false

/-- An index for each of its segments. -/
def Full (r : Rq C.pageSize) (q : Pages.Req) : Prop :=
  (r.piCnt = 0 ∧ Clean r q) ∨ (0 < r.piCnt ∧ q.pc = .ready ∧ q.pi.length = r.piCnt)

/-- What a request has, by what its worker has done. -/
def Needs (r : Rq C.pageSize) (q : Pages.Req) : Wk → Prop
  | .none | .starting | .queued | .passed | .failed _ => Clean r q
  | .pages => 0 < r.piCnt ∧ Pages.Calling r.piCnt q
  | .prepared | .inserted | .full | .published => Full r q

/-- The request whose pages the thread is releasing, or has released. -/
def Pc.releases : Pc C → Option C.Tag
  | .release t _ | .finish t _ => some t
  | _ => none

/-- What requests have, by what their workers and the threads have done. -/
structure Paged (s : State C) : Prop where
  bits : Pages.Bits s.pages
  needs : ∀ t, (∀ x, (s.threads x).releases ≠ some t) → Needs (s.rqs t) (s.pages.reqs t) (s.rqs t).wk
  release : ∀ x t by_, s.threads x = .release t by_ → Pages.Releasing (s.pages.reqs t)
  finish : ∀ x t by_, s.threads x = .finish t by_ → Clean (s.rqs t) (s.pages.reqs t)

theorem paged_init {n : Nat} (hn : n < 2 ^ 32) (r : Nat) : Paged (initState C n r) where
  bits := Pages.bits_init hn r _
  needs _ _ := ⟨rfl, rfl, rfl⟩
  release _ _ _ h := nomatch h
  finish _ _ _ h := nomatch h

/-- A thread that releases a request's pages has the request. -/
theorem Pc.holds_of_releases {pc : Pc C} {t : C.Tag} (h : pc.releases = some t) : pc.holds = some t := by
  cases pc <;> first | exact h | cases h

theorem Own.not_releases {s : State C} (h : Own s) {t : C.Tag} (ht : (s.rqs t).wk ≠ .published) (x : Nat) :
    (s.threads x).releases ≠ some t :=
  fun hx => ht (h.of_holds (Pc.holds_of_releases hx)).1

theorem Clean.of_heapPi {r r' : Rq C.pageSize} {q : Pages.Req} (h : Clean r q)
    (hr : r'.heapPi = r.heapPi) : Clean r' q :=
  ⟨h.pc, h.pi, hr.trans h.heapPi⟩

theorem Needs.congr {r r' : Rq C.pageSize} {q : Pages.Req} {w : Wk} (hh : r'.heapPi = r.heapPi)
    (hc : r'.piCnt = r.piCnt) (h : Needs r q w) : Needs r' q w := by
  have hfull : Full r q → Full r' q := by
    rintro (⟨hcnt, hclean⟩ | hready)
    · exact .inl ⟨hc.trans hcnt, hclean.of_heapPi hh⟩
    · exact .inr (by rw [hc]; exact hready)
  cases w with
  | pages => exact (by rw [hc]; exact h : 0 < r'.piCnt ∧ Pages.Calling r'.piCnt q)
  | prepared => exact hfull h
  | inserted => exact hfull h
  | full => exact hfull h
  | published => exact hfull h
  | _ => exact Clean.of_heapPi h hh

/-! ## Steps of requests -/

/-- Steps of a request, which no thread has. -/
theorem Paged.wk_frame {s s' : State C} {t : C.Tag} {l : WkLabel C} (ho : Own s) (h : Paged s)
    (hs : WkStep s t l s') (hbits : Pages.Bits s'.pages)
    (hpages : ∀ u, u ≠ t → s'.pages.reqs u = s.pages.reqs u)
    (ht : Needs (s'.rqs t) (s'.pages.reqs t) (s'.rqs t).wk) : Paged s' := by
  have hth := hs.control.2.1
  have hne : ∀ x u, (s.threads x).releases = some u → u ≠ t := by
    rintro x u hx rfl
    exact hs.wk_ne (ho.of_holds (Pc.holds_of_releases hx)).1
  refine ⟨hbits, fun u hu => ?_, fun x u by_ hx => ?_, fun x u by_ hx => ?_⟩
  · by_cases hut : u = t
    · rw [hut]
      exact ht
    · rw [hth] at hu
      rw [hs.other hut, hpages u hut]
      exact h.needs u hu
  · rw [hth] at hx
    rw [hpages u (hne x u (by rw [hx]; rfl))]
    exact h.release x u by_ hx
  · rw [hth] at hx
    have hut := hne x u (by rw [hx]; rfl)
    rw [hs.other hut, hpages u hut]
    exact h.finish x u by_ hx

theorem paged_wkStep {s s' : State C} {t : C.Tag} {l : WkLabel C} (ho : Own s) (h : Paged s)
    (hs : WkStep s t l s') (hl : FullNoData s (.rq t l)) : Paged s' := by
  have hneeds := h.needs t (ho.not_releases hs.wk_ne)
  have hframe := h.wk_frame ho hs
  cases hs with
  | refused wk => exact h
  | rqStart wk r =>
    rw [wk] at hneeds
    obtain ⟨op, w, hw, heq⟩ := startRq_eq s t r
    rw [heq] at hframe ⊢
    refine hframe ?_ (fun u hu => ?_) ?_
    · refine h.bits.congr rfl rfl fun u => ?_
      show ((s.pages.setReq t _).reqs u).pi = _
      rw [Pages.State.setReq_reqs]
      split
      · rename_i hut
        rw [hut]
        exact hneeds.pi.symm
      · rfl
    · exact (Pages.State.setReq_reqs ..).trans (if_neg hu)
    · have hreq : (s.pages.setReq t Pages.Req.fresh).reqs t = Pages.Req.fresh :=
        (Pages.State.setReq_reqs ..).trans (if_pos rfl)
      rw [State.setRq_rqs, if_pos rfl]
      show Needs _ ((s.pages.setReq t _).reqs t) _
      rw [hreq]
      rcases hw with rfl | rfl <;> exact ⟨rfl, rfl, rfl⟩
  | get wk piOk cnt pos p hp =>
    rw [wk] at hneeds
    refine hframe ((Pages.step_effect hp).bits h.bits) (fun u hu => Pages.step_other hp hu) ?_
    show Needs _ (p.reqs t) _
    rw [State.setRq_rqs, if_pos rfl]
    exact ⟨pos, Pages.step_get hp hneeds.pi⟩
  | gotPages wk pc =>
    rw [wk] at hneeds
    refine hframe h.bits (fun _ _ => rfl) ?_
    rw [State.setWk_rqs, if_pos rfl]
    have hlen := hneeds.2
    rw [Pages.Calling, pc] at hlen
    exact .inr ⟨hneeds.1, pc, hlen⟩
  | noPages wk pc =>
    rw [wk] at hneeds
    refine hframe h.bits (fun _ _ => rfl) ?_
    rw [State.setRq_rqs, if_pos rfl]
    have hpi := hneeds.2
    rw [Pages.Calling, pc] at hpi
    exact ⟨pc, hpi, rfl⟩
  | noData wk piOk cnt =>
    rw [wk] at hneeds
    refine hframe h.bits (fun _ _ => rfl) ?_
    rw [State.setRq_rqs, if_pos rfl]
    exact .inl ⟨rfl, hneeds.of_heapPi rfl⟩
  | remove wk lock =>
    rw [wk] at hneeds
    refine hframe h.bits (fun _ _ => rfl) ?_
    show Needs ((s.setWk t _).rqs t) _ _
    rw [State.setWk_rqs, if_pos rfl]
    rcases hneeds with ⟨-, hclean⟩ | ⟨hpos, -⟩
    · exact hclean.of_heapPi rfl
    · exact absurd hl (Nat.ne_of_gt hpos)
  | noPi wk cnt =>
    rw [wk] at hneeds
    refine hframe h.bits (fun _ _ => rfl) ?_
    rw [State.setRq_rqs, if_pos rfl]
    exact hneeds.of_heapPi rfl
  | _ =>
    refine hframe h.bits (fun _ _ => rfl) ?_
    simp only [State.setWk_rqs, State.setRq_rqs, if_true]
    simp only [*] at hneeds
    refine Needs.congr (r := s.rqs t) rfl rfl ?_
    exact hneeds

/-! ## Steps of threads and of calls -/

/-- Steps of threads that have to do with no pages. -/
theorem Paged.th_frame {s s' : State C} {x : Nat} {pc : Pc C} (h : Paged s)
    (hth : s'.threads = (s.setPc x pc).threads) (hpages : s'.pages = s.pages) (hrqs : s'.rqs = s.rqs)
    (hx : (s.threads x).releases = none) (hpc : pc.releases = none) : Paged s' := by
  have hold : ∀ y t, (s.threads y).releases = some t → s'.threads y = s.threads y := by
    intro y t hy
    rw [hth, State.setPc_threads, if_neg]
    rintro rfl
    rw [hx] at hy
    cases hy
  have hnew : ∀ y t, (s'.threads y).releases = some t → s.threads y = s'.threads y := by
    intro y t hy
    rw [hth, State.setPc_threads] at hy ⊢
    split at hy
    · rw [hpc] at hy
      cases hy
    · rename_i hyx
      rw [if_neg hyx]
  refine ⟨by rw [hpages]; exact h.bits, fun t ht => ?_, fun y t by_ hy => ?_, fun y t by_ hy => ?_⟩
  · rw [hpages, hrqs]
    refine h.needs t fun y hy => ht y ?_
    rw [hold y t hy]
    exact hy
  · rw [hpages]
    exact h.release y t by_ ((hnew y t (by rw [hy]; rfl)).trans hy)
  · rw [hpages, hrqs]
    exact h.finish y t by_ ((hnew y t (by rw [hy]; rfl)).trans hy)

/-- Steps of the thread that has the request `t`. -/
theorem Paged.th_holds {s s' : State C} {x : Nat} {t : C.Tag} {pc : Pc C} (ho : Own s) (h : Paged s)
    (hx : (s.threads x).holds = some t) (hth : s'.threads = (s.setPc x pc).threads)
    (hbits : Pages.Bits s'.pages) (hpages : ∀ u, u ≠ t → s'.pages.reqs u = s.pages.reqs u)
    (hrqs : ∀ u, u ≠ t → s'.rqs u = s.rqs u)
    (hneeds : pc.releases ≠ some t → Needs (s'.rqs t) (s'.pages.reqs t) (s'.rqs t).wk)
    (hrelease : ∀ u by_, pc = .release u by_ → u = t ∧ Pages.Releasing (s'.pages.reqs t))
    (hfinish : ∀ u by_, pc = .finish u by_ → u = t ∧ Clean (s'.rqs t) (s'.pages.reqs t)) : Paged s' := by
  have hne : ∀ y u, y ≠ x → (s.threads y).releases = some u → u ≠ t := by
    rintro y u hyx hy rfl
    have h₁ := (ho.of_holds hx).2
    have h₂ := (ho.of_holds (Pc.holds_of_releases hy)).2
    have h₃ := h₁.2 (some y) fun hh => hyx (Option.some.inj hh)
    have h₄ := h₂.1
    omega
  have hpc : ∀ y, y ≠ x → s'.threads y = s.threads y := fun y hy => by
    rw [hth, State.setPc_threads, if_neg hy]
  have hpcx : s'.threads x = pc := by rw [hth, State.setPc_threads, if_pos rfl]
  refine ⟨hbits, fun u hu => ?_, fun y u by_ hy => ?_, fun y u by_ hy => ?_⟩
  · by_cases hut : u = t
    · rw [hut] at hu ⊢
      exact hneeds (hpcx ▸ hu x)
    · rw [hrqs u hut, hpages u hut]
      refine h.needs u fun y hy => ?_
      by_cases hyx : y = x
      · rw [hyx] at hy
        rw [Pc.holds_of_releases hy] at hx
        exact hut (Option.some.inj hx)
      · exact hu y (by rw [hpc y hyx]; exact hy)
  · by_cases hyx : y = x
    · rw [hyx, hpcx] at hy
      obtain ⟨rfl, hrel⟩ := hrelease u by_ hy
      exact hrel
    · rw [hpc y hyx] at hy
      rw [hpages u (hne y u hyx (by rw [hy]; rfl))]
      exact h.release y u by_ hy
  · by_cases hyx : y = x
    · rw [hyx, hpcx] at hy
      obtain ⟨rfl, hclean⟩ := hfinish u by_ hy
      exact hclean
    · rw [hpc y hyx] at hy
      have hut := hne y u hyx (by rw [hy]; rfl)
      rw [hpages u hut, hrqs u hut]
      exact h.finish y u by_ hy

theorem Full.ready_or_idle {r : Rq C.pageSize} {q : Pages.Req} (h : Full r q) :
    q.pc = .ready ∨ q.pc = .idle ∧ q.pi = [] := by
  rcases h with ⟨-, hclean⟩ | ⟨-, hready, -⟩
  · exact .inr ⟨hclean.pc, hclean.pi⟩
  · exact .inl hready

/-- The call of `ubbd_req_release`, and what it leaves alone. -/
theorem Paged.call_release {s : State C} (h : Paged s) (t : C.Tag) :
    Pages.Bits ((Pages.step s.pages (.release t)).getD s.pages) ∧
      ∀ u, u ≠ t → ((Pages.step s.pages (.release t)).getD s.pages).reqs u = s.pages.reqs u := by
  cases hp : Pages.step s.pages (.release t) with
  | none => exact ⟨h.bits, fun _ _ => rfl⟩
  | some p => exact ⟨(Pages.step_effect hp).bits h.bits, fun u hu => Pages.step_other hp hu⟩

theorem paged_thStep {s s' : State C} {x : Nat} {l : ThLabel} (ho : Own s) (h : Paged s)
    (hs : ThStep s x l s') : Paged s' := by
  cases hs with
  | back l call pc => exact h
  | mark t by_ pc =>
    have hx : (s.threads x).holds = some t := by rw [pc]; rfl
    obtain ⟨hwk, hat⟩ := ho.of_holds hx
    have hfull := h.needs t fun y hy => by
      by_cases hyx : y = x
      · rw [hyx, pc] at hy
        cases hy
      · have h₁ := hat.2 (some y) fun hh => hyx (Option.some.inj hh)
        have h₂ := (ho.of_holds (Pc.holds_of_releases hy)).2.1
        omega
    rw [hwk] at hfull
    refine h.th_holds ho hx rfl (h.call_release t).1 (h.call_release t).2 (fun _ _ => rfl) ?_ ?_ ?_
    · exact fun hne => absurd rfl hne
    · intro u by_ heq
      cases heq
      exact ⟨rfl, Pages.releasing_release hfull.ready_or_idle⟩
    · intro u by_ heq
      cases heq
  | released t by_ pc idle =>
    have hx : (s.threads x).holds = some t := by rw [pc]; rfl
    refine h.th_holds ho hx rfl h.bits (fun _ _ => rfl) (fun u hu => ?_) ?_ ?_ ?_
    · exact (State.setRq_rqs ..).trans (if_neg hu)
    · exact fun hne => absurd rfl hne
    · intro u by_ heq
      cases heq
    · intro u by_' heq
      cases heq
      refine ⟨rfl, idle, ?_, ?_⟩
      · rcases h.release x t by_ pc with hrel | ⟨-, hpi⟩
        · rw [hrel] at idle
          cases idle
        · exact hpi
      · show ((s.setRq t _).rqs t).heapPi = false
        rw [State.setRq_rqs, if_pos rfl]
  | finish t by_ pc =>
    have hx : (s.threads x).holds = some t := by rw [pc]; rfl
    obtain ⟨hwk, -⟩ := ho.of_holds hx
    have hclean := h.finish x t by_ pc
    refine h.th_holds ho hx rfl h.bits (fun _ _ => rfl) (fun u hu => ?_) (fun _ => ?_) ?_ ?_
    · exact (State.setRq_rqs ..).trans (if_neg hu)
    · show Needs ((finishRq s t by_).rqs t) _ ((finishRq s t by_).rqs t).wk
      rw [finishRq_wk by_ hwk, if_pos rfl]
      refine hclean.of_heapPi ?_
      show ((s.setWk t _).rqs t).heapPi = _
      rw [State.setWk_rqs, if_pos rfl]
    · intro u by_ heq
      cases heq
    · intro u by_ heq
      cases heq
  | advance by_ pc => exact h.th_frame rfl rfl rfl (by rw [pc]; rfl) (by cases by_ <;> rfl)
  | remFlushed force snap pc flushed =>
    exact h.th_frame rfl rfl rfl (by rw [pc]; rfl) (by cases force <;> rfl)
  | _ => exact h.th_frame rfl rfl rfl (by simp only [*]; rfl) rfl

/-- A step inside a call. -/
theorem paged_page {s : State C} {l : Pages.Label C.Tag} {p : Pages.State C.Tag} (h : Paged s)
    (hl : inside l = true) (hp : Pages.step s.pages l = some p) : Paged { s with pages := p } := by
  have hcalls : l.calls = false := by cases l <;> first | rfl | cases hl
  have hgoes := Pages.step_goes hcalls hp
  have hother : ∀ u, u ≠ l.req → p.reqs u = s.pages.reqs u := fun u hu => Pages.step_other hp hu
  refine ⟨(Pages.step_effect hp).bits h.bits, fun t ht => ?_, fun x t by_ hx => ?_, fun x t by_ hx => ?_⟩
  · have hneeds := h.needs t ht
    show Needs (s.rqs t) (p.reqs t) (s.rqs t).wk
    by_cases htl : t = l.req
    · rw [← htl] at hgoes
      have hfull : ¬ Full (s.rqs t) (s.pages.reqs t) := fun hf => by
        rcases hf.ready_or_idle with hpc | ⟨hpc, -⟩
        · exact hgoes.running.2 hpc
        · exact hgoes.running.1 hpc
      generalize (s.rqs t).wk = w at hneeds ⊢
      cases w with
      | pages => exact ⟨hneeds.1, hgoes.calling _ hneeds.2⟩
      | prepared => exact absurd hneeds hfull
      | inserted => exact absurd hneeds hfull
      | full => exact absurd hneeds hfull
      | published => exact absurd hneeds hfull
      | _ => exact absurd hneeds.pc hgoes.running.1
    · rw [hother t htl]
      exact hneeds
  · have hrel := h.release x t by_ hx
    show Pages.Releasing (p.reqs t)
    by_cases htl : t = l.req
    · rw [htl] at hrel ⊢
      exact hgoes.releasing hrel
    · rw [hother t htl]
      exact hrel
  · have hclean := h.finish x t by_ hx
    by_cases htl : t = l.req
    · rw [htl] at hclean
      exact absurd hclean.pc hgoes.running.1
    · show Clean (s.rqs t) (p.reqs t)
      rw [hother t htl]
      exact hclean

theorem paged_step {s s' : State C} {a : Label C} (ho : Own s) (h : Paged s) (hs : step s a = some s')
    (hf : FullNoData s a) : Paged s' := by
  cases step_cases hs with
  | rq hw => exact paged_wkStep ho h hw hf
  | th ht => exact paged_thStep ho h ht
  | page l hl p hp => exact paged_page h hl hp
  | _ => exact ⟨h.bits, h.needs, h.release, h.finish⟩

/-! ## Nothing leaks -/

theorem Paged.unsubmitted {s : State C} (ho : Own s) (h : Paged s) {t : C.Tag}
    (ht : (s.rqs t).wk.unsubmitted = true) : Clean (s.rqs t) (s.pages.reqs t) := by
  have hneeds := h.needs t (ho.not_releases fun hwk => by rw [hwk] at ht; cases ht)
  generalize (s.rqs t).wk = w at ht hneeds
  cases w <;> first | exact hneeds | cases ht

/-- A submitted request is being prepared or in flight. -/
theorem Own.preparing_or_inFlight {s : State C} (h : Own s) {t : C.Tag}
    (ht : (s.rqs t).wk.unsubmitted = false) : Preparing s t ∨ InFlight s t := by
  have hmem : ∀ p, At s t p → InFlight s t := fun p hat =>
    ⟨p, List.count_pos_iff.mp (by rw [show List.count t (place s p) = 1 from hat.1]; decide)⟩
  have hpl := h.placed t
  cases hwk : (s.rqs t).wk with
  | pages => exact .inl (.inl hwk)
  | prepared => exact .inl (.inr hwk)
  | inserted =>
    rw [hwk] at hpl
    exact .inr (hmem _ hpl)
  | full =>
    rw [hwk] at hpl
    exact .inr (hmem _ hpl)
  | published =>
    rw [hwk] at hpl
    obtain ⟨p, hp⟩ := hpl
    exact .inr (hmem p hp)
  | _ =>
    rw [hwk] at ht
    cases ht

theorem Paged.owned {s : State C} (ho : Own s) (h : Paged s) {x : Nat}
    (hx : s.pages.pool.bitmap x = true) :
    ∃ t, (Preparing s t ∨ InFlight s t) ∧ ∀ u, x ∈ (s.pages.reqs u).pi ↔ u = t := by
  have hlt : x < 2 ^ 31 := by
    by_contra hge
    rw [h.bits.high x (by omega)] at hx
    cases hx
  obtain ⟨t, ht⟩ := (h.bits.set x hlt).mp hx
  refine ⟨t, ho.preparing_or_inFlight ?_, fun u => ⟨fun hu => h.bits.alone u t x hlt hu ht, ?_⟩⟩
  · by_contra hun
    rw [Bool.not_eq_false] at hun
    rw [(h.unsubmitted ho hun).pi] at ht
    cases ht
  · rintro rfl
    exact ht

theorem Paged.noLeak {s : State C} (ho : Own s) (h : Paged s) : NoLeak s where
  unsubmitted _ ht := ⟨(h.unsubmitted ho ht).pi, (h.unsubmitted ho ht).heapPi⟩
  owned _ hx := h.owned ho hx
  zero hnone x := by
    by_contra hx
    rw [Bool.not_eq_false] at hx
    obtain ⟨t, ht, -⟩ := h.owned ho hx
    rcases ht with ht | ht
    · exact (hnone t).1 ht
    · exact (hnone t).2 ht

/-- The exit for a full ring requeues a request with its pages. -/
theorem Paged.leaks {s s' : State C} {a : Label C} (ho : Own s) (h : Paged s) (hs : step s a = some s')
    (hf : ¬ FullNoData s a) : ¬ NoLeak s' := by
  cases step_cases hs with
  | rq hw =>
    rename_i t l
    cases hw with
    | remove wk lock =>
      intro hno
      have hneeds := h.needs t (ho.not_releases (by rw [wk]; nofun))
      rw [wk] at hneeds
      have hpi : (s.pages.reqs t).pi = [] := by
        refine (hno.unsubmitted t ?_).1
        show ((s.setWk t _).rqs t).wk.unsubmitted = true
        simp [State.setWk_rqs, Wk.unsubmitted]
      rcases hneeds with ⟨hcnt, -⟩ | ⟨hpos, -, hlen⟩
      · exact hf hcnt
      · rw [hpi] at hlen
        simp at hlen
        omega
    | _ => exact absurd trivial hf
  | _ => exact absurd trivial hf

/-- In a run in which the backend answers commands it has read, fewer than
`2 ^ 64` commands are published and removals find the workers gone, no data
page and no `pi` array leaks exactly when the exit for a full ring is taken by
requests without data only. -/
theorem noLeak_iff (C : Conf) (dataPages : UInt32) (r : Nat) (as : List (Label C))
    (h : (lts C).Steps (fun s a _ => Answers s a ∧ Unwrapped s a ∧ SplicesQuiet s a)
      (initState C dataPages.toNat r) as) :
    (lts C).States NoLeak (initState C dataPages.toNat r) as ↔
      (lts C).Steps (fun s a _ => FullNoData s a) (initState C dataPages.toNat r) as := by
  refine Lts.states_iff_steps_of (I := fun s => Traced s ∧ Paged s) (fun s hi => hi.2.noLeak hi.1.own)
    (fun s a s' hi hs hb hc => ?_) (fun s a s' hi hs hb hc => hi.2.leaks hi.1.own hs hc)
    ⟨traced_init _ r, paged_init dataPages.toNat_lt r⟩ h
  exact ⟨traced_step hi.1 hs hb.1 hb.2.1 hb.2.2, paged_step hi.1.own hi.2 hs hc⟩

/-- A queue with `tags` tags whose ring has room for one command. -/
def smallConf (tags : Nat) : Conf where
  header := sampleHeader 64 8 eight_dvd_64 eight_pos eight_le_64 lt_64
  pageSize := 4096
  dataOff := 4096
  tags := tags

/-- A write of one segment. -/
def writeReq : Request 4096 where
  op := .write
  pos := 0
  bytes := 512
  bios := [[⟨0, 0, 512⟩]]
  single := by decide
  segs_le := by decide
  bytes_lt := by decide

/-- The steps of a write of one segment up to the list, with a page that its
call of `ubbd_get_data_pages` allocates. -/
def insertWrite {tags : Nat} (t : (smallConf tags).Tag) (page : Nat) : List (Label (smallConf tags)) :=
  [.rq t .rqRead, .rq t (.rqStart writeReq), .rq t .status, .rq t (.prepare true), .page (.seg t true),
    .page (.alloc t (some page)), .page (.incLoad t), .page (.incStore t), .page (.seg t true), .page (.out t),
    .rq t .pages, .rq t .insert]

/-- A write from its start to its end. -/
def writeDone : List (Label (smallConf 1)) :=
  insertWrite ⟨0, by decide⟩ 0 ++
    [.rq ⟨0, by decide⟩ .submit, .th 0 .enter, .th 0 (.take 1), .th 0 .fetch, .th 0 .mark,
      .page (.releaseOne ⟨0, by decide⟩), .page (.releaseOne ⟨0, by decide⟩), .th 0 .released, .th 0 .finish,
      .th 0 .advance]

theorem noLeak_writeDone :
    (lts (smallConf 1)).States NoLeak (initState (smallConf 1) (8 : UInt32).toNat 6) writeDone ∧
      ∃ s, (lts (smallConf 1)).exec (initState (smallConf 1) (8 : UInt32).toNat 6) writeDone = some s ∧
        s.log.length = 1 ∧ s.pages.pool.bitmap 0 = false := by
  refine ⟨(noLeak_iff _ _ _ _ ?_).mpr ?_, _, rfl, rfl, rfl⟩
  · unfold writeDone
    iterate 12 refine Lts.Steps.cons rfl ⟨trivial, trivial, trivial⟩ ?_
    refine Lts.Steps.cons rfl ⟨trivial, show 0 < 2 ^ 64 - 1 by decide, trivial⟩ ?_
    refine Lts.Steps.cons rfl ⟨trivial, trivial, trivial⟩ ?_
    refine Lts.Steps.cons rfl ⟨⟨_, List.mem_singleton.mpr rfl, rfl⟩, trivial, trivial⟩ ?_
    iterate 7 refine Lts.Steps.cons rfl ⟨trivial, trivial, trivial⟩ ?_
    trivial
  · exact Lts.steps_of_forall (by simp [writeDone, insertWrite, FullNoData]) _

/-- The ring is full for a second write, which is requeued and started anew. -/
def writeFull : List (Label (smallConf 2)) :=
  insertWrite ⟨0, by decide⟩ 0 ++ .rq ⟨0, by decide⟩ .submit :: insertWrite ⟨1, by decide⟩ 1 ++
    [.rq ⟨1, by decide⟩ .submit, .rq ⟨1, by decide⟩ .remove, .rq ⟨1, by decide⟩ .endRequest,
      .rq ⟨1, by decide⟩ .rqRead, .rq ⟨1, by decide⟩ (.rqStart writeReq)]

theorem exec_writeFull :
    ∃ s, (lts (smallConf 2)).exec (initState (smallConf 2) 8 6) writeFull = some s ∧
      (s.log.map fun e => e.how) = [.requeue] ∧ s.pages.pool.bitmap 1 = true ∧
      (s.pages.reqs ⟨0, by decide⟩).pi = [0] ∧ (s.pages.reqs ⟨1, by decide⟩).pi = [] :=
  ⟨_, rfl, rfl, rfl, rfl, rfl⟩

/-- No thread takes part. -/
theorem th_notMem_writeFull (x : Nat) (b : ThLabel) : .th x b ∉ writeFull := by
  simp [writeFull, insertWrite]

/-- The bit of its page stays set, and no request knows of it any more. -/
theorem full_ring_leaks :
    (lts (smallConf 2)).Steps (fun s a _ => Answers s a ∧ Unwrapped s a ∧ SplicesQuiet s a)
        (initState (smallConf 2) 8 6) writeFull ∧
      ∃ s, (lts (smallConf 2)).exec (initState (smallConf 2) 8 6) writeFull = some s ∧
        (s.log.map fun e => e.how) = [.requeue] ∧ s.pages.pool.bitmap 1 = true ∧
        (∀ t, 1 ∉ (s.pages.reqs t).pi) ∧ ¬ NoLeak s := by
  obtain ⟨s, hs, hlog, hbit, h₀, h₁⟩ := exec_writeFull
  have hnone : ∀ t, 1 ∉ (s.pages.reqs t).pi
    | ⟨0, _⟩ => by rw [h₀]; decide
    | ⟨1, _⟩ => by rw [h₁]; decide
  refine ⟨?_, s, hs, hlog, hbit, hnone, fun hno => ?_⟩
  · have hanswers : ∀ s, (lts (smallConf 2)).Steps (fun s a _ => Answers s a) s writeFull :=
      Lts.steps_of_forall fun a ha _ _ => by
        cases a with
        | th x b => exact absurd ha (th_notMem_writeFull x b)
        | _ => trivial
    have hquiet : ∀ s, (lts (smallConf 2)).Steps (fun s a _ => SplicesQuiet s a) s writeFull :=
      Lts.steps_of_forall fun a ha _ _ => by
        cases a with
        | th x b => exact absurd ha (th_notMem_writeFull x b)
        | _ => trivial
    exact (hanswers _).and ((unwrapped_of_length (by decide)).and (hquiet _))
  · obtain ⟨t, -, ht⟩ := hno.owned 1 hbit
    exact hnone t ((ht t).mpr rfl)

end Ubbd.Queue

import Mathlib.Data.List.Count
import UbbdKernel.Queue.Removal

/-!
# Who has a request

A request that its worker has put on `inflight_reqs` is in one place: on that
list, on the `tmp_list` of a removal, or in the hands of the thread that took
it off a list. `Own` says so for every request; it holds in every run in which
completions and removals take published requests only (`TakesPublished`,
`own_step`).
-/

namespace Ubbd.Queue

variable {C : Conf}

/-- The requests in a place: on `inflight_reqs`, or with a thread. -/
def place (s : State C) : Option Nat → List C.Tag
  | none => s.inflight
  | some x => (s.threads x).holds.toList ++ s.tmp x

/-- How often the request `t` is in the place `p`. -/
def cnt (s : State C) (t : C.Tag) (p : Option Nat) : Nat := (place s p).count t

/-- The request is in the place `p`, once, and in no other. -/
def At (s : State C) (t : C.Tag) (p : Option Nat) : Prop := cnt s t p = 1 ∧ ∀ q, q ≠ p → cnt s t q = 0

/-- Where a request is, by what its worker has done. -/
def Placed (s : State C) (t : C.Tag) : Wk → Prop
  | .inserted | .full => At s t none
  | .published => ∃ p, At s t p
  | _ => ∀ p, cnt s t p = 0

/-- The thread is ending the requests of its `tmp_list`. -/
def Pc.ending : Pc C → Bool
  | .remNext | .mark _ .removal | .release _ .removal | .finish _ .removal | .advance .removal => true
  | _ => false

/-- Every request is where its worker and the threads have put it, and a
thread has a `tmp_list` only while it ends the requests on it. -/
structure Own (s : State C) : Prop where
  placed : ∀ t, Placed s t (s.rqs t).wk
  tmp : ∀ x, (s.threads x).ending = false → s.tmp x = []

/-- Completions and removals take published requests off the list. -/
def TakesPublished (s : State C) : Label C → Prop
  | .th x .fetch => ∀ tid, s.threads x = .took tid → ∀ t ∈ s.inflight, (s.rqs t).tid = tid →
      (s.rqs t).wk = .published
  | .th _ .remSplice => ∀ t ∈ s.inflight, (s.rqs t).wk = .published
  | _ => True

theorem own_init (n r : Nat) : Own (initState C n r) :=
  ⟨fun _ p => by cases p <;> rfl, fun _ _ => rfl⟩

theorem Placed.congr {s s' : State C} {t : C.Tag} {w : Wk} (hc : ∀ p, cnt s' t p = cnt s t p)
    (h : Placed s t w) : Placed s' t w := by
  have hat : ∀ p, At s t p → At s' t p := fun p ha =>
    ⟨(hc p).trans ha.1, fun q hq => (hc q).trans (ha.2 q hq)⟩
  cases w with
  | inserted => exact hat none h
  | full => exact hat none h
  | published => exact h.imp hat
  | _ => exact fun p => (hc p).trans (h p)

/-- A request on the list is nowhere else. -/
theorem Own.at_none {s : State C} (h : Own s) {t : C.Tag} (ht : t ∈ s.inflight) : At s t none := by
  have hpos : 0 < cnt s t none := List.count_pos_iff.mpr ht
  have hpl := h.placed t
  cases hwk : (s.rqs t).wk with
  | inserted => rw [hwk] at hpl; exact hpl
  | full => rw [hwk] at hpl; exact hpl
  | published =>
    rw [hwk] at hpl
    obtain ⟨p, hp⟩ := hpl
    by_cases hn : p = none
    · exact hn ▸ hp
    · have := hp.2 none (Ne.symm hn)
      omega
  | _ =>
    rw [hwk] at hpl
    have := hpl none
    omega

/-- A request that a thread has is published, and nowhere else. -/
theorem Own.at_some {s : State C} (h : Own s) {t : C.Tag} {x : Nat} (ht : t ∈ place s (some x)) :
    (s.rqs t).wk = .published ∧ At s t (some x) := by
  have hpos : 0 < cnt s t (some x) := List.count_pos_iff.mpr ht
  have hpl := h.placed t
  cases hwk : (s.rqs t).wk with
  | inserted =>
    rw [hwk] at hpl
    have := hpl.2 (some x) nofun
    omega
  | full =>
    rw [hwk] at hpl
    have := hpl.2 (some x) nofun
    omega
  | published =>
    rw [hwk] at hpl
    obtain ⟨p, hp⟩ := hpl
    by_cases hn : p = some x
    · exact ⟨rfl, hn ▸ hp⟩
    · have := hp.2 (some x) (Ne.symm hn)
      omega
  | _ =>
    rw [hwk] at hpl
    have := hpl (some x)
    omega

theorem Own.of_holds {s : State C} (h : Own s) {t : C.Tag} {x : Nat} (hx : (s.threads x).holds = some t) :
    (s.rqs t).wk = .published ∧ At s t (some x) :=
  h.at_some (by simp [place, hx])

/-! ## Steps of requests -/

/-- Steps of requests that leave the lists alone. -/
theorem Own.wk_frame {s s' : State C} {t : C.Tag} {l : WkLabel C} (h : Own s) (hs : WkStep s t l s')
    (hin : s'.inflight = s.inflight) (htmp : s'.tmp = s.tmp)
    (ht : Placed s t (s.rqs t).wk → Placed s t (s'.rqs t).wk) : Own s' := by
  have hth := hs.control.2.1
  have hc : ∀ u p, cnt s' u p = cnt s u p := by
    intro u p
    cases p with
    | none => simp only [cnt, place, hin]
    | some x => simp only [cnt, place, hth, htmp]
  refine ⟨fun u => Placed.congr (hc u) ?_, fun x hx => ?_⟩
  · by_cases hut : u = t
    · subst hut
      exact ht (h.placed u)
    · rw [hs.other hut]
      exact h.placed u
  · rw [htmp]
    rw [hth] at hx
    exact h.tmp x hx

/-- A request that is nowhere goes to the list. -/
theorem Own.insert {s : State C} {t : C.Tag} (h : Own s) (h0 : ∀ p, cnt s t p = 0) :
    Own { s.setWk t .inserted with inflight := s.inflight ++ [t] } := by
  have hcnt : ∀ u p, cnt { s.setWk t .inserted with inflight := s.inflight ++ [t] } u p =
      cnt s u p + if u = t ∧ p = none then 1 else 0 := by
    intro u p
    cases p with
    | none =>
      by_cases hut : u = t
      · subst hut
        simp [cnt, place]
      · simp [cnt, place, hut, Ne.symm hut]
    | some x => simp [cnt, place, State.setWk, State.setRq]
  refine ⟨fun u => ?_, h.tmp⟩
  show Placed _ u ((s.setWk t .inserted).rqs u).wk
  rw [State.setWk_rqs]
  split
  · rename_i hut
    subst hut
    refine ⟨?_, fun q hq => ?_⟩
    · rw [hcnt, h0 none, if_pos ⟨rfl, rfl⟩]
    · rw [hcnt, h0 q, if_neg fun hh => hq hh.2]
  · rename_i hut
    exact Placed.congr (fun p => by rw [hcnt, if_neg fun hh => hut hh.1, Nat.add_zero]) (h.placed u)

/-- A request that is on the list alone is taken off it. -/
theorem Own.remove {s : State C} {t : C.Tag} (h : Own s) (hat : At s t none) (e : Errno) :
    Own { s.setWk t (.failed e) with
      inflight := s.inflight.erase t
      tmp := fun x => (s.tmp x).erase t } := by
  have hcnt : ∀ u, u ≠ t → ∀ p, cnt { s.setWk t (.failed e) with
      inflight := s.inflight.erase t, tmp := fun x => (s.tmp x).erase t } u p = cnt s u p := by
    intro u hut p
    cases p with
    | none => exact List.count_erase_of_ne hut
    | some x => simp [cnt, place, List.count_erase_of_ne hut, State.setWk, State.setRq]
  refine ⟨fun u => ?_, fun x hx => ?_⟩
  · show Placed _ u ((s.setWk t (.failed e)).rqs u).wk
    rw [State.setWk_rqs]
    split
    · rename_i hut
      subst hut
      intro p
      cases p with
      | none =>
        show (s.inflight.erase u).count u = 0
        rw [List.count_erase_self, show s.inflight.count u = 1 from hat.1]
      | some x =>
        have hx : ((s.threads x).holds.toList ++ s.tmp x).count u = 0 := hat.2 (some x) (Option.some_ne_none x)
        have hsub : ((s.threads x).holds.toList ++ (s.tmp x).erase u).Sublist
            ((s.threads x).holds.toList ++ s.tmp x) := List.Sublist.append_left List.erase_sublist _
        exact Nat.le_zero.mp (hx ▸ hsub.count_le u)
    · rename_i hut
      exact Placed.congr (hcnt u hut) (h.placed u)
  · show (s.tmp x).erase t = []
    rw [h.tmp x hx]
    rfl

theorem own_wkStep {s s' : State C} {t : C.Tag} {l : WkLabel C} (h : Own s) (hs : WkStep s t l s') :
    Own s' := by
  have hpl := h.placed t
  have hframe := h.wk_frame hs
  cases hs with
  | insert wk lock =>
    rw [wk] at hpl
    exact h.insert hpl
  | remove wk lock =>
    rw [wk] at hpl
    exact h.remove hpl _
  | rqStart wk r =>
    obtain ⟨op, w, hw, heq⟩ := startRq_eq s t r
    rw [heq] at hframe ⊢
    refine hframe rfl rfl fun hp => ?_
    rw [wk] at hp
    rw [State.setRq_rqs, if_pos rfl]
    rcases hw with rfl | rfl <;> exact hp
  | refused wk => exact h
  | publish wk ring se =>
    refine hframe rfl rfl fun hp => ?_
    rw [wk] at hp
    simpa [State.setRq_rqs] using ⟨_, hp⟩
  | rqRead wk => exact hframe rfl rfl (by simp only [State.setWk_rqs, wk, if_pos]; exact id)
  | pass wk st => exact hframe rfl rfl (by simp only [State.setWk_rqs, wk, if_pos]; exact id)
  | refuse wk e => exact hframe rfl rfl (by simp only [State.setWk_rqs, wk, if_pos]; exact id)
  | noPi wk cnt => exact hframe rfl rfl (by simp only [State.setRq_rqs, wk, if_pos]; exact id)
  | noData wk piOk cnt => exact hframe rfl rfl (by simp only [State.setRq_rqs, wk, if_pos]; exact id)
  | get wk piOk cnt pos p hp => exact hframe rfl rfl (by simp only [State.setRq_rqs, wk, if_pos]; exact id)
  | gotPages wk pc => exact hframe rfl rfl (by simp only [State.setWk_rqs, wk, if_pos]; exact id)
  | noPages wk pc => exact hframe rfl rfl (by simp only [State.setRq_rqs, wk, if_pos]; exact id)
  | full wk => exact hframe rfl rfl (by simp only [State.setWk_rqs, wk, if_pos]; exact id)
  | endRequest e wk => exact hframe rfl rfl (by simp only [State.setWk_rqs, wk, if_pos]; exact id)

/-! ## Steps of threads -/

/-- Steps of threads that move no request. -/
theorem Own.th_frame {s s' : State C} {x : Nat} {pc : Pc C} (h : Own s)
    (hth : s'.threads = (s.setPc x pc).threads) (hin : s'.inflight = s.inflight) (htmp : s'.tmp = s.tmp)
    (hwk : ∀ u, (s'.rqs u).wk = (s.rqs u).wk) (hholds : pc.holds = (s.threads x).holds)
    (hend : pc.ending = false → s.tmp x = []) : Own s' := by
  have hpc : ∀ y, (s'.threads y).holds = (s.threads y).holds ∧
      ((s'.threads y).ending = false → s.tmp y = []) := by
    rw [hth]
    exact forall_setPc (P := fun y pc => pc.holds = (s.threads y).holds ∧ (pc.ending = false → s.tmp y = []))
      ⟨hholds, hend⟩ fun y _ => ⟨rfl, h.tmp y⟩
  have hc : ∀ u p, cnt s' u p = cnt s u p := by
    intro u p
    cases p with
    | none => simp only [cnt, place, hin]
    | some y => simp only [cnt, place, (hpc y).1, htmp]
  refine ⟨fun u => ?_, fun y hy => ?_⟩
  · rw [hwk u]
    exact Placed.congr (hc u) (h.placed u)
  · rw [htmp]
    exact (hpc y).2 hy

/-- A thread takes the request with its tid off the list. -/
theorem Own.fetch {s s' : State C} {x tid : Nat} {t : C.Tag} {pc : Pc C} (h : Own s)
    (htook : s.threads x = .took tid) (ht : t ∈ s.inflight) (hp : (s.rqs t).wk = .published)
    (hth : s'.threads = (s.setPc x pc).threads) (hin : s'.inflight = s.inflight.erase t)
    (htmp : s'.tmp = s.tmp) (hrqs : s'.rqs = s.rqs) (hpc : pc.holds = some t) : Own s' := by
  have hat := h.at_none ht
  have htmpx : s.tmp x = [] := h.tmp x (by rw [htook]; rfl)
  have hothers : ∀ y, y ≠ x → ∀ u, cnt s' u (some y) = cnt s u (some y) := fun y hy u => by
    simp only [cnt, place, hth, htmp, State.setPc_threads, if_neg hy]
  have hx : ∀ u, cnt s' u (some x) = [t].count u := fun u => by
    simp [cnt, place, hth, htmp, State.setPc_threads, hpc, htmpx]
  refine ⟨fun u => ?_, fun y hy => ?_⟩
  · rw [hrqs]
    by_cases hut : u = t
    · subst hut
      rw [hp]
      refine ⟨some x, ?_, fun q hq => ?_⟩
      · rw [hx, List.count_singleton_self]
      · cases q with
        | none =>
          show s'.inflight.count u = 0
          rw [hin, List.count_erase_self, show s.inflight.count u = 1 from hat.1]
        | some y =>
          rw [hothers y (fun hyx => hq (congrArg some hyx))]
          exact hat.2 (some y) nofun
    · refine Placed.congr (fun p => ?_) (h.placed u)
      cases p with
      | none =>
        show s'.inflight.count u = s.inflight.count u
        rw [hin, List.count_erase_of_ne hut]
      | some y =>
        by_cases hyx : y = x
        · subst hyx
          rw [hx]
          simp [cnt, place, htook, Pc.holds, htmpx, Ne.symm hut]
        · exact hothers y hyx u
  · rw [htmp]
    by_cases hyx : y = x
    · rw [hyx]
      exact htmpx
    · rw [hth, State.setPc_threads, if_neg hyx] at hy
      exact h.tmp y hy

/-- A removal moves the whole list to its `tmp_list`. -/
theorem Own.splice {s s' : State C} {x : Nat} (h : Own s) (hsp : s.threads x = .remSplice)
    (hp : ∀ t ∈ s.inflight, (s.rqs t).wk = .published) (hth : s'.threads = (s.setPc x .remNext).threads)
    (hin : s'.inflight = []) (htmp : s'.tmp = Function.update s.tmp x s.inflight) (hrqs : s'.rqs = s.rqs) :
    Own s' := by
  have htmpx : s.tmp x = [] := h.tmp x (by rw [hsp]; rfl)
  have hnone : ∀ u, cnt s' u none = 0 := fun u => by simp [cnt, place, hin]
  have hx : ∀ u, cnt s' u (some x) = cnt s u none := fun u => by
    simp [cnt, place, hth, htmp, State.setPc_threads, Pc.holds]
  have hx₀ : ∀ u, cnt s u (some x) = 0 := fun u => by simp [cnt, place, hsp, Pc.holds, htmpx]
  have hothers : ∀ y, y ≠ x → ∀ u, cnt s' u (some y) = cnt s u (some y) := fun y hy u => by
    simp [cnt, place, hth, htmp, State.setPc_threads, hy]
  refine ⟨fun u => ?_, fun y hy => ?_⟩
  · rw [hrqs]
    by_cases hu : u ∈ s.inflight
    · have hat := h.at_none hu
      rw [hp u hu]
      refine ⟨some x, (hx u).trans hat.1, fun q hq => ?_⟩
      cases q with
      | none => exact hnone u
      | some y =>
        rw [hothers y (fun hyx => hq (congrArg some hyx))]
        exact hat.2 (some y) nofun
    · have hzero : cnt s u none = 0 := List.count_eq_zero_of_not_mem hu
      refine Placed.congr (fun p => ?_) (h.placed u)
      cases p with
      | none => rw [hnone, hzero]
      | some y =>
        by_cases hyx : y = x
        · rw [hyx, hx, hzero, hx₀]
        · exact hothers y hyx u
  · by_cases hyx : y = x
    · rw [hyx, hth, State.setPc_threads, if_pos rfl] at hy
      cases hy
    · rw [hth, State.setPc_threads, if_neg hyx] at hy
      rw [htmp, Function.update_of_ne hyx]
      exact h.tmp y hy

/-- A removal takes the next request of its `tmp_list`. -/
theorem Own.next {s s' : State C} {x : Nat} {t : C.Tag} {ts : List C.Tag} (h : Own s)
    (hnx : s.threads x = .remNext) (hts : s.tmp x = t :: ts)
    (hth : s'.threads = (s.setPc x (.mark t .removal)).threads) (hin : s'.inflight = s.inflight)
    (htmp : s'.tmp = Function.update s.tmp x ts) (hrqs : s'.rqs = s.rqs) : Own s' := by
  have hc : ∀ u p, cnt s' u p = cnt s u p := by
    intro u p
    cases p with
    | none => simp only [cnt, place, hin]
    | some y =>
      by_cases hyx : y = x
      · subst hyx
        simp [cnt, place, hth, htmp, hnx, hts, State.setPc_threads, Pc.holds]
      · simp [cnt, place, hth, htmp, State.setPc_threads, hyx]
  refine ⟨fun u => ?_, fun y hy => ?_⟩
  · rw [hrqs]
    exact Placed.congr (hc u) (h.placed u)
  · by_cases hyx : y = x
    · rw [hyx, hth, State.setPc_threads, if_pos rfl] at hy
      cases hy
    · rw [hth, State.setPc_threads, if_neg hyx] at hy
      rw [htmp, Function.update_of_ne hyx]
      exact h.tmp y hy

theorem finishRq_wk {s : State C} {t : C.Tag} (by_ : By) (hp : (s.rqs t).wk = .published) (u : C.Tag) :
    ((finishRq s t by_).rqs u).wk = if u = t then .none else (s.rqs u).wk := by
  show ((s.setWk t _).rqs u).wk = _
  rw [State.setWk_rqs, if_pos hp]
  split <;> rfl

/-- A thread ends the request it has. -/
theorem Own.finish {s s' : State C} {x : Nat} {t : C.Tag} {by_ : By} (h : Own s)
    (hf : s.threads x = .finish t by_) (hs' : s' = (finishRq s t by_).setPc x (.advance by_)) : Own s' := by
  obtain ⟨hp, hat⟩ := h.of_holds (x := x) (t := t) (by rw [hf]; rfl)
  have hwk : ∀ u, (s'.rqs u).wk = if u = t then .none else (s.rqs u).wk := by
    rw [hs']
    exact finishRq_wk by_ hp
  have hth : s'.threads = (s.setPc x (.advance by_)).threads := by rw [hs']; rfl
  have hin : s'.inflight = s.inflight := by rw [hs']; rfl
  have htmp : s'.tmp = s.tmp := by rw [hs']; rfl
  have hothers : ∀ y, y ≠ x → ∀ u, cnt s' u (some y) = cnt s u (some y) := fun y hy u => by
    simp only [cnt, place, hth, htmp, State.setPc_threads, if_neg hy]
  have hx : ∀ u, cnt s u (some x) = [t].count u + cnt s' u (some x) := fun u => by
    simp [cnt, place, hth, htmp, State.setPc_threads, hf, Pc.holds, List.count_cons, Nat.add_comm]
  refine ⟨fun u => ?_, fun y hy => ?_⟩
  · rw [hwk]
    split
    · rename_i hut
      subst hut
      intro p
      cases p with
      | none =>
        show s'.inflight.count u = 0
        rw [hin]
        exact hat.2 none nofun
      | some y =>
        by_cases hyx : y = x
        · subst hyx
          have h₁ := hx u
          rw [hat.1, List.count_singleton_self] at h₁
          omega
        · rw [hothers y hyx]
          exact hat.2 (some y) fun hh => hyx (Option.some.inj hh)
    · rename_i hut
      refine Placed.congr (fun p => ?_) (h.placed u)
      cases p with
      | none => simp only [cnt, place, hin]
      | some y =>
        by_cases hyx : y = x
        · subst hyx
          rw [hx u, List.count_singleton, if_neg (by simpa using Ne.symm hut), Nat.zero_add]
        · exact hothers y hyx u
  · rw [htmp]
    rw [hth, State.setPc_threads] at hy
    split at hy
    · rename_i hyx
      subst hyx
      refine h.tmp y ?_
      rw [hf]
      cases by_ <;> [rfl; cases hy]
    · exact h.tmp y hy

theorem own_thStep {s s' : State C} {x : Nat} {l : ThLabel} (h : Own s) (hs : ThStep s x l s')
    (hp : TakesPublished s (.th x l)) : Own s' := by
  cases hs with
  | back l call pc => exact h
  | remSplice pc lock => exact h.splice pc hp rfl rfl rfl rfl
  | remNext pc t ts tmp => exact h.next pc tmp rfl rfl rfl rfl
  | last tid pc lock t mem tid_eq st empty =>
    exact h.fetch pc mem (hp tid pc t mem tid_eq) rfl rfl rfl rfl rfl
  | fetch tid pc lock t mem tid_eq => exact h.fetch pc mem (hp tid pc t mem tid_eq) rfl rfl rfl rfl rfl
  | finish t by_ pc => exact h.finish pc rfl
  | released t by_ pc idle =>
    refine h.th_frame rfl rfl rfl (fun u => ?_) (by rw [pc]; rfl) fun hh => h.tmp x ?_
    · show ((s.setRq t { s.rqs t with heapPi := false }).rqs u).wk = _
      rw [State.setRq_rqs]
      split
      · rename_i hut
        rw [hut]
      · rfl
    · rw [pc]
      cases by_ <;> exact hh
  | mark t by_ pc =>
    refine h.th_frame rfl rfl rfl (fun _ => rfl) (by rw [pc]; rfl) fun hh => h.tmp x ?_
    rw [pc]
    cases by_ <;> exact hh
  | advance by_ pc =>
    refine h.th_frame rfl rfl rfl (fun _ => rfl) (by rw [pc]; cases by_ <;> rfl) fun hh => h.tmp x ?_
    rw [pc]
    cases by_ <;> exact hh
  | remDone pc tmp => exact h.th_frame rfl rfl rfl (fun _ => rfl) (by rw [pc]; rfl) fun _ => tmp
  | remFlushed force snap pc flushed =>
    exact h.th_frame rfl rfl rfl (fun _ => rfl) (by rw [pc]; cases force <;> rfl) fun _ =>
      h.tmp x (by rw [pc]; rfl)
  | _ =>
    exact h.th_frame rfl rfl rfl (fun _ => rfl) (by simp only [*]; rfl) fun _ => h.tmp x (by simp only [*]; rfl)

theorem own_step {s s' : State C} {a : Label C} (h : Own s) (hs : step s a = some s')
    (hp : TakesPublished s a) : Own s' := by
  cases step_cases hs with
  | rq hw => exact own_wkStep h hw
  | th ht => exact own_thStep h ht hp
  | _ => exact ⟨fun t => Placed.congr (fun p => by cases p <;> rfl) (h.placed t), h.tmp⟩

end Ubbd.Queue

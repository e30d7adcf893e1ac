import Mathlib.Data.List.Nodup
import UbbdKernel.Queue.Inflight
import UbbdKernel.Ring.Fifo

/-!
# Every request is finished once

The four ways of finishing a started request are recorded in `log`, and the
publications in `pub`. `Recorded` ties these records to the requests: as long
as `req_tid` has not come back to zero, a tid names one publication, a
publication is either unfinished, and then its request is still in one place,
or in the log, and no start is in the log twice (`finished_once`). When `req_tid`
has gone round, the completion entry of an ended request can take another one
(`wrapped_not_once`).
-/

namespace Ubbd.Queue

variable {C : Conf}

/-- What the records say about a request. -/
inductive Stage
  /-- The last start, if any, is over. -/
  | free
  /-- Started and not published. -/
  | started
  | published
  deriving DecidableEq

def Wk.stage : Wk → Stage
  | .none | .starting => .free
  | .published => .published
  | _ => .started

def Finish.key (e : Finish C) : C.Tag × Nat := (e.tag, e.start)

def Pub.key (p : Pub C) : C.Tag × Nat := (p.tag, p.start)

/-- A thread has the tid of a publication, or a request with the tid of its
entry. -/
def Served (s : State C) : Pc C → Prop
  | .took tid => ∃ p ∈ s.pub, p.tid = tid
  | .setStopped t tid | .mark t (.entry tid) | .release t (.entry tid) | .finish t (.entry tid) =>
    (s.rqs t).tid = tid
  | _ => True

/-- The records and the requests agree. -/
structure Recorded (s : State C) : Prop where
  reqTid : s.reqTid = s.pub.length
  tids : s.pub.map Pub.tid = List.range' 1 s.pub.length
  pubOnce : (s.pub.map Pub.key).Nodup
  logOnce : (s.log.map Finish.key).Nodup
  /-- Requests on their way have no tid yet, published ones are recorded. -/
  started : ∀ t, (s.rqs t).wk.stage = .started → (s.rqs t).tid = 0
  published : ∀ t, (s.rqs t).wk.stage = .published → ⟨(s.rqs t).tid, t, (s.rqs t).start⟩ ∈ s.pub
  /-- A publication is of the present start, and unfinished, or in the log. -/
  pub : ∀ p ∈ s.pub, ((s.rqs p.tag).start = p.start ∧ (s.rqs p.tag).wk.stage = .published) ∨
    p.key ∈ s.log.map Finish.key
  /-- What is in the log is over. -/
  log : ∀ e ∈ s.log, e.start ≤ (s.rqs e.tag).start ∧
    (e.start = (s.rqs e.tag).start → (s.rqs e.tag).wk.stage = .free)
  entry : ∀ e ∈ s.log, ∀ tid, e.how = .entry tid → ⟨tid, e.tag, e.start⟩ ∈ s.pub
  served : ∀ x, Served s (s.threads x)

theorem recorded_init (n r : Nat) : Recorded (initState C n r) where
  reqTid := rfl
  tids := rfl
  pubOnce := .nil
  logOnce := .nil
  started _ h := nomatch h
  published _ h := nomatch h
  pub _ h := nomatch h
  log _ h := nomatch h
  entry _ h := nomatch h
  served _ := trivial

theorem Served.frame {s s' : State C} {pc : Pc C} (hpub : ∀ p ∈ s.pub, p ∈ s'.pub)
    (htid : ∀ t, pc.holds = some t → (s'.rqs t).tid = (s.rqs t).tid) (h : Served s pc) : Served s' pc := by
  cases pc with
  | took tid =>
    obtain ⟨p, hp, hp'⟩ := h
    exact ⟨p, hpub p hp, hp'⟩
  | setStopped t tid => exact (htid t rfl).trans h
  | mark t by_ => cases by_ <;> [exact (htid t rfl).trans h; trivial]
  | release t by_ => cases by_ <;> [exact (htid t rfl).trans h; trivial]
  | finish t by_ => cases by_ <;> [exact (htid t rfl).trans h; trivial]
  | _ => trivial

/-- Steps that neither start, publish nor finish a request. -/
theorem Recorded.congr {s s' : State C} (h : Recorded s) (hreqTid : s'.reqTid = s.reqTid)
    (hpub : s'.pub = s.pub) (hlog : s'.log = s.log) (htid : ∀ t, (s'.rqs t).tid = (s.rqs t).tid)
    (hstart : ∀ t, (s'.rqs t).start = (s.rqs t).start)
    (hstage : ∀ t, (s'.rqs t).wk.stage = (s.rqs t).wk.stage) (hserved : ∀ x, Served s' (s'.threads x)) :
    Recorded s' where
  reqTid := by rw [hreqTid, hpub]; exact h.reqTid
  tids := by rw [hpub]; exact h.tids
  pubOnce := by rw [hpub]; exact h.pubOnce
  logOnce := by rw [hlog]; exact h.logOnce
  started t ht := by rw [htid]; exact h.started t (hstage t ▸ ht)
  published t ht := by rw [htid, hstart, hpub]; exact h.published t (hstage t ▸ ht)
  pub p hp := by rw [hstart, hstage, hlog]; exact h.pub p (hpub ▸ hp)
  log e he := by rw [hstart, hstage]; exact h.log e (hlog ▸ he)
  entry e he := by rw [hpub]; exact h.entry e (hlog ▸ he)
  served := hserved

/-- A started request that is not over is not in the log. -/
theorem Recorded.not_logged {s : State C} (h : Recorded s) {t : C.Tag}
    (ht : (s.rqs t).wk.stage ≠ .free) : (t, (s.rqs t).start) ∉ s.log.map Finish.key := by
  intro hmem
  obtain ⟨e, he, hkey⟩ := List.mem_map.mp hmem
  obtain ⟨rfl, hstart⟩ := Prod.mk.inj hkey
  exact ht ((h.log e he).2 hstart)

/-- A request that is not published is in no publication of its present start. -/
theorem Recorded.not_published {s : State C} (h : Recorded s) {t : C.Tag}
    (ht : (s.rqs t).wk.stage = .started) : (t, (s.rqs t).start) ∉ s.pub.map Pub.key := by
  intro hmem
  obtain ⟨p, hp, hkey⟩ := List.mem_map.mp hmem
  obtain ⟨rfl, hstart⟩ := Prod.mk.inj hkey
  rcases h.pub p hp with ⟨-, hpub⟩ | hlog
  · rw [ht] at hpub
    cases hpub
  · rw [show p.key = (p.tag, (s.rqs p.tag).start) from hkey] at hlog
    exact h.not_logged (by rw [ht]; decide) hlog

/-- A tid of a publication is not zero, and of no other one. -/
theorem Recorded.tid_pos {s : State C} (h : Recorded s) {p : Pub C} (hp : p ∈ s.pub) : 1 ≤ p.tid := by
  have : p.tid ∈ s.pub.map Pub.tid := List.mem_map_of_mem hp
  rw [h.tids, List.mem_range'_1] at this
  exact this.1

theorem Recorded.tid_inj {s : State C} (h : Recorded s) {p q : Pub C} (hp : p ∈ s.pub) (hq : q ∈ s.pub)
    (heq : p.tid = q.tid) : p = q := by
  have hnd : (s.pub.map Pub.tid).Nodup := h.tids ▸ List.nodup_range'
  exact List.inj_on_of_nodup_map hnd hp hq heq

/-! ## Steps -/

/-- A request is started. -/
theorem Recorded.start {s s' : State C} {t : C.Tag} (h : Recorded s)
    (ht : (s.rqs t).wk.stage = .free) (hreqTid : s'.reqTid = s.reqTid) (hpub : s'.pub = s.pub)
    (hlog : s'.log = s.log) (hother : ∀ u, u ≠ t → s'.rqs u = s.rqs u) (htid : (s'.rqs t).tid = 0)
    (hstart : (s'.rqs t).start = (s.rqs t).start + 1) (hstage : (s'.rqs t).wk.stage ≠ .published)
    (hserved : ∀ x, Served s' (s'.threads x)) : Recorded s' where
  reqTid := by rw [hreqTid, hpub]; exact h.reqTid
  tids := by rw [hpub]; exact h.tids
  pubOnce := by rw [hpub]; exact h.pubOnce
  logOnce := by rw [hlog]; exact h.logOnce
  started u hu := by
    by_cases hut : u = t
    · rw [hut, htid]
    · rw [hother u hut] at hu ⊢
      exact h.started u hu
  published u hu := by
    by_cases hut : u = t
    · rw [hut] at hu
      exact absurd hu hstage
    · rw [hother u hut] at hu ⊢
      rw [hpub]
      exact h.published u hu
  pub p hp := by
    rw [hpub] at hp
    rw [hlog]
    rcases h.pub p hp with ⟨hs, hw⟩ | hl
    · have hpt : p.tag ≠ t := fun hpt => by
        rw [hpt, ht] at hw
        cases hw
      rw [hother _ hpt]
      exact .inl ⟨hs, hw⟩
    · exact .inr hl
  log e he := by
    rw [hlog] at he
    by_cases het : e.tag = t
    · have := (h.log e he).1
      rw [het] at this ⊢
      rw [hstart]
      exact ⟨by omega, fun _ => by omega⟩
    · rw [hother _ het]
      exact h.log e he
  entry e he := by rw [hpub]; exact h.entry e (hlog ▸ he)
  served := hserved

/-- A request is published. -/
theorem Recorded.publish {s s' : State C} {t : C.Tag} (h : Recorded s)
    (ht : (s.rqs t).wk.stage = .started) (hreqTid : s'.reqTid = s.reqTid + 1)
    (hpub : s'.pub = s.pub ++ [⟨s.reqTid + 1, t, (s.rqs t).start⟩]) (hlog : s'.log = s.log)
    (hother : ∀ u, u ≠ t → s'.rqs u = s.rqs u) (htid : (s'.rqs t).tid = s.reqTid + 1)
    (hstart : (s'.rqs t).start = (s.rqs t).start) (hstage : (s'.rqs t).wk.stage = .published)
    (hserved : ∀ x, Served s' (s'.threads x)) : Recorded s' where
  reqTid := by rw [hreqTid, hpub, List.length_append, h.reqTid]; rfl
  tids := by
    rw [hpub, List.map_append, List.length_append, h.tids, h.reqTid, List.length_singleton,
      List.range'_concat]
    simp [Nat.add_comm]
  pubOnce := by
    rw [hpub, List.map_append, List.map_singleton]
    exact List.nodup_append.mpr ⟨h.pubOnce, List.nodup_singleton _, fun a ha b hb hab =>
      h.not_published ht (by rw [List.mem_singleton] at hb; rw [hab, hb] at ha; exact ha)⟩
  logOnce := by rw [hlog]; exact h.logOnce
  started u hu := by
    by_cases hut : u = t
    · rw [hut, hstage] at hu
      cases hu
    · rw [hother u hut] at hu ⊢
      exact h.started u hu
  published u hu := by
    rw [hpub]
    by_cases hut : u = t
    · rw [hut, htid, hstart]
      exact List.mem_append_right _ (List.mem_singleton.mpr rfl)
    · rw [hother u hut] at hu ⊢
      exact List.mem_append_left _ (h.published u hu)
  pub p hp := by
    rw [hpub, List.mem_append, List.mem_singleton] at hp
    rw [hlog]
    rcases hp with hp | rfl
    · rcases h.pub p hp with ⟨hs, hw⟩ | hl
      · have hpt : p.tag ≠ t := fun hpt => by
          rw [hpt, ht] at hw
          cases hw
        rw [hother _ hpt]
        exact .inl ⟨hs, hw⟩
      · exact .inr hl
    · exact .inl ⟨hstart, hstage⟩
  log e he := by
    rw [hlog] at he
    by_cases het : e.tag = t
    · have := h.log e he
      rw [het] at this ⊢
      rw [hstart]
      refine ⟨this.1, fun heq => ?_⟩
      rw [this.2 heq] at ht
      cases ht
    · rw [hother _ het]
      exact h.log e he
  entry e he tid heq := by
    rw [hpub]
    exact List.mem_append_left _ (h.entry e (hlog ▸ he) tid heq)
  served := hserved

/-- A request is finished. -/
theorem Recorded.finish {s s' : State C} {t : C.Tag} {how : How} (h : Recorded s)
    (ht : (s.rqs t).wk.stage ≠ .free) (hhow : ∀ tid, how = .entry tid → ⟨tid, t, (s.rqs t).start⟩ ∈ s.pub)
    (hreqTid : s'.reqTid = s.reqTid) (hpub : s'.pub = s.pub)
    (hlog : s'.log = s.log ++ [⟨t, (s.rqs t).start, how⟩])
    (hother : ∀ u, u ≠ t → s'.rqs u = s.rqs u) (hstart : (s'.rqs t).start = (s.rqs t).start)
    (hstage : (s'.rqs t).wk.stage = .free) (hserved : ∀ x, Served s' (s'.threads x)) : Recorded s' where
  reqTid := by rw [hreqTid, hpub]; exact h.reqTid
  tids := by rw [hpub]; exact h.tids
  pubOnce := by rw [hpub]; exact h.pubOnce
  logOnce := by
    rw [hlog, List.map_append, List.map_singleton]
    exact List.nodup_append.mpr ⟨h.logOnce, List.nodup_singleton _, fun a ha b hb hab =>
      h.not_logged ht (by rw [List.mem_singleton] at hb; rw [hab, hb] at ha; exact ha)⟩
  started u hu := by
    by_cases hut : u = t
    · rw [hut, hstage] at hu
      cases hu
    · rw [hother u hut] at hu ⊢
      exact h.started u hu
  published u hu := by
    by_cases hut : u = t
    · rw [hut, hstage] at hu
      cases hu
    · rw [hother u hut] at hu ⊢
      rw [hpub]
      exact h.published u hu
  pub p hp := by
    rw [hpub] at hp
    rw [hlog, List.map_append, List.mem_append]
    rcases h.pub p hp with ⟨hs, hw⟩ | hl
    · by_cases hpt : p.tag = t
      · refine .inr (.inr (List.mem_singleton.mpr ?_))
        rw [hpt] at hs
        exact Prod.ext hpt hs.symm
      · rw [hother _ hpt]
        exact .inl ⟨hs, hw⟩
    · exact .inr (.inl hl)
  log e he := by
    rw [hlog, List.mem_append, List.mem_singleton] at he
    by_cases het : e.tag = t
    · rw [het, hstart, hstage]
      rcases he with he | rfl
      · have := (h.log e he).1
        rw [het] at this
        exact ⟨this, fun _ => rfl⟩
      · exact ⟨Nat.le_refl _, fun _ => rfl⟩
    · rw [hother _ het]
      rcases he with he | rfl
      · exact h.log e he
      · exact absurd rfl het
  entry e he tid heq := by
    rw [hpub]
    rw [hlog, List.mem_append, List.mem_singleton] at he
    rcases he with he | rfl
    · exact h.entry e he tid heq
    · exact hhow tid heq
  served := hserved

/-- A worker takes its step while no thread has its request. -/
theorem WkStep.wk_ne {s s' : State C} {t : C.Tag} {l : WkLabel C} (hs : WkStep s t l s') :
    (s.rqs t).wk ≠ .published := by
  cases hs <;> simp only [*] <;> nofun

theorem recorded_wkStep {s s' : State C} {t : C.Tag} {l : WkLabel C} (ho : Own s) (h : Recorded s)
    (hs : WkStep s t l s') (hl : l = .submit → s.reqTid ≠ 2 ^ 64 - 1) : Recorded s' := by
  have hserved : (∀ p ∈ s.pub, p ∈ s'.pub) → ∀ x, Served s' (s'.threads x) := by
    intro hpub x
    rw [hs.control.2.1]
    refine (h.served x).frame hpub fun u hu => ?_
    rw [hs.other]
    rintro rfl
    exact hs.wk_ne (ho.of_holds hu).1
  have hother : ∀ u, u ≠ t → s'.rqs u = s.rqs u := fun u hu => hs.other hu
  have hframe : s'.reqTid = s.reqTid → s'.pub = s.pub → s'.log = s.log →
      (s'.rqs t).tid = (s.rqs t).tid → (s'.rqs t).start = (s.rqs t).start →
      (s'.rqs t).wk.stage = (s.rqs t).wk.stage → Recorded s' := by
    intro hreqTid hpub hlog htid hstart hstage
    have hrq : ∀ {α : Type} (f : Rq C.pageSize → α), f (s'.rqs t) = f (s.rqs t) →
        ∀ u, f (s'.rqs u) = f (s.rqs u) := by
      intro α f hf u
      by_cases hu : u = t
      · rw [hu, hf]
      · rw [hother u hu]
    exact h.congr hreqTid hpub hlog (hrq Rq.tid htid) (hrq Rq.start hstart) (hrq (fun r => r.wk.stage) hstage)
      (hserved fun p hp => hpub ▸ hp)
  cases hs with
  | refused wk => exact h
  | rqStart wk r =>
    obtain ⟨op, w, hw, heq⟩ := startRq_eq s t r
    rw [heq] at hserved hother ⊢
    refine h.start (t := t) (by rw [wk]; rfl) rfl rfl rfl hother ?_ ?_ ?_ (hserved fun _ hp => hp)
    · simp [State.setRq_rqs]
    · simp [State.setRq_rqs]
    · rw [State.setRq_rqs, if_pos rfl]
      rcases hw with rfl | rfl <;> nofun
  | publish wk ring se =>
    have htid : inc64 s.reqTid = s.reqTid + 1 := if_neg (hl rfl)
    refine h.publish (t := t) (by rw [wk]; rfl) htid (by rw [htid]) rfl hother ?_ ?_ ?_
      (hserved fun p hp => List.mem_append_left _ hp)
    · simp [State.setRq_rqs, htid]
    · simp [State.setRq_rqs]
    · simp [State.setRq_rqs, Wk.stage]
  | endRequest e wk =>
    refine h.finish (t := t) (by rw [wk]; nofun) ?_ rfl rfl rfl hother ?_ ?_ (hserved fun _ hp => hp)
    · intro tid htid
      split at htid <;> cases htid
    · simp [State.setWk_rqs]
    · simp [State.setWk_rqs, Wk.stage]
  | _ =>
    refine hframe rfl rfl rfl ?_ ?_ ?_
    · simp [State.setWk_rqs, State.setRq_rqs]
    · simp [State.setWk_rqs, State.setRq_rqs]
    · simp [State.setWk_rqs, State.setRq_rqs, Wk.stage, *]

/-- Steps of threads that finish no request. -/
theorem Recorded.th_frame {s s' : State C} {x : Nat} {pc : Pc C} (h : Recorded s)
    (hth : s'.threads = (s.setPc x pc).threads) (hreqTid : s'.reqTid = s.reqTid) (hpub : s'.pub = s.pub)
    (hlog : s'.log = s.log) (htid : ∀ t, (s'.rqs t).tid = (s.rqs t).tid)
    (hstart : ∀ t, (s'.rqs t).start = (s.rqs t).start) (hwk : ∀ t, (s'.rqs t).wk = (s.rqs t).wk)
    (hx : Served s pc) : Recorded s' := by
  refine h.congr hreqTid hpub hlog htid hstart (fun t => by rw [hwk]) ?_
  have hframe : ∀ {pc : Pc C}, Served s pc → Served s' pc :=
    Served.frame (fun p hp => hpub ▸ hp) fun t _ => htid t
  rw [hth]
  exact forall_setPc (P := fun _ => Served s') (hframe hx) fun y _ => hframe (h.served y)

theorem recorded_thStep {s s' : State C} {x : Nat} {l : ThLabel} (ho : Own s) (h : Recorded s)
    (hs : ThStep s x l s') (hl : ∀ tid, l = .take tid → ∃ p ∈ s.pub, p.tid = tid) : Recorded s' := by
  have hx := h.served x
  have hframe : ∀ {s' : State C} {pc : Pc C}, s'.threads = (s.setPc x pc).threads →
      s'.reqTid = s.reqTid → s'.pub = s.pub → s'.log = s.log → s'.rqs = s.rqs → Served s pc →
      Recorded s' := fun hth hreqTid hpub hlog hrqs hpc =>
    h.th_frame hth hreqTid hpub hlog (fun _ => by rw [hrqs]) (fun _ => by rw [hrqs])
      (fun _ => by rw [hrqs]) hpc
  cases hs with
  | back l call pc => exact h
  | take tid pc => exact hframe rfl rfl rfl rfl rfl (hl tid rfl)
  | last tid pc lock t mem tid_eq st empty => exact hframe rfl rfl rfl rfl rfl tid_eq
  | fetch tid pc lock t mem tid_eq => exact hframe rfl rfl rfl rfl rfl tid_eq
  | setStopped t tid pc =>
    rw [pc] at hx
    exact hframe rfl rfl rfl rfl rfl hx
  | mark t by_ pc =>
    rw [pc] at hx
    exact hframe rfl rfl rfl rfl rfl (by cases by_ <;> exact hx)
  | released t by_ pc idle =>
    rw [pc] at hx
    exact h.th_frame rfl rfl rfl rfl (State.setRq_field Rq.tid rfl)
      (State.setRq_field Rq.start rfl) (State.setRq_field Rq.wk rfl) (by cases by_ <;> exact hx)
  | finish t by_ pc =>
    rw [pc] at hx
    obtain ⟨hwk, -⟩ := ho.of_holds (x := x) (t := t) (by rw [pc]; rfl)
    have hstage : (s.rqs t).wk.stage = .published := by rw [hwk]; rfl
    refine h.finish (t := t) (by rw [hstage]; nofun) ?_ rfl rfl rfl ?_ ?_ ?_ ?_
    · intro tid htid
      cases by_ with
      | entry tid' =>
        obtain rfl : tid' = tid := by simpa [By.how] using htid
        have := h.published t hstage
        rwa [show (s.rqs t).tid = tid' from hx] at this
      | removal => cases htid
    · intro u hu
      show ((s.setWk t _).rqs u) = _
      rw [State.setWk_rqs, if_neg hu]
    · show ((s.setWk t _).rqs t).start = _
      rw [State.setWk_rqs, if_pos rfl]
    · show ((finishRq s t by_).rqs t).wk.stage = _
      rw [finishRq_wk by_ hwk, if_pos rfl]
      rfl
    · refine forall_setPc (P := fun _ => Served _) trivial fun y _ => ?_
      refine Served.frame (s := s) (fun _ hp => hp) (fun u _ => ?_) (h.served y)
      refine State.setRq_field (s := s) (t := t) Rq.tid ?_ u
      rfl
  | remFlushed force snap pc flushed => exact hframe rfl rfl rfl rfl rfl (by cases force <;> trivial)
  | advance by_ pc => exact hframe rfl rfl rfl rfl rfl (by cases by_ <;> trivial)
  | _ => exact hframe rfl rfl rfl rfl rfl trivial

/-! ## The parties -/

/-- The backend answers commands it has read. -/
def Answers (s : State C) : Label C → Prop
  | .th _ (.take tid) => ∃ p ∈ s.pub, p.tid = tid
  | _ => True

/-- No more than `2 ^ 64 - 1` commands are published. -/
def Unwrapped (s : State C) : Label C → Prop
  | .rq _ .submit => s.pub.length < 2 ^ 64 - 1
  | _ => True

/-- A removal ends the requests on the list when the workers are done with
them. -/
def SplicesQuiet (s : State C) : Label C → Prop
  | .th _ .remSplice => Quiet s
  | _ => True

theorem step_pub {s s' : State C} {a : Label C} (hs : step s a = some s') :
    s'.pub.length ≤ s.pub.length + 1 := by
  cases step_cases hs with
  | rq hw =>
    cases hw with
    | publish wk ring se => exact Nat.le_of_eq (List.length_append ..)
    | rqStart wk r =>
      obtain ⟨op, w, -, heq⟩ := startRq_eq _ _ r
      rw [heq]
      exact Nat.le_succ _
    | _ => exact Nat.le_succ _
  | th ht => cases ht <;> exact Nat.le_succ _
  | _ => exact Nat.le_succ _

/-- A run of fewer than `2 ^ 64` steps. -/
theorem unwrapped_of_length {s : State C} {as : List (Label C)} (h : s.pub.length + as.length < 2 ^ 64) :
    (lts C).Steps (fun s a _ => Unwrapped s a) s as := by
  induction as generalizing s with
  | nil => trivial
  | cons a as ih =>
    rw [List.length_cons] at h
    intro s' hs
    have hpub := step_pub hs
    refine ⟨?_, ih (by omega)⟩
    cases a with
    | rq t l =>
      cases l with
      | submit => exact (by omega : s.pub.length < 2 ^ 64 - 1)
      | _ => trivial
    | _ => trivial

/-- A request on the list is published, or its worker has not yet dealt with
the ring. -/
theorem Own.wk_of_mem {s : State C} (h : Own s) {t : C.Tag} (ht : t ∈ s.inflight) :
    (s.rqs t).wk = .published ∨ ((s.rqs t).wk.stage = .started ∧ (s.rqs t).wk.busy = true) := by
  have hat := (h.at_none ht).1
  have hpl := h.placed t
  cases hwk : (s.rqs t).wk with
  | inserted => exact .inr ⟨rfl, rfl⟩
  | full => exact .inr ⟨rfl, rfl⟩
  | published => exact .inl rfl
  | _ =>
    rw [hwk] at hpl
    have := hpl none
    omega

/-- Every request is where it belongs, and recorded. -/
structure Traced (s : State C) : Prop where
  own : Own s
  recorded : Recorded s

theorem traced_init (n r : Nat) : Traced (initState C n r) := ⟨own_init n r, recorded_init n r⟩

/-- Completions find published requests, since their entries carry the tid of
a publication. -/
theorem Traced.takesPublished {s : State C} (h : Traced s) {a : Label C} (hq : SplicesQuiet s a) :
    TakesPublished s a := by
  cases a with
  | th x l =>
    cases l with
    | fetch =>
      intro tid htook t ht htid
      refine (h.own.wk_of_mem ht).resolve_right fun ⟨hstage, _⟩ => ?_
      have hserved := h.recorded.served x
      rw [htook] at hserved
      obtain ⟨p, hp, hptid⟩ := hserved
      have h₁ := h.recorded.tid_pos hp
      have h₂ := h.recorded.started t hstage
      omega
    | remSplice =>
      intro t ht
      refine (h.own.wk_of_mem ht).resolve_right fun ⟨_, hbusy⟩ => ?_
      rw [hq t] at hbusy
      cases hbusy
    | _ => trivial
  | _ => trivial

theorem traced_step {s s' : State C} {a : Label C} (h : Traced s) (hs : step s a = some s')
    (ha : Answers s a) (hu : Unwrapped s a) (hq : SplicesQuiet s a) : Traced s' := by
  refine ⟨own_step h.own hs (h.takesPublished hq), ?_⟩
  cases step_cases hs with
  | rq hw =>
    refine recorded_wkStep h.own h.recorded hw fun hl => ?_
    subst hl
    rw [h.recorded.reqTid]
    exact Nat.ne_of_lt hu
  | th ht =>
    refine recorded_thStep h.own h.recorded ht fun tid hl => ?_
    subst hl
    exact ha
  | _ => exact h.recorded.congr rfl rfl rfl (fun _ => rfl) (fun _ => rfl) (fun _ => rfl) h.recorded.served

/-- Every started request is finished at most once, in one of the four ways,
and by a completion entry only if the tid is that of its own publication and
of no other. A request that is published and not finished is in one place.
The completion entry of a finished request changes nothing. -/
structure Once (s : State C) : Prop where
  once : (s.log.map Finish.key).Nodup
  own : ∀ e ∈ s.log, ∀ tid, e.how = .entry tid →
    ∃ p ∈ s.pub, p.key = e.key ∧ ∀ q ∈ s.pub, q.tid = tid ↔ q = p
  kept : ∀ p ∈ s.pub, p.key ∉ s.log.map Finish.key →
    (s.rqs p.tag).start = p.start ∧ (s.rqs p.tag).tid = p.tid ∧ ∃ q, At s p.tag q
  stale : ∀ x, ∀ p ∈ s.pub, s.threads x = .took p.tid → p.key ∈ s.log.map Finish.key →
    ∀ s', step s (.th x .fetch) = some s' → s' = s.setPc x .again

theorem Wk.published_of_stage {w : Wk} (h : w.stage = .published) : w = .published := by
  cases w <;> first | rfl | cases h

theorem Traced.kept {s : State C} (h : Traced s) {p : Pub C} (hp : p ∈ s.pub)
    (hlog : p.key ∉ s.log.map Finish.key) :
    (s.rqs p.tag).start = p.start ∧ (s.rqs p.tag).tid = p.tid ∧ ∃ q, At s p.tag q := by
  obtain ⟨hstart, hstage⟩ := (h.recorded.pub p hp).resolve_right hlog
  have hmem := h.recorded.published p.tag hstage
  have hkey : (⟨(s.rqs p.tag).tid, p.tag, (s.rqs p.tag).start⟩ : Pub C) = p :=
    List.inj_on_of_nodup_map h.recorded.pubOnce hmem hp (Prod.ext rfl hstart)
  have hpl := h.own.placed p.tag
  rw [Wk.published_of_stage hstage] at hpl
  exact ⟨hstart, congrArg Pub.tid hkey, hpl⟩

/-- No request on the list has the tid of a finished one. -/
theorem Traced.stale {s : State C} (h : Traced s) {p : Pub C} (hp : p ∈ s.pub)
    (hlog : p.key ∈ s.log.map Finish.key) {t : C.Tag} (ht : t ∈ s.inflight) : (s.rqs t).tid ≠ p.tid := by
  intro htid
  rcases h.own.wk_of_mem ht with hwk | ⟨hstage, -⟩
  · have hstage : (s.rqs t).wk.stage = .published := by rw [hwk]; rfl
    have hp' := h.recorded.tid_inj (h.recorded.published t hstage) hp htid
    rw [← hp'] at hlog
    exact h.recorded.not_logged (by rw [hstage]; nofun) hlog
  · have h₁ := h.recorded.tid_pos hp
    have h₂ := h.recorded.started t hstage
    omega

theorem Traced.once {s : State C} (h : Traced s) : Once s where
  once := h.recorded.logOnce
  own e he tid heq := by
    have hmem := h.recorded.entry e he tid heq
    refine ⟨_, hmem, rfl, fun q hq => ⟨fun htid => ?_, fun htid => ?_⟩⟩
    · exact h.recorded.tid_inj hq hmem htid
    · rw [htid]
  kept _ hp hlog := h.kept hp hlog
  stale x p hp htook hlog s' hs := by
    cases step_cases hs with
    | th ht =>
      cases ht with
      | back l call pc => cases call
      | miss tid pc lock absent => rfl
      | last tid pc lock t mem tid_eq st empty =>
        rw [htook] at pc
        cases pc
        exact absurd tid_eq (h.stale hp hlog mem)
      | fetch tid pc lock t mem tid_eq =>
        rw [htook] at pc
        cases pc
        exact absurd tid_eq (h.stale hp hlog mem)

/-- Without stops and starts a removal has waited for the workers. -/
theorem GoneAll.splicesQuiet {s s' : State C} {a : Label C} (h : GoneAll s) (hs : step s a = some s') :
    SplicesQuiet s a := by
  cases step_cases hs with
  | th ht =>
    rename_i x l
    have hx := h.2 x
    cases ht with
    | remSplice pc lock =>
      rw [pc] at hx
      exact hx.2
    | back l call pc => cases l <;> trivial
    | _ => trivial
  | _ => trivial

/-- In every run of any number of workers, completions and removals, with a
backend that answers commands it has read in any order and any number of
times, as long as fewer than `2 ^ 64` commands are published. -/
theorem finished_once (C : Conf) (n r : Nat) (as : List (Label C))
    (h : (lts C).Steps (fun s a _ => NoStopStart a ∧ Answers s a ∧ Unwrapped s a) (initState C n r) as) :
    (lts C).States Once (initState C n r) as := by
  refine (Lts.states_of_steps (I := fun s => GoneAll s ∧ Traced s) (fun s a s' hi hs ha => ?_)
    ⟨goneAll_init n r, traced_init n r⟩ h).mono fun _ hi => hi.2.once
  exact ⟨goneAll_step hi.1 hs ha.1, traced_step hi.2 hs ha.2.1 ha.2.2 (hi.1.splicesQuiet hs)⟩

/-- The steps of `ubbd_queue_complete` that complete a flush. -/
def completeFlush (x tid : Nat) : List (Label C) :=
  [.th x (.take tid), .th x .fetch, .th x .mark, .th x .released, .th x .finish, .th x .advance]

/-- A flush is completed, and its entry is posted again. -/
def answeredTwice : List (Label (sampleConf 1)) :=
  publishFlush ⟨0, sampleConf_tags_pos⟩ ++ .th 0 .enter :: completeFlush 0 1 ++ [.th 0 (.take 1), .th 0 .fetch]

theorem finished_once_answeredTwice :
    (lts (sampleConf 1)).States Once (initState (sampleConf 1) 8 6) answeredTwice ∧
      ∃ s, (lts (sampleConf 1)).exec (initState (sampleConf 1) 8 6) answeredTwice = some s ∧
        s.threads 0 = .again ∧ s.log.length = 1 := by
  refine ⟨finished_once _ _ _ _ ?_, _, rfl, rfl, rfl⟩
  unfold answeredTwice
  iterate 5 refine Lts.Steps.cons rfl ⟨trivial, trivial, trivial⟩ ?_
  refine Lts.Steps.cons rfl ⟨trivial, trivial, show 0 < 2 ^ 64 - 1 by decide⟩ ?_
  refine Lts.Steps.cons rfl ⟨rfl, trivial, trivial⟩ ?_
  refine Lts.Steps.cons rfl ⟨rfl, ⟨_, List.mem_singleton.mpr rfl, rfl⟩, trivial⟩ ?_
  iterate 5 refine Lts.Steps.cons rfl ⟨rfl, trivial, trivial⟩ ?_
  refine Lts.Steps.cons rfl ⟨rfl, ⟨_, List.mem_singleton.mpr rfl, rfl⟩, trivial⟩ ?_
  exact Lts.Steps.cons rfl ⟨rfl, trivial, trivial⟩ trivial

/-! ## When `req_tid` has gone round -/

/-- The data of a flush up to its publication. -/
def flushRq (start : Nat) (w : Wk) : Rq C.pageSize := ⟨start, flushReq _, .flush, 0, 0, 0, false, w⟩

/-- The steps of a flush up to the list. -/
def insertFlush (t : C.Tag) : List (Label C) :=
  [.rq t .rqRead, .rq t (.rqStart (flushReq _)), .rq t .status, .rq t (.prepare true), .rq t .insert]

theorem exec_insertFlush {s : State C} {t : C.Tag} (hwk : (s.rqs t).wk = .none) (hst : s.status = .running)
    (hlock : s.inflightLock = none) :
    (lts C).exec s (insertFlush t) = some { s with
      pages := s.pages.setReq t Pages.Req.fresh
      rqs := Function.update s.rqs t (flushRq ((s.rqs t).start + 1) .inserted)
      inflight := s.inflight ++ [t] } := by
  simp [insertFlush, Lts.exec, lts, step, stepWk, hwk, hst, hlock, State.setWk, State.setRq, startRq, ubbdOp,
    show (flushReq C.pageSize).op = .flush from rfl, prepareRq, Request.ubbdReqSegments, ubbdReqNodata, flushRq]

theorem step_submit {s : State C} {t : C.Tag} {ring : CmdRing} (hwk : (s.rqs t).wk = .inserted)
    (hr : Ring.submit C.header s.ring (cmdOf s t) = some ring) :
    step s (.rq t .submit) = some (publishRq s t (inc64 s.reqTid)
      (Ring.sePos C.header s.ring (cmdOf s t)) (some ring)) := by
  rw [← hr]
  exact if_pos hwk

theorem exec_completeFlush {s : State C} {t : C.Tag} {x tid : Nat} (hth : s.threads x = .again)
    (hlock : s.inflightLock = none) (hin : s.inflight = [t]) (htid : (s.rqs t).tid = tid)
    (hst : s.status = .running) (hwk : (s.rqs t).wk = .published) (hpc : (s.pages.reqs t).pc = .idle) :
    (lts C).exec s (completeFlush x tid) = some { s with
      ring := Ring.advanceCmdRing C.header (Ring.setDone C.header s.ring (s.rqs t).se)
      rqs := Function.update s.rqs t { s.rqs t with heapPi := false, wk := .none }
      inflight := []
      threads := Function.update s.threads x .again
      log := s.log ++ [⟨t, (s.rqs t).start, .entry tid⟩] } := by
  simp [completeFlush, Lts.exec, lts, step, stepTh, hwk, hth, hst, hlock, hin, htid, State.setWk,
    State.setRq, State.setPc, fetchReq, finishRq, By.how, By.next, hpc, Pages.step]

/-- A flush from start to end. -/
def flushCycle (t : C.Tag) (tid : Nat) : List (Label C) := insertFlush t ++ .rq t .submit :: completeFlush 0 tid

theorem answers_insertFlush (s : State C) (t : C.Tag) :
    (lts C).Steps (fun s a _ => NoStopStart a ∧ Answers s a) s (insertFlush t) :=
  Lts.steps_of_forall (by simp [insertFlush, NoStopStart, Answers]) s

/-- The only tag of the sample queue. -/
def tag : (sampleConf 1).Tag := ⟨0, sampleConf_tags_pos⟩

/-- A queue at rest, with a completion waiting for entries, after `k`
publications the last of which had this tid. -/
structure Rest (k tid : Nat) (s : State (sampleConf 1)) : Prop where
  status : s.status = .running
  wk : (s.rqs tag).wk = .none
  inflight : s.inflight = []
  thread : s.threads 0 = .again
  lock : s.inflightLock = none
  reqTid : s.reqTid = tid
  pub : s.pub.length = k
  rep : Ring.Rep (sampleConf 1).header s.ring []
  dvd : 32 ∣ s.ring.cmdHead

/-- The ring takes a flush, and has it reclaimed when it is done. -/
theorem ring_flush {r : CmdRing} (hr : Ring.Rep (sampleConf 1).header r []) (hd : 32 ∣ r.cmdHead) {c : Cmd}
    (hc : c.Ok) (hiov : c.iov = []) :
    ∃ r', Ring.submit (sampleConf 1).header r c = some r' ∧
      ∀ r'', r'' = Ring.advanceCmdRing (sampleConf 1).header
          (Ring.setDone (sampleConf 1).header r' (Ring.sePos (sampleConf 1).header r c)) →
        Ring.Rep (sampleConf 1).header r'' [] ∧ 32 ∣ r''.cmdHead := by
  have hsize : (sampleConf 1).header.ubbdGetCmdSize c.iov.length = 32 := by rw [hiov]; rfl
  have hhead : r.cmdHead < 256 := hr.dist.1
  have hused : Ring.spaceUsed (sampleConf 1).header r = 0 := hr.spaceUsed
  have havail : Ring.spaceAvailable (sampleConf 1).header r + Ring.spaceUsed (sampleConf 1).header r = 248 :=
    hr.spaceAvailable
  have hneed : Ring.spaceNeeded (sampleConf 1).header r 32 =
      if 32 < 256 - r.cmdHead then 32 else 32 + (256 - r.cmdHead) := hr.spaceNeeded (by decide)
  have henough : Ring.submitRingSpaceEnough (sampleConf 1).header r 32 = true := by
    unfold Ring.submitRingSpaceEnough
    rw [if_neg]
    split at hneed <;> omega
  have hsub : Ring.sub32 (sampleConf 1).header.cmdrSize r.cmdHead = 256 - r.cmdHead :=
    Ring.sub32_eq (Nat.le_of_lt hhead) (by decide)
  have hpad : Ring.insertPadding (sampleConf 1).header r 32 = r := by
    unfold Ring.insertPadding
    rw [hsub, if_pos (by omega)]
  have hroom : 32 ≤ (sampleConf 1).header.cmdrSize - (sampleConf 1).header.cmdrReserved := by decide
  have hfit : r.cmdHead + 32 ≤ (sampleConf 1).header.cmdrSize := by show _ ≤ 256; omega
  rw [← hsize] at henough hpad hroom hfit
  obtain ⟨r', hr', hrep, hhead'⟩ := hr.submit_done hc henough hpad hfit hroom
  refine ⟨r', hr', fun r'' hr'' => ?_⟩
  rw [hr'', hhead', hsize]
  refine ⟨hrep, ?_⟩
  show 32 ∣ (r.cmdHead + 32) % 256
  omega

/-- The command of a flush. -/
def flushCmd (C : Conf) (tid : Nat) : Cmd := (flushReq C.pageSize).seCmd .flush C.dataOff tid []

theorem exec_flushCycle {s : State C} {t : C.Tag} {tid : Nat} {ring : CmdRing} (hwk : (s.rqs t).wk = .none)
    (hst : s.status = .running) (hlock : s.inflightLock = none) (hin : s.inflight = [])
    (hth : s.threads 0 = .again) (htid : inc64 s.reqTid = tid)
    (hr : Ring.submit C.header s.ring (flushCmd C tid) = some ring) :
    ∃ r : Rq C.pageSize, r.wk = .none ∧ (lts C).exec s (flushCycle t tid) = some { s with
      ring := Ring.advanceCmdRing C.header
        (Ring.setDone C.header ring (Ring.sePos C.header s.ring (flushCmd C tid)))
      reqTid := tid
      pages := s.pages.setReq t Pages.Req.fresh
      rqs := Function.update s.rqs t r
      threads := Function.update s.threads 0 .again
      pub := s.pub ++ [⟨tid, t, (s.rqs t).start + 1⟩]
      log := s.log ++ [⟨t, (s.rqs t).start + 1, .entry tid⟩] } ∧
      (lts C).Steps (fun s a _ => NoStopStart a ∧ Answers s a) s (flushCycle t tid) := by
  have he := exec_insertFlush hwk hst hlock
  rw [hin, List.nil_append] at he
  generalize hs₁ : ({ s with
    pages := s.pages.setReq t Pages.Req.fresh
    rqs := Function.update s.rqs t (flushRq ((s.rqs t).start + 1) .inserted)
    inflight := [t] } : State C) = s₁ at he
  have hrq : s₁.rqs t = flushRq ((s.rqs t).start + 1) .inserted := by
    rw [← hs₁]
    exact Function.update_self ..
  have hpages : s₁.pages.reqs t = Pages.Req.fresh := by
    rw [← hs₁]
    exact Function.update_self ..
  have hreqTid : inc64 s₁.reqTid = tid := by
    rw [← hs₁]
    exact htid
  have hring : s₁.ring = s.ring := by rw [← hs₁]
  have hcmd : cmdOf s₁ t = flushCmd C tid := by
    rw [cmdOf, hrq, hpages, hreqTid]
    rfl
  have hr₁ : Ring.submit C.header s₁.ring (cmdOf s₁ t) = some ring := by
    rw [hcmd, hring]
    exact hr
  have hs₂ := step_submit (by rw [hrq]; rfl) hr₁
  rw [hreqTid, hcmd, hring] at hs₂
  refine ⟨{ flushRq ((s.rqs t).start + 1) .none with
    tid := tid, se := Ring.sePos C.header s.ring (flushCmd C tid) }, rfl, ?_, ?_⟩
  · rw [flushCycle, Lts.exec_append, he, Option.bind_some, Lts.exec_cons hs₂,
      exec_completeFlush (t := t) (by rw [← hs₁]; exact hth) (by rw [← hs₁]; exact hlock) (by rw [← hs₁]; rfl)]
    · simp [publishRq, State.setRq, ← hs₁, flushRq, hin]
    · simp [publishRq, State.setRq]
    · rw [← hs₁]
      exact hst
    · simp [publishRq, State.setRq]
    · exact congrArg Pages.Req.pc hpages
  · refine (answers_insertFlush s t).append fun s' hs' => ?_
    rw [he] at hs'
    cases hs'
    refine Lts.Steps.cons hs₂ ⟨trivial, trivial⟩ fun s' _ => ⟨⟨rfl, ?_⟩, Lts.steps_of_forall ?_ s'⟩
    · exact ⟨⟨tid, t, (s₁.rqs t).start⟩, List.mem_append_right _ (List.mem_singleton.mpr rfl), rfl⟩
    · simp [NoStopStart, Answers, ThLabel.manages]

theorem flushCmd_ok {tid : Nat} (htid : tid < 2 ^ 64) : (flushCmd C tid).Ok where
  op := nofun
  privData := htid
  offset := Nat.mod_lt _ (by decide)
  len := show 0 < 2 ^ 32 by decide
  iov := nofun
  segs := Nat.zero_le _

theorem Rest.cycle {k tid : Nat} {s : State (sampleConf 1)} (h : Rest k tid s) (htid : tid < 2 ^ 64) :
    ∃ s', (lts (sampleConf 1)).exec s (flushCycle tag (inc64 tid)) = some s' ∧
      (lts (sampleConf 1)).Steps (fun s a _ => NoStopStart a ∧ Answers s a) s (flushCycle tag (inc64 tid)) ∧
      Rest (k + 1) (inc64 tid) s' ∧ ∃ p ∈ s'.pub, p.tid = inc64 tid ∧ p.key ∈ s'.log.map Finish.key := by
  obtain ⟨ring, hring, hrest⟩ := ring_flush h.rep h.dvd (flushCmd_ok (C := sampleConf 1) (inc64_lt htid)) rfl
  have hreqTid : inc64 s.reqTid = inc64 tid := by rw [h.reqTid]
  generalize inc64 tid = tid' at hring hrest hreqTid ⊢
  obtain ⟨r, hr, he, hok⟩ := exec_flushCycle h.wk h.status h.lock h.inflight h.thread hreqTid hring
  obtain ⟨hrep, hdvd⟩ := hrest _ rfl
  refine ⟨_, he, hok, ⟨h.status, ?_, h.inflight, rfl, h.lock, rfl, ?_, hrep, hdvd⟩, ?_⟩
  · exact hr
  · simp [h.pub]
  · refine ⟨_, List.mem_append_right _ (List.mem_singleton.mpr rfl), rfl, ?_⟩
    simp [Pub.key, Finish.key]

theorem rest_after (k : Nat) (hk : k < 2 ^ 64) :
    ∃ as s, (lts (sampleConf 1)).exec (initState (sampleConf 1) 8 6) as = some s ∧
      (lts (sampleConf 1)).Steps (fun s a _ => NoStopStart a ∧ Answers s a) (initState (sampleConf 1) 8 6) as ∧
      Rest k k s := by
  induction k with
  | zero =>
    refine ⟨[.th 0 .enter], _, rfl, Lts.Steps.cons rfl ⟨rfl, trivial⟩ trivial,
      ⟨rfl, rfl, rfl, rfl, rfl, rfl, rfl, ?_, show 32 ∣ 0 by decide⟩⟩
    exact ⟨rfl, show 0 < 256 by decide, Nat.dvd_zero _, nofun, nofun, Nat.zero_le _, nofun⟩
  | succ k ih =>
    obtain ⟨as, s, he, hok, hrest⟩ := ih (by omega)
    obtain ⟨s', he', hok', hrest', -⟩ := hrest.cycle (by omega)
    have hinc : inc64 k = k + 1 := if_neg (by omega)
    rw [hinc] at he' hok' hrest'
    refine ⟨as ++ flushCycle tag (k + 1), s', ?_, hok.append fun s₁ hs₁ => ?_, hrest'⟩
    · rw [Lts.exec_append, he, Option.bind_some, he']
    · rw [he] at hs₁
      cases hs₁
      exact hok'

/-- After `2 ^ 64` publications the tid of a command that was answered is also
that of a request on the list, and a second answer takes that request. -/
theorem wrapped_not_once :
    ∃ as s, (lts (sampleConf 1)).Steps (fun s a _ => NoStopStart a ∧ Answers s a) (initState (sampleConf 1) 8 6) as ∧
      (lts (sampleConf 1)).exec (initState (sampleConf 1) 8 6) as = some s ∧ s.pub.length = 2 ^ 64 ∧
      ¬ Once s := by
  obtain ⟨as, s, he, hok, hrest⟩ := rest_after (2 ^ 64 - 1) (by decide)
  obtain ⟨s₁, he₁, hok₁, hrest₁, p, hp, hptid, hplog⟩ := hrest.cycle (by decide)
  have hinc : inc64 (2 ^ 64 - 1) = 0 := if_pos rfl
  rw [hinc] at he₁ hok₁ hrest₁ hptid
  have he₂ := exec_insertFlush hrest₁.wk hrest₁.status hrest₁.lock
  rw [hrest₁.inflight, List.nil_append] at he₂
  generalize hs₂ : ({ s₁ with
    pages := s₁.pages.setReq tag Pages.Req.fresh
    rqs := Function.update s₁.rqs tag (flushRq ((s₁.rqs tag).start + 1) .inserted)
    inflight := [tag] } : State (sampleConf 1)) = s₂ at he₂
  have hth : s₂.threads 0 = .again := by rw [← hs₂]; exact hrest₁.thread
  have hpub : s₂.pub = s₁.pub := by rw [← hs₂]
  have hlog : s₂.log = s₁.log := by rw [← hs₂]
  have htake : step s₂ (.th 0 (.take 0)) = some (s₂.setPc 0 (.took 0)) := by simp [step, stepTh, hth]
  have hfetch : step (s₂.setPc 0 (.took 0)) (.th 0 .fetch) =
      some { s₂.setPc 0 (.mark tag (.entry 0)) with inflight := [] } := by
    simp [step, stepTh, fetchReq, State.setPc, ← hs₂, flushRq, hrest₁.status, hrest₁.lock]
  have hrun : (lts (sampleConf 1)).exec (initState (sampleConf 1) 8 6)
      ((as ++ flushCycle tag 0) ++ insertFlush tag) = some s₂ := by
    rw [Lts.exec_append, Lts.exec_append, he, Option.bind_some, he₁, Option.bind_some, he₂]
  refine ⟨((as ++ flushCycle tag 0) ++ insertFlush tag) ++ [.th 0 (.take 0)], s₂.setPc 0 (.took 0),
    ?_, ?_, ?_, fun honce => ?_⟩
  · refine ((hok.append fun s' hs' => ?_).append fun s' _ => answers_insertFlush s' tag).append
      fun s' hs' => ?_
    · rw [he] at hs'
      cases hs'
      exact hok₁
    · rw [hrun] at hs'
      cases hs'
      exact Lts.Steps.cons htake ⟨rfl, p, by rw [hpub]; exact hp, hptid⟩ trivial
  · rw [Lts.exec_append, hrun, Option.bind_some, Lts.exec_cons htake]
    rfl
  · show s₂.pub.length = 2 ^ 64
    rw [hpub, hrest₁.pub]
    decide
  · have hstale := honce.stale 0 p (hpub ▸ hp) (by rw [hptid]; rfl) (hlog ▸ hplog) _ hfetch
    exact absurd (congrFun (congrArg State.threads hstale) 0) (by simp [State.setPc])

end Ubbd.Queue

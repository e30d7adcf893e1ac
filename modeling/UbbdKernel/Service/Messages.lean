import UbbdKernel.Queue.Kept
import UbbdKernel.Service.Exchange

/-!
# What was sent and the requests

Each message is the command of its request, with the data copied for it, as long
as the request is pending (`Messages.own`); when it no longer is, the message
was answered, or a forced removal has ended the request, and then the indices in
its command are nobody's any more (`Messages.past`).
-/

namespace Ubbd.Service

open Queue (Pc By ThStep WkStep Wk Keeping Pending)

variable {C : Conf} {s s' : State C}

/-- The request of a message is pending. -/
def Alive (s : State C) (m : C.Key × Msg) : Prop :=
  Pending s.queue m.1.1 ∧ (s.queue.rqs m.1.1).start = m.1.2

/-- The command of a published request. -/
def cmdNow (s : State C) (t : C.Tag) : Cmd :=
  (s.queue.rqs t).req.seCmd (s.queue.rqs t).op C.data.dataOff (s.queue.rqs t).tid (s.queue.pages.reqs t).pi

/-- A removal has ended the request of the command: who has data pages has
others. -/
structure Dropped (s : State C) (c : Cmd) : Prop where
  spliced : Queue.Spliced s.queue
  iov : ∀ v ∈ c.iov, ∃ x bv, v = Data.iovOf C.data x bv ∧ x < 2 ^ 31 ∧ bv.off + bv.len ≤ C.data.pageSize ∧
    ∀ t, Keeping s.queue t → x ∉ (s.queue.pages.reqs t).pi

/-- `ubbd_get_data_pages` has not returned for the request. -/
def preparing : Wk → Bool
  | .queued | .passed | .pages => true
  | _ => false

structure Messages (s : State C) : Prop where
  fresh : ∀ t, preparing (s.queue.rqs t).wk = true → s.copied t = []
  copied : ∀ t, Keeping s.queue t → (s.queue.rqs t).wk ≠ .prepared → (s.queue.rqs t).req.op = .write →
    (s.copied t).length = (s.queue.rqs t).req.segments.length
  own : ∀ m ∈ s.sent, Alive s m → m.2 = ⟨cmdNow s m.1.1, s.copied m.1.1⟩
  past : ∀ m ∈ s.sent, Alive s m ∨ m.2.cmd.privData ∈ s.posted.map Prod.fst ∨ Dropped s m.2.cmd

theorem messages_init (n r : Nat) : Messages (initState C n r) where
  fresh _ _ := rfl
  copied t h := by cases h.1
  own := nofun
  past := nofun

/-! ## The indices of a command -/

/-- The ranges of a command are those of the indices of the request. -/
theorem iov_of_mem {r : Request C.data.pageSize} {pi : List Nat} {op : UbbdOp} {tid : Nat} {v : Iovec}
    (h : v ∈ (r.seCmd op C.data.dataOff tid pi).iov) :
    ∃ x ∈ pi, ∃ bv, v = Data.iovOf C.data x bv ∧ bv.off + bv.len ≤ C.data.pageSize := by
  obtain ⟨k, hk, rfl⟩ := List.getElem_of_mem h
  have hlen : k < (r.seIov C.data.dataOff pi).length := hk
  rw [Request.seIov, List.length_zipWith] at hlen
  obtain ⟨bio, hbio, hbv⟩ := List.mem_flatten.mp (List.getElem_mem (l := r.segments) (n := k) (by omega))
  refine ⟨pi[k], List.getElem_mem _, r.segments[k], ?_, r.single bio hbio _ hbv⟩
  simp only [Request.seCmd, Request.seIov, List.getElem_zipWith]
  rfl

/-! ## Steps -/

/-- Steps that change neither requests nor pages, and copy for requests that are
prepared. -/
theorem Messages.frame (h : Messages s) (hrqs : s'.queue.rqs = s.queue.rqs) (hpages : s'.queue.pages = s.queue.pages)
    (hrel : ∀ x, (s'.queue.threads x).releases = (s.queue.threads x).releases)
    (hsp : Queue.Spliced s.queue → Queue.Spliced s'.queue)
    (hcopied : ∀ t, (s.queue.rqs t).wk ≠ .prepared → s'.copied t = s.copied t) (hsent : s'.sent = s.sent)
    (hposted : s.posted <+: s'.posted) : Messages s' := by
  have hkeep : ∀ t, Keeping s'.queue t ↔ Keeping s.queue t := fun t => by
    unfold Keeping
    simp only [hrqs, hrel]
  have halive : ∀ m, Alive s' m ↔ Alive s m := fun m => by
    unfold Alive Pending
    simp only [hrqs, hrel]
  refine ⟨fun t ht => ?_, fun t ht hwk hop => ?_, fun m hm ha => ?_, fun m hm => ?_⟩
  · rw [hrqs] at ht
    rw [hcopied t (by intro he; rw [he] at ht; cases ht)]
    exact h.fresh t ht
  · rw [hrqs] at hwk hop ⊢
    rw [hcopied t hwk]
    exact h.copied t ((hkeep t).mp ht) hwk hop
  · have ha := (halive m).mp ha
    rw [hcopied _ (by rw [ha.1.1]; nofun)]
    unfold cmdNow
    rw [hrqs, hpages]
    exact h.own m (hsent ▸ hm) ha
  · rcases h.past m (hsent ▸ hm) with ha | hp | hd
    · exact .inl ((halive m).mpr ha)
    · exact .inr (.inl ((hposted.map _).subset hp))
    · refine .inr (.inr ⟨hsp hd.spliced, fun v hv => ?_⟩)
      obtain ⟨x, bv, hv, hx, hbv, hout⟩ := hd.iov v hv
      refine ⟨x, bv, hv, hx, hbv, fun t ht => ?_⟩
      rw [hpages]
      exact hout t ((hkeep t).mp ht)

/-- The requests and pages when a caller looks for the request of its entry. -/
theorem fetch_rqs {q q₁ q₂ : Queue.State C.queue} {x tid : Nat} (h₁ : Queue.step q (.th x (.take tid)) = some q₁)
    (h₂ : Queue.step q₁ (.th x .fetch) = some q₂) :
    q₂.rqs = q.rqs ∧ q₂.pages = q.pages ∧ (∀ y, (q₂.threads y).releases = (q.threads y).releases) ∧
      (Queue.Spliced q → Queue.Spliced q₂) := by
  have hth₁ : ThStep q x (.take tid) q₁ := Queue.stepTh_cases h₁
  have hth₂ : ThStep q₁ x .fetch q₂ := Queue.stepTh_cases h₂
  obtain ⟨pc, hother, hx⟩ := fetch_threads h₁ h₂
  have hq₁ : q₁.rqs = q.rqs ∧ q₁.pages = q.pages := by cases hth₁ <;> exact ⟨rfl, rfl⟩
  have hq₂ : q₂.rqs = q₁.rqs ∧ q₂.pages = q₁.pages := by cases hth₂ <;> exact ⟨rfl, rfl⟩
  refine ⟨hq₂.1.trans hq₁.1, hq₂.2.trans hq₁.2, fun y => ?_, fun hsp => (hsp.step h₁).step h₂⟩
  by_cases hyx : y = x
  · rw [hyx, pc]
    rcases hx with hx | ⟨t, -, hx | hx⟩ <;> rw [hx] <;> rfl
  · rw [hother y hyx]

theorem copiedAfter_eq {l : Queue.Label C.queue} {t : C.Tag} (hl : ∀ r, l ≠ .rq t (.rqStart r)) :
    copiedAfter s l t = s.copied t := by
  unfold copiedAfter
  split
  · rename_i u r
    refine Function.update_of_ne ?_ _ _
    rintro rfl
    exact hl r rfl
  · rfl

theorem preparing_trans {st : QueueStatus} {w w' : Wk} (h : Queue.WkTrans st w w') (hw : preparing w' = true) :
    preparing w = true := by
  cases h <;> first | exact hw | rfl

/-- Only its start takes a request on that may start, only its insertion one
that is prepared. -/
theorem started_of_starting {q q' : Queue.State C.queue} {t : C.Tag} {l : Queue.WkLabel C.queue} (hw : WkStep q t l q')
    (hl : ∀ r, l ≠ .rqStart r) : (q.rqs t).wk ≠ .starting := by
  cases hw <;> first | exact absurd rfl (hl _) | (simp only [*]; nofun)

theorem inserted_of_prepared {q q' : Queue.State C.queue} {t : C.Tag} {l : Queue.WkLabel C.queue}
    (hw : WkStep q t l q') (hl : l ≠ .insert) : (q.rqs t).wk ≠ .prepared := by
  cases hw <;> first | exact absurd rfl hl | (simp only [*]; nofun)

/-- A request that is being prepared after a step was so before, or is started
by it. -/
theorem preparing_step {q q' : Queue.State C.queue} {l : Queue.Label C.queue} (hq : Queue.step q l = some q')
    {t : C.Tag} (ht : preparing (q'.rqs t).wk = true) :
    preparing (q.rqs t).wk = true ∨ ∃ r, l = .rq t (.rqStart r) := by
  cases Queue.step_cases hq with
  | rq hw =>
    rename_i u l
    by_cases htu : t = u
    · subst htu
      rcases hw.trans with ⟨-, htr⟩ | ⟨hwk, -⟩
      · exact .inl (preparing_trans htr ht)
      · right
        by_contra hl
        exact started_of_starting hw (fun r he => hl ⟨r, by rw [he]⟩) hwk
    · rw [hw.other htu] at ht
      exact .inl ht
  | th hx =>
    rcases (hx.wk t).2 with hw | ⟨-, hw⟩
    · rw [hw] at ht
      exact .inl ht
    · rw [hw] at ht
      cases ht
  | _ => exact .inl ht

/-- A prepared request goes on to the list. -/
theorem insert_of_prepared {q q' : Queue.State C.queue} {l : Queue.Label C.queue} (hq : Queue.step q l = some q')
    {t : C.Tag} (ht : (q.rqs t).wk = .prepared) (ht' : (q'.rqs t).wk ≠ .prepared) : l = .rq t .insert := by
  cases Queue.step_cases hq with
  | rq hw =>
    rename_i u l
    by_cases htu : t = u
    · subst htu
      by_contra hl
      exact inserted_of_prepared hw (fun he => hl (by rw [he])) ht
    · rw [hw.other htu] at ht'
      exact absurd ht ht'
  | th hx =>
    rcases (hx.wk t).2 with hw | ⟨hw, -⟩
    · rw [hw] at ht'
      exact absurd ht ht'
    · rw [ht] at hw
      cases hw
  | _ => exact absurd ht ht'

/-- A step of the queue starts no request that has its pages. -/
theorem not_started {q q' : Queue.State C.queue} {l : Queue.Label C.queue} (hq : Queue.step q l = some q') {t : C.Tag}
    (ht : (q'.rqs t).wk.has = true) (r : Request C.queue.pageSize) : l ≠ .rq t (.rqStart r) := by
  rintro rfl
  have hw : WkStep q t (.rqStart r) q' := Queue.stepWk_cases hq
  cases hw with
  | rqStart wk r =>
    obtain ⟨op, w, hw, heq⟩ := Queue.startRq_eq q t r
    rw [heq, Queue.State.setRq_rqs, if_pos rfl] at ht
    rcases hw with rfl | rfl <;> cases ht

/-- The message that a submission sends. -/
theorem sentBy_mem {l : Queue.Label C.queue} {q : Queue.State C.queue} (hq : Queue.step s.queue l = some q)
    {m : C.Key × Msg} (hm : m ∈ sentBy s l q) :
    l = .rq m.1.1 .submit ∧ (s.queue.rqs m.1.1).wk = .inserted ∧ (s.queue.rqs m.1.1).start = m.1.2 ∧
      m.2 = ⟨Queue.cmdOf s.queue m.1.1, s.copied m.1.1⟩ ∧ (q.rqs m.1.1).wk = .published ∧
      (q.rqs m.1.1).start = m.1.2 ∧ (q.rqs m.1.1).tid = Queue.inc64 s.queue.reqTid := by
  by_cases hl : ∃ t, l = .rq t .submit
  · obtain ⟨t, rfl⟩ := hl
    by_cases hwk : (q.rqs t).wk = .published
    · rw [sentBy, if_pos hwk] at hm
      obtain rfl := List.mem_singleton.mp hm
      have hst : Queue.stepWk s.queue t .submit = some q := hq
      simp only [Queue.stepWk] at hst
      split at hst <;> [skip; cases hst]
      rename_i hins
      rw [Option.some.injEq] at hst
      cases hr : Ring.submit C.queue.header s.queue.ring (Queue.cmdOf s.queue t) with
      | none =>
        rw [hr, Queue.publishRq] at hst
        rw [← hst, Queue.State.setWk_rqs, if_pos rfl] at hwk
        cases hwk
      | some ring =>
        rw [hr] at hst
        have hrq : q.rqs t = { s.queue.rqs t with
            tid := Queue.inc64 s.queue.reqTid
            se := Ring.sePos C.queue.header s.queue.ring (Queue.cmdOf s.queue t)
            wk := .published } := by
          rw [← hst]
          exact (Queue.State.setRq_rqs ..).trans (if_pos rfl)
        exact ⟨rfl, hins, rfl, rfl, hwk, by rw [hrq], by rw [hrq]⟩
    · rw [sentBy, if_neg hwk] at hm
      cases hm
  · rw [sentBy_eq_nil (fun t he => hl ⟨t, he⟩)] at hm
    cases hm

/-- A message that was sent before is not of the request that is submitted. -/
theorem Exchange.not_sent (h : Exchange s) {m : C.Key × Msg} (hm : m ∈ s.sent)
    (hwk : (s.queue.rqs m.1.1).wk = .inserted) : (s.queue.rqs m.1.1).start ≠ m.1.2 := by
  intro hstart
  refine h.regular.traced.recorded.not_published (t := m.1.1) (by rw [hwk]; rfl) ?_
  rw [h.pub, List.map_map]
  exact List.mem_map.mpr ⟨m, hm, by rw [hstart]; rfl⟩

/-- The message of a request that a thread is to mark: it was answered, or its
indices are nobody else's. -/
theorem Messages.marked (hx : Exchange s) (h : Messages s) {m : C.Key × Msg} (hm : m ∈ s.sent) (ha : Alive s m)
    {x : Nat} {by_ : By} (pc : s.queue.threads x = .mark m.1.1 by_) {q : Queue.State C.queue}
    (hq : Queue.step s.queue (.th x .mark) = some q) (hs' : s'.queue = q) :
    m.2.cmd.privData ∈ s.posted.map Prod.fst ∨ Dropped s' m.2.cmd := by
  have hown := h.own m hm ha
  cases by_ with
  | entry tid =>
    left
    have ht := hx.completions.takes x
    rw [pc] at ht
    obtain ⟨r, p, -, hp, hptid⟩ := ht
    have hserved := hx.regular.traced.recorded.served x
    rw [pc] at hserved
    refine List.mem_map.mpr ⟨p, List.mem_of_getElem? hp.num, ?_⟩
    rw [hptid, hown]
    exact hserved.symm
  | removal =>
    right
    have hsp : Queue.Spliced s.queue := ⟨x, .inl (by rw [pc]; rfl)⟩
    have hholding := hx.regular.holding
    refine ⟨hs' ▸ hsp.step hq, fun v hv => ?_⟩
    rw [hown] at hv
    obtain ⟨i, hi, bv, hv, hbv⟩ := iov_of_mem hv
    refine ⟨i, bv, hv, hholding.owned.lt hi, hbv, fun u hu hiu => ?_⟩
    rw [hs'] at hu hiu
    obtain ⟨hsame, -⟩ := Queue.keeping_step hx.regular.traced.own hholding hq hu
    rw [hsame.pi] at hiu
    obtain rfl := hholding.owned.alone hi hiu
    -- the thread releases the pages of the request
    refine hu.2 x ?_
    have hth : ThStep s.queue x .mark q := Queue.stepTh_cases hq
    cases hth with
    | back l call pc' => cases call
    | mark t by' pc' =>
      obtain ⟨rfl, rfl⟩ := Pc.mark.inj (pc.symm.trans pc')
      show ((s.queue.setPc x _).threads x).releases = _
      rw [Queue.State.setPc_threads, if_pos rfl]
      rfl

/-- What was dropped stays dropped. -/
theorem Dropped.step (hx : Exchange s) {c : Cmd} (h : Dropped s c) {l : Queue.Label C.queue} {q : Queue.State C.queue}
    (hq : Queue.step s.queue l = some q) (hs' : s'.queue = q) : Dropped s' c := by
  refine ⟨hs' ▸ h.spliced.step hq, fun v hv => ?_⟩
  obtain ⟨i, bv, hv, hi, hbv, hout⟩ := h.iov v hv
  refine ⟨i, bv, hv, hi, hbv, fun t ht => ?_⟩
  rw [hs'] at ht ⊢
  obtain ⟨hsame, hold | ⟨hwk, -⟩⟩ := Queue.keeping_step hx.regular.traced.own hx.regular.holding hq ht
  · rw [hsame.pi]
    exact hout t hold
  · -- no worker is past the status check
    have hquiet := (hx.regular.awaited.quiet h.spliced).2 t
    rcases hwk with hwk | hwk <;> rw [hwk] at hquiet <;> cases hquiet

theorem Messages.queue (hx : Exchange s) (h : Messages s) {l : Queue.Label C.queue} {q : Queue.State C.queue}
    (ok : allowed s l = true) (hq : Queue.step s.queue l = some q) : Messages (record s l q) := by
  have hown := hx.regular.traced.own
  have hholding := hx.regular.holding
  -- a message of a pending request is the last one that was sent, or was of it before
  have hback : ∀ m ∈ s.sent, Alive (record s l q) m → Alive s m ∧
      (q.rqs m.1.1).tid = (s.queue.rqs m.1.1).tid := by
    intro m hm ha
    have hsame := (Queue.keeping_step hown hholding hq ha.1.keeping).1
    rcases Queue.pending_step hq ha.1 with rfl | ⟨hold, htid⟩
    · have hw : WkStep s.queue m.1.1 .submit q := Queue.stepWk_cases hq
      have hstart : (s.queue.rqs m.1.1).start = m.1.2 := hsame.start.symm.trans ha.2
      cases hw with
      | full wk => exact absurd hstart (hx.not_sent hm wk)
      | publish wk => exact absurd hstart (hx.not_sent hm wk)
    · exact ⟨⟨hold, hsame.start.symm.trans ha.2⟩, htid⟩
  refine ⟨fun t ht => ?_, fun t ht hwk hop => ?_, fun m hm ha => ?_, fun m hm => ?_⟩
  · show copiedAfter s l t = []
    by_cases hl : ∃ r, l = .rq t (.rqStart r)
    · obtain ⟨r, rfl⟩ := hl
      exact Function.update_self ..
    · rw [copiedAfter_eq fun r he => hl ⟨r, he⟩]
      exact h.fresh t ((preparing_step hq ht).resolve_right hl)
  · show (copiedAfter s l t).length = _
    rw [copiedAfter_eq (not_started hq ht.1)]
    obtain ⟨hsame, hold | ⟨-, hnew⟩⟩ := Queue.keeping_step hown hholding hq ht
    · have hopw : (s.queue.rqs t).req.op = .write := by rw [← hsame.req]; exact hop
      show _ = (q.rqs t).req.segments.length
      rw [hsame.req]
      by_cases hprep : (s.queue.rqs t).wk = .prepared
      · obtain rfl := insert_of_prepared hq hprep hwk
        exact of_decide_eq_true ok hopw
      · exact h.copied t hold hprep hopw
    · exact absurd hnew hwk
  · rcases List.mem_append.mp hm with hm | hm
    · obtain ⟨hold, htid⟩ := hback m hm ha
      have hsame := (Queue.keeping_step hown hholding hq ha.1.keeping).1
      show m.2 = ⟨(q.rqs m.1.1).req.seCmd (q.rqs m.1.1).op C.data.dataOff (q.rqs m.1.1).tid
        (q.pages.reqs m.1.1).pi, copiedAfter s l m.1.1⟩
      rw [copiedAfter_eq (not_started hq ha.1.keeping.1), hsame.req, hsame.op, hsame.pi, htid]
      exact h.own m hm hold
    · obtain ⟨-, -, -, hmsg, -, -, htid⟩ := sentBy_mem hq hm
      have hsame := (Queue.keeping_step hown hholding hq ha.1.keeping).1
      show m.2 = ⟨(q.rqs m.1.1).req.seCmd (q.rqs m.1.1).op C.data.dataOff (q.rqs m.1.1).tid
        (q.pages.reqs m.1.1).pi, copiedAfter s l m.1.1⟩
      rw [copiedAfter_eq (not_started hq ha.1.keeping.1), hsame.req, hsame.op, hsame.pi, htid]
      exact hmsg
  · rcases List.mem_append.mp hm with hold | hnew
    · rcases h.past m hold with ha | hp | hd
      · rcases ha.1.step hq with hpend | ⟨x, by_, rfl, pc⟩
        · have hsame := (Queue.keeping_step hown hholding hq hpend.keeping).1
          exact .inl ⟨hpend, hsame.start.trans ha.2⟩
        · exact .inr (h.marked hx hold ha pc hq rfl)
      · exact .inr (.inl hp)
      · exact .inr (.inr (hd.step hx hq rfl))
    · obtain ⟨rfl, hins, -, -, hpub, hstart, -⟩ := sentBy_mem hq hnew
      refine .inl ⟨⟨hpub, fun x => ?_⟩, hstart⟩
      have hw : WkStep s.queue m.1.1 .submit q := Queue.stepWk_cases hq
      show (q.threads x).releases ≠ _
      rw [hw.control.2.1]
      exact hown.not_releases (by rw [hins]; nofun) x

theorem messages_step {a : Label C} (hx : Exchange s) (h : Messages s) (hs : step s a = some s') : Messages s' := by
  cases step_cases hs with
  | queue l q ok hq => exact h.queue hx ok hq
  | copyTo t bio bv page wk op seg hpage =>
    refine h.frame rfl rfl (fun _ => rfl) id (fun u hu => ?_) rfl (List.prefix_refl _)
    refine Function.update_of_ne ?_ _ _
    rintro rfl
    exact hu wk
  | fetch x r q q' hr hq hq' =>
    obtain ⟨hrqs, hpages, hrel, hsp⟩ := fetch_rqs hq hq'
    exact h.frame hrqs hpages hrel hsp (fun _ _ => rfl) rfl (List.prefix_refl _)
  | readPad more hc => exact h.frame rfl rfl (fun _ => rfl) id (fun _ _ => rfl) rfl (List.prefix_refl _)
  | post p hp room => exact h.frame rfl rfl (fun _ => rfl) id (fun _ _ => rfl) rfl (List.prefix_append _ _)
  | _ => exact h.frame rfl rfl (fun _ => rfl) id (fun _ _ => rfl) rfl (List.prefix_refl _)

end Ubbd.Service

import UbbdKernel.Queue.Drain

/-!
# Removing a queue

`ubbd_dev_remove_queues` sets REMOVING, waits for the workers that passed the
status check (`Gone`), and, if the removal is forced, ends the requests on
`inflight_reqs`. A removal that is not forced relies on the check that the
device is not open; but that check is made before REMOVING is set, and the
device can be opened and used in between. What is then on the list is ended
by nobody, since `ubbd_queue_complete` does nothing once it reads REMOVING.
`removal_unstranded` says when no request is left behind.
-/

namespace Ubbd.Queue

variable {C : Conf}

/-- The parties are requests, completions and removals: nobody stops or
starts the queue. -/
def NoStopStart : Label C → Prop
  | .th _ l => l.manages = false
  | _ => True

/-- No worker is past the status check with a request that is not published. -/
def Quiet (s : State C) : Prop := ∀ t, (s.rqs t).wk.busy = false

/-- What a removal has waited for. -/
def Gone (s : State C) : Pc C → Prop
  | .remFlush _ => s.status = .removing
  | .remFlushing _ snap =>
    s.status = .removing ∧ ∀ t, (s.rqs t).wk.busy = true → (s.rqs t).start ≤ snap t
  | .remSplice | .remNext | .removed _ | .mark _ .removal | .release _ .removal | .finish _ .removal
  | .advance .removal => s.status = .removing ∧ Quiet s
  | .stopSet | .stopFlush | .stopFlushing _ | .stopFlushed | .startSet | .setStopped _ _ => False
  | _ => True

/-- Without stops and starts the status is RUNNING or REMOVING, and removals
have waited for the workers. -/
def GoneAll (s : State C) : Prop :=
  (s.status = .running ∨ s.status = .removing) ∧ ∀ x, Gone s (s.threads x)

theorem goneAll_init (n r : Nat) : GoneAll (initState C n r) := ⟨.inl rfl, fun _ => trivial⟩

theorem Wk.active_of_busy {w : Wk} (h : w.busy = true) : w.active = true := by
  cases w <;> first | rfl | cases h

/-- A step that leaves REMOVING and lets no worker past the status check keeps
what removals have waited for. -/
theorem Gone.frame {s s' : State C} (hst : s.status = .removing → s'.status = .removing)
    (hbusy : s.status = .removing → ∀ t, (s'.rqs t).wk.busy = true →
      (s.rqs t).wk.busy = true ∧ (s'.rqs t).start = (s.rqs t).start) {pc : Pc C} (h : Gone s pc) :
    Gone s' pc := by
  have hquiet : s.status = .removing ∧ Quiet s → s'.status = .removing ∧ Quiet s' := fun h =>
    ⟨hst h.1, fun t => eq_false_of_imp (fun hb => (hbusy h.1 t hb).1) (h.2 t)⟩
  cases pc with
  | remFlush force => exact hst h
  | remFlushing force snap =>
    refine ⟨hst h.1, fun t ht => ?_⟩
    obtain ⟨hb, hstart⟩ := hbusy h.1 t ht
    rw [hstart]
    exact h.2 t hb
  | remSplice => exact hquiet h
  | remNext => exact hquiet h
  | removed force => exact hquiet h
  | mark t by_ => cases by_ <;> [exact trivial; exact hquiet h]
  | release t by_ => cases by_ <;> [exact trivial; exact hquiet h]
  | finish t by_ => cases by_ <;> [exact trivial; exact hquiet h]
  | advance by_ => cases by_ <;> [exact trivial; exact hquiet h]
  | stopSet => exact h
  | stopFlush => exact h
  | stopFlushing snap => exact h
  | stopFlushed => exact h
  | startSet => exact h
  | setStopped t tid => exact h
  | _ => exact trivial

/-- Without stops and starts, REMOVING is final. -/
theorem ThStep.removing {s s' : State C} {x : Nat} {l : ThLabel} (hs : ThStep s x l s')
    (hl : l.manages = false) (hx : Gone s (s.threads x)) (hst : s.status = .removing) :
    s'.status = .removing := by
  cases hs with
  | stopSet pc => cases hl
  | stopFinal pc lock => cases hl
  | startSet pc => cases hl
  | setStopped t tid pc =>
    rw [pc] at hx
    cases hx
  | remSet force pc lock => rfl
  | _ => exact hst

theorem goneAll_thStep {s s' : State C} {x : Nat} {l : ThLabel} (h : GoneAll s) (hs : ThStep s x l s')
    (hl : l.manages = false) : GoneAll s' := by
  obtain ⟨hst, hg⟩ := h
  have hframe : ∀ {pc : Pc C}, Gone s pc → Gone s' pc := Gone.frame (hs.removing hl (hg x)) fun _ t ht =>
    ⟨(hs.busy t).1 ▸ ht, (hs.busy t).2.2⟩
  have hx := hframe (hg x)
  have hothers : ∀ y, y ≠ x → Gone s' (s.threads y) := fun y _ => hframe (hg y)
  cases hs with
  | back l call pc => exact ⟨hst, hg⟩
  | stopRead pc lock st => cases hl
  | stopSet pc => cases hl
  | stopFlush pc => cases hl
  | stopFlushed snap pc flushed => cases hl
  | stopFinal pc lock => cases hl
  | startRead pc lock st => cases hl
  | startSet pc => cases hl
  | last tid pc lock t mem tid_eq st empty => rcases hst with h | h <;> rw [h] at st <;> cases st
  | setStopped t tid pc =>
    rw [pc] at hx
    cases hx
  | remSet force pc lock => exact ⟨.inr rfl, forall_setPc (P := fun _ => Gone _) rfl hothers⟩
  | remFlush force pc =>
    rw [pc] at hx
    exact ⟨hst, forall_setPc (P := fun _ => Gone _) ⟨hx, fun _ _ => Nat.le_refl _⟩ hothers⟩
  | remFlushed force snap pc flushed =>
    rw [pc] at hx
    have hquiet : Quiet s := fun t => eq_false_of_imp (b := false)
      (fun hb => absurd (flushed t (Wk.active_of_busy hb)) (Nat.not_lt.mpr (hx.2 t hb))) rfl
    refine ⟨hst, forall_setPc (P := fun _ => Gone _) ?_ hothers⟩
    cases force <;> exact ⟨hx.1, hquiet⟩
  | remSplice pc lock =>
    rw [pc] at hx
    exact ⟨hst, forall_setPc (P := fun _ => Gone _) hx hothers⟩
  | remDone pc tmp =>
    rw [pc] at hx
    exact ⟨hst, forall_setPc (P := fun _ => Gone _) hx hothers⟩
  | remNext pc t ts tmp =>
    rw [pc] at hx
    exact ⟨hst, forall_setPc (P := fun _ => Gone _) hx hothers⟩
  | mark t by_ pc =>
    rw [pc] at hx
    exact ⟨hst, forall_setPc (P := fun _ => Gone _) (by cases by_ <;> exact hx) hothers⟩
  | released t by_ pc idle =>
    rw [pc] at hx
    exact ⟨hst, forall_setPc (P := fun _ => Gone _) (by cases by_ <;> exact hx) hothers⟩
  | finish t by_ pc =>
    rw [pc] at hx
    exact ⟨hst, forall_setPc (P := fun _ => Gone _) (by cases by_ <;> exact hx) hothers⟩
  | advance by_ pc =>
    rw [pc] at hx
    exact ⟨hst, forall_setPc (P := fun _ => Gone _) (by cases by_ <;> exact hx) hothers⟩
  | _ => exact ⟨hst, forall_setPc (P := fun _ => Gone _) trivial hothers⟩

theorem goneAll_step {s s' : State C} {a : Label C} (h : GoneAll s) (hs : step s a = some s')
    (hn : NoStopStart a) : GoneAll s' := by
  cases step_cases hs with
  | rq hw =>
    obtain ⟨h₁, h₂, -⟩ := hw.control
    refine ⟨by rw [h₁]; exact h.1, fun x => ?_⟩
    rw [h₂]
    exact (h.2 x).frame (fun hst => h₁.trans hst) fun hst t ht => hw.busy (by rw [hst]; exact nofun) ht
  | th ht => exact goneAll_thStep h ht hn
  | _ => exact h

/-! ## No request is left behind -/

/-- A removal that is not forced sets REMOVING only when no request is on the
list and no worker is past the status check. -/
def RemovesIdle (s : State C) : Label C → Prop
  | .th x .remSet => s.threads x = .remSet false → s.inflight = [] ∧ Quiet s
  | _ => True

/-- Once a removal has finished with the queue, no request is on the list. -/
def Unstranded (s : State C) : Prop := ∀ x force, s.threads x = .removed force → s.inflight = []

/-- Where a removal has emptied the list, or has found it empty. -/
def Emptied (s : State C) : Pc C → Prop
  | .remFlush false | .remFlushing false _ => s.inflight = [] ∧ Quiet s
  | .remNext | .removed _ | .mark _ .removal | .release _ .removal | .finish _ .removal
  | .advance .removal => s.inflight = []
  | _ => True

def EmptiedAll (s : State C) : Prop := ∀ x, Emptied s (s.threads x)

theorem Emptied.frame {s s' : State C} {pc : Pc C} (hin : Quiet s → s.inflight = [] → s'.inflight = [])
    (hq : s.status = .removing → Quiet s → Quiet s') (hg : Gone s pc) (h : Emptied s pc) : Emptied s' pc := by
  cases pc with
  | remFlush force => cases force <;> [exact ⟨hin h.2 h.1, hq hg h.2⟩; exact trivial]
  | remFlushing force snap => cases force <;> [exact ⟨hin h.2 h.1, hq hg.1 h.2⟩; exact trivial]
  | remNext => exact hin hg.2 h
  | removed force => exact hin hg.2 h
  | mark t by_ => cases by_ <;> [exact trivial; exact hin hg.2 h]
  | release t by_ => cases by_ <;> [exact trivial; exact hin hg.2 h]
  | finish t by_ => cases by_ <;> [exact trivial; exact hin hg.2 h]
  | advance by_ => cases by_ <;> [exact trivial; exact hin hg.2 h]
  | _ => exact trivial

theorem emptied_thStep {s s' : State C} {x : Nat} {l : ThLabel} (hg : GoneAll s) (h : EmptiedAll s)
    (hs : ThStep s x l s') (hl : l.manages = false) (hr : RemovesIdle s (.th x l)) : EmptiedAll s' := by
  have hframe : ∀ {pc : Pc C}, Gone s pc → Emptied s pc → Emptied s' pc :=
    Emptied.frame (fun _ hin => eq_nil_of_forall_mem hs.inflight hin) fun _ hq t => (hs.busy t).1.trans (hq t)
  have hx := hframe (hg.2 x) (h x)
  have hothers : ∀ y, y ≠ x → Emptied s' (s.threads y) := fun y _ => hframe (hg.2 y) (h y)
  cases hs with
  | back l call pc => exact h
  | remSet force pc lock =>
    refine forall_setPc (P := fun _ => Emptied _) ?_ hothers
    cases force <;> [exact hr pc; exact trivial]
  | remFlush force pc =>
    rw [pc] at hx
    exact forall_setPc (P := fun _ => Emptied _) (by cases force <;> exact hx) hothers
  | remFlushed force snap pc flushed =>
    rw [pc] at hx
    refine forall_setPc (P := fun _ => Emptied _) ?_ hothers
    cases force <;> [exact hx.1; exact trivial]
  | remSplice pc lock => exact forall_setPc (P := fun _ => Emptied _) rfl hothers
  | remDone pc tmp =>
    rw [pc] at hx
    exact forall_setPc (P := fun _ => Emptied _) hx hothers
  | remNext pc t ts tmp =>
    rw [pc] at hx
    exact forall_setPc (P := fun _ => Emptied _) hx hothers
  | mark t by_ pc =>
    rw [pc] at hx
    exact forall_setPc (P := fun _ => Emptied _) (by cases by_ <;> exact hx) hothers
  | released t by_ pc idle =>
    rw [pc] at hx
    exact forall_setPc (P := fun _ => Emptied _) (by cases by_ <;> exact hx) hothers
  | finish t by_ pc =>
    rw [pc] at hx
    exact forall_setPc (P := fun _ => Emptied _) (by cases by_ <;> exact hx) hothers
  | advance by_ pc =>
    rw [pc] at hx
    exact forall_setPc (P := fun _ => Emptied _) (by cases by_ <;> exact hx) hothers
  | _ => exact forall_setPc (P := fun _ => Emptied _) trivial hothers

theorem emptied_step {s s' : State C} {a : Label C} (hg : GoneAll s) (h : EmptiedAll s)
    (hs : step s a = some s') (hn : NoStopStart a) (hr : RemovesIdle s a) : EmptiedAll s' := by
  cases step_cases hs with
  | rq hw =>
    rename_i t l
    intro x
    rw [hw.control.2.1]
    refine (h x).frame (fun hq hin => ?_) (fun hst hq u => ?_) (hg.2 x)
    · rcases hw.inflight with hsub | ⟨hwk, -, -⟩
      · exact eq_nil_of_forall_mem hsub hin
      · have := hq t
        rw [hwk] at this
        cases this
    · exact eq_false_of_imp (fun hb => (hw.busy (by rw [hst]; exact nofun) hb).1) (hq u)
  | th ht => exact emptied_thStep hg h ht hn hr
  | _ => exact h

theorem EmptiedAll.unstranded {s : State C} (h : EmptiedAll s) : Unstranded s := by
  intro x force hpc
  have hx := h x
  rw [hpc] at hx
  exact hx

/-- In a run of any number of requests, completions and removals, in which a
removal that is not forced sets REMOVING only when no request is outstanding,
the list is empty from the moment a removal has finished with the queue. -/
theorem removal_unstranded (C : Conf) (n r : Nat) (as : List (Label C))
    (h : (lts C).Steps (fun s a _ => NoStopStart a ∧ RemovesIdle s a) (initState C n r) as) :
    (lts C).States Unstranded (initState C n r) as := by
  refine (Lts.states_of_steps (I := fun s => GoneAll s ∧ EmptiedAll s) (fun s a s' hi hs hc => ?_)
    ⟨goneAll_init n r, fun _ => trivial⟩ h).mono fun _ hi => hi.2.unstranded
  exact ⟨goneAll_step hi.1 hs hc.1, emptied_step hi.1 hi.2 hs hc.1 hc.2⟩

/-- A forced removal, to its end, of a queue with a request in flight. -/
def removeForced : List (Label (sampleConf 1)) :=
  .open_ :: publishFlush ⟨0, sampleConf_tags_pos⟩ ++
    [.th 0 (.remCheck true), .th 0 .remSet, .th 0 .remFlush, .th 0 .remFlushed, .th 0 .remSplice,
      .th 0 .remNext, .th 0 .mark, .th 0 .released, .th 0 .finish, .th 0 .advance, .th 0 .remNext]

theorem removal_unstranded_removeForced :
    (lts (sampleConf 1)).States Unstranded (initState (sampleConf 1) 8 6) removeForced ∧
      ∃ s, (lts (sampleConf 1)).exec (initState (sampleConf 1) 8 6) removeForced = some s ∧
        s.threads 0 = .removed true ∧ s.log.length = 1 := by
  refine ⟨removal_unstranded _ _ _ _ ?_, _, rfl, rfl, rfl⟩
  unfold removeForced
  iterate 18 refine Lts.Steps.cons rfl ⟨by first | rfl | trivial, by first | trivial | nofun⟩ ?_
  trivial

/-- The device is closed when a removal that is not forced checks it. It is
then opened and used before REMOVING is set, and the removal finishes with a
request on the list. -/
theorem removal_strands :
    ∃ s, (lts (sampleConf 1)).exec (initState (sampleConf 1) 8 6)
        (.th 0 (.remCheck false) :: .open_ :: publishFlush ⟨0, by decide⟩ ++
          [.th 0 .remSet, .th 0 .remFlush, .th 0 .remFlushed]) = some s ∧
      s.threads 0 = .removed false ∧ s.inflight = [⟨0, by decide⟩] ∧ ¬ Unstranded s := by
  refine ⟨_, rfl, rfl, rfl, fun h => ?_⟩
  exact absurd (h 0 false rfl) (by decide)

end Ubbd.Queue

import Mathlib.Logic.Function.Basic
import Mathlib.Tactic.Common
import UbbdKernel.Basic
import UbbdKernel.Framework.Lts

/-!
# Routing of hardware contexts to queues

`ubbd_queue_rq` sends a request to the queue stored in the `driver_data` of
its hardware context. `queue_stop` redirects the context of the queue it
stops to a running queue (`findRunningQueue`), and `queue_start` sends it
back. A device is `Routed` when, as long as some queue runs, every context
leads to a queue that runs.

The redirection is local: it looks for a running queue while the queue being
stopped still counts as running, it leaves the contexts alone that earlier
stops sent to this queue, and a start brings back no context but its own.
`CommandOk` is the exact condition on a command under which it keeps the
device routed (`ubbdDevStopQueue_routed_iff`, `ubbdDevStartQueue_routed_iff`),
and a sequence of commands keeps it routed throughout exactly when all its
commands meet it (`routed_iff_commandOk`).
-/

namespace Ubbd.Routing

/-- How many queues a device has, and how many hardware contexts the block
layer made for them: no more than `tag_set.nr_hw_queues`, which is the
number of queues. -/
structure Topology where
  numQueues : Nat
  nrHwQueues : Nat
  le : nrHwQueues ≤ numQueues

/-- The part of `struct ubbd_device` the queue commands use. -/
structure Dev where
  /-- `ubbd_dev->status`. -/
  status : DevStatus
  /-- `queues[i].status`. -/
  queues : Nat → QueueStatus
  /-- The index of the queue in the `driver_data` of each hardware context.
  Context `i` is the `mq_hctx` of queue `i`. -/
  driverData : Nat → Nat

variable (T : Topology)

/-- `ubbd_init_hctx` for every context, on a device whose disk runs. -/
def initDev : Dev where
  status := .running
  queues := fun _ => .running
  driverData := fun i => i

/-- `find_running_queue`. -/
def findRunningQueue (d : Dev) : Option Nat :=
  (List.range T.numQueues).find? fun i => d.queues i = .running

/-- `hctx->driver_data = q`. -/
def Dev.route (d : Dev) (hctx q : Nat) : Dev :=
  { d with driverData := Function.update d.driverData hctx q }

/-- `atomic_set(&queues[q].status, st)`. -/
def Dev.setQueue (d : Dev) (q : Nat) (st : QueueStatus) : Dev :=
  { d with queues := Function.update d.queues q st }

/-- The redirection of `queue_stop`: the context of the queue, if it has one,
to a running queue, if there is one. -/
def redirect (d : Dev) (q : Nat) : Dev :=
  if q < T.nrHwQueues then
    match findRunningQueue T d with
    | some r => d.route q r
    | none => d
  else d

/-- `queue_stop`. `drained`: no request was in flight after the flush. -/
def queueStop (d : Dev) (q : Nat) (drained : Bool) : Except Errno Dev :=
  match d.queues q with
  | .stopping | .stopped => .ok d
  | .removing => .error .einval
  | .running => .ok ((redirect T d q).setQueue q (if drained then .stopped else .stopping))

/-- `queue_start`. -/
def queueStart (d : Dev) (q : Nat) : Except Errno Dev :=
  match d.queues q with
  | .running => .ok d
  | .removing => .error .einval
  | .stopping | .stopped =>
    let d' := d.setQueue q .running
    .ok (if q < T.nrHwQueues ∧ d'.driverData q ≠ q then d'.route q q else d')

/-- `ubbd_dev_stop_queue`; `queue_id` is compared as unsigned. -/
def ubbdDevStopQueue (d : Dev) (queueId : Int) (drained : Bool) : Except Errno Dev :=
  if d.status ≠ .running then .error .einval
  else if toUInt32 queueId ≥ T.numQueues then .error .einval
  else queueStop T d (toUInt32 queueId) drained

/-- `ubbd_dev_start_queue`. -/
def ubbdDevStartQueue (d : Dev) (queueId : Int) : Except Errno Dev :=
  if d.status ≠ .running then .error .einval
  else if toUInt32 queueId ≥ T.numQueues then .error .einval
  else queueStart T d (toUInt32 queueId)

/-- What happens to the queues of a running device: the two commands, and the
last completion of a queue that is stopping. -/
inductive Command
  | stop (queueId : Int) (drained : Bool)
  | start (queueId : Int)
  | drain (q : Nat)

/-- One command; a command that returns an error is no step. -/
def step (d : Dev) : Command → Option Dev
  | .stop i drained => (ubbdDevStopQueue T d i drained).toOption
  | .start i => (ubbdDevStartQueue T d i).toOption
  | .drain q => if q < T.numQueues ∧ d.queues q = .stopping then some (d.setQueue q .stopped) else none

def lts : Lts Dev Command where
  init d := d = initDev
  step := step T

/-- Some queue of the device runs. -/
def SomeRunning (d : Dev) : Prop := ∃ q < T.numQueues, d.queues q = .running

/-- While some queue runs, every hardware context leads to one that runs. -/
def Routed (d : Dev) : Prop :=
  SomeRunning T d → ∀ h < T.nrHwQueues, d.queues (d.driverData h) = .running

/-- When a stop of the running queue `q` keeps the device routed: no other
queue runs, or `q` is not the first running queue and no other context is
routed to it. -/
def StopOk (d : Dev) (q : Nat) : Prop :=
  (∃ r < T.numQueues, r ≠ q ∧ d.queues r = .running) →
    (q < T.nrHwQueues → findRunningQueue T d ≠ some q) ∧
      ∀ h < T.nrHwQueues, h ≠ q → d.driverData h ≠ q

/-- When a start of the stopped queue `q` keeps the device routed: every
other context is routed to a running queue or to `q`. -/
def StartOk (d : Dev) (q : Nat) : Prop :=
  ∀ h < T.nrHwQueues, h ≠ q → d.queues (d.driverData h) = .running ∨ d.driverData h = q

/-- The condition on a command; on a queue that is already in the wanted
state a command does nothing. -/
def CommandOk (d : Dev) : Command → Prop
  | .stop i _ => d.queues (toUInt32 i) = .running → StopOk T d (toUInt32 i)
  | .start i => d.queues (toUInt32 i) ≠ .running → StartOk T d (toUInt32 i)
  | .drain _ => True

/-! ## One command -/

variable {T}

theorem findRunningQueue_some {d : Dev} {r : Nat} (h : findRunningQueue T d = some r) :
    r < T.numQueues ∧ d.queues r = .running := by
  unfold findRunningQueue at h
  exact ⟨List.mem_range.mp (List.mem_of_find?_eq_some h), by simpa using List.find?_some h⟩

theorem exists_findRunningQueue {d : Dev} (h : SomeRunning T d) : ∃ r, findRunningQueue T d = some r := by
  obtain ⟨q, hq, hr⟩ := h
  rw [← Option.isSome_iff_exists]
  exact List.find?_isSome.mpr ⟨q, List.mem_range.mpr hq, by simpa using hr⟩

@[simp] theorem Dev.setQueue_driverData (d : Dev) (q : Nat) (st : QueueStatus) :
    (d.setQueue q st).driverData = d.driverData := rfl

theorem Dev.setQueue_queues (d : Dev) (q : Nat) (st : QueueStatus) (r : Nat) :
    (d.setQueue q st).queues r = if r = q then st else d.queues r := by
  simp [Dev.setQueue, Function.update_apply]

theorem Dev.route_driverData (d : Dev) (h q k : Nat) :
    (d.route h q).driverData k = if k = h then q else d.driverData k := by
  simp [Dev.route, Function.update_apply]

@[simp] theorem redirect_queues (d : Dev) (q : Nat) : (redirect T d q).queues = d.queues := by
  unfold redirect
  split
  · split <;> rfl
  · rfl

/-- The context of a queue that is stopped while it runs goes to the first
running queue; every other context stays. -/
theorem redirect_driverData {d : Dev} {q r : Nat} (hr : findRunningQueue T d = some r) {h : Nat}
    (hh : h < T.nrHwQueues) :
    (redirect T d q).driverData h = if h = q then r else d.driverData h := by
  unfold redirect
  split
  · rw [hr]; exact Dev.route_driverData d q r h
  · rename_i hq
    rw [ite_cond_eq_false]
    exact eq_false fun e => hq (e ▸ hh)

/-- A stop command that returns 0 either finds the queue stopped already, or
redirects its context and stops it. -/
theorem stop_cases {d d' : Dev} {i : Int} {drained : Bool}
    (h : step T d (.stop i drained) = some d') :
    toUInt32 i < T.numQueues ∧
      ((d.queues (toUInt32 i) ≠ .running ∧ d' = d) ∨
        (d.queues (toUInt32 i) = .running ∧
          d' = (redirect T d (toUInt32 i)).setQueue (toUInt32 i)
            (if drained then .stopped else .stopping))) := by
  simp only [step, ubbdDevStopQueue] at h
  split at h <;> [cases h; skip]
  split at h <;> [cases h; skip]
  rename_i hq
  refine ⟨Nat.lt_of_not_le hq, ?_⟩
  unfold queueStop at h
  split at h <;> cases h <;> simp [*]

/-- A start command that returns 0 either finds the queue running, or makes
it run and sends its context back to it. -/
theorem start_cases {d d' : Dev} {i : Int} (h : step T d (.start i) = some d') :
    toUInt32 i < T.numQueues ∧
      ((d.queues (toUInt32 i) = .running ∧ d' = d) ∨
        (d.queues (toUInt32 i) ≠ .running ∧
          d'.queues = (d.setQueue (toUInt32 i) .running).queues ∧
          ∀ k < T.nrHwQueues, d'.driverData k = if k = toUInt32 i then toUInt32 i else d.driverData k)) := by
  simp only [step, ubbdDevStartQueue] at h
  split at h <;> [cases h; skip]
  split at h <;> [cases h; skip]
  rename_i hq
  refine ⟨Nat.lt_of_not_le hq, ?_⟩
  have sent : ∀ k < T.nrHwQueues,
      (if toUInt32 i < T.nrHwQueues ∧ (d.setQueue (toUInt32 i) .running).driverData (toUInt32 i) ≠ toUInt32 i
        then (d.setQueue (toUInt32 i) .running).route (toUInt32 i) (toUInt32 i)
        else d.setQueue (toUInt32 i) .running).driverData k =
      if k = toUInt32 i then toUInt32 i else d.driverData k := by
    intro k hk
    split
    · exact Dev.route_driverData _ _ _ _
    · rename_i hn
      split
      · rename_i e
        subst e
        exact not_not.mp fun hne => hn ⟨hk, hne⟩
      · rfl
  unfold queueStart at h
  split at h <;> cases h
  · exact .inl ⟨by assumption, rfl⟩
  all_goals
    refine .inr ⟨by simp [*], ?_, sent⟩
    split <;> rfl

theorem queues_stop_ne (drained : Bool) :
    (if drained then QueueStatus.stopped else .stopping) ≠ .running := by
  cases drained <;> decide

/-- A stop keeps the device routed exactly when `StopOk` holds before it. -/
theorem ubbdDevStopQueue_routed_iff {d d' : Dev} {i : Int} {drained : Bool} (hd : Routed T d)
    (h : step T d (.stop i drained) = some d') :
    Routed T d' ↔ CommandOk T d (.stop i drained) := by
  obtain ⟨hq, ⟨hn, rfl⟩ | ⟨hr, rfl⟩⟩ := stop_cases h
  · exact ⟨fun _ hr => absurd hr hn, fun _ => hd⟩
  simp only [CommandOk]
  generalize toUInt32 i = q at hq hr
  obtain ⟨r, hf⟩ := exists_findRunningQueue ⟨q, hq, hr⟩
  have hall := hd ⟨q, hq, hr⟩
  -- where a context leads after the stop, and when that queue runs
  have hto : ∀ h < T.nrHwQueues,
      (((redirect T d q).setQueue q (if drained then .stopped else .stopping)).queues
        (((redirect T d q).setQueue q (if drained then .stopped else .stopping)).driverData h) = .running ↔
      (if h = q then r else d.driverData h) ≠ q) := by
    intro h hh
    rw [Dev.setQueue_driverData, redirect_driverData hf hh, Dev.setQueue_queues, redirect_queues]
    have hrun : d.queues (if h = q then r else d.driverData h) = .running := by
      split
      · exact (findRunningQueue_some hf).2
      · exact hall h hh
    generalize (if h = q then r else d.driverData h) = k at hrun
    by_cases e : k = q
    · simp [e, queues_stop_ne]
    · simp [e, hrun]
  have hsome : SomeRunning T ((redirect T d q).setQueue q (if drained then .stopped else .stopping)) ↔
      ∃ r < T.numQueues, r ≠ q ∧ d.queues r = .running := by
    refine exists_congr fun k => and_congr_right fun _ => ?_
    rw [Dev.setQueue_queues, redirect_queues]
    by_cases e : k = q
    · simp [e, queues_stop_ne]
    · simp [e]
  constructor
  · intro hrd _ hother
    have := hrd (hsome.mpr hother)
    constructor
    · intro hm
      have := (hto q hm).mp (this q hm)
      rw [hf]; simpa using this
    · intro h hh hne
      simpa [hne] using (hto h hh).mp (this h hh)
  · intro hok hother h hh
    obtain ⟨h1, h2⟩ := hok hr (hsome.mp hother)
    rw [hto h hh]
    split
    · rename_i e
      intro e'
      exact h1 (e ▸ hh) (e' ▸ hf)
    · rename_i e
      exact h2 h hh e

/-- A start keeps the device routed exactly when `StartOk` holds before it. -/
theorem ubbdDevStartQueue_routed_iff {d d' : Dev} {i : Int} (hd : Routed T d)
    (h : step T d (.start i) = some d') : Routed T d' ↔ CommandOk T d (.start i) := by
  obtain ⟨hq, ⟨hr, rfl⟩ | ⟨hn, hs, hto⟩⟩ := start_cases h
  · exact ⟨fun _ hn => absurd hr hn, fun _ => hd⟩
  simp only [CommandOk]
  generalize toUInt32 i = q at hq hn hs hto
  have hsome : SomeRunning T d' := ⟨q, hq, by rw [hs, Dev.setQueue_queues, ite_cond_eq_true]; simp⟩
  have hrun : ∀ h < T.nrHwQueues, (d'.queues (d'.driverData h) = .running ↔
      (h ≠ q → d.queues (d.driverData h) = .running ∨ d.driverData h = q)) := by
    intro h hh
    rw [hto h hh, hs, Dev.setQueue_queues]
    by_cases e : h = q
    · simp [e]
    · by_cases e' : d.driverData h = q <;> simp [e, e']
  constructor
  · intro hrd _ h hh
    exact (hrun h hh).mp (hrd hsome h hh)
  · intro hok _ h hh
    exact (hrun h hh).mpr (hok hn h hh)

/-- The last completion of a stopping queue changes no route and no running
queue. -/
theorem drain_routed {d d' : Dev} {q : Nat} (hd : Routed T d) (h : step T d (.drain q) = some d') :
    Routed T d' := by
  simp only [step, Option.ite_none_right_eq_some, Option.some.injEq] at h
  obtain ⟨⟨_, hs⟩, rfl⟩ := h
  have heq : ∀ k, (d.setQueue q .stopped).queues k = .running ↔ d.queues k = .running := by
    intro k
    rw [Dev.setQueue_queues]
    by_cases e : k = q
    · simp [e, hs]
    · simp [e]
  rintro ⟨k, hk, hr⟩ h hh
  exact (heq _).mpr (hd ⟨k, hk, (heq k).mp hr⟩ h hh)

/-! ## Sequences of commands -/

theorem initDev_routed : Routed T initDev := fun _ _ _ => rfl

/-- A sequence of commands on a device that starts with every context on its
own queue keeps the device routed after each of them exactly when each
command meets `CommandOk` in the state it finds. -/
theorem routed_iff_commandOk (T : Topology) (cmds : List Command) :
    (lts T).States (Routed T) initDev cmds ↔
      (lts T).Steps (fun d c _ => CommandOk T d c) initDev cmds := by
  have key : ∀ d c d', Routed T d → step T d c = some d' → (Routed T d' ↔ CommandOk T d c) := by
    intro d c d' hd h
    cases c with
    | stop i drained => exact ubbdDevStopQueue_routed_iff hd h
    | start i => exact ubbdDevStartQueue_routed_iff hd h
    | drain q => exact ⟨fun _ => trivial, fun _ => drain_routed hd h⟩
  exact Lts.states_iff_steps (fun _ h => h) (fun d c d' hd h hc => (key d c d' hd h).mpr hc)
    (fun d c d' hd h hc hr => hc ((key d c d' hd h).mp hr)) initDev_routed cmds

/-- A device with two queues and their two hardware contexts. -/
def twoQueues : Topology := ⟨2, 2, by decide⟩

/-- Stopping queue 0 of a device with two running queues leaves its context
on queue 0, though queue 1 runs: `find_running_queue` finds queue 0 itself. -/
theorem stop_first_not_routed :
    ∃ d, (lts twoQueues).exec initDev [.stop 0 true] = some d ∧
      d.queues 1 = .running ∧ d.driverData 0 = 0 ∧ d.queues 0 = .stopped ∧ ¬ Routed twoQueues d := by
  refine ⟨_, rfl, rfl, rfl, rfl, fun h => ?_⟩
  have := h ⟨1, by decide, rfl⟩ 0 (by decide)
  exact absurd this (by decide)

end Ubbd.Routing

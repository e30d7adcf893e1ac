import UbbdKernel.Framework.Lts
import UbbdKernel.Pages.Model
import UbbdKernel.Request

/-!
# A queue and the parties that work on it

The state of one `struct ubbd_queue`, with its command ring, its data pages
and the list `inflight_reqs`, and with the private data of the requests that
the block layer sends to it. Two kinds of parties take steps: the requests,
each with its run of `ubbd_queue_rq` and `ubbd_queue_workfn`, and any number
of threads, which run `queue_stop`, `queue_start`, `ubbd_dev_remove_queues`
and `ubbd_queue_complete`.

A section under a spinlock is one step, and so is an `atomic_read` or an
`atomic_set` of the status. In `fetch_inflight_req` and in `queue_stop`, where
the status is read and set while a lock is held, the lock is part of the
state. `flush_workqueue` returns when all work that was queued before it has
finished. A request is known by its tag, and its private data is used again
with the tag; `start` counts the uses.
-/

namespace Ubbd.Queue

/-- What a queue is set up with: the layout of its ring, `PAGE_SIZE`,
`data_off`, and the number of tags. -/
structure Conf where
  header : Header
  pageSize : Nat
  dataOff : Nat
  tags : Nat

abbrev Conf.Tag (C : Conf) := Fin C.tags

/-- Where the run of `ubbd_queue_rq` or `ubbd_queue_workfn` of a request is. -/
inductive Wk
  /-- The tag is free. -/
  | none
  /-- `ubbd_queue_rq` has read RUNNING. -/
  | starting
  /-- The work is queued. -/
  | queued
  /-- The worker has read RUNNING. -/
  | passed
  /-- It is in `ubbd_get_data_pages`. -/
  | pages
  /-- `queue_req_prepare` has returned 0. -/
  | prepared
  /-- The request is on `inflight_reqs`. -/
  | inserted
  /-- The ring has no room for the command. -/
  | full
  /-- At `end_request`, with an error. -/
  | failed (e : Errno)
  /-- The command is published. -/
  | published
  deriving DecidableEq

/-- The work of the request is queued or running. -/
def Wk.active : Wk → Bool
  | .queued | .passed | .pages | .prepared | .inserted | .full | .failed _ => true
  | .none | .starting | .published => false

/-- The worker has read RUNNING and has not yet put the request on
`inflight_reqs`, nor given up. -/
def Wk.passing : Wk → Bool
  | .passed | .pages | .prepared => true
  | _ => false

/-- The worker has read RUNNING, and the request is neither published nor
given up. -/
def Wk.busy : Wk → Bool
  | .passed | .pages | .prepared | .inserted | .full => true
  | _ => false

/-- `struct ubbd_request`. The indices of its data pages are in the state of
the pages. -/
structure Rq (pageSize : Nat) where
  start : Nat
  req : Request pageSize
  op : UbbdOp
  piCnt : Nat
  tid : Nat
  se : Nat
  /-- The array `pi` is allocated. -/
  heapPi : Bool
  wk : Wk

/-- On whose behalf `complete_inflight_req` runs: of a completion entry with
this tid, or of a removal. -/
inductive By
  | entry (tid : Nat)
  | removal
  deriving DecidableEq

/-- Where a thread is. -/
inductive Pc (C : Conf)
  | idle
  /-- `queue_stop`, with `state_lock` held. -/
  | stopSet
  | stopFlush
  | stopFlushing (snap : C.Tag → Nat)
  | stopFlushed
  /-- `queue_start`, with `state_lock` held. -/
  | startSet
  /-- `ubbd_dev_remove_queues`, for this queue. -/
  | remSet (force : Bool)
  | remFlush (force : Bool)
  | remFlushing (force : Bool) (snap : C.Tag → Nat)
  | remSplice
  | remNext
  | removed (force : Bool)
  /-- `ubbd_queue_complete`: at `again`, and with an entry. -/
  | again
  | took (tid : Nat)
  /-- `fetch_inflight_req` has read STOPPING and found the list empty; the
  lock of the list is held. -/
  | setStopped (t : C.Tag) (tid : Nat)
  /-- `complete_inflight_req`. -/
  | mark (t : C.Tag) (by_ : By)
  | release (t : C.Tag) (by_ : By)
  | finish (t : C.Tag) (by_ : By)
  | advance (by_ : By)

/-- The request a thread has taken off the list. -/
def Pc.holds {C : Conf} : Pc C → Option C.Tag
  | .setStopped t _ | .mark t _ | .release t _ | .finish t _ => some t
  | _ => none

/-- How a started request is finished. -/
inductive How
  /-- By its worker, with `blk_mq_requeue_request` or `blk_mq_end_request`. -/
  | requeue
  | error
  /-- By a completion entry, or by a forced removal. -/
  | entry (tid : Nat)
  | removal
  deriving DecidableEq

structure Finish (C : Conf) where
  tag : C.Tag
  start : Nat
  how : How

/-- A published command: its tid, and the request with its start. -/
structure Pub (C : Conf) where
  tid : Nat
  tag : C.Tag
  start : Nat

structure State (C : Conf) where
  status : QueueStatus
  ring : CmdRing
  reqTid : Nat
  pages : Pages.State C.Tag
  rqs : C.Tag → Rq C.pageSize
  inflight : List C.Tag
  /-- The `tmp_list` of each thread. -/
  tmp : Nat → List C.Tag
  threads : Nat → Pc C
  /-- Who holds `state_lock`, and who holds `inflight_reqs_lock` from one
  step to another. -/
  stateLock : Option Nat
  inflightLock : Option Nat
  openCount : Nat
  /-- What was published and finished so far. -/
  pub : List (Pub C)
  log : List (Finish C)

variable {C : Conf}

namespace State

def setRq (s : State C) (t : C.Tag) (r : Rq C.pageSize) : State C :=
  { s with rqs := Function.update s.rqs t r }

def setWk (s : State C) (t : C.Tag) (w : Wk) : State C := s.setRq t { s.rqs t with wk := w }

def setPc (s : State C) (x : Nat) (pc : Pc C) : State C :=
  { s with threads := Function.update s.threads x pc }

/-- `flush_workqueue` that began when the starts were `snap` may return. -/
def Flushed (s : State C) (snap : C.Tag → Nat) : Prop :=
  ∀ t, (s.rqs t).wk.active = true → snap t < (s.rqs t).start

instance (s : State C) (snap : C.Tag → Nat) : Decidable (s.Flushed snap) :=
  inferInstanceAs (Decidable (∀ t : Fin C.tags, (s.rqs t).wk.active = true → snap t < (s.rqs t).start))

end State

/-- `++` of a `u64`. -/
def inc64 (n : Nat) : Nat := if n = 2 ^ 64 - 1 then 0 else n + 1

theorem inc64_lt {n : Nat} (h : n < 2 ^ 64) : inc64 n < 2 ^ 64 := by
  unfold inc64
  split <;> omega

/-! ## Requests -/

inductive WkLabel (C : Conf)
  | rqRead
  | rqStart (r : Request C.pageSize)
  | status
  | prepare (piOk : Bool)
  | pages
  | insert
  | submit
  | remove
  | endRequest

/-- The `memset` of `ubbd_queue_rq` and what follows it. -/
def startRq (s : State C) (t : C.Tag) (r : Request C.pageSize) : State C :=
  let rq : Rq C.pageSize := ⟨(s.rqs t).start + 1, r, .write, 0, 0, 0, false, .none⟩
  let s := { s with pages := s.pages.setReq t Pages.Req.fresh }
  match ubbdOp r.op with
  | some op => s.setRq t { rq with op := op, wk := .queued }
  | none => s.setRq t rq

/-- `queue_req_prepare`, up to the call of `ubbd_get_data_pages`. -/
def prepareRq (s : State C) (t : C.Tag) (piOk : Bool) : Option (State C) :=
  let r := s.rqs t
  let cnt := r.req.ubbdReqSegments r.op
  if cnt > inlinePiMax ∧ piOk = false then
    some (s.setRq t { r with piCnt := cnt, wk := .failed .enomem })
  else if cnt = 0 then some (s.setRq t { r with piCnt := cnt, wk := .prepared })
  else
    (Pages.step s.pages (.get t cnt)).map fun p =>
      { s.setRq t { r with piCnt := cnt, heapPi := decide (cnt > inlinePiMax), wk := .pages } with pages := p }

/-- What `ubbd_queue_workfn` does with the outcome of the section under
`cmdr_lock`. -/
def publishRq (s : State C) (t : C.Tag) (tid se : Nat) : Option CmdRing → State C
  | none => s.setWk t .full
  | some ring =>
    { s.setRq t { s.rqs t with tid := tid, se := se, wk := .published } with
      ring := ring
      reqTid := tid
      pub := s.pub ++ [⟨tid, t, (s.rqs t).start⟩] }

/-- The command of a request. -/
def cmdOf (s : State C) (t : C.Tag) : Cmd :=
  (s.rqs t).req.seCmd (s.rqs t).op C.dataOff (inc64 s.reqTid) (s.pages.reqs t).pi

/-- A request that fails with these errors is requeued. -/
def requeued : Errno → Bool
  | .enomem | .ebusy => true
  | _ => false

/-- The steps of `ubbd_queue_rq` and `ubbd_queue_workfn` for the request `t`. -/
def stepWk (s : State C) (t : C.Tag) : WkLabel C → Option (State C)
  | .rqRead =>
    match (s.rqs t).wk, s.status with
    | .none, .running => some (s.setWk t .starting)
    | .none, _ => some s
    | _, _ => none
  | .rqStart r => if (s.rqs t).wk = .starting then some (startRq s t r) else none
  | .status =>
    match (s.rqs t).wk, s.status with
    | .queued, .running => some (s.setWk t .passed)
    | .queued, .removing => some (s.setWk t (.failed .eio))
    | .queued, _ => some (s.setWk t (.failed .ebusy))
    | _, _ => none
  | .prepare piOk => if (s.rqs t).wk = .passed then prepareRq s t piOk else none
  | .pages =>
    match (s.rqs t).wk, (s.pages.reqs t).pc with
    | .pages, .ready => some (s.setWk t .prepared)
    | .pages, .idle => some (s.setRq t { s.rqs t with heapPi := false, wk := .failed .enomem })
    | _, _ => none
  | .insert =>
    if (s.rqs t).wk = .prepared ∧ s.inflightLock = none then
      some { s.setWk t .inserted with inflight := s.inflight ++ [t] }
    else none
  | .submit =>
    if (s.rqs t).wk = .inserted then
      some (publishRq s t (inc64 s.reqTid) (Ring.sePos C.header s.ring (cmdOf s t))
        (Ring.submit C.header s.ring (cmdOf s t)))
    else none
  | .remove =>
    -- `list_del_init` takes the request off the list it is on
    if (s.rqs t).wk = .full ∧ s.inflightLock = none then
      some { s.setWk t (.failed .enomem) with
        inflight := s.inflight.erase t
        tmp := fun x => (s.tmp x).erase t }
    else none
  | .endRequest =>
    match (s.rqs t).wk with
    | .failed e =>
      some { s.setWk t .none with
        log := s.log ++ [⟨t, (s.rqs t).start, if requeued e then .requeue else .error⟩] }
    | _ => none

/-! ## Threads -/

inductive ThLabel
  /-- `queue_stop`. -/
  | stopRead
  | stopSet
  | stopFlush
  | stopFlushed
  | stopFinal
  /-- `queue_start`. -/
  | startRead
  | startSet
  /-- The check of `open_count` in `handle_cmd_remove_disk`, for a removal
  that is not forced, and `ubbd_dev_remove_queues`. -/
  | remCheck (force : Bool)
  | remSet
  | remFlush
  | remFlushed
  | remSplice
  | remNext
  /-- `ubbd_queue_complete`. -/
  | enter
  | take (tid : Nat)
  | none
  | fetch
  | setStopped
  /-- `complete_inflight_req`. -/
  | mark
  | released
  | finish
  | advance
  deriving DecidableEq

/-- The label is of `queue_stop` or `queue_start`. -/
def ThLabel.manages : ThLabel → Bool
  | .stopRead | .stopSet | .stopFlush | .stopFlushed | .stopFinal | .startRead | .startSet => true
  | _ => false

/-- The label is the start of a call, which may return at once. -/
def ThLabel.calls : ThLabel → Bool
  | .stopRead | .startRead | .remCheck _ | .enter => true
  | _ => false

/-- `fetch_inflight_req`: the request with the tid is taken off the list. If
it was the last and the status is STOPPING, the status is set in a step of
its own. -/
def fetchReq (s : State C) (x tid : Nat) : State C :=
  match s.inflight.find? fun t => (s.rqs t).tid = tid with
  | none => s.setPc x .again
  | some t =>
    if s.status = .stopping ∧ s.inflight.erase t = [] then
      { s.setPc x (.setStopped t tid) with inflight := s.inflight.erase t, inflightLock := some x }
    else { s.setPc x (.mark t (.entry tid)) with inflight := s.inflight.erase t }

/-- How a request is finished by `complete_inflight_req`. -/
def By.how : By → How
  | .entry tid => .entry tid
  | .removal => .removal

/-- Where a thread goes on after `complete_inflight_req`. -/
def By.next : By → Pc C
  | .entry _ => .again
  | .removal => .remNext

/-- `blk_mq_end_request` in `complete_inflight_req`. -/
def finishRq (s : State C) (t : C.Tag) (by_ : By) : State C :=
  { s.setWk t (if (s.rqs t).wk = .published then .none else (s.rqs t).wk) with
    log := s.log ++ [⟨t, (s.rqs t).start, by_.how⟩] }

/-- The steps of a thread. -/
def stepTh (s : State C) (x : Nat) : ThLabel → Option (State C)
  | .stopRead =>
    match s.threads x, s.stateLock, s.status with
    | .idle, none, .running => some { s.setPc x .stopSet with stateLock := some x }
    | .idle, none, _ => some s
    | _, _, _ => none
  | .stopSet =>
    match s.threads x with
    | .stopSet => some { s.setPc x .stopFlush with status := .stopping }
    | _ => none
  | .stopFlush =>
    match s.threads x with
    | .stopFlush => some (s.setPc x (.stopFlushing fun t => (s.rqs t).start))
    | _ => none
  | .stopFlushed =>
    match s.threads x with
    | .stopFlushing snap => if s.Flushed snap then some (s.setPc x .stopFlushed) else none
    | _ => none
  | .stopFinal =>
    match s.threads x, s.inflightLock with
    | .stopFlushed, none =>
      some { s.setPc x .idle with
        status := if s.inflight = [] then .stopped else s.status
        stateLock := none }
    | _, _ => none
  | .startRead =>
    match s.threads x, s.stateLock, s.status with
    | .idle, none, .running => some s
    | .idle, none, .removing => some s
    | .idle, none, _ => some { s.setPc x .startSet with stateLock := some x }
    | _, _, _ => none
  | .startSet =>
    match s.threads x with
    | .startSet => some { s.setPc x .idle with status := .running, stateLock := none }
    | _ => none
  | .remCheck force =>
    match s.threads x with
    | .idle => if force = false ∧ s.openCount ≠ 0 then some s else some (s.setPc x (.remSet force))
    | _ => none
  | .remSet =>
    match s.threads x, s.stateLock with
    | .remSet force, none => some { s.setPc x (.remFlush force) with status := .removing }
    | _, _ => none
  | .remFlush =>
    match s.threads x with
    | .remFlush force => some (s.setPc x (.remFlushing force fun t => (s.rqs t).start))
    | _ => none
  | .remFlushed =>
    match s.threads x with
    | .remFlushing force snap =>
      if s.Flushed snap then some (s.setPc x (if force then .remSplice else .removed false)) else none
    | _ => none
  | .remSplice =>
    match s.threads x, s.inflightLock with
    | .remSplice, none =>
      some { s.setPc x .remNext with inflight := [], tmp := Function.update s.tmp x s.inflight }
    | _, _ => none
  | .remNext =>
    match s.threads x, s.tmp x with
    | .remNext, [] => some (s.setPc x (.removed true))
    | .remNext, t :: ts => some { s.setPc x (.mark t .removal) with tmp := Function.update s.tmp x ts }
    | _, _ => none
  | .enter =>
    match s.threads x, s.status with
    | .idle, .removing => some s
    | .idle, _ => some (s.setPc x .again)
    | _, _ => none
  | .take tid =>
    match s.threads x with
    | .again => some (s.setPc x (.took tid))
    | _ => none
  | .none =>
    match s.threads x with
    | .again => some (s.setPc x .idle)
    | _ => none
  | .fetch =>
    match s.threads x, s.inflightLock with
    | .took tid, none => some (fetchReq s x tid)
    | _, _ => none
  | .setStopped =>
    match s.threads x with
    | .setStopped t tid =>
      some { s.setPc x (.mark t (.entry tid)) with status := .stopped, inflightLock := none }
    | _ => none
  | .mark =>
    match s.threads x with
    | .mark t by_ =>
      some { s.setPc x (.release t by_) with
        ring := Ring.setDone C.header s.ring (s.rqs t).se
        pages := (Pages.step s.pages (.release t)).getD s.pages }
    | _ => none
  | .released =>
    match s.threads x with
    | .release t by_ =>
      if (s.pages.reqs t).pc = .idle then
        some ((s.setRq t { s.rqs t with heapPi := false }).setPc x (.finish t by_))
      else none
    | _ => none
  | .finish =>
    match s.threads x with
    | .finish t by_ => some ((finishRq s t by_).setPc x (.advance by_))
    | _ => none
  | .advance =>
    match s.threads x with
    | .advance by_ =>
      some { s.setPc x by_.next with ring := Ring.advanceCmdRing C.header s.ring }
    | _ => none

/-! ## The queue -/

inductive Label (C : Conf)
  | rq (t : C.Tag) (l : WkLabel C)
  | th (x : Nat) (l : ThLabel)
  /-- A step of `ubbd_get_data_pages` or of `ubbd_req_release`. -/
  | page (l : Pages.Label C.Tag)
  /-- The backend marks a padding it has passed. -/
  | pad (pos : Nat)
  /-- `ubbd_open` and `ubbd_release`. -/
  | open_
  | close

/-- A step inside a call; calls are made by requests and threads. -/
def inside : Pages.Label C.Tag → Bool
  | .get _ _ | .release _ => false
  | _ => true

def step (s : State C) : Label C → Option (State C)
  | .rq t l => stepWk s t l
  | .th x l => stepTh s x l
  | .page l => if inside l then (Pages.step s.pages l).map fun p => { s with pages := p } else none
  | .pad pos =>
    if pos ∈ Ring.walk C.header s.ring ∧ Ring.entOp C.header s.ring.cmdr pos = .pad then
      some { s with ring := Ring.setDone C.header s.ring pos }
    else none
  | .open_ => some { s with openCount := s.openCount + 1 }
  | .close => if s.openCount = 0 then none else some { s with openCount := s.openCount - 1 }

/-- No request yet. -/
def Rq.empty (pageSize : Nat) : Rq pageSize where
  start := 0
  req :=
    { op := .flush, pos := 0, bytes := 0, bios := [], single := nofun, segs_le := Nat.zero_le _,
      bytes_lt := by decide }
  op := .write
  piCnt := 0
  tid := 0
  se := 0
  heapPi := false
  wk := .none

/-- A queue as `ubbd_queue_create` leaves it, with `dataPages` data pages of
which `reserved` stay allocated. -/
def initState (C : Conf) (dataPages reserved : Nat) : State C where
  status := .running
  ring := ⟨fun _ => 0, 0, 0⟩
  reqTid := 0
  pages := Pages.initState C.Tag dataPages reserved fun _ => false
  rqs := fun _ => Rq.empty C.pageSize
  inflight := []
  tmp := fun _ => []
  threads := fun _ => .idle
  stateLock := none
  inflightLock := none
  openCount := 0
  pub := []
  log := []

def lts (C : Conf) : Lts (State C) (Label C) where
  init s := ∃ n r, s = initState C n r
  step := step

/-- A queue with `tags` tags and a ring of 256 bytes, 8 of them in reserve. -/
def sampleConf (tags : Nat) : Conf where
  header := sampleHeader 256 8 (by decide) eight_pos (by decide) (by decide)
  pageSize := 4096
  dataOff := 4096
  tags := tags

theorem sampleConf_tags_pos : 0 < (sampleConf 1).tags := by decide

/-- A flush, which has no data. -/
def flushReq (pageSize : Nat) : Request pageSize := (Rq.empty pageSize).req

/-- The steps of a flush up to its publication. -/
def publishFlush (t : C.Tag) : List (Label C) :=
  [.rq t .rqRead, .rq t (.rqStart (flushReq _)), .rq t .status, .rq t (.prepare true), .rq t .insert,
    .rq t .submit]

end Ubbd.Queue

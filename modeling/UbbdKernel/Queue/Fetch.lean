import UbbdKernel.Queue.Model

/-!
# Completion entries and unpublished requests

A worker puts its request on `inflight_reqs` first. Only then does it take
`cmdr_lock`, find room, set `req_tid`, write the entry and move `cmd_head`, and
until then `ubbd_queue_complete` can find the request on the list. Here each of
these is a step of its own, and a completion entry has any `priv_data`
whatever. `step_cases` says what each step finds and does.

`Sound` says that what `fetch_inflight_req` has returned is published, and that
no thread has used a missing `se`. `Safe` is a condition on the value that
`fetch_inflight_req` looks for.
-/

namespace Ubbd.Fetch

open Ubbd.Ring
open Queue (inc64)

/-- Where the work of a request is. -/
inductive Pc
  | idle
  /-- The worker has read RUNNING. -/
  | started
  /-- `queue_req_prepare` has returned 0. -/
  | prepared
  /-- The request is on `inflight_reqs`. -/
  | listed
  /-- The ring has no room for the command. -/
  | refused
  /-- There is room, `insert_padding` has returned, and `cmdr_lock` is held. -/
  | padded
  /-- `req_tid` is set. -/
  | assigned
  /-- The entry is written, and `se` is set. -/
  | written
  /-- `cmd_head` has moved, and `cmdr_lock` is still held. -/
  | published
  /-- At `end_request`. -/
  | failed
  deriving DecidableEq

namespace Pc

/-- The worker does not use the request, or not any more. -/
def quiet : Pc → Bool
  | .idle | .published => true
  | _ => false

/-- Before `++ubbd_q->req_tid`. -/
def early : Pc → Bool
  | .started | .prepared | .listed | .refused | .padded => true
  | _ => false

/-- Between `++ubbd_q->req_tid` and `UPDATE_CMDR_HEAD`. -/
def late : Pc → Bool
  | .assigned | .written => true
  | _ => false

/-- The worker has put the request on the list and not published it. -/
def onList : Pc → Bool
  | .listed | .refused | .padded | .assigned | .written => true
  | _ => false

/-- The worker holds `cmdr_lock`. -/
def locked : Pc → Bool
  | .padded | .assigned | .written | .published => true
  | _ => false

end Pc

/-- A request and its `struct ubbd_request`. -/
structure Rq where
  /-- The block layer has given it to the driver. -/
  inUse : Bool
  /-- `queue_work` was called. -/
  pending : Bool
  pc : Pc
  /-- What its entry says, `priv_data` apart. -/
  cmd : {c : Cmd // c.Ok}
  reqTid : Nat
  se : Option Nat

/-- The command that `queue_req_se_init` and `queue_req_data_init` write. -/
def Rq.seCmd (r : Rq) : Cmd := { r.cmd.1 with privData := r.reqTid }

/-- `ubbd_get_cmd_size`. -/
def Rq.size (H : Header) (r : Rq) : Nat := H.ubbdGetCmdSize r.cmd.1.iov.length

theorem Rq.seCmd_ok {r : Rq} (h : r.reqTid < 2 ^ 64) : r.seCmd.Ok :=
  have hc := r.cmd.2
  ⟨hc.op, h, hc.offset, hc.len, hc.iov, hc.segs⟩

/-- Where a thread in `ubbd_queue_complete` is. -/
inductive Th (ι : Type)
  | idle
  | again
  /-- With an entry, and its `priv_data`. -/
  | took (v : Nat)
  /-- `fetch_inflight_req` has returned a request. -/
  | fetched (i : ι)
  /-- Its entry is marked DONE. -/
  | marked (i : ι)
  /-- After `blk_mq_end_request`. -/
  | ended
  /-- In `advance_cmd_ring`, with `cmdr_lock`. -/
  | advancing
  /-- It has used a missing `se`. -/
  | crashed

/-- The request a thread is to end. -/
def Th.req {ι : Type} : Th ι → Option ι
  | .fetched i | .marked i => some i
  | _ => none

/-- It has no request yet. -/
def Th.calm {ι : Type} : Th ι → Bool
  | .idle | .again | .took _ => true
  | _ => false

/-- Who holds `cmdr_lock`. -/
inductive Holder (ι : Type)
  | worker (i : ι)
  | thread (x : Nat)

structure State (ι : Type) where
  status : QueueStatus
  ring : CmdRing
  cmdrLock : Option (Holder ι)
  /-- `ubbd_q->req_tid`. -/
  reqTid : Nat
  rqs : ι → Rq
  inflight : List ι
  threads : Nat → Th ι

variable {ι : Type} [DecidableEq ι]

namespace State

def setRq (s : State ι) (i : ι) (r : Rq) : State ι := { s with rqs := Function.update s.rqs i r }

def setPc (s : State ι) (i : ι) (pc : Pc) : State ι := s.setRq i { s.rqs i with pc := pc }

omit [DecidableEq ι] in
def setTh (s : State ι) (x : Nat) (th : Th ι) : State ι := { s with threads := Function.update s.threads x th }

end State

inductive Label (ι : Type)
  /-- `queue_stop`, `queue_start` or a removal sets the status. -/
  | setStatus (st : QueueStatus)
  /-- `ubbd_queue_rq`. -/
  | queueRq (i : ι)
  /-- `ubbd_queue_workfn`: it reads the status. -/
  | start (i : ι)
  /-- `queue_req_prepare`, which fails or returns with the data pages. -/
  | prepare (i : ι) (c : Option {c : Cmd // c.Ok})
  /-- `list_add_tail`. -/
  | insert (i : ι)
  /-- It takes `cmdr_lock` and checks for room; `insert_padding`, or the lock is dropped. -/
  | reserve (i : ι)
  /-- `ubbd_req->req_tid = ++ubbd_q->req_tid`. -/
  | assign (i : ι)
  /-- `queue_req_se_init` and `queue_req_data_init`. -/
  | init (i : ι)
  /-- `UPDATE_CMDR_HEAD`. -/
  | publish (i : ι)
  | unlock (i : ι)
  /-- `list_del_init`, after a ring that was full. -/
  | remove (i : ι)
  | endRequest (i : ι)
  /-- `ubbd_queue_complete`, with the check of the status. -/
  | enter (x : Nat)
  /-- A completion entry, or none. -/
  | take (x v : Nat)
  | empty (x : Nat)
  /-- `fetch_inflight_req`. -/
  | fetch (x : Nat)
  /-- `complete_inflight_req`: the DONE flag, `blk_mq_end_request`, `cmdr_lock`,
  and the loop of `advance_cmd_ring`. -/
  | mark (x : Nat)
  | finish (x : Nat)
  | lock (x : Nat)
  | advance (x : Nat)
  /-- The backend marks a padding it has passed. -/
  | pad (pos : Nat)

/-- `fetch_inflight_req`, for the value `v`. -/
def fetchReq (s : State ι) (x v : Nat) : State ι :=
  match s.inflight.find? fun i => (s.rqs i).reqTid = v with
  | none => s.setTh x .again
  | some i =>
    { s.setTh x (.fetched i) with
      inflight := s.inflight.erase i
      status := if s.status = .stopping ∧ s.inflight.erase i = [] then .stopped else s.status }

def step (H : Header) (s : State ι) : Label ι → Option (State ι)
  | .setStatus st => some { s with status := st }
  | .queueRq i =>
    if s.status = .running ∧ (s.rqs i).inUse = false then
      -- the `memset` of the request
      some (s.setRq i { s.rqs i with inUse := true, pending := true, reqTid := 0, se := none })
    else none
  | .start i =>
    -- a work does not run twice at a time
    if (s.rqs i).pending = true ∧ (s.rqs i).pc = .idle then
      some (s.setRq i { s.rqs i with
        pending := false
        pc := if s.status = .running then .started else .failed })
    else none
  | .prepare i c =>
    if (s.rqs i).pc = .started then
      match c with
      | some c => some (s.setRq i { s.rqs i with cmd := c, pc := .prepared })
      | none => some (s.setPc i .failed)
    else none
  | .insert i =>
    if (s.rqs i).pc = .prepared then
      some { s.setPc i .listed with inflight := s.inflight ++ [i] }
    else none
  | .reserve i =>
    if (s.rqs i).pc = .listed ∧ s.cmdrLock.isNone then
      if submitRingSpaceEnough H s.ring ((s.rqs i).size H) then
        some { s.setPc i .padded with
          ring := insertPadding H s.ring ((s.rqs i).size H)
          cmdrLock := some (.worker i) }
      else some (s.setPc i .refused)
    else none
  | .assign i =>
    if (s.rqs i).pc = .padded then
      some { s.setRq i { s.rqs i with reqTid := inc64 s.reqTid, pc := .assigned } with reqTid := inc64 s.reqTid }
    else none
  | .init i =>
    if (s.rqs i).pc = .assigned then
      some { s.setRq i { s.rqs i with se := some s.ring.cmdHead, pc := .written } with
        ring := { s.ring with
          cmdr := queueReqDataInit H (queueReqSeInit H s.ring.cmdr s.ring.cmdHead (s.rqs i).seCmd) s.ring.cmdHead
            (s.rqs i).seCmd } }
    else none
  | .publish i =>
    if (s.rqs i).pc = .written then
      some { s.setPc i .published with
        ring := { s.ring with cmdHead := updateCmdrHead s.ring.cmdHead ((s.rqs i).size H) H.cmdrSize } }
    else none
  | .unlock i =>
    if (s.rqs i).pc = .published then some { s.setPc i .idle with cmdrLock := none } else none
  | .remove i =>
    if (s.rqs i).pc = .refused then some { s.setPc i .failed with inflight := s.inflight.erase i } else none
  | .endRequest i =>
    if (s.rqs i).pc = .failed then some (s.setRq i { s.rqs i with inUse := false, pc := .idle }) else none
  | .enter x =>
    match s.threads x, s.status with
    | .idle, .removing => some s
    | .idle, _ => some (s.setTh x .again)
    | _, _ => none
  | .take x v =>
    match s.threads x with
    | .again => some (s.setTh x (.took v))
    | _ => none
  | .empty x =>
    match s.threads x with
    | .again => some (s.setTh x .idle)
    | _ => none
  | .fetch x =>
    match s.threads x with
    | .took v => some (fetchReq s x v)
    | _ => none
  | .mark x =>
    match s.threads x with
    | .fetched i =>
      match (s.rqs i).se with
      | none => some (s.setTh x .crashed)
      | some pos => some { s.setTh x (.marked i) with ring := setDone H s.ring pos }
    | _ => none
  | .finish x =>
    match s.threads x with
    | .marked i => some ((s.setRq i { s.rqs i with inUse := false }).setTh x .ended)
    | _ => none
  | .lock x =>
    match s.threads x, s.cmdrLock with
    | .ended, none => some { s.setTh x .advancing with cmdrLock := some (.thread x) }
    | _, _ => none
  | .advance x =>
    match s.threads x with
    | .advancing =>
      match getOldestSe s.ring with
      | some se =>
        if entDone H s.ring.cmdr se then
          some { s with ring := { s.ring with
            cmdTail := updateCmdrTail s.ring.cmdTail (entLen H s.ring.cmdr se) H.cmdrSize } }
        else some { s.setTh x .again with cmdrLock := none }
      | none => some { s.setTh x .again with cmdrLock := none }
    | _ => none
  | .pad pos =>
    if pos ∈ walk H s.ring ∧ entOp H s.ring.cmdr pos = .pad then some { s with ring := setDone H s.ring pos }
    else none

/-- A flush, which has no data. -/
def flush : {c : Cmd // c.Ok} :=
  ⟨⟨.flush, 0, 0, 0, []⟩, ⟨by decide, by decide, by decide, by decide, by simp, Nat.zero_le _⟩⟩

/-- An empty ring, and no request. -/
def initState (ι : Type) (m : Mem) : State ι where
  status := .running
  ring := ⟨m, 0, 0⟩
  cmdrLock := none
  reqTid := 0
  rqs := fun _ => ⟨false, false, .idle, flush, 0, none⟩
  inflight := []
  threads := fun _ => .idle

def lts (H : Header) (ι : Type) [DecidableEq ι] : Lts (State ι) (Label ι) where
  init s := ∃ m, s = initState ι m
  step := step H

/-- The `se` of the request is initialised, its command is in the ring between
tail and head, and its worker has finished with it. -/
def Published (H : Header) (s : State ι) (i : ι) : Prop :=
  ∃ pos, (s.rqs i).se = some pos ∧ pos ∈ walk H s.ring ∧ cmdAt H s.ring.cmdr pos = some (s.rqs i).seCmd ∧
    (s.rqs i).pc.quiet = true

/-- What `fetch_inflight_req` has returned is published, and nobody has used a
missing `se`. -/
def Sound (H : Header) (s : State ι) : Prop :=
  (∀ x i, s.threads x = .fetched i → Published H s i) ∧ ∀ x, s.threads x ≠ .crashed

/-- The value that `fetch_inflight_req` looks for is not 0 while a request is on
the list without a `req_tid`, and it is not the `req_tid` of the queue while the
request that got it is not published. -/
def Safe (s : State ι) (a : Label ι) : Prop :=
  ∀ x v, a = .fetch x → s.threads x = .took v →
    ∀ i ∈ s.inflight, (v = 0 → (s.rqs i).pc.early = false) ∧ (v = s.reqTid → (s.rqs i).pc.late = false)

/-! ## What a step does -/

/-- What each step does, with what it has found. -/
inductive FetchStep (H : Header) (s : State ι) : Label ι → State ι → Prop
  | setStatus {st : QueueStatus} : FetchStep H s (.setStatus st) { s with status := st }
  | queueRq {i : ι} (free : (s.rqs i).inUse = false) :
    FetchStep H s (.queueRq i)
      (s.setRq i { s.rqs i with inUse := true, pending := true, reqTid := 0, se := none })
  | start {i : ι} {pc : Pc} (pending : (s.rqs i).pending = true) (idle : (s.rqs i).pc = .idle)
      (goes : pc = .started ∨ pc = .failed) :
    FetchStep H s (.start i) (s.setRq i { s.rqs i with pending := false, pc := pc })
  | prepare {i : ι} {c : {c : Cmd // c.Ok}} (started : (s.rqs i).pc = .started) :
    FetchStep H s (.prepare i (some c)) (s.setRq i { s.rqs i with cmd := c, pc := .prepared })
  /-- A worker gives up, or finds no room. -/
  | fails {a : Label ι} {i : ι} {pc : Pc} (before : (s.rqs i).pc = .started ∧ pc = .failed ∨
        (s.rqs i).pc = .listed ∧ pc = .refused) :
    FetchStep H s a (s.setPc i pc)
  | insert {i : ι} (prepared : (s.rqs i).pc = .prepared) :
    FetchStep H s (.insert i) { s.setPc i .listed with inflight := s.inflight ++ [i] }
  | reserve {i : ι} (listed : (s.rqs i).pc = .listed) (free : s.cmdrLock = none)
      (room : submitRingSpaceEnough H s.ring ((s.rqs i).size H) = true) :
    FetchStep H s (.reserve i) { s.setPc i .padded with
      ring := insertPadding H s.ring ((s.rqs i).size H)
      cmdrLock := some (.worker i) }
  | assign {i : ι} (padded : (s.rqs i).pc = .padded) :
    FetchStep H s (.assign i) { s.setRq i { s.rqs i with reqTid := inc64 s.reqTid, pc := .assigned } with
      reqTid := inc64 s.reqTid }
  | init {i : ι} (assigned : (s.rqs i).pc = .assigned) :
    FetchStep H s (.init i) { s.setRq i { s.rqs i with se := some s.ring.cmdHead, pc := .written } with
      ring := { s.ring with
        cmdr := queueReqDataInit H (queueReqSeInit H s.ring.cmdr s.ring.cmdHead (s.rqs i).seCmd) s.ring.cmdHead
          (s.rqs i).seCmd } }
  | publish {i : ι} (written : (s.rqs i).pc = .written) :
    FetchStep H s (.publish i) { s.setPc i .published with
      ring := { s.ring with cmdHead := updateCmdrHead s.ring.cmdHead ((s.rqs i).size H) H.cmdrSize } }
  | unlock {i : ι} (published : (s.rqs i).pc = .published) :
    FetchStep H s (.unlock i) { s.setPc i .idle with cmdrLock := none }
  | remove {i : ι} (refused : (s.rqs i).pc = .refused) :
    FetchStep H s (.remove i) { s.setPc i .failed with inflight := s.inflight.erase i }
  | endRequest {i : ι} (failed : (s.rqs i).pc = .failed) :
    FetchStep H s (.endRequest i) (s.setRq i { s.rqs i with inUse := false, pc := .idle })
  | stay {a : Label ι} : FetchStep H s a s
  /-- A thread goes on without a request. -/
  | goOn {a : Label ι} {x : Nat} {th : Th ι} (before : (s.threads x).calm = true) (after : th.calm = true) :
    FetchStep H s a (s.setTh x th)
  | fetch {x v : Nat} {i : ι} {st : QueueStatus} (took : s.threads x = .took v)
      (found : s.inflight.find? (fun i => (s.rqs i).reqTid = v) = some i) :
    FetchStep H s (.fetch x) { s.setTh x (.fetched i) with inflight := s.inflight.erase i, status := st }
  | crash {x : Nat} {i : ι} (fetched : s.threads x = .fetched i) (missing : (s.rqs i).se = none) :
    FetchStep H s (.mark x) (s.setTh x .crashed)
  | mark {x pos : Nat} {i : ι} (fetched : s.threads x = .fetched i) (se : (s.rqs i).se = some pos) :
    FetchStep H s (.mark x) { s.setTh x (.marked i) with ring := setDone H s.ring pos }
  | finish {x : Nat} {i : ι} (marked : s.threads x = .marked i) :
    FetchStep H s (.finish x) ((s.setRq i { s.rqs i with inUse := false }).setTh x .ended)
  | lock {x : Nat} (ended : s.threads x = .ended) (free : s.cmdrLock = none) :
    FetchStep H s (.lock x) { s.setTh x .advancing with cmdrLock := some (.thread x) }
  | pop {x se : Nat} (advancing : s.threads x = .advancing) (oldest : getOldestSe s.ring = some se)
      (done : entDone H s.ring.cmdr se = true) :
    FetchStep H s (.advance x) { s with ring := { s.ring with
      cmdTail := updateCmdrTail s.ring.cmdTail (entLen H s.ring.cmdr se) H.cmdrSize } }
  | release {x : Nat} (advancing : s.threads x = .advancing) :
    FetchStep H s (.advance x) { s.setTh x .again with cmdrLock := none }
  | pad {pos : Nat} (mem : pos ∈ walk H s.ring) (pad : entOp H s.ring.cmdr pos = .pad) :
    FetchStep H s (.pad pos) { s with ring := setDone H s.ring pos }

variable {H : Header} {s s' : State ι}

theorem step_cases {a : Label ι} (hs : step H s a = some s') : FetchStep H s a s' := by
  cases a with
  | setStatus st =>
    cases hs
    exact .setStatus
  | queueRq i =>
    simp only [step, Option.ite_none_right_eq_some, Option.some.injEq] at hs
    obtain ⟨⟨-, hfree⟩, rfl⟩ := hs
    exact .queueRq hfree
  | start i =>
    simp only [step, Option.ite_none_right_eq_some, Option.some.injEq] at hs
    obtain ⟨⟨hpend, hidle⟩, rfl⟩ := hs
    refine .start hpend hidle ?_
    split
    · exact .inl rfl
    · exact .inr rfl
  | prepare i c =>
    simp only [step, Option.ite_none_right_eq_some] at hs
    obtain ⟨hpc, hs⟩ := hs
    cases c <;> cases hs
    · exact .fails (.inl ⟨hpc, rfl⟩)
    · exact .prepare hpc
  | insert i =>
    simp only [step, Option.ite_none_right_eq_some, Option.some.injEq] at hs
    obtain ⟨hpc, rfl⟩ := hs
    exact .insert hpc
  | reserve i =>
    simp only [step, Option.ite_none_right_eq_some] at hs
    obtain ⟨⟨hpc, hlock⟩, hs⟩ := hs
    split at hs <;> cases hs
    · exact .reserve hpc (Option.isNone_iff_eq_none.mp hlock) ‹_›
    · exact .fails (.inr ⟨hpc, rfl⟩)
  | assign i =>
    simp only [step, Option.ite_none_right_eq_some, Option.some.injEq] at hs
    obtain ⟨hpc, rfl⟩ := hs
    exact .assign hpc
  | init i =>
    simp only [step, Option.ite_none_right_eq_some, Option.some.injEq] at hs
    obtain ⟨hpc, rfl⟩ := hs
    exact .init hpc
  | publish i =>
    simp only [step, Option.ite_none_right_eq_some, Option.some.injEq] at hs
    obtain ⟨hpc, rfl⟩ := hs
    exact .publish hpc
  | unlock i =>
    simp only [step, Option.ite_none_right_eq_some, Option.some.injEq] at hs
    obtain ⟨hpc, rfl⟩ := hs
    exact .unlock hpc
  | remove i =>
    simp only [step, Option.ite_none_right_eq_some, Option.some.injEq] at hs
    obtain ⟨hpc, rfl⟩ := hs
    exact .remove hpc
  | endRequest i =>
    simp only [step, Option.ite_none_right_eq_some, Option.some.injEq] at hs
    obtain ⟨hpc, rfl⟩ := hs
    exact .endRequest hpc
  | enter x =>
    simp only [step] at hs
    split at hs <;> cases hs
    · exact .stay
    · exact .goOn (by rw [‹s.threads x = .idle›]; rfl) rfl
  | take x v =>
    simp only [step] at hs
    split at hs <;> cases hs
    exact .goOn (by rw [‹s.threads x = .again›]; rfl) rfl
  | empty x =>
    simp only [step] at hs
    split at hs <;> cases hs
    exact .goOn (by rw [‹s.threads x = .again›]; rfl) rfl
  | fetch x =>
    simp only [step] at hs
    split at hs <;> cases hs
    rename_i v hv
    unfold fetchReq
    split
    · exact .goOn (by rw [hv]; rfl) rfl
    · exact .fetch hv ‹_›
  | mark x =>
    simp only [step] at hs
    split at hs <;> [skip; cases hs]
    rename_i i hi
    split at hs <;> cases hs
    · exact .crash hi ‹_›
    · exact .mark hi ‹_›
  | finish x =>
    simp only [step] at hs
    split at hs <;> cases hs
    exact .finish ‹_›
  | lock x =>
    simp only [step] at hs
    split at hs <;> cases hs
    exact .lock ‹_› ‹_›
  | advance x =>
    simp only [step] at hs
    split at hs <;> [skip; cases hs]
    rename_i hx
    split at hs
    · split at hs <;> cases hs
      · exact .pop hx ‹_› ‹_›
      · exact .release hx
    · cases hs
      exact .release hx
  | pad pos =>
    simp only [step, Option.ite_none_right_eq_some, Option.some.injEq] at hs
    obtain ⟨⟨hmem, hpad⟩, rfl⟩ := hs
    exact .pad hmem hpad

end Ubbd.Fetch

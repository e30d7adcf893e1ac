import UbbdKernel.Pages.Data
import UbbdKernel.Queue.Model
import UbbdKernel.Ring.Completion

/-!
# A queue, its completion ring and its backend

What `struct ubbd_queue` and the process behind it do together: the queue with
its requests and threads (`Queue.State`), the bytes of the data pages, the
completion ring, and a backend that reads the command ring, works on the data
pages through its mapping, and posts completion entries.

The steps of the driver are those of the queue, but for the places where it
reads or copies what the backend shares: a caller of `ubbd_queue_complete`
takes the entry at `compr_tail`, reads `priv_data` under `inflight_reqs_lock`,
copies the data of a READ, segment by segment, and reads `result`;
`queue_req_prepare` copies the data of a WRITE.

The backend is not part of the driver, and its steps carry what every result
about `lts` assumes of it. It follows the command ring in order, by the lengths
of the entries, and marks each padding it passes (`stepRead`). It writes to no
page but those at the ranges of a READ it has read and not yet answered
(`stepStore`). It answers each command it has read at most once, in any order
(`stepReply`), and moves `compr_head` only when the answer is written
(`stepPost`). Nothing is assumed of when it does any of this.
-/

namespace Ubbd.Service

open Pages (Page)
open Queue (Wk Pc By)

/-- What a queue is set up with. -/
structure Conf where
  header : Header
  data : Data.Layout
  compr : Compr.Layout
  tags : Nat
  privData_width : compr.privData.width = 8
  result_width : compr.result.width = 4

abbrev Conf.queue (C : Conf) : Queue.Conf := ⟨C.header, C.data.pageSize, C.data.dataOff, C.tags⟩

abbrev Conf.Tag (C : Conf) := C.queue.Tag

/-- A start of a request. -/
abbrev Conf.Key (C : Conf) := C.Tag × Nat

/-- A command, with the bytes of the segments of a WRITE. -/
structure Msg where
  cmd : Cmd
  data : List (List UInt8)

/-- A result, with the bytes of the segments of a READ. -/
structure Reply where
  result : Nat
  data : List (List UInt8)
  deriving DecidableEq

/-- What a caller of `ubbd_queue_complete` has of an entry: where it lies, as
which it was posted, the segments it has copied, and `result` once it is read. -/
structure Taken where
  ce : Nat
  num : Nat
  got : List (List UInt8)
  result : Option Nat

structure State (C : Conf) where
  queue : Queue.State C.queue
  /-- The bytes of the data pages, and the segments copied to those of a WRITE. -/
  data : PageMem
  copied : C.Tag → List (List UInt8)
  /-- The completion ring. -/
  compr : Mem
  comprHead : Nat
  comprTail : Nat
  /-- The entry of each thread, and how many were taken. -/
  taken : Nat → Option Taken
  ntaken : Nat
  /-- The backend: where it reads the command ring, the commands to answer, and
  the answer that is written and not posted. -/
  pos : Nat
  todo : List Cmd
  writing : Option (Nat × Reply)
  /-- What was sent, read, posted under which `priv_data`, and ended so far. -/
  sent : List (C.Key × Msg)
  seen : List Cmd
  posted : List (Nat × Reply)
  ended : List (C.Key × Option Reply)

variable {C : Conf}

/-- The state with another entry of a thread. -/
def State.setTaken (s : State C) (x : Nat) (r : Option Taken) : State C :=
  { s with taken := Function.update s.taken x r }

theorem State.setTaken_taken (s : State C) (x y : Nat) (r : Option Taken) :
    (s.setTaken x r).taken y = if y = x then r else s.taken y := by
  simp [State.setTaken, Function.update_apply]

/-- `ubbd_req_get_page`, for the segment `k`. -/
def reqPage (s : State C) (t : C.Tag) (k : Nat) : Option Page :=
  (s.queue.pages.reqs t).pi[k]?.bind s.queue.pages.pool.array

/-- What the backend finds at the ranges of a command, none of which is in the
ring. -/
def ranges (s : State C) (c : Cmd) : Option (List (List UInt8)) :=
  c.iov.mapM (Data.readIovec C.data s.queue.pages.pool.array (fun _ => 0) s.data)

/-- How a thread ends a request. -/
def answer (s : State C) (x : Nat) : By → Option Reply
  | .entry _ => (s.taken x).bind fun r => r.result.map fun result => ⟨result, r.got⟩
  | .removal => none

/-! ## The driver -/

/-- The steps of the queue that are taken as they are: all but those that read
the completion ring, and those of the backend. A worker puts a WRITE on the
list when its data are copied, a thread marks the entry of a request when it
has read `result`. -/
def allowed (s : State C) : Queue.Label C.queue → Bool
  | .th _ (.take _) | .th _ .fetch | .pad _ => false
  | .th x .none => (s.taken x).isNone && decide (s.comprTail = s.comprHead)
  | .th x .mark =>
    match s.queue.threads x with
    | .mark _ (.entry _) => (s.taken x).any fun r => r.result.isSome
    | _ => true
  | .rq t .insert =>
    decide ((s.queue.rqs t).req.op = .write → (s.copied t).length = (s.queue.rqs t).req.segments.length)
  | _ => true

/-- What a step of the queue sends. -/
def sentBy (s : State C) (l : Queue.Label C.queue) (q : Queue.State C.queue) : List (C.Key × Msg) :=
  match l with
  | .rq t .submit =>
    if (q.rqs t).wk = .published then
      [((t, (s.queue.rqs t).start), ⟨Queue.cmdOf s.queue t, s.copied t⟩)]
    else []
  | _ => []

/-- What it ends. -/
def endedBy (s : State C) : Queue.Label C.queue → List (C.Key × Option Reply)
  | .th x .finish =>
    match s.queue.threads x with
    | .finish t by_ => [((t, (s.queue.rqs t).start), answer s x by_)]
    | _ => []
  | _ => []

/-- The copies of a request begin with it, what a thread has of an entry ends
with the request. -/
def copiedAfter (s : State C) : Queue.Label C.queue → C.Tag → List (List UInt8)
  | .rq t (.rqStart _) => Function.update s.copied t []
  | _ => s.copied

def takenAfter (s : State C) : Queue.Label C.queue → Nat → Option Taken
  | .th x .finish => Function.update s.taken x none
  | _ => s.taken

/-- The state after a step of the queue. -/
def record (s : State C) (l : Queue.Label C.queue) (q : Queue.State C.queue) : State C :=
  { s with
    queue := q
    copied := copiedAfter s l
    taken := takenAfter s l
    sent := s.sent ++ sentBy s l q
    ended := s.ended ++ endedBy s l }

inductive Label (C : Conf)
  | queue (l : Queue.Label C.queue)
  /-- A step of `copy_data_to_ubbdreq`, from the pages of the bios. -/
  | copyTo (t : C.Tag) (bio : PageMem)
  /-- A caller of `ubbd_queue_complete` takes an entry, and looks for its request. -/
  | take (x : Nat)
  | fetch (x : Nat)
  /-- A step of `copy_data_from_ubbdreq`. -/
  | copyFrom (x : Nat)
  | result (x : Nat)
  /-- The backend passes an entry of the command ring. -/
  | read
  /-- It writes a byte to the range `k` of a READ. -/
  | store (tid k j : Nat) (b : UInt8)
  /-- It writes an entry to the completion ring, and moves the head behind it. -/
  | reply (tid result : Nat)
  | post

/-- `copy_data_to_ubbdreq`, for the next segment. -/
def stepCopyTo (s : State C) (t : C.Tag) (bio : PageMem) : Option (State C) :=
  if (s.queue.rqs t).wk = .prepared ∧ (s.queue.rqs t).req.op = .write then
    match (s.queue.rqs t).req.segments[(s.copied t).length]?, reqPage s t (s.copied t).length with
    | some bv, some page =>
      some { s with
        data := s.data.memcpy bio ⟨page, bv.page, bv.off, bv.len⟩
        copied := Function.update s.copied t (s.copied t ++ [Data.segBytes bio bv]) }
    | _, _ => none
  else none

/-- `get_complete_entry` and `UPDATE_COMPR_TAIL`, under `compr_lock`. -/
def stepTake (s : State C) (x : Nat) : Option (State C) :=
  match s.queue.threads x, s.taken x with
  | .again, none =>
    if s.comprTail = s.comprHead then none
    else some { s.setTaken x (some ⟨s.comprTail, s.ntaken, [], none⟩) with
      comprTail := Compr.updateComprTail s.comprTail C.compr.sizeofCe C.compr.comprSize
      ntaken := s.ntaken + 1 }
  | _, _ => none

/-- A caller that finds no request drops its entry. -/
def entryKept (s : State C) (x : Nat) (q : Queue.State C.queue) : Option Taken :=
  match q.threads x with
  | .again => none
  | _ => s.taken x

/-- `fetch_inflight_req(ubbd_q, ce->priv_data)`, under `inflight_reqs_lock`. -/
def stepFetch (s : State C) (x : Nat) : Option (State C) :=
  (s.taken x).bind fun r =>
    (Queue.step s.queue (.th x (.take (C.compr.privData.get s.compr r.ce)))).bind fun q =>
      (Queue.step q (.th x .fetch)).map fun q =>
        { s.setTaken x (entryKept s x q) with queue := q }

/-- `copy_data_from_ubbdreq`, for the next segment. -/
def stepCopyFrom (s : State C) (x : Nat) : Option (State C) :=
  match s.queue.threads x, s.taken x with
  | .mark t (.entry _), some r =>
    if (s.queue.rqs t).req.op = .read ∧ r.result = none then
      match (s.queue.rqs t).req.segments[r.got.length]?, reqPage s t r.got.length with
      | some bv, some page =>
        some (s.setTaken x (some { r with got := r.got ++ [s.data.bytes page bv.off bv.len] }))
      | _, _ => none
    else none
  | _, _ => none

/-- `ce->result`, read when the data of a READ are copied. -/
def stepResult (s : State C) (x : Nat) : Option (State C) :=
  match s.queue.threads x, s.taken x with
  | .mark t (.entry _), some r =>
    if r.result = none ∧
        ((s.queue.rqs t).req.op = .read → r.got.length = (s.queue.rqs t).req.segments.length) then
      some (s.setTaken x (some { r with result := some (C.compr.result.get s.compr r.ce) }))
    else none
  | _, _ => none

/-! ## The backend -/

/-- The backend passes the entry at its place: a command, or a padding, which
it marks. Assumed: it reads no entry out of order, and leaves no padding
unmarked. -/
def stepRead (s : State C) : Option (State C) :=
  if s.pos = s.queue.ring.cmdHead then none
  else
    let pos := (s.pos + Ring.entLen C.header s.queue.ring.cmdr s.pos) % C.header.cmdrSize
    match Ring.cmdAt C.header s.queue.ring.cmdr s.pos with
    | some c => some { s with pos := pos, seen := s.seen ++ [c], todo := s.todo ++ [c] }
    | none =>
      some { s with
        pos := pos
        queue := { s.queue with ring := Ring.setDone C.header s.queue.ring s.pos } }

/-- The command to answer with this `priv_data`. -/
def todoOf (s : State C) (tid : Nat) : Option Cmd := s.todo.find? fun c => c.privData = tid

/-- A byte of a range of a READ, through `ubbd_vma_fault`. Assumed: the READ is
one that it has read and not yet answered, and it writes nowhere else. -/
def stepStore (s : State C) (tid k j : Nat) (b : UInt8) : Option (State C) :=
  (todoOf s tid).bind fun c => c.iov[k]?.bind fun v =>
    if c.op = .read ∧ j < v.len then
      match Data.ubbdVmaFault C.data s.queue.pages.pool.array ((v.base + j) / C.data.pageSize) with
      | some (.data page) =>
        some { s with
          data := fun p x => if p = page ∧ x = (v.base + j) % C.data.pageSize then b else s.data p x }
      | _ => none
    else none

/-- The bytes of the segments of a READ. -/
def readData (s : State C) (c : Cmd) : List (List UInt8) :=
  if c.op = .read then (ranges s c).getD [] else []

/-- A completion entry at `compr_head`. Assumed: it is of a command that was read
and has no answer yet, so that no command has two. -/
def stepReply (s : State C) (tid result : Nat) : Option (State C) :=
  (todoOf s tid).bind fun c =>
    if s.writing.isNone ∧ result < 2 ^ 32 then
      some { s with
        compr := Compr.writeCe C.compr s.compr s.comprHead ⟨tid, result⟩
        todo := s.todo.eraseP fun c => c.privData = tid
        writing := some (tid, ⟨result, readData s c⟩) }
    else none

/-- `compr_head` is moved, never onto the tail. -/
def stepPost (s : State C) : Option (State C) :=
  s.writing.bind fun p =>
    let head := Compr.updateComprTail s.comprHead C.compr.sizeofCe C.compr.comprSize
    if head = s.comprTail then none
    else some { s with comprHead := head, posted := s.posted ++ [p], writing := none }

/-! ## The system -/

def step (s : State C) : Label C → Option (State C)
  | .queue l => if allowed s l then (Queue.step s.queue l).map (record s l) else none
  | .copyTo t bio => stepCopyTo s t bio
  | .take x => stepTake s x
  | .fetch x => stepFetch s x
  | .copyFrom x => stepCopyFrom s x
  | .result x => stepResult s x
  | .read => stepRead s
  | .store tid k j b => stepStore s tid k j b
  | .reply tid result => stepReply s tid result
  | .post => stepPost s

/-- A queue as `ubbd_queue_create` leaves it, with a backend that has mapped
it. -/
def initState (C : Conf) (dataPages reserved : Nat) : State C where
  queue := Queue.initState C.queue dataPages reserved
  data := fun _ _ => 0
  copied := fun _ => []
  compr := fun _ => 0
  comprHead := 0
  comprTail := 0
  taken := fun _ => none
  ntaken := 0
  pos := 0
  todo := []
  writing := none
  sent := []
  seen := []
  posted := []
  ended := []

def lts (C : Conf) : Lts (State C) (Label C) where
  init s := ∃ n r, s = initState C n r
  step := step

/-! ## What a step can do -/

/-- The outcomes of a step. -/
inductive SStep (s : State C) : Label C → State C → Prop
  | queue (l : Queue.Label C.queue) (q : Queue.State C.queue) (ok : allowed s l = true)
      (hq : Queue.step s.queue l = some q) : SStep s (.queue l) (record s l q)
  | copyTo (t : C.Tag) (bio : PageMem) (bv : BioVec) (page : Page)
      (wk : (s.queue.rqs t).wk = .prepared) (op : (s.queue.rqs t).req.op = .write)
      (seg : (s.queue.rqs t).req.segments[(s.copied t).length]? = some bv)
      (hpage : reqPage s t (s.copied t).length = some page) :
      SStep s (.copyTo t bio)
        { s with
          data := s.data.memcpy bio ⟨page, bv.page, bv.off, bv.len⟩
          copied := Function.update s.copied t (s.copied t ++ [Data.segBytes bio bv]) }
  | take (x : Nat) (pc : s.queue.threads x = .again) (none : s.taken x = none) (more : s.comprTail ≠ s.comprHead) :
      SStep s (.take x)
        { s.setTaken x (some ⟨s.comprTail, s.ntaken, [], .none⟩) with
          comprTail := Compr.updateComprTail s.comprTail C.compr.sizeofCe C.compr.comprSize
          ntaken := s.ntaken + 1 }
  | fetch (x : Nat) (r : Taken) (q q' : Queue.State C.queue) (hr : s.taken x = some r)
      (hq : Queue.step s.queue (.th x (.take (C.compr.privData.get s.compr r.ce))) = some q)
      (hq' : Queue.step q (.th x .fetch) = some q') :
      SStep s (.fetch x) { s.setTaken x (entryKept s x q') with queue := q' }
  | copyFrom (x : Nat) (t : C.Tag) (tid : Nat) (r : Taken) (bv : BioVec) (page : Page)
      (pc : s.queue.threads x = .mark t (.entry tid)) (hr : s.taken x = some r)
      (op : (s.queue.rqs t).req.op = .read) (unread : r.result = none)
      (seg : (s.queue.rqs t).req.segments[r.got.length]? = some bv)
      (hpage : reqPage s t r.got.length = some page) :
      SStep s (.copyFrom x) (s.setTaken x (some { r with got := r.got ++ [s.data.bytes page bv.off bv.len] }))
  | result (x : Nat) (t : C.Tag) (tid : Nat) (r : Taken) (pc : s.queue.threads x = .mark t (.entry tid))
      (hr : s.taken x = some r) (unread : r.result = none)
      (full : (s.queue.rqs t).req.op = .read → r.got.length = (s.queue.rqs t).req.segments.length) :
      SStep s (.result x) (s.setTaken x (some { r with result := some (C.compr.result.get s.compr r.ce) }))
  | readCmd (c : Cmd) (more : s.pos ≠ s.queue.ring.cmdHead)
      (hc : Ring.cmdAt C.header s.queue.ring.cmdr s.pos = some c) :
      SStep s .read
        { s with
          pos := (s.pos + Ring.entLen C.header s.queue.ring.cmdr s.pos) % C.header.cmdrSize
          seen := s.seen ++ [c]
          todo := s.todo ++ [c] }
  | readPad (more : s.pos ≠ s.queue.ring.cmdHead) (hc : Ring.cmdAt C.header s.queue.ring.cmdr s.pos = none) :
      SStep s .read
        { s with
          pos := (s.pos + Ring.entLen C.header s.queue.ring.cmdr s.pos) % C.header.cmdrSize
          queue := { s.queue with ring := Ring.setDone C.header s.queue.ring s.pos } }
  | store (tid k j : Nat) (b : UInt8) (c : Cmd) (v : Iovec) (page : Page) (hc : todoOf s tid = some c)
      (hv : c.iov[k]? = some v) (op : c.op = .read) (lt : j < v.len)
      (hpage : Data.ubbdVmaFault C.data s.queue.pages.pool.array ((v.base + j) / C.data.pageSize) =
        some (.data page)) :
      SStep s (.store tid k j b)
        { s with data := fun p x => if p = page ∧ x = (v.base + j) % C.data.pageSize then b else s.data p x }
  | reply (tid result : Nat) (c : Cmd) (hc : todoOf s tid = some c) (free : s.writing = none)
      (lt : result < 2 ^ 32) :
      SStep s (.reply tid result)
        { s with
          compr := Compr.writeCe C.compr s.compr s.comprHead ⟨tid, result⟩
          todo := s.todo.eraseP fun c => c.privData = tid
          writing := some (tid, ⟨result, readData s c⟩) }
  | post (p : Nat × Reply) (hp : s.writing = some p)
      (room : Compr.updateComprTail s.comprHead C.compr.sizeofCe C.compr.comprSize ≠ s.comprTail) :
      SStep s .post
        { s with
          comprHead := Compr.updateComprTail s.comprHead C.compr.sizeofCe C.compr.comprSize
          posted := s.posted ++ [p]
          writing := none }

theorem step_cases {s s' : State C} {a : Label C} (h : step s a = some s') : SStep s a s' := by
  cases a with
  | queue l =>
    simp only [step] at h
    split at h <;> [skip; cases h]
    rename_i ok
    obtain ⟨q, hq, rfl⟩ := Option.map_eq_some_iff.mp h
    exact .queue l q ok hq
  | copyTo t bio =>
    simp only [step, stepCopyTo] at h
    split at h <;> [skip; cases h]
    rename_i hw
    split at h <;> cases h
    rename_i bv page seg hpage
    exact .copyTo t bio bv page hw.1 hw.2 seg hpage
  | take x =>
    simp only [step, stepTake] at h
    split at h <;> [skip; cases h]
    rename_i pc hnone
    split at h <;> cases h
    rename_i more
    exact .take x pc hnone more
  | fetch x =>
    obtain ⟨r, hr, h⟩ := Option.bind_eq_some_iff.mp h
    obtain ⟨q, hq, h⟩ := Option.bind_eq_some_iff.mp h
    obtain ⟨q', hq', rfl⟩ := Option.map_eq_some_iff.mp h
    exact .fetch x r q q' hr hq hq'
  | copyFrom x =>
    simp only [step, stepCopyFrom] at h
    split at h <;> [skip; cases h]
    rename_i t tid r pc hr
    split at h <;> [skip; cases h]
    rename_i hop
    split at h <;> cases h
    rename_i bv page seg hpage
    exact .copyFrom x t tid r bv page pc hr hop.1 hop.2 seg hpage
  | result x =>
    simp only [step, stepResult] at h
    split at h <;> [skip; cases h]
    rename_i t tid r pc hr
    split at h <;> cases h
    rename_i hop
    exact .result x t tid r pc hr hop.1 hop.2
  | read =>
    simp only [step, stepRead] at h
    split at h <;> [cases h; skip]
    rename_i more
    split at h <;> cases h
    · rename_i c hc
      exact .readCmd c more hc
    · rename_i hc
      exact .readPad more hc
  | store tid k j b =>
    obtain ⟨c, hc, h⟩ := Option.bind_eq_some_iff.mp h
    obtain ⟨v, hv, h⟩ := Option.bind_eq_some_iff.mp h
    split at h <;> [skip; cases h]
    rename_i hop
    split at h <;> cases h
    rename_i page hpage _
    exact .store tid k j b c v page hc hv hop.1 hop.2 hpage
  | reply tid result =>
    obtain ⟨c, hc, h⟩ := Option.bind_eq_some_iff.mp h
    split at h <;> cases h
    rename_i hw
    exact .reply tid result c hc (Option.isNone_iff_eq_none.mp hw.1) hw.2
  | post =>
    obtain ⟨p, hp, h⟩ := Option.bind_eq_some_iff.mp h
    simp only at h
    split at h <;> cases h
    rename_i room
    exact .post p hp room

end Ubbd.Service

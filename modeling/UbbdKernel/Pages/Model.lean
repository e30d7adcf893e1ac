import Mathlib.Logic.Function.Basic
import Mathlib.Tactic.Common
import UbbdKernel.Basic
import UbbdKernel.Framework.Lts

/-!
# The data pages of a queue

A queue has `data_pages` data page indices. A set bit of `data_bitmap` marks
an index in use, and `data_pages_array` has the page of an index, which stays
there for the next user when the index is released while no more than
`data_pages_reserved` pages are allocated. `segSection` and `releaseSection`
are the sections of `ubbd_get_data_pages` and `ubbd_release_page` under
`pages_mutex`; `step` runs the calls of any number of requests, each section
one step. What a call does without the mutex (allocating a page, giving one
back, counting) are steps of their own, and an update of the counter outside
the mutex is a load and a store.
-/

namespace Ubbd.Pages

/-- `++` and `--` of a `u32`. -/
def inc32 (n : Nat) : Nat := if n = 2 ^ 32 - 1 then 0 else n + 1
def dec32 (n : Nat) : Nat := if n = 0 then 2 ^ 32 - 1 else n - 1

/-- A page of the page allocator. -/
abbrev Page := Nat

/-- The fields of `struct ubbd_queue` about data pages, and the pages that
are allocated. -/
structure Pool where
  dataPages : Nat
  bitmap : Nat → Bool
  array : Nat → Option Page
  allocated : Nat
  reserved : Nat
  live : Page → Bool

/-- `find_first_zero_bit`: the first clear bit below `n`, or `n`. -/
def findFirstZeroBit (b : Nat → Bool) (n : Nat) : Nat := ((List.range n).find? fun k => !b k).getD n

/-- `set_bit` and `clear_bit`. The bit of a negative number lies before the
bitmap. -/
def setBit (b : Nat → Bool) (i : Int) : Nat → Bool :=
  if 0 ≤ i then Function.update b i.toNat true else b

def clearBit (b : Nat → Bool) (i : Int) : Nat → Bool :=
  if 0 ≤ i then Function.update b i.toNat false else b

/-- How a section of the loop of `ubbd_get_data_pages` ends: no index is
free; the index has no page and there is no `new_page`; `xa_store` failed;
or the index is taken. -/
inductive Seg
  | full
  | needPage
  | storeFailed (page : Page)
  | took (p : Pool) (newPage : Option Page) (index : Nat)

/-- The section of `ubbd_get_data_pages` under `pages_mutex`, where
`page_index` is an `int`. -/
def segSection (p : Pool) (newPage : Option Page) (storeOk : Bool) : Seg :=
  let pageIndex := toInt32 (findFirstZeroBit p.bitmap p.dataPages)
  if toUInt32 pageIndex = p.dataPages then .full
  else
    match p.array (toULong pageIndex) with
    | some _ => .took { p with bitmap := setBit p.bitmap pageIndex } newPage (toUInt32 pageIndex)
    | none =>
      match newPage with
      | none => .needPage
      | some page =>
        if storeOk then
          .took { p with
            array := Function.update p.array (toULong pageIndex) (some page)
            bitmap := setBit p.bitmap pageIndex } none (toUInt32 pageIndex)
        else .storeFailed page

/-- `__ubbd_release_page` under the mutex. -/
def Pool.free (p : Pool) (page : Page) : Pool :=
  { p with
    live := Function.update p.live page false
    allocated := dec32 p.allocated }

@[simp] theorem Pool.free_dataPages (p : Pool) (page : Page) : (p.free page).dataPages = p.dataPages := rfl
@[simp] theorem Pool.free_bitmap (p : Pool) (page : Page) : (p.free page).bitmap = p.bitmap := rfl
@[simp] theorem Pool.free_array (p : Pool) (page : Page) : (p.free page).array = p.array := rfl
@[simp] theorem Pool.free_live (p : Pool) (page : Page) :
    (p.free page).live = Function.update p.live page false := rfl

/-- The section of `ubbd_release_page` for the index `pi` of a slot. -/
def releaseSection (p : Pool) (pi : Nat) : Pool :=
  let pageIndex := toInt32 pi
  let p := { p with bitmap := clearBit p.bitmap pageIndex }
  if p.allocated > p.reserved then
    match p.array (toULong pageIndex) with
    | none => p
    | some page => { p with array := Function.update p.array (toULong pageIndex) none }.free page
  else p

/-! ## Calls -/

/-- Where a request is in `ubbd_get_data_pages` (`seg` to `undo`) or in
`ubbd_req_release`. `n + 1` segments are left to do in `seg n`. -/
inductive Pc
  /-- No call has been made, or the last one gave back all indices. -/
  | idle
  | seg (n : Nat)
  /-- `ubbd_alloc_page`, and the increment of the counter. -/
  | alloc (n : Nat)
  | incLoad (n : Nat)
  | incStore (n v : Nat)
  /-- The label `out`, with or without an error. -/
  | out (err : Bool)
  /-- `__ubbd_release_page` outside the mutex. -/
  | free (err : Bool)
  | decLoad (err : Bool)
  | decStore (err : Bool) (v : Nat)
  /-- The loop that gives back the indices of a call that failed. -/
  | undo
  /-- The call has succeeded. -/
  | ready
  | release
  deriving DecidableEq

/-- What a request has to do with the pages: the spare page of its call
(`new_page`, or the page that `xa_store` refused until it is released), and
the indices recorded in its slots and not yet released. -/
structure Req where
  pc : Pc
  newPage : Option Page
  pi : List Nat

def Req.fresh : Req := ⟨.idle, none, []⟩

structure State (ι : Type) where
  pool : Pool
  reqs : ι → Req

/-- The start of the loop with `n` segments to do. -/
def loopPc : Nat → Pc
  | 0 => .out false
  | n + 1 => .seg n

variable {ι : Type}

def State.setPool (s : State ι) (p : Pool) : State ι := { s with pool := p }

@[simp] theorem State.setPool_pool (s : State ι) (p : Pool) : (s.setPool p).pool = p := rfl

@[simp] theorem State.setPool_reqs (s : State ι) (p : Pool) : (s.setPool p).reqs = s.reqs := rfl

variable [DecidableEq ι]

def State.setReq (s : State ι) (i : ι) (r : Req) : State ι :=
  { s with reqs := Function.update s.reqs i r }

theorem State.setReq_reqs (s : State ι) (i j : ι) (r : Req) :
    (s.setReq i r).reqs j = if j = i then r else s.reqs j := by
  simp [State.setReq, Function.update_apply]

@[simp] theorem State.setReq_pool (s : State ι) (i : ι) (r : Req) : (s.setReq i r).pool = s.pool := rfl

inductive Label (ι : Type)
  /-- `ubbd_get_data_pages` for a request with `n` segments is called. -/
  | get (i : ι) (n : Nat)
  /-- A section of its loop; `storeOk`: `xa_store` succeeds. -/
  | seg (i : ι) (storeOk : Bool)
  /-- `alloc_page` gives a page that is not allocated, or none. -/
  | alloc (i : ι) (page : Option Page)
  | incLoad (i : ι)
  | incStore (i : ι)
  | out (i : ι)
  | free (i : ι)
  | decLoad (i : ι)
  | decStore (i : ι)
  | undo (i : ι)
  /-- `ubbd_req_release` is called. -/
  | release (i : ι)
  | releaseOne (i : ι)

/-- The state after a section of the loop with `n + 1` segments to do. -/
def State.seg (s : State ι) (i : ι) (n : Nat) : Seg → State ι
  | .full => s.setReq i { s.reqs i with pc := .out true }
  | .needPage => s.setReq i { s.reqs i with pc := .alloc n }
  | .storeFailed page => s.setReq i { s.reqs i with pc := .free true, newPage := some page }
  | .took p newPage index =>
    (s.setPool p).setReq i ⟨loopPc n, newPage, (s.reqs i).pi ++ [index]⟩

/-- The step of a label. -/
def step (s : State ι) : Label ι → Option (State ι)
  | .get i n =>
    if (s.reqs i).pc = .idle then some (s.setReq i { s.reqs i with pc := loopPc n, newPage := none })
    else none
  | .seg i storeOk =>
    match (s.reqs i).pc with
    | .seg n => some (s.seg i n (segSection s.pool (s.reqs i).newPage storeOk))
    | _ => none
  | .alloc i page =>
    match (s.reqs i).pc, page with
    | .alloc _, none => some (s.setReq i { s.reqs i with pc := .out true })
    | .alloc n, some page =>
      if s.pool.live page then none
      else some ((s.setPool { s.pool with live := Function.update s.pool.live page true }).setReq i
        { s.reqs i with pc := .incLoad n, newPage := some page })
    | _, _ => none
  | .incLoad i =>
    match (s.reqs i).pc with
    | .incLoad n => some (s.setReq i { s.reqs i with pc := .incStore n s.pool.allocated })
    | _ => none
  | .incStore i =>
    match (s.reqs i).pc with
    | .incStore n v => some ((s.setPool { s.pool with allocated := inc32 v }).setReq i
        { s.reqs i with pc := .seg n })
    | _ => none
  | .out i =>
    match (s.reqs i).pc, (s.reqs i).newPage with
    | .out err, some _ => some (s.setReq i { s.reqs i with pc := .free err })
    | .out err, none => some (s.setReq i { s.reqs i with pc := if err then .undo else .ready })
    | _, _ => none
  | .free i =>
    match (s.reqs i).pc, (s.reqs i).newPage with
    | .free err, some page =>
      some ((s.setPool { s.pool with live := Function.update s.pool.live page false }).setReq i
        { s.reqs i with pc := .decLoad err, newPage := none })
    | _, _ => none
  | .decLoad i =>
    match (s.reqs i).pc with
    | .decLoad err => some (s.setReq i { s.reqs i with pc := .decStore err s.pool.allocated })
    | _ => none
  | .decStore i =>
    match (s.reqs i).pc with
    | .decStore err v =>
      some ((s.setPool { s.pool with allocated := dec32 v }).setReq i
        { s.reqs i with pc := .out err })
    | _ => none
  | .undo i =>
    if (s.reqs i).pc = .undo then
      match (s.reqs i).pi.getLast? with
      | none => some (s.setReq i { s.reqs i with pc := .idle })
      | some x => some ((s.setPool (releaseSection s.pool x)).setReq i
          { s.reqs i with pi := (s.reqs i).pi.dropLast })
    else none
  | .release i =>
    if (s.reqs i).pc = .ready then some (s.setReq i { s.reqs i with pc := .release }) else none
  | .releaseOne i =>
    if (s.reqs i).pc = .release then
      match (s.reqs i).pi with
      | [] => some (s.setReq i { s.reqs i with pc := .idle })
      | x :: xs => some ((s.setPool (releaseSection s.pool x)).setReq i { s.reqs i with pi := xs })
    else none

/-- A new queue, as `ubbd_queue_create` sets it up. -/
def initPool (dataPages reserved : Nat) (live : Page → Bool) : Pool where
  dataPages := dataPages
  bitmap := fun _ => false
  array := fun _ => none
  allocated := 0
  reserved := reserved
  live := live

def initState (ι : Type) (dataPages reserved : Nat) (live : Page → Bool) : State ι where
  pool := initPool dataPages reserved live
  reqs := fun _ => Req.fresh

/-- The calls of any number of requests on a queue. -/
def lts (ι : Type) [DecidableEq ι] : Lts (State ι) (Label ι) where
  init s := ∃ n r l, s = initState ι n r l
  step := step

end Ubbd.Pages

import UbbdKernel.Basic
import UbbdKernel.Framework.Ledger

/-!
# Adding a device

`ubbd_dev_add_dev` builds a device from some fifteen kinds of resources, on
four levels, and takes it down again when one of them cannot be had: by the
labels at the end of a function, by destroying all queues of the array, those
that were never created too, or by dropping the reference of the device. Here
`fails` says which calls fail, and a ledger keeps what is alive.

The error labels free the device itself; what was made after it is given back
when its last reference is dropped, by `ubbd_dev_destroy`.
-/

namespace Ubbd.Add

open Ledger (Holds opt)

/-- What a device is made of. -/
inductive Kind
  | device | id | queues | bitmap | superblock | name | kring | minor | workqueue | debugfs | disk | tagSet
  | requestQueue
  deriving DecidableEq

/-- The calls of `ubbd_queue_create` that may fail. -/
inductive QueuePoint
  | needFault | bitmapZalloc
  /-- `ubbd_queue_sb_init`. -/
  | sbNeedFault | vzalloc
  /-- `ubbd_queue_kring_init`. -/
  | kasprintf
  /-- `__ubbd_kring_register_device`: the checks of the class and of the arguments come first. -/
  | checks | kzalloc | getMinor | devSetName | deviceAdd
  deriving DecidableEq

/-- The calls of `ubbd_dev_add_dev` that may fail. -/
inductive Point
  /-- `ubbd_dev_create`. -/
  | needFault | kzalloc | idNeedFault | idaAlloc | kcalloc
  | queue (i : Nat) (p : QueuePoint)
  | allocWorkqueue | debugfsCreate
  | addNeedFault
  /-- `ubbd_init_disk`. -/
  | diskNeedFault | allocDisk | tagSetNeedFault | allocTagSet | queueNeedFault | initQueue
  /-- `queue_limits_commit_update_frozen`. -/
  | commitUpdate
  deriving DecidableEq

/-- For which kernel the driver is built. -/
structure Variant where
  haveAllocDisk : Bool
  /-- `LINUX_VERSION_CODE >= KERNEL_VERSION(6, 8, 0)`. -/
  v6_8 : Bool
  /-- `kcalloc` can have room for so many queues, in an array of less than `2 ^ 31` bytes. -/
  room : Nat → Bool
  room_lt : ∀ n, room n = true → n < 2 ^ 31

/-- `struct ubbd_dev_add_opts`, as far as resources depend on it. -/
structure AddOpts where
  dataPages : Nat
  numQueues : Nat

/-- The pointers of `struct ubbd_queue`. -/
structure Queue where
  dataPages : Nat
  dataBitmap : Option Nat
  sbAddr : Option Nat
  /-- `ubbd_kring_info.name`. -/
  name : Option Nat
  /-- `ubbd_kring_info.ubbd_kring_dev`, with its minor. -/
  kringDev : Option (Nat × Nat)

/-- A queue of the array that `kcalloc` returns. -/
def Queue.zeroed : Queue := ⟨0, none, none, none, none⟩

structure Device where
  addr : Nat
  devId : Nat
  queuesAddr : Nat
  queues : List Queue
  taskWq : Nat
  debugfsD : Option Nat
  disk : Option Nat
  tagSet : Option Nat
  requestQueue : Option Nat
  kref : Nat

structure Kernel where
  ledger : Ledger Kind
  /-- The references to the module. -/
  moduleRefs : Nat
  ubbdTotalDevs : Int
  ubbdDevList : List Nat

section

variable (fails : Point → Bool)

/-! ## Queues -/

/-- `ubbd_queue_sb_init`. The functions of a queue return whether they succeed, and the queue as they leave it. -/
def ubbdQueueSbInit (i : Nat) (q : Queue) (l : Ledger Kind) : Bool × Queue × Ledger Kind :=
  if fails (.queue i .sbNeedFault) then (false, q, l)
  else if fails (.queue i .vzalloc) then (false, q, l)
  else (true, { q with sbAddr := some l.next }, l.alloc .superblock)

/-- `__ubbd_kring_register_device`. -/
def ubbdKringRegisterDevice (i : Nat) (q : Queue) (l : Ledger Kind) : Bool × Queue × Ledger Kind :=
  if fails (.queue i .checks) then (false, q, l)
  else
    let q := { q with kringDev := none }
    if fails (.queue i .kzalloc) then (false, q, l)
    else
      let idev := l.next
      let l := l.alloc .kring
      if fails (.queue i .getMinor) then (false, q, l.release .kring idev)
      else
        let minor := l.next
        let l := l.alloc .minor
        if fails (.queue i .devSetName) then (false, q, (l.release .minor minor).release .kring idev)
        else if fails (.queue i .deviceAdd) then (false, q, (l.release .minor minor).release .kring idev)
        else (true, { q with kringDev := some (idev, minor) }, l)

/-- `ubbd_queue_kring_init`. -/
def ubbdQueueKringInit (i : Nat) (q : Queue) (l : Ledger Kind) : Bool × Queue × Ledger Kind :=
  if fails (.queue i .kasprintf) then (false, { q with name := none }, l)
  else ubbdKringRegisterDevice fails i { q with name := some l.next } (l.alloc .name)

/-- `ubbd_queue_create`. -/
def ubbdQueueCreate (i : Nat) (q : Queue) (dataPages : Nat) (l : Ledger Kind) : Bool × Queue × Ledger Kind :=
  let q := { q with dataPages := dataPages }
  if fails (.queue i .needFault) then (false, q, l)
  else if fails (.queue i .bitmapZalloc) then (false, { q with dataBitmap := none }, l)
  else
    match ubbdQueueSbInit fails i { q with dataBitmap := some l.next } (l.alloc .bitmap) with
    | (false, q, l) => (false, q, l)
    | (true, q, l) => ubbdQueueKringInit fails i q l

/-- `ubbd_kring_unregister_device`. -/
def ubbdKringUnregisterDevice (q : Queue) (l : Ledger Kind) : Ledger Kind :=
  match q.kringDev with
  | none => l
  | some (idev, minor) => (l.release .kring idev).release .minor minor

/-- `ubbd_queue_destroy`. The array of the data pages is empty: no request has come yet. -/
def ubbdQueueDestroy (l : Ledger Kind) (q : Queue) : Ledger Kind :=
  -- `ubbd_queue_kring_destroy` and `ubbd_queue_sb_destroy`
  let l := ubbdKringUnregisterDevice q (l.releaseOpt .name q.name)
  let l := l.releaseOpt .superblock q.sbAddr
  l.releaseOpt .bitmap q.dataBitmap

/-- `ubbd_dev_destroy_queues`. -/
def ubbdDevDestroyQueues (queuesAddr : Nat) (queues : List Queue) (l : Ledger Kind) : Ledger Kind :=
  (queues.foldl ubbdQueueDestroy l).release .queues queuesAddr

/-- The loop of `ubbd_dev_create_queues`, with `n` queues to go, those created so far, and the
queues of the array as it leaves them. -/
def createLoop (dataPages : Nat) : Nat → List Queue → Ledger Kind → Bool × List Queue × Ledger Kind
  | 0, queues, l => (true, queues, l)
  | n + 1, queues, l =>
    match ubbdQueueCreate fails queues.length .zeroed dataPages l with
    | (false, q, l) => (false, queues ++ q :: List.replicate n .zeroed, l)
    | (true, q, l) => createLoop dataPages n (queues ++ [q]) l

/-- `ubbd_dev_create_queues`. -/
def ubbdDevCreateQueues (v : Variant) (opts : AddOpts) (l : Ledger Kind) :
    Option (Nat × List Queue) × Ledger Kind :=
  if fails .kcalloc ∨ v.room opts.numQueues = false then (none, l)
  else
    let queuesAddr := l.next
    match createLoop fails opts.dataPages opts.numQueues [] (l.alloc .queues) with
    | (true, queues, l) => (some (queuesAddr, queues), l)
    | (false, queues, l) => (none, ubbdDevDestroyQueues queuesAddr queues l)

/-! ## The device -/

/-- `ubbd_debugfs_add_dev`, whose errors are ignored. -/
def ubbdDebugfsAddDev (l : Ledger Kind) : Option Nat × Ledger Kind :=
  if fails .debugfsCreate then (none, l) else (some l.next, l.alloc .debugfs)

/-- `ubbd_dev_create`. -/
def ubbdDevCreate (v : Variant) (opts : AddOpts) (k : Kernel) : Option Device × Kernel :=
  if fails .needFault then (none, k)
  else if fails .kzalloc then (none, k)
  else
    let addr := k.ledger.next
    let l := k.ledger.alloc .device
    if fails .idNeedFault then (none, { k with ledger := l.release .device addr })
    else if fails .idaAlloc then (none, { k with ledger := l.release .device addr })
    else
      let devId := l.next
      match ubbdDevCreateQueues fails v opts (l.alloc .id) with
      | (none, l) => (none, { k with ledger := (l.release .id devId).release .device addr })
      | (some (queuesAddr, queues), l) =>
        if fails .allocWorkqueue then
          let l := ubbdDevDestroyQueues queuesAddr queues l
          (none, { k with ledger := (l.release .id devId).release .device addr })
        else
          let taskWq := l.next
          let (debugfsD, l) := ubbdDebugfsAddDev fails (l.alloc .workqueue)
          (some ⟨addr, devId, queuesAddr, queues, taskWq, debugfsD, none, none, none, 1⟩,
            { k with ledger := l, moduleRefs := k.moduleRefs + 1 })

/-- `ubbd_dev_destroy`. -/
def ubbdDevDestroy (d : Device) (k : Kernel) : Kernel :=
  let l := k.ledger.releaseOpt .debugfs d.debugfsD
  let l := l.release .workqueue d.taskWq
  let l := ubbdDevDestroyQueues d.queuesAddr d.queues l
  { k with
    ledger := (l.release .id d.devId).release .device d.addr
    moduleRefs := k.moduleRefs - 1 }

/-- `ubbd_dev_put`. -/
def ubbdDevPut (d : Device) (k : Kernel) : Kernel := if d.kref - 1 = 0 then ubbdDevDestroy d k else k

/-- The two variants of `ubbd_init_disk`. `blk_mq_alloc_tag_set` refuses a set without queues. -/
def ubbdInitDisk (v : Variant) (d : Device) (l : Ledger Kind) : Bool × Device × Ledger Kind :=
  if v.haveAllocDisk then
    if fails .diskNeedFault then (false, d, l)
    else if fails .allocDisk then (false, d, l)
    else
      let disk := l.next
      let l := l.alloc .disk
      if fails .tagSetNeedFault then (false, d, l.release .disk disk)
      else if fails .allocTagSet ∨ d.queues.length = 0 then (false, d, l.release .disk disk)
      else
        let tagSet := l.next
        let l := l.alloc .tagSet
        if fails .queueNeedFault then (false, d, (l.release .tagSet tagSet).release .disk disk)
        else if fails .initQueue then (false, d, (l.release .tagSet tagSet).release .disk disk)
        else
          (true, { d with disk := some disk, tagSet := some tagSet, requestQueue := some l.next },
            l.alloc .requestQueue)
  else
    if fails .tagSetNeedFault then (false, d, l)
    else if fails .allocTagSet ∨ d.queues.length = 0 then (false, d, l)
    else
      let tagSet := l.next
      let l := l.alloc .tagSet
      if fails .diskNeedFault then (false, d, l.release .tagSet tagSet)
      else if fails .allocDisk then (false, d, l.release .tagSet tagSet)
      else (true, { d with disk := some l.next, tagSet := some tagSet }, l.alloc .disk)

/-- `ubbd_dev_device_setup`. -/
def ubbdDevDeviceSetup (v : Variant) (d : Device) (l : Ledger Kind) : Bool × Device × Ledger Kind :=
  match ubbdInitDisk fails v d l with
  | (false, d, l) => (false, d, l)
  | (true, d, l) => if v.v6_8 then (!fails .commitUpdate, d, l) else (true, d, l)

/-- `ubbd_dev_add_dev`. -/
def ubbdDevAddDev (v : Variant) (opts : AddOpts) (k : Kernel) : Except Errno Device × Kernel :=
  match ubbdDevCreate fails v opts k with
  | (none, k) => (.error .enomem, k)
  | (some d, k) =>
    if fails .addNeedFault then (.error .enomem, ubbdDevPut d k)
    else
      match ubbdDevDeviceSetup fails v d k.ledger with
      | (false, d, l) => (.error .einval, ubbdDevPut d { k with ledger := l })
      | (true, d, l) =>
        (.ok d, { k with
          ledger := l
          ubbdTotalDevs := k.ubbdTotalDevs + 1
          ubbdDevList := k.ubbdDevList ++ [d.addr] })

end

/-- The call, where the calls at `p` fail. If it returns an error, what is alive and counted is what
was before, and nothing was given back twice. -/
def AllOrNothing (v : Variant) (opts : AddOpts) (p : Point) (k : Kernel) : Prop :=
  ∀ e k', ubbdDevAddDev (fun q => decide (q = p)) v opts k = (.error e, k') →
    k'.ledger.live = k.ledger.live ∧ k'.ledger.twice = k.ledger.twice ∧ k'.moduleRefs = k.moduleRefs ∧
      k'.ubbdTotalDevs = k.ubbdTotalDevs ∧ k'.ubbdDevList = k.ubbdDevList

end Ubbd.Add

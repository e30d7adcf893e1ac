import UbbdKernel.Basic
import UbbdKernel.Framework.Nla

/-!
# Netlink replies

How `ubbd_nl.c` builds its replies to the commands that add a device, ask for
its status and list all devices: each first computes the size of the reply,
asks for a buffer of that size, and then puts attributes into it, nested three
deep, as long as there is room. `fails` says which calls fail.
-/

namespace Ubbd.Netlink

/-- The types of the attributes, from `ubbd.h`. -/
structure Types where
  attrRetval : Nat
  attrDevInfo : Nat
  attrDevList : Nat
  attrPad : Nat
  statusDevId : Nat
  statusStatus : Nat
  statusQueueInfo : Nat
  queueInfoItem : Nat
  queueInfoKringId : Nat
  queueInfoKringMapSize : Nat
  queueInfoBPid : Nat
  queueInfoStatus : Nat
  queueInfoCpuList : Nat
  queueInfoCpuId : Nat
  listDevId : Nat
  /-- They leave room for the two flags of a type. -/
  lt : ∀ t ∈ [attrRetval, attrDevInfo, attrDevList, attrPad, statusDevId, statusStatus, statusQueueInfo,
    queueInfoItem, queueInfoKringId, queueInfoKringMapSize, queueInfoBPid, queueInfoStatus, queueInfoCpuList,
    queueInfoCpuId, listDevId], t < 2 ^ 14
  status_nodup : [statusDevId, statusStatus, statusQueueInfo].Nodup
  queue_nodup : [queueInfoKringId, queueInfoKringMapSize, queueInfoBPid, queueInfoStatus, queueInfoCpuList,
    attrPad].Nodup

/-- The kernel that the driver runs in. -/
structure Host where
  types : Types
  bigEndian : Bool
  /-- It has no `CONFIG_HAVE_EFFICIENT_UNALIGNED_ACCESS`, and so aligns 64-bit attributes. -/
  alignU64 : Bool
  /-- `nla_nest_start` sets `NLA_F_NESTED`. -/
  nestedFlag : Bool
  nrCpuIds : Nat
  /-- The bits that `cpumask_weight` looks at, at most `CONFIG_NR_CPUS`. -/
  nrCpumaskBits : Nat
  nrCpuIds_le : nrCpuIds ≤ nrCpumaskBits
  nrCpumaskBits_le : nrCpumaskBits ≤ 8192
  /-- What `alloc_skb` gives above the size it is asked for. -/
  extra : Nat → Nat

/-- What a reply says of a queue. -/
structure Queue where
  /-- Of its `ubbd_kring_dev`. -/
  minor : Int32
  /-- `ubbd_kring_info.mem[0].size`. -/
  mapSize : UInt64
  backendPid : Int32
  status : Int32
  cpumask : Nat → Bool

structure Device where
  devId : Int32
  status : UInt8
  queues : List Queue

/-- A reply, after `genlmsg_put_reply`. -/
structure Skb where
  /-- The size that `genlmsg_new` was asked for. -/
  asked : Nat
  /-- The bytes it has, those of the two headers among them. -/
  size : Nat
  /-- The attributes put. -/
  data : List UInt8
  /-- How many attributes were refused for lack of room, and no one looked. -/
  refused : Nat

/-- Why no reply is sent. -/
inductive Err
  /-- `-EMSGSIZE`, since an attribute has no room. -/
  | room
  /-- An error number of the function's own. -/
  | errno (e : Errno)
  /-- What `genlmsg_reply` returned. -/
  | reply
  /-- The end of a nest that was not started: a store through NULL. -/
  | oops

/-- The calls that may fail: those of `ubbd_mgmt_need_fault`, `genlmsg_new` and `genlmsg_reply`. -/
inductive Point
  | beforeNew | genlmsgNew | beforePut | inFill | beforeEnd | genlmsgReply

/-! ## Attributes -/

/-- `nla_attr_size`. -/
def nlaAttrSize (payload : Nat) : Nat := 4 + payload

/-- `nla_total_size`. -/
def nlaTotalSize (payload : Nat) : Nat := Nla.align (nlaAttrSize payload)

namespace Skb

/-- The bytes used: two headers, and the attributes. -/
def tail (skb : Skb) : Nat := 20 + skb.data.length

def push (skb : Skb) (bs : List UInt8) : Skb := { skb with data := skb.data ++ bs }

end Skb

variable (H : Host)

/-- `nla_put`. -/
def nlaPut (skb : Skb) (type : Nat) (payload : List UInt8) : Except Err Skb :=
  if skb.size < skb.tail + nlaTotalSize payload.length then .error .room
  else .ok (skb.push (Nla.attr H.bigEndian type payload))

def nlaPutS32 (skb : Skb) (type : Nat) (v : Int32) : Except Err Skb :=
  nlaPut H skb type (Nla.word H.bigEndian 4 v.toUInt32.toNat)

def nlaPutU8 (skb : Skb) (type : Nat) (v : UInt8) : Except Err Skb :=
  nlaPut H skb type (Nla.word H.bigEndian 1 v.toNat)

/-- `nla_put_u64_64bit`: room for both attributes is looked for first. -/
def nlaPutU64_64bit (skb : Skb) (type : Nat) (v : UInt64) (padattr : Nat) : Except Err Skb :=
  let payload := Nla.word H.bigEndian 8 v.toNat
  if H.alignU64 ∧ skb.tail % 8 = 0 then
    if skb.size < skb.tail + (nlaTotalSize 8 + nlaTotalSize 0) then .error .room
    else .ok ((skb.push (Nla.attr H.bigEndian padattr [])).push (Nla.attr H.bigEndian type payload))
  else nlaPut H skb type payload

/-- The type that `nla_nest_start` writes. -/
def nestType (type : Nat) : Nat := if H.nestedFlag then type + 2 ^ 15 else type

/-- `nla_nest_start`: where the nest starts, or NULL. -/
def nlaNestStart (skb : Skb) (type : Nat) : Option Nat × Skb :=
  match nlaPut H skb (nestType H type) [] with
  | .ok skb' => (some skb.data.length, skb')
  | .error _ => (none, { skb with refused := skb.refused + 1 })

/-- `nla_nest_end`: the distance from the start, in 16 bits. -/
def nlaNestEnd (skb : Skb) (start : Option Nat) : Except Err Skb :=
  match start with
  | none => .error .oops
  | some off => .ok { skb with
      data := skb.data.take off ++ (Nla.word H.bigEndian 2 (skb.data.length - off) ++ skb.data.drop (off + 2)) }

/-! ## Sizes -/

/-- The CPUs that `for_each_cpu` goes through. -/
def forEachCpu (q : Queue) : List Nat := (List.range H.nrCpuIds).filter q.cpumask

/-- `cpumask_weight`. -/
def cpumaskWeight (q : Queue) : Nat := (List.range H.nrCpumaskBits).countP q.cpumask

/-- `get_queue_msg_size`. -/
def getQueueMsgSize (q : Queue) : Nat :=
  let msgSize := nlaAttrSize 4
  let msgSize := msgSize + (nlaAttrSize 4 + nlaAttrSize (8 + nlaAttrSize 4))
  let msgSize := msgSize + nlaAttrSize 4
  let msgSize := msgSize + nlaAttrSize 4
  let cpulistSize := nlaAttrSize 4 * cpumaskWeight H q
  msgSize + cpulistSize

/-- `get_status_msg_size`. -/
def getStatusMsgSize (d : Device) : Nat :=
  let msgSize := nlaAttrSize 4 + nlaAttrSize (1 + nlaAttrSize 4)
  nlaTotalSize (d.queues.foldl (fun msgSize q => msgSize + getQueueMsgSize H q) msgSize)

/-! ## Filling a reply -/

/-- The attributes of the CPUs; whether one is refused is not looked at. -/
def fillCpuList (cpus : List Nat) (skb : Skb) : Skb :=
  cpus.foldl (fun skb c =>
    match nlaPutS32 H skb H.types.queueInfoCpuId (.ofNat c) with
    | .ok skb => skb
    | .error _ => { skb with refused := skb.refused + 1 }) skb

/-- `fill_queue_info_item`. -/
def fillQueueInfoItem (q : Queue) (skb : Skb) : Except Err Skb := do
  let (queueInfoItem, skb) := nlaNestStart H skb H.types.queueInfoItem
  let skb ← nlaPutS32 H skb H.types.queueInfoKringId q.minor
  let skb ← nlaPutU64_64bit H skb H.types.queueInfoKringMapSize q.mapSize H.types.attrPad
  let skb ← nlaPutS32 H skb H.types.queueInfoBPid q.backendPid
  let skb ← nlaPutS32 H skb H.types.queueInfoStatus q.status
  let (cpuList, skb) := nlaNestStart H skb H.types.queueInfoCpuList
  let skb := fillCpuList H (forEachCpu H q) skb
  let skb ← nlaNestEnd H skb cpuList
  nlaNestEnd H skb queueInfoItem

/-- `fill_ubbd_status_queue_info`. -/
def fillUbbdStatusQueueInfo (d : Device) (skb : Skb) : Except Err Skb := do
  let (queueInfoNest, skb) := nlaNestStart H skb H.types.statusQueueInfo
  let skb ← d.queues.foldlM (fun skb q => fillQueueInfoItem H q skb) skb
  nlaNestEnd H skb queueInfoNest

/-- `fill_ubbd_status_detail`. -/
def fillUbbdStatusDetail (d : Device) (skb : Skb) : Except Err Skb := do
  let skb ← nlaPutS32 H skb H.types.statusDevId d.devId
  let skb ← nlaPutU8 H skb H.types.statusStatus d.status
  fillUbbdStatusQueueInfo H d skb

/-- `fill_ubbd_list`. -/
def fillUbbdList (devs : List Device) (skb : Skb) : Except Err Skb := do
  let (devList, skb) := nlaNestStart H skb H.types.attrDevList
  let skb ← devs.foldlM (fun skb d => nlaPutS32 H skb H.types.listDevId d.devId) skb
  nlaNestEnd H skb devList

/-- An error unless a condition holds. -/
def guard (ok : Bool) (e : Err) : Except Err Unit := if ok then .ok () else .error e

/-- A pointer that must not be NULL. -/
def nonNull {α : Type} (e : Err) : Option α → Except Err α
  | some a => .ok a
  | none => .error e

variable (fails : Point → Bool)

/-- `fill_ubbd_status`. -/
def fillUbbdStatus (d : Device) (skb : Skb) : Except Err Skb := do
  guard (!fails .inFill) (.errno .emsgsize)
  let (devNest, skb) := nlaNestStart H skb H.types.attrDevInfo
  let devNest ← nonNull .room devNest
  let skb ← fillUbbdStatusDetail H d skb
  nlaNestEnd H skb devNest

/-! ## The commands -/

/-- `genlmsg_new`. -/
def genlmsgNew (payload : Nat) : Option Skb :=
  let size := Nla.align (16 + Nla.align (4 + payload))
  if fails .genlmsgNew then none else some ⟨payload, size + H.extra size, [], 0⟩

/-- `genlmsg_put_reply`, of a header of 16 and one of 4 bytes. -/
def genlmsgPutReply (skb : Skb) : Option Skb := if skb.size < 20 then none else some skb

/-- `ubbd_nl_reply_add_dev_done`; the error is always `-EMSGSIZE`. -/
def ubbdNlReplyAddDevDone (d : Device) : Except Err Skb := do
  let msgSize := getStatusMsgSize H d
  let msgSize := msgSize + nlaTotalSize (nlaAttrSize 4)
  let msgSize := msgSize + nlaTotalSize (nlaAttrSize 4)
  guard (!fails .beforeNew) (.errno .emsgsize)
  let skb ← nonNull (.errno .emsgsize) (genlmsgNew H fails msgSize)
  guard (!fails .beforePut) (.errno .emsgsize)
  let skb ← nonNull (.errno .emsgsize) (genlmsgPutReply skb)
  let (devInfoNest, skb) := nlaNestStart H skb H.types.attrDevInfo
  let devInfoNest ← nonNull .room devInfoNest
  let skb ← fillUbbdStatusDetail H d skb
  let skb ← nlaNestEnd H skb devInfoNest
  let skb ← nlaPutS32 H skb H.types.attrRetval 0
  guard (!fails .beforeEnd) (.errno .emsgsize)
  guard (!fails .genlmsgReply) .reply
  return skb

/-- `__find_ubbd_dev`. -/
def findUbbdDev (devs : List Device) (devId : Int32) : Option Device := devs.find? fun d => d.devId = devId

/-- `handle_cmd_status`, for the device id of the request. -/
def handleCmdStatus (devs : List Device) (devId : Option Int32) : Except Err Skb := do
  let devId ← nonNull (.errno .einval) devId
  let msgSize := nlaTotalSize (nlaAttrSize 4)
  let d ← nonNull (.errno .enoent) (findUbbdDev devs devId)
  let msgSize := msgSize + getStatusMsgSize H d
  let msgSize := msgSize + nlaAttrSize 4
  guard (!fails .beforeNew) (.errno .enomem)
  let skb ← nonNull (.errno .enomem) (genlmsgNew H fails msgSize)
  guard (!fails .beforePut) (.errno .enomem)
  let skb ← nonNull (.errno .enomem) (genlmsgPutReply skb)
  let skb ← fillUbbdStatus H fails d skb
  let skb ← nlaPutS32 H skb H.types.attrRetval 0
  guard (!fails .beforeEnd) (.errno .emsgsize)
  guard (!fails .genlmsgReply) .reply
  return skb

/-- `handle_cmd_list`. -/
def handleCmdList (devs : List Device) : Except Err Skb := do
  let msgSize := nlaTotalSize (nlaAttrSize 4)
  let msgSize := msgSize + nlaTotalSize (nlaAttrSize 4)
  let msgSize := devs.foldl (fun msgSize _ => msgSize + nlaAttrSize 4) msgSize
  guard (!fails .beforeNew) (.errno .enomem)
  let skb ← nonNull (.errno .enomem) (genlmsgNew H fails msgSize)
  guard (!fails .beforePut) (.errno .enomem)
  let skb ← nonNull (.errno .enomem) (genlmsgPutReply skb)
  let skb ← fillUbbdList H devs skb
  let skb ← nlaPutS32 H skb H.types.attrRetval 0
  guard (!fails .beforeEnd) (.errno .emsgsize)
  guard (!fails .genlmsgReply) .reply
  return skb

end Ubbd.Netlink

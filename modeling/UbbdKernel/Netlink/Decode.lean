import UbbdKernel.Netlink.Room

/-!
# Reading a status reply

A parser for the replies of `handle_cmd_status`, as a program that asks for the
status would have it: the first attribute of each type, and all items of a nest
in their order. `nla_nest_end` writes a length of 16 bits, so a reply tells of
its device as long as the nest of the device is shorter than `2 ^ 16` bytes,
and only then (`decodes_iff`): of a longer nest only what is left of its length
is read, which has no room for all queues.
-/

namespace Ubbd.Netlink

/-- What a reply says of a queue. -/
structure QueueInfo where
  kringId : Int32
  kringMapSize : UInt64
  bPid : Int32
  status : Int32
  cpuList : List Int32
  deriving DecidableEq

/-- What a reply says of a device. -/
structure DevInfo where
  devId : Int32
  status : UInt8
  queueInfo : List QueueInfo
  deriving DecidableEq

variable (H : Host)

/-! ## The parser -/

/-- `nla_get_s32`. -/
def getS32 (payload : List UInt8) : Option Int32 :=
  (Nla.get H.bigEndian 4 payload).map fun v => (UInt32.ofNat v).toInt32

def decodeCpu (a : Nla.Attr) : Option Int32 :=
  if a.type = H.types.queueInfoCpuId then getS32 H a.payload else none

def decodeQueue (payload : List UInt8) : Option QueueInfo := do
  let as := Nla.parse H.bigEndian payload
  let kringId ← (Nla.find H.types.queueInfoKringId as).bind (getS32 H)
  let kringMapSize ← (Nla.find H.types.queueInfoKringMapSize as).bind (Nla.get H.bigEndian 8)
  let bPid ← (Nla.find H.types.queueInfoBPid as).bind (getS32 H)
  let status ← (Nla.find H.types.queueInfoStatus as).bind (getS32 H)
  let cpus ← Nla.find H.types.queueInfoCpuList as
  let cpuList ← (Nla.parse H.bigEndian cpus).mapM (decodeCpu H)
  return ⟨kringId, .ofNat kringMapSize, bPid, status, cpuList⟩

def decodeItem (a : Nla.Attr) : Option QueueInfo :=
  if a.type = H.types.queueInfoItem then decodeQueue H a.payload else none

def decodeStatus (bs : List UInt8) : Option DevInfo := do
  let info ← Nla.find H.types.attrDevInfo (Nla.parse H.bigEndian bs)
  let as := Nla.parse H.bigEndian info
  let devId ← (Nla.find H.types.statusDevId as).bind (getS32 H)
  let status ← (Nla.find H.types.statusStatus as).bind (Nla.get H.bigEndian 1)
  let items ← Nla.find H.types.statusQueueInfo as
  let queueInfo ← (Nla.parse H.bigEndian items).mapM (decodeItem H)
  return ⟨devId, .ofNat status, queueInfo⟩

/-- What a reply is to say of a queue. -/
def queueInfoOf (q : Queue) : QueueInfo :=
  ⟨q.minor, q.mapSize, q.backendPid, q.status, (forEachCpu H q).map .ofNat⟩

/-- What a reply is to say of a device. -/
def devInfoOf (d : Device) : DevInfo := ⟨d.devId, d.status, d.queues.map (queueInfoOf H)⟩

/-- Each reply to a request for the status of the device tells of it. -/
def Decodes (d : Device) : Prop :=
  ∀ fails devs skb, findUbbdDev devs d.devId = some d → handleCmdStatus H fails devs (some d.devId) = .ok skb →
    decodeStatus H skb.data = some (devInfoOf H d)

variable {H}

/-! ## Reading back -/

theorem nestType_mod (type : Nat) : nestType H type % 2 ^ 14 = type % 2 ^ 14 := by
  unfold nestType
  split <;> omega

theorem getS32_word (v : Int32) : getS32 H (Nla.word H.bigEndian 4 v.toUInt32.toNat) = some v := by
  have hmod : v.toUInt32.toNat % 256 ^ 4 = v.toUInt32.toNat := Nat.mod_eq_of_lt v.toUInt32.toNat_lt
  rw [getS32, Nla.get_word, Option.map_some, hmod, UInt32.ofNat_toNat, Int32.toInt32_toUInt32]

theorem parse_s32 (type : Nat) (v : Int32) (rest : List UInt8) : Nla.parse H.bigEndian (s32 H type v ++ rest) =
    ⟨type % 2 ^ 14, Nla.word H.bigEndian 4 v.toUInt32.toNat⟩ :: Nla.parse H.bigEndian rest :=
  Nla.parse_attr _ rest (by rw [Nla.length_word]; decide)

theorem mapM_map {α β γ : Type} {f : β → Option γ} {g : α → β} {h : α → γ} {xs : List α}
    (hf : ∀ x ∈ xs, f (g x) = some (h x)) : (xs.map g).mapM f = some (xs.map h) := by
  induction xs with
  | nil => rfl
  | cons x xs ih =>
    rw [List.map_cons, List.mapM_cons, hf x (List.mem_cons_self ..), ih fun y hy => hf y (List.mem_cons_of_mem _ hy)]
    rfl

theorem decodeCpus_cpuIds (cpus : List Nat) :
    (Nla.parse H.bigEndian (cpuIds H cpus)).mapM (decodeCpu H) = some (cpus.map .ofNat) := by
  have hparse : Nla.parse H.bigEndian (cpuIds H cpus) = _ :=
    Nla.parse_flatMap (fun _ => H.types.queueInfoCpuId) (fun c => Nla.word H.bigEndian 4 (Int32.ofNat c).toUInt32.toNat)
      fun _ _ => by rw [Nla.length_word]; decide
  have htype : H.types.queueInfoCpuId % 2 ^ 14 = H.types.queueInfoCpuId := Nat.mod_eq_of_lt (H.types.lt _ (by simp))
  refine (congrArg (List.mapM (decodeCpu H)) hparse).trans (mapM_map fun c _ => ?_)
  rw [decodeCpu, if_pos htype, getS32_word]

/-- The attributes of an item, with the padding where there is one. -/
def itemAttrs (H : Host) (q : Queue) : List Nla.Attr :=
  ⟨H.types.queueInfoKringId, Nla.word H.bigEndian 4 q.minor.toUInt32.toNat⟩ ::
    ((if H.alignU64 then [⟨H.types.attrPad, []⟩] else []) ++
      [⟨H.types.queueInfoKringMapSize, Nla.word H.bigEndian 8 q.mapSize.toNat⟩,
        ⟨H.types.queueInfoBPid, Nla.word H.bigEndian 4 q.backendPid.toUInt32.toNat⟩,
        ⟨H.types.queueInfoStatus, Nla.word H.bigEndian 4 q.status.toUInt32.toNat⟩,
        ⟨H.types.queueInfoCpuList, cpuIds H (forEachCpu H q)⟩])

theorem parse_itemPayload {q : Queue} (h : 4 + 8 * (forEachCpu H q).length < 2 ^ 16) :
    Nla.parse H.bigEndian (itemPayload H q) = itemAttrs H q := by
  have hkring := Nat.mod_eq_of_lt (H.types.lt H.types.queueInfoKringId (by simp))
  have hpad := Nat.mod_eq_of_lt (H.types.lt H.types.attrPad (by simp))
  have hmap := Nat.mod_eq_of_lt (H.types.lt H.types.queueInfoKringMapSize (by simp))
  have hpid := Nat.mod_eq_of_lt (H.types.lt H.types.queueInfoBPid (by simp))
  have hstatus := Nat.mod_eq_of_lt (H.types.lt H.types.queueInfoStatus (by simp))
  have hcpu := Nat.mod_eq_of_lt (H.types.lt H.types.queueInfoCpuList (by simp))
  have hlast : Nla.parse H.bigEndian (nest H H.types.queueInfoCpuList (cpuIds H (forEachCpu H q))) =
      [⟨H.types.queueInfoCpuList, cpuIds H (forEachCpu H q)⟩] := by
    rw [nest, Nla.parse_attr_last _ (by rwa [length_cpuIds]), nestType_mod, hcpu]
  have hrest : ∀ rest, Nla.parse H.bigEndian (pad H ++ rest) =
      (if H.alignU64 then [⟨H.types.attrPad, []⟩] else []) ++ Nla.parse H.bigEndian rest := fun rest => by
    unfold pad
    split
    · rw [Nla.parse_attr _ rest (by decide), hpad]
      rfl
    · rfl
  rw [itemPayload, parse_s32, hrest, Nla.parse_attr _ _ (by rw [Nla.length_word]; decide), parse_s32, parse_s32, hlast,
    hkring, hmap, hpid, hstatus]
  rfl

theorem itemAttrs_nodup (q : Queue) : ((itemAttrs H q).map Nla.Attr.type).Nodup := by
  have hnodup := H.types.queue_nodup
  unfold itemAttrs
  split
  · -- the padding is in its place, and not at the end
    refine (List.Perm.nodup_iff (.cons _ ?_)).mp hnodup
    exact List.perm_append_singleton _ [_, _, _, _]
  · exact hnodup.sublist (List.sublist_append_left [_, _, _, _, _] [_])

/-- An item is read back if its list of CPUs is short enough. -/
theorem decodeQueue_itemPayload {q : Queue} (h : 4 + 8 * (forEachCpu H q).length < 2 ^ 16) :
    decodeQueue H (itemPayload H q) = some (queueInfoOf H q) := by
  have hfind : ∀ {type payload}, ⟨type, payload⟩ ∈ itemAttrs H q → Nla.find type (itemAttrs H q) = some payload :=
    Nla.find_of_mem (itemAttrs_nodup q)
  have hkring := hfind (List.mem_cons_self ..)
  have hrest : ∀ {a}, a ∈ _ → a ∈ itemAttrs H q := fun ha => List.mem_cons_of_mem _ (List.mem_append_right _ ha)
  have hmap := hfind (hrest (List.mem_cons_self ..))
  have hpid := hfind (hrest (.tail _ (.head _)))
  have hstatus := hfind (hrest (.tail _ (.tail _ (.head _))))
  have hcpus := hfind (hrest (.tail _ (.tail _ (.tail _ (.head _)))))
  have hsize : q.mapSize.toNat % 256 ^ 8 = q.mapSize.toNat := Nat.mod_eq_of_lt q.mapSize.toNat_lt
  simp only [decodeQueue, parse_itemPayload h, hkring, hmap, hpid, hstatus, hcpus, Option.bind_some, getS32_word,
    Nla.get_word, decodeCpus_cpuIds, Option.bind_eq_bind, hsize, UInt64.ofNat_toNat]
  rfl

/-- The items of a device, each short enough. -/
theorem decodeItems_items (qs : List Queue) (h : ∀ q ∈ qs, itemSize H q < 2 ^ 16) :
    (Nla.parse H.bigEndian (qs.flatMap (item H))).mapM (decodeItem H) = some (qs.map (queueInfoOf H)) := by
  have hsize : ∀ q ∈ qs, 4 + (itemPayload H q).length < 2 ^ 16 := fun q hq => by
    rw [length_itemPayload]
    exact h q hq
  have hparse : Nla.parse H.bigEndian (qs.flatMap (item H)) = _ :=
    Nla.parse_flatMap (fun _ => nestType H H.types.queueInfoItem) (itemPayload H) hsize
  have htype : nestType H H.types.queueInfoItem % 2 ^ 14 = H.types.queueInfoItem := by
    rw [nestType_mod]
    exact Nat.mod_eq_of_lt (H.types.lt _ (by simp))
  refine (congrArg (List.mapM (decodeItem H)) hparse).trans (mapM_map fun q hq => ?_)
  have hq := h q hq
  rw [decodeItem, if_pos htype]
  refine decodeQueue_itemPayload ?_
  unfold itemSize at hq
  omega

theorem itemSize_le_itemsSize {q : Queue} {qs : List Queue} (h : q ∈ qs) : itemSize H q ≤ itemsSize H qs := by
  obtain ⟨as, bs, rfl⟩ := List.append_of_mem h
  rw [itemsSize, List.map_append, List.map_cons, List.sum_append_nat, List.sum_cons]
  omega

/-- What `fill_ubbd_status_detail` writes is read back if it fits a nest. -/
theorem decodeStatus_devInfo {d : Device} (h : 24 + itemsSize H d.queues < 2 ^ 16) (rest : List UInt8) :
    decodeStatus H (devInfo H d ++ rest) = some (devInfoOf H d) := by
  have hinfo := Nat.mod_eq_of_lt (H.types.lt H.types.attrDevInfo (by simp))
  have hdev := Nat.mod_eq_of_lt (H.types.lt H.types.statusDevId (by simp))
  have hstatus := Nat.mod_eq_of_lt (H.types.lt H.types.statusStatus (by simp))
  have hqueues := Nat.mod_eq_of_lt (H.types.lt H.types.statusQueueInfo (by simp))
  have htop : Nla.find H.types.attrDevInfo (Nla.parse H.bigEndian (devInfo H d ++ rest)) = some (detail H d) := by
    rw [devInfo, nest, Nla.parse_attr _ rest (by rw [length_detail]; omega), nestType_mod, hinfo, Nla.find_cons,
      if_pos rfl]
  have hdetail : Nla.parse H.bigEndian (detail H d) =
      [⟨H.types.statusDevId, Nla.word H.bigEndian 4 d.devId.toUInt32.toNat⟩,
        ⟨H.types.statusStatus, Nla.word H.bigEndian 1 d.status.toNat⟩,
        ⟨H.types.statusQueueInfo, d.queues.flatMap (item H)⟩] := by
    rw [detail, parse_s32, Nla.parse_attr _ _ (by rw [Nla.length_word]; decide), nest,
      Nla.parse_attr_last _ (by rw [length_items]; omega), nestType_mod, hdev, hstatus, hqueues]
  have hitems := decodeItems_items (H := H) d.queues fun q hq => by
    have hle := itemSize_le_itemsSize (H := H) hq
    omega
  have hone : d.status.toNat % 256 ^ 1 = d.status.toNat := Nat.mod_eq_of_lt d.status.toNat_lt
  have hfind : ∀ {type payload}, ⟨type, payload⟩ ∈ Nla.parse H.bigEndian (detail H d) →
      Nla.find type (Nla.parse H.bigEndian (detail H d)) = some payload :=
    Nla.find_of_mem (by rw [hdetail]; exact H.types.status_nodup)
  rw [hdetail] at hfind
  have hid := hfind (.head _)
  have hst := hfind (.tail _ (.head _))
  have hq := hfind (.tail _ (.tail _ (.head _)))
  simp only [decodeStatus, htop, hdetail, hid, hst, hq, Option.bind_some, getS32_word, Nla.get_word,
    Option.bind_eq_bind, hitems, hone, UInt8.ofNat_toNat]
  rfl

/-! ## What can be read of a reply -/

/-- The bytes of a queue, without those that align the `u64`. -/
def infoSize (v : QueueInfo) : Nat := 44 + 8 * v.cpuList.length

theorem le_of_getS32 {payload : List UInt8} {v : Int32} (h : getS32 H payload = some v) : 4 ≤ payload.length := by
  obtain ⟨n, hn, -⟩ := Option.map_eq_some_iff.mp h
  exact Nla.le_of_get hn

theorem le_of_decodeCpus {as : List Nla.Attr} {cpus : List Int32} (h : as.mapM (decodeCpu H) = some cpus) :
    8 * cpus.length ≤ Nla.size as := by
  have hsum := Nla.sum_le_size (f := decodeCpu H) (fun _ => 8) (fun a v ha => by
    unfold decodeCpu at ha
    split at ha
    · have hle := le_of_getS32 ha
      omega
    · cases ha) h
  rwa [List.map_const', List.sum_replicate_nat, Nat.mul_comm] at hsum

/-- An item has room for what it tells. -/
theorem le_of_decodeItem {a : Nla.Attr} {v : QueueInfo} (h : decodeItem H a = some v) :
    infoSize v ≤ 4 + a.payload.length := by
  unfold decodeItem at h
  split at h
  · obtain ⟨kringId, hkring, h⟩ := Option.bind_eq_some_iff.mp h
    obtain ⟨size, hsize, h⟩ := Option.bind_eq_some_iff.mp h
    obtain ⟨pid, hpid, h⟩ := Option.bind_eq_some_iff.mp h
    obtain ⟨status, hstatus, h⟩ := Option.bind_eq_some_iff.mp h
    obtain ⟨cpus, hcpus, h⟩ := Option.bind_eq_some_iff.mp h
    obtain ⟨cpuList, hlist, h⟩ := Option.bind_eq_some_iff.mp h
    cases h
    obtain ⟨p₁, hf₁, hkring⟩ := Option.bind_eq_some_iff.mp hkring
    obtain ⟨p₂, hf₂, hsize⟩ := Option.bind_eq_some_iff.mp hsize
    obtain ⟨p₃, hf₃, hpid⟩ := Option.bind_eq_some_iff.mp hpid
    obtain ⟨p₄, hf₄, hstatus⟩ := Option.bind_eq_some_iff.mp hstatus
    have hnodup := H.types.queue_nodup.sublist (List.sublist_append_left [_, _, _, _, _] [_])
    have hsum := Nla.sum_found_le (Nla.parse H.bigEndian a.payload) hnodup
    simp only [List.map_cons, List.map_nil, List.sum_cons, List.sum_nil, Nla.found_of_find hf₁, Nla.found_of_find hf₂,
      Nla.found_of_find hf₃, Nla.found_of_find hf₄, Nla.found_of_find hcpus] at hsum
    have hparse := Nla.size_parse_le H.bigEndian a.payload
    have hcpuSize := Nla.size_parse_le H.bigEndian cpus
    have h₁ := le_of_getS32 hkring
    have h₂ := Nla.le_of_get hsize
    have h₃ := le_of_getS32 hpid
    have h₄ := le_of_getS32 hstatus
    have h₅ := le_of_decodeCpus hlist
    simp only [infoSize]
    omega
  · cases h

/-- What is found as the nest of the device has room for all that it tells. -/
theorem le_of_decodeStatus {bs : List UInt8} {v : DevInfo} (h : decodeStatus H bs = some v) :
    ∃ info, Nla.find H.types.attrDevInfo (Nla.parse H.bigEndian bs) = some info ∧
      17 + (v.queueInfo.map infoSize).sum ≤ info.length := by
  obtain ⟨info, hinfo, h⟩ := Option.bind_eq_some_iff.mp h
  obtain ⟨devId, hdev, h⟩ := Option.bind_eq_some_iff.mp h
  obtain ⟨status, hstatus, h⟩ := Option.bind_eq_some_iff.mp h
  obtain ⟨items, hitems, h⟩ := Option.bind_eq_some_iff.mp h
  obtain ⟨queueInfo, hqueues, h⟩ := Option.bind_eq_some_iff.mp h
  cases h
  refine ⟨info, hinfo, ?_⟩
  obtain ⟨p₁, hf₁, hdev⟩ := Option.bind_eq_some_iff.mp hdev
  obtain ⟨p₂, hf₂, hstatus⟩ := Option.bind_eq_some_iff.mp hstatus
  have hsum := Nla.sum_found_le (Nla.parse H.bigEndian info) H.types.status_nodup
  simp only [List.map_cons, List.map_nil, List.sum_cons, List.sum_nil, Nla.found_of_find hf₁, Nla.found_of_find hf₂,
    Nla.found_of_find hitems] at hsum
  have hparse := Nla.size_parse_le H.bigEndian info
  have hitemsSize := Nla.size_parse_le H.bigEndian items
  have hall := Nla.sum_le_size infoSize (fun _ _ => le_of_decodeItem) hqueues
  have h₁ := le_of_getS32 hdev
  have h₂ := Nla.le_of_get hstatus
  simp only
  omega

/-- The sizes of the items, the alignment of the `u64`s apart. -/
theorem itemsSize_eq (qs : List Queue) : itemsSize H qs =
    ((qs.map (queueInfoOf H)).map infoSize).sum + if H.alignU64 then 4 * qs.length else 0 := by
  induction qs with
  | nil => cases H.alignU64 <;> rfl
  | cons q qs ih =>
    have hitem : itemSize H q = infoSize (queueInfoOf H q) + if H.alignU64 then 4 else 0 := by
      simp only [itemSize, infoSize, queueInfoOf, List.length_map]
      omega
    rw [itemsSize_cons, hitem, ih, List.map_cons, List.map_cons, List.sum_cons, List.length_cons]
    split <;> omega

theorem le_infoSizes (vs : List QueueInfo) : 44 * vs.length ≤ (vs.map infoSize).sum := by
  induction vs with
  | nil => exact Nat.le_refl _
  | cons v vs ih =>
    rw [List.map_cons, List.sum_cons, List.length_cons]
    unfold infoSize at *
    omega

/-- A nest that has outgrown its length has no room, as it is read, for all queues. -/
theorem fits_of_decodeStatus {d : Device} {rest : List UInt8}
    (h : decodeStatus H (devInfo H d ++ rest) = some (devInfoOf H d)) : 24 + itemsSize H d.queues < 2 ^ 16 := by
  obtain ⟨info, hinfo, hle⟩ := le_of_decodeStatus h
  have htype : nestType H H.types.attrDevInfo % 2 ^ 14 = H.types.attrDevInfo := by
    rw [nestType_mod]
    exact Nat.mod_eq_of_lt (H.types.lt _ (by simp))
  have hitems := itemsSize_eq (H := H) d.queues
  have hqueues := le_infoSizes (d.queues.map (queueInfoOf H))
  have hdetail := length_detail (H := H) d
  rw [devInfo, nest, Nla.parse_attr_append _ _ rest rfl] at hinfo
  rw [List.length_map] at hqueues
  split at hinfo
  · rw [Nla.find_cons, if_pos htype] at hinfo
    cases hinfo
    rw [List.length_drop, List.length_take] at hle
    simp only [devInfoOf] at hle
    split at hitems <;> omega
  · cases hinfo

/-! ## All devices -/

theorem fits_of_decodes {d : Device} (h : Decodes H d) : 24 + itemsSize H d.queues < 2 ^ 16 := by
  -- without a fault the reply is sent
  have hfind : findUbbdDev [d] d.devId = some d := List.find?_cons_of_pos (decide_eq_true rfl)
  have hfault : ¬ Fault fun _ => false := fun ⟨_, hp⟩ => Bool.false_ne_true hp
  obtain ⟨skb, hs, hdata, -⟩ := (handleCmdStatus_answer (H := H) hfind).exists_ok hfault
  have hdecode := h _ [d] skb hfind hs
  rw [hdata] at hdecode
  exact fits_of_decodeStatus hdecode

/-- The status of a device is read back exactly if its nest is shorter than `2 ^ 16` bytes. -/
theorem decodes_iff (H : Host) (d : Device) : Decodes H d ↔ 24 + itemsSize H d.queues < 2 ^ 16 := by
  refine ⟨fits_of_decodes, fun hfits fails devs skb hd hs => ?_⟩
  have hanswer : Answer (Fault fails) _ (handleCmdStatus H fails devs (some d.devId)) := handleCmdStatus_answer hd
  rw [hs] at hanswer
  rw [hanswer.1]
  exact decodeStatus_devInfo hfits (retval H)

/-- A little-endian kernel of one CPU, which neither aligns 64-bit attributes nor marks nests. -/
def smallHost : Host where
  types := {
    attrRetval := 1, attrDevInfo := 2, attrDevList := 3, attrPad := 15
    statusDevId := 1, statusStatus := 2, statusQueueInfo := 3
    queueInfoItem := 1, queueInfoKringId := 2, queueInfoKringMapSize := 3, queueInfoBPid := 4
    queueInfoStatus := 5, queueInfoCpuList := 6, queueInfoCpuId := 7
    listDevId := 1
    lt := by decide
    status_nodup := by decide
    queue_nodup := by decide }
  bigEndian := false
  alignU64 := false
  nestedFlag := false
  nrCpuIds := 1
  nrCpumaskBits := 64
  nrCpuIds_le := by decide
  nrCpumaskBits_le := by decide
  extra := fun _ => 0

/-- A device whose first queue has the only CPU. -/
def deviceOf (numQueues : Nat) : Device where
  devId := 0
  status := 2
  queues := (List.range numQueues).map fun i => ⟨.ofNat i, 2097152, 0, 0, fun c => i = 0 ∧ c = 0⟩

theorem le_deviceOf (numQueues : Nat) : 44 * numQueues ≤ itemsSize smallHost (deviceOf numQueues).queues := by
  have hqueues := le_infoSizes ((deviceOf numQueues).queues.map (queueInfoOf smallHost))
  have hlen : ((deviceOf numQueues).queues.map (queueInfoOf smallHost)).length = numQueues := by
    rw [deviceOf, List.length_map, List.length_map, List.length_range]
  rw [hlen] at hqueues
  rw [itemsSize_eq]
  exact Nat.le_add_right_of_le hqueues

/-- The nest of 1490 queues has 65592 bytes, and its length says 56. -/
theorem nest_outgrows : ¬ Decodes smallHost (deviceOf 1490) := by
  intro h
  have hfits := fits_of_decodes h
  have hqueues := le_deviceOf 1490
  omega

end Ubbd.Netlink

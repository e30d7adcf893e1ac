import UbbdKernel.Netlink.Model

/-!
# What the replies are filled with

The bytes of each part of a reply, and that each function puts them into a
buffer that has room for them. Where 64-bit attributes are aligned, every item
of a queue starts 4 bytes after a multiple of 8, so each `u64` is padded.
-/

namespace Ubbd.Netlink

variable (H : Host)

/-! ## Bytes -/

/-- A nest. -/
def nest (type : Nat) (payload : List UInt8) : List UInt8 := Nla.attr H.bigEndian (nestType H type) payload

def s32 (type : Nat) (v : Int32) : List UInt8 :=
  Nla.attr H.bigEndian type (Nla.word H.bigEndian 4 v.toUInt32.toNat)

/-- What comes before a `u64`. -/
def pad : List UInt8 := if H.alignU64 then Nla.attr H.bigEndian H.types.attrPad [] else []

def cpuIds (cpus : List Nat) : List UInt8 := cpus.flatMap fun c => s32 H H.types.queueInfoCpuId (.ofNat c)

/-- The attributes of a queue. -/
def itemPayload (q : Queue) : List UInt8 :=
  s32 H H.types.queueInfoKringId q.minor ++ (pad H ++
    (Nla.attr H.bigEndian H.types.queueInfoKringMapSize (Nla.word H.bigEndian 8 q.mapSize.toNat) ++
      (s32 H H.types.queueInfoBPid q.backendPid ++ (s32 H H.types.queueInfoStatus q.status ++
        nest H H.types.queueInfoCpuList (cpuIds H (forEachCpu H q))))))

def item (q : Queue) : List UInt8 := nest H H.types.queueInfoItem (itemPayload H q)

/-- The attributes of a device. -/
def detail (d : Device) : List UInt8 :=
  s32 H H.types.statusDevId d.devId ++
    (Nla.attr H.bigEndian H.types.statusStatus (Nla.word H.bigEndian 1 d.status.toNat) ++
      nest H H.types.statusQueueInfo (d.queues.flatMap (item H)))

def devIds (devs : List Device) : List UInt8 := devs.flatMap fun d => s32 H H.types.listDevId d.devId

def retval : List UInt8 := s32 H H.types.attrRetval 0

/-- How many bytes the item of a queue takes. -/
def itemSize (q : Queue) : Nat := 44 + (if H.alignU64 then 4 else 0) + 8 * (forEachCpu H q).length

def itemsSize (qs : List Queue) : Nat := (qs.map (itemSize H)).sum

variable {H}

theorem itemsSize_cons (q : Queue) (qs : List Queue) : itemsSize H (q :: qs) = itemSize H q + itemsSize H qs := rfl

theorem length_nest {payload : List UInt8} (type : Nat) (h : payload.length % 4 = 0) :
    (nest H type payload).length = 4 + payload.length := by
  rw [nest, Nla.length_attr, Nla.align_of_mod h]

@[simp] theorem length_s32 (type : Nat) (v : Int32) : (s32 H type v).length = 8 := by
  rw [s32, Nla.length_attr, Nla.length_word]
  rfl

@[simp] theorem length_cpuIds (cpus : List Nat) : (cpuIds H cpus).length = 8 * cpus.length := by
  rw [cpuIds, List.length_flatMap]
  simp only [length_s32, List.map_const', List.sum_replicate_nat, Nat.mul_comm]

@[simp] theorem length_devIds (devs : List Device) : (devIds H devs).length = 8 * devs.length := by
  rw [devIds, List.length_flatMap]
  simp only [length_s32, List.map_const', List.sum_replicate_nat, Nat.mul_comm]

@[simp] theorem length_pad : (pad H).length = if H.alignU64 then 4 else 0 := by
  unfold pad
  split
  · exact Nla.length_attr ..
  · rfl

theorem itemSize_mod (q : Queue) : itemSize H q % 4 = 0 := by
  unfold itemSize
  split <;> omega

theorem length_itemPayload (q : Queue) : 4 + (itemPayload H q).length = itemSize H q := by
  have hcpus : (nest H H.types.queueInfoCpuList (cpuIds H (forEachCpu H q))).length = 4 + _ :=
    length_nest _ (by rw [length_cpuIds]; omega)
  have hword : Nla.align (Nla.word H.bigEndian 8 q.mapSize.toNat).length = 8 := by rw [Nla.length_word]; rfl
  simp only [itemPayload, List.length_append, length_s32, length_pad, Nla.length_attr, hcpus, hword, length_cpuIds,
    itemSize]
  omega

theorem itemPayload_mod (q : Queue) : (itemPayload H q).length % 4 = 0 := by
  have hlen := length_itemPayload (H := H) q
  have hmod := itemSize_mod (H := H) q
  omega

theorem length_item (q : Queue) : (item H q).length = itemSize H q := by
  rw [item, length_nest _ (itemPayload_mod q), length_itemPayload]

theorem length_items (qs : List Queue) : (qs.flatMap (item H)).length = itemsSize H qs := by
  rw [List.length_flatMap, itemsSize]
  exact congrArg List.sum (List.map_congr_left fun q _ => length_item q)

theorem itemsSize_mod (qs : List Queue) : itemsSize H qs % 4 = 0 := by
  induction qs with
  | nil => rfl
  | cons q qs ih =>
    have hitem := itemSize_mod (H := H) q
    rw [itemsSize_cons]
    omega

theorem length_detail (d : Device) : (detail H d).length = 20 + itemsSize H d.queues := by
  have hmod := itemsSize_mod (H := H) d.queues
  have hnest : (nest H H.types.statusQueueInfo (d.queues.flatMap (item H))).length = 4 + _ :=
    length_nest _ (by rw [length_items]; exact hmod)
  have hword : Nla.align (Nla.word H.bigEndian 1 d.status.toNat).length = 4 := by rw [Nla.length_word]; rfl
  simp only [detail, List.length_append, length_s32, Nla.length_attr, hnest, hword, length_items]
  omega

/-! ## Puts -/

namespace Skb

/-- There is room for `n` more bytes. -/
def Room (skb : Skb) (n : Nat) : Prop := skb.tail + n ≤ skb.size

variable {skb : Skb} {bs cs : List UInt8}

@[simp] theorem push_data : (skb.push bs).data = skb.data ++ bs := rfl

@[simp] theorem push_push : (skb.push bs).push cs = skb.push (bs ++ cs) := by
  rw [push, push, push, List.append_assoc]

theorem push_nil : skb.push [] = skb := by rw [push, List.append_nil]

theorem Room.mono {m n : Nat} (h : skb.Room n) (hm : m ≤ n) : skb.Room m := Nat.le_trans (Nat.add_le_add_left hm _) h

theorem tail_push : (skb.push bs).tail = skb.tail + bs.length := by
  rw [tail, tail, push_data, List.length_append, Nat.add_assoc]

/-- What is put takes its room away. -/
theorem Room.push {n : Nat} (h : skb.Room (bs.length + n)) : (skb.push bs).Room n := by
  show (skb.push bs).tail + n ≤ skb.size
  rw [tail_push, Nat.add_assoc]
  exact h

end Skb

open Skb (Room)

variable {skb : Skb}

theorem nlaPut_eq {type : Nat} {payload : List UInt8} (h : Room skb (nlaTotalSize payload.length)) :
    nlaPut H skb type payload = .ok (skb.push (Nla.attr H.bigEndian type payload)) :=
  if_neg (Nat.not_lt.mpr h)

theorem nlaPutS32_eq {type : Nat} {v : Int32} (h : Room skb 8) :
    nlaPutS32 H skb type v = .ok (skb.push (s32 H type v)) :=
  nlaPut_eq (by rw [Nla.length_word]; exact h)

theorem nlaPutU8_eq {type : Nat} {v : UInt8} (h : Room skb 8) :
    nlaPutU8 H skb type v = .ok (skb.push (Nla.attr H.bigEndian type (Nla.word H.bigEndian 1 v.toNat))) :=
  nlaPut_eq (by rw [Nla.length_word]; exact h)

/-- Where 64-bit attributes are aligned, one put after a multiple of 8 is padded. -/
theorem nlaPutU64_64bit_eq {type : Nat} {v : UInt64} (ha : H.alignU64 = true → skb.tail % 8 = 0)
    (h : Room skb ((pad H).length + 12)) :
    nlaPutU64_64bit H skb type v H.types.attrPad =
      .ok (skb.push (pad H ++ Nla.attr H.bigEndian type (Nla.word H.bigEndian 8 v.toNat))) := by
  unfold nlaPutU64_64bit
  rw [length_pad] at h
  cases hal : H.alignU64 with
  | true =>
    have hsize : ¬ skb.size < skb.tail + (nlaTotalSize 8 + nlaTotalSize 0) := by
      rw [hal, if_pos rfl] at h
      exact Nat.not_lt.mpr h
    rw [if_pos ⟨rfl, ha hal⟩, if_neg hsize, Skb.push_push, pad, if_pos hal]
  | false =>
    rw [if_neg (not_and_of_not_left _ Bool.false_ne_true), nlaPut_eq, pad, if_neg (by rw [hal]; decide)]
    · rfl
    · rw [Nla.length_word]
      exact h.mono (Nat.le_add_left 12 _)

theorem nlaNestStart_eq {type : Nat} (h : Room skb 4) :
    nlaNestStart H skb type = (some skb.data.length, skb.push (nest H type [])) := by
  rw [nlaNestStart, nlaPut_eq h]
  rfl

/-- The length of a nest is written over the one of its empty start. -/
theorem nlaNestEnd_eq {type : Nat} {payload : List UInt8} (h : payload.length % 4 = 0) :
    nlaNestEnd H (skb.push (nest H type [] ++ payload)) (some skb.data.length) =
      .ok (skb.push (nest H type payload)) := by
  have hlen : (skb.push (nest H type [] ++ payload)).data.length - skb.data.length = 4 + payload.length := by
    rw [Skb.push_data, List.length_append, List.length_append, length_nest _ rfl]
    exact Nat.add_sub_cancel_left ..
  have hrest : (skb.push (nest H type [] ++ payload)).data.drop (skb.data.length + 2) =
      Nla.word H.bigEndian 2 (nestType H type) ++ payload := by
    rw [Skb.push_data, ← List.drop_drop, List.drop_left, nest, Nla.attr, List.append_assoc,
      List.drop_left' (Nla.length_word ..)]
    show Nla.word H.bigEndian 2 (nestType H type) ++ [] ++ payload = _
    rw [List.append_nil]
  rw [nlaNestEnd, hlen, hrest, Skb.push_data, List.take_left]
  simp only [Skb.push, nest, Nla.attr, Nla.align_of_mod h, Nat.sub_self, List.replicate_zero, List.append_nil]

/-! ## Parts -/

variable (H) in
/-- `f` puts these bytes where there is room for them and, if it matters, the
buffer ends `a` bytes after a multiple of 8. -/
def Puts (a : Nat) (f : Skb → Except Err Skb) (bs : List UInt8) : Prop :=
  ∀ skb : Skb, (H.alignU64 = true → skb.tail % 8 = a) → Room skb bs.length → f skb = .ok (skb.push bs)

namespace Puts

variable {a b : Nat} {f g : Skb → Except Err Skb} {bs cs : List UInt8}

theorem s32 (type : Nat) (v : Int32) : Puts H a (fun skb => nlaPutS32 H skb type v) (s32 H type v) :=
  fun _ _ hr => nlaPutS32_eq (hr.mono (Nat.le_of_eq (length_s32 ..).symm))

/-- One after the other. -/
theorem seq (hf : Puts H a f bs) (hb : H.alignU64 = true → (a + bs.length) % 8 = b) (hg : Puts H b g cs) :
    Puts H a (fun skb => f skb >>= g) (bs ++ cs) := by
  intro skb ha hr
  rw [List.length_append] at hr
  have haligned : H.alignU64 = true → (skb.push bs).tail % 8 = b := fun hal => by
    rw [Skb.tail_push, ← hb hal, ← ha hal, Nat.mod_add_mod]
  show (f skb >>= g) = _
  rw [hf skb ha (hr.mono (Nat.le_add_right ..)), ← Skb.push_push]
  exact hg _ haligned hr.push

/-- Between the start and the end of a nest. -/
theorem nest (type : Nat) (hf : Puts H b f bs) (hb : H.alignU64 = true → (a + 4) % 8 = b) (h : bs.length % 4 = 0) :
    Puts H a (fun skb => f (nlaNestStart H skb type).2 >>= fun skb' => nlaNestEnd H skb' (nlaNestStart H skb type).1)
      (nest H type bs) := by
  intro skb ha hr
  have hstart : (Netlink.nest H type []).length = 4 := length_nest type rfl
  rw [length_nest _ h] at hr
  have haligned : H.alignU64 = true → (skb.push (Netlink.nest H type [])).tail % 8 = b := fun hal => by
    rw [Skb.tail_push, hstart, ← hb hal, ← ha hal, Nat.mod_add_mod]
  show (f (nlaNestStart H skb type).2 >>= _) = _
  rw [nlaNestStart_eq (hr.mono (Nat.le_add_right ..)), hf _ haligned (Room.push (by rwa [hstart])), Skb.push_push]
  exact nlaNestEnd_eq h

/-- A loop, each pass of which keeps the alignment. -/
theorem foldlM {α : Type} {f : α → Skb → Except Err Skb} {g : α → List UInt8} {xs : List α}
    (hf : ∀ x ∈ xs, Puts H a (f x) (g x)) (hg : ∀ x ∈ xs, H.alignU64 = true → (a + (g x).length) % 8 = a) :
    Puts H a (fun skb => xs.foldlM (fun skb x => f x skb) skb) (xs.flatMap g) := by
  induction xs with
  | nil => exact fun skb _ _ => congrArg Except.ok Skb.push_nil.symm
  | cons x xs ih =>
    simp only [List.foldlM_cons, List.flatMap_cons]
    have hrest := ih (fun y hy => hf y (List.mem_cons_of_mem _ hy)) fun y hy => hg y (List.mem_cons_of_mem _ hy)
    exact (hf x (List.mem_cons_self ..)).seq (hg x (List.mem_cons_self ..)) hrest

end Puts

theorem fillCpuList_eq {cpus : List Nat} (h : Room skb (8 * cpus.length)) :
    fillCpuList H cpus skb = skb.push (cpuIds H cpus) := by
  induction cpus generalizing skb with
  | nil => exact Skb.push_nil.symm
  | cons c cpus ih =>
    rw [List.length_cons] at h
    have hrest : Room (skb.push (s32 H H.types.queueInfoCpuId (.ofNat c))) (8 * cpus.length) :=
      Room.push (h.mono (by rw [length_s32]; omega))
    rw [fillCpuList, List.foldl_cons, nlaPutS32_eq (h.mono (by omega))]
    show fillCpuList H cpus _ = _
    rw [ih hrest, Skb.push_push]
    rfl

theorem fillQueueInfoItem_puts (q : Queue) : Puts H 4 (fillQueueInfoItem H q) (item H q) := by
  have hcpus : ∀ a, Puts H a (fun skb => .ok (fillCpuList H (forEachCpu H q) skb)) (cpuIds H (forEachCpu H q)) :=
    fun a skb _ hr => congrArg Except.ok (fillCpuList_eq (by rwa [length_cpuIds] at hr))
  have hu64 : Puts H 0 (fun skb => nlaPutU64_64bit H skb H.types.queueInfoKringMapSize q.mapSize H.types.attrPad)
      (pad H ++ Nla.attr H.bigEndian H.types.queueInfoKringMapSize (Nla.word H.bigEndian 8 q.mapSize.toNat)) :=
    fun skb ha hr => nlaPutU64_64bit_eq ha (by
      rw [List.length_append, Nla.length_attr, Nla.length_word] at hr
      exact hr)
  have hlist := fun a => (hcpus _).nest H.types.queueInfoCpuList (a := a) (fun _ => rfl)
    (by rw [length_cpuIds]; omega)
  have hall := (Puts.s32 (H := H) (a := 0) H.types.queueInfoKringId q.minor).seq (fun _ => by rw [length_s32])
    (hu64.seq (fun _ => rfl) ((Puts.s32 H.types.queueInfoBPid q.backendPid).seq (fun _ => rfl)
      ((Puts.s32 H.types.queueInfoStatus q.status).seq (fun _ => rfl) (hlist _))))
  rw [List.append_assoc] at hall
  intro skb ha hr
  refine Eq.trans ?_ ((hall.nest H.types.queueInfoItem (fun _ => rfl) (itemPayload_mod q)) skb ha hr)
  simp only [fillQueueInfoItem, bind_assoc]
  rfl

theorem fillUbbdStatusDetail_puts (d : Device) : Puts H 0 (fillUbbdStatusDetail H d) (detail H d) := by
  have hu8 : ∀ a, Puts H a (fun skb => nlaPutU8 H skb H.types.statusStatus d.status)
      (Nla.attr H.bigEndian H.types.statusStatus (Nla.word H.bigEndian 1 d.status.toNat)) := fun a skb _ hr =>
    nlaPutU8_eq (by
      rw [Nla.length_attr, Nla.length_word] at hr
      exact hr)
  have hitems : Puts H 4 (fun skb => d.queues.foldlM (fun skb q => fillQueueInfoItem H q skb) skb)
      (d.queues.flatMap (item H)) := Puts.foldlM (fun q _ => fillQueueInfoItem_puts q) fun q _ hal => by
    rw [length_item, itemSize, if_pos hal]
    omega
  have hmod : (d.queues.flatMap (item H)).length % 4 = 0 := by
    rw [length_items]
    exact itemsSize_mod d.queues
  have hnest : Puts H 0 (fillUbbdStatusQueueInfo H d) (nest H H.types.statusQueueInfo (d.queues.flatMap (item H))) :=
    hitems.nest H.types.statusQueueInfo (fun _ => rfl) hmod
  exact (Puts.s32 H.types.statusDevId d.devId).seq (fun _ => by rw [length_s32])
    ((hu8 0).seq (fun _ => by rw [Nla.length_attr, Nla.length_word]; rfl) hnest)

theorem fillUbbdList_puts (devs : List Device) (a : Nat) :
    Puts H a (fillUbbdList H devs) (nest H H.types.attrDevList (devIds H devs)) := by
  have hids : ∀ b < 8, Puts H b (fun skb => devs.foldlM (fun skb d => nlaPutS32 H skb H.types.listDevId d.devId) skb)
      (devIds H devs) := fun b hb =>
    Puts.foldlM (fun d _ => Puts.s32 H.types.listDevId d.devId) fun d _ _ => by rw [length_s32]; omega
  exact (hids _ (Nat.mod_lt _ (by decide))).nest H.types.attrDevList (fun _ => rfl) (by rw [length_devIds]; omega)

end Ubbd.Netlink

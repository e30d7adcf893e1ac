import UbbdKernel.Netlink.Fill

/-!
# The room for a reply

The sizes that the replies ask for cover what they put: for each queue there is
a header to spare, and `nla_attr_size` inside `nla_attr_size` counts the header
of a nest. `replies_fit`: no attribute is refused for lack of room, and each reply
has the bytes of all its attributes (`devInfo`, `devIds`).
-/

namespace Ubbd.Netlink

open Skb (Room)

variable {H : Host} {fails : Point → Bool}

/-! ## Sizes -/

theorem length_forEachCpu_le (q : Queue) : (forEachCpu H q).length ≤ cpumaskWeight H q := by
  rw [forEachCpu, ← List.countP_eq_length_filter]
  exact (List.range_sublist.mpr H.nrCpuIds_le).countP_le

theorem itemSize_le (q : Queue) : itemSize H q + 4 ≤ getQueueMsgSize H q := by
  have hcpus := length_forEachCpu_le (H := H) q
  simp only [getQueueMsgSize, nlaAttrSize, itemSize]
  split <;> omega

theorem itemsSize_le (qs : List Queue) (msgSize : Nat) :
    msgSize + itemsSize H qs ≤ qs.foldl (fun msgSize q => msgSize + getQueueMsgSize H q) msgSize := by
  induction qs generalizing msgSize with
  | nil => exact Nat.le_refl _
  | cons q qs ih =>
    have hitem := itemSize_le (H := H) q
    have hrest := ih (msgSize + getQueueMsgSize H q)
    rw [itemsSize_cons, List.foldl_cons]
    omega

/-- The size covers a nest with the attributes of the device. -/
theorem detail_le (d : Device) : 4 + (detail H d).length ≤ getStatusMsgSize H d := by
  have hitems := itemsSize_le (H := H) d.queues (nlaAttrSize 4 + nlaAttrSize (1 + nlaAttrSize 4))
  refine Nat.le_trans ?_ (Nla.le_align _)
  rw [length_detail]
  simp only [nlaAttrSize] at *
  omega

theorem getQueueMsgSize_lt (q : Queue) : getQueueMsgSize H q < 2 ^ 17 := by
  have hweight : cpumaskWeight H q ≤ H.nrCpumaskBits := by
    rw [cpumaskWeight, List.countP_eq_length_filter]
    exact Nat.le_trans (List.length_filter_le ..) (Nat.le_of_eq List.length_range)
  have hbits := H.nrCpumaskBits_le
  simp only [getQueueMsgSize, nlaAttrSize]
  omega

/-- The queues of a device are one array, so its size is far from where a `size_t` wraps. -/
theorem getStatusMsgSize_lt {d : Device} (h : d.queues.length < 2 ^ 31) : getStatusMsgSize H d < 2 ^ 49 := by
  have hsum : ∀ (qs : List Queue) (msgSize : Nat),
      qs.foldl (fun msgSize q => msgSize + getQueueMsgSize H q) msgSize ≤ msgSize + qs.length * 2 ^ 17 := by
    intro qs
    induction qs with
    | nil => exact fun _ => Nat.le_refl _
    | cons q qs ih =>
      intro msgSize
      have hq := getQueueMsgSize_lt (H := H) q
      have hrest := ih (msgSize + getQueueMsgSize H q)
      rw [List.foldl_cons, List.length_cons]
      omega
  have hall := hsum d.queues (nlaAttrSize 4 + nlaAttrSize (1 + nlaAttrSize 4))
  simp only [getStatusMsgSize, nlaTotalSize, Nla.align, nlaAttrSize] at *
  omega

/-! ## Outcomes -/

/-- A call fails. -/
def Fault (fails : Point → Bool) : Prop := ∃ p, fails p = true

/-- What a function returns: something with the property `Q`, or an error for
the reason `why`, and never for lack of room. -/
def Answer (why : Prop) {α : Type} (Q : α → Prop) : Except Err α → Prop
  | .ok a => Q a
  | .error (.errno _) => why
  | .error .reply => why
  | .error .room => False
  | .error .oops => False

/-- All attributes were put, and they take no more than was asked for. -/
def Sent (skb : Skb) : Prop := skb.refused = 0 ∧ skb.data.length ≤ skb.asked

namespace Answer

variable {α β : Type} {why : Prop} {Q : α → Prop} {R : β → Prop} {x : Except Err α}

theorem bind {f : α → Except Err β} (hx : Answer why Q x) (hf : ∀ a, Q a → Answer why R (f a)) :
    Answer why R (x >>= f) := by
  cases x with
  | ok a => exact hf a hx
  | error e => cases e <;> exact hx

theorem mono {why' : Prop} {Q' : α → Prop} (h : Answer why Q x) (hw : why → why') (hq : ∀ a, Q a → Q' a) :
    Answer why' Q' x := by
  cases x with
  | ok a => exact hq a h
  | error e =>
    cases e with
    | room => exact h
    | oops => exact h
    | errno e => exact hw h
    | reply => exact hw h

/-- Without a reason for an error there is a result. -/
theorem exists_ok (h : Answer why Q x) (hw : ¬ why) : ∃ a, x = .ok a ∧ Q a := by
  cases x with
  | ok a => exact ⟨a, rfl, h⟩
  | error e =>
    cases e with
    | room => exact h.elim
    | oops => exact h.elim
    | errno e => exact absurd h hw
    | reply => exact absurd h hw

theorem guard (p : Point) {e : Err} (he : e = .reply ∨ ∃ n, e = .errno n) :
    Answer (Fault fails) (fun _ => True) (guard (!fails p) e) := by
  unfold Netlink.guard
  split
  · trivial
  · rename_i hp
    have hfault : Fault fails := ⟨p, by simpa using hp⟩
    obtain rfl | ⟨n, rfl⟩ := he <;> exact hfault

/-- What `genlmsg_new` returns has room for all that it was asked for. -/
theorem genlmsgNew (payload : Nat) (n : Errno) :
    Answer (Fault fails)
      (fun skb => skb.tail = 20 ∧ skb.data = [] ∧ skb.refused = 0 ∧ skb.asked = payload ∧ Room skb payload)
      (nonNull (.errno n) (genlmsgNew H fails payload)) := by
  unfold Netlink.genlmsgNew
  split
  · rename_i hp
    exact ⟨.genlmsgNew, hp⟩
  · refine ⟨rfl, rfl, rfl, rfl, ?_⟩
    have hinner := Nla.le_align (4 + payload)
    have houter := Nla.le_align (16 + Nla.align (4 + payload))
    show 20 + payload ≤ _
    simp only
    omega

end Answer

/-! ## The replies -/

/-- What is common to the three commands: they ask for a buffer, fill it, and
add the return value. -/
theorem reply_answer {f : Skb → Except Err Skb} {bs : List UInt8} {msgSize : Nat} (e : Errno)
    (hf : ∀ skb, (H.alignU64 = true → skb.tail % 8 = 4) → Room skb bs.length →
      Answer (Fault fails) (fun skb' => skb' = skb.push bs) (f skb))
    (hsize : bs.length + 8 ≤ msgSize) :
    Answer (Fault fails) (fun skb => skb.data = bs ++ retval H ∧ Sent skb) (do
      guard (!fails .beforeNew) (.errno e)
      let skb ← nonNull (.errno e) (genlmsgNew H fails msgSize)
      guard (!fails .beforePut) (.errno e)
      let skb ← nonNull (.errno e) (genlmsgPutReply skb)
      let skb ← f skb
      let skb ← nlaPutS32 H skb H.types.attrRetval 0
      guard (!fails .beforeEnd) (.errno .emsgsize)
      guard (!fails .genlmsgReply) .reply
      return skb) := by
  refine (Answer.guard .beforeNew (.inr ⟨e, rfl⟩)).bind fun _ _ => ?_
  refine (Answer.genlmsgNew msgSize e).bind fun skb hskb => ?_
  obtain ⟨htail, hdata, hrefused, hasked, hroom⟩ := hskb
  refine (Answer.guard .beforePut (.inr ⟨e, rfl⟩)).bind fun _ _ => ?_
  have hput : genlmsgPutReply skb = some skb := if_neg (by
    have hsize : skb.tail + msgSize ≤ skb.size := hroom
    omega)
  have haligned : H.alignU64 = true → skb.tail % 8 = 4 := fun _ => by rw [htail]
  rw [hput]
  refine (hf skb haligned (hroom.mono (by omega))).bind fun skb' hskb' => ?_
  subst hskb'
  rw [nlaPutS32_eq (Room.push (hroom.mono hsize)), Skb.push_push]
  refine (Answer.guard .beforeEnd (.inr ⟨_, rfl⟩)).bind fun _ _ => ?_
  refine (Answer.guard .genlmsgReply (.inl rfl)).bind fun _ _ => ⟨?_, hrefused, ?_⟩
  · rw [Skb.push_data, hdata]
    rfl
  · show (skb.push _).data.length ≤ skb.asked
    rw [Skb.push_data, hdata, hasked, List.nil_append, List.length_append, length_s32]
    exact hsize

/-- The device, in its nest. -/
def devInfo (H : Host) (d : Device) : List UInt8 := nest H H.types.attrDevInfo (detail H d)

theorem length_devInfo (d : Device) : (devInfo H d).length = 4 + (detail H d).length := by
  have hmod := itemsSize_mod (H := H) d.queues
  rw [devInfo, length_nest _ (by rw [length_detail]; omega)]

/-- Both commands that tell of a device look at the start of its nest. -/
def putDevInfo (H : Host) (d : Device) (skb : Skb) : Except Err Skb := do
  let devNest ← nonNull .room (nlaNestStart H skb H.types.attrDevInfo).1
  let skb ← fillUbbdStatusDetail H d (nlaNestStart H skb H.types.attrDevInfo).2
  nlaNestEnd H skb (some devNest)

theorem putDevInfo_puts (d : Device) : Puts H 4 (putDevInfo H d) (devInfo H d) := by
  have hmod := itemsSize_mod (H := H) d.queues
  have hnest := (fillUbbdStatusDetail_puts (H := H) d).nest H.types.attrDevInfo (a := 4) (fun _ => rfl)
    (by rw [length_detail]; omega)
  intro skb ha hr
  have hput := hnest skb ha hr
  have hfour : Room skb 4 := hr.mono (by rw [length_devInfo]; omega)
  beta_reduce at hput
  rw [nlaNestStart_eq hfour] at hput
  rw [putDevInfo, nlaNestStart_eq hfour]
  exact hput

theorem Puts.answer {a : Nat} {f : Skb → Except Err Skb} {bs : List UInt8} (h : Puts H a f bs) {skb : Skb}
    (ha : H.alignU64 = true → skb.tail % 8 = a) (hr : Room skb bs.length) :
    Answer (Fault fails) (fun skb' => skb' = skb.push bs) (f skb) := by
  rw [h skb ha hr]
  rfl

theorem ubbdNlReplyAddDevDone_answer (d : Device) :
    Answer (Fault fails) (fun skb => skb.data = devInfo H d ++ retval H ∧ Sent skb)
      (ubbdNlReplyAddDevDone H fails d) := by
  have hsize : (devInfo H d).length + 8 ≤ getStatusMsgSize H d + 12 + 12 := by
    have hdetail := detail_le (H := H) d
    rw [length_devInfo]
    omega
  have hreply : Answer (Fault fails) _ _ := reply_answer .emsgsize (fun _ => (putDevInfo_puts d).answer) hsize
  simp only [putDevInfo, bind_assoc] at hreply
  exact hreply

theorem fillUbbdStatus_answer {d : Device} {skb : Skb} (ha : H.alignU64 = true → skb.tail % 8 = 4)
    (hr : Room skb (devInfo H d).length) :
    Answer (Fault fails) (fun skb' => skb' = skb.push (devInfo H d)) (fillUbbdStatus H fails d skb) :=
  (Answer.guard .inFill (.inr ⟨.emsgsize, rfl⟩)).bind fun _ _ => (putDevInfo_puts d).answer ha hr

theorem handleCmdStatus_answer {devs : List Device} {devId : Int32} {d : Device}
    (hd : findUbbdDev devs devId = some d) :
    Answer (Fault fails) (fun skb => skb.data = devInfo H d ++ retval H ∧ Sent skb)
      (handleCmdStatus H fails devs (some devId)) := by
  have hsize : (devInfo H d).length + 8 ≤ 12 + getStatusMsgSize H d + 8 := by
    have hdetail := detail_le (H := H) d
    rw [length_devInfo]
    omega
  have hreply : Answer (Fault fails) _ _ := reply_answer .enomem (fun _ => fillUbbdStatus_answer) hsize
  show Answer (Fault fails) _ (nonNull (.errno .enoent) (findUbbdDev devs devId) >>= _)
  rw [hd]
  exact hreply

theorem handleCmdList_answer (devs : List Device) :
    Answer (Fault fails) (fun skb => skb.data = nest H H.types.attrDevList (devIds H devs) ++ retval H ∧ Sent skb)
      (handleCmdList H fails devs) := by
  have hids : ∀ msgSize, devs.foldl (fun msgSize _ => msgSize + nlaAttrSize 4) msgSize = msgSize + 8 * devs.length := by
    induction devs with
    | nil => exact fun _ => rfl
    | cons d devs ih =>
      intro msgSize
      rw [List.foldl_cons, ih, List.length_cons, nlaAttrSize]
      omega
  have hsize : (nest H H.types.attrDevList (devIds H devs)).length + 8 ≤
      devs.foldl (fun msgSize _ => msgSize + nlaAttrSize 4) 24 := by
    rw [hids, length_nest _ (by rw [length_devIds]; omega), length_devIds]
    omega
  exact reply_answer .enomem (fun _ => (fillUbbdList_puts devs 4).answer) hsize

/-- For any device and any list of devices, and whichever calls fail, each of
the three commands sends a reply that has every attribute, those of all CPUs
of all queues among them, in which nothing was refused and which is not longer
than was asked for, or returns an error for another reason. -/
theorem replies_fit (H : Host) (fails : Point → Bool) :
    (∀ d, Answer (Fault fails) (fun skb => skb.data = devInfo H d ++ retval H ∧ Sent skb)
        (ubbdNlReplyAddDevDone H fails d)) ∧
      (∀ devs devId, Answer (devId.bind (findUbbdDev devs) = none ∨ Fault fails)
        (fun skb => (∃ d, devId.bind (findUbbdDev devs) = some d ∧ skb.data = devInfo H d ++ retval H) ∧ Sent skb)
        (handleCmdStatus H fails devs devId)) ∧
      ∀ devs, Answer (Fault fails)
        (fun skb => skb.data = nest H H.types.attrDevList (devIds H devs) ++ retval H ∧ Sent skb)
        (handleCmdList H fails devs) := by
  refine ⟨fun d => ubbdNlReplyAddDevDone_answer d, fun devs devId => ?_, fun devs => handleCmdList_answer devs⟩
  cases devId with
  | none => exact .inl rfl
  | some devId =>
    cases hd : findUbbdDev devs devId with
    | some d => exact (handleCmdStatus_answer hd).mono .inr fun _ h => ⟨⟨d, hd, h.1⟩, h.2⟩
    | none =>
      show Answer _ _ (nonNull (.errno .enoent) (findUbbdDev devs devId) >>= _)
      rw [hd]
      exact .inl hd

end Ubbd.Netlink

import Mathlib.Tactic.Abel
import UbbdKernel.Device.Add

/-!
# Whether adding a device is all or nothing

The specification of each function says what it holds when it returns
(`Ledger.Holds`): of a queue, of the array and of a device the pointers say
what is to be given back, also when a queue was created in part or not at all.
A failing call leaves nothing behind, unless it is the commit of the limits
(`ubbdDevAddDev_error`): the device is then put, but its disk is not freed.

`allOrNothing_iff`: for every single point of failure but this one, the call
is all or nothing.
-/

namespace Ubbd.Add

open Ledger (Holds opt)

/-! ## What a queue holds -/

/-- A registered kring device and its minor. -/
def kringRes : Option (Nat × Nat) → Multiset (Kind × Nat)
  | none => 0
  | some (idev, minor) => (.kring, idev) ::ₘ {(.minor, minor)}

/-- The allocations that the pointers of a queue stand for. -/
def Queue.res (q : Queue) : Multiset (Kind × Nat) :=
  opt .name q.name + (kringRes q.kringDev + (opt .superblock q.sbAddr + opt .bitmap q.dataBitmap))

/-- And those of a list of queues. -/
def queuesRes (queues : List Queue) : Multiset (Kind × Nat) := (queues.map Queue.res).sum

theorem res_zeroed : Queue.zeroed.res = 0 := rfl

theorem queuesRes_cons (q : Queue) (queues : List Queue) : queuesRes (q :: queues) = q.res + queuesRes queues := by
  rw [queuesRes, List.map_cons, List.sum_cons]
  rfl

theorem queuesRes_append (queues queues' : List Queue) :
    queuesRes (queues ++ queues') = queuesRes queues + queuesRes queues' := by
  rw [queuesRes, List.map_append, List.sum_append]
  rfl

theorem queuesRes_zeroed (n : Nat) : queuesRes (List.replicate n .zeroed) = 0 := by
  induction n with
  | zero => rfl
  | succ n ih => rw [List.replicate_succ, queuesRes_cons, ih, res_zeroed, zero_add]

variable {fails : Point → Bool} {l₀ l : Ledger Kind} {rs : Multiset (Kind × Nat)} {q : Queue} {i : Nat}

theorem ubbdKringUnregisterDevice_holds (h : Holds l₀ l (kringRes q.kringDev + rs)) :
    Holds l₀ (ubbdKringUnregisterDevice q l) rs := by
  unfold ubbdKringUnregisterDevice
  cases hdev : q.kringDev with
  | none =>
    rw [hdev] at h
    exact h.congr (zero_add rs)
  | some dev =>
    rw [hdev] at h
    have hcons : kringRes (some dev) + rs = (.kring, dev.1) ::ₘ (.minor, dev.2) ::ₘ rs := by
      rw [kringRes, Multiset.cons_add, Multiset.singleton_add]
    exact (h.congr hcons).release.release

theorem ubbdQueueDestroy_holds (h : Holds l₀ l (q.res + rs)) : Holds l₀ (ubbdQueueDestroy l q) rs := by
  rw [Queue.res, add_assoc, add_assoc, add_assoc] at h
  exact (ubbdKringUnregisterDevice_holds h.releaseOpt).releaseOpt.releaseOpt

theorem ubbdDevDestroyQueues_holds {queuesAddr : Nat} {queues : List Queue}
    (h : Holds l₀ l (queuesRes queues + (.queues, queuesAddr) ::ₘ rs)) :
    Holds l₀ (ubbdDevDestroyQueues queuesAddr queues l) rs := by
  refine Holds.release ?_
  induction queues generalizing l with
  | nil => exact h.congr (zero_add _)
  | cons q queues ih =>
    rw [queuesRes_cons, add_assoc] at h
    exact ih (ubbdQueueDestroy_holds h)

theorem ubbdKringRegisterDevice_holds (hq : q.kringDev = none) (h : Holds l₀ l (q.res + rs)) :
    Holds l₀ (ubbdKringRegisterDevice fails i q l).2.2 ((ubbdKringRegisterDevice fails i q l).2.1.res + rs) := by
  have hnone : { q with kringDev := none } = q := by rw [← hq]
  have hsome : ∀ idev minor, (.minor, minor) ::ₘ (.kring, idev) ::ₘ (q.res + rs) =
      { q with kringDev := some (idev, minor) }.res + rs := fun idev minor => by
    simp only [Queue.res, kringRes, hq, ← Multiset.singleton_add]
    abel
  unfold ubbdKringRegisterDevice
  simp only [hnone]
  split
  · exact h
  split
  · exact h
  have h₁ := h.alloc .kring
  split
  · exact h₁.release
  have h₂ := h₁.alloc .minor
  split
  · exact h₂.release.release
  split
  · exact h₂.release.release
  · exact h₂.congr (hsome _ _)

theorem ubbdQueueKringInit_holds (hname : q.name = none) (hq : q.kringDev = none) (h : Holds l₀ l (q.res + rs)) :
    Holds l₀ (ubbdQueueKringInit fails i q l).2.2 ((ubbdQueueKringInit fails i q l).2.1.res + rs) := by
  unfold ubbdQueueKringInit
  split
  · rw [← hname]
    exact h
  · refine ubbdKringRegisterDevice_holds hq ((h.alloc .name).congr ?_)
    simp only [Queue.res, opt, hname, ← Multiset.singleton_add]
    abel

theorem ubbdQueueSbInit_cases (fails : Point → Bool) (i : Nat) (q : Queue) (l : Ledger Kind) :
    ubbdQueueSbInit fails i q l = (false, q, l) ∨
      ubbdQueueSbInit fails i q l = (true, { q with sbAddr := some l.next }, l.alloc .superblock) := by
  unfold ubbdQueueSbInit
  split
  · exact .inl rfl
  split
  · exact .inl rfl
  · exact .inr rfl

/-- Whether a queue is created or not, its pointers say what is to be given back. -/
theorem ubbdQueueCreate_holds (fails : Point → Bool) (i dataPages : Nat) (h : Holds l₀ l rs) :
    Holds l₀ (ubbdQueueCreate fails i .zeroed dataPages l).2.2
      ((ubbdQueueCreate fails i .zeroed dataPages l).2.1.res + rs) := by
  have h₀ : Holds l₀ l (Queue.res ⟨dataPages, none, none, none, none⟩ + rs) := h.congr (zero_add rs).symm
  unfold ubbdQueueCreate
  simp only [Queue.zeroed]
  split
  · exact h₀
  split
  · exact h₀
  have h₁ : Holds l₀ (l.alloc .bitmap) (Queue.res ⟨dataPages, some l.next, none, none, none⟩ + rs) := by
    refine (h.alloc .bitmap).congr ?_
    simp only [Queue.res, kringRes, opt, zero_add, Multiset.singleton_add]
  rcases ubbdQueueSbInit_cases fails i ⟨dataPages, some l.next, none, none, none⟩ (l.alloc .bitmap) with heq | heq
  · rw [heq]
    exact h₁
  · rw [heq]
    refine ubbdQueueKringInit_holds rfl rfl ((h₁.alloc .superblock).congr ?_)
    simp only [Queue.res, kringRes, opt, ← Multiset.singleton_add]
    abel

/-- Whether the loop ends early or not, the queues of the array say what is to be given back. -/
theorem createLoop_holds (fails : Point → Bool) (dataPages n : Nat) {queues : List Queue}
    (h : Holds l₀ l (queuesRes queues + rs)) :
    Holds l₀ (createLoop fails dataPages n queues l).2.2
      (queuesRes (createLoop fails dataPages n queues l).2.1 + rs) := by
  induction n generalizing queues l with
  | zero => exact h
  | succ n ih =>
    have hq := ubbdQueueCreate_holds fails queues.length dataPages h
    rw [createLoop]
    generalize ubbdQueueCreate fails queues.length .zeroed dataPages l = r at hq ⊢
    obtain ⟨ok, q, l'⟩ := r
    cases ok with
    | false =>
      refine Holds.congr hq ?_
      show q.res + _ = queuesRes (queues ++ q :: List.replicate n .zeroed) + rs
      rw [queuesRes_append, queuesRes_cons, queuesRes_zeroed]
      abel
    | true =>
      refine ih (Holds.congr hq ?_)
      show q.res + _ = queuesRes (queues ++ [q]) + rs
      rw [queuesRes_append, queuesRes_cons]
      show _ = queuesRes queues + (q.res + 0) + rs
      abel

/-- The array and its queues. -/
def arrayRes : Option (Nat × List Queue) → Multiset (Kind × Nat)
  | none => 0
  | some (queuesAddr, queues) => queuesRes queues + {(.queues, queuesAddr)}

theorem arrayRes_some_add (queuesAddr : Nat) (queues : List Queue) (rs : Multiset (Kind × Nat)) :
    arrayRes (some (queuesAddr, queues)) + rs = queuesRes queues + (.queues, queuesAddr) ::ₘ rs := by
  rw [arrayRes, add_assoc, Multiset.singleton_add]

theorem createLoop_length (fails : Point → Bool) (dataPages n : Nat) (queues : List Queue) (l : Ledger Kind) :
    (createLoop fails dataPages n queues l).2.1.length = queues.length + n := by
  induction n generalizing queues l with
  | zero => rfl
  | succ n ih =>
    rw [createLoop]
    generalize ubbdQueueCreate fails queues.length .zeroed dataPages l = r
    obtain ⟨ok, q, l'⟩ := r
    cases ok with
    | false =>
      show (queues ++ q :: List.replicate n .zeroed).length = _
      rw [List.length_append, List.length_cons, List.length_replicate]
    | true =>
      show (createLoop fails dataPages n (queues ++ [q]) l').2.1.length = _
      rw [ih, List.length_append, List.length_singleton]
      omega

theorem ubbdDevCreateQueues_some (fails : Point → Bool) (v : Variant) (opts : AddOpts) (l : Ledger Kind) :
    ∀ r ∈ (ubbdDevCreateQueues fails v opts l).1, r.2.length = opts.numQueues ∧ v.room opts.numQueues = true := by
  unfold ubbdDevCreateQueues
  split
  · exact fun r hr => nomatch hr
  rename_i hroom
  have hlength := createLoop_length fails opts.dataPages opts.numQueues [] (l.alloc .queues)
  simp only
  generalize createLoop fails opts.dataPages opts.numQueues [] (l.alloc .queues) = r at hlength ⊢
  obtain ⟨ok, queues, l'⟩ := r
  cases ok with
  | false => exact fun r hr => nomatch hr
  | true =>
    rintro r ⟨⟩
    exact ⟨hlength.trans (Nat.zero_add _), (Bool.not_eq_false _).mp (not_or.mp hroom).2⟩

theorem ubbdDevCreateQueues_holds (fails : Point → Bool) (v : Variant) (opts : AddOpts) (h : Holds l₀ l rs) :
    Holds l₀ (ubbdDevCreateQueues fails v opts l).2 (arrayRes (ubbdDevCreateQueues fails v opts l).1 + rs) := by
  unfold ubbdDevCreateQueues
  split
  · exact h.congr (zero_add rs).symm
  have h₀ : Holds l₀ (l.alloc .queues) (queuesRes [] + (.queues, l.next) ::ₘ rs) :=
    (h.alloc .queues).congr (zero_add _).symm
  have hloop := createLoop_holds fails opts.dataPages opts.numQueues h₀
  simp only
  generalize createLoop fails opts.dataPages opts.numQueues [] (l.alloc .queues) = r at hloop ⊢
  obtain ⟨ok, queues, l'⟩ := r
  cases ok with
  | false => exact (ubbdDevDestroyQueues_holds hloop).congr (zero_add rs).symm
  | true => exact Holds.congr hloop (arrayRes_some_add ..).symm

/-! ## What a device holds -/

/-- What `ubbd_dev_destroy` gives back. -/
def Device.res (d : Device) : Multiset (Kind × Nat) :=
  opt .debugfs d.debugfsD + ((.workqueue, d.taskWq) ::ₘ (queuesRes d.queues +
    (.queues, d.queuesAddr) ::ₘ (.id, d.devId) ::ₘ {(.device, d.addr)}))

/-- The disk, which it does not give back. -/
def Device.diskRes (d : Device) : Multiset (Kind × Nat) :=
  opt .disk d.disk + (opt .tagSet d.tagSet + opt .requestQueue d.requestQueue)

theorem ubbdDebugfsAddDev_holds (fails : Point → Bool) (h : Holds l₀ l rs) :
    Holds l₀ (ubbdDebugfsAddDev fails l).2 (opt .debugfs (ubbdDebugfsAddDev fails l).1 + rs) := by
  unfold ubbdDebugfsAddDev
  split
  · exact h.congr (zero_add rs).symm
  · exact (h.alloc .debugfs).congr (Multiset.singleton_add _ rs).symm

/-- `ubbd_dev_create` leaves nothing behind, or returns a device with one reference and without a disk. -/
theorem ubbdDevCreate_cases (fails : Point → Bool) (v : Variant) (opts : AddOpts) (k : Kernel) :
    (∃ l, ubbdDevCreate fails v opts k = (none, { k with ledger := l }) ∧ Holds k.ledger l 0) ∨
      ∃ d l, ubbdDevCreate fails v opts k = (some d, { k with ledger := l, moduleRefs := k.moduleRefs + 1 }) ∧
        Holds k.ledger l d.res ∧ d.kref = 1 ∧ d.requestQueue = none ∧
        d.queues.length = opts.numQueues ∧ v.room opts.numQueues = true := by
  have h₁ := (Holds.refl k.ledger).alloc .device
  have hsome := ubbdDevCreateQueues_some fails v opts ((k.ledger.alloc .device).alloc .id)
  have hqueues := ubbdDevCreateQueues_holds fails v opts (h₁.alloc .id)
  generalize hr : ubbdDevCreate fails v opts k = r
  unfold ubbdDevCreate at hr
  split at hr
  · exact .inl ⟨_, hr.symm, .refl _⟩
  split at hr
  · exact .inl ⟨_, hr.symm, .refl _⟩
  simp only at hr
  split at hr
  · exact .inl ⟨_, hr.symm, h₁.release⟩
  split at hr
  · exact .inl ⟨_, hr.symm, h₁.release⟩
  generalize ubbdDevCreateQueues fails v opts ((k.ledger.alloc .device).alloc .id) = made at hqueues hsome hr
  obtain ⟨_ | ⟨queuesAddr, queues⟩, l⟩ := made
  · exact .inl ⟨_, hr.symm, (Holds.congr hqueues (zero_add _)).release.release⟩
  have hqueues := Holds.congr hqueues (arrayRes_some_add ..)
  simp only at hr
  split at hr
  · exact .inl ⟨_, hr.symm, (ubbdDevDestroyQueues_holds hqueues).release.release⟩
  · exact .inr ⟨_, _, hr.symm, ubbdDebugfsAddDev_holds fails (hqueues.alloc .workqueue), rfl, rfl, hsome _ rfl⟩

/-- Dropping the only reference gives back what `ubbd_dev_create` made, without a disk. -/
theorem ubbdDevPut_created {d : Device} {k : Kernel} (hkref : d.kref = 1) (h : Holds k.ledger l (d.res + rs)) :
    ∃ l', ubbdDevPut d { k with ledger := l, moduleRefs := k.moduleRefs + 1 } = { k with ledger := l' } ∧
      Holds k.ledger l' rs := by
  rw [Device.res, add_assoc, Multiset.cons_add, add_assoc, Multiset.cons_add, Multiset.cons_add,
    Multiset.singleton_add] at h
  have hlast : d.kref - 1 = 0 := by rw [hkref]
  rw [ubbdDevPut, if_pos hlast]
  exact ⟨_, rfl, (ubbdDevDestroyQueues_holds h.releaseOpt.release).release.release⟩

/-- `ubbd_init_disk` leaves nothing behind, or a disk. -/
theorem ubbdInitDisk_cases (fails : Point → Bool) (v : Variant) {d : Device} (hnone : d.requestQueue = none)
    (h : Holds l₀ l rs) :
    (∃ l', ubbdInitDisk fails v d l = (false, d, l') ∧ Holds l₀ l' rs) ∨
      ∃ d' l', ubbdInitDisk fails v d l = (true, d', l') ∧ Holds l₀ l' (d'.diskRes + rs) ∧ d'.diskRes ≠ 0 ∧
        d'.res = d.res ∧ d'.kref = d.kref ∧ d.queues.length ≠ 0 := by
  generalize hr : ubbdInitDisk fails v d l = r
  unfold ubbdInitDisk at hr
  by_cases hv : v.haveAllocDisk = true
  · rw [if_pos hv] at hr
    split at hr
    · exact .inl ⟨_, hr.symm, h⟩
    split at hr
    · exact .inl ⟨_, hr.symm, h⟩
    have h₁ := h.alloc .disk
    simp only at hr
    split at hr
    · exact .inl ⟨_, hr.symm, h₁.release⟩
    split at hr
    · exact .inl ⟨_, hr.symm, h₁.release⟩
    rename_i hset
    have h₂ := h₁.alloc .tagSet
    split at hr
    · exact .inl ⟨_, hr.symm, h₂.release.release⟩
    split at hr
    · exact .inl ⟨_, hr.symm, h₂.release.release⟩
    refine .inr ⟨_, _, hr.symm, (h₂.alloc .requestQueue).congr ?_, ?_, rfl, rfl, (not_or.mp hset).2⟩
    · simp only [Device.diskRes, opt, ← Multiset.singleton_add]
      abel
    · rw [Device.diskRes, opt, Multiset.singleton_add]
      exact Multiset.cons_ne_zero
  · rw [if_neg hv] at hr
    split at hr
    · exact .inl ⟨_, hr.symm, h⟩
    split at hr
    · exact .inl ⟨_, hr.symm, h⟩
    rename_i hset
    have h₁ := h.alloc .tagSet
    simp only at hr
    split at hr
    · exact .inl ⟨_, hr.symm, h₁.release⟩
    split at hr
    · exact .inl ⟨_, hr.symm, h₁.release⟩
    refine .inr ⟨_, _, hr.symm, (h₁.alloc .disk).congr ?_, ?_, rfl, rfl, (not_or.mp hset).2⟩
    · simp only [Device.diskRes, opt, hnone, ← Multiset.singleton_add]
      abel
    · rw [Device.diskRes, opt, Multiset.singleton_add]
      exact Multiset.cons_ne_zero

/-- `ubbd_dev_device_setup` too, but it also fails when it has one. -/
theorem ubbdDevDeviceSetup_cases (fails : Point → Bool) (v : Variant) {d : Device} (hnone : d.requestQueue = none)
    (h : Holds l₀ l rs) :
    (∃ l', ubbdDevDeviceSetup fails v d l = (false, d, l') ∧ Holds l₀ l' rs) ∨
      ∃ d' l', ubbdDevDeviceSetup fails v d l = (!(v.v6_8 && fails .commitUpdate), d', l') ∧
        Holds l₀ l' (d'.diskRes + rs) ∧ d'.diskRes ≠ 0 ∧ d'.res = d.res ∧ d'.kref = d.kref ∧ d.queues.length ≠ 0 := by
  rw [ubbdDevDeviceSetup]
  obtain ⟨l', heq, h'⟩ | ⟨d', l', heq, h'⟩ := ubbdInitDisk_cases fails v hnone h
  · rw [heq]
    exact .inl ⟨_, rfl, h'⟩
  · rw [heq]
    refine .inr ⟨d', l', ?_, h'⟩
    cases v.v6_8 <;> rfl

/-! ## The call -/

/-- What a call that fails leaves behind: nothing, unless it is the commit that failed. -/
theorem ubbdDevAddDev_error {v : Variant} {opts : AddOpts} {k k' : Kernel} {e : Errno}
    (h : ubbdDevAddDev fails v opts k = (.error e, k')) :
    ∃ l rs, k' = { k with ledger := l } ∧ Holds k.ledger l rs ∧
      (rs ≠ 0 → v.v6_8 = true ∧ fails .commitUpdate = true ∧ 0 < opts.numQueues ∧ v.room opts.numQueues = true) := by
  rw [ubbdDevAddDev] at h
  obtain ⟨l, heq, hl⟩ | ⟨d, l, heq, hd, hkref, hnone, hlength, hroom⟩ := ubbdDevCreate_cases fails v opts k
  · rw [heq] at h
    cases h
    exact ⟨l, 0, rfl, hl, fun hne => absurd rfl hne⟩
  rw [heq] at h
  simp only at h
  split at h
  · obtain ⟨l', hput, hl'⟩ := ubbdDevPut_created hkref (hd.congr (add_zero _).symm)
    rw [hput] at h
    cases h
    exact ⟨l', 0, rfl, hl', fun hne => absurd rfl hne⟩
  obtain ⟨l', heq', hl'⟩ | ⟨d', l', heq', hl', hdisk, hres, hkref', hqueues⟩ :=
    ubbdDevDeviceSetup_cases fails v hnone hd
  · obtain ⟨l'', hput, hl''⟩ := ubbdDevPut_created hkref (hl'.congr (add_zero _).symm)
    simp only [heq', hput] at h
    cases h
    exact ⟨l'', 0, rfl, hl'', fun hne => absurd rfl hne⟩
  -- the only path on which the device is put with its disk
  cases hcommit : v.v6_8 && fails .commitUpdate with
  | false =>
    rw [heq', hcommit] at h
    cases h
  | true =>
    obtain ⟨l'', hput, hl''⟩ := ubbdDevPut_created (hkref'.trans hkref) (hl'.congr (by rw [hres, add_comm]))
    simp only [heq', hcommit, Bool.not_true, hput] at h
    cases h
    rw [Bool.and_eq_true] at hcommit
    exact ⟨l'', d'.diskRes, rfl, hl'', fun _ => ⟨hcommit.1, hcommit.2, by omega, hroom⟩⟩

theorem ubbdQueueCreate_succeeds (hok : ∀ p, fails (.queue i p) = false) (q : Queue) (dataPages : Nat)
    (l : Ledger Kind) : (ubbdQueueCreate fails i q dataPages l).1 = true := by
  simp [ubbdQueueCreate, ubbdQueueSbInit, ubbdQueueKringInit, ubbdKringRegisterDevice, hok]

theorem createLoop_succeeds (hok : ∀ i p, fails (.queue i p) = false) (dataPages n : Nat) (queues : List Queue)
    (l : Ledger Kind) : (createLoop fails dataPages n queues l).1 = true := by
  induction n generalizing queues l with
  | zero => rfl
  | succ n ih =>
    have hq := ubbdQueueCreate_succeeds (hok queues.length) .zeroed dataPages l
    rw [createLoop]
    generalize ubbdQueueCreate fails queues.length .zeroed dataPages l = r at hq ⊢
    obtain ⟨ok, q, l'⟩ := r
    cases hq
    exact ih _ _

theorem ubbdDevCreate_succeeds (hok : ∀ p, p ≠ .commitUpdate → fails p = false) {v : Variant} {opts : AddOpts}
    (hroom : v.room opts.numQueues = true) (k : Kernel) : (ubbdDevCreate fails v opts k).1 ≠ none := by
  have hloop := createLoop_succeeds (fun i p => hok (.queue i p) nofun) opts.dataPages opts.numQueues []
    (((k.ledger.alloc .device).alloc .id).alloc .queues)
  have hno : ∀ p, p ≠ .commitUpdate → ¬fails p = true := fun p hp => by simp [hok p hp]
  rw [ubbdDevCreate, if_neg (hno _ (by decide)), if_neg (hno _ (by decide))]
  simp only
  rw [if_neg (hno _ (by decide)), if_neg (hno _ (by decide)), ubbdDevCreateQueues,
    if_neg (not_or.mpr ⟨hno _ (by decide), by rw [hroom]; decide⟩)]
  generalize createLoop fails _ _ _ _ = r at hloop ⊢
  obtain ⟨ok, queues, l⟩ := r
  cases hloop
  simp only
  rw [if_neg (hno _ (by decide))]
  exact Option.some_ne_none _

theorem ubbdInitDisk_succeeds (hok : ∀ p, p ≠ .commitUpdate → fails p = false) (v : Variant) {d : Device}
    (hqueues : d.queues.length ≠ 0) (l : Ledger Kind) : (ubbdInitDisk fails v d l).1 = true := by
  rw [ubbdInitDisk, hok .diskNeedFault nofun, hok .allocDisk nofun, hok .tagSetNeedFault nofun,
    hok .allocTagSet nofun, hok .queueNeedFault nofun, hok .initQueue nofun]
  cases v.haveAllocDisk <;> simp [hqueues]

/-- And when only the commit fails, it does leave something behind. -/
theorem ubbdDevAddDev_commit (hok : ∀ p, p ≠ .commitUpdate → fails p = false) (hcommit : fails .commitUpdate = true)
    {v : Variant} (hv : v.v6_8 = true) {opts : AddOpts} (hpos : 0 < opts.numQueues)
    (hroom : v.room opts.numQueues = true) (k : Kernel) :
    ∃ e k' rs, ubbdDevAddDev fails v opts k = (.error e, k') ∧ Holds k.ledger k'.ledger rs ∧ rs ≠ 0 := by
  rw [ubbdDevAddDev]
  obtain ⟨l, heq, -⟩ | ⟨d, l, heq, hd, hkref, hnone, hlength, -⟩ := ubbdDevCreate_cases fails v opts k
  · exact absurd (congrArg Prod.fst heq) (ubbdDevCreate_succeeds hok hroom k)
  simp only [heq, hok .addNeedFault nofun]
  have hqueues : d.queues.length ≠ 0 := by omega
  obtain ⟨l', heq', -⟩ | ⟨d', l', heq', hl', hdisk, hres, hkref', -⟩ := ubbdInitDisk_cases fails v hnone hd
  · have hinit := ubbdInitDisk_succeeds hok v hqueues l
    rw [heq'] at hinit
    cases hinit
  obtain ⟨l'', hput, hl''⟩ := ubbdDevPut_created (hkref'.trans hkref) (hl'.congr (by rw [hres, add_comm]))
  refine ⟨.einval, { k with ledger := l'' }, d'.diskRes, ?_, hl'', hdisk⟩
  simp [ubbdDevDeviceSetup, heq', hv, hcommit, hput]

/-- The call is all or nothing, unless a kernel since 6.8 refuses the limits of the disk. -/
theorem allOrNothing_iff (v : Variant) (opts : AddOpts) (p : Point) (k : Kernel) :
    AllOrNothing v opts p k ↔
      ¬(v.v6_8 = true ∧ p = .commitUpdate ∧ 0 < opts.numQueues ∧ v.room opts.numQueues = true) := by
  constructor
  · rintro hall ⟨hv, rfl, hpos, hroom⟩
    have hok : ∀ p, p ≠ .commitUpdate → decide (p = Point.commitUpdate) = false := fun p hp => decide_eq_false hp
    obtain ⟨e, k', rs, heq, hl, hne⟩ := ubbdDevAddDev_commit hok (decide_eq_true rfl) hv hpos hroom k
    exact hne (hl.live_eq_iff.mp (hall e k' heq).1)
  · intro hnot e k' heq
    obtain ⟨l, rs, rfl, hl, himp⟩ := ubbdDevAddDev_error heq
    have hrs : rs = 0 := by
      by_contra hne
      obtain ⟨hv, hp, hpos, hroom⟩ := himp hne
      exact hnot ⟨hv, (of_decide_eq_true hp).symm, hpos, hroom⟩
    exact ⟨hl.live_eq_iff.mpr hrs, hl.twice, rfl, rfl, rfl⟩

/-- Such a kernel, with room for 1024 queues. -/
def kernel6_8 : Variant := ⟨false, true, fun n => decide (n ≤ 1024), fun n h => by
  have hle := of_decide_eq_true h
  omega⟩

/-- One queue and one data page: the disk stays. -/
theorem commit_refused : ¬AllOrNothing kernel6_8 ⟨1, 1⟩ .commitUpdate ⟨.empty Kind, 0, 0, []⟩ := by
  intro hall
  have hlive := (hall .einval _ rfl).1
  revert hlive
  decide

end Ubbd.Add

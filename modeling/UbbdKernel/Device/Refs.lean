import Mathlib.Data.List.Nodup
import UbbdKernel.Device.Lifecycle

/-!
# The references to a device

`Lifecycle` has the netlink handlers and the add-disk worker; here they run
beside the others that hold references: opened block devices, mappings of
the rings (`ubbd_vma_open`, `ubbd_vma_close`), opened debugfs files. Opening
a kring file takes no reference to the device, and `ubbd_kring_mmap` finds
the queue through `idev->info`, under `info_lock`, so it can run for as long
as `info` is set: from the registration of the queue's kring, within
`ubbd_dev_create`, to its unregistration, within `ubbd_dev_destroy`.

`Balanced` says that the count is that of the holders, that
`ubbd_dev_destroy` is called once, when the count reaches zero, and that the
device is off the list then and nobody holds it. A run keeps it exactly when
no mapping is made after the last reference was dropped, a creation that fails
does not free a device that is mapped, and each run of the worker ends for one
add_disk command only (`balanced_iff`): a command that finds the work item
pending takes a reference that nothing drops.
-/

namespace Ubbd.Device

/-- How far the object has got. -/
inductive Phase
  | absent
  /-- Within `ubbd_dev_create`. -/
  | building
  | built
  /-- At the error exits of `ubbd_dev_create`, which free the device without
  looking at its references. -/
  | failing
  | discarded
  /-- Within `ubbd_dev_destroy`. -/
  | destroying
  | freed
  deriving DecidableEq

/-- The device and those who hold references to it. -/
structure RefDev where
  dev : Dev
  phase : Phase
  /-- The queues whose `idev->info` is set. -/
  krings : List Nat
  openCount : Nat
  /-- The live mappings of its queues. -/
  vmas : Nat
  /-- The opened debugfs files. -/
  files : Nat
  /-- The runs of the worker that the accepted add_disk commands wait for: of a
  command, the run that the item was queued for, or pending for already. -/
  accepted : List Nat
  /-- The block layer lets the disk be opened. -/
  bdev : Bool
  /-- How often `ubbd_dev_destroy` was called. -/
  destroyed : Nat

def initRefDev : RefDev where
  dev := initDev
  phase := .absent
  krings := []
  openCount := 0
  vmas := 0
  files := 0
  accepted := []
  bdev := false
  destroyed := 0

inductive RefLabel
  /-- A step of a handler, or of a run of the worker. -/
  | cmd (a : Label)
  /-- `find_ubbd_dev` for status, config or queue_op. -/
  | lookup
  /-- `ubbd_queue_create` registers the kring of queue `i`. -/
  | register (i : Nat)
  /-- `ubbd_dev_create` returns the device, or fails. -/
  | created (ok : Bool)
  /-- `add_disk`, of run `i`, makes the disk visible. -/
  | bdevAdd (i : Nat)
  | bdevOpen
  | bdevRelease
  /-- `ubbd_kring_mmap` of queue `i`, with success. -/
  | mmap (i : Nat)
  | vmaOpen
  | vmaClose
  /-- The open of a debugfs file; a `single_open` that fails releases it again. -/
  | debugfsOpen
  | debugfsRelease
  /-- `ubbd_kring_unregister_device` for queue `i`. -/
  | unregister (i : Nat)
  /-- `__ubbd_dev_free`. -/
  | free

/-- `kref_put` calls `ubbd_dev_destroy` if the count has reached zero. -/
def RefDev.release (d d' : RefDev) : RefDev :=
  if 0 < d.dev.kref ∧ d'.dev.kref = 0 then
    { d' with phase := .destroying, destroyed := d'.destroyed + 1 }
  else d'

def RefDev.get (d : RefDev) : RefDev := { d with dev := { d.dev with kref := d.dev.kref + 1 } }

def RefDev.put (d : RefDev) : RefDev :=
  d.release { d with dev := { d.dev with kref := d.dev.kref - 1 } }

/-- What a step of `Lifecycle` depends on besides: `ubbd_dev_add_dev` goes on
once `ubbd_dev_create` has returned, `add_disk` needs a disk, and only an
opened device is busy. -/
def RefDev.allows (d : RefDev) : Label → Bool
  | .create => d.phase = .absent
  | .setup _ _ => d.phase = .built
  | .runAdd _ _ => d.dev.disk
  | .removeDiskBusy => 0 < d.openCount
  | _ => true

/-- What a step of `Lifecycle` to `d'` changes besides. -/
def RefDev.with (d : RefDev) (d' : Dev) : Label → RefDev
  | .create => { d with dev := d', phase := .building }
  | .addDiskQueue i => { d with dev := d', accepted := d.dev.pending.getD i :: d.accepted }
  | .runPut i => { d with dev := d', accepted := d.accepted.filter (· ≠ i) }
  | .runAdd _ ok => { d with dev := d', bdev := ok }
  | .delGendisk => { d with dev := d', bdev := d.bdev && d.dev.handler ≠ .deleting true }
  | _ => { d with dev := d' }

def refStep (d : RefDev) : RefLabel → Option RefDev
  | .cmd a =>
    if d.allows a then (step d.dev a).map fun d' => d.release (d.with d' a) else none
  | .lookup =>
    if d.dev.handler = .idle ∧ d.dev.listed then
      some { d with dev := { d.dev with kref := d.dev.kref + 1, handler := .putting } }
    else none
  | .register i =>
    if d.phase = .building ∧ i ∉ d.krings then some { d with krings := i :: d.krings } else none
  | .created ok =>
    if d.phase = .building then some { d with phase := if ok then .built else .failing } else none
  | .bdevAdd i =>
    if d.dev.runs i = .adding ∧ d.dev.disk then some { d with bdev := true } else none
  | .bdevOpen => if d.bdev then some { d.get with openCount := d.openCount + 1 } else none
  | .bdevRelease =>
    if 0 < d.openCount then some { d with openCount := d.openCount - 1 }.put else none
  | .mmap i => if i ∈ d.krings then some { d.get with vmas := d.vmas + 1 } else none
  | .vmaOpen => if 0 < d.vmas then some { d.get with vmas := d.vmas + 1 } else none
  | .vmaClose => if 0 < d.vmas then some { d with vmas := d.vmas - 1 }.put else none
  | .debugfsOpen =>
    if d.phase = .built ∨ d.phase = .destroying then
      -- `ubbd_dev_get_unless_zero`
      if d.dev.kref = 0 then some d else some { d.get with files := d.files + 1 }
    else none
  | .debugfsRelease => if 0 < d.files then some { d with files := d.files - 1 }.put else none
  | .unregister i =>
    if d.phase = .failing ∨ d.phase = .destroying then some { d with krings := d.krings.erase i } else none
  | .free =>
    if d.krings = [] then
      match d.phase with
      | .failing => some { d with phase := .discarded, dev := { d.dev with handler := .idle } }
      | .destroying => some { d with phase := .freed }
      | _ => none
    else none

def refLts : Lts RefDev RefLabel where
  init d := d = initRefDev
  step := refStep

/-! ## What is to hold -/

/-- The handler is in `ubbd_dev_add_dev`, before the device is listed. -/
@[simp] def Handler.adding : Handler → Bool
  | .created | .setUp | .prepared => true
  | _ => false

/-- The references of the command that runs: its own, and that of the list
from the removal from it to the put. -/
@[simp] def Handler.refs : Handler → Nat
  | .found _ | .queueing | .deleting _ | .putting => 1
  | .removing held => held.toNat
  | .freed held => 1 + held.toNat
  | _ => 0

/-- 1 while the device is owned by `ubbd_dev_list`, or by `ubbd_dev_add_dev`. -/
@[simp] def Dev.owner (d : Dev) : Nat := (d.listed || d.handler.adding).toNat

/-- Those who hold the device, besides its owner. -/
def RefDev.holders (d : RefDev) : Nat :=
  d.openCount + d.vmas + d.files + d.accepted.length + d.dev.handler.refs

/-- The count is that of the holders, and `ubbd_dev_destroy` is called once, when
it reaches zero; from then on it stays zero, the device is off the list and
nobody holds it. A device whose creation failed has no holder either. -/
def Balanced (d : RefDev) : Prop :=
  match d.phase with
  | .building | .built | .failing => d.dev.kref = d.dev.owner + d.holders ∧ 0 < d.dev.kref ∧ d.destroyed = 0
  | .destroying | .freed => d.dev.kref = 0 ∧ d.destroyed = 1 ∧ d.dev.owner = 0 ∧ d.holders = 0
  | .absent | .discarded => d.destroyed = 0 ∧ d.dev.owner = 0 ∧ d.holders = 0

/-- No mapping is made once the last reference is dropped, and no mapping is
live when a creation that failed frees the device. -/
def MapsAlive (d : RefDev) (a : RefLabel) : Prop :=
  (∀ i, a = .mmap i → d.dev.kref ≠ 0) ∧ (a = .free → d.phase = .failing → d.vmas = 0)

/-- A run of the worker ends for one command only. -/
def OneWaits (d : RefDev) (a : RefLabel) : Prop := ∀ i, a = .cmd (.runPut i) → d.accepted.count i = 1

/-- No command finds the work item pending. -/
def NotPending (d : RefDev) (a : RefLabel) : Prop := ∀ i, a = .cmd (.addDiskQueue i) → d.dev.pending = none

/-! ## The steps of `Lifecycle` -/

/-- Whether the device is on the list while the handler is there. -/
@[simp] def Handler.listing : Handler → Option Bool
  | .created | .setUp | .prepared | .freed _ => some false
  | .replying | .found _ | .queueing | .deleting _ | .removing _ => some true
  | .idle | .putting => none

@[simp] def Listing (d : Dev) : Prop := ∀ b ∈ d.handler.listing, d.listed = b

/-- The reference that `ubbd_dev_add_disk` takes for a run, and that the run drops. -/
@[simp] def Label.gets : Label → Nat
  | .addDiskQueue _ => 1
  | _ => 0

@[simp] def Label.puts : Label → Nat
  | .runPut _ => 1
  | _ => 0

/-- What a step does to the list's and the handler's references: a step of a
run leaves them alone. -/
theorem step_refs {d d' : Dev} {a : Label} (hc : Core d) (hl : Listing d)
    (hk : d.owner + d.handler.refs ≤ d.kref) (hr : 0 < a.puts → 0 < d.kref) (hs : step d a = some d') :
    Listing d' ∧ d'.kref + d.owner + d.handler.refs + a.puts = d.kref + d'.owner + d'.handler.refs + a.gets := by
  have listed : ∀ {x b}, d.handler = x → x.listing = some b → d.listed = b := fun hx hb =>
    hl _ (hx ▸ hb)
  cases step_cases hs with
  | runStart _ _ | enter _ _ _ _ | refuse _ _ _ | runAdd _ | outAdded _ | outRefused _ => exact ⟨hl, rfl⟩
  | runPut _ _ =>
    refine ⟨hl, ?_⟩
    have := hr Nat.zero_lt_one
    simp [Dev.setRun]
    omega
  | create hh zero init =>
    have hf := (hc.noCmd init).1
    simp [hh, zero, hf]
  | find hh hf => simp [hh, hf]
  | setup hh | setPrepared hh | list hh | reply hh | replyFailed hh | addDiskTest hh _ | addDiskRefused hh _
  | removeDiskBusy hh | removeDiskStore hh _ | delGendisk hh | removeDevCall hh =>
    have hf := listed hh rfl
    simp [hh, hf]
  | addDiskQueue hh _ _ | addDiskPending hh _ =>
    have hf := listed hh rfl
    simp [Dev.setRun, hh, hf]
  | @removeDevRefused held hh _ | @removeDevSection held hh _ _ =>
    have hf := listed hh rfl
    cases held <;> simp [hh, hf]
  | setupFailed hh =>
    have hf := listed hh rfl
    simp [hh, hf] at hk ⊢
    omega
  | @removeDevPut held hh =>
    have hf := listed hh rfl
    simp [hh, hf] at hk
    cases held <;> simp [hh, hf] <;> simp at hk <;> omega
  | put hh =>
    simp [hh] at hk ⊢
    omega

/-- Which runs there are. -/
theorem step_none {d d' : Dev} {a : Label} (hs : step d a = some d') (i : Nat) :
    d'.runs i ≠ .none ↔ (a = .addDiskQueue i ∧ d.pending = none) ∨ (d.runs i ≠ .none ∧ a ≠ .runPut i) := by
  cases step_cases hs with
  | @addDiskQueue j _ _ hp =>
    rw [Dev.setRun_runs]
    by_cases h : i = j
    · simp [h, hp]
    · simp [h, Ne.symm h]
  | addDiskPending _ hp => simp [hp]
  | @runPut j _ _ =>
    rw [Dev.setRun_runs]
    by_cases h : i = j
    · simp [h]
    · simp [h, Ne.symm h]
  | @enter j hq _ _ _ | @refuse j hq _ _ | @runAdd j _ hq | @outAdded j _ hq | @outRefused j hq =>
    rw [Dev.setRun_runs]
    by_cases h : i = j
    · simp [h, hq]
    · simp [h]
  | create _ _ _ | setup _ | setupFailed _ | setPrepared _ | list _ | reply _ | replyFailed _ | find _ _
  | addDiskTest _ _ | addDiskRefused _ _ | removeDiskBusy _ | removeDiskStore _ _ | delGendisk _
  | removeDevCall _ | removeDevRefused _ _ | removeDevSection _ _ _ | removeDevPut _ | put _ | runStart _ _ => simp

@[simp] def Label.ofRun : Label → Bool
  | .runStart | .runTest _ | .runAdd _ _ | .runOut _ | .runPut _ => true
  | _ => false

/-- The workqueue runs nothing that was not queued. -/
theorem step_noRun {d d' : Dev} {a : Label} (hi : d.toWorker.Ok) (hr : ∀ i, d.runs i = .none)
    (hs : step d a = some d') : a.ofRun = false := by
  cases step_cases hs with
  | @runStart i pending _ => exact absurd ((hr i).symm.trans (hi.pending i pending).1) (by decide)
  | @enter i hq _ _ _ | @refuse i hq _ _ | @runAdd i _ hq | @outAdded i _ hq | @outRefused i hq | @runPut i hq _ =>
    rw [hr i] at hq
    cases hq
  | create _ _ _ | setup _ | setupFailed _ | setPrepared _ | list _ | reply _ | replyFailed _ | find _ _
  | addDiskTest _ _ | addDiskRefused _ _ | addDiskQueue _ _ _ | addDiskPending _ _ | removeDiskBusy _
  | removeDiskStore _ _ | delGendisk _ | removeDevCall _ | removeDevRefused _ _ | removeDevSection _ _ _
  | removeDevPut _ | put _ => rfl

/-- The device leaves the list by the section of `ubbd_dev_remove_dev` only. -/
theorem step_listed {d d' : Dev} {a : Label} (hs : step d a = some d') (h : d.listed = true) :
    d'.listed = true ∨ (a = .removeDevSection ∧ d.intrans = false ∧
      (d.status = .removing ∨ d.status = .prepared) ∧ d'.disk = false ∧ ∃ held, d.handler = .removing held) := by
  cases step_cases hs with
  | @removeDevSection held removing quiet allowed => exact .inr ⟨rfl, quiet, allowed, rfl, held, removing⟩
  | list _ => exact .inl rfl
  | create _ _ _ | setup _ | setupFailed _ | setPrepared _ | reply _ | replyFailed _ | find _ _
  | addDiskTest _ _ | addDiskRefused _ _ | addDiskQueue _ _ _ | addDiskPending _ _ | removeDiskBusy _
  | removeDiskStore _ _ | delGendisk _ | removeDevCall _ | removeDevRefused _ _ | removeDevPut _ | put _
  | runStart _ _ | enter _ _ _ _ | refuse _ _ _ | runAdd _ | outAdded _ | outRefused _ | runPut _ _ => exact .inl h

/-- The disk of a device with a run is that of a listed device. -/
def DiskListed (d : Dev) : Prop := d.disk = true → (∃ i, d.runs i ≠ .none) → d.listed = true

theorem step_diskListed {d d' : Dev} {a : Label} (hc : Core d) (hl : Listing d) (h : DiskListed d)
    (hs : step d a = some d') : DiskListed d' := by
  rintro hd ⟨i, hi⟩
  obtain ⟨_, _, _, hh, _, hr⟩ | ⟨_, _, _, _, _, hd'⟩ | ⟨hdisk, -, -, -⟩ := step_disk hs
  · rw [hr, hc.noRun (hc.early (.inl hh)) i] at hi
    exact absurd rfl hi
  · rw [hd'] at hd
    cases hd
  · have before : d.listed = true := by
      rcases (step_none hs i).mp hi with ⟨rfl, hp⟩ | ⟨hi, -⟩
      · -- a run is queued for a command that found the device on the list
        cases step_cases hs with
        | addDiskQueue queueing _ _ | addDiskPending queueing _ => exact hl true (by rw [queueing]; rfl)
      · exact h (hdisk ▸ hd) ⟨i, hi⟩
    refine (step_listed hs before).resolve_right fun ⟨_, _, _, hd', _⟩ => ?_
    rw [hd'] at hd
    cases hd

/-- The disk may be visible to the block layer: `add_disk` runs or has
succeeded, and `del_gendisk` has not returned. -/
def Visible (d : Dev) : Prop :=
  d.listed = true ∧ ((∃ i, d.runs i = .adding ∨ d.runs i = .added true) ∨ d.status = .running ∨
    d.handler = .deleting true)

theorem step_deleting {d d' : Dev} {a : Label} (hs : step d a = some d') (h : d.handler = .deleting true) :
    d'.handler = .deleting true ∨ a = .delGendisk := by
  cases step_cases hs with
  | delGendisk _ => exact .inr rfl
  | runStart _ _ | enter _ _ _ _ | refuse _ _ _ | runAdd _ | outAdded _ | outRefused _ | runPut _ _ => exact .inl h
  | create hx _ _ | setup hx | setupFailed hx | setPrepared hx | list hx | reply hx | replyFailed hx | find hx _
  | addDiskTest hx _ | addDiskRefused hx _ | addDiskQueue hx _ _ | addDiskPending hx _ | removeDiskBusy hx
  | removeDiskStore hx _ | removeDevCall hx | removeDevRefused hx _ | removeDevSection hx _ _ | removeDevPut hx
  | put hx =>
    rw [h] at hx
    cases hx

theorem step_running {d d' : Dev} {a : Label} (hc : Core d) (hs : step d a = some d')
    (h : d.status = .running) : d'.status = .running ∨ d'.handler = .deleting true := by
  cases step_cases hs with
  | removeDiskStore _ _ => exact .inr (by simp [h])
  | setPrepared hx =>
    rw [hc.early (.inr hx)] at h
    cases h
  | @outAdded i ok _ =>
    cases ok with
    | false => exact .inl h
    | true => exact .inl rfl
  | create _ _ _ | setup _ | setupFailed _ | list _ | reply _ | replyFailed _ | find _ _ | addDiskTest _ _
  | addDiskRefused _ _ | addDiskQueue _ _ _ | addDiskPending _ _ | removeDiskBusy _ | delGendisk _ | removeDevCall _
  | removeDevRefused _ _ | removeDevSection _ _ _ | removeDevPut _ | put _ | runStart _ _ | enter _ _ _ _
  | refuse _ _ _ | runAdd _ | outRefused _ | runPut _ _ => exact .inl h

theorem step_adding {d d' : Dev} {a : Label} {i : Nat} (hs : step d a = some d')
    (h : d.runs i = .adding ∨ d.runs i = .added true) :
    (d'.runs i = .adding ∨ d'.runs i = .added true) ∨ a = .runAdd i false ∨ d'.status = .running := by
  cases step_cases hs with
  | @runAdd j ok adding =>
    rw [Dev.setRun_runs]
    by_cases hij : i = j
    · subst hij
      cases ok with
      | false => exact .inr (.inl rfl)
      | true => exact .inl (.inr (if_pos rfl))
    · exact .inl (by simpa [hij] using h)
  | @outAdded j ok added =>
    rw [Dev.setRun_runs]
    by_cases hij : i = j
    · subst hij
      obtain rfl : ok = true := by
        rw [added] at h
        simpa using h
      exact .inr (.inr rfl)
    · exact .inl (by simpa [hij] using h)
  | @addDiskQueue j _ hq _ | @enter j hq _ _ _ | @refuse j hq _ _ | @outRefused j hq | @runPut j hq _ =>
    -- run `j` is in another place
    have hij : i ≠ j := by
      rintro rfl
      rw [hq] at h
      rcases h with h | h <;> cases h
    rw [Dev.setRun_runs, if_neg hij]
    exact .inl h
  | create _ _ _ | setup _ | setupFailed _ | setPrepared _ | list _ | reply _ | replyFailed _ | find _ _
  | addDiskTest _ _ | addDiskRefused _ _ | addDiskPending _ _ | removeDiskBusy _ | removeDiskStore _ _ | delGendisk _
  | removeDevCall _ | removeDevRefused _ _ | removeDevSection _ _ _ | removeDevPut _ | put _ | runStart _ _ =>
    exact .inl h

theorem step_visible {d d' : Dev} {a : Label} (hc : Core d) (h : Visible d) (hs : step d a = some d')
    (hdel : a = .delGendisk → d.handler ≠ .deleting true) (hadd : ∀ i, a ≠ .runAdd i false) : Visible d' := by
  obtain ⟨hl, h⟩ := h
  refine ⟨(step_listed hs hl).resolve_right fun ⟨_, hin, hst, _, held, hh⟩ => ?_, ?_⟩
  · -- the section of `ubbd_dev_remove_dev` is kept out by INTRANS, or by the status
    rcases h with ⟨i, hi⟩ | hr | hh'
    · have hw : (d.runs i).inWindow = true := by rcases hi with hi | hi <;> rw [hi] <;> rfl
      rw [(hc.window i hw).1] at hin
      cases hin
    · rw [hr] at hst
      rcases hst with e | e <;> cases e
    · rw [hh] at hh'
      cases hh'
  · rcases h with ⟨i, hi⟩ | hr | hh
    · rcases step_adding hs hi with hi | e | hr
      · exact .inl ⟨i, hi⟩
      · exact absurd e (hadd i)
      · exact .inr (.inl hr)
    · exact .inr (step_running hc hs hr)
    · exact .inr (.inr ((step_deleting hs hh).resolve_right fun e => hdel e hh))

/-! ## The invariant -/

/-- The device exists, and its last reference is not dropped. -/
def Phase.alive : Phase → Bool
  | .building | .built | .failing => true
  | _ => false

/-- Until `ubbd_dev_create` returns, or frees the device, nobody holds it but the
mappings of its queues. -/
def Phase.early : Phase → Bool
  | .absent | .building | .failing => true
  | _ => false

/-- What every step keeps whatever the count is. -/
structure Shape (d : RefDev) : Prop where
  core : Core d.dev
  listing : Listing d.dev
  item : d.dev.toWorker.Ok
  accepted : ∀ i, i ∈ d.accepted ↔ d.dev.runs i ≠ .none
  disk : DiskListed d.dev
  bdev : d.bdev = true → Visible d.dev

structure RefInv (d : RefDev) : Prop extends Shape d where
  balanced : Balanced d
  handler : d.phase.early = true → d.dev.handler = if d.phase = .absent then .idle else .created
  quiet : d.phase.early = true → d.dev.listed = false ∧ d.openCount = 0 ∧ d.files = 0
  krings : d.phase = .absent ∨ d.phase = .discarded ∨ d.phase = .freed → d.krings = []

theorem initRefDev_inv : RefInv initRefDev where
  core := initDev_core
  listing := fun b hb => by cases hb
  balanced := ⟨rfl, rfl, rfl⟩
  item := initWorker_ok
  accepted := fun i => by simp [initRefDev, initDev, initWorker]
  disk := fun h => by cases h
  bdev := fun h => by cases h
  handler := fun _ => rfl
  quiet := fun _ => ⟨rfl, rfl, rfl⟩
  krings := fun _ => rfl

theorem balanced_alive {d : RefDev} (h : d.phase.alive = true) :
    Balanced d ↔ d.dev.kref = d.dev.owner + d.holders ∧ 0 < d.dev.kref ∧ d.destroyed = 0 := by
  unfold Balanced
  cases e : d.phase <;> rw [e] at h <;> first | rfl | cases h

/-- A device without owner or holder. -/
theorem balanced_dead {d : RefDev} (hb : Balanced d) (h : d.phase.alive = false) :
    d.dev.owner = 0 ∧ d.holders = 0 := by
  unfold Balanced at hb
  cases e : d.phase <;> rw [e] at h hb
  case absent | discarded => exact hb.2
  case destroying | freed => exact hb.2.2
  all_goals cases h

theorem RefInv.alive {d : RefDev} (h : RefInv d) (hn : 0 < d.dev.owner + d.holders) :
    d.phase.alive = true := by
  by_contra hf
  have := balanced_dead h.balanced (by simpa using hf)
  omega

/-- A device is listed only once it is built. -/
theorem RefInv.built {d : RefDev} (h : RefInv d) (hl : d.dev.listed = true) : d.phase = .built := by
  have howner : d.dev.owner = 1 := by simp [hl]
  have ha := h.alive (by omega)
  have hq := h.quiet
  cases e : d.phase <;> rw [e] at ha hq <;> try rfl
  case building | failing =>
    rw [(hq rfl).1] at hl
    cases hl
  all_goals cases ha

/-- The commands that end with a step. -/
def RefDev.ended (d : RefDev) : Label → Nat
  | .runPut i => d.accepted.count i
  | _ => 0

/-- The steps that change the count alone. -/
theorem Shape.of_kref {d e : RefDev} (h : Shape d) (k : Nat) (hd : e.dev = { d.dev with kref := k })
    (ha : e.accepted = d.accepted) (hb : e.bdev = d.bdev) : Shape e where
  core := hd ▸ h.core.of_handler rfl rfl rfl h.core.early h.core.noCmd
  listing := hd ▸ h.listing
  item := hd ▸ h.item
  accepted := fun i => by rw [ha, hd]; exact h.accepted i
  disk := hd ▸ h.disk
  bdev := fun hv => by rw [hd]; exact h.bdev (hb ▸ hv)

/-- A put: the last one calls `ubbd_dev_destroy`. -/
theorem inv_release {d e : RefDev} (hs : Shape e) (hk : 0 < d.dev.kref) (ha : e.phase.alive = true)
    (hb : e.dev.kref = e.dev.owner + e.holders) (hz : e.destroyed = 0)
    (hh : e.phase.early = true → e.dev.handler = .created)
    (hq : e.phase.early = true → e.dev.listed = false ∧ e.openCount = 0 ∧ e.files = 0) :
    RefInv (d.release e) := by
  unfold RefDev.release
  split
  · rename_i h
    have h0 := h.2
    refine { hs with balanced := ?_, handler := nofun, quiet := nofun, krings := nofun }
    exact ⟨h0, by rw [hz], by show e.dev.owner = 0; omega, by show e.holders = 0; omega⟩
  · rename_i h
    refine { hs with balanced := (balanced_alive ha).mpr ⟨hb, by omega, hz⟩, handler := ?_, quiet := hq, krings := ?_ }
    · intro he
      rw [hh he, if_neg]
      intro e'
      rw [e'] at ha
      cases ha
    · rintro (e' | e' | e') <;> rw [e'] at ha <;> cases ha

/-- A get by a holder of a device that is alive. -/
theorem inv_get {d e : RefDev} (h : RefInv d) (hs : Shape e) (ha : d.phase.alive = true)
    (hp : e.phase = d.phase) (hk : e.dev.kref = d.dev.kref + 1)
    (hb : e.dev.owner + e.holders = d.dev.owner + d.holders + 1) (hz : e.destroyed = d.destroyed)
    (hh : e.phase.early = true → e.dev.handler = d.dev.handler)
    (hq : e.phase.early = true → e.dev.listed = false ∧ e.openCount = 0 ∧ e.files = 0)
    (hkr : e.krings = d.krings) : RefInv e := by
  obtain ⟨hsum, hpos, hdes⟩ := (balanced_alive ha).mp h.balanced
  refine { hs with balanced := ?_, handler := ?_, quiet := hq, krings := ?_ }
  · exact (balanced_alive (hp ▸ ha)).mpr ⟨by omega, by omega, hz.trans hdes⟩
  · intro he
    rw [hh he, hp]
    exact h.handler (hp ▸ he)
  · intro he
    rw [hkr]
    exact h.krings (hp ▸ he)

/-- Nothing but `ubbd_dev_create` starts on a device without owner or holder. -/
theorem step_dead {d : RefDev} (h : Shape d) (ho : d.dev.owner = 0) (hn : d.holders = 0) {a : Label}
    {d' : Dev} (hs : step d.dev a = some d') : a = .create := by
  simp only [RefDev.holders] at hn
  have hrefs : d.dev.handler.refs = 0 := by omega
  have hruns : ∀ i, d.dev.runs i = .none := fun i => by
    by_contra hi
    have := List.length_pos_of_mem ((h.accepted i).mpr hi)
    omega
  have hlisted : d.dev.listed = false := by
    by_contra hl
    simp [hl] at ho
  have hidle : d.dev.handler = .idle := by
    have hl := h.listing
    cases e : d.dev.handler <;> simp_all
  have hrun := step_noRun h.item hruns hs
  cases a <;> simp_all [step]

theorem Shape.with {d : RefDev} {a : Label} {d' : Dev} (h : Shape d)
    (hk : d.dev.owner + d.dev.handler.refs ≤ d.dev.kref) (hr : 0 < a.puts → 0 < d.dev.kref)
    (hal : d.allows a = true) (hs : step d.dev a = some d') : Shape (d.with d' a) := by
  have hdev : (d.with d' a).dev = d' := by cases a <;> rfl
  refine { core := ?_, listing := ?_, item := ?_, accepted := ?_, disk := ?_, bdev := ?_ }
  · rw [hdev]
    exact step_core h.core hs
  · rw [hdev]
    exact (step_refs h.core h.listing hk hr hs).1
  · rw [hdev]
    exact step_item h.item hs
  · intro i
    rw [hdev, step_none hs i, ← h.accepted i]
    cases a
    case addDiskQueue j =>
      cases hp : d.dev.pending with
      | none => simp [RefDev.with, hp, eq_comm]
      | some k =>
        -- the command waits for a run that others wait for already
        have hk : k ∈ d.accepted := (h.accepted k).mpr (by rw [(h.item.pending k hp).1]; decide)
        simp only [RefDev.with, hp, Option.getD_some, List.mem_cons, reduceCtorEq, and_false, ne_eq, not_false_eq_true,
          and_true, false_or, or_iff_right_iff_imp]
        rintro rfl
        exact hk
    case runPut j =>
      have hne : Label.runPut j ≠ .runPut i ↔ i ≠ j := by
        rw [ne_eq, Label.runPut.injEq, eq_comm]
      simp [RefDev.with, hne]
    all_goals simp [RefDev.with]
  · rw [hdev]
    exact step_diskListed h.core h.listing h.disk hs
  · intro hb
    rw [hdev]
    cases a
    case runAdd i ok =>
      obtain rfl : ok = true := hb
      have hd : d.dev.disk = true := hal
      cases step_cases hs with
      | runAdd adding =>
        exact ⟨h.disk hd ⟨i, by simp [adding]⟩, .inl ⟨i, .inr (by rw [Dev.setRun_runs, if_pos rfl])⟩⟩
    case delGendisk =>
      simp only [RefDev.with, Bool.and_eq_true, decide_eq_true_eq] at hb
      exact step_visible h.core (h.bdev hb.1) hs (fun _ => hb.2) nofun
    all_goals exact step_visible h.core (h.bdev hb) hs nofun nofun

theorem length_filter_ne (l : List Nat) (i : Nat) : (l.filter (· ≠ i)).length + l.count i = l.length := by
  have h := List.length_eq_countP_add_countP (· == i) (l := l)
  rw [List.countP_eq_length_filter (p := fun j => ¬(j == i) = true)] at h
  simp only [List.count, ne_eq, beq_iff_eq] at h ⊢
  omega

/-- The holders after a step of a handler or a run. -/
theorem holders_with {d : RefDev} {a : Label} {d' : Dev} (h : Shape d)
    (hk : d.dev.owner + d.dev.handler.refs ≤ d.dev.kref) (hr : 0 < a.puts → 0 < d.dev.kref)
    (hs : step d.dev a = some d') :
    (d.with d' a).dev.kref + d.dev.owner + d.holders + a.puts =
      d.dev.kref + (d.with d' a).dev.owner + (d.with d' a).holders + d.ended a := by
  have hsum := (step_refs h.core h.listing hk hr hs).2
  unfold RefDev.holders
  cases a
  case addDiskQueue i =>
    simp only [RefDev.with, RefDev.ended, List.length_cons, Label.puts, Label.gets] at hsum ⊢
    omega
  case runPut i =>
    have hlen := length_filter_ne d.accepted i
    simp only [RefDev.with, RefDev.ended, Label.puts, Label.gets] at hsum ⊢
    omega
  all_goals
    simp only [RefDev.with, RefDev.ended, Label.puts, Label.gets] at hsum ⊢
    omega

/-- A run that ends has a command that waits for it. -/
theorem Shape.waits {d : RefDev} (h : Shape d) {i : Nat} {d' : Dev} (hs : step d.dev (.runPut i) = some d') :
    0 < d.accepted.count i := by
  rw [List.count_pos_iff, h.accepted i]
  cases step_cases hs with
  | runPut putting _ =>
    rw [putting]
    decide

theorem ended_eq_puts {d : RefDev} {a : Label} (ho : OneWaits d (.cmd a)) : d.ended a = a.puts := by
  cases a
  case runPut i => exact ho i rfl
  all_goals rfl

/-- Until `ubbd_dev_create` returns, no other handler and no run has started. -/
theorem step_early {d d' : Dev} {a : Label} (hc : Core d) (hi : d.toWorker.Ok) (hh : d.handler = .created)
    (hs : step d a = some d') : ∃ ok disk, a = .setup ok disk := by
  have hrun := step_noRun hi (hc.noRun (hc.early (.inl hh))) hs
  cases a <;> simp_all [step]

theorem inv_cmd {d : RefDev} {a : Label} {d' : Dev} (h : RefInv d) (hal : d.allows a = true)
    (hs : step d.dev a = some d') (ho : OneWaits d (.cmd a)) : RefInv (d.release (d.with d' a)) := by
  have hdev : (d.with d' a).dev = d' := by cases a <;> rfl
  have hended := ended_eq_puts ho
  by_cases ha : d.phase.alive = true
  · obtain ⟨hsum, hpos, hdes⟩ := (balanced_alive ha).mp h.balanced
    have hk : d.dev.owner + d.dev.handler.refs ≤ d.dev.kref := by
      simp only [RefDev.holders] at hsum
      omega
    have hne : a ≠ .create := by
      rintro rfl
      cases step_cases hs with
      | create _ zero _ => omega
    have hphase : (d.with d' a).phase = d.phase := by
      cases a <;> first | rfl | exact absurd rfl hne
    have hearly : d.phase.early = false := by
      by_contra he
      have he : d.phase.early = true := by simpa using he
      have hh := h.handler he
      rw [if_neg fun e => by rw [e] at ha; cases ha] at hh
      obtain ⟨ok, disk, rfl⟩ := step_early h.core h.item hh hs
      have hb : d.phase = .built := by simpa [RefDev.allows] using hal
      rw [hb] at he
      cases he
    have hholders := holders_with h.toShape hk (fun _ => hpos) hs
    refine inv_release (h.toShape.with hk (fun _ => hpos) hal hs) hpos (by rw [hphase]; exact ha) (by omega) ?_ ?_ ?_
    · rw [← hdes]
      cases a <;> rfl
    · intro he
      rw [hphase, hearly] at he
      cases he
    · intro he
      rw [hphase, hearly] at he
      cases he
  · have hdead := balanced_dead h.balanced (by simpa using ha)
    obtain rfl := step_dead h.toShape hdead.1 hdead.2 hs
    have hp : d.phase = .absent := by simpa [RefDev.allows] using hal
    have hk0 : d.dev.kref = 0 := by
      cases step_cases hs with
      | create _ zero _ => exact zero
    have hk : d.dev.owner + d.dev.handler.refs ≤ d.dev.kref := by
      have := hdead.2
      simp only [RefDev.holders] at this
      omega
    have hholders := holders_with h.toShape hk (fun h => by cases h) hs
    have hshape := h.toShape.with hk (fun h => by cases h) hal hs
    have hb := h.balanced
    simp only [Balanced, hp] at hb
    have hq := h.quiet (by rw [hp]; rfl)
    rw [RefDev.release, if_neg (by omega)]
    cases step_cases hs with
    | create _ _ _ =>
      exact { hshape with
        balanced := ⟨by omega, Nat.zero_lt_one, hb.1⟩
        handler := fun _ => rfl
        quiet := fun _ => hq
        krings := fun e => by rcases e with e | e | e <;> cases e }

/-- A put by a holder that is not the handler: `d₀` is the device without it. -/
theorem inv_put {d d₀ : RefDev} (h : RefInv d) (hdev : d₀.dev = d.dev) (hp : d₀.phase = d.phase)
    (ha : d₀.accepted = d.accepted) (hb : d₀.bdev = d.bdev) (hz : d₀.destroyed = d.destroyed)
    (hn : d₀.holders + 1 = d.holders) (hc : d₀.openCount ≤ d.openCount) (hf : d₀.files ≤ d.files) :
    RefInv d₀.put := by
  have hal : d.phase.alive = true := h.alive (by omega)
  obtain ⟨hsum, hpos, hdes⟩ := (balanced_alive hal).mp h.balanced
  have hholders : ({ d₀ with dev := { d₀.dev with kref := d₀.dev.kref - 1 } } : RefDev).holders = d₀.holders := rfl
  refine inv_release (h.toShape.of_kref (d.dev.kref - 1) (by rw [← hdev]) ha hb) (hdev ▸ hpos) (hp ▸ hal) ?_
    (hz.trans hdes) ?_ ?_
  · rw [hholders]
    show d₀.dev.kref - 1 = d₀.dev.owner + d₀.holders
    rw [hdev]
    omega
  · intro he
    have hh := h.handler (hp ▸ he)
    rw [if_neg fun e => by rw [e] at hal; cases hal] at hh
    show d₀.dev.handler = _
    rw [hdev, hh]
  · intro he
    obtain ⟨h1, h2, h3⟩ := h.quiet (hp ▸ he)
    refine ⟨?_, Nat.le_zero.mp (h2 ▸ hc), Nat.le_zero.mp (h3 ▸ hf)⟩
    show d₀.dev.listed = false
    rw [hdev, h1]

/-- A get by a holder that is not the handler: `d₀` is the device with it. -/
theorem inv_hold {d d₀ : RefDev} (h : RefInv d) (hal : d.phase.alive = true) (hdev : d₀.dev = d.dev)
    (hp : d₀.phase = d.phase) (ha : d₀.accepted = d.accepted) (hb : d₀.bdev = d.bdev)
    (hz : d₀.destroyed = d.destroyed) (hkr : d₀.krings = d.krings) (hn : d₀.holders = d.holders + 1)
    (hq : d.phase.early = true → d₀.openCount = 0 ∧ d₀.files = 0) : RefInv d₀.get := by
  refine inv_get h (h.toShape.of_kref (d.dev.kref + 1) (by rw [RefDev.get, hdev]) ha hb) hal hp
    (by rw [RefDev.get, hdev]) ?_ hz (fun _ => by rw [RefDev.get, hdev]) (fun he => ⟨?_, hq (hp ▸ he)⟩) hkr
  · have hholders : d₀.get.holders = d₀.holders := rfl
    have howner : d₀.get.dev.owner = d.dev.owner := by rw [RefDev.get, hdev]; rfl
    omega
  · show d₀.dev.listed = false
    rw [hdev, (h.quiet (hp ▸ he)).1]

theorem RefInv.lookup {d : RefDev} (h : RefInv d) (hh : d.dev.handler = .idle) (hl : d.dev.listed = true) :
    RefInv { d with dev := { d.dev with kref := d.dev.kref + 1, handler := .putting } } := by
  have hb := h.built hl
  have hearly : d.phase.early = false := by rw [hb]; rfl
  have hshape : Shape { d with dev := { d.dev with kref := d.dev.kref + 1, handler := .putting } } := by
    refine { h.toShape with core := ?_, listing := (by intro b hb; cases hb), bdev := fun hv => ?_ }
    · refine h.core.of_handler rfl rfl rfl (fun e => by rcases e with e | e <;> cases e) fun e => ?_
      rw [(h.core.noCmd e).1] at hl
      cases hl
    · obtain ⟨-, hv⟩ := h.bdev hv
      exact ⟨hl, hv.imp_right fun hv => hv.imp_right fun hv => by rw [hh] at hv; cases hv⟩
  refine inv_get h hshape (by rw [hb]; rfl) rfl rfl ?_ rfl (fun he => ?_) (fun he => ?_) rfl
  · simp [RefDev.holders, hh, hl]
    omega
  · exact absurd he (by simp [hearly])
  · exact absurd he (by simp [hearly])

/-- A creation that failed frees a device that nobody holds. -/
theorem RefInv.discard {d : RefDev} (h : RefInv d) (hp : d.phase = .failing) (hv : d.vmas = 0)
    (hkr : d.krings = []) : RefInv { d with phase := .discarded, dev := { d.dev with handler := .idle } } := by
  have hb := h.balanced
  have hq := h.quiet (by rw [hp]; rfl)
  have hh := h.handler (by rw [hp]; rfl)
  rw [hp, if_neg (by decide)] at hh
  have hst := h.core.early (.inl hh)
  have hacc : d.accepted = [] := List.eq_nil_iff_forall_not_mem.mpr fun i hi =>
    (h.accepted i).mp hi (h.core.noRun hst i)
  simp only [Balanced, hp] at hb
  have hvis : d.bdev = false := by
    by_contra hv
    have := (h.bdev (by simpa using hv)).1
    rw [hq.1] at this
    cases this
  refine { h.toShape with
    core := ?_, listing := (by intro b hb; cases hb), bdev := ?_, balanced := ?_, handler := nofun
    quiet := nofun, krings := fun _ => hkr }
  · exact h.core.of_handler rfl rfl rfl (fun e => by rcases e with e | e <;> cases e) fun _ => ⟨hq.1, .inl rfl⟩
  · intro hv
    rw [show d.bdev = true from hv] at hvis
    cases hvis
  · refine ⟨hb.2.2, by simp [hq.1], ?_⟩
    simp [RefDev.holders, hq, hv, hacc]

/-- A kring file is registered only while the device is alive or destroyed. -/
theorem RefInv.mappable {d : RefDev} (h : RefInv d) {i : Nat} (hi : i ∈ d.krings) :
    d.phase.alive = true ∨ d.phase = .destroying := by
  have hkr := h.krings
  cases e : d.phase <;> simp_all [Phase.alive]

theorem refStep_inv {d d' : RefDev} {a : RefLabel} (h : RefInv d) (hs : refStep d a = some d')
    (hm : MapsAlive d a) (ho : OneWaits d a) : RefInv d' := by
  cases a with
  | cmd a =>
    simp only [refStep, Option.ite_none_right_eq_some, Option.map_eq_some_iff] at hs
    obtain ⟨hal, e, hstep, rfl⟩ := hs
    exact inv_cmd h hal hstep ho
  | lookup =>
    simp only [refStep, Option.ite_none_right_eq_some, Option.some.injEq] at hs
    obtain ⟨⟨hh, hl⟩, rfl⟩ := hs
    exact h.lookup hh hl
  | register i =>
    simp only [refStep, Option.ite_none_right_eq_some, Option.some.injEq] at hs
    obtain ⟨⟨hp, -⟩, rfl⟩ := hs
    refine { h with krings := fun e => ?_ }
    rcases e with e | e | e <;> rw [show d.phase = _ from e] at hp <;> cases hp
  | created ok =>
    simp only [refStep, Option.ite_none_right_eq_some, Option.some.injEq] at hs
    obtain ⟨hp, rfl⟩ := hs
    have hb := h.balanced
    have hh := h.handler (by rw [hp]; rfl)
    have hq := h.quiet (by rw [hp]; rfl)
    rw [hp, if_neg (by decide)] at hh
    simp only [Balanced, hp] at hb
    cases ok
    · exact { h with balanced := hb, handler := fun _ => hh, quiet := fun _ => hq, krings := nofun }
    · exact { h with balanced := hb, handler := nofun, quiet := nofun, krings := nofun }
  | bdevAdd i =>
    simp only [refStep, Option.ite_none_right_eq_some, Option.some.injEq] at hs
    obtain ⟨⟨hr, hd⟩, rfl⟩ := hs
    exact { h with bdev := fun _ => ⟨h.disk hd ⟨i, by simp [hr]⟩, .inl ⟨i, .inl hr⟩⟩ }
  | bdevOpen =>
    simp only [refStep, Option.ite_none_right_eq_some, Option.some.injEq] at hs
    obtain ⟨hv, rfl⟩ := hs
    have hb := h.built (h.bdev hv).1
    show RefInv ({ d with openCount := d.openCount + 1 } : RefDev).get
    refine inv_hold h (by rw [hb]; rfl) rfl rfl rfl rfl rfl rfl ?_
      fun he => by rw [hb] at he; cases he
    simp only [RefDev.holders]
    omega
  | bdevRelease =>
    simp only [refStep, Option.ite_none_right_eq_some, Option.some.injEq] at hs
    obtain ⟨hn, rfl⟩ := hs
    refine inv_put h rfl rfl rfl rfl rfl ?_ (Nat.sub_le _ _) (Nat.le_refl _)
    simp only [RefDev.holders]
    omega
  | mmap i =>
    simp only [refStep, Option.ite_none_right_eq_some, Option.some.injEq] at hs
    obtain ⟨hi, rfl⟩ := hs
    have hal : d.phase.alive = true := (h.mappable hi).resolve_right fun e => by
      have hb := h.balanced
      simp only [Balanced, e] at hb
      exact hm.1 i rfl hb.1
    show RefInv ({ d with vmas := d.vmas + 1 } : RefDev).get
    refine inv_hold h hal rfl rfl rfl rfl rfl rfl ?_ fun he => (h.quiet he).2
    simp only [RefDev.holders]
    omega
  | vmaOpen =>
    simp only [refStep, Option.ite_none_right_eq_some, Option.some.injEq] at hs
    obtain ⟨hn, rfl⟩ := hs
    have hal : d.phase.alive = true := h.alive (by simp only [RefDev.holders]; omega)
    show RefInv ({ d with vmas := d.vmas + 1 } : RefDev).get
    refine inv_hold h hal rfl rfl rfl rfl rfl rfl ?_ fun he => (h.quiet he).2
    simp only [RefDev.holders]
    omega
  | vmaClose =>
    simp only [refStep, Option.ite_none_right_eq_some, Option.some.injEq] at hs
    obtain ⟨hn, rfl⟩ := hs
    refine inv_put h rfl rfl rfl rfl rfl ?_ (Nat.le_refl _) (Nat.le_refl _)
    simp only [RefDev.holders]
    omega
  | debugfsOpen =>
    simp only [refStep, Option.ite_none_right_eq_some] at hs
    obtain ⟨hp, hs⟩ := hs
    split at hs <;> cases hs
    · exact h
    · rename_i hk
      have hb : d.phase = .built := hp.resolve_right fun e => by
        have hb := h.balanced
        simp only [Balanced, e] at hb
        exact hk hb.1
      show RefInv ({ d with files := d.files + 1 } : RefDev).get
      refine inv_hold h (by rw [hb]; rfl) rfl rfl rfl rfl rfl rfl ?_
        fun he => by rw [hb] at he; cases he
      simp only [RefDev.holders]
      omega
  | debugfsRelease =>
    simp only [refStep, Option.ite_none_right_eq_some, Option.some.injEq] at hs
    obtain ⟨hn, rfl⟩ := hs
    refine inv_put h rfl rfl rfl rfl rfl ?_ (Nat.le_refl _) (Nat.sub_le _ _)
    simp only [RefDev.holders]
    omega
  | unregister i =>
    simp only [refStep, Option.ite_none_right_eq_some, Option.some.injEq] at hs
    obtain ⟨hp, rfl⟩ := hs
    refine { h with krings := fun e => ?_ }
    show d.krings.erase i = []
    rw [h.krings e, List.erase_nil]
  | free =>
    simp only [refStep, Option.ite_none_right_eq_some] at hs
    obtain ⟨hkr, hs⟩ := hs
    split at hs <;> cases hs
    · exact h.discard ‹_› (hm.2 rfl ‹_›) hkr
    · rename_i hp
      have hb := h.balanced
      simp only [Balanced, hp] at hb
      exact { h.toShape with balanced := hb, handler := nofun, quiet := nofun, krings := fun _ => hkr }

/-- A run that ends for several commands drops one reference of theirs. -/
theorem refStep_kept {d d' : RefDev} {i : Nat} (h : RefInv d) (hs : refStep d (.cmd (.runPut i)) = some d')
    (hb' : Balanced d') : d.accepted.count i = 1 := by
  simp only [refStep, Option.ite_none_right_eq_some, Option.map_eq_some_iff] at hs
  obtain ⟨-, e, hstep, rfl⟩ := hs
  have hwait := h.waits hstep
  have hlen := length_filter_ne d.accepted i
  have hal : d.phase.alive = true := h.alive (by simp only [RefDev.holders]; omega)
  obtain ⟨hsum, hpos, -⟩ := (balanced_alive hal).mp h.balanced
  have hk : d.dev.owner + d.dev.handler.refs ≤ d.dev.kref := by
    simp only [RefDev.holders] at hsum
    omega
  have hholders := holders_with h.toShape hk (fun _ => hpos) hstep
  simp only [RefDev.ended, Label.puts] at hholders
  by_contra hne
  -- one command's reference is left, so this put is not the last
  rw [RefDev.release, if_neg (by omega)] at hb'
  have := ((balanced_alive (d := d.with e (.runPut i)) hal).mp hb').1
  omega

/-- A mapping made after the last put raises the count again; a creation that
fails leaves its mappings with a freed device. -/
theorem refStep_mapped {d d' : RefDev} {a : RefLabel} (h : RefInv d) (hs : refStep d a = some d')
    (hb' : Balanced d') : MapsAlive d a := by
  refine ⟨?_, ?_⟩
  · rintro i rfl hk
    simp only [refStep, Option.ite_none_right_eq_some, Option.some.injEq] at hs
    obtain ⟨hi, rfl⟩ := hs
    have hb := h.balanced
    have hp : d.phase = .destroying := (h.mappable hi).resolve_left fun ha =>
      absurd hk (Nat.pos_iff_ne_zero.mp ((balanced_alive ha).mp hb).2.1)
    simp [Balanced, RefDev.get, hp] at hb'
  · rintro rfl hp
    simp only [refStep, hp, Option.ite_none_right_eq_some, Option.some.injEq] at hs
    obtain ⟨-, rfl⟩ := hs
    have hn := hb'.2.2
    simp only [RefDev.holders] at hn
    omega

theorem RefDev.release_accepted (d d' : RefDev) : (d.release d').accepted = d'.accepted := by
  unfold RefDev.release
  split <;> rfl

theorem RefDev.put_accepted (d : RefDev) : d.put.accepted = d.accepted := RefDev.release_accepted _ _

theorem refStep_accepted {d d' : RefDev} {a : RefLabel} (hs : refStep d a = some d') (hc : ∀ b, a ≠ .cmd b) :
    d'.accepted = d.accepted := by
  cases a <;> simp only [refStep, Option.ite_none_right_eq_some, Option.some.injEq] at hs
  case cmd b => exact absurd rfl (hc b)
  case debugfsOpen | free =>
    obtain ⟨-, hs⟩ := hs
    split at hs <;> cases hs <;> rfl
  all_goals
    obtain ⟨-, rfl⟩ := hs
    first | rfl | exact RefDev.put_accepted _

/-- While no command finds the item pending, no two wait for one run. -/
theorem refStep_nodup {d d' : RefDev} {a : RefLabel} (h : RefInv d) (hn : d.accepted.Nodup)
    (hs : refStep d a = some d') (hp : NotPending d a) : d'.accepted.Nodup := by
  cases a
  case cmd a =>
    simp only [refStep, Option.ite_none_right_eq_some, Option.map_eq_some_iff] at hs
    obtain ⟨-, e, hstep, rfl⟩ := hs
    rw [RefDev.release_accepted]
    cases a
    case addDiskQueue i =>
      have hfree : d.dev.pending = none := hp i rfl
      simp only [RefDev.with, hfree, Option.getD_none]
      refine List.nodup_cons.mpr ⟨fun hi => ?_, hn⟩
      cases step_cases hstep with
      | addDiskQueue _ new _ => exact (h.accepted i).mp hi new
      | addDiskPending _ pending => exact Option.some_ne_none _ (pending.symm.trans hfree)
    case runPut i => exact hn.filter _
    all_goals exact hn
  all_goals
    rw [refStep_accepted hs fun b he => by cases he]
    exact hn

theorem OneWaits.of_nodup {d d' : RefDev} {a : RefLabel} (h : RefInv d) (hn : d.accepted.Nodup)
    (hs : refStep d a = some d') : OneWaits d a := by
  rintro i rfl
  simp only [refStep, Option.ite_none_right_eq_some, Option.map_eq_some_iff] at hs
  obtain ⟨-, e, hstep, -⟩ := hs
  exact List.count_eq_one_of_mem hn (List.count_pos_iff.mp (h.waits hstep))

/-- Along every run of commands, worker runs, opens, mappings and debugfs
files, the references are balanced and the device is destroyed once, exactly
when no ring is mapped after the last reference was dropped, no creation that
fails frees a mapped device, and each run of the worker ends for one command.
The last is so when no command finds the work item pending. -/
theorem balanced_iff (as : List RefLabel) :
    (refLts.States Balanced initRefDev as ↔
        refLts.Steps (fun d a _ => MapsAlive d a ∧ OneWaits d a) initRefDev as) ∧
      (refLts.Steps (fun d a _ => MapsAlive d a ∧ NotPending d a) initRefDev as →
        refLts.States Balanced initRefDev as) := by
  constructor
  · refine Lts.states_iff_steps (I := RefInv) (fun _ h => h.balanced) (fun d a d' h hs hm => ?_)
      (fun d a d' h hs hm hb => hm ⟨?_, ?_⟩) initRefDev_inv as
    · exact refStep_inv h hs hm.1 hm.2
    · exact refStep_mapped h hs hb
    · rintro i rfl
      exact refStep_kept h hs hb
  · intro h
    refine (Lts.states_of_steps (I := fun d => RefInv d ∧ d.accepted.Nodup) (fun d a d' hi hs hm => ?_)
      ⟨initRefDev_inv, List.nodup_nil⟩ h).mono fun d h => h.1.balanced
    exact ⟨refStep_inv hi.1 hs hm.1 (.of_nodup hi.1 hi.2 hs), refStep_nodup hi.1 hi.2 hs hm.2⟩

/-- A device is added and given to the worker by two commands, the second
when the run of the first has failed and ended; then it is removed. -/
def twoCommands : List RefLabel :=
  [.cmd .create, .created true, .cmd (.setup true true), .cmd .setPrepared, .cmd .list, .cmd (.reply true),
    .cmd (.find .addDisk), .cmd .addDiskTest, .cmd (.addDiskQueue 0), .cmd .put, .cmd .runStart, .cmd (.runTest 0),
    .cmd (.runAdd 0 false), .cmd (.runOut 0), .cmd (.runPut 0),
    .cmd (.find .addDisk), .cmd .addDiskTest, .cmd (.addDiskQueue 1), .cmd .put, .cmd .runStart, .cmd (.runTest 1),
    .cmd (.runAdd 1 false), .cmd (.runOut 1), .cmd (.runPut 1),
    .cmd (.find .removeDev), .cmd .removeDevCall, .cmd .removeDevSection, .cmd .removeDevPut, .cmd .put, .free]

theorem balanced_iff_twoCommands :
    refLts.States Balanced initRefDev twoCommands ∧
      (refLts.exec initRefDev twoCommands).map (fun d => (d.phase, d.dev.kref, d.destroyed)) = some (.freed, 0, 1) := by
  refine ⟨(balanced_iff twoCommands).2 ?_, rfl⟩
  unfold twoCommands
  iterate 8 refine Lts.Steps.cons rfl ⟨⟨fun _ he => (by cases he), fun he => (by cases he)⟩, fun _ he => by cases he⟩ ?_
  refine Lts.Steps.cons rfl ⟨⟨fun _ he => (by cases he), fun he => (by cases he)⟩, fun _ _ => rfl⟩ ?_
  iterate 8 refine Lts.Steps.cons rfl ⟨⟨fun _ he => (by cases he), fun he => (by cases he)⟩, fun _ he => by cases he⟩ ?_
  refine Lts.Steps.cons rfl ⟨⟨fun _ he => (by cases he), fun he => (by cases he)⟩, fun _ _ => rfl⟩ ?_
  iterate 11
    refine Lts.Steps.cons rfl ⟨⟨fun _ he => (by cases he), fun he => (by cases he)⟩, fun _ he => by cases he⟩ ?_
  refine Lts.Steps.cons rfl ⟨⟨fun _ he => (by cases he), fun _ hp => by cases hp⟩, fun _ he => by cases he⟩ ?_
  trivial

/-- A device with one queue is removed; `ubbd_dev_destroy` has begun, and a
process that has the kring file open maps the queue before it is
unregistered. -/
theorem mapped_after_last_put :
    ∃ d, refLts.exec initRefDev [.cmd .create, .register 0, .created true, .cmd (.setup true true),
        .cmd .setPrepared, .cmd .list, .cmd (.reply true), .cmd (.find .removeDev), .cmd .removeDevCall,
        .cmd .removeDevSection, .cmd .removeDevPut, .cmd .put, .mmap 0, .unregister 0, .free] = some d ∧
      d.phase = .freed ∧ d.destroyed = 1 ∧ d.vmas = 1 ∧ d.dev.kref = 1 ∧ ¬ Balanced d := by
  refine ⟨_, rfl, rfl, rfl, rfl, rfl, fun h => ?_⟩
  exact absurd h.1 (by decide)

/- The second command finds the item pending: one run drops one of two
references, and the device that is removed is not destroyed. -/
example : (refLts.exec initRefDev [.cmd .create, .created true, .cmd (.setup true true), .cmd .setPrepared, .cmd .list,
    .cmd (.reply true), .cmd (.find .addDisk), .cmd .addDiskTest, .cmd (.addDiskQueue 0), .cmd .put,
    .cmd (.find .addDisk), .cmd .addDiskTest, .cmd (.addDiskQueue 1), .cmd .put, .cmd .runStart, .cmd (.runTest 0),
    .cmd (.runAdd 0 false), .cmd (.runOut 0), .cmd (.runPut 0), .cmd (.find .removeDev), .cmd .removeDevCall,
    .cmd .removeDevSection, .cmd .removeDevPut, .cmd .put]).map
      (fun d => (d.phase, d.dev.kref, d.dev.owner, d.holders)) = some (.built, 1, 0, 0) := rfl

end Ubbd.Device

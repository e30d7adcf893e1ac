import Mathlib.Tactic.Common
import UbbdKernel.Basic
import UbbdKernel.Framework.Lts

/-!
# The mappings of a queue and `UBBD_QUEUE_FLAGS_HAS_BACKEND`

A backend maps the ring of a queue. `ubbd_kring_dev_mmap` sets HAS_BACKEND
and refuses a second mapping while the flag is set; a mapping is copied
without it by fork, or when a part of it is unmapped (`ubbd_vma_open`);
`ubbd_vma_close` clears the flag if the mapping that goes away is writable.

`Truthful` says that the flag is set while a mapping is live, and only then.
A run keeps it exactly when a writable mapping is closed only as the last
one and a read-only mapping only while another one is live
(`truthful_iff`): the flag is cleared by the first writable mapping that is
closed, and a last read-only mapping leaves it set.
-/

namespace Ubbd.Kring

/-- A mapping of the ring. -/
structure Vma where
  pages : Nat
  /-- `VM_WRITE`. -/
  write : Bool
  deriving DecidableEq

/-- `info->mem[0]` of a queue, its `mmap_pages`, and the page size. -/
structure KringMem where
  addr : Nat
  mmapPages : Nat
  pageShift : Nat

/-- `PAGE_SIZE`. -/
def KringMem.pageSize (K : KringMem) : Nat := 2 ^ K.pageShift

/-- What the mappings of a queue change of it, and its live mappings. -/
structure MmapQueue where
  /-- `UBBD_QUEUE_FLAGS_HAS_BACKEND`. -/
  hasBackend : Bool
  backendPid : Nat
  vmas : List Vma
  deriving DecidableEq

def initMmapQueue : MmapQueue where
  hasBackend := false
  backendPid := 0
  vmas := []

/-- `ubbd_vma_open`, by which a mapping becomes live. -/
def ubbdVmaOpen (q : MmapQueue) (vma : Vma) : MmapQueue := { q with vmas := q.vmas ++ [vma] }

/-- `ubbd_vma_close` of mapping `i`. -/
def ubbdVmaClose (q : MmapQueue) (i : Nat) (vma : Vma) : MmapQueue :=
  if vma.write then { hasBackend := false, backendPid := 0, vmas := q.vmas.eraseIdx i }
  else { q with vmas := q.vmas.eraseIdx i }

variable (K : KringMem)

/-- `ubbd_kring_dev_mmap`, called by process `pid`. -/
def ubbdKringDevMmap (q : MmapQueue) (vma : Vma) (pid : Nat) : Except Errno MmapQueue :=
  if vma.pages ≠ K.mmapPages then .error .einval
  else if q.hasBackend then .error .ebusy
  else .ok (ubbdVmaOpen { q with hasBackend := true, backendPid := pid } vma)

/-- `actual_pages` of `ubbd_kring_mmap`. -/
def actualPages : Nat := (K.addr % K.pageSize + K.mmapPages * K.pageSize + K.pageSize - 1) / K.pageSize

/-- `ubbd_kring_mmap`, on a device whose `info` is set. -/
def ubbdKringMmap (q : MmapQueue) (vma : Vma) (pid : Nat) : Except Errno MmapQueue :=
  if vma.pages > actualPages K then .error .einval else ubbdKringDevMmap K q vma pid

inductive MmapLabel
  | mmap (vma : Vma) (pid : Nat)
  /-- A live mapping is copied by fork, or a part of it split off. -/
  | openVma (i : Nat) (pages : Nat)
  | closeVma (i : Nat)

def mmapStep (q : MmapQueue) : MmapLabel → Option MmapQueue
  | .mmap vma pid =>
    match ubbdKringMmap K q vma pid with
    | .ok q' => some q'
    | .error _ => some q
  | .openVma i pages => q.vmas[i]?.map fun vma => ubbdVmaOpen q { vma with pages := pages }
  | .closeVma i => q.vmas[i]?.map fun vma => ubbdVmaClose q i vma

def mmapLts : Lts MmapQueue MmapLabel where
  init q := q = initMmapQueue
  step := mmapStep K

/-- The flag tells whether a mapping is live: a further mapping of the right
size is then refused with `-EBUSY`, and accepted when there is none. -/
structure Truthful (q : MmapQueue) : Prop where
  flag : q.hasBackend = true ↔ q.vmas ≠ []
  pid : q.vmas = [] → q.backendPid = 0
  busy : ∀ vma pid, q.vmas ≠ [] → vma.pages = K.mmapPages → ubbdKringMmap K q vma pid = .error .ebusy
  free : ∀ vma pid, q.vmas = [] → vma.pages = K.mmapPages → ∃ q', ubbdKringMmap K q vma pid = .ok q'

/-- A writable mapping is closed as the last one, a read-only mapping while
another one is live. -/
def LastWritable (q : MmapQueue) (a : MmapLabel) : Prop :=
  ∀ i vma, a = .closeVma i → q.vmas[i]? = some vma → (vma.write = true ↔ q.vmas.length = 1)

variable {K}

theorem le_actualPages (K : KringMem) : K.mmapPages ≤ actualPages K := by
  have hp : 0 < K.pageSize := Nat.two_pow_pos K.pageShift
  rw [actualPages, Nat.le_div_iff_mul_le hp]
  omega

/-- A mapping of the right size passes both checks of the size. -/
theorem ubbdKringMmap_of_pages {q : MmapQueue} {vma : Vma} (pid : Nat) (h : vma.pages = K.mmapPages) :
    ubbdKringMmap K q vma pid = if q.hasBackend then .error .ebusy else
      .ok (ubbdVmaOpen { q with hasBackend := true, backendPid := pid } vma) := by
  have hle := le_actualPages K
  rw [ubbdKringMmap, if_neg (by omega), ubbdKringDevMmap, if_neg (not_not.mpr h)]

/-- The calls of mmap behave as the flag says. -/
theorem truthful_of_flag {q : MmapQueue} (hf : q.hasBackend = true ↔ q.vmas ≠ [])
    (hp : q.vmas = [] → q.backendPid = 0) : Truthful K q where
  flag := hf
  pid := hp
  busy vma pid hne hpages := by
    rw [ubbdKringMmap_of_pages pid hpages, if_pos (hf.mpr hne)]
  free vma pid he hpages := by
    rw [ubbdKringMmap_of_pages pid hpages, if_neg fun h => hf.mp h he]
    exact ⟨_, rfl⟩

/-- What a successful mmap did. -/
theorem ubbdKringMmap_ok {q q' : MmapQueue} {vma : Vma} {pid : Nat} (h : ubbdKringMmap K q vma pid = .ok q') :
    vma.pages = K.mmapPages ∧ q.hasBackend = false ∧
      q' = ubbdVmaOpen { q with hasBackend := true, backendPid := pid } vma := by
  unfold ubbdKringMmap ubbdKringDevMmap at h
  split at h <;> [cases h; skip]
  split at h <;> [cases h; skip]
  rename_i hpages
  split at h <;> [cases h; skip]
  rename_i hflag
  cases h
  exact ⟨not_not.mp hpages, Bool.eq_false_iff.mpr hflag, rfl⟩

/-- Closing one of the mappings leaves none exactly if it was the last. -/
theorem eraseIdx_eq_nil {vmas : List Vma} {i : Nat} {vma : Vma} (h : vmas[i]? = some vma) :
    vmas.eraseIdx i = [] ↔ vmas.length = 1 := by
  have hi := (List.getElem?_eq_some_iff.mp h).1
  rw [← List.length_eq_zero_iff, List.length_eraseIdx_of_lt hi]
  omega

theorem ne_nil_of_getElem? {vmas : List Vma} {i : Nat} {vma : Vma} (h : vmas[i]? = some vma) : vmas ≠ [] := by
  rintro rfl
  cases h

theorem mmapStep_truthful {q q' : MmapQueue} {a : MmapLabel} (h : Truthful K q)
    (hs : mmapStep K q a = some q') (ha : LastWritable q a) : Truthful K q' := by
  cases a with
  | mmap vma pid =>
    simp only [mmapStep] at hs
    split at hs <;> cases hs
    · rename_i hok
      obtain ⟨-, -, rfl⟩ := ubbdKringMmap_ok hok
      apply truthful_of_flag
      · simp [ubbdVmaOpen]
      · intro he
        simp [ubbdVmaOpen] at he
    · exact h
  | openVma i pages =>
    obtain ⟨vma, hv, rfl⟩ := Option.map_eq_some_iff.mp hs
    apply truthful_of_flag
    · show q.hasBackend = true ↔ q.vmas ++ _ ≠ []
      have := h.flag.mpr (ne_nil_of_getElem? hv)
      simp [this]
    · intro he
      simp [ubbdVmaOpen] at he
  | closeVma i =>
    obtain ⟨vma, hv, rfl⟩ := Option.map_eq_some_iff.mp hs
    have hlast := ha i vma rfl hv
    have hnil := eraseIdx_eq_nil hv
    have hset := h.flag.mpr (ne_nil_of_getElem? hv)
    unfold ubbdVmaClose
    split
    · rename_i hw
      refine truthful_of_flag ?_ fun _ => rfl
      have : q.vmas.eraseIdx i = [] := hnil.mpr (hlast.mp hw)
      simp [this]
    · rename_i hw
      have hne : q.vmas.eraseIdx i ≠ [] := fun e => hw (hlast.mpr (hnil.mp e))
      apply truthful_of_flag
      · simp [hset, hne]
      · exact fun e => absurd e hne

/-- A close of another kind leaves the flag wrong. -/
theorem mmapStep_untruthful {q q' : MmapQueue} {a : MmapLabel} (h : Truthful K q)
    (hs : mmapStep K q a = some q') (ha : ¬ LastWritable q a) : ¬ Truthful K q' := by
  simp only [LastWritable, not_forall] at ha
  obtain ⟨i, vma, rfl, hv, hn⟩ := ha
  obtain ⟨vma', hv', rfl⟩ := Option.map_eq_some_iff.mp hs
  obtain rfl : vma = vma' := Option.some.inj (hv.symm.trans hv')
  have hnil := eraseIdx_eq_nil hv
  have hset := h.flag.mpr (ne_nil_of_getElem? hv)
  intro ht
  have hf := ht.flag
  unfold ubbdVmaClose at hf
  split at hf
  · rename_i hw
    simp only [Bool.false_eq_true, false_iff, not_not] at hf
    exact hn ⟨fun _ => hnil.mp hf, fun _ => hw⟩
  · rename_i hw
    simp only [hset, true_iff] at hf
    exact hn ⟨fun h => absurd h hw, fun h => absurd (hnil.mpr h) hf⟩

/-- Along every sequence of mmaps, copies and closes of mappings, the flag
tells the truth exactly when a writable mapping is closed only as the last
one and a read-only mapping only while another one is live. -/
theorem truthful_iff (K : KringMem) (as : List MmapLabel) :
    (mmapLts K).States (Truthful K) initMmapQueue as ↔
      (mmapLts K).Steps (fun q a _ => LastWritable q a) initMmapQueue as :=
  Lts.states_iff_steps (fun _ h => h) (fun _ _ _ h hs ha => mmapStep_truthful h hs ha)
    (fun _ _ _ h hs ha => mmapStep_untruthful h hs ha)
    (truthful_of_flag (by decide) fun _ => rfl) as

/-- A backend forks and its child exits: the mapping of the backend is live and
the flag clear, so that a second backend may map the queue. -/
theorem fork_exit_untruthful :
    ∃ q, (mmapLts ⟨0, 4, 12⟩).exec initMmapQueue [.mmap ⟨4, true⟩ 100, .openVma 0 4, .closeVma 1] = some q ∧
      q.vmas = [⟨4, true⟩] ∧ q.hasBackend = false ∧ q.backendPid = 0 ∧
      (∃ q', ubbdKringMmap ⟨0, 4, 12⟩ q ⟨4, true⟩ 200 = .ok q') ∧ ¬ Truthful ⟨0, 4, 12⟩ q := by
  refine ⟨_, rfl, rfl, rfl, rfl, ⟨_, rfl⟩, fun h => ?_⟩
  exact absurd (h.flag.mpr (by decide)) (by decide)

end Ubbd.Kring

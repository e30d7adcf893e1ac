import UbbdKernel.Pages.Counter

/-!
# The inode of a freed page's mappings

Before it frees a page, `ubbd_release_page` removes its mappings from the
inode that `ubbd_kring_dev_open` has recorded in the queue. The field is set
by every open and cleared by none, so it is the inode of the file that was
opened last (`Inv`), which may be closed by then, and NULL if there was none.

A page is freed only while more pages are allocated than reserved, and a
release never makes them more than that (`step_surplus`). So the inode is in
use at every release that frees a page if the counter exceeds the reserve only
while the file opened last is open: `KeptOpen` says this of the allocations,
the changes of the reserve and the closes, and `unmaps_live_of_keptOpen` of
the releases.
-/

namespace Ubbd.Inode

open Pages (Label step Page)

/-- A kring file of the queue: its inode, and what keeps it open, the file
descriptor and the mappings. -/
structure KFile where
  inode : Nat
  fd : Bool
  maps : Nat
  deriving DecidableEq

def KFile.isOpen (f : KFile) : Bool := f.fd || decide (0 < f.maps)

structure State (ι : Type) where
  calls : Pages.State ι
  /-- `ubbd_q->inode`. -/
  inode : Option Nat
  /-- The files that were opened. -/
  files : Nat → Option KFile
  /-- The file that was opened last. -/
  last : Option Nat

inductive Event (ι : Type)
  /-- A step of `ubbd_get_data_pages` or `ubbd_req_release`, from the worker, from a
  completion or from the removal of the disk. -/
  | call (a : Label ι)
  /-- `ubbd_kring_open` succeeds for file `f`. -/
  | openFile (f inode : Nat)
  /-- The descriptor of file `f` is closed. -/
  | close (f : Nat)
  /-- A mapping of file `f` is made, or copied. -/
  | map (f : Nat)
  | unmap (f : Nat)
  /-- `ubbd_dev_config` of `dp_reserve_percnt`. -/
  | config (percnt : Nat)

variable {ι : Type} [DecidableEq ι]

def State.setFile (s : State ι) (f : Nat) (file : KFile) : State ι :=
  { s with files := Function.update s.files f (some file) }

omit [DecidableEq ι] in
@[simp] theorem State.setFile_self (s : State ι) (f : Nat) (file : KFile) :
    (s.setFile f file).files f = some file := Function.update_self ..

omit [DecidableEq ι] in
theorem State.setFile_ne (s : State ι) {f g : Nat} (h : g ≠ f) (file : KFile) :
    (s.setFile f file).files g = s.files g := Function.update_of_ne h ..

def next (s : State ι) : Event ι → Option (State ι)
  | .call a => (step s.calls a).map fun c => { s with calls := c }
  | .openFile f inode =>
    if s.files f = none then
      some { s.setFile f ⟨inode, true, 0⟩ with
        inode := some inode
        last := some f }
    else none
  | .close f =>
    match s.files f with
    | some file => if file.fd then some (s.setFile f { file with fd := false }) else none
    | none => none
  | .map f =>
    match s.files f with
    | some file => if file.isOpen then some (s.setFile f { file with maps := file.maps + 1 }) else none
    | none => none
  | .unmap f =>
    match s.files f with
    | some file => if 0 < file.maps then some (s.setFile f { file with maps := file.maps - 1 }) else none
    | none => none
  | .config percnt =>
    if percnt > 100 then none
    else some { s with
      calls := s.calls.setPool { s.calls.pool with reserved := percnt * s.calls.pool.dataPages % 2 ^ 32 / 100 } }

def initState (ι : Type) (dataPages reserved : Nat) (live : Page → Bool) : State ι where
  calls := Pages.initState ι dataPages reserved live
  inode := none
  files := fun _ => none
  last := none

/-- Calls of any number of requests, and opens and closes of any number of files. -/
def lts (ι : Type) [DecidableEq ι] : Lts (State ι) (Event ι) where
  init s := ∃ n r l, s = initState ι n r l
  step := next

/-- The index that the step releases with `ubbd_release_page`. -/
def released (s : Pages.State ι) : Label ι → Option Nat
  | .undo i => if (s.reqs i).pc = .undo then (s.reqs i).pi.getLast? else none
  | .releaseOne i => if (s.reqs i).pc = .release then (s.reqs i).pi.head? else none
  | _ => none

/-- The step takes the freeing branch of `ubbd_release_page`, and unmaps the page
from the recorded inode. -/
def Unmaps (s : State ι) : Event ι → Prop
  | .call a => ∃ x, released s.calls a = some x ∧ s.calls.pool.allocated > s.calls.pool.reserved ∧
    (s.calls.pool.array (toULong (toInt32 x))).isSome
  | _ => False

/-- A file with this inode is open or mapped. -/
def LiveInode (s : State ι) (inode : Nat) : Prop := ∃ f file, s.files f = some file ∧ file.isOpen ∧ file.inode = inode

/-- The recorded inode is there, and in use. -/
def UnmapsLive (s : State ι) (e : Event ι) : Prop := Unmaps s e → ∃ inode, s.inode = some inode ∧ LiveInode s inode

/-- More pages are allocated than reserved. -/
def Surplus (s : State ι) : Prop := s.calls.pool.reserved < s.calls.pool.allocated

/-- A file has been opened, and the one opened last, or another with its inode, is
still open or mapped. -/
def LastLive (s : State ι) : Prop := ∃ f file, s.last = some f ∧ s.files f = some file ∧ LiveInode s file.inode

/-- The counter is set above the reserve, outside `pages_mutex`, and the reserve
below the counter, only while the file opened last is open or mapped; and it
stays so as long as the counter is above the reserve. -/
structure KeptOpen (s : State ι) (e : Event ι) (s' : State ι) : Prop where
  alloc : ∀ i n v, e = .call (.incStore i) → (s.calls.reqs i).pc = .incStore n v →
    s.calls.pool.reserved < Pages.inc32 v → LastLive s
  giveBack : ∀ i err v, e = .call (.decStore i) → (s.calls.reqs i).pc = .decStore err v →
    s.calls.pool.reserved < Pages.dec32 v → LastLive s
  config : ∀ percnt, e = .config percnt →
    percnt * s.calls.pool.dataPages % 2 ^ 32 / 100 < s.calls.pool.allocated → LastLive s
  close : ∀ f, e = .close f ∨ e = .unmap f → Surplus s → LastLive s'

/-- Pages that a release may free come with a file to unmap them from. -/
def Covered (s : State ι) : Prop := Surplus s → LastLive s

/-- A section of `ubbd_get_data_pages` takes no page out of the array. -/
theorem isSome_of_took {p p' : Pages.Pool} {newPage newPage' : Option Page} {ok : Bool} {x : Nat}
    (hn : p.dataPages < 2 ^ 32) (h : Pages.segSection p newPage ok = .took p' newPage' x) {k : Nat}
    (hk : (p.array k).isSome) : (p'.array k).isSome := by
  rcases (Pages.segSection_took hn h).array with ⟨-, harr, -⟩ | ⟨page, -, hnone, harr, -⟩
  · rw [harr]
    exact hk
  · rw [harr, Function.update_apply]
    split
    · rfl
    · exact hk

/-- `ubbd_release_page` takes a page out of the array exactly in its freeing branch. -/
theorem releaseSection_takes (p : Pages.Pool) (x : Nat) :
    (∃ k, (p.array k).isSome ∧ (Pages.releaseSection p x).array k = none) ↔
      p.allocated > p.reserved ∧ (p.array (toULong (toInt32 x))).isSome := by
  rcases Pages.releaseSection_cases p x with ⟨heq, hkeep⟩ | ⟨page, hgt, hpage, heq⟩
  · rw [heq]
    refine iff_of_false (fun ⟨k, hk, hnone⟩ => ?_) fun ⟨hgt, hsome⟩ => ?_
    · rw [show p.array k = none from hnone] at hk
      cases hk
    · rcases hkeep with hle | hnone
      · omega
      · rw [hnone] at hsome
        cases hsome
  · rw [heq]
    refine iff_of_true ⟨_, ?_, Function.update_self ..⟩ ⟨hgt, ?_⟩ <;> rw [hpage] <;> rfl

/-- A step unmaps a page exactly when it takes one out of the array. -/
theorem unmaps_iff {s : State ι} {c : Pages.State ι} {a : Label ι} (hn : s.calls.pool.dataPages < 2 ^ 32)
    (h : step s.calls a = some c) :
    Unmaps s (.call a) ↔ ∃ k, (s.calls.pool.array k).isSome ∧ c.pool.array k = none := by
  have hkeep : ∀ a, (∀ x, released s.calls a ≠ some x) →
      (∀ k, (s.calls.pool.array k).isSome → (c.pool.array k).isSome) →
      (Unmaps s (.call a) ↔ ∃ k, (s.calls.pool.array k).isSome ∧ c.pool.array k = none) := by
    intro a hno hsome
    refine iff_of_false (fun ⟨x, hx, _⟩ => hno x hx) fun ⟨k, hk, hnone⟩ => ?_
    have := hsome k hk
    rw [hnone] at this
    cases this
  cases a with
  | seg i ok =>
    refine hkeep _ (fun x hx => by cases hx) fun k hk => ?_
    simp only [step] at h
    split at h <;> cases h
    cases hsec : Pages.segSection s.calls.pool (s.calls.reqs i).newPage ok with
    | took p newPage x => exact isSome_of_took hn hsec hk
    | _ => exact hk
  | undo i =>
    simp only [step] at h
    split at h <;> [skip; cases h]
    rename_i hpc
    split at h
    · rename_i hlast
      refine hkeep _ (fun x hx => ?_) fun k hk => ?_
      · rw [released, if_pos hpc, hlast] at hx
        cases hx
      · cases h
        exact hk
    · rename_i x hlast
      cases h
      refine Iff.trans ?_ (releaseSection_takes s.calls.pool x).symm
      simp [Unmaps, released, hpc, hlast]
  | releaseOne i =>
    simp only [step] at h
    split at h <;> [skip; cases h]
    rename_i hpc
    split at h
    · rename_i hlast
      refine hkeep _ (fun x hx => ?_) fun k hk => ?_
      · rw [released, if_pos hpc, hlast] at hx
        cases hx
      · cases h
        exact hk
    · rename_i x xs hlast
      cases h
      refine Iff.trans ?_ (releaseSection_takes s.calls.pool x).symm
      simp [Unmaps, released, hpc, hlast]
  | _ =>
    refine hkeep _ (fun x hx => by cases hx) fun k hk => ?_
    simp only [step] at h
    (repeat' split at h) <;> cases h <;> exact hk

/-! ## Runs -/

/-- The recorded inode is that of the file opened last. -/
def Inv (s : State ι) : Prop :=
  ∀ inode, s.inode = some inode ↔ ∃ f file, s.last = some f ∧ s.files f = some file ∧ file.inode = inode

omit [DecidableEq ι] in
theorem inv_init (n reserved : Nat) (live : Page → Bool) : Inv (initState ι n reserved live) := by
  intro inode
  exact iff_of_false (fun h => by cases h) fun ⟨f, file, h, _⟩ => by cases h

omit [DecidableEq ι] in
/-- Closing, mapping and unmapping a file keep its inode. -/
theorem Inv.setFile {s : State ι} (h : Inv s) {f : Nat} {file file' : KFile} (hf : s.files f = some file)
    (hinode : file'.inode = file.inode) : Inv (s.setFile f file') := by
  intro inode
  refine (h inode).trans ⟨fun ⟨g, x, hg, hx, hi⟩ => ?_, fun ⟨g, x, hg, hx, hi⟩ => ?_⟩
  · by_cases hgf : g = f
    · subst hgf
      obtain rfl : file = x := Option.some.inj (hf.symm.trans hx)
      exact ⟨g, file', hg, s.setFile_self g file', hinode.trans hi⟩
    · exact ⟨g, x, hg, (s.setFile_ne hgf file').trans hx, hi⟩
  · by_cases hgf : g = f
    · subst hgf
      obtain rfl : file' = x := Option.some.inj ((s.setFile_self g file').symm.trans hx)
      exact ⟨g, file, hg, hf, hinode.symm.trans hi⟩
    · exact ⟨g, x, hg, (s.setFile_ne hgf file').symm.trans hx, hi⟩

theorem Inv.next {s s' : State ι} {e : Event ι} (h : Inv s) (hs : next s e = some s') : Inv s' := by
  cases e with
  | call a =>
    obtain ⟨c, -, rfl⟩ := Option.map_eq_some_iff.mp hs
    exact h
  | openFile f inode =>
    simp only [Inode.next] at hs
    split at hs <;> cases hs
    intro inode'
    refine ⟨fun hi => ⟨f, ⟨inode, true, 0⟩, rfl, s.setFile_self f _, Option.some.inj hi⟩, ?_⟩
    rintro ⟨g, x, hg, hx, rfl⟩
    obtain rfl := Option.some.inj hg
    obtain rfl := Option.some.inj ((s.setFile_self f _).symm.trans hx)
    rfl
  | close f =>
    simp only [Inode.next] at hs
    split at hs <;> [skip; cases hs]
    rename_i file hf
    split at hs <;> cases hs
    exact h.setFile hf rfl
  | map f =>
    simp only [Inode.next] at hs
    split at hs <;> [skip; cases hs]
    rename_i file hf
    split at hs <;> cases hs
    exact h.setFile hf rfl
  | unmap f =>
    simp only [Inode.next] at hs
    split at hs <;> [skip; cases hs]
    rename_i file hf
    split at hs <;> cases hs
    exact h.setFile hf rfl
  | config percnt =>
    simp only [Inode.next] at hs
    split at hs <;> cases hs
    exact h

omit [DecidableEq ι] in
theorem Inv.live {s : State ι} (h : Inv s) (hl : LastLive s) : ∃ inode, s.inode = some inode ∧ LiveInode s inode := by
  obtain ⟨f, file, hlast, hf, hlive⟩ := hl
  exact ⟨file.inode, (h file.inode).mpr ⟨f, file, hlast, hf, rfl⟩, hlive⟩

/-! ## The counter and the reserve -/

/-- Of the steps of the calls, only a store of the counter outside the mutex can
set it above the reserve. -/
theorem step_surplus {s c : Pages.State ι} {a : Label ι} (h : step s a = some c) :
    c.pool.reserved = s.pool.reserved ∧
      ((∃ i n v, a = .incStore i ∧ (s.reqs i).pc = .incStore n v ∧ c.pool.allocated = Pages.inc32 v) ∨
        (∃ i err v, a = .decStore i ∧ (s.reqs i).pc = .decStore err v ∧ c.pool.allocated = Pages.dec32 v) ∨
        c.pool.allocated = s.pool.allocated ∨ s.pool.reserved < s.pool.allocated) := by
  have hrelease : ∀ x, (Pages.releaseSection s.pool x).reserved = s.pool.reserved ∧
      ((Pages.releaseSection s.pool x).allocated = s.pool.allocated ∨ s.pool.reserved < s.pool.allocated) := by
    intro x
    rcases Pages.releaseSection_cases s.pool x with ⟨heq, -⟩ | ⟨page, hgt, -, heq⟩
    · rw [heq]
      exact ⟨rfl, .inl rfl⟩
    · rw [heq]
      exact ⟨rfl, .inr hgt⟩
  cases a with
  | seg i ok =>
    simp only [step] at h
    split at h <;> cases h
    cases hsec : Pages.segSection s.pool (s.reqs i).newPage ok with
    | took p newPage x =>
      obtain ⟨hall, hres⟩ := Pages.segSection_counter hsec
      exact ⟨hres, .inr (.inr (.inl hall))⟩
    | _ => exact ⟨rfl, .inr (.inr (.inl rfl))⟩
  | incStore i =>
    simp only [step] at h
    split at h <;> cases h
    rename_i n v hpc
    exact ⟨rfl, .inl ⟨i, n, v, rfl, hpc, rfl⟩⟩
  | decStore i =>
    simp only [step] at h
    split at h <;> cases h
    rename_i err v hpc
    exact ⟨rfl, .inr (.inl ⟨i, err, v, rfl, hpc, rfl⟩)⟩
  | undo i | releaseOne i =>
    simp only [step] at h
    split at h <;> [skip; cases h]
    split at h <;> cases h
    · exact ⟨rfl, .inr (.inr (.inl rfl))⟩
    · exact ⟨(hrelease _).1, .inr (.inr (hrelease _).2)⟩
  | _ =>
    simp only [step] at h
    (repeat' split at h) <;> cases h <;> exact ⟨rfl, .inr (.inr (.inl rfl))⟩

omit [DecidableEq ι] in
/-- Mapping a file, or opening one, leaves the file opened last open. -/
theorem LastLive.setFile {s : State ι} (h : LastLive s) {f : Nat} {file file' : KFile} (hf : s.files f = some file)
    (hinode : file'.inode = file.inode) (hopen : file'.isOpen) : LastLive (s.setFile f file') := by
  obtain ⟨g, x, hlast, hx, k, y, hy, hyo, hyi⟩ := h
  have hfiles : ∀ {g x}, s.files g = some x → ∃ x', (s.setFile f file').files g = some x' ∧ x'.inode = x.inode ∧
      (x.isOpen → x'.isOpen) := by
    intro g x hx
    by_cases hgf : g = f
    · subst hgf
      obtain rfl : file = x := Option.some.inj (hf.symm.trans hx)
      exact ⟨file', s.setFile_self g file', hinode, fun _ => hopen⟩
    · exact ⟨x, (s.setFile_ne hgf file').trans hx, rfl, id⟩
  obtain ⟨x', hx', hxi', -⟩ := hfiles hx
  obtain ⟨y', hy', hyi', hyo'⟩ := hfiles hy
  exact ⟨g, x', hlast, hx', k, y', hy', hyo' hyo, hyi'.trans (hyi.trans hxi'.symm)⟩

omit [DecidableEq ι] in
theorem lastLive_openFile (s : State ι) (f inode : Nat) :
    LastLive { s.setFile f ⟨inode, true, 0⟩ with inode := some inode, last := some f } :=
  ⟨f, ⟨inode, true, 0⟩, rfl, s.setFile_self f _, f, ⟨inode, true, 0⟩, s.setFile_self f _, rfl, rfl⟩

omit [DecidableEq ι] in
/-- The steps of the files need no more than the last condition. -/
theorem KeptOpen.of_files {s s' : State ι} {e : Event ι} (hcall : ∀ a, e ≠ .call a) (hconfig : ∀ p, e ≠ .config p)
    (hclose : ∀ f, e = .close f ∨ e = .unmap f → Surplus s → LastLive s') : KeptOpen s e s' where
  alloc _ _ _ he := absurd he (hcall _)
  giveBack _ _ _ he := absurd he (hcall _)
  config p he := absurd he (hconfig p)
  close := hclose

omit [DecidableEq ι] in
theorem covered_iff_of_close {s s' : State ι} {e : Event ι} {f : Nat} (he : e = .close f ∨ e = .unmap f)
    (hsur : Surplus s' ↔ Surplus s) : Covered s' ↔ KeptOpen s e s' := by
  constructor
  · intro hcov
    refine .of_files (fun a ha => ?_) (fun p hp => ?_) fun _ _ hs => hcov (hsur.mpr hs)
    · rcases he with rfl | rfl <;> cases ha
    · rcases he with rfl | rfl <;> cases hp
  · intro hk hs
    exact hk.close f he (hsur.mp hs)

/-- The steps that are kept open keep the surplus covered, and no others do. -/
theorem next_covered {s s' : State ι} {e : Event ι} (h : Covered s) (hs : next s e = some s') :
    Covered s' ↔ KeptOpen s e s' := by
  cases e with
  | call a =>
    obtain ⟨c, hc, rfl⟩ := Option.map_eq_some_iff.mp hs
    obtain ⟨hres, hcount⟩ := step_surplus hc
    constructor
    · intro hcov
      constructor
      · intro i n v he hpc hlt
        cases he
        simp only [step, hpc] at hc
        cases hc
        exact hcov hlt
      · intro i err v he hpc hlt
        cases he
        simp only [step, hpc] at hc
        cases hc
        exact hcov hlt
      · intro p he
        cases he
      · rintro f (he | he) <;> cases he
    · intro hk hsur
      have hsur : c.pool.reserved < c.pool.allocated := hsur
      rw [hres] at hsur
      show LastLive s
      rcases hcount with ⟨i, n, v, rfl, hpc, hall⟩ | ⟨i, err, v, rfl, hpc, hall⟩ | hall | hgt
      · exact hk.alloc i n v rfl hpc (hall ▸ hsur)
      · exact hk.giveBack i err v rfl hpc (hall ▸ hsur)
      · rw [hall] at hsur
        exact h hsur
      · exact h hgt
  | openFile f inode =>
    simp only [Inode.next] at hs
    split at hs <;> cases hs
    refine iff_of_true (fun _ => lastLive_openFile s f inode)
      (.of_files (fun a he => by cases he) (fun p he => by cases he) ?_)
    rintro g (he | he) <;> cases he
  | close f =>
    simp only [Inode.next] at hs
    split at hs <;> [skip; cases hs]
    split at hs <;> cases hs
    exact covered_iff_of_close (.inl rfl) .rfl
  | unmap f =>
    simp only [Inode.next] at hs
    split at hs <;> [skip; cases hs]
    split at hs <;> cases hs
    exact covered_iff_of_close (.inr rfl) .rfl
  | map f =>
    simp only [Inode.next] at hs
    split at hs <;> [skip; cases hs]
    rename_i file hf
    split at hs <;> cases hs
    refine iff_of_true (fun hsur => (h hsur).setFile hf rfl (by simp [KFile.isOpen]))
      (.of_files (fun a he => by cases he) (fun p he => by cases he) ?_)
    rintro g (he | he) <;> cases he
  | config percnt =>
    simp only [Inode.next] at hs
    split at hs <;> cases hs
    constructor
    · intro hcov
      constructor
      · intro i n v he
        cases he
      · intro i err v he
        cases he
      · intro p he hlt
        cases he
        exact hcov hlt
      · rintro f (he | he) <;> cases he
    · exact fun hk hsur => hk.config percnt rfl hsur

omit [DecidableEq ι] in
/-- A release that frees a page finds the file opened last open. -/
theorem unmapsLive_of_covered {s : State ι} (hi : Inv s) (hc : Covered s) (e : Event ι) : UnmapsLive s e := by
  intro hu
  cases e with
  | call a =>
    obtain ⟨x, -, hgt, -⟩ := hu
    exact hi.live (hc hgt)
  | _ => exact hu.elim

/-- In every run, for any number of requests and files: the pages in excess of the
reserve are covered in every state exactly when all steps are kept open, and
then every page that is freed is unmapped from an inode in use. -/
theorem unmaps_live_of_keptOpen (dataPages reserved : Nat) (live : Page → Bool) (es : List (Event ι)) :
    ((lts ι).States Covered (initState ι dataPages reserved live) es ↔
        (lts ι).Steps KeptOpen (initState ι dataPages reserved live) es) ∧
      ((lts ι).Steps KeptOpen (initState ι dataPages reserved live) es →
        (lts ι).Steps (fun s e _ => UnmapsLive s e) (initState ι dataPages reserved live) es) := by
  have hinit : Covered (initState ι dataPages reserved live) := fun h => absurd h (Nat.not_lt_zero _)
  constructor
  · exact Lts.states_iff_steps (I := Covered) (fun _ h => h) (fun s e s' h hs hk => (next_covered h hs).mpr hk)
      (fun s e s' h hs hk hc => hk ((next_covered h hs).mp hc)) hinit es
  · intro h
    refine Lts.steps_of_steps (I := fun s => Inv s ∧ Covered s) (fun s e s' hi hs hk => ?_)
      ⟨inv_init dataPages reserved live, hinit⟩ h
    exact ⟨⟨hi.1.next hs, (next_covered hi.2 hs).mpr hk⟩, unmapsLive_of_covered hi.1 hi.2 e⟩

omit [DecidableEq ι] in
theorem KeptOpen.of_call {s s' : State ι} {a : Label ι} (hinc : ∀ i, a ≠ .incStore i) (hdec : ∀ i, a ≠ .decStore i) :
    KeptOpen s (.call a) s' where
  alloc i _ _ he := absurd (Event.call.inj he) (hinc i)
  giveBack i _ _ he := absurd (Event.call.inj he) (hdec i)
  config _ he := by cases he
  close _ he := by rcases he with he | he <;> cases he

/-- A backend opens the kring file, a request takes the one data page and gives it
back, and the backend closes the file. -/
def oneRelease : List (Event Nat) :=
  .openFile 0 5 :: ([.get 0 1, .seg 0 true, .alloc 0 (some 7), .incLoad 0, .incStore 0, .seg 0 true, .out 0, .release 0,
    .releaseOne 0].map .call ++ [.close 0])

/-- The page is freed while the file is open. -/
theorem unmaps_live_of_keptOpen_one :
    (lts Nat).Steps (fun s e _ => UnmapsLive s e) (initState Nat 1 0 fun _ => false) oneRelease ∧
      ∃ s, (lts Nat).exec (initState Nat 1 0 fun _ => false) (oneRelease.take 9) = some s ∧
        Unmaps s (.call (.releaseOne 0)) := by
  refine ⟨(unmaps_live_of_keptOpen 1 0 (fun _ => false) oneRelease).2 ?_, _, rfl, 0, rfl, by decide, rfl⟩
  unfold oneRelease
  refine Lts.Steps.cons rfl (.of_files (fun a he => by cases he) (fun p he => by cases he) ?_) ?_
  · rintro f (he | he) <;> cases he
  iterate 4 refine Lts.Steps.cons rfl (.of_call (fun _ he => by cases he) fun _ he => by cases he) ?_
  refine Lts.Steps.cons rfl ⟨fun _ _ _ _ _ _ => ?_, fun _ _ _ he => (by cases he), fun _ he => (by cases he), ?_⟩ ?_
  · exact ⟨0, ⟨5, true, 0⟩, rfl, rfl, 0, ⟨5, true, 0⟩, rfl, rfl, rfl⟩
  · rintro f (he | he) <;> cases he
  iterate 4 refine Lts.Steps.cons rfl (.of_call (fun _ he => by cases he) fun _ he => by cases he) ?_
  refine Lts.Steps.cons rfl (.of_files (fun a he => by cases he) (fun p he => by cases he) ?_) trivial
  intro f _ hsur
  exact absurd hsur (Nat.lt_irrefl 0)

/-- A request of two segments, on a queue of one data page that no backend has
opened: its second segment finds no page, and the first one's is unmapped
from NULL. -/
theorem unwind_unmaps_null :
    ∃ s : State Nat, (lts Nat).exec (initState Nat 1 0 fun _ => false)
        ([.get 0 2, .seg 0 true, .alloc 0 (some 0), .incLoad 0, .incStore 0, .seg 0 true, .seg 0 true,
          .out 0].map .call) = some s ∧
      Unmaps s (.call (.undo 0)) ∧ s.inode = none ∧ ¬ UnmapsLive s (.call (.undo 0)) ∧
      (next s (.call (.undo 0))).isSome := by
  refine ⟨_, rfl, ⟨0, rfl, by decide, rfl⟩, rfl, fun h => ?_, rfl⟩
  obtain ⟨inode, hi, -⟩ := h ⟨0, rfl, by decide, rfl⟩
  cases hi

end Ubbd.Inode

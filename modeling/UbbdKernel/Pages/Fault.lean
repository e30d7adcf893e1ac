import Mathlib.Logic.Function.Basic
import Mathlib.Tactic.Common
import UbbdKernel.Basic
import UbbdKernel.Framework.Lts
import UbbdKernel.Pages.Address
import UbbdKernel.Pages.Model

/-!
# Page faults of the backend

The backend maps the data pages of a queue by faulting on their offsets
(`ubbd_vma_fault`): the page is loaded from `data_pages_array`, a reference
is taken, and the mapping is installed, all without `pages_mutex`.
`ubbd_release_page` holds the mutex while it removes the mappings of the
index, erases the page from the array and frees it.

`Coherent` says that a freed page is not left mapped: once its release has
returned and the faults that had begun by then are finished, no mapping of
its index refers to it, so that the backend sees the page of the array. A
fault that loads the page before it is erased and installs it after the
mappings were removed leaves it mapped (`stale_mapping`). The offset whose
mappings are removed is that of the index only as far as `Address.agree_iff`
says: index 0, or pages of 4096 bytes and `page_index * 4096` that fits an
`int`, with `data_off` a whole number of pages. In the runs where nothing of
this happens, `Coherent` holds throughout (`coherent_of_quiet`).
-/

namespace Ubbd.Fault

open Address (Geometry)
open Pages (Page)

/-- Where a fault is; each has a number of its own. -/
inductive FaultState
  | notBegun
  | begun (pgoff : Nat)
  /-- `xa_load` returned the page. -/
  | loaded (pgoff : Nat) (page : Page)
  /-- `get_page` is done. -/
  | got (pgoff : Nat) (page : Page)
  | done
  deriving DecidableEq

def FaultState.inProgress : FaultState → Bool
  | .notBegun | .done => false
  | _ => true

/-- Where the release that holds `pages_mutex` is. -/
inductive Stage
  | unmap | erase | free | unlock
  deriving DecidableEq

structure Release where
  /-- The index in the request's slot. -/
  pi : Nat
  page : Page
  stage : Stage

/-- A page that was freed by a release that has returned, and the faults that
were in progress at that moment. -/
structure Freed where
  pi : Nat
  page : Page
  before : Nat → Bool

structure State where
  bitmap : Nat → Bool
  array : Nat → Option Page
  /-- The pages mapped at an offset of the file, in pages. -/
  maps : Nat → List Page
  /-- The pages allocated so far; each allocation counts as a page of its own. -/
  used : Page → Bool
  release : Option Release
  faults : Nat → FaultState
  freed : List Freed

def initState : State where
  bitmap := fun _ => false
  array := fun _ => none
  maps := fun _ => []
  used := fun _ => false
  release := none
  faults := fun _ => .notBegun
  freed := []

variable (g : Geometry)

/-- The index in the array of a slot's index, which is passed as an `int`. -/
def arrayIndex (pi : Nat) : Nat := toULong (toInt32 pi)

inductive Label
  /-- `ubbd_get_data_pages` takes index `i`, with page `p` if it has none. -/
  | take (i : Nat) (p : Page)
  /-- `ubbd_release_page` takes the mutex and clears the bit; `surplus`: there are
  more pages than are reserved. -/
  | release (pi : Nat) (surplus : Bool)
  | unmap
  | erase
  | free
  /-- The release drops the mutex and returns. -/
  | unlock
  /-- Fault `j` begins, at an offset of the data pages. -/
  | fault (j pgoff : Nat)
  | load (j : Nat)
  | getPage (j : Nat)
  | install (j : Nat)

def State.setFault (s : State) (j : Nat) (f : FaultState) : State :=
  { s with faults := Function.update s.faults j f }

def step (s : State) : Label → Option State
  | .take i p =>
    if s.release.isNone ∧ s.bitmap i = false then
      match s.array i with
      | some _ => some { s with bitmap := Function.update s.bitmap i true }
      | none =>
        if s.used p then none
        else some { s with
          bitmap := Function.update s.bitmap i true
          array := Function.update s.array i (some p)
          used := Function.update s.used p true }
    else none
  | .release pi surplus =>
    if s.release.isNone ∧ pi < 2 ^ 32 then
      let s := { s with bitmap := Pages.clearBit s.bitmap (toInt32 pi) }
      match s.array (arrayIndex pi) with
      | some page => if surplus then some { s with release := some ⟨pi, page, .unmap⟩ } else some s
      | none => some s
    else none
  | .unmap =>
    match s.release with
    | some ⟨pi, page, .unmap⟩ =>
      some { s with
        maps := Function.update s.maps (g.page (g.releaseOff pi)) []
        release := some ⟨pi, page, .erase⟩ }
    | _ => none
  | .erase =>
    match s.release with
    | some ⟨pi, page, .erase⟩ =>
      some { s with
        array := Function.update s.array (arrayIndex pi) none
        release := some ⟨pi, page, .free⟩ }
    | _ => none
  | .free =>
    match s.release with
    | some ⟨pi, page, .free⟩ => some { s with release := some ⟨pi, page, .unlock⟩ }
    | _ => none
  | .unlock =>
    match s.release with
    | some ⟨pi, page, .unlock⟩ =>
      some { s with
        release := none
        freed := ⟨pi, page, fun j => (s.faults j).inProgress⟩ :: s.freed }
    | _ => none
  | .fault j pgoff =>
    if s.faults j = .notBegun ∧ (g.faultIndex pgoff).isSome then some (s.setFault j (.begun pgoff)) else none
  | .load j =>
    match s.faults j with
    | .begun pgoff =>
      match (g.faultIndex pgoff).bind s.array with
      | some page => some (s.setFault j (.loaded pgoff page))
      -- `VM_FAULT_SIGBUS`
      | none => some (s.setFault j .done)
    | _ => none
  | .getPage j =>
    match s.faults j with
    | .loaded pgoff page => some (s.setFault j (.got pgoff page))
    | _ => none
  | .install j =>
    match s.faults j with
    | .got pgoff page =>
      some ({ s with maps := Function.update s.maps pgoff (page :: s.maps pgoff) }.setFault j .done)
    | _ => none

def lts : Lts State Label where
  init s := s = initState
  step := step g

/-! ## What is to hold -/

/-- A release of index `i` holds the mutex. -/
def Releasing (s : State) (i : Nat) : Prop := ∃ r, s.release = some r ∧ r.pi = i

/-- A freed page is not mapped at its index once its release has returned and the
faults that had begun by then are finished; so the backend then sees the page
that the kernel copies from and to. -/
structure Coherent (s : State) : Prop where
  freed : ∀ r ∈ s.freed, (∀ j, r.before j = true → s.faults j = .done) →
    r.page ∉ s.maps (g.dataPgoff r.pi)
  seen : ∀ i < 2 ^ 32, ∀ p q, s.array i = some p → q ∈ s.maps (g.dataPgoff i) → ¬ Releasing s i →
    (∀ r ∈ s.freed, r.pi = i → ∀ j, r.before j = true → s.faults j = .done) → q = p

/-- A fault on the data offset of index `i` has loaded its page and not
installed it. -/
def Faulting (s : State) (i j : Nat) : Prop :=
  ∃ p, s.faults j = .loaded (g.dataPgoff i) p ∨ s.faults j = .got (g.dataPgoff i) p

/-- When the mappings of an index are removed, no fault on it has loaded the
page and not installed it, and nothing is mapped there unless `data_off` is a
whole number of pages and the index is 0, or pages have 4096 bytes and its
offset fits an `int`; and no fault loads the page between the removal of its
mappings and its erasure. -/
structure Quiet (s : State) (a : Label) : Prop where
  unmap : ∀ r, a = .unmap → s.release = some r → ∀ j, ¬ Faulting g s r.pi j
  index : ∀ r, a = .unmap → s.release = some r →
    (g.pageSize ∣ g.dataOff ∧ (r.pi = 0 ∨ g.pageSize = 4096 ∧ r.pi < 2 ^ 19)) ∨ s.maps (g.dataPgoff r.pi) = []
  load : ∀ j i, a = .load j → s.faults j = .begun (g.dataPgoff i) →
    ∀ p, s.release ≠ some ⟨i, p, .erase⟩

/-! ## Offsets and indices -/

variable {g}

/-- An index that a slot and a fault name alike. -/
theorem arrayIndex_eq {pi : Nat} (h : pi < 2 ^ 32) (ha : arrayIndex pi < 2 ^ 32) : arrayIndex pi = pi := by
  unfold arrayIndex toULong toInt32 at *
  split at ha <;> split <;> omega

/-! ## The invariant -/

/-- A page that has left the array for good. -/
def Gone (s : State) (p : Page) : Prop := s.used p = true ∧ ∀ i, s.array i ≠ some p

structure Inv (g : Geometry) (s : State) : Prop where
  maps : ∀ i < 2 ^ 32, ∀ q ∈ s.maps (g.dataPgoff i), s.array i = some q
  faults : ∀ i < 2 ^ 32, ∀ j q, s.faults j = .loaded (g.dataPgoff i) q ∨
    s.faults j = .got (g.dataPgoff i) q → s.array i = some q
  used : ∀ i p, s.array i = some p → s.used p = true
  inj : ∀ i i' p, s.array i = some p → s.array i' = some p → i = i'
  held : ∀ r, s.release = some r → r.pi < 2 ^ 32 ∧
    if r.stage = .unmap ∨ r.stage = .erase then s.array (arrayIndex r.pi) = some r.page else Gone s r.page
  /-- The mappings are removed, the page is still in the array. -/
  unmapped : ∀ r, s.release = some r → r.stage = .erase →
    s.maps (g.dataPgoff r.pi) = [] ∧ ∀ j, ¬ Faulting g s r.pi j
  freed : ∀ r ∈ s.freed, r.pi < 2 ^ 32 ∧ Gone s r.page

theorem initState_inv : Inv g initState :=
  ⟨nofun, nofun, nofun, nofun, nofun, nofun, nofun⟩

theorem Inv.coherent {s : State} (h : Inv g s) : Coherent g s where
  freed r hr _ hm := (h.freed r hr).2.2 r.pi (h.maps r.pi (h.freed r hr).1 r.page hm)
  seen i hi p q hp hq _ _ := by
    have := h.maps i hi q hq
    rw [hp] at this
    exact (Option.some.inj this).symm

/-- A fault moves on. -/
theorem Inv.setFault {s : State} (h : Inv g s) {j : Nat} {f : FaultState}
    (hf : ∀ i < 2 ^ 32, ∀ q, f = .loaded (g.dataPgoff i) q ∨ f = .got (g.dataPgoff i) q →
      s.array i = some q)
    (hu : ∀ r q, s.release = some r → r.stage = .erase →
      f ≠ .loaded (g.dataPgoff r.pi) q ∧ f ≠ .got (g.dataPgoff r.pi) q) :
    Inv g (s.setFault j f) := by
  have faults : ∀ k, (s.setFault j f).faults k = if k = j then f else s.faults k := fun k => by
    simp [State.setFault, Function.update_apply]
  refine { h with faults := fun i hi k q hk => ?_, unmapped := fun r hr hst => ?_ }
  · rw [faults] at hk
    split at hk
    · exact hf i hi q hk
    · exact h.faults i hi k q hk
  · obtain ⟨hm, hno⟩ := h.unmapped r hr hst
    refine ⟨hm, fun k ⟨q, hk⟩ => ?_⟩
    rw [faults] at hk
    split at hk
    · rcases hk with hk | hk
      · exact (hu r q hr hst).1 hk
      · exact (hu r q hr hst).2 hk
    · exact hno k ⟨q, hk⟩

/-- Index `i` takes a fresh page. -/
theorem Inv.take {s : State} (h : Inv g s) {i : Nat} {p : Page} (hr : s.release = none)
    (hi : s.array i = none) (hp : s.used p = false) (b : Nat → Bool) :
    Inv g { s with
      bitmap := b
      array := Function.update s.array i (some p)
      used := Function.update s.used p true } := by
  have array : ∀ {k q}, s.array k = some q → Function.update s.array i (some p) k = some q := by
    intro k q hq
    rw [Function.update_of_ne _, hq]
    rintro rfl
    rw [hi] at hq
    cases hq
  have inv : ∀ {k q}, Function.update s.array i (some p) k = some q → (k = i ∧ q = p) ∨ s.array k = some q := by
    intro k q hq
    rw [Function.update_apply] at hq
    split at hq
    · rename_i hk
      exact .inl ⟨hk, (Option.some.inj hq).symm⟩
    · exact .inr hq
  have fresh : ∀ {k}, s.array k ≠ some p := fun {k} hk => by
    rw [h.used k p hk] at hp
    cases hp
  have used : ∀ q, s.used q = true → Function.update s.used p true q = true := fun q hq => by
    rw [Function.update_apply]
    split
    · rfl
    · exact hq
  refine ⟨fun k hk q hq => array (h.maps k hk q hq), fun k hk j q hq => array (h.faults k hk j q hq),
    fun k q hq => ?_, fun k k' q hq hq' => ?_, fun r hr' => ?_, fun r hr' => ?_, fun r hr' => ?_⟩
  · rcases inv hq with ⟨-, rfl⟩ | hq
    · exact Function.update_self ..
    · exact used q (h.used k q hq)
  · rcases inv hq with ⟨hk, hqp⟩ | hold <;> rcases inv hq' with ⟨hk', hqp'⟩ | hold'
    · rw [hk, hk']
    · exact absurd (hqp ▸ hold') fresh
    · exact absurd (hqp' ▸ hold) fresh
    · exact h.inj k k' q hold hold'
  · rw [show s.release = some r from hr'] at hr
    cases hr
  · rw [show s.release = some r from hr'] at hr
    cases hr
  · obtain ⟨hlt, hu, hn⟩ := h.freed r hr'
    refine ⟨hlt, used _ hu, fun k hk => ?_⟩
    rcases inv hk with ⟨-, e⟩ | hk
    · rw [e, hp] at hu
      cases hu
    · exact hn k hk

/-- The page of the release leaves the array. -/
theorem Inv.erase {s : State} (h : Inv g s) {pi : Nat} {page : Page}
    (hr : s.release = some ⟨pi, page, .erase⟩) :
    Inv g { s with array := Function.update s.array (arrayIndex pi) none, release := some ⟨pi, page, .free⟩ } := by
  obtain ⟨hlt, hpage⟩ := h.held _ hr
  rw [if_pos (.inr rfl)] at hpage
  simp only at hlt hpage
  obtain ⟨hmaps, hfaults⟩ := h.unmapped _ hr rfl
  have array : ∀ {k q}, k ≠ arrayIndex pi → s.array k = some q →
      Function.update s.array (arrayIndex pi) none k = some q := fun hk hq => by
    rw [Function.update_of_ne hk, hq]
  have inv : ∀ {k q}, Function.update s.array (arrayIndex pi) none k = some q → s.array k = some q := by
    intro k q hq
    rw [Function.update_apply] at hq
    split at hq
    · cases hq
    · exact hq
  have gone : ∀ {q}, Gone s q → Gone { s with
      array := Function.update s.array (arrayIndex pi) none, release := some ⟨pi, page, .free⟩ } q :=
    fun hq => ⟨hq.1, fun k hk => hq.2 k (inv hk)⟩
  refine ⟨fun k hk q hq => ?_, fun k hk j q hq => ?_, fun k q hq => h.used k q (inv hq),
    fun k k' q hq hq' => h.inj k k' q (inv hq) (inv hq'), fun r hr' => ?_, fun r hr' hst => ?_,
    fun r hr' => ⟨(h.freed r hr').1, gone (h.freed r hr').2⟩⟩
  · -- nothing is mapped at the index that is erased
    refine array (fun e => ?_) (h.maps k hk q hq)
    subst e
    rw [arrayIndex_eq hlt hk] at hq
    exact absurd (hmaps ▸ hq) List.not_mem_nil
  · refine array (fun e => ?_) (h.faults k hk j q hq)
    subst e
    rw [arrayIndex_eq hlt hk] at hq
    exact hfaults j ⟨q, hq⟩
  · cases hr'
    refine ⟨hlt, ?_⟩
    rw [if_neg (by simp)]
    refine ⟨h.used _ _ hpage, fun k hk => ?_⟩
    have hk' : k ≠ arrayIndex pi := fun e => by
      subst e
      simp at hk
    exact hk' (h.inj k _ page (inv hk) hpage)
  · cases hr'
    cases hst

/-- The mappings of the index are removed. -/
theorem Inv.unmap {s : State} (h : Inv g s) {pi : Nat} {page : Page}
    (hr : s.release = some ⟨pi, page, .unmap⟩) (hq : Quiet g s .unmap) :
    Inv g { s with
      maps := Function.update s.maps (g.page (g.releaseOff pi)) []
      release := some ⟨pi, page, .erase⟩ } := by
  have maps : ∀ {k q}, q ∈ Function.update s.maps (g.page (g.releaseOff pi)) [] k → q ∈ s.maps k := by
    intro k q hq
    rw [Function.update_apply] at hq
    split at hq
    · cases hq
    · exact hq
  refine ⟨fun k hk q hq => h.maps k hk q (maps hq), h.faults, h.used, h.inj, fun r hr' => ?_, fun r hr' _ => ?_,
    h.freed⟩
  · cases hr'
    obtain ⟨hlt, hpage⟩ := h.held _ hr
    rw [if_pos (.inl rfl)] at hpage
    exact ⟨hlt, by rw [if_pos (.inr rfl)]; exact hpage⟩
  · cases hr'
    refine ⟨?_, hq.unmap ⟨pi, page, .unmap⟩ rfl hr⟩
    show Function.update s.maps (g.page (g.releaseOff pi)) [] (g.dataPgoff pi) = []
    rcases hq.index _ rfl hr with ⟨⟨q, hdvd⟩, hlt⟩ | hnil
    · rw [Address.page_releaseOff g (hdvd.trans (Nat.mul_comm ..)) hlt, Function.update_self]
    · rw [Function.update_apply, show s.maps (g.dataPgoff pi) = [] from hnil, ite_self]

/-- A fault maps its page, which is still that of the index. -/
theorem Inv.mapPage {s : State} (h : Inv g s) {j pgoff : Nat} {page : Page} (hj : s.faults j = .got pgoff page) :
    Inv g { s with maps := Function.update s.maps pgoff (page :: s.maps pgoff) } := by
  refine { h with maps := fun i hi q hq => ?_, unmapped := fun r hr hst => ⟨?_, (h.unmapped r hr hst).2⟩ }
  · simp only [Function.update_apply] at hq
    split at hq
    · rename_i e
      subst e
      rcases List.mem_cons.mp hq with rfl | hq
      · exact h.faults i hi j _ (.inr hj)
      · exact h.maps i hi q hq
    · exact h.maps i hi q hq
  · obtain ⟨hm, hno⟩ := h.unmapped r hr hst
    show Function.update s.maps pgoff _ (g.dataPgoff r.pi) = []
    have hne : g.dataPgoff r.pi ≠ pgoff := by
      rintro rfl
      exact hno j ⟨page, .inr hj⟩
    rw [Function.update_of_ne hne, hm]

theorem step_inv {s s' : State} {a : Label} (h : Inv g s) (hs : step g s a = some s') (hq : Quiet g s a) :
    Inv g s' := by
  cases a with
  | take i p =>
    simp only [step, Option.ite_none_right_eq_some, Option.isNone_iff_eq_none] at hs
    obtain ⟨⟨hr, -⟩, hs⟩ := hs
    split at hs
    · cases hs
      exact ⟨h.maps, h.faults, h.used, h.inj, h.held, h.unmapped, h.freed⟩
    · rename_i hi
      simp only [Option.ite_none_left_eq_some, Bool.not_eq_true, Option.some.injEq] at hs
      obtain ⟨hp, rfl⟩ := hs
      exact h.take hr hi hp _
  | release pi surplus =>
    simp only [step, Option.ite_none_right_eq_some, Option.isNone_iff_eq_none] at hs
    obtain ⟨⟨hr, hlt⟩, hs⟩ := hs
    have same : Inv g { s with bitmap := Pages.clearBit s.bitmap (toInt32 pi) } :=
      ⟨h.maps, h.faults, h.used, h.inj, h.held, h.unmapped, h.freed⟩
    split at hs
    · rename_i page hpage
      split at hs <;> cases hs
      · refine ⟨h.maps, h.faults, h.used, h.inj, fun r hr' => ?_, fun r hr' hst => ?_, h.freed⟩
        · cases hr'
          exact ⟨hlt, by rw [if_pos (.inl rfl)]; exact hpage⟩
        · cases hr'
          cases hst
      · exact same
    · cases hs
      exact same
  | unmap =>
    simp only [step] at hs
    split at hs <;> cases hs
    rename_i hr
    exact h.unmap hr hq
  | erase =>
    simp only [step] at hs
    split at hs <;> cases hs
    rename_i hr
    exact h.erase hr
  | free =>
    simp only [step] at hs
    split at hs <;> cases hs
    rename_i pi page hr
    refine ⟨h.maps, h.faults, h.used, h.inj, fun r hr' => ?_, fun r hr' hst => ?_, h.freed⟩
    · cases hr'
      obtain ⟨hlt, hgone⟩ := h.held _ hr
      rw [if_neg (by simp)] at hgone
      exact ⟨hlt, by rw [if_neg (by simp)]; exact hgone⟩
    · cases hr'
      cases hst
  | unlock =>
    simp only [step] at hs
    split at hs <;> cases hs
    rename_i pi page hr
    refine ⟨h.maps, h.faults, h.used, h.inj, nofun, nofun, fun r hr' => ?_⟩
    rcases List.mem_cons.mp hr' with rfl | hr'
    · obtain ⟨hlt, hgone⟩ := h.held _ hr
      rw [if_neg (by simp)] at hgone
      exact ⟨hlt, hgone⟩
    · exact h.freed r hr'
  | fault j pgoff =>
    simp only [step, Option.ite_none_right_eq_some, Option.some.injEq] at hs
    obtain ⟨-, rfl⟩ := hs
    exact h.setFault (fun i _ q e => by rcases e with e | e <;> cases e) (fun r q _ _ => ⟨nofun, nofun⟩)
  | load j =>
    simp only [step] at hs
    split at hs <;> [skip; cases hs]
    rename_i pgoff hj
    split at hs <;> cases hs
    · rename_i page hpage
      refine h.setFault (fun i hi q e => ?_) (fun r q hr hst => ⟨fun e => ?_, nofun⟩)
      · rcases e with e | e <;> cases e
        rw [Address.faultIndex_dataPgoff g hi] at hpage
        exact hpage
      · cases e
        refine hq.load j r.pi rfl hj r.page ?_
        rw [hr, ← hst]
    · exact h.setFault (fun i _ q e => by rcases e with e | e <;> cases e) (fun r q _ _ => ⟨nofun, nofun⟩)
  | getPage j =>
    simp only [step] at hs
    split at hs <;> cases hs
    rename_i pgoff page hj
    refine h.setFault (fun i hi q e => ?_) (fun r q hr hst => ⟨nofun, fun e => ?_⟩)
    · rcases e with e | e <;> cases e
      exact h.faults i hi j _ (.inl hj)
    · cases e
      exact (h.unmapped r hr hst).2 j ⟨_, .inl hj⟩
  | install j =>
    simp only [step] at hs
    split at hs <;> cases hs
    rename_i pgoff page hj
    exact (h.mapPage hj).setFault (fun i _ q e => by rcases e with e | e <;> cases e) (fun r q _ _ => ⟨nofun, nofun⟩)

/-- In every run of releases, takes and faults in which no fault is between its
load and the installation of its mapping when the mappings of its index are
removed, none loads the page between this and its erasure, and the removed
mappings are those of the index (`Quiet.index`), a freed page is never left
mapped. -/
theorem coherent_of_quiet (as : List Label)
    (h : (lts g).Steps (fun s a _ => Quiet g s a) initState as) :
    (lts g).States (Coherent g) initState as :=
  (Lts.states_of_steps (I := Inv g) (fun _ _ _ hi hs hq => step_inv hi hs hq) initState_inv h).mono
    fun _ hi => hi.coherent

/-- Pages of 4096 bytes and one page of rings, so that index 0 lies at page 1. -/
def onePage : Geometry := { Address.sample with dataOff := 4096, dataOff_lt := by decide }

@[simp] theorem onePage_dataPgoff : onePage.dataPgoff 0 = 1 := by decide

@[simp] theorem onePage_faultIndex : onePage.faultIndex 1 = some 0 := by decide

@[simp] theorem onePage_unmap : onePage.page (onePage.releaseOff 0) = 1 := by decide

@[simp] theorem arrayIndex_zero : arrayIndex 0 = 0 := by decide

theorem quiet_of_ne {s : State} {a : Label} (hu : a ≠ .unmap) (hl : ∀ j, a ≠ .load j) : Quiet g s a :=
  ⟨fun _ e => absurd e hu, fun _ e => absurd e hu, fun j _ e => absurd e (hl j)⟩

theorem quiet_load {s : State} {j : Nat} (h : s.release = none) : Quiet g s (.load j) :=
  ⟨nofun, nofun, fun _ _ _ _ p e => by rw [h] at e; cases e⟩

/-- Index 0 takes a page that the backend maps, and is released. -/
def releaseRun : List Label :=
  [.take 0 7, .fault 0 1, .load 0, .getPage 0, .install 0, .release 0 true, .unmap, .erase, .free, .unlock]

/-- The page is freed, and not mapped. -/
theorem coherent_of_quiet_release :
    (lts onePage).Steps (fun s a _ => Quiet onePage s a) initState releaseRun ∧
      ∃ s, (lts onePage).exec initState releaseRun = some s ∧ s.freed.map Freed.page = [7] ∧ s.maps 1 = [] ∧
        Coherent onePage s := by
  have h : (lts onePage).Steps (fun s a _ => Quiet onePage s a) initState releaseRun := by
    iterate 2 refine Lts.Steps.cons rfl (quiet_of_ne nofun nofun) ?_
    refine Lts.Steps.cons rfl (quiet_load rfl) ?_
    iterate 3 refine Lts.Steps.cons rfl (quiet_of_ne nofun nofun) ?_
    refine Lts.Steps.cons rfl ⟨fun r _ hr j hj => ?_, fun r _ hr => ?_, nofun⟩ ?_
    · obtain ⟨p, hp⟩ := hj
      by_cases hj0 : j = 0 <;> simp [hj0, State.setFault, initState] at hp
    · cases hr
      exact .inl (by decide)
    iterate 3 refine Lts.Steps.cons rfl (quiet_of_ne nofun nofun) ?_
    trivial
  obtain ⟨s, hs, hf, hm⟩ : ∃ s, (lts onePage).exec initState releaseRun = some s ∧
      s.freed.map Freed.page = [7] ∧ s.maps 1 = [] := by
    simp [Lts.exec, lts, step, initState, State.setFault, releaseRun]
  exact ⟨h, s, hs, hf, hm, (coherent_of_quiet _ h).last hs⟩

/-- The release of index `2 ^ 20` removes the mappings of index 0. -/
example : onePage.page (onePage.releaseOff (2 ^ 20)) = onePage.dataPgoff 0 := by decide

/-- A fault loads page 7 of index 0; the page is released and freed, and index 0
takes page 8; then the fault installs page 7. -/
theorem stale_mapping :
    ∃ s, (lts onePage).exec initState [.take 0 7, .fault 0 1, .load 0, .release 0 true, .unmap, .erase, .free,
        .unlock, .take 0 8, .getPage 0, .install 0] = some s ∧
      s.faults 0 = .done ∧ s.maps 1 = [7] ∧ s.array 0 = some 8 ∧ ¬ Coherent onePage s := by
  have h0 : Pages.clearBit (Function.update (fun _ => false) 0 true) (toInt32 0) 0 = false := by decide
  simp [Lts.exec, lts, step, initState, State.setFault, h0]
  intro h
  refine h.freed _ (List.mem_cons_self ..) (fun j hj => ?_) (List.mem_cons_self ..)
  by_cases hj0 : j = 0
  · simp [hj0]
  · simp [hj0, FaultState.inProgress] at hj

/-- Pages of 64 KiB and one page of rings. -/
def largePages : Geometry := ⟨16, 2 ^ 16, by decide, by decide, by decide⟩

/- Without any race: the release of index 1 removes the mappings of the page at
data offset 4096, which is in index 0, and leaves the freed page mapped. -/
example : ((lts largePages).exec initState [.take 1 7, .fault 0 2, .load 0, .getPage 0, .install 0, .release 1 true,
    .unmap, .erase, .free, .unlock]).map (fun s => (s.maps (largePages.dataPgoff 1), s.freed.map Freed.page)) =
      some ([7], [7]) := by decide

end Ubbd.Fault

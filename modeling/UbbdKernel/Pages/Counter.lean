import Mathlib.Data.Set.Card
import UbbdKernel.Pages.Calls
import UbbdKernel.Pages.Owner

/-!
# The count of allocated pages

`data_pages_allocated` is a plain `u32`. Under `pages_mutex` it is decremented
by `ubbd_release_page`; `ubbd_alloc_page` and `__ubbd_release_page` also change
it without the mutex, with a load and a store. `Counting` says once what a
step does to the counter, to the pages in the array and to the spare pages of
the calls. The counter is their number (`Counted`) as long as no store
overwrites an update made since its load, and none wraps
(`exact_of_undisturbed`); two increments that overlap lose one of the two
pages for good (`overlapping_increments`).
-/

namespace Ubbd.Pages

variable {ι : Type}

/-- The indices that have a page in the array. -/
def stored (p : Pool) : Set Nat := {k | (p.array k).isSome}

/-- The request has a spare page that is counted: `ubbd_alloc_page` has returned
it, and `__ubbd_release_page` has not returned. -/
def Held (r : Req) : Prop :=
  match r.pc with
  | .incLoad _ | .incStore _ _ => False
  | .decLoad _ | .decStore _ _ => True
  | _ => r.newPage.isSome

def holders (s : State ι) : Set ι := {i | Held (s.reqs i)}

/-- A request is between the load and the store of an update of the counter. -/
def Pc.inPair : Pc → Bool
  | .incStore _ _ | .decStore _ _ => true
  | _ => false

/-- The counter is the number of the pages in the array and of the spare pages,
unless an update is under way. -/
def Exact (s : State ι) : Prop :=
  (∀ i, (s.reqs i).pc.inPair = false) →
    (s.pool.allocated : ENat) = (stored s.pool).encard + (holders s).encard

/-- A store of the counter finds it as it was loaded, and not at its largest value
if it is an increment. -/
def Undisturbed (s : State ι) : Label ι → Prop
  | .incStore i => ∀ n v, (s.reqs i).pc = .incStore n v → s.pool.allocated = v ∧ v ≠ 2 ^ 32 - 1
  | .decStore i => ∀ err v, (s.reqs i).pc = .decStore err v → s.pool.allocated = v
  | _ => True

/-- Where a request has a spare page. -/
def SpareOk (r : Req) : Prop :=
  match r.pc with
  | .idle | .alloc _ | .decLoad _ | .decStore _ _ | .undo | .ready | .release => r.newPage = none
  | .incLoad _ | .incStore _ _ | .free _ => r.newPage.isSome
  | .seg _ | .out _ => True

/-! ## The sections -/

theorem releaseSection_cases (p : Pool) (x : Nat) :
    (releaseSection p x = { p with bitmap := clearBit p.bitmap (toInt32 x) } ∧
      (p.allocated ≤ p.reserved ∨ p.array (toULong (toInt32 x)) = none)) ∨
    ∃ page, p.reserved < p.allocated ∧ p.array (toULong (toInt32 x)) = some page ∧
      releaseSection p x = { p with
        bitmap := clearBit p.bitmap (toInt32 x)
        array := Function.update p.array (toULong (toInt32 x)) none
        live := Function.update p.live page false
        allocated := dec32 p.allocated } := by
  unfold releaseSection
  simp only
  split
  · rename_i hgt
    split
    · rename_i hnone
      exact .inl ⟨rfl, .inr hnone⟩
    · rename_i page hpage
      exact .inr ⟨page, hgt, hpage, rfl⟩
  · rename_i hle
    exact .inl ⟨rfl, .inl (by omega)⟩

/-- One element more. -/
theorem encard_eq_add_one {A B : Set ι} {i : ι} (hA : i ∉ A) (hB : i ∈ B) (h : ∀ j, j ≠ i → (j ∈ B ↔ j ∈ A)) :
    B.encard = A.encard + 1 := by
  refine Set.encard_eq_add_one_iff.mpr ⟨i, A, hA, ?_, rfl⟩
  ext j
  by_cases hj : j = i
  · subst hj
    exact iff_of_true (Set.mem_insert ..) hB
  · rw [h j hj]
    exact Set.mem_insert_iff.trans (or_iff_right hj)

/-- A release keeps the counter and the pages in the array, or takes one from each. -/
theorem releaseSection_count (p : Pool) (x : Nat) :
    ((releaseSection p x).allocated = p.allocated ∧ stored (releaseSection p x) = stored p) ∨
    ((releaseSection p x).allocated = dec32 p.allocated ∧
      (stored p).encard = (stored (releaseSection p x)).encard + 1) := by
  rcases releaseSection_cases p x with ⟨heq, -⟩ | ⟨page, -, hpage, heq⟩
  · exact .inl ⟨by rw [heq], by rw [heq]; rfl⟩
  · refine .inr ⟨by rw [heq], encard_eq_add_one (i := toULong (toInt32 x)) ?_ ?_ fun j hj => ?_⟩
    · simp [stored, heq]
    · simp [stored, hpage]
    · simp [stored, heq, Function.update_of_ne hj]

theorem segSection_needPage {p : Pool} {newPage : Option Page} {ok : Bool}
    (h : segSection p newPage ok = .needPage) : newPage = none := by
  unfold segSection at h
  simp only at h
  split at h <;> [cases h; skip]
  split at h <;> [cases h; skip]
  split at h
  · rfl
  · split at h <;> cases h

theorem segSection_counter {p p' : Pool} {newPage newPage' : Option Page} {ok : Bool} {x : Nat}
    (h : segSection p newPage ok = .took p' newPage' x) : p'.allocated = p.allocated ∧ p'.reserved = p.reserved := by
  unfold segSection at h
  simp only at h
  split at h <;> [cases h; skip]
  split at h
  · cases h
    exact ⟨rfl, rfl⟩
  · split at h
    · cases h
    · split at h <;> cases h
      exact ⟨rfl, rfl⟩

variable [DecidableEq ι]

/-! ## What a step does to the counter -/

/-- What the step `a` does to the counter, to the array and to the spare page of its
request. -/
inductive Counting (s s' : State ι) (a : Label ι) : Prop
  | quiet (array : s'.pool.array = s.pool.array) (allocated : s'.pool.allocated = s.pool.allocated)
      (held : Held (s'.reqs a.req) ↔ Held (s.reqs a.req))
  | inc (n v : Nat) (label : a = .incStore a.req) (pc : (s.reqs a.req).pc = .incStore n v)
      (array : s'.pool.array = s.pool.array) (allocated : s'.pool.allocated = inc32 v)
      (held : ¬ Held (s.reqs a.req)) (held' : Held (s'.reqs a.req))
  | dec (err : Bool) (v : Nat) (label : a = .decStore a.req) (pc : (s.reqs a.req).pc = .decStore err v)
      (array : s'.pool.array = s.pool.array) (allocated : s'.pool.allocated = dec32 v)
      (held : Held (s.reqs a.req)) (held' : ¬ Held (s'.reqs a.req))
  | store (k : Nat) (page : Page) (absent : s.pool.array k = none)
      (array : s'.pool.array = Function.update s.pool.array k (some page))
      (allocated : s'.pool.allocated = s.pool.allocated)
      (held : Held (s.reqs a.req)) (held' : ¬ Held (s'.reqs a.req))
  | release (x : Nat) (pool : s'.pool = releaseSection s.pool x)
      (held : Held (s'.reqs a.req) ↔ Held (s.reqs a.req))

theorem held_loopPc (n : Nat) (newPage : Option Page) (pi : List Nat) :
    Held ⟨loopPc n, newPage, pi⟩ ↔ newPage.isSome := by
  cases n <;> rfl

theorem spareOk_loopPc (n : Nat) (newPage : Option Page) (pi : List Nat) : SpareOk ⟨loopPc n, newPage, pi⟩ := by
  cases n <;> trivial

/-- A section of the loop that takes an index. -/
theorem counting_took {s : State ι} {i : ι} {ok : Bool} {n : Nat} (hpc : (s.reqs i).pc = .seg n)
    (hsize : s.pool.dataPages < 2 ^ 32) {p : Pool} {newPage : Option Page} {x : Nat}
    (hsec : segSection s.pool (s.reqs i).newPage ok = .took p newPage x) :
    Counting s (s.seg i n (.took p newPage x)) (.seg i ok) := by
  have hcount := (segSection_counter hsec).1
  have hheld : Held (s.reqs i) ↔ (s.reqs i).newPage.isSome := by simp only [Held, hpc]
  have hheld' : Held ((s.seg i n (.took p newPage x)).reqs i) ↔ newPage.isSome := by
    rw [State.seg, State.setReq_reqs, if_pos rfl]
    exact held_loopPc n newPage _
  rcases (segSection_took hsize hsec).array with ⟨-, harr, hnew⟩ | ⟨page, hpage, hnone, harr, hnew⟩
  · exact .quiet harr hcount (by rw [Label.req, hheld, hheld', hnew])
  · exact .store _ page hnone harr hcount (hheld.mpr (by rw [hpage]; rfl))
      (by rw [Label.req, hheld', hnew]; exact Bool.false_ne_true)

/-- A step that changes its request, and of the pool neither the array nor the
counter. -/
theorem counting_setPool {s : State ι} {i : ι} {a : Label ι} {p : Pool} {r : Req}
    (harr : p.array = s.pool.array) (hall : p.allocated = s.pool.allocated) (hheld : Held r ↔ Held (s.reqs i))
    (hok : SpareOk r) (ha : a.req = i := by rfl) :
    Counting s ((s.setPool p).setReq i r) a ∧ SpareOk (((s.setPool p).setReq i r).reqs a.req) := by
  subst ha
  have hr : ((s.setPool p).setReq a.req r).reqs a.req = r := by rw [State.setReq_reqs, if_pos rfl]
  rw [hr]
  exact ⟨.quiet harr hall (by rw [hr]; exact hheld), hok⟩

theorem counting_setReq {s : State ι} {i : ι} {a : Label ι} {r : Req} (hheld : Held r ↔ Held (s.reqs i))
    (hok : SpareOk r) (ha : a.req = i := by rfl) :
    Counting s (s.setReq i r) a ∧ SpareOk ((s.setReq i r).reqs a.req) :=
  counting_setPool (p := s.pool) rfl rfl hheld hok ha

theorem counting_release {s : State ι} {i : ι} {a : Label ι} {x : Nat} {r : Req}
    (hheld : Held r ↔ Held (s.reqs i)) (hok : SpareOk r) (ha : a.req = i := by rfl) :
    Counting s ((s.setPool (releaseSection s.pool x)).setReq i r) a ∧
      SpareOk (((s.setPool (releaseSection s.pool x)).setReq i r).reqs a.req) := by
  subst ha
  have hr : ((s.setPool (releaseSection s.pool x)).setReq a.req r).reqs a.req = r := by
    rw [State.setReq_reqs, if_pos rfl]
  rw [hr]
  exact ⟨.release x rfl (by rw [hr]; exact hheld), hok⟩

theorem step_counting {s s' : State ι} {a : Label ι} (h : step s a = some s')
    (hsize : s.pool.dataPages < 2 ^ 32) (hok : SpareOk (s.reqs a.req)) :
    Counting s s' a ∧ SpareOk (s'.reqs a.req) := by
  cases a with
  | get i n =>
    simp only [step] at h
    split at h <;> cases h
    rename_i hpc
    have hnone : (s.reqs i).newPage = none := by simpa only [Label.req, SpareOk, hpc] using hok
    refine counting_setReq ?_ (spareOk_loopPc n none _)
    rw [held_loopPc]
    simp only [Held, hpc, hnone]
  | seg i ok =>
    simp only [step] at h
    split at h <;> cases h
    rename_i n hpc
    cases hsec : segSection s.pool (s.reqs i).newPage ok with
    | full =>
      refine counting_setReq ?_ trivial
      simp only [Held, hpc]
    | needPage =>
      have hnone := segSection_needPage hsec
      refine counting_setReq ?_ hnone
      simp only [Held, hpc]
    | storeFailed page =>
      have hsome := segSection_storeFailed hsec
      refine counting_setReq ?_ rfl
      simp only [Held, hpc, hsome]
    | took p newPage x =>
      refine ⟨counting_took hpc hsize hsec, ?_⟩
      rw [State.seg, Label.req, State.setReq_reqs, if_pos rfl]
      exact spareOk_loopPc n newPage _
  | alloc i page =>
    simp only [step] at h
    split at h
    · rename_i n hpc
      cases h
      refine counting_setReq ?_ trivial
      simp only [Held, hpc]
    · rename_i n page hpc
      split at h <;> cases h
      have hnone : (s.reqs i).newPage = none := by simpa only [Label.req, SpareOk, hpc] using hok
      refine counting_setPool rfl rfl ?_ rfl
      simp only [Held, hpc, hnone]
      decide
    · cases h
  | incLoad i =>
    simp only [step] at h
    split at h <;> cases h
    rename_i n hpc
    have hsome : (s.reqs i).newPage.isSome := by simpa only [Label.req, SpareOk, hpc] using hok
    refine counting_setReq ?_ hsome
    simp only [Held, hpc]
  | incStore i =>
    simp only [step] at h
    split at h <;> cases h
    rename_i n v hpc
    have hsome : (s.reqs i).newPage.isSome := by simpa only [Label.req, SpareOk, hpc] using hok
    refine ⟨.inc n v rfl hpc rfl rfl ?_ ?_, ?_⟩
    · simp only [Held, Label.req, hpc, not_false_eq_true]
    · rw [Label.req, State.setReq_reqs, if_pos rfl]
      exact hsome
    · rw [Label.req, State.setReq_reqs, if_pos rfl]
      trivial
  | out i =>
    simp only [step] at h
    split at h
    · rename_i err page hpc hnew
      cases h
      refine counting_setReq (by simp only [Held, hpc]) ?_
      rw [SpareOk, hnew]
      rfl
    · rename_i err hpc hnew
      cases h
      refine counting_setReq ?_ ?_
      · cases err <;> simp only [Held, hpc, hnew, if_true, Bool.false_eq_true, if_false]
      · cases err <;> exact hnew
    · cases h
  | free i =>
    simp only [step] at h
    split at h <;> cases h
    rename_i err page hpc hnew
    refine counting_setPool rfl rfl ?_ rfl
    simp only [Held, hpc, hnew, Option.isSome_some]
  | decLoad i =>
    simp only [step] at h
    split at h <;> cases h
    rename_i err hpc
    have hnone : (s.reqs i).newPage = none := by simpa only [Label.req, SpareOk, hpc] using hok
    refine counting_setReq ?_ hnone
    simp only [Held, hpc]
  | decStore i =>
    simp only [step] at h
    split at h <;> cases h
    rename_i err v hpc
    have hnone : (s.reqs i).newPage = none := by simpa only [Label.req, SpareOk, hpc] using hok
    refine ⟨.dec err v rfl hpc rfl rfl ?_ ?_, ?_⟩
    · simp only [Held, Label.req, hpc]
    · rw [Label.req, State.setReq_reqs, if_pos rfl]
      simp only [Held, hnone, Option.isSome_none, Bool.false_eq_true, not_false_eq_true]
    · rw [Label.req, State.setReq_reqs, if_pos rfl]
      trivial
  | undo i =>
    simp only [step] at h
    split at h <;> [skip; cases h]
    rename_i hpc
    have hnone : (s.reqs i).newPage = none := by simpa only [Label.req, SpareOk, hpc] using hok
    split at h
    · cases h
      refine counting_setReq ?_ hnone
      simp only [Held, hpc]
    · cases h
      refine counting_release ?_ ?_
      · simp only [Held, hpc]
      · simp only [SpareOk, hpc, hnone]
  | release i =>
    simp only [step] at h
    split at h <;> cases h
    rename_i hpc
    have hnone : (s.reqs i).newPage = none := by simpa only [Label.req, SpareOk, hpc] using hok
    refine counting_setReq ?_ hnone
    simp only [Held, hpc]
  | releaseOne i =>
    simp only [step] at h
    split at h <;> [skip; cases h]
    rename_i hpc
    have hnone : (s.reqs i).newPage = none := by simpa only [Label.req, SpareOk, hpc] using hok
    split at h
    · cases h
      refine counting_setReq ?_ hnone
      simp only [Held, hpc]
    · cases h
      refine counting_release ?_ ?_
      · simp only [Held, hpc]
      · simp only [SpareOk, hpc, hnone]

theorem Effect.dataPages {s s' : State ι} (e : Effect s s') (hsize : s.pool.dataPages < 2 ^ 32) :
    s'.pool.dataPages = s.pool.dataPages := by
  cases e with
  | frame pool pi spare => exact pool.1
  | took i ok p pc newPage x sec eq => rw [eq]; exact (segSection_took hsize sec).dataPages
  | alloc i pc page fresh eq => rw [eq]; rfl
  | free i pc page spare eq => rw [eq]; rfl
  | release i x l r slots eq => rw [eq]; exact (releaseSection_bitmap s.pool x).2

/-! ## Counting -/

theorem coe_inc32 {v : Nat} (h : v ≠ 2 ^ 32 - 1) : ((inc32 v : Nat) : ENat) = v + 1 := by
  rw [inc32, if_neg h]
  rfl

/-- Giving back one of at least one page. -/
theorem coe_dec32 {v : Nat} {n : ENat} (h : (v : ENat) = n + 1) : ((dec32 v : Nat) : ENat) = n := by
  have htop : n ≠ ⊤ := by
    rintro rfl
    exact ENat.natCast_ne_top v (h.trans (top_add 1))
  obtain ⟨k, rfl⟩ := ENat.ne_top_iff_exists.mp htop
  have hv : v = k + 1 := by exact_mod_cast h
  rw [dec32, if_neg (by omega), hv, Nat.add_sub_cancel]

/-- The counter is exact in every state, also between a load and its store. -/
structure Counted (s : State ι) : Prop where
  eq : (s.pool.allocated : ENat) = (stored s.pool).encard + (holders s).encard
  spare : ∀ i, SpareOk (s.reqs i)
  size : s.pool.dataPages < 2 ^ 32

omit [DecidableEq ι] in
theorem counted_init {n : Nat} (h : n < 2 ^ 32) (reserved : Nat) (live : Page → Bool) :
    Counted (initState ι n reserved live) := by
  refine ⟨?_, fun _ => rfl, h⟩
  have hstored : stored (initState ι n reserved live).pool = ∅ := Set.eq_empty_of_forall_notMem fun _ hx => nomatch hx
  have hholders : holders (initState ι n reserved live) = ∅ := Set.eq_empty_of_forall_notMem fun _ hx => nomatch hx
  rw [hstored, hholders, Set.encard_empty, Set.encard_empty, add_zero]
  rfl

omit [DecidableEq ι] in
theorem mem_holders_of_ne {s s' : State ι} {i : ι} (h : ∀ j, j ≠ i → s'.reqs j = s.reqs j) (j : ι) (hj : j ≠ i) :
    j ∈ holders s' ↔ j ∈ holders s := by
  show Held (s'.reqs j) ↔ Held (s.reqs j)
  rw [h j hj]

omit [DecidableEq ι] in
/-- One request more has a spare page. -/
theorem encard_holders {s s' : State ι} {i : ι} (h : ∀ j, j ≠ i → s'.reqs j = s.reqs j) (hno : ¬ Held (s.reqs i))
    (hi : Held (s'.reqs i)) : (holders s').encard = (holders s).encard + 1 :=
  encard_eq_add_one (A := holders s) (B := holders s') hno hi (mem_holders_of_ne h)

theorem Counted.step {s s' : State ι} {a : Label ι} (h : Counted s) (hs : step s a = some s')
    (hu : Undisturbed s a) : Counted s' := by
  obtain ⟨hcount, hspare⟩ := step_counting hs h.size (h.spare _)
  have hothers : ∀ j, j ≠ a.req → s'.reqs j = s.reqs j := fun j hj => step_other hs hj
  refine ⟨?_, fun j => ?_, by rw [(step_effect hs).dataPages h.size]; exact h.size⟩
  · have hsame : (Held (s'.reqs a.req) ↔ Held (s.reqs a.req)) → holders s' = holders s := by
      intro hheld
      ext j
      by_cases hj : j = a.req
      · rw [hj]
        exact hheld
      · exact mem_holders_of_ne hothers j hj
    cases hcount with
    | quiet array allocated held =>
      rw [allocated, hsame held, stored, array]
      exact h.eq
    | inc n v label pc array allocated held held' =>
      rw [label] at hu
      obtain ⟨hv, hmax⟩ := hu n v pc
      rw [allocated, coe_inc32 hmax, ← hv, h.eq, encard_holders hothers held held',
        stored, stored, array, add_assoc]
    | dec err v label pc array allocated held held' =>
      rw [label] at hu
      have hv := hu err v pc
      have heq := h.eq
      rw [encard_holders (fun j hj => (hothers j hj).symm) held' held, ← add_assoc, hv] at heq
      rw [allocated, coe_dec32 heq, stored, stored, array]
    | store k page absent array allocated held held' =>
      have hnew : (stored s'.pool).encard = (stored s.pool).encard + 1 := by
        refine encard_eq_add_one (i := k) ?_ ?_ fun j hj => ?_
        · simp [stored, absent]
        · simp [stored, array]
        · simp [stored, array, Function.update_of_ne hj]
      have heq := h.eq
      rw [encard_holders (fun j hj => (hothers j hj).symm) held' held] at heq
      rw [allocated, heq, hnew, add_assoc, add_comm 1]
    | release x pool held =>
      rw [hsame held, pool]
      rcases releaseSection_count s.pool x with ⟨hall, hstored⟩ | ⟨hall, hstored⟩
      · rw [hall, hstored]
        exact h.eq
      · -- one page fewer in the array
        have hcnt := h.eq
        rw [hstored, add_right_comm] at hcnt
        rw [hall, coe_dec32 hcnt]
  · by_cases hj : j = a.req
    · rw [hj]
      exact hspare
    · rw [hothers j hj]
      exact h.spare j

/-- In every run whose stores of the counter are undisturbed, for any number of
requests. -/
theorem exact_of_undisturbed (dataPages : UInt32) (reserved : Nat) (live : Page → Bool) (as : List (Label ι))
    (h : (lts ι).Steps (fun s a _ => Undisturbed s a) (initState ι dataPages.toNat reserved live) as) :
    (lts ι).States Exact (initState ι dataPages.toNat reserved live) as :=
  Lts.States.mono (fun _ hc _ => hc.eq)
    (Lts.states_of_steps (I := Counted) (fun _ _ _ hi hs hu => hi.step hs hu)
      (counted_init dataPages.toNat_lt reserved live) h)

/-- One request that takes a page. -/
theorem exact_of_undisturbed_one :
    (lts Nat).Steps (fun s a _ => Undisturbed s a) (initState Nat (1 : UInt32).toNat 0 fun _ => false)
        (takeUp 0 ++ [.out 0]) ∧
      (lts Nat).States Exact (initState Nat (1 : UInt32).toNat 0 fun _ => false) (takeUp 0 ++ [.out 0]) := by
  have h : (lts Nat).Steps (fun s a _ => Undisturbed s a) (initState Nat (1 : UInt32).toNat 0 fun _ => false)
      (takeUp 0 ++ [.out 0]) := by
    refine .cons rfl trivial (.cons rfl trivial (.cons rfl trivial (.cons rfl trivial (.cons rfl ?_
      (.cons rfl trivial (.cons rfl trivial trivial))))))
    intro n v hpc
    cases hpc
    exact ⟨rfl, by decide⟩
  exact ⟨h, exact_of_undisturbed 1 0 _ _ h⟩

omit [DecidableEq ι] in
/-- A counter of 1 is too small for two spare pages. -/
theorem not_exact_of_two {s : State ι} {i j : ι} (hij : i ≠ j) (hi : Held (s.reqs i)) (hj : Held (s.reqs j))
    (hpair : ∀ i, (s.reqs i).pc.inPair = false) (hone : s.pool.allocated = 1) : ¬ Exact s := by
  intro h
  have heq := h hpair
  have htwo : (2 : ENat) ≤ (holders s).encard :=
    (Set.encard_pair hij).symm.le.trans (Set.encard_le_encard (Set.pair_subset hi hj))
  rw [hone] at heq
  exact absurd (htwo.trans (le_add_self.trans heq.symm.le)) (by decide)

/-- Two requests count the pages they have allocated at the same time: no update is
under way any more, there are two spare pages, and the counter is 1. -/
theorem overlapping_increments :
    ∃ s, (lts Nat).exec (initState Nat 2 0 fun _ => false)
        [.get 0 1, .get 1 1, .seg 0 true, .seg 1 true, .alloc 0 (some 0), .alloc 1 (some 1),
          .incLoad 0, .incLoad 1, .incStore 0, .incStore 1] = some s ∧ ¬ Exact s := by
  refine ⟨_, rfl, not_exact_of_two (i := 0) (j := 1) (by decide) rfl rfl (fun i => ?_) rfl⟩
  rcases i with _ | _ | i <;> rfl

end Ubbd.Pages

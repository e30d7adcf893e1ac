import UbbdKernel.Pages.Counter
import Mathlib.Data.ENat.Lattice

/-!
# The reserve of cached pages

A page whose index is released stays in the array while no more than
`data_pages_reserved` pages are allocated. The idle pages, which are in the
array with their bit clear, are then never more than the reserve, or than they
were when `ubbd_dev_config` last changed it, wherever in the array they are
(`reserve_respected`): a release that leaves its page behind finds no more
pages allocated than are reserved, idle or not, and no other step makes a page
idle. The updates of the counter are single steps here. The argument needs
that the counter does not wrap, which takes `2 ^ 32` pages allocated at once
(`wrapped_exceeds_reserve`).
-/

namespace Ubbd.Pages

variable {ι : Type}

/-- The cached pages that are in no use. -/
def idle (p : Pool) : Set Nat := {x | x < p.dataPages ∧ (p.array x).isSome ∧ p.bitmap x = false}

/-- The pages in the array that no request has in a slot. -/
def unheld (s : State ι) : Set Nat :=
  {k | k ∈ stored s.pool ∧ ∀ i, ∀ x ∈ (s.reqs i).pi, toULong (toInt32 x) ≠ k}

/-- The queue, and the pages that were idle at the last `ubbd_dev_config`, if there
was one. -/
structure Cache (ι : Type) where
  st : State ι
  config : Option (Set Nat)

inductive CacheLabel (ι : Type)
  | call (a : Label ι)
  /-- The increment of the counter in `ubbd_alloc_page`. -/
  | inc (i : ι)
  /-- The decrement of the counter in `__ubbd_release_page`. -/
  | dec (i : ι)
  /-- `ubbd_dev_config` of `dp_reserve_percnt`. -/
  | config (percnt : Nat)

/-- The label is a load or a store of the counter. -/
def Label.counter : Label ι → Bool
  | .incLoad _ | .incStore _ | .decLoad _ | .decStore _ => true
  | _ => false

section

variable [DecidableEq ι]

def cacheStep (c : Cache ι) : CacheLabel ι → Option (Cache ι)
  | .call a => if a.counter then none else (step c.st a).map fun s => { c with st := s }
  | .inc i => ((step c.st (.incLoad i)).bind fun s => step s (.incStore i)).map fun s => { c with st := s }
  | .dec i => ((step c.st (.decLoad i)).bind fun s => step s (.decStore i)).map fun s => { c with st := s }
  | .config percnt =>
    if percnt > 100 then none
    else some
      { st := c.st.setPool { c.st.pool with reserved := percnt * c.st.pool.dataPages % 2 ^ 32 / 100 }
        config := some (idle c.st.pool) }

def initCache (ι : Type) (dataPages reserved : Nat) (live : Page → Bool) : Cache ι where
  st := initState ι dataPages reserved live
  config := none

/-- Any number of requests, and changes of the reserve. -/
def cacheLts (ι : Type) [DecidableEq ι] : Lts (Cache ι) (CacheLabel ι) where
  init c := ∃ n r l, c = initCache ι n r l
  step := cacheStep

end

/-- The idle pages are no more than the reserve, or than there were at the last
reconfiguration; and without one, no more pages than are reserved stay once
no request has any. -/
structure Respects (c : Cache ι) : Prop where
  idle_le : (idle c.st.pool).encard ≤ max (c.st.pool.reserved : ENat) (c.config.getD ∅).encard
  settled : c.config = none → (∀ i, (c.st.reqs i).pi = [] ∧ (c.st.reqs i).newPage = none) →
    (stored c.st.pool).encard ≤ c.st.pool.reserved

/-- An increment does not find the counter at its largest value. -/
def NoWrap (c : Cache ι) : CacheLabel ι → Prop
  | .inc _ => c.st.pool.allocated ≠ 2 ^ 32 - 1
  | _ => True

/-! ## What a step can make idle -/

/-- Bounds on the idle pages and on those in no slot. -/
structure Bounded (s : State ι) (b c : ENat) : Prop where
  idle_le : (idle s.pool).encard ≤ b
  unheld_le : (unheld s).encard ≤ c

/-- An index that is not below `2 ^ 31` has its page far outside the array. -/
theorem le_toULong_of_ge {x : Nat} (h : 2 ^ 31 ≤ x) (h' : x < 2 ^ 32) : 2 ^ 63 ≤ toULong (toInt32 x) := by
  rw [toInt32_of_ge h h', toULong]
  omega

theorem idle_subset_stored (p : Pool) : idle p ⊆ stored p := fun _ h => h.2.1

theorem unheld_subset_stored (s : State ι) : unheld s ⊆ stored s.pool := fun _ h => h.1

theorem Counted.stored_le {s : State ι} (h : Counted s) : (stored s.pool).encard ≤ s.pool.allocated := by
  rw [h.eq]
  exact le_self_add

theorem Bounded.mono {s s' : State ι} {b c : ENat} (h : Bounded s b c) (hi : idle s'.pool ⊆ idle s.pool)
    (hu : unheld s' ⊆ unheld s) : Bounded s' b c :=
  ⟨(Set.encard_le_encard hi).trans h.idle_le, (Set.encard_le_encard hu).trans h.unheld_le⟩

variable [DecidableEq ι]

/-- Taking an index makes no page idle. -/
theorem Bounded.took {s : State ι} {b c : ENat} (h : Bounded s b c) (hsize : s.pool.dataPages < 2 ^ 32) {i : ι}
    {p : Pool} {pc : Pc} {newPage : Option Page} {x : Nat}
    (ht : Took s.pool (s.reqs i).newPage p newPage x) :
    Bounded ((s.setPool p).setReq i ⟨pc, newPage, (s.reqs i).pi ++ [x]⟩) b c := by
  have hlt := ht.lt
  have harr : ∀ k, k ≠ toULong (toInt32 x) → p.array k = s.pool.array k := by
    intro k hk
    rcases ht.array with ⟨-, harr, -⟩ | ⟨page, -, -, harr, -⟩
    · rw [harr]
    · rw [harr, Function.update_of_ne hk]
  refine h.mono ?_ ?_
  · rintro y ⟨hy, hpage, hbit⟩
    simp only [State.setReq_pool, State.setPool_pool] at hy hpage hbit
    rw [ht.dataPages] at hy
    rw [ht.bitmap, setBit_toInt32 _ (by omega)] at hbit
    by_cases hx : x < 2 ^ 31
    · rw [if_pos hx] at hbit
      -- the bit of the index itself is set now
      have hyx : y ≠ x := by
        rintro rfl
        rw [Function.update_self] at hbit
        cases hbit
      rw [Function.update_of_ne hyx] at hbit
      rw [harr y (by rw [toULong_toInt32 hx]; exact hyx)] at hpage
      exact ⟨hy, hpage, hbit⟩
    · rw [if_neg hx] at hbit
      have hfar := le_toULong_of_ge (by omega) (show x < 2 ^ 32 by omega)
      rw [harr y (by omega)] at hpage
      exact ⟨hy, hpage, hbit⟩
  · rintro k ⟨hk, hfree⟩
    have hkx : toULong (toInt32 x) ≠ k :=
      hfree i x (by rw [State.setReq_reqs, if_pos rfl]; exact List.mem_append_right _ (List.mem_singleton_self x))
    refine ⟨?_, fun j y hy => hfree j y ?_⟩
    · show (s.pool.array k).isSome
      rw [← harr k hkx.symm]
      exact hk
    · rw [State.setReq_reqs]
      split
      · rename_i hj
        rw [hj] at hy
        exact List.mem_append_left _ hy
      · exact hy

/-- A release that does not free a page finds no more of them than are reserved, or
none at its index. -/
theorem Bounded.release {s : State ι} {b c : ENat} (h : Bounded s b c) (hc : Counted s)
    (hbits : Bits s) (hb : (s.pool.reserved : ENat) ≤ b) (hr : (s.pool.reserved : ENat) ≤ c)
    {i : ι} {x : Nat} {l r : List Nat} (hs : (s.reqs i).pi = l ++ x :: r) :
    Bounded ((s.setPool (releaseSection s.pool x)).setReq i { s.reqs i with pi := l ++ r }) b c := by
  have hx := (hbits.lt i x (by rw [hs]; simp)).trans hbits.size
  have hbit : ∀ y, (y = x → 2 ^ 31 ≤ x) → (releaseSection s.pool x).bitmap y = s.pool.bitmap y := by
    intro y hy
    rw [(releaseSection_bitmap s.pool x).1, clearBit_toInt32 _ hx]
    split
    · exact Function.update_of_ne (fun hyx => absurd (hy hyx) (by omega)) ..
    · rfl
  by_cases hkeep : s.pool.allocated ≤ s.pool.reserved ∧ (stored (releaseSection s.pool x)) = stored s.pool
  · -- all the pages there are, idle or not
    have hle : (stored s.pool).encard ≤ s.pool.reserved := hc.stored_le.trans (by exact_mod_cast hkeep.1)
    rw [← hkeep.2] at hle
    have hidle := Set.encard_le_encard (idle_subset_stored (releaseSection s.pool x))
    have hunheld := Set.encard_le_encard (unheld_subset_stored
      ((s.setPool (releaseSection s.pool x)).setReq i { s.reqs i with pi := l ++ r }))
    rw [State.setReq_pool, State.setPool_pool] at hunheld
    exact ⟨(hidle.trans hle).trans hb, (hunheld.trans hle).trans hr⟩
  · have hgone : (releaseSection s.pool x).array (toULong (toInt32 x)) = none ∧
        ∀ k, k ≠ toULong (toInt32 x) → (releaseSection s.pool x).array k = s.pool.array k := by
      rcases releaseSection_cases s.pool x with ⟨heq, hle | hnone⟩ | ⟨page, -, -, heq⟩
      · exact absurd ⟨hle, by rw [heq]; rfl⟩ hkeep
      · rw [heq]
        exact ⟨hnone, fun _ _ => rfl⟩
      · rw [heq]
        exact ⟨Function.update_self .., fun k hk => Function.update_of_ne hk ..⟩
    refine h.mono ?_ ?_
    · rintro y ⟨hy, hpage, hclear⟩
      simp only [State.setReq_pool, State.setPool_pool] at hy hpage hclear
      rw [(releaseSection_bitmap s.pool x).2] at hy
      have hkey : y ≠ toULong (toInt32 x) := by
        rintro rfl
        rw [hgone.1] at hpage
        cases hpage
      have hyx : y = x → 2 ^ 31 ≤ x := by
        rintro rfl
        by_contra hlow
        exact hkey (toULong_toInt32 (by omega)).symm
      rw [hgone.2 y hkey] at hpage
      rw [hbit y hyx] at hclear
      exact ⟨hy, hpage, hclear⟩
    · rintro k ⟨hk, hfree⟩
      have hkey : toULong (toInt32 x) ≠ k := by
        rintro rfl
        have hk : ((releaseSection s.pool x).array _).isSome := hk
        rw [hgone.1] at hk
        cases hk
      refine ⟨?_, fun j y hy => ?_⟩
      · show (s.pool.array k).isSome
        rw [← hgone.2 k hkey.symm]
        exact hk
      · by_cases hj : j = i ∧ y = x
        · rw [hj.2]
          exact hkey
        · refine hfree j y ?_
          rw [State.setReq_reqs]
          split
          · rename_i hji
            rw [hji, hs] at hy
            simp only [List.mem_append, List.mem_cons] at hy ⊢
            rcases hy with hy | rfl | hy
            · exact .inl hy
            · exact absurd ⟨hji, rfl⟩ hj
            · exact .inr hy
          · exact hy

omit [DecidableEq ι] in
/-- A step that keeps the array, the bits and the slots. -/
theorem Bounded.frame {s s' : State ι} {b c : ENat} (h : Bounded s b c)
    (hn : s'.pool.dataPages = s.pool.dataPages) (hbm : s'.pool.bitmap = s.pool.bitmap)
    (harr : s'.pool.array = s.pool.array) (hpi : ∀ j, (s'.reqs j).pi = (s.reqs j).pi) : Bounded s' b c := by
  refine h.mono (fun x hx => ?_) (fun k hk => ?_)
  · simpa only [idle, hn, hbm, harr] using hx
  · simpa only [unheld, stored, harr, hpi] using hk

theorem setReq_pi_same {s : State ι} {p : Pool} {i : ι} {r : Req} (h : r.pi = (s.reqs i).pi) (j : ι) :
    (((s.setPool p).setReq i r).reqs j).pi = (s.reqs j).pi := by
  rw [State.setReq_reqs]
  split
  · rename_i hj
    rw [hj, h]
  · rfl

theorem Effect.bounded {s s' : State ι} (e : Effect s s') {b c : ENat} (h : Bounded s b c) (hc : Counted s)
    (hbits : Bits s) (hb : (s.pool.reserved : ENat) ≤ b) (hr : (s.pool.reserved : ENat) ≤ c) : Bounded s' b c := by
  cases e with
  | frame pool pi spare => exact h.frame pool.1 pool.2.1 pool.2.2.1 pi
  | took i ok p pc newPage x sec eq =>
    rw [eq]
    exact h.took hbits.size (segSection_took hbits.size sec)
  | alloc i pc page fresh eq =>
    rw [eq]
    exact h.frame rfl rfl rfl (setReq_pi_same rfl)
  | free i pc page spare eq =>
    rw [eq]
    exact h.frame rfl rfl rfl (setReq_pi_same rfl)
  | release i x l r slots eq =>
    rw [eq]
    exact h.release hc hbits hb hr slots

/-- Only `ubbd_dev_config` changes the reserve. -/
theorem step_reserved {s s' : State ι} {a : Label ι} (h : step s a = some s') :
    s'.pool.reserved = s.pool.reserved := by
  have hrelease : ∀ x, (releaseSection s.pool x).reserved = s.pool.reserved := by
    intro x
    rcases releaseSection_cases s.pool x with ⟨heq, -⟩ | ⟨page, -, -, heq⟩ <;> rw [heq]
  cases a with
  | seg i ok =>
    simp only [step] at h
    split at h <;> cases h
    cases hsec : segSection s.pool (s.reqs i).newPage ok with
    | took p newPage x => exact (segSection_counter hsec).2
    | _ => rfl
  | undo i =>
    simp only [step] at h
    split at h <;> [skip; cases h]
    split at h <;> cases h
    · rfl
    · exact hrelease _
  | releaseOne i =>
    simp only [step] at h
    split at h <;> [skip; cases h]
    split at h <;> cases h
    · rfl
    · exact hrelease _
  | _ =>
    simp only [step] at h
    (repeat' split at h) <;> cases h <;> rfl

/-! ## Runs -/

/-- The invariant: the bounds are those of `Respects`. -/
structure CacheInv (c : Cache ι) : Prop where
  counted : Counted c.st
  bits : Bits c.st
  bounded : Bounded c.st (max (c.st.pool.reserved : ENat) (c.config.getD ∅).encard)
    (if c.config = none then c.st.pool.reserved else ⊤)

omit [DecidableEq ι] in
theorem CacheInv.respects {c : Cache ι} (h : CacheInv c) : Respects c := by
  refine ⟨h.bounded.idle_le, fun hc hnone => ?_⟩
  have hle := h.bounded.unheld_le
  rw [if_pos hc] at hle
  have hsub : stored c.st.pool ⊆ unheld c.st := by
    refine fun k hk => ⟨hk, fun i x hx => ?_⟩
    rw [(hnone i).1] at hx
    cases hx
  exact (Set.encard_le_encard hsub).trans hle

/-- A step of a call that does not disturb the counter. -/
theorem CacheInv.call {c : Cache ι} (h : CacheInv c) {a : Label ι} {s : State ι} (hs : step c.st a = some s)
    (hu : Undisturbed c.st a) : CacheInv { c with st := s } := by
  have hres := step_reserved hs
  refine ⟨h.counted.step hs hu, (step_effect hs).bits h.bits, ?_⟩
  rw [hres]
  refine (step_effect hs).bounded h.bounded h.counted h.bits (le_max_left ..) ?_
  split
  · exact le_rfl
  · exact le_top

/-- A load of the counter and its store, with nothing in between. -/
theorem step_incStore {s s₁ : State ι} {i : ι} (h : step s (.incLoad i) = some s₁)
    (hw : s.pool.allocated ≠ 2 ^ 32 - 1) : Undisturbed s₁ (.incStore i) := by
  simp only [step] at h
  split at h <;> cases h
  intro n v hpc
  rw [State.setReq_reqs, if_pos rfl] at hpc
  cases hpc
  exact ⟨rfl, hw⟩

theorem step_decStore {s s₁ : State ι} {i : ι} (h : step s (.decLoad i) = some s₁) :
    Undisturbed s₁ (.decStore i) := by
  simp only [step] at h
  split at h <;> cases h
  intro err v hpc
  rw [State.setReq_reqs, if_pos rfl] at hpc
  cases hpc
  rfl

omit [DecidableEq ι] in
theorem CacheInv.config {c : Cache ι} (h : CacheInv c) (reserved : Nat) :
    CacheInv ⟨c.st.setPool { c.st.pool with reserved := reserved }, some (idle c.st.pool)⟩ := by
  refine ⟨⟨h.counted.eq, h.counted.spare, h.counted.size⟩,
    h.bits.congr rfl rfl fun _ => rfl, ⟨?_, ?_⟩⟩
  · exact le_max_of_le_right le_rfl
  · exact le_top

theorem CacheInv.step {c c' : Cache ι} {a : CacheLabel ι} (h : CacheInv c) (hs : cacheStep c a = some c')
    (hw : NoWrap c a) : CacheInv c' := by
  cases a with
  | call a =>
    simp only [cacheStep] at hs
    split at hs <;> [cases hs; skip]
    rename_i ha
    obtain ⟨s, hstep, rfl⟩ := Option.map_eq_some_iff.mp hs
    refine h.call hstep ?_
    cases a <;> trivial
  | inc i =>
    obtain ⟨s, hboth, rfl⟩ := Option.map_eq_some_iff.mp hs
    obtain ⟨s₁, hload, hstore⟩ := Option.bind_eq_some_iff.mp hboth
    exact (h.call hload trivial).call hstore (step_incStore hload hw)
  | dec i =>
    obtain ⟨s, hboth, rfl⟩ := Option.map_eq_some_iff.mp hs
    obtain ⟨s₁, hload, hstore⟩ := Option.bind_eq_some_iff.mp hboth
    exact (h.call hload trivial).call hstore (step_decStore hload)
  | config percnt =>
    simp only [cacheStep] at hs
    split at hs <;> cases hs
    exact h.config _

omit [DecidableEq ι] in
theorem cacheInv_init {n : Nat} (h : n < 2 ^ 32) (reserved : Nat) (live : Page → Bool) :
    CacheInv (initCache ι n reserved live) := by
  refine ⟨counted_init h reserved live, bits_init h reserved live, ?_, ?_⟩
  · have hidle : idle (initCache ι n reserved live).st.pool = ∅ :=
      Set.eq_empty_of_forall_notMem fun _ hx => nomatch hx.2.1
    rw [hidle, Set.encard_empty]
    exact zero_le
  · have hunheld : unheld (initCache ι n reserved live).st = ∅ :=
      Set.eq_empty_of_forall_notMem fun _ hx => nomatch hx.1
    rw [hunheld, Set.encard_empty]
    exact zero_le

/-- In every run in which the counter does not wrap, for any number of requests and
any changes of the reserve. -/
theorem reserve_respected (dataPages : UInt32) (reserved : Nat) (live : Page → Bool) (as : List (CacheLabel ι))
    (h : (cacheLts ι).Steps (fun c a _ => NoWrap c a) (initCache ι dataPages.toNat reserved live) as) :
    (cacheLts ι).States Respects (initCache ι dataPages.toNat reserved live) as :=
  Lts.States.mono (fun _ hc => hc.respects)
    (Lts.states_of_steps (I := CacheInv) (fun _ _ _ hi hs hw => hi.step hs hw)
      (cacheInv_init dataPages.toNat_lt reserved live) h)

/-- A request takes a page and gives it back, with no reserve and with one. -/
theorem reserve_respected_one :
    (cacheLts Nat).Steps (fun c a _ => NoWrap c a) (initCache Nat (1 : UInt32).toNat 0 fun _ => false)
        [.call (.get 0 1), .call (.seg 0 true), .call (.alloc 0 (some 0)), .inc 0, .call (.seg 0 true),
          .config 100, .call (.out 0), .call (.release 0), .call (.releaseOne 0)] ∧
      (cacheLts Nat).States Respects (initCache Nat (1 : UInt32).toNat 0 fun _ => false)
        [.call (.get 0 1), .call (.seg 0 true), .call (.alloc 0 (some 0)), .inc 0, .call (.seg 0 true),
          .config 100, .call (.out 0), .call (.release 0), .call (.releaseOne 0)] := by
  have h : (cacheLts Nat).Steps (fun c a _ => NoWrap c a) (initCache Nat (1 : UInt32).toNat 0 fun _ => false)
      [.call (.get 0 1), .call (.seg 0 true), .call (.alloc 0 (some 0)), .inc 0, .call (.seg 0 true),
        .config 100, .call (.out 0), .call (.release 0), .call (.releaseOne 0)] := by
    refine .cons rfl trivial (.cons rfl trivial (.cons rfl trivial (.cons rfl ?_ (.cons rfl trivial
      (.cons rfl trivial (.cons rfl trivial (.cons rfl trivial (.cons rfl trivial trivial))))))))
    show (0 : Nat) ≠ 2 ^ 32 - 1
    decide
  exact ⟨h, reserve_respected 1 0 (fun _ => false) _ h⟩

/-! ### The counter wraps -/

/-- The queue after requests `0`, …, `k - 1` have each allocated a spare page. -/
def spares (n k : Nat) : Cache Nat where
  st :=
    { pool := { initPool n 0 fun p => p < k with allocated := k % 2 ^ 32 }
      reqs := fun i => if i < k then ⟨.seg 0, some i, []⟩ else Req.fresh }
  config := none

/-- The labels of a request up to its spare page. -/
def spareUp (k : Nat) : List (CacheLabel Nat) :=
  [.call (.get k 1), .call (.seg k true), .call (.alloc k (some k)), .inc k]

theorem segSection_spares {n k : Nat} (hn : 0 < n) (hlt : n < 2 ^ 32) :
    segSection (spares n k).st.pool none true = .needPage := by
  have hidx : findFirstZeroBit (spares n k).st.pool.bitmap n = 0 :=
    findFirstZeroBit_eq hn (fun j hj => absurd hj (Nat.not_lt_zero j)) rfl
  exact (segSection_absent hidx hn hlt rfl).1

theorem exec_spareUp {n k : Nat} (hn : 0 < n) (hlt : n < 2 ^ 32) :
    (cacheLts Nat).exec (spares n k) (spareUp k) = some (spares n (k + 1)) := by
  have hfresh : (spares n k).st.reqs k = ⟨.idle, none, []⟩ := by simp [spares, Req.fresh]
  have hlive : (spares n k).st.pool.live k = false := by simp [spares, initPool]
  have hinc : inc32 (k % 2 ^ 32) = (k + 1) % 2 ^ 32 := by
    unfold inc32
    split <;> omega
  have hall : (spares n k).st.pool.allocated = k % 2 ^ 32 := rfl
  simp only [Lts.exec, cacheLts, spareUp, cacheStep, Label.counter, step, State.setReq, State.setPool, State.seg,
    loopPc, hfresh, Function.update_self, Function.update_idem, Option.bind_some, Option.map_some, if_true,
    segSection_spares hn hlt, hlive, hall, hinc, Bool.false_eq_true, if_false]
  have hle : ∀ x : Nat, x ≠ k → (x ≤ k ↔ x < k) := by omega
  have hl : Function.update (spares n k).st.pool.live k true = (spares n (k + 1)).st.pool.live := by
    funext p
    by_cases hp : p = k
    · simp [hp, spares, initPool]
    · simp [hp, spares, initPool, hle]
  have hr : Function.update (spares n k).st.reqs k ⟨.seg 0, some k, []⟩ = (spares n (k + 1)).st.reqs := by
    funext i
    by_cases hi : i = k
    · simp [hi, spares]
    · simp [hi, spares, hle]
  rw [hl, hr]
  rfl

/-- Any number of requests can have a spare page. -/
theorem exec_spares {n : Nat} (hn : 0 < n) (hlt : n < 2 ^ 32) (k : Nat) :
    ∃ as, (cacheLts Nat).exec (initCache Nat n 0 fun _ => false) as = some (spares n k) := by
  induction k with
  | zero => exact ⟨[], by simp [spares, initCache, initState, initPool, Lts.exec]⟩
  | succ k ih =>
    obtain ⟨as, has⟩ := ih
    refine ⟨as ++ spareUp k, ?_⟩
    rw [Lts.exec_append, has]
    exact exec_spareUp hn hlt

omit [DecidableEq ι] in
/-- An idle page with no reserve, without a reconfiguration. -/
theorem not_respects {c : Cache ι} {x : Nat} (hx : x ∈ idle c.st.pool) (hr : c.st.pool.reserved = 0)
    (hc : c.config = none) : ¬ Respects c := by
  intro h
  have hle := h.idle_le
  rw [hr, hc, Option.getD_none, Set.encard_empty, Nat.cast_zero, max_self] at hle
  have hempty := Set.encard_eq_zero.mp (le_zero_iff.mp hle)
  rw [hempty] at hx
  exact hx

/-- With `2 ^ 32` spare pages the counter is 0, and a page that is released stays
although nothing is reserved. -/
theorem wrapped_exceeds_reserve :
    ∃ as c, (cacheLts Nat).exec (initCache Nat 1 0 fun _ => false) as = some c ∧ ¬ Respects c := by
  obtain ⟨as, has⟩ := exec_spares (n := 1) (by decide) (by decide) (2 ^ 32)
  refine ⟨as ++ [.call (.seg 0 true), .call (.out 0), .call (.release 0), .call (.releaseOne 0)], _,
    by rw [Lts.exec_append, has]; rfl, not_respects (x := 0) ⟨by decide, rfl, rfl⟩ rfl rfl⟩

end Ubbd.Pages

import Mathlib.Data.List.Nodup
import UbbdKernel.Pages.Model

/-!
# Who owns a data page index

`Effect` says once what a step of the calls can do to the pool and to the
slots of the requests. From it follow two invariants: a bit below `2 ^ 31` is
set exactly when one request has the index in one of its slots (`Bits`), and,
as long as all indices are below `2 ^ 31`, such an index has a page that is
nowhere else in the array and that nobody else has (`Arr`).

`page_index` is an `int`, so the index `2 ^ 31` becomes a negative number:
the bit of no index is set, and the page is stored far outside the array.
The ownership of pages is therefore exclusive in every state exactly for a
queue of at most `2 ^ 31` data pages (`owner_iff`).
-/

namespace Ubbd.Pages

variable {ι : Type}

/-! ## Indices -/

theorem findFirstZeroBit_le (b : Nat → Bool) (n : Nat) : findFirstZeroBit b n ≤ n := by
  unfold findFirstZeroBit
  cases h : (List.range n).find? fun k => !b k with
  | none => exact Nat.le_refl n
  | some k => exact Nat.le_of_lt (List.mem_range.mp (List.mem_of_find?_eq_some h))

theorem findFirstZeroBit_clear {b : Nat → Bool} {n : Nat} (h : findFirstZeroBit b n < n) :
    b (findFirstZeroBit b n) = false := by
  unfold findFirstZeroBit at h ⊢
  cases hf : (List.range n).find? fun k => !b k with
  | none => simp [hf] at h
  | some k => simpa using List.find?_some hf

theorem findFirstZeroBit_eq {b : Nat → Bool} {n k : Nat} (hk : k < n) (hb : ∀ j < k, b j = true)
    (hc : b k = false) : findFirstZeroBit b n = k := by
  have hf : ((List.range n).find? fun k => !b k) = some k :=
    List.find?_range_eq_some.mpr ⟨by simp [hc], List.mem_range.mpr hk, fun j hj => by simp [hb j hj]⟩
  rw [findFirstZeroBit, hf]
  rfl

theorem setBit_toInt32 (b : Nat → Bool) {k : Nat} (h : k < 2 ^ 32) :
    setBit b (toInt32 k) = if k < 2 ^ 31 then Function.update b k true else b := by
  unfold setBit
  by_cases hk : k < 2 ^ 31
  · rw [toInt32_of_lt hk, if_pos (by omega), if_pos hk, Int.toNat_natCast]
  · rw [toInt32_of_ge (by omega) h, if_neg (by omega), if_neg hk]

theorem clearBit_toInt32 (b : Nat → Bool) {k : Nat} (h : k < 2 ^ 32) :
    clearBit b (toInt32 k) = if k < 2 ^ 31 then Function.update b k false else b := by
  unfold clearBit
  by_cases hk : k < 2 ^ 31
  · rw [toInt32_of_lt hk, if_pos (by omega), if_pos hk, Int.toNat_natCast]
  · rw [toInt32_of_ge (by omega) h, if_neg (by omega), if_neg hk]

theorem toULong_toInt32 {k : Nat} (h : k < 2 ^ 31) : toULong (toInt32 k) = k := by
  rw [toInt32_of_lt h, toULong_ofNat (by omega)]

/-! ## The sections -/

/-- What a section that takes an index does. -/
structure Took (p : Pool) (newPage : Option Page) (p' : Pool) (newPage' : Option Page) (x : Nat) : Prop where
  lt : x < p.dataPages
  clear : p.bitmap x = false
  bitmap : p'.bitmap = setBit p.bitmap (toInt32 x)
  dataPages : p'.dataPages = p.dataPages
  live : p'.live = p.live
  array : ((p.array (toULong (toInt32 x))).isSome ∧ p'.array = p.array ∧ newPage' = newPage) ∨
    ∃ page, newPage = some page ∧ p.array (toULong (toInt32 x)) = none ∧
      p'.array = Function.update p.array (toULong (toInt32 x)) (some page) ∧ newPage' = none

theorem segSection_took {p p' : Pool} {newPage newPage' : Option Page} {ok : Bool} {x : Nat}
    (hn : p.dataPages < 2 ^ 32) (h : segSection p newPage ok = .took p' newPage' x) :
    Took p newPage p' newPage' x := by
  have hle := findFirstZeroBit_le p.bitmap p.dataPages
  have hk := toUInt32_toInt32 (n := findFirstZeroBit p.bitmap p.dataPages) (by omega)
  unfold segSection at h
  simp only [hk] at h
  split at h <;> [cases h; skip]
  rename_i hne
  have hclear := findFirstZeroBit_clear (b := p.bitmap) (n := p.dataPages) (by omega)
  split at h
  · rename_i page hpage
    cases h
    exact ⟨by omega, hclear, rfl, rfl, rfl, .inl ⟨by rw [hpage]; rfl, rfl, rfl⟩⟩
  · rename_i hpage
    split at h
    · cases h
    · split at h <;> [skip; cases h]
      cases h
      exact ⟨by omega, hclear, rfl, rfl, rfl, .inr ⟨_, rfl, hpage, rfl, rfl⟩⟩

/-- What `ubbd_release_page` does to the array and to the pages: nothing, or
the page of the index is taken out and freed. -/
theorem releaseSection_array (p : Pool) (x : Nat) :
    ((releaseSection p x).array = p.array ∧ (releaseSection p x).live = p.live) ∨
      ∃ page, p.array (toULong (toInt32 x)) = some page ∧
        (releaseSection p x).array = Function.update p.array (toULong (toInt32 x)) none ∧
        (releaseSection p x).live = Function.update p.live page false := by
  unfold releaseSection
  simp only
  split
  · split
    · exact .inl ⟨rfl, rfl⟩
    · rename_i page hpage
      exact .inr ⟨page, hpage, by simp only [Pool.free_array], by simp only [Pool.free_live]⟩
  · exact .inl ⟨rfl, rfl⟩

theorem releaseSection_bitmap (p : Pool) (x : Nat) :
    (releaseSection p x).bitmap = clearBit p.bitmap (toInt32 x) ∧
      (releaseSection p x).dataPages = p.dataPages := by
  unfold releaseSection
  simp only
  split
  · split
    · exact ⟨rfl, rfl⟩
    · exact ⟨by simp only [Pool.free_bitmap], by simp only [Pool.free_dataPages]⟩
  · exact ⟨rfl, rfl⟩

/-! ## Bits -/

/-- The bits of the bitmap are the indices in the slots: below `2 ^ 31`, a bit
is set exactly when a request has the index, in one slot and alone. -/
structure Bits (s : State ι) : Prop where
  size : s.pool.dataPages < 2 ^ 32
  lt : ∀ i, ∀ x ∈ (s.reqs i).pi, x < s.pool.dataPages
  high : ∀ x, 2 ^ 31 ≤ x → s.pool.bitmap x = false
  set : ∀ x < 2 ^ 31, (s.pool.bitmap x = true ↔ ∃ i, x ∈ (s.reqs i).pi)
  once : ∀ i, ∀ x < 2 ^ 31, (s.reqs i).pi.count x ≤ 1
  alone : ∀ i j, ∀ x < 2 ^ 31, x ∈ (s.reqs i).pi → x ∈ (s.reqs j).pi → i = j

theorem bits_init {n : Nat} (h : n < 2 ^ 32) (reserved : Nat) (live : Page → Bool) :
    Bits (initState ι n reserved live) := by
  refine ⟨h, ?_, fun _ _ => rfl, fun x _ => ?_, fun i x _ => Nat.zero_le _, ?_⟩
  · exact fun i x hx => nomatch hx
  · exact ⟨fun hb => (nomatch hb), fun ⟨_, hi⟩ => (nomatch hi)⟩
  · exact fun i j x _ hx => nomatch hx

theorem Bits.congr {s s' : State ι} (h : Bits s) (hn : s'.pool.dataPages = s.pool.dataPages)
    (hb : s'.pool.bitmap = s.pool.bitmap) (hpi : ∀ j, (s'.reqs j).pi = (s.reqs j).pi) : Bits s' := by
  refine ⟨by rw [hn]; exact h.size, ?_, by rw [hb]; exact h.high, ?_, ?_, ?_⟩
  · intro i x hx
    rw [hn]
    exact h.lt i x (by rwa [hpi] at hx)
  · intro x hx
    rw [hb, h.set x hx]
    simp only [hpi]
  · intro i x hx
    rw [hpi]
    exact h.once i x hx
  · intro i j x hx hi hj
    rw [hpi] at hi hj
    exact h.alone i j x hx hi hj

/-- No request has an index whose bit is clear. -/
theorem Bits.not_mem {s : State ι} (h : Bits s) {x : Nat} (hx : x < 2 ^ 31) (hc : s.pool.bitmap x = false)
    (i : ι) : x ∉ (s.reqs i).pi := by
  intro hi
  have := (h.set x hx).mpr ⟨i, hi⟩
  rw [hc] at this
  cases this

/-! ## Pages -/

/-- With indices below `2 ^ 31` only: the index in a slot has a page, the
array has its pages below `data_pages` and no page twice, and the spare pages
of calls are allocated pages that are nowhere else. -/
structure Arr (s : State ι) : Prop where
  small : s.pool.dataPages ≤ 2 ^ 31
  backed : ∀ i, ∀ x ∈ (s.reqs i).pi, (s.pool.array x).isSome
  below : ∀ x, (s.pool.array x).isSome → x < s.pool.dataPages
  inj : ∀ x y page, s.pool.array x = some page → s.pool.array y = some page → x = y
  live : ∀ x page, s.pool.array x = some page → s.pool.live page = true
  spare : ∀ i page, (s.reqs i).newPage = some page →
    s.pool.live page = true ∧ ∀ x, s.pool.array x ≠ some page
  spare_inj : ∀ i j page, (s.reqs i).newPage = some page → (s.reqs j).newPage = some page → i = j

theorem arr_init {n : Nat} (h : n ≤ 2 ^ 31) (reserved : Nat) (live : Page → Bool) :
    Arr (initState ι n reserved live) where
  small := h
  backed _ _ hx := nomatch hx
  below _ hx := nomatch hx
  inj _ _ _ hx := nomatch hx
  live _ _ hx := nomatch hx
  spare _ _ hx := nomatch hx
  spare_inj _ _ _ hx := nomatch hx

variable [DecidableEq ι]

/-! ## What a step can do -/

/-- The pools agree but for the counter. -/
def Pool.Same (p p' : Pool) : Prop :=
  p'.dataPages = p.dataPages ∧ p'.bitmap = p.bitmap ∧ p'.array = p.array ∧ p'.live = p.live

/-- What a step does to the pool, the slots and the spare pages. -/
inductive Effect (s s' : State ι) : Prop
  | frame (pool : s.pool.Same s'.pool) (pi : ∀ j, (s'.reqs j).pi = (s.reqs j).pi)
      (spare : ∀ j page, (s'.reqs j).newPage = some page → (s.reqs j).newPage = some page)
  | took (i : ι) (ok : Bool) (p : Pool) (pc : Pc) (newPage : Option Page) (x : Nat)
      (sec : segSection s.pool (s.reqs i).newPage ok = .took p newPage x)
      (eq : s' = (s.setPool p).setReq i ⟨pc, newPage, (s.reqs i).pi ++ [x]⟩)
  | alloc (i : ι) (pc : Pc) (page : Page) (fresh : s.pool.live page = false)
      (eq : s' = (s.setPool { s.pool with live := Function.update s.pool.live page true }).setReq i
        ⟨pc, some page, (s.reqs i).pi⟩)
  | free (i : ι) (pc : Pc) (page : Page) (spare : (s.reqs i).newPage = some page)
      (eq : s' = (s.setPool { s.pool with live := Function.update s.pool.live page false }).setReq i
        ⟨pc, none, (s.reqs i).pi⟩)
  | release (i : ι) (x : Nat) (l r : List Nat) (slots : (s.reqs i).pi = l ++ x :: r)
      (eq : s' = (s.setPool (releaseSection s.pool x)).setReq i { s.reqs i with pi := l ++ r })

theorem Pool.Same.refl (p : Pool) : p.Same p := ⟨rfl, rfl, rfl, rfl⟩

/-- A step that changes only the program counter of a request, may drop its
spare page, and may change the counter. -/
theorem Effect.of_setReq {s : State ι} {p : Pool} (hp : s.pool.Same p) {i : ι} {r : Req}
    (hpi : r.pi = (s.reqs i).pi) (hnew : ∀ page, r.newPage = some page → (s.reqs i).newPage = some page) :
    Effect s ((s.setPool p).setReq i r) := by
  refine .frame hp (fun j => ?_) fun j page h => ?_
  · rw [State.setReq_reqs]
    split
    · rename_i hj
      rw [hj, hpi]
    · rfl
  · rw [State.setReq_reqs] at h
    split at h
    · rename_i hj
      rw [hj]
      exact hnew page h
    · exact h

theorem Effect.of_pc {s : State ι} {i : ι} (pc : Pc) : Effect s (s.setReq i { s.reqs i with pc := pc }) :=
  Effect.of_setReq (p := s.pool) (Pool.Same.refl _) rfl fun _ h => h

theorem segSection_storeFailed {p : Pool} {newPage : Option Page} {ok : Bool} {page : Page}
    (h : segSection p newPage ok = .storeFailed page) : newPage = some page := by
  unfold segSection at h
  simp only at h
  split at h <;> [cases h; skip]
  split at h <;> [cases h; skip]
  split at h <;> [cases h; skip]
  split at h <;> [cases h; skip]
  cases h
  rfl

/-- The step relation, once and for all. -/
theorem step_effect {s s' : State ι} {a : Label ι} (h : step s a = some s') : Effect s s' := by
  cases a with
  | get i n =>
    simp only [step] at h
    split at h <;> cases h
    exact Effect.of_setReq (p := s.pool) (Pool.Same.refl _) rfl fun page hp => nomatch hp
  | seg i ok =>
    simp only [step] at h
    split at h <;> cases h
    rename_i n hpc
    cases hsec : segSection s.pool (s.reqs i).newPage ok with
    | full => exact Effect.of_pc _
    | needPage => exact Effect.of_pc _
    | storeFailed page =>
      refine Effect.of_setReq (p := s.pool) (Pool.Same.refl _) rfl fun q hq => ?_
      rw [segSection_storeFailed hsec]
      exact hq
    | took p newPage x => exact .took i ok p _ newPage x hsec rfl
  | alloc i page =>
    simp only [step] at h
    split at h
    · cases h
      exact Effect.of_pc _
    · split at h <;> cases h
      rename_i hlive
      exact .alloc i _ _ (by simpa using hlive) rfl
    · cases h
  | incLoad i =>
    simp only [step] at h
    split at h <;> cases h
    exact Effect.of_pc _
  | incStore i =>
    simp only [step] at h
    split at h <;> cases h
    refine Effect.of_setReq (s := s) (i := i) ?_ rfl fun _ h => h
    exact ⟨rfl, rfl, rfl, rfl⟩
  | out i =>
    simp only [step] at h
    split at h
    · cases h
      exact Effect.of_pc _
    · cases h
      exact Effect.of_pc _
    · cases h
  | free i =>
    simp only [step] at h
    split at h <;> cases h
    rename_i hpage
    exact .free i _ _ hpage rfl
  | decLoad i =>
    simp only [step] at h
    split at h <;> cases h
    exact Effect.of_pc _
  | decStore i =>
    simp only [step] at h
    split at h <;> cases h
    refine Effect.of_setReq (s := s) (i := i) ?_ rfl fun _ h => h
    exact ⟨rfl, rfl, rfl, rfl⟩
  | undo i =>
    simp only [step] at h
    split at h <;> [skip; cases h]
    split at h
    · cases h
      exact Effect.of_pc _
    · rename_i x hx
      cases h
      have hpi := List.dropLast_append_getLast? x hx
      exact .release i x _ [] hpi.symm (by rw [List.append_nil])
  | release i =>
    simp only [step] at h
    split at h <;> cases h
    exact Effect.of_pc _
  | releaseOne i =>
    simp only [step] at h
    split at h <;> [skip; cases h]
    split at h
    · cases h
      exact Effect.of_pc _
    · rename_i x xs hx
      cases h
      exact .release i x [] xs hx rfl

/-! ## The bits in a run -/

theorem ite_update_of_ne {b : Nat → Bool} {x y : Nat} {v : Bool} (h : y ≠ x) :
    (if x < 2 ^ 31 then Function.update b x v else b) y = b y := by
  split
  · exact Function.update_of_ne h ..
  · rfl

theorem Bits.took {s : State ι} (h : Bits s) {i : ι} {p : Pool} {pc : Pc} {newPage : Option Page} {x : Nat}
    (ht : Took s.pool (s.reqs i).newPage p newPage x) :
    Bits ((s.setPool p).setReq i ⟨pc, newPage, (s.reqs i).pi ++ [x]⟩) := by
  have hsize := h.size
  have hlt := ht.lt
  have hbit : p.bitmap = if x < 2 ^ 31 then Function.update s.pool.bitmap x true else s.pool.bitmap := by
    rw [ht.bitmap, setBit_toInt32 _ (by omega)]
  have hmem : ∀ (j : ι) (y : Nat),
      y ∈ (((s.setPool p).setReq i ⟨pc, newPage, (s.reqs i).pi ++ [x]⟩).reqs j).pi ↔
        y ∈ (s.reqs j).pi ∨ (j = i ∧ y = x) := by
    intro j y
    rw [State.setReq_reqs]
    split
    · rename_i hj
      rw [hj]
      simp
    · rename_i hj
      simp [hj]
  refine ⟨by rw [State.setReq_pool, State.setPool_pool, ht.dataPages]; exact hsize, ?_, ?_, ?_, ?_, ?_⟩
  · intro j y hy
    rw [State.setReq_pool, State.setPool_pool, ht.dataPages]
    rcases (hmem j y).mp hy with hy | ⟨-, rfl⟩
    · exact h.lt j y hy
    · exact hlt
  · intro y hy
    rw [State.setReq_pool, State.setPool_pool, hbit]
    split
    · rw [Function.update_of_ne (by omega)]
      exact h.high y hy
    · exact h.high y hy
  · intro y hy
    rw [State.setReq_pool, State.setPool_pool, hbit]
    simp only [hmem]
    by_cases hyx : y = x
    · subst hyx
      rw [if_pos hy, Function.update_self]
      exact ⟨fun _ => ⟨i, .inr ⟨rfl, rfl⟩⟩, fun _ => rfl⟩
    · rw [ite_update_of_ne hyx, h.set y hy]
      simp [hyx]
  · intro j y hy
    rw [State.setReq_reqs]
    split
    · by_cases hyx : y = x
      · subst hyx
        have := h.not_mem hy ht.clear i
        simp [List.count_eq_zero_of_not_mem this]
      · rw [List.count_append, List.count_cons_of_ne (Ne.symm hyx), List.count_nil]
        exact h.once i y hy
    · exact h.once j y hy
  · intro j k y hy hj hk
    rcases (hmem j y).mp hj with hj' | ⟨hji, hyx⟩ <;> rcases (hmem k y).mp hk with hk' | ⟨hki, hyx'⟩
    · exact h.alone j k y hy hj' hk'
    · subst hyx'
      exact absurd hj' (h.not_mem hy ht.clear j)
    · subst hyx
      exact absurd hk' (h.not_mem hy ht.clear k)
    · rw [hji, hki]

theorem Bits.release {s : State ι} (h : Bits s) {i : ι} {x : Nat} {l r : List Nat}
    (hs : (s.reqs i).pi = l ++ x :: r) :
    Bits ((s.setPool (releaseSection s.pool x)).setReq i { s.reqs i with pi := l ++ r }) ∧
      ∀ j, ∀ y < 2 ^ 31,
        y ∈ (((s.setPool (releaseSection s.pool x)).setReq i { s.reqs i with pi := l ++ r }).reqs j).pi →
          y ∈ (s.reqs j).pi ∧ y ≠ x := by
  obtain ⟨hb, hn⟩ := releaseSection_bitmap s.pool x
  have hsize := h.size
  have hx := h.lt i x (by rw [hs]; simp)
  have hbit : (releaseSection s.pool x).bitmap =
      if x < 2 ^ 31 then Function.update s.pool.bitmap x false else s.pool.bitmap := by
    rw [hb, clearBit_toInt32 _ (by omega)]
  have hcount : ∀ y, (l ++ r).count y ≤ (s.reqs i).pi.count y := by
    intro y
    rw [hs, List.count_append, List.count_append, List.count_cons]
    omega
  have hnot : x < 2 ^ 31 → x ∉ l ++ r := by
    intro hx31 hmem
    have h₁ := h.once i x hx31
    have h₂ := List.count_pos_iff.mpr hmem
    rw [hs, List.count_append, List.count_cons_self] at h₁
    rw [List.count_append] at h₂
    omega
  have hmem : ∀ (j : ι) (y : Nat), y < 2 ^ 31 →
      (y ∈ (((s.setPool (releaseSection s.pool x)).setReq i { s.reqs i with pi := l ++ r }).reqs j).pi ↔
        y ∈ (s.reqs j).pi ∧ y ≠ x) := by
    intro j y hy
    rw [State.setReq_reqs]
    split
    · rename_i hj
      rw [hj, hs]
      by_cases hyx : y = x
      · subst hyx
        simp only [ne_eq, not_true_eq_false, and_false, iff_false]
        exact hnot hy
      · simp [hyx]
    · rename_i hj
      refine ⟨fun hm => ⟨hm, fun hyx => hj ?_⟩, fun hm => hm.1⟩
      subst hyx
      exact h.alone j i y hy hm (by rw [hs]; simp)
  refine ⟨⟨by rw [State.setReq_pool, State.setPool_pool, hn]; exact hsize, ?_, ?_, ?_, ?_, ?_⟩,
    fun j y hy => (hmem j y hy).mp⟩
  · intro j y hy
    rw [State.setReq_pool, State.setPool_pool, hn]
    rw [State.setReq_reqs] at hy
    split at hy
    · refine h.lt i y ?_
      rw [hs]
      simp only [List.mem_append, List.mem_cons] at hy ⊢
      rcases hy with hy | hy
      · exact .inl hy
      · exact .inr (.inr hy)
    · exact h.lt j y hy
  · intro y hy
    rw [State.setReq_pool, State.setPool_pool, hbit]
    split
    · rw [Function.update_of_ne (by omega)]
      exact h.high y hy
    · exact h.high y hy
  · intro y hy
    rw [State.setReq_pool, State.setPool_pool, hbit]
    by_cases hyx : y = x
    · subst hyx
      rw [if_pos hy, Function.update_self]
      refine ⟨fun hf => (nomatch hf), fun ⟨j, hj⟩ => ?_⟩
      exact absurd rfl ((hmem j y hy).mp hj).2
    · rw [ite_update_of_ne hyx, h.set y hy]
      exact exists_congr fun j => ⟨fun hj => (hmem j y hy).mpr ⟨hj, hyx⟩, fun hj => ((hmem j y hy).mp hj).1⟩
  · intro j y hy
    rw [State.setReq_reqs]
    split
    · exact Nat.le_trans (hcount y) (h.once i y hy)
    · exact h.once j y hy
  · intro j k y hy hj hk
    exact h.alone j k y hy ((hmem j y hy).mp hj).1 ((hmem k y hy).mp hk).1

theorem Effect.bits {s s' : State ι} (e : Effect s s') (h : Bits s) : Bits s' := by
  cases e with
  | frame pool pi spare => exact h.congr pool.1 pool.2.1 pi
  | took i ok p pc newPage x sec eq =>
    subst eq
    exact h.took (segSection_took h.size sec)
  | alloc i pc page fresh eq =>
    subst eq
    refine h.congr rfl rfl fun j => ?_
    rw [State.setReq_reqs]
    split
    · rename_i hj
      rw [hj]
    · rfl
  | free i pc page spare eq =>
    subst eq
    refine h.congr rfl rfl fun j => ?_
    rw [State.setReq_reqs]
    split
    · rename_i hj
      rw [hj]
    · rfl
  | release i x l r slots eq =>
    subst eq
    exact (h.release slots).1

/-! ## The pages in a run -/

/-- The spare pages after the spare page of `i` is replaced. -/
theorem setReq_newPage {s : State ι} {p : Pool} {i j : ι} {r : Req} {page : Page}
    (h : (((s.setPool p).setReq i r).reqs j).newPage = some page) :
    (j = i ∧ r.newPage = some page) ∨ (j ≠ i ∧ (s.reqs j).newPage = some page) := by
  rw [State.setReq_reqs] at h
  split at h
  · rename_i hj
    exact .inl ⟨hj, h⟩
  · rename_i hj
    exact .inr ⟨hj, h⟩

theorem setReq_pi {s : State ι} {p : Pool} {i j : ι} {r : Req} {x : Nat}
    (h : x ∈ (((s.setPool p).setReq i r).reqs j).pi) :
    (j = i ∧ x ∈ r.pi) ∨ (j ≠ i ∧ x ∈ (s.reqs j).pi) := by
  rw [State.setReq_reqs] at h
  split at h
  · rename_i hj
    exact .inl ⟨hj, h⟩
  · rename_i hj
    exact .inr ⟨hj, h⟩

theorem Arr.took {s : State ι} (h : Arr s) {i : ι} {p : Pool} {pc : Pc} {newPage : Option Page} {x : Nat}
    (ht : Took s.pool (s.reqs i).newPage p newPage x) :
    Arr ((s.setPool p).setReq i ⟨pc, newPage, (s.reqs i).pi ++ [x]⟩) := by
  have hx := Nat.lt_of_lt_of_le ht.lt h.small
  have harr := ht.array
  rw [toULong_toInt32 hx] at harr
  have hsmall : p.dataPages ≤ 2 ^ 31 := by rw [ht.dataPages]; exact h.small
  rcases harr with ⟨hsome, harr, hnew⟩ | ⟨page, hpage, hnone, harr, hnew⟩
  · -- the index has its page already
    refine ⟨hsmall, fun j y hy => ?_, ?_, ?_, ?_, fun j q hq => ?_, fun j k q hj hk => ?_⟩
    · rw [State.setReq_pool, State.setPool_pool, harr]
      rcases setReq_pi hy with ⟨-, hy⟩ | ⟨-, hy⟩
      · rcases List.mem_append.mp hy with hy | hy
        · exact h.backed i y hy
        · rw [List.mem_singleton.mp hy]
          exact hsome
      · exact h.backed j y hy
    · simp only [State.setReq_pool, State.setPool_pool, harr, ht.dataPages]
      exact h.below
    · simp only [State.setReq_pool, State.setPool_pool, harr]
      exact h.inj
    · simp only [State.setReq_pool, State.setPool_pool, harr, ht.live]
      exact h.live
    · simp only [State.setReq_pool, State.setPool_pool, harr, ht.live]
      rcases setReq_newPage hq with ⟨-, hq⟩ | ⟨-, hq⟩
      · exact h.spare i q (by rw [← hnew]; exact hq)
      · exact h.spare j q hq
    · rcases setReq_newPage hj with ⟨rfl, hj⟩ | ⟨hji, hj⟩ <;>
        rcases setReq_newPage hk with ⟨hki, hk⟩ | ⟨hki, hk⟩
      · exact hki.symm
      · exact h.spare_inj j k q (by rw [← hnew]; exact hj) hk
      · rw [hki]
        exact h.spare_inj j i q hj (by rw [← hnew]; exact hk)
      · exact h.spare_inj j k q hj hk
  · -- the spare page of the call becomes its page
    obtain ⟨hlive, habsent⟩ := h.spare i page hpage
    have hold : ∀ y q, Function.update s.pool.array x (some page) y = some q →
        (y = x ∧ q = page) ∨ (y ≠ x ∧ s.pool.array y = some q) := by
      intro y q hq
      by_cases hy : y = x
      · subst hy
        rw [Function.update_self] at hq
        exact .inl ⟨rfl, by simpa using hq.symm⟩
      · rw [Function.update_of_ne hy] at hq
        exact .inr ⟨hy, hq⟩
    have hspare : ∀ j q, (((s.setPool p).setReq i ⟨pc, newPage, (s.reqs i).pi ++ [x]⟩).reqs j).newPage =
        some q → j ≠ i ∧ (s.reqs j).newPage = some q := by
      intro j q hq
      rcases setReq_newPage hq with ⟨-, hq⟩ | hq
      · rw [hnew] at hq
        cases hq
      · exact hq
    refine ⟨hsmall, fun j y hy => ?_, fun y hy => ?_, fun y z q hy hz => ?_, fun y q hy => ?_,
      fun j q hq => ?_, fun j k q hj hk => ?_⟩
    · rw [State.setReq_pool, State.setPool_pool, harr]
      by_cases hyx : y = x
      · rw [hyx, Function.update_self]
        rfl
      · rw [Function.update_of_ne hyx]
        rcases setReq_pi hy with ⟨-, hy⟩ | ⟨-, hy⟩
        · rcases List.mem_append.mp hy with hy | hy
          · exact h.backed i y hy
          · exact absurd (List.mem_singleton.mp hy) hyx
        · exact h.backed j y hy
    · rw [State.setReq_pool, State.setPool_pool, harr] at hy
      rw [State.setReq_pool, State.setPool_pool, ht.dataPages]
      obtain ⟨q, hq⟩ := Option.isSome_iff_exists.mp hy
      rcases hold y q hq with ⟨rfl, -⟩ | ⟨-, hq⟩
      · exact ht.lt
      · exact h.below y (by rw [hq]; rfl)
    · rw [State.setReq_pool, State.setPool_pool, harr] at hy hz
      rcases hold y q hy with ⟨hyx, hqp⟩ | ⟨-, hy'⟩ <;> rcases hold z q hz with ⟨hzx, hqp'⟩ | ⟨-, hz'⟩
      · rw [hyx, hzx]
      · exact absurd (by rw [← hqp]; exact hz') (habsent z)
      · exact absurd (by rw [← hqp']; exact hy') (habsent y)
      · exact h.inj y z q hy' hz'
    · rw [State.setReq_pool, State.setPool_pool, harr] at hy
      rw [State.setReq_pool, State.setPool_pool, ht.live]
      rcases hold y q hy with ⟨-, rfl⟩ | ⟨-, hy⟩
      · exact hlive
      · exact h.live y q hy
    · obtain ⟨hji, hq⟩ := hspare j q hq
      rw [State.setReq_pool, State.setPool_pool, ht.live, harr]
      refine ⟨(h.spare j q hq).1, fun y hy => ?_⟩
      rcases hold y q hy with ⟨-, rfl⟩ | ⟨-, hy⟩
      · exact hji (h.spare_inj j i q hq hpage)
      · exact (h.spare j q hq).2 y hy
    · exact h.spare_inj j k q (hspare j q hj).2 (hspare k q hk).2

theorem Arr.alloc {s : State ι} (h : Arr s) {i : ι} {pc : Pc} {page : Page}
    (hfresh : s.pool.live page = false) :
    Arr ((s.setPool { s.pool with live := Function.update s.pool.live page true }).setReq i
      ⟨pc, some page, (s.reqs i).pi⟩) := by
  have harr : ∀ x, s.pool.array x ≠ some page := fun x hx => by
    have := h.live x page hx
    rw [hfresh] at this
    cases this
  have hnone : ∀ j, (s.reqs j).newPage ≠ some page := fun j hj => by
    have := (h.spare j page hj).1
    rw [hfresh] at this
    cases this
  have hup : ∀ q, s.pool.live q = true → Function.update s.pool.live page true q = true := by
    intro q hq
    rw [Function.update_apply]
    split
    · rfl
    · exact hq
  refine ⟨h.small, fun j y hy => ?_, h.below, h.inj, fun x q hq => hup q (h.live x q hq),
    fun j q hq => ?_, fun j k q hj hk => ?_⟩
  · rcases setReq_pi hy with ⟨-, hy⟩ | ⟨-, hy⟩
    · exact h.backed i y hy
    · exact h.backed j y hy
  · rcases setReq_newPage hq with ⟨-, hq⟩ | ⟨-, hq⟩
    · obtain rfl : page = q := by simpa using hq
      exact ⟨Function.update_self .., harr⟩
    · exact ⟨hup q (h.spare j q hq).1, (h.spare j q hq).2⟩
  · rcases setReq_newPage hj with ⟨hji, hj⟩ | ⟨hji, hj⟩ <;>
      rcases setReq_newPage hk with ⟨hki, hk⟩ | ⟨hki, hk⟩
    · rw [hji, hki]
    · obtain rfl : page = q := by simpa using hj
      exact absurd hk (hnone k)
    · obtain rfl : page = q := by simpa using hk
      exact absurd hj (hnone j)
    · exact h.spare_inj j k q hj hk

theorem Arr.free {s : State ι} (h : Arr s) {i : ι} {pc : Pc} {page : Page}
    (hspare : (s.reqs i).newPage = some page) :
    Arr ((s.setPool { s.pool with live := Function.update s.pool.live page false }).setReq i
      ⟨pc, none, (s.reqs i).pi⟩) := by
  have hothers : ∀ j q, (((s.setPool { s.pool with live := Function.update s.pool.live page false }).setReq i
      ⟨pc, none, (s.reqs i).pi⟩).reqs j).newPage = some q → j ≠ i ∧ (s.reqs j).newPage = some q := by
    intro j q hq
    rcases setReq_newPage hq with ⟨-, hq⟩ | hq
    · cases hq
    · exact hq
  refine ⟨h.small, fun j y hy => ?_, h.below, h.inj, fun x q hq => ?_, fun j q hq => ?_,
    fun j k q hj hk => h.spare_inj j k q (hothers j q hj).2 (hothers k q hk).2⟩
  · rcases setReq_pi hy with ⟨-, hy⟩ | ⟨-, hy⟩
    · exact h.backed i y hy
    · exact h.backed j y hy
  · have hne : q ≠ page := fun hqp => (h.spare i page hspare).2 x (by rw [← hqp]; exact hq)
    show Function.update s.pool.live page false q = true
    rw [Function.update_of_ne hne]
    exact h.live x q hq
  · obtain ⟨hji, hq⟩ := hothers j q hq
    have hne : q ≠ page := fun hqp => hji (h.spare_inj j i q hq (by rw [hqp]; exact hspare))
    refine ⟨?_, (h.spare j q hq).2⟩
    show Function.update s.pool.live page false q = true
    rw [Function.update_of_ne hne]
    exact (h.spare j q hq).1

theorem Arr.release {s : State ι} (h : Arr s) (hb : Bits s) {i : ι} {x : Nat} {l r : List Nat}
    (hs : (s.reqs i).pi = l ++ x :: r) :
    Arr ((s.setPool (releaseSection s.pool x)).setReq i { s.reqs i with pi := l ++ r }) := by
  have hx := Nat.lt_of_lt_of_le (hb.lt i x (by rw [hs]; simp)) h.small
  obtain ⟨hb', hmem⟩ := hb.release hs
  have hn := (releaseSection_bitmap s.pool x).2
  have hkeep : ∀ j, ∀ y ∈
      (((s.setPool (releaseSection s.pool x)).setReq i { s.reqs i with pi := l ++ r }).reqs j).pi,
      y ∈ (s.reqs j).pi ∧ y ≠ x := by
    intro j y hy
    have hlt := hb'.lt j y hy
    rw [State.setReq_pool, State.setPool_pool, hn] at hlt
    exact hmem j y (Nat.lt_of_lt_of_le hlt h.small) hy
  have hnew : ∀ j q,
      (((s.setPool (releaseSection s.pool x)).setReq i { s.reqs i with pi := l ++ r }).reqs j).newPage =
        some q → (s.reqs j).newPage = some q := by
    intro j q hq
    rcases setReq_newPage hq with ⟨rfl, hq⟩ | ⟨-, hq⟩ <;> exact hq
  have hsmall : (releaseSection s.pool x).dataPages ≤ 2 ^ 31 := by rw [hn]; exact h.small
  have harr := releaseSection_array s.pool x
  rw [toULong_toInt32 hx] at harr
  rcases harr with ⟨harr, hlive⟩ | ⟨page, hpage, harr, hlive⟩
  · refine ⟨hsmall, fun j y hy => ?_, ?_, ?_, ?_, fun j q hq => ?_,
      fun j k q hj hk => h.spare_inj j k q (hnew j q hj) (hnew k q hk)⟩
    · rw [State.setReq_pool, State.setPool_pool, harr]
      exact h.backed j y (hkeep j y hy).1
    · simp only [State.setReq_pool, State.setPool_pool, harr, hn]
      exact h.below
    · simp only [State.setReq_pool, State.setPool_pool, harr]
      exact h.inj
    · simp only [State.setReq_pool, State.setPool_pool, harr, hlive]
      exact h.live
    · simp only [State.setReq_pool, State.setPool_pool, harr, hlive]
      exact h.spare j q (hnew j q hq)
  · -- the page of the index is taken out and freed
    have hold : ∀ y q, Function.update s.pool.array x none y = some q → y ≠ x ∧ s.pool.array y = some q := by
      intro y q hq
      by_cases hy : y = x
      · rw [hy, Function.update_self] at hq
        cases hq
      · rw [Function.update_of_ne hy] at hq
        exact ⟨hy, hq⟩
    refine ⟨hsmall, fun j y hy => ?_, fun y hy => ?_, fun y z q hy hz => ?_, fun y q hy => ?_,
      fun j q hq => ?_, fun j k q hj hk => h.spare_inj j k q (hnew j q hj) (hnew k q hk)⟩
    · obtain ⟨hy, hyx⟩ := hkeep j y hy
      rw [State.setReq_pool, State.setPool_pool, harr, Function.update_of_ne hyx]
      exact h.backed j y hy
    · rw [State.setReq_pool, State.setPool_pool, harr] at hy
      rw [State.setReq_pool, State.setPool_pool, hn]
      obtain ⟨q, hq⟩ := Option.isSome_iff_exists.mp hy
      exact h.below y (by rw [(hold y q hq).2]; rfl)
    · rw [State.setReq_pool, State.setPool_pool, harr] at hy hz
      exact h.inj y z q (hold y q hy).2 (hold z q hz).2
    · rw [State.setReq_pool, State.setPool_pool, harr] at hy
      obtain ⟨hyx, hy⟩ := hold y q hy
      have hne : q ≠ page := fun hqp => hyx (h.inj y x q hy (by rw [hqp]; exact hpage))
      rw [State.setReq_pool, State.setPool_pool, hlive, Function.update_of_ne hne]
      exact h.live y q hy
    · obtain ⟨hq₁, hq₂⟩ := h.spare j q (hnew j q hq)
      have hne : q ≠ page := fun hqp => hq₂ x (by rw [hqp]; exact hpage)
      rw [State.setReq_pool, State.setPool_pool, hlive, harr, Function.update_of_ne hne]
      exact ⟨hq₁, fun y hy => hq₂ y (hold y q hy).2⟩

theorem Effect.arr {s s' : State ι} (e : Effect s s') (hb : Bits s) (h : Arr s) : Arr s' := by
  cases e with
  | frame pool pi spare =>
    obtain ⟨hn, -, harr, hlive⟩ := pool
    refine ⟨by rw [hn]; exact h.small, fun i x hx => ?_, ?_, ?_, ?_, fun i q hq => ?_,
      fun i j q hi hj => h.spare_inj i j q (spare i q hi) (spare j q hj)⟩
    · rw [harr]
      exact h.backed i x (by rwa [pi] at hx)
    · simp only [harr, hn]
      exact h.below
    · simp only [harr]
      exact h.inj
    · simp only [harr, hlive]
      exact h.live
    · simp only [harr, hlive]
      exact h.spare i q (spare i q hq)
  | took i ok p pc newPage x sec eq =>
    subst eq
    exact h.took (segSection_took hb.size sec)
  | alloc i pc page fresh eq =>
    subst eq
    exact h.alloc fresh
  | free i pc page spare eq =>
    subst eq
    exact h.free spare
  | release i x l r slots eq =>
    subst eq
    exact h.release hb slots

/-! ## Exclusive ownership -/

/-- The data pages of the requests are theirs alone: the indices in the slots
of all requests are pairwise different; each is below `data_pages`, has its
bit set and has a page, which `ubbd_release_page` and the copy functions
find; the array has pages below `data_pages` only, and none twice; and no two
requests have the same page. -/
structure Owner (s : State ι) : Prop where
  nodup : ∀ i, (s.reqs i).pi.Nodup
  alone : ∀ i j, i ≠ j → ∀ x ∈ (s.reqs i).pi, x ∉ (s.reqs j).pi
  held : ∀ i, ∀ x ∈ (s.reqs i).pi, x < s.pool.dataPages ∧ s.pool.bitmap x = true ∧
    (s.pool.array x).isSome ∧ (s.pool.array (toULong (toInt32 x))).isSome
  below : ∀ x, (s.pool.array x).isSome → x < s.pool.dataPages
  inj : ∀ x y page, s.pool.array x = some page → s.pool.array y = some page → x = y
  unshared : ∀ i j, i ≠ j → ∀ x ∈ (s.reqs i).pi, ∀ y ∈ (s.reqs j).pi, s.pool.array x ≠ s.pool.array y

omit [DecidableEq ι] in
theorem Arr.owner {s : State ι} (h : Arr s) (hb : Bits s) : Owner s := by
  have hlt : ∀ i, ∀ x ∈ (s.reqs i).pi, x < 2 ^ 31 := fun i x hx =>
    Nat.lt_of_lt_of_le (hb.lt i x hx) h.small
  have halone : ∀ i j, i ≠ j → ∀ x ∈ (s.reqs i).pi, x ∉ (s.reqs j).pi := fun i j hij x hi hj =>
    hij (hb.alone i j x (hlt i x hi) hi hj)
  refine ⟨fun i => ?_, halone, fun i x hx => ?_, h.below, h.inj, fun i j hij x hx y hy heq => ?_⟩
  · refine List.nodup_iff_count_le_one.mpr fun x => ?_
    by_cases hx : x ∈ (s.reqs i).pi
    · exact hb.once i x (hlt i x hx)
    · rw [List.count_eq_zero_of_not_mem hx]
      exact Nat.zero_le 1
  · rw [toULong_toInt32 (hlt i x hx)]
    exact ⟨hb.lt i x hx, (hb.set x (hlt i x hx)).mpr ⟨i, hx⟩, h.backed i x hx, h.backed i x hx⟩
  · obtain ⟨page, hpage⟩ := Option.isSome_iff_exists.mp (h.backed i x hx)
    obtain rfl := h.inj x y page hpage (by rw [← heq]; exact hpage)
    exact halone i j hij x hx hy

/-! ### More than `2 ^ 31` data pages -/

/-- The state after requests `0`, …, `k - 1`, each with one segment, have
taken the indices `0`, …, `k - 1`. -/
def taken (n reserved k : Nat) : State Nat where
  pool :=
    { dataPages := n
      bitmap := fun x => x < k
      array := fun x => if x < k then some x else none
      allocated := k
      reserved := reserved
      live := fun x => x < k }
  reqs := fun i => if i < k then ⟨.ready, none, [i]⟩ else Req.fresh

/-- The labels of a request with one segment, up to its second section. -/
def takeUp (k : Nat) : List (Label Nat) :=
  [.get k 1, .seg k true, .alloc k (some k), .incLoad k, .incStore k, .seg k true]

theorem taken_zero (n reserved : Nat) : taken n reserved 0 = initState Nat n reserved fun _ => false := by
  simp [taken, initState, initPool]

theorem taken_index {n k : Nat} (reserved : Nat) (hk : k < n) :
    findFirstZeroBit (taken n reserved k).pool.bitmap n = k :=
  findFirstZeroBit_eq hk (fun j hj => by simpa [taken] using hj) (by simp [taken])

theorem le_toULong_toInt32 {k : Nat} (hk : k ≤ 2 ^ 31) : k ≤ toULong (toInt32 k) := by
  rcases Nat.lt_or_eq_of_le hk with h | rfl
  · exact Nat.le_of_eq (toULong_toInt32 h).symm
  · decide

/-- A section that finds an index without a page. -/
theorem segSection_absent {p : Pool} {k : Nat} (hidx : findFirstZeroBit p.bitmap p.dataPages = k)
    (hk : k < p.dataPages) (hn : p.dataPages < 2 ^ 32) (hnone : p.array (toULong (toInt32 k)) = none) :
    segSection p none true = .needPage ∧
      ∀ page, segSection p (some page) true = .took { p with
        array := Function.update p.array (toULong (toInt32 k)) (some page)
        bitmap := setBit p.bitmap (toInt32 k) } none k := by
  have hu := toUInt32_toInt32 (n := k) (by omega)
  have hne : ¬ k = p.dataPages := by omega
  simp only [segSection, hidx, hu, if_neg hne, hnone, ite_true, implies_true, and_self]

/-- Request `k` takes the index `k`: it finds no page, allocates one, and
stores it. -/
theorem exec_takeUp {n k : Nat} (reserved : Nat) (hk : k < n) (hn : n < 2 ^ 32) (hk' : k ≤ 2 ^ 31) :
    (lts Nat).exec (taken n reserved k) (takeUp k) = some
      { pool :=
          { (taken n reserved k).pool with
            bitmap := setBit (taken n reserved k).pool.bitmap (toInt32 k)
            array := Function.update (taken n reserved k).pool.array (toULong (toInt32 k)) (some k)
            allocated := k + 1
            live := Function.update (taken n reserved k).pool.live k true }
        reqs := Function.update (taken n reserved k).reqs k ⟨.out false, none, [k]⟩ } := by
  have hidx := taken_index reserved hk
  have hnone : (taken n reserved k).pool.array (toULong (toInt32 k)) = none := by
    have := le_toULong_toInt32 hk'
    simp only [taken]
    rw [if_neg (by omega)]
  have hfresh : (taken n reserved k).reqs k = ⟨.idle, none, []⟩ := by simp [taken, Req.fresh]
  have hlive : (taken n reserved k).pool.live k = false := by simp [taken]
  have hinc : inc32 (taken n reserved k).pool.allocated = k + 1 := by
    show (if k = 2 ^ 32 - 1 then 0 else k + 1) = k + 1
    rw [if_neg (by omega)]
  have hneed := (segSection_absent (p := (taken n reserved k).pool) hidx hk hn hnone).1
  have htake := (segSection_absent (p := { (taken n reserved k).pool with
    allocated := k + 1
    live := Function.update (taken n reserved k).pool.live k true }) hidx hk hn hnone).2 k
  simp only [Lts.exec, lts, takeUp, step, State.setReq, State.setPool, State.seg, loopPc, hfresh,
    Function.update_self, Function.update_idem, Option.bind_some, if_true, hneed, hlive, hinc, htake,
    List.nil_append, Bool.false_eq_true, if_false]

/-- Its last step, and the request has its page. -/
theorem exec_take {n k : Nat} (reserved : Nat) (hk : k < n) (hn : n < 2 ^ 32) (hk' : k < 2 ^ 31) :
    (lts Nat).exec (taken n reserved k) (takeUp k ++ [.out k]) = some (taken n reserved (k + 1)) := by
  rw [Lts.exec_append, exec_takeUp reserved hk hn (Nat.le_of_lt hk')]
  simp only [Lts.exec, lts, step, State.setReq, Option.bind_some, Function.update_self,
    Function.update_idem, Option.some.injEq]
  rw [setBit_toInt32 _ (by omega), if_pos hk', toULong_toInt32 hk']
  simp only [taken, State.mk.injEq, Pool.mk.injEq, true_and]
  have hlt : ∀ x : Nat, x ≠ k → (x < k + 1 ↔ x < k) := by omega
  refine ⟨⟨?_, ?_, ?_⟩, ?_⟩ <;> funext x <;> rw [Function.update_apply] <;> by_cases hx : x = k
  all_goals simp [hx, hlt]

/-- Any number of indices up to `2 ^ 31` can be taken. -/
theorem exec_taken {n : Nat} (reserved : Nat) (hn : n < 2 ^ 32) {k : Nat} (hk : k ≤ n) (hk' : k ≤ 2 ^ 31) :
    ∃ as, (lts Nat).exec (initState Nat n reserved fun _ => false) as = some (taken n reserved k) := by
  induction k with
  | zero => exact ⟨[], by rw [taken_zero]; rfl⟩
  | succ k ih =>
    obtain ⟨as, has⟩ := ih (by omega) (by omega)
    refine ⟨as ++ (takeUp k ++ [.out k]), ?_⟩
    rw [Lts.exec_append, has]
    exact exec_take reserved (by omega) hn (by omega)

/-- On a queue of more than `2 ^ 31` data pages, the page of index `2 ^ 31`
is stored where the array has no index, and its bit is not set. -/
theorem exists_not_owner {n : Nat} (reserved : Nat) (hn : n < 2 ^ 32) (hbig : 2 ^ 31 < n) :
    ∃ as s, (lts Nat).exec (initState Nat n reserved fun _ => false) as = some s ∧ ¬ Owner s := by
  obtain ⟨as, has⟩ := exec_taken reserved hn (Nat.le_of_lt hbig) (Nat.le_refl _)
  have hrun := exec_takeUp reserved hbig hn (Nat.le_refl _)
  refine ⟨as ++ takeUp (2 ^ 31), _, by rw [Lts.exec_append, has]; exact hrun, fun h => ?_⟩
  have hlt := h.below (toULong (toInt32 (2 ^ 31))) (by simp only [Function.update_self]; rfl)
  have hval : toULong (toInt32 (2 ^ 31)) = 2 ^ 64 - 2 ^ 31 := by decide
  rw [hval] at hlt
  simp only [taken] at hlt
  omega

/-- For any number of requests, in any order of their steps, the ownership of
data pages is exclusive in every state exactly when the queue has at most
`2 ^ 31` of them. -/
theorem owner_iff (dataPages : UInt32) (reserved : Nat) :
    (∀ live as, (lts Nat).States Owner (initState Nat dataPages.toNat reserved live) as) ↔
      dataPages.toNat ≤ 2 ^ 31 := by
  have hn : dataPages.toNat < 2 ^ 32 := dataPages.toNat_lt
  constructor
  · intro h
    by_contra hbig
    obtain ⟨as, s, has, hs⟩ := exists_not_owner reserved hn (by omega)
    exact hs ((h _ as).last has)
  · intro hsmall live as
    refine Lts.States.mono (fun s h => Arr.owner h.2 h.1) (Lts.states_of_steps (I := fun s => Bits s ∧ Arr s)
      (fun s a s' h hs _ => ?_) ⟨bits_init hn _ _, arr_init hsmall _ _⟩ (Lts.steps_true _ _))
    have e := step_effect hs
    exact ⟨e.bits h.1, e.arr h.1 h.2⟩

/-- A queue of `2 ^ 31 + 1` data pages: requests `0`, …, `2 ^ 31`, one segment
each. -/
theorem two_pow_31_not_owner :
    ∃ as s, (lts Nat).exec (initState Nat (2 ^ 31 + 1) 0 fun _ => false) as = some s ∧ ¬ Owner s :=
  exists_not_owner 0 (by decide) (by decide)

end Ubbd.Pages

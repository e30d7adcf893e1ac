import UbbdKernel.Framework.Loop
import UbbdKernel.Pages.Counter

/-!
# The contract of `ubbd_get_data_pages`

One call, with no other request at work. `getDataPages` is the function as a
whole: the loop over the segments (`segments`) with its retry (`again`), the
release of the spare page, and the loop that gives back the indices of a call
that fails (`unwind`). Page allocations and `xa_store` succeed or fail as an
environment says.

`Contract` is what the function promises: it takes the lowest clear bits, or
leaves the bitmap as it was, and the counter is right in the end.
`contract_iff` says that it keeps this promise exactly where the bits it takes
are below `2 ^ 31`.
-/

namespace Ubbd.Pages

/-- What `alloc_page` returns and whether `xa_store` succeeds, in a segment and a
pass of its retry loop. -/
structure Env where
  page : Nat → Nat → Option Page
  storeOk : Nat → Nat → Bool

/-- Nothing fails. -/
def Env.Ok (env : Env) : Prop := ∀ k j, (env.page k j).isSome ∧ env.storeOk k j

/-- `ubbd_alloc_page`. -/
def Pool.alloc (p : Pool) (page : Page) : Pool :=
  { p with
    live := Function.update p.live page true
    allocated := inc32 p.allocated }

@[simp] theorem Pool.alloc_dataPages (p : Pool) (page : Page) : (p.alloc page).dataPages = p.dataPages := rfl
@[simp] theorem Pool.alloc_array (p : Pool) (page : Page) : (p.alloc page).array = p.array := rfl

/-- How the retry loop of a segment ends: an index is taken, the call fails, or
`passes` were not enough. -/
inductive Again
  | took (p : Pool) (newPage : Option Page) (index : Nat)
  | fail (p : Pool) (newPage : Option Page)
  | spin

/-- The passes of segment `k` from pass `j` on, at most `passes` of them. -/
def again (env : Env) (k : Nat) : Nat → Nat → Pool → Option Page → Again
  | 0, _, _, _ => .spin
  | passes + 1, j, p, newPage =>
    match segSection p newPage (env.storeOk k j) with
    | .full => .fail p newPage
    | .took p newPage index => .took p newPage index
    | .storeFailed page => .fail (p.free page) none
    | .needPage =>
      match env.page k j with
      | none => .fail p none
      | some page => again env k passes (j + 1) (p.alloc page) (some page)

/-- How the loop over the segments ends. -/
structure Out where
  err : Bool
  pool : Pool
  newPage : Option Page
  pi : List Nat

/-- The loop over the segments, with `n` to go. -/
def segments (env : Env) (passes : Nat) : Nat → Pool → Option Page → List Nat → Option Out
  | 0, p, newPage, pi => some ⟨false, p, newPage, pi⟩
  | n + 1, p, newPage, pi =>
    match again env pi.length passes 0 p newPage with
    | .took p newPage index => segments env passes n p newPage (pi ++ [index])
    | .fail p newPage => some ⟨true, p, newPage, pi⟩
    | .spin => none

/-- The loop that gives back the indices, the last one first. -/
def unwind (p : Pool) (pi : List Nat) : Pool := pi.foldr (fun x p => releaseSection p x) p

/-- What `ubbd_get_data_pages` leaves: whether it failed, and the indices it has
recorded. -/
structure Got where
  err : Bool
  pool : Pool
  pi : List Nat

/-- From the label `out` on. -/
def Out.finish (o : Out) : Got :=
  let p := match o.newPage with
    | some page => o.pool.free page
    | none => o.pool
  ⟨o.err, if o.err then unwind p o.pi else p, o.pi⟩

/-- `ubbd_get_data_pages` of a request with `n` segments, with at most `passes`
passes for each. -/
def getDataPages (env : Env) (passes : Nat) (p : Pool) (n : Nat) : Option Got :=
  (segments env passes n p none []).map Out.finish

/-- The clear bits below `n`, in order. -/
def clearBits (b : Nat → Bool) (n : Nat) : List Nat := (List.range n).filter fun k => !b k

/-- The state the function is called in: every index in the array is below
`data_pages`, every set bit has a page, and the counter is right. -/
structure Ready (p : Pool) : Prop where
  size : p.dataPages < 2 ^ 32
  below : ∀ k, (p.array k).isSome → k < p.dataPages
  backed : ∀ k, p.bitmap k = true → (p.array k).isSome
  count : (p.allocated : ENat) = (stored p).encard

theorem ready_initPool (dataPages reserved : Nat) (live : Page → Bool) (hn : dataPages < 2 ^ 32) :
    Ready (initPool dataPages reserved live) := by
  refine ⟨hn, fun _ hk => ?_, fun _ hk => ?_, ?_⟩
  · cases hk
  · cases hk
  have hstored : stored (initPool dataPages reserved live) = ∅ := Set.eq_empty_of_forall_notMem fun k hk => by cases hk
  rw [hstored, Set.encard_empty]
  rfl

/-- What the function does: with two passes for each segment it returns; if nothing
fails, it succeeds exactly when there are enough clear bits; a success takes
the lowest of them, in order, gives each a page and touches no other entry;
a failure leaves the bitmap alone; and no page is left over. -/
structure Contract (env : Env) (p : Pool) (n : Nat) (g : Got) : Prop where
  returns : getDataPages env 2 p n = some g
  exact : env.Ok → (g.err = false ↔ n ≤ (clearBits p.bitmap p.dataPages).length)
  took : g.err = false → g.pi = (clearBits p.bitmap p.dataPages).take n ∧ g.pi.length = n
  bitmap : g.err = false → ∀ k, g.pool.bitmap k = (p.bitmap k || decide (k ∈ g.pi))
  backed : g.err = false → ∀ k ∈ g.pi, (g.pool.array k).isSome
  frame : g.err = false → ∀ k, k ∉ g.pi ∨ (p.array k).isSome → g.pool.array k = p.array k
  undone : g.err = true → g.pool.bitmap = p.bitmap
  spare : ∀ page, g.pool.live page = true → p.live page = true ∨ ∃ k, g.pool.array k = some page
  count : (g.pool.allocated : ENat) = (stored g.pool).encard

/-! ## Clear bits -/

theorem mem_clearBits {b : Nat → Bool} {n k : Nat} : k ∈ clearBits b n ↔ k < n ∧ b k = false := by
  simp [clearBits]

theorem nodup_clearBits (b : Nat → Bool) (n : Nat) : (clearBits b n).Nodup := List.nodup_range.filter _

/-- The first of them is the one that `find_first_zero_bit` finds. -/
theorem findFirstZeroBit_clearBits (b : Nat → Bool) (n : Nat) :
    findFirstZeroBit b n = (clearBits b n).headD n := by
  rw [findFirstZeroBit, clearBits, List.headD_eq_head?_getD, List.head?_filter]

/-- Setting the first of them leaves the others. -/
theorem clearBits_update {b : Nat → Bool} {n x : Nat} {l : List Nat} (h : clearBits b n = x :: l) :
    clearBits (Function.update b x true) n = l := by
  have hnodup := nodup_clearBits b n
  rw [h] at hnodup
  have hx : ∀ k ∈ l, k ≠ x := fun k hk hkx => (List.nodup_cons.mp hnodup).1 (hkx ▸ hk)
  have hfilter : clearBits (Function.update b x true) n = (clearBits b n).filter fun k => k != x := by
    rw [clearBits, clearBits, List.filter_filter]
    refine List.filter_congr fun k _ => ?_
    by_cases hk : k = x
    · simp [hk]
    · simp [hk]
  rw [hfilter, h, List.filter_cons_of_neg (by simp)]
  exact List.filter_eq_self.mpr fun k hk => by simpa using hx k hk

/-! ## The counter -/

/-- The number of spare pages. -/
def spareCount (newPage : Option Page) : ENat := if newPage.isSome then 1 else 0

/-- In a call that began with the pages `live`: the pages in the array are below
`data_pages`, the counter is their number and that of the spare pages, and no
other page is allocated. -/
structure Sane (live : Page → Bool) (p : Pool) (newPage : Option Page) : Prop where
  size : p.dataPages < 2 ^ 32
  below : ∀ k, (p.array k).isSome → k < p.dataPages
  count : (p.allocated : ENat) = (stored p).encard + spareCount newPage
  kept : ∀ page, p.live page = true → live page = true ∨ (∃ k, p.array k = some page) ∨ newPage = some page

variable {live : Page → Bool}

theorem Ready.sane {p : Pool} (h : Ready p) : Sane p.live p none :=
  ⟨h.size, h.below, h.count.trans (add_zero _).symm, fun _ hlive => .inl hlive⟩

theorem Sane.setBitmap {p : Pool} {newPage : Option Page} (h : Sane live p newPage) (b : Nat → Bool) :
    Sane live { p with bitmap := b } newPage := ⟨h.size, h.below, h.count, h.kept⟩

/-- With an index that has no page, the counter is not at its largest value. -/
theorem Sane.alloc {p : Pool} (h : Sane live p none) {k : Nat} (hk : k < p.dataPages) (hnone : p.array k = none)
    (page : Page) : Sane live (p.alloc page) (some page) := by
  have hsub : insert k (stored p) ⊆ Set.Iio p.dataPages := Set.insert_subset hk h.below
  have hle := Set.encard_le_encard hsub
  have hnot : k ∉ stored p := by simp [stored, hnone]
  have hcount : (p.allocated : ENat) = (stored p).encard := h.count.trans (add_zero _)
  rw [Set.encard_insert_of_notMem hnot, Loop.encard_Iio, ← hcount] at hle
  have hle' : p.allocated + 1 ≤ p.dataPages := by exact_mod_cast hle
  have hsize := h.size
  refine ⟨h.size, h.below, ?_, fun q hlive => ?_⟩
  · show ((inc32 p.allocated : Nat) : ENat) = (stored p).encard + 1
    rw [coe_inc32 (by omega), hcount]
  · by_cases hq : q = page
    · exact .inr (.inr (congrArg some hq.symm))
    · have hlive' : p.live q = true := by simpa [Pool.alloc, hq] using hlive
      exact (h.kept q hlive').imp_right (Or.imp_right fun hnone => by cases hnone)

theorem Sane.free {p : Pool} {page : Page} (h : Sane live p (some page)) : Sane live (p.free page) none := by
  refine ⟨h.size, h.below, ?_, fun q hlive => ?_⟩
  · show ((dec32 p.allocated : Nat) : ENat) = (stored p).encard + 0
    rw [coe_dec32 h.count, add_zero]
  · obtain ⟨hq, hlive'⟩ : q ≠ page ∧ p.live q = true := by simpa [Function.update_apply] using hlive
    exact (h.kept q hlive').imp_right (Or.imp_right fun hpage => absurd (Option.some.inj hpage).symm hq)

theorem encard_stored_update {p : Pool} {k : Nat} (hnone : p.array k = none) (page : Page) {p' : Pool}
    (h : p'.array = Function.update p.array k (some page)) : (stored p').encard = (stored p).encard + 1 := by
  refine encard_eq_add_one (i := k) ?_ ?_ fun j hj => ?_
  · simp [stored, hnone]
  · simp [stored, h]
  · simp [stored, h, Function.update_of_ne hj]

theorem Sane.store {p : Pool} {page : Page} (h : Sane live p (some page)) {k : Nat} (hk : k < p.dataPages)
    (hnone : p.array k = none) (b : Nat → Bool) :
    Sane live { p with array := Function.update p.array k (some page), bitmap := b } none := by
  refine ⟨h.size, fun j hj => ?_, ?_, fun q hlive => ?_⟩
  · by_cases hjk : j = k
    · rw [hjk]
      exact hk
    · exact h.below j (by simpa [Function.update_of_ne hjk] using hj)
  · rw [encard_stored_update hnone page rfl]
    exact h.count.trans (add_zero _).symm
  · -- the spare page is in the array now, and no page has left it
    rcases h.kept q hlive with hold | ⟨j, hj⟩ | hpage
    · exact .inl hold
    · have hjk : j ≠ k := by
        rintro rfl
        rw [hnone] at hj
        cases hj
      exact .inr (.inl ⟨j, by simpa [Function.update_of_ne hjk] using hj⟩)
    · exact .inr (.inl ⟨k, by simpa using hpage⟩)

/-! ## One segment -/

/-- The section, by the index it finds. -/
theorem segSection_eq {p : Pool} {k : Nat} (hidx : findFirstZeroBit p.bitmap p.dataPages = k)
    (hn : p.dataPages < 2 ^ 32) (newPage : Option Page) (ok : Bool) :
    segSection p newPage ok =
      if k = p.dataPages then .full
      else match p.array (toULong (toInt32 k)) with
        | some _ => .took { p with bitmap := setBit p.bitmap (toInt32 k) } newPage k
        | none => match newPage with
          | none => .needPage
          | some page =>
            if ok then .took { p with
              array := Function.update p.array (toULong (toInt32 k)) (some page)
              bitmap := setBit p.bitmap (toInt32 k) } none k
            else .storeFailed page := by
  have hle := findFirstZeroBit_le p.bitmap p.dataPages
  have hu := toUInt32_toInt32 (n := k) (by omega)
  cases harray : p.array (toULong (toInt32 k)) with
  | some page => simp only [segSection, hidx, hu, harray]
  | none => cases newPage <;> simp only [segSection, hidx, hu, harray]

/-- What a segment that takes index `x` does: the page it finds or stores there is
all that changes in the array. -/
structure Takes (p p' : Pool) (x : Nat) : Prop where
  lt : x < p.dataPages
  bitmap : p'.bitmap = Function.update p.bitmap x true
  dataPages : p'.dataPages = p.dataPages
  backed : (p'.array x).isSome
  frame : ∀ k, k ≠ x ∨ (p.array k).isSome → p'.array k = p.array k

theorem takes_store {p : Pool} {x : Nat} (hx : x < p.dataPages) (hnone : p.array x = none) {page : Page} {p' : Pool}
    (harr : p'.array = Function.update p.array x (some page)) (hb : p'.bitmap = Function.update p.bitmap x true)
    (hn : p'.dataPages = p.dataPages) : Takes p p' x := by
  refine ⟨hx, hb, hn, by rw [harr, Function.update_self]; rfl, fun k hk => ?_⟩
  have hkx : k ≠ x := by
    rintro rfl
    rw [hnone] at hk
    exact hk.elim (fun h => h rfl) fun h => by cases h
  rw [harr, Function.update_of_ne hkx]

/-- Two passes are enough for a segment that finds an index below `2 ^ 31`, or none:
it takes the index, or fails and leaves bitmap and array alone. -/
theorem again_low (env : Env) {b : Nat} {p : Pool} {newPage : Option Page} (h : Sane live p newPage) {x : Nat}
    (hidx : findFirstZeroBit p.bitmap p.dataPages = x) (hlow : x < p.dataPages → x < 2 ^ 31) :
    (∃ p' newPage', again env b 2 0 p newPage = .took p' newPage' x ∧ Sane live p' newPage' ∧ Takes p p' x) ∨
    ∃ p' newPage', again env b 2 0 p newPage = .fail p' newPage' ∧ p'.bitmap = p.bitmap ∧ p'.array = p.array ∧
      p'.dataPages = p.dataPages ∧ Sane live p' newPage' ∧ (env.Ok → x = p.dataPages) := by
  have hle := findFirstZeroBit_le p.bitmap p.dataPages
  by_cases hfull : x = p.dataPages
  · refine .inr ⟨p, newPage, ?_, rfl, rfl, rfl, h, fun _ => hfull⟩
    rw [again, segSection_eq hidx h.size, if_pos hfull]
  have hx : x < p.dataPages := by omega
  have hset : setBit p.bitmap (toInt32 x) = Function.update p.bitmap x true := by
    rw [setBit_toInt32 _ (by have := h.size; omega), if_pos (hlow hx)]
  have hkey := toULong_toInt32 (hlow hx)
  -- a section on a pool that differs in the counter only
  have hsec : ∀ q : Pool, q.bitmap = p.bitmap → q.array = p.array → q.dataPages = p.dataPages → ∀ newPage ok,
      segSection q newPage ok = match p.array x with
        | some _ => .took { q with bitmap := Function.update p.bitmap x true } newPage x
        | none => match newPage with
          | none => .needPage
          | some page =>
            if ok then .took { q with
              array := Function.update p.array x (some page)
              bitmap := Function.update p.bitmap x true } none x
            else .storeFailed page := by
    intro q hb ha hn newPage ok
    rw [segSection_eq (k := x) (by rw [hb, hn]; exact hidx) (by rw [hn]; exact h.size), hn, if_neg hfull, hkey, ha, hb,
      hset]
  have hfirst := hsec p rfl rfl rfl
  cases harr : p.array x with
  | some q =>
    refine .inl ⟨{ p with bitmap := Function.update p.bitmap x true }, newPage, ?_,
      h.setBitmap (Function.update p.bitmap x true), ⟨hx, rfl, rfl, by rw [harr]; rfl, fun _ _ => rfl⟩⟩
    rw [again, hfirst, harr]
  | none =>
    cases newPage with
    | some page =>
      by_cases hok : env.storeOk b 0 = true
      · refine .inl ⟨_, _, ?_, h.store hx harr (Function.update p.bitmap x true), takes_store hx harr rfl rfl rfl⟩
        rw [again, hfirst, harr]
        simp only [if_pos hok]
      · refine .inr ⟨p.free page, none, ?_, rfl, rfl, rfl, h.free, fun henv => absurd (henv b 0).2 hok⟩
        rw [again, hfirst, harr]
        simp only [if_neg hok]
    | none =>
      cases hpage : env.page b 0 with
      | none =>
        refine .inr ⟨p, none, ?_, rfl, rfl, rfl, h, fun henv => ?_⟩
        · rw [again, hfirst, harr]
          simp only [hpage]
        · have := (henv b 0).1
          rw [hpage] at this
          cases this
      | some page =>
        have hsecond := hsec (p.alloc page) rfl rfl rfl (some page)
        have hgot := h.alloc hx harr page
        by_cases hok : env.storeOk b 1 = true
        · refine .inl ⟨_, _, ?_, hgot.store hx harr (Function.update p.bitmap x true),
            takes_store hx harr rfl rfl rfl⟩
          rw [again, hfirst, harr]
          simp only [hpage]
          rw [again, hsecond, harr]
          simp only [if_pos hok]
          rfl
        · refine .inr ⟨(p.alloc page).free page, none, ?_, rfl, rfl, rfl, hgot.free,
            fun henv => absurd (henv b 1).2 hok⟩
          rw [again, hfirst, harr]
          simp only [hpage]
          rw [again, hsecond, harr]
          simp only [if_neg hok]

/-! ## All segments -/

/-- What the loop over `n` segments does when the bits it takes are below `2 ^ 31`:
it takes the first `m` clear bits. -/
structure TakesFirst (live : Page → Bool) (env : Env) (p : Pool) (n : Nat) (pi : List Nat) (o : Out) (m : Nat) :
    Prop where
  pi_eq : o.pi = pi ++ (clearBits p.bitmap p.dataPages).take m
  bitmap : ∀ k, o.pool.bitmap k = (p.bitmap k || decide (k ∈ (clearBits p.bitmap p.dataPages).take m))
  backed : ∀ k ∈ (clearBits p.bitmap p.dataPages).take m, (o.pool.array k).isSome
  frame : ∀ k, k ∉ (clearBits p.bitmap p.dataPages).take m ∨ (p.array k).isSome → o.pool.array k = p.array k
  sane : Sane live o.pool o.newPage
  few : m ≤ n
  le : m ≤ (clearBits p.bitmap p.dataPages).length
  all : o.err = false → m = n
  short : env.Ok → o.err = true → (clearBits p.bitmap p.dataPages).length < n

/-- A call that ends before it takes a bit. -/
theorem takesFirst_zero {env : Env} {p p' : Pool} {n : Nat} {pi : List Nat} {newPage : Option Page} {err : Bool}
    (hb : p'.bitmap = p.bitmap) (ha : p'.array = p.array) (hs : Sane live p' newPage) (hall : err = false → 0 = n)
    (hshort : env.Ok → err = true → (clearBits p.bitmap p.dataPages).length < n) :
    TakesFirst live env p n pi ⟨err, p', newPage, pi⟩ 0 where
  pi_eq := by simp
  bitmap k := by simp [hb]
  backed k hk := by simp at hk
  frame k _ := by rw [ha]
  sane := hs
  few := Nat.zero_le n
  le := Nat.zero_le _
  all := hall
  short := hshort

/-- A segment that takes the first clear bit, before the others. -/
theorem TakesFirst.cons {env : Env} {p p' : Pool} {n m x : Nat} {pi l : List Nat} {o : Out} (ht : Takes p p' x)
    (hl : clearBits p.bitmap p.dataPages = x :: l) (h : TakesFirst live env p' n (pi ++ [x]) o m) :
    TakesFirst live env p (n + 1) pi o (m + 1) := by
  have hl' : clearBits p'.bitmap p'.dataPages = l := by
    rw [ht.bitmap, ht.dataPages]
    exact clearBits_update hl
  obtain ⟨hpi, hbitmap, hbacked, hframe, hsane, hfew, hle, hall, hshort⟩ := h
  rw [hl'] at hpi hbitmap hbacked hframe hle hshort
  refine ⟨?_, fun k => ?_, fun k hk => ?_, fun k hk => ?_, hsane, Nat.succ_le_succ hfew, ?_,
    fun he => by rw [hall he], fun henv he => ?_⟩
  · rw [hpi, hl, List.take_succ_cons, List.append_assoc, List.singleton_append]
  · rw [hbitmap, ht.bitmap, hl, List.take_succ_cons]
    by_cases hkx : k = x
    · simp [hkx]
    · simp [hkx]
  · rw [hl, List.take_succ_cons] at hk
    rcases List.mem_cons.mp hk with rfl | hk
    · rw [hframe k (.inr ht.backed)]
      exact ht.backed
    · exact hbacked k hk
  · rw [hl, List.take_succ_cons, List.mem_cons, not_or] at hk
    have hstep := ht.frame k (hk.imp_left And.left)
    rw [← hstep]
    refine hframe k (hk.imp And.right fun hsome => ?_)
    rw [hstep]
    exact hsome
  · rw [hl]
    exact Nat.succ_le_succ hle
  · rw [hl]
    exact Nat.succ_lt_succ (hshort henv he)

theorem segments_low (env : Env) {n : Nat} {p : Pool} {newPage : Option Page} (h : Sane live p newPage)
    (hlow : ∀ k ∈ (clearBits p.bitmap p.dataPages).take n, k < 2 ^ 31) (pi : List Nat) :
    ∃ o m, segments env 2 n p newPage pi = some o ∧ TakesFirst live env p n pi o m := by
  induction n generalizing p newPage pi with
  | zero => exact ⟨_, 0, rfl, takesFirst_zero rfl rfl h (fun _ => rfl) fun _ he => by cases he⟩
  | succ n ih =>
    have hidx := findFirstZeroBit_clearBits p.bitmap p.dataPages
    cases hl : clearBits p.bitmap p.dataPages with
    | nil =>
      rw [hl, List.headD_nil] at hidx
      have hlen : (clearBits p.bitmap p.dataPages).length < n + 1 := by
        rw [hl]
        exact Nat.succ_pos n
      rcases again_low env (b := pi.length) h hidx fun hlt => absurd hlt (Nat.lt_irrefl _) with
        ⟨p', newPage', -, -, ht⟩ | ⟨p', newPage', hagain, hb, ha, -, hs, -⟩
      · exact absurd ht.lt (Nat.lt_irrefl _)
      · refine ⟨_, 0, by rw [segments, hagain], takesFirst_zero hb ha hs (fun he => by cases he) fun _ _ => hlen⟩
    | cons x l =>
      rw [hl, List.headD_cons] at hidx
      rw [hl, List.take_succ_cons] at hlow
      have hx := hlow x (List.mem_cons_self ..)
      have hxn : x < p.dataPages :=
        (mem_clearBits.mp (show x ∈ clearBits p.bitmap p.dataPages by rw [hl]; exact List.mem_cons_self ..)).1
      rcases again_low env (b := pi.length) h hidx fun _ => hx with
        ⟨p', newPage', hagain, hs, ht⟩ | ⟨p', newPage', hagain, hb, ha, -, hs, henv⟩
      · have hl' : clearBits p'.bitmap p'.dataPages = l := by
          rw [ht.bitmap, ht.dataPages]
          exact clearBits_update hl
        obtain ⟨o, m, ho, hfirst⟩ := ih hs
          (by rw [hl']; exact fun k hk => hlow k (List.mem_cons_of_mem _ hk)) (pi ++ [x])
        exact ⟨o, m + 1, by rw [segments, hagain]; exact ho, hfirst.cons ht hl⟩
      · refine ⟨_, 0, by rw [segments, hagain], takesFirst_zero hb ha hs (fun he => by cases he) fun hok _ => ?_⟩
        have := henv hok
        omega

/-! ## Giving back -/

theorem releaseSection_low {p : Pool} (h : Sane live p none) {x : Nat} (hx : x < 2 ^ 31) :
    Sane live (releaseSection p x) none ∧ (releaseSection p x).bitmap = Function.update p.bitmap x false := by
  have hkey := toULong_toInt32 hx
  obtain ⟨hbit, hn⟩ := releaseSection_bitmap p x
  rw [clearBit_toInt32 _ (by omega), if_pos hx] at hbit
  refine ⟨⟨by rw [hn]; exact h.size, fun k hk => ?_, ?_, fun q hlive => ?_⟩, hbit⟩
  · rw [hn]
    refine h.below k ?_
    rcases releaseSection_cases p x with ⟨heq, -⟩ | ⟨page, -, -, heq⟩
    · rw [heq] at hk
      exact hk
    · rw [heq, hkey] at hk
      by_cases hkx : k = x
      · simp [hkx] at hk
      · simpa [Function.update_of_ne hkx] using hk
  · have hcount := h.count
    rcases releaseSection_count p x with ⟨hall, hstored⟩ | ⟨hall, hstored⟩
    · rw [hall, hstored]
      exact hcount
    · rw [hstored, add_right_comm] at hcount
      rw [hall, coe_dec32 hcount]
  · rcases releaseSection_cases p x with ⟨heq, -⟩ | ⟨page, -, hpage, heq⟩
    · rw [heq] at hlive ⊢
      exact h.kept q hlive
    · -- the page that leaves the array is given back
      rw [heq, hkey] at hlive ⊢
      rw [hkey] at hpage
      obtain ⟨hq, hlive'⟩ : q ≠ page ∧ p.live q = true := by simpa [Function.update_apply] using hlive
      refine (h.kept q hlive').imp_right (Or.imp_left fun ⟨j, hj⟩ => ⟨j, ?_⟩)
      have hjx : j ≠ x := by
        rintro rfl
        rw [hpage] at hj
        exact hq (Option.some.inj hj).symm
      simpa [Function.update_of_ne hjx] using hj

/-- Giving back clears the bits of the indices and keeps the counter right. -/
theorem unwind_low {p : Pool} (h : Sane live p none) {xs : List Nat} (hxs : ∀ x ∈ xs, x < 2 ^ 31) :
    Sane live (unwind p xs) none ∧ ∀ k, (unwind p xs).bitmap k = (p.bitmap k && !decide (k ∈ xs)) := by
  induction xs with
  | nil => exact ⟨h, fun k => by simp [unwind]⟩
  | cons x xs ih =>
    obtain ⟨hsane, hbit⟩ := ih fun y hy => hxs y (List.mem_cons_of_mem _ hy)
    obtain ⟨hsane', hbit'⟩ := releaseSection_low hsane (hxs x (List.mem_cons_self ..))
    refine ⟨hsane', fun k => ?_⟩
    show (releaseSection (unwind p xs) x).bitmap k = _
    rw [hbit']
    by_cases hkx : k = x
    · simp [hkx]
    · simp [hkx, hbit]

/-! ## The whole function -/

/-- The pool once the spare page is released. -/
theorem finish_pool (o : Out) (h : Sane live o.pool o.newPage) :
    ∃ q, Sane live q none ∧ q.bitmap = o.pool.bitmap ∧ q.array = o.pool.array ∧
      o.finish = ⟨o.err, if o.err then unwind q o.pi else q, o.pi⟩ := by
  cases hnew : o.newPage with
  | none =>
    rw [hnew] at h
    exact ⟨o.pool, h, rfl, rfl, by simp only [Out.finish, hnew]⟩
  | some page =>
    rw [hnew] at h
    exact ⟨o.pool.free page, h.free, rfl, rfl, by simp only [Out.finish, hnew]⟩

theorem TakesFirst.contract {env : Env} {p : Pool} {n m : Nat} {o : Out} (h : TakesFirst p.live env p n [] o m)
    (ho : segments env 2 n p none [] = some o)
    (hlow : ∀ k ∈ (clearBits p.bitmap p.dataPages).take n, k < 2 ^ 31) : Contract env p n o.finish := by
  have hlowm : ∀ x ∈ o.pi, x < 2 ^ 31 := by
    intro x hx
    rw [h.pi_eq, List.nil_append] at hx
    exact hlow x ((List.take_sublist_take_left h.few).subset hx)
  have hpi : o.pi = (clearBits p.bitmap p.dataPages).take m := h.pi_eq
  obtain ⟨q, hq, hb, ha, hfin⟩ := finish_pool o h.sane
  have hreturns : getDataPages env 2 p n = some o.finish := by rw [getDataPages, ho, Option.map_some]
  have herr : o.finish.err = o.err := rfl
  have hfpi : o.finish.pi = o.pi := rfl
  have hok : o.err = false → o.finish.pool = q := fun he => by rw [hfin, he]; rfl
  have hsane : Sane p.live o.finish.pool none := by
    rw [hfin]
    cases o.err with
    | false => exact hq
    | true => exact (unwind_low hq hlowm).1
  refine ⟨hreturns, fun henv => ⟨fun he => ?_, fun hn => ?_⟩, fun he => ⟨?_, ?_⟩, fun he k => ?_, fun he k hk => ?_,
    fun he k hk => ?_, fun he => ?_, fun page hlive => ?_, ?_⟩
  · rw [← h.all he]
    exact h.le
  · rw [herr]
    by_contra he
    have := h.short henv (by simpa using he)
    omega
  · rw [hfpi, hpi, h.all he]
  · rw [hfpi, hpi, List.length_take, Nat.min_eq_left h.le]
    exact h.all he
  · rw [hok he, hb, hfpi, hpi]
    exact h.bitmap k
  · rw [hok he, ha]
    rw [hfpi, hpi] at hk
    exact h.backed k hk
  · rw [hok he, ha]
    rw [hfpi, hpi] at hk
    exact h.frame k hk
  · -- the bits that were taken were clear
    obtain ⟨-, hbit⟩ := unwind_low hq hlowm
    have hpool : o.finish.pool = unwind q o.pi := by rw [hfin, show o.err = true from he]; rfl
    rw [hpool]
    funext k
    rw [hbit, hb, h.bitmap, hpi]
    by_cases hk : k ∈ (clearBits p.bitmap p.dataPages).take m
    · simp [hk, (mem_clearBits.mp (List.mem_of_mem_take hk)).2]
    · simp [hk]
  · exact (hsane.kept page hlive).imp_right fun h => h.resolve_right fun hnone => by cases hnone
  · exact hsane.count.trans (add_zero _)

/-! ## Indices from `2 ^ 31` on -/

/-- A segment that finds an index, if nothing fails. -/
theorem again_ok {env : Env} (henv : env.Ok) (b : Nat) {p : Pool} (hn : p.dataPages < 2 ^ 32) {x : Nat}
    (hidx : findFirstZeroBit p.bitmap p.dataPages = x) (hx : x < p.dataPages) (newPage : Option Page) :
    ∃ p' newPage', again env b 2 0 p newPage = .took p' newPage' x ∧
      p'.bitmap = setBit p.bitmap (toInt32 x) ∧ p'.dataPages = p.dataPages := by
  have hsec : ∀ q : Pool, q.bitmap = p.bitmap → q.dataPages = p.dataPages → ∀ newPage ok, segSection q newPage ok = _ :=
    fun q hb hn' newPage ok => segSection_eq (k := x) (by rw [hb, hn']; exact hidx) (by rw [hn']; exact hn) newPage ok
  have hne : ¬ x = p.dataPages := by omega
  have hfirst := hsec p rfl rfl newPage (env.storeOk b 0)
  rw [if_neg hne] at hfirst
  cases harr : p.array (toULong (toInt32 x)) with
  | some q =>
    simp only [harr] at hfirst
    exact ⟨{ p with bitmap := setBit p.bitmap (toInt32 x) }, newPage, by rw [again, hfirst], rfl, rfl⟩
  | none =>
    cases newPage with
    | some page =>
      simp only [harr, if_pos (henv b 0).2] at hfirst
      exact ⟨{ p with
        array := Function.update p.array (toULong (toInt32 x)) (some page)
        bitmap := setBit p.bitmap (toInt32 x) }, none, by rw [again, hfirst], rfl, rfl⟩
    | none =>
      simp only [harr] at hfirst
      obtain ⟨page, hpage⟩ := Option.isSome_iff_exists.mp (henv b 0).1
      have hsecond := hsec (p.alloc page) rfl rfl (some page) (env.storeOk b 1)
      simp only [Pool.alloc_dataPages, Pool.alloc_array, if_neg hne, harr, if_pos (henv b 1).2] at hsecond
      refine ⟨{ p.alloc page with
        array := Function.update p.array (toULong (toInt32 x)) (some page)
        bitmap := setBit p.bitmap (toInt32 x) }, none, ?_, rfl, rfl⟩
      rw [again, hfirst]
      simp only [hpage]
      rw [again, hsecond]
      rfl

/-- The bit of an index from `2 ^ 31` on is never set, and as long as one of them is
clear there is always an index to take. -/
theorem segments_high (env : Env) (henv : env.Ok) {y : Nat} (hy : 2 ^ 31 ≤ y) {n : Nat} {p : Pool}
    (hn : p.dataPages < 2 ^ 32) (hyn : y < p.dataPages) (hclear : p.bitmap y = false) (newPage : Option Page)
    (pi : List Nat) :
    ∃ o, segments env 2 n p newPage pi = some o ∧ o.err = false ∧ o.pool.bitmap y = false := by
  induction n generalizing p newPage pi with
  | zero => exact ⟨_, rfl, rfl, hclear⟩
  | succ n ih =>
    have hx : findFirstZeroBit p.bitmap p.dataPages < p.dataPages := by
      refine Nat.lt_of_le_of_ne (findFirstZeroBit_le ..) fun heq => ?_
      have hidx := findFirstZeroBit_clearBits p.bitmap p.dataPages
      have hmem : y ∈ clearBits p.bitmap p.dataPages := mem_clearBits.mpr ⟨hyn, hclear⟩
      cases hl : clearBits p.bitmap p.dataPages with
      | nil => rw [hl] at hmem; cases hmem
      | cons x l =>
        rw [hl, List.headD_cons, heq] at hidx
        have hmem : x ∈ clearBits p.bitmap p.dataPages := by
          rw [hl]
          exact List.mem_cons_self ..
        have hlt := (mem_clearBits.mp hmem).1
        omega
    obtain ⟨p', newPage', hagain, hb, hn'⟩ := again_ok henv pi.length hn rfl hx newPage
    have hclear' : p'.bitmap y = false := by
      rw [hb, setBit_toInt32 _ (by omega)]
      split
      · rw [Function.update_of_ne (by omega)]
        exact hclear
      · exact hclear
    obtain ⟨o, ho, hdone⟩ := ih (by omega) (by omega) hclear' newPage' (pi ++ [findFirstZeroBit p.bitmap p.dataPages])
    exact ⟨o, by rw [segments, hagain]; exact ho, hdone⟩

/-- Nothing fails, and every allocation gives a page of its own. -/
def allOk : Env := ⟨fun k j => some (2 * k + j), fun _ _ => true⟩

theorem not_contract_of_high {p : Pool} (hn : p.dataPages < 2 ^ 32) {n k : Nat}
    (hk : k ∈ (clearBits p.bitmap p.dataPages).take n) (hhigh : 2 ^ 31 ≤ k) : ¬ ∃ g, Contract allOk p n g := by
  rintro ⟨g, hg⟩
  obtain ⟨hkn, hclear⟩ := mem_clearBits.mp (List.mem_of_mem_take hk)
  obtain ⟨o, ho, herr, hbit⟩ := segments_high allOk (n := n) (fun _ _ => ⟨rfl, rfl⟩) hhigh hn hkn hclear none []
  have hfin : g = o.finish := by
    have hreturns := hg.returns
    rw [getDataPages, ho, Option.map_some] at hreturns
    exact (Option.some.inj hreturns).symm
  have hgerr : g.err = false := by rw [hfin]; exact herr
  have hset := hg.bitmap hgerr k
  rw [(hg.took hgerr).1, decide_eq_true hk, Bool.or_true] at hset
  have hpool : g.pool.bitmap = o.pool.bitmap := by
    rw [hfin, Out.finish, herr]
    cases o.newPage <;> rfl
  rw [hpool, hbit] at hset
  cases hset

/-- For every pool the function is called with, every number of segments and every way to fail. -/
theorem contract_iff {p : Pool} (h : Ready p) (n : Nat) :
    (∀ env, ∃ g, Contract env p n g) ↔ ∀ k ∈ (clearBits p.bitmap p.dataPages).take n, k < 2 ^ 31 := by
  constructor
  · intro hall k hk
    by_contra hhigh
    exact not_contract_of_high h.size hk (Nat.le_of_not_lt hhigh) (hall allOk)
  · intro hlow env
    obtain ⟨o, m, ho, hfirst⟩ := segments_low env h.sane hlow []
    exact ⟨o.finish, hfirst.contract ho hlow⟩

theorem contract_iff_fresh : Ready (initPool 8 4 fun _ => false) ∧
    ∀ env, ∃ g, Contract env (initPool 8 4 fun _ => false) 3 g :=
  have h := ready_initPool 8 4 (fun _ => false) (by decide)
  ⟨h, (contract_iff h 3).mpr (by decide)⟩

/-- A pool with a bit for every index below `2 ^ 31` and one more, which is the only clear one. -/
def lastClear : Pool :=
  ⟨2 ^ 31 + 1, fun k => decide (k < 2 ^ 31), fun k => if k < 2 ^ 31 then some k else none, 2 ^ 31, 0,
    fun k => decide (k < 2 ^ 31)⟩

theorem lastClear_bitmap (k : Nat) : lastClear.bitmap k = decide (k < 2 ^ 31) := rfl

theorem ready_lastClear : Ready lastClear := by
  refine ⟨by decide, fun k hk => ?_, fun k hk => ?_, ?_⟩
  · have hlt : k < 2 ^ 31 := by
      by_contra hge
      rw [show lastClear.array k = none from if_neg hge] at hk
      cases hk
    exact hlt.trans (Nat.lt_succ_self _)
  · have hlt : k < 2 ^ 31 := of_decide_eq_true hk
    rw [show lastClear.array k = some k from if_pos hlt]
    rfl
  · have hstored : stored lastClear = Set.Iio (2 ^ 31) := by
      ext k
      show (lastClear.array k).isSome = true ↔ k < 2 ^ 31
      by_cases hlt : k < 2 ^ 31
      · rw [show lastClear.array k = some k from if_pos hlt]
        exact iff_of_true rfl hlt
      · rw [show lastClear.array k = none from if_neg hlt]
        exact iff_of_false (fun h => by cases h) hlt
    rw [hstored, Loop.encard_Iio]
    rfl


theorem last_index_not_taken : Ready lastClear ∧ ¬ ∀ env, ∃ g, Contract env lastClear 1 g := by
  refine ⟨ready_lastClear, fun h => ?_⟩
  have hmem : 2 ^ 31 ∈ clearBits lastClear.bitmap lastClear.dataPages :=
    mem_clearBits.mpr ⟨Nat.lt_succ_self _, by rw [lastClear_bitmap, decide_eq_false (Nat.lt_irrefl _)]⟩
  cases hl : clearBits lastClear.bitmap lastClear.dataPages with
  | nil => rw [hl] at hmem; cases hmem
  | cons x l =>
    have hx := (mem_clearBits.mp (show x ∈ clearBits lastClear.bitmap lastClear.dataPages by simp [hl])).2
    exact not_contract_of_high (by decide) (by rw [hl]; exact List.mem_cons_self ..)
      (Nat.le_of_not_lt (of_decide_eq_false (lastClear_bitmap x ▸ hx))) (h allOk)

end Ubbd.Pages

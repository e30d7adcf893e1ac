import Mathlib.Data.List.Nodup
import UbbdKernel.Pages.Counter
import UbbdKernel.Pages.Lost

/-!
# The end of the data pages

`ubbd_queue_destroy` frees what `data_pages_array` has, up to the index
`data_pages`, and looks neither at the bitmap nor at the counter. Nothing stays
behind if every page that is allocated is in the array: a page is there or is
the spare page of a call (`Sourced`), and there are no spare pages when no call
of `ubbd_get_data_pages` is running (`Sourced.tornDown`).
-/

namespace Ubbd.Pages

/-- The body of `xas_for_each` in `ubbd_page_release`, at the index `x`: what is
left, and the pages freed so far. -/
def releaseAt (r : Pool × List Page) (x : Nat) : Pool × List Page :=
  match r.1.array x with
  | none => r
  | some page =>
    ({ r.1 with
        array := Function.update r.1.array x none
        live := Function.update r.1.live page false }, r.2 ++ [page])

/-- `ubbd_page_release`. The last index of `xas_for_each` is `data_pages`. -/
def ubbdPageRelease (p : Pool) : Pool × List Page := (List.range (p.dataPages + 1)).foldl releaseAt (p, [])

/-- The pages that are allocated are freed, each once, and the array is empty. -/
structure TornDown (p : Pool) : Prop where
  array : ∀ x, (ubbdPageRelease p).1.array x = none
  live : ∀ page, (ubbdPageRelease p).1.live page = false
  nodup : (ubbdPageRelease p).2.Nodup
  freed : ∀ page, page ∈ (ubbdPageRelease p).2 ↔ p.live page = true

/-- What the loop has done before the index `n`. -/
structure ReleasedTo (p : Pool) (n : Nat) (r : Pool × List Page) : Prop where
  array : ∀ x, r.1.array x = if x < n then none else p.array x
  freed : r.2 = (List.range n).filterMap p.array
  live : ∀ page, r.1.live page = true ↔ p.live page = true ∧ page ∉ r.2

theorem ReleasedTo.next {p : Pool} {n : Nat} {r : Pool × List Page} (h : ReleasedTo p n r) :
    ReleasedTo p (n + 1) (releaseAt r n) := by
  have hat : r.1.array n = p.array n := by rw [h.array, if_neg (Nat.lt_irrefl n)]
  unfold releaseAt
  rw [hat]
  split
  · rename_i hnone
    refine ⟨fun x => ?_, ?_, h.live⟩
    · rw [h.array]
      by_cases hx : x = n
      · rw [hx, hnone, ite_self, ite_self]
      · simp only [show x < n + 1 ↔ x < n by omega]
    · rw [h.freed, List.range_succ, List.filterMap_append]
      simp [hnone]
  · rename_i page hpage
    refine ⟨fun x => ?_, ?_, fun page' => ?_⟩
    · show Function.update r.1.array n none x = _
      rw [Function.update_apply]
      by_cases hx : x = n
      · rw [if_pos hx, if_pos (by omega)]
      · rw [if_neg hx, h.array]
        simp only [show x < n + 1 ↔ x < n by omega]
    · show r.2 ++ [page] = _
      rw [h.freed, List.range_succ, List.filterMap_append]
      simp [hpage]
    · show Function.update r.1.live page false page' = true ↔ _ ∧ page' ∉ r.2 ++ [page]
      have hlive := h.live page'
      by_cases hp : page' = page
      · simp [hp]
      · simp [hp, hlive]

theorem releasedTo (p : Pool) (n : Nat) : ReleasedTo p n ((List.range n).foldl releaseAt (p, [])) := by
  induction n with
  | zero => exact ⟨fun x => rfl, rfl, fun page => (and_iff_left (List.not_mem_nil)).symm⟩
  | succ n ih =>
    rw [List.range_succ, List.foldl_append]
    exact ih.next

/-- The whole array is below the last index, no page is in it twice, and all
pages are in it. -/
theorem tornDown_of {p : Pool} (hbelow : ∀ x, (p.array x).isSome → x < p.dataPages)
    (hinj : ∀ x y page, p.array x = some page → p.array y = some page → x = y)
    (hlive : ∀ x page, p.array x = some page → p.live page = true)
    (hall : ∀ page, p.live page = true → ∃ x, p.array x = some page) : TornDown p := by
  have h : ReleasedTo p (p.dataPages + 1) (ubbdPageRelease p) := releasedTo p _
  have hfreed : ∀ page, page ∈ (ubbdPageRelease p).2 ↔ p.live page = true := by
    intro page
    rw [h.freed, List.mem_filterMap]
    constructor
    · rintro ⟨x, -, hx⟩
      exact hlive x page hx
    · intro hp
      obtain ⟨x, hx⟩ := hall page hp
      have := hbelow x (by rw [hx]; rfl)
      exact ⟨x, List.mem_range.mpr (by omega), hx⟩
  refine ⟨fun x => ?_, fun page => ?_, ?_, hfreed⟩
  · rw [h.array]
    split
    · rfl
    · rename_i hx
      refine Option.not_isSome_iff_eq_none.mp fun hs => hx ?_
      have := hbelow x hs
      omega
  · refine Bool.eq_false_iff.mpr fun hl => ?_
    obtain ⟨hp, hno⟩ := (h.live page).mp hl
    exact hno ((hfreed page).mpr hp)
  · rw [h.freed]
    exact List.nodup_range.filterMap fun x y page hx hy => hinj x y page hx hy

variable {ι : Type}

theorem Owned.live {s : State ι} (h : Owned s) {x : Nat} {page : Page} (hx : s.pool.array x = some page) :
    s.pool.live page = true := by
  obtain ⟨lost, -, ha⟩ := h
  exact ha.live x page hx

theorem Owned.below {s : State ι} (h : Owned s) {x : Nat} (hx : (s.pool.array x).isSome) :
    x < s.pool.dataPages := by
  obtain ⟨lost, -, ha⟩ := h
  exact ha.below x hx

theorem Owned.size {s : State ι} (h : Owned s) : s.pool.dataPages < 2 ^ 32 := by
  obtain ⟨lost, hb, -⟩ := h
  exact hb.size

/-! ## Where a page is -/

/-- A page that is allocated is in the array, or a call has it as its spare page. -/
structure Sourced (s : State ι) : Prop where
  live : ∀ page, s.pool.live page = true →
    (∃ x, s.pool.array x = some page) ∨ ∃ i, (s.reqs i).newPage = some page
  spare : ∀ i, SpareOk (s.reqs i)

theorem sourced_init (n reserved : Nat) : Sourced (initState ι n reserved fun _ => false) where
  live _ h := nomatch h
  spare _ := rfl

variable [DecidableEq ι] {s s' : State ι}

/-- A call keeps its spare page, puts it into the array or frees it. -/
theorem step_spare {a : Label ι} (hn : s.pool.dataPages < 2 ^ 32) (hok : SpareOk (s.reqs a.req))
    (hs : step s a = some s') {page : Page} (hp : (s.reqs a.req).newPage = some page) :
    (s'.reqs a.req).newPage = some page ∨ (∃ x, s'.pool.array x = some page) ∨ s'.pool.live page = false := by
  cases a with
  | get i n =>
    simp only [step] at hs
    split at hs <;> cases hs
    rename_i hpc
    rw [Label.req] at hp hok
    simp only [SpareOk, hpc] at hok
    rw [hok] at hp
    cases hp
  | seg i ok =>
    simp only [step] at hs
    split at hs <;> cases hs
    rename_i n hpc
    rw [Label.req] at hp
    cases hsec : segSection s.pool (s.reqs i).newPage ok with
    | full => exact .inl (by simp [State.seg, State.setReq_reqs, Label.req, hp])
    | needPage => exact .inl (by simp [State.seg, State.setReq_reqs, Label.req, hp])
    | storeFailed page' =>
      have hsome := segSection_storeFailed hsec
      exact .inl (by simp [State.seg, State.setReq_reqs, Label.req, ← hsome, hp])
    | took p newPage x =>
      rcases (segSection_took hn hsec).array with ⟨-, -, hnew⟩ | ⟨page', hpage, -, harr, -⟩
      · exact .inl (by simp [State.seg, State.setReq_reqs, Label.req, hnew, hp])
      · obtain rfl := Option.some.inj (hpage.symm.trans hp)
        refine .inr (.inl ⟨toULong (toInt32 x), ?_⟩)
        show p.array _ = _
        rw [harr, Function.update_self]
  | alloc i page' =>
    simp only [step] at hs
    split at hs
    · rename_i n hpc
      cases hs
      exact .inl (by simp [State.setReq_reqs, Label.req, show (s.reqs i).newPage = some page from hp])
    · rename_i n q hpc
      rw [Label.req] at hp hok
      simp only [SpareOk, hpc] at hok
      rw [hok] at hp
      cases hp
    · cases hs
  | free i =>
    simp only [step] at hs
    split at hs <;> cases hs
    rename_i err page' hpc hnew
    obtain rfl := Option.some.inj (hnew.symm.trans hp)
    exact .inr (.inr (Function.update_self ..))
  | _ =>
    refine .inl ?_
    simp only [step] at hs
    (repeat' split at hs) <;> cases hs <;> simpa [State.setReq_reqs, Label.req] using hp

/-- A page stays where it is as long as it is allocated. -/
theorem Sourced.step {a : Label ι} (h : Sourced s) (ho : Owned s) (hs : step s a = some s') : Sourced s' := by
  refine ⟨fun page hl => ?_, fun i => ?_⟩
  · -- a page that had a place has one
    have hspare : ∀ i, (s.reqs i).newPage = some page →
        (∃ x, s'.pool.array x = some page) ∨ ∃ i, (s'.reqs i).newPage = some page := by
      intro i hi
      by_cases hia : i = a.req
      · rw [hia] at hi
        rcases step_spare ho.size (h.spare _) hs hi with hi | hx | hno
        · exact .inr ⟨_, hi⟩
        · exact .inl hx
        · rw [hno] at hl
          cases hl
      · exact .inr ⟨i, by rw [step_other hs hia, hi]⟩
    have hkeep : s.pool.live page = true → (∀ x, s.pool.array x = some page → s'.pool.array x = some page) →
        (∃ x, s'.pool.array x = some page) ∨ ∃ i, (s'.reqs i).newPage = some page := by
      intro hlive harr
      rcases h.live page hlive with ⟨x, hx⟩ | ⟨i, hi⟩
      · exact .inl ⟨x, harr x hx⟩
      · exact hspare i hi
    cases step_effect hs with
    | frame pool pi spare =>
      obtain ⟨-, -, harr, hlive⟩ := pool
      exact hkeep (by rw [← hlive, hl]) fun x hx => by rw [harr, hx]
    | took i ok p pc newPage x sec eq =>
      have hp : s'.pool = p := by rw [eq]; rfl
      have htook := segSection_took ho.size sec
      rw [hp, htook.live] at hl
      refine hkeep hl fun y hy => ?_
      rw [hp]
      rcases htook.array with ⟨-, harr, -⟩ | ⟨page', -, hnone, harr, -⟩
      · rw [harr, hy]
      · rw [harr, Function.update_of_ne (by rintro rfl; rw [hnone] at hy; cases hy), hy]
    | alloc i pc page' fresh eq =>
      subst eq
      by_cases hp : page = page'
      · exact .inr ⟨i, by rw [State.setReq_reqs, if_pos rfl, hp]⟩
      · refine hkeep ?_ fun x hx => hx
        rwa [show (_ : State ι).pool.live page = Function.update s.pool.live page' true page from rfl,
          Function.update_of_ne hp] at hl
    | free i pc page' spare eq =>
      subst eq
      refine hkeep ?_ fun x hx => hx
      have hp : page ≠ page' := by
        rintro rfl
        exact absurd ((Function.update_self ..).symm.trans hl) Bool.false_ne_true
      rwa [show (_ : State ι).pool.live page = Function.update s.pool.live page' false page from rfl,
        Function.update_of_ne hp] at hl
    | release i x l r slots eq =>
      have hp : s'.pool = releaseSection s.pool x := by rw [eq]; rfl
      rw [hp] at hl
      rcases releaseSection_array s.pool x with ⟨harr, hlive⟩ | ⟨page', hx, harr, hlive⟩
      · exact hkeep (by rw [← hlive, hl]) fun y hy => by rw [hp, harr, hy]
      · have hne : page ≠ page' := by
          rintro rfl
          rw [hlive] at hl
          exact absurd ((Function.update_self ..).symm.trans hl) Bool.false_ne_true
        rw [hlive, Function.update_of_ne hne] at hl
        refine hkeep hl fun y hy => ?_
        rw [hp, harr, Function.update_of_ne, hy]
        rintro rfl
        exact hne (Option.some.inj (hy.symm.trans hx))
  · by_cases hi : i = a.req
    · rw [hi]
      exact (step_counting hs ho.size (h.spare _)).2
    · rw [step_other hs hi]
      exact h.spare i

/-- The private data of a request is wiped outside of calls. -/
theorem Sourced.reset (h : Sourced s) {t : ι} (ht : (s.reqs t).newPage = none) :
    Sourced (s.setReq t Req.fresh) := by
  refine ⟨fun page hl => ?_, fun i => ?_⟩
  · rcases h.live page hl with hx | ⟨i, hi⟩
    · exact .inl hx
    · refine .inr ⟨i, ?_⟩
      rw [State.setReq_reqs, if_neg, hi]
      rintro rfl
      rw [ht] at hi
      cases hi
  · rw [State.setReq_reqs]
    split
    · rfl
    · exact h.spare i

omit [DecidableEq ι] in
theorem SpareOk.none {r : Req} (h : SpareOk r) (hr : r.pc.getting = false) : r.newPage = none := by
  obtain ⟨pc, newPage, pi⟩ := r
  cases pc with
  | idle | ready | release => exact h
  | _ => cases hr

omit [DecidableEq ι] in
/-- When no call of `ubbd_get_data_pages` is running. -/
theorem Sourced.tornDown (h : Sourced s) (ho : Owned s) (hno : ∀ i, (s.reqs i).pc.getting = false) :
    TornDown s.pool := by
  refine tornDown_of (fun x hx => ho.below hx) (fun x y page hx hy => ho.inj hx hy) (fun x page hx => ho.live hx)
    fun page hp => ?_
  rcases h.live page hp with hx | ⟨i, hi⟩
  · exact hx
  · rw [(h.spare i).none (hno i)] at hi
    cases hi

end Ubbd.Pages

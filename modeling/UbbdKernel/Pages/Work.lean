import UbbdKernel.Pages.Calls
import UbbdKernel.Pages.Counter

/-!
# The work of a call

A call on the data pages makes a bounded number of steps, whatever other
requests do: `Req.work` is a bound for the steps that are left, and every step
within a call lowers it (`work_step`). The retry of `ubbd_get_data_pages` after
`ubbd_alloc_page` is in it, since a segment that comes back has its spare page
and keeps it until it has an index or fails. A call is never blocked
(`step_enabled`).
-/

namespace Ubbd.Pages

/-- The steps to release the spare page. -/
def spareWork (newPage : Option Page) : Nat := if newPage.isSome then 4 else 0

/-- The steps to get one. -/
def retryWork (newPage : Option Page) : Nat := if newPage.isSome then 0 else 4

/-- The steps that are left in the call, at most, but for those of the loops
that give back the indices recorded so far. -/
def Pc.work (newPage : Option Page) : Pc → Nat
  | .idle => 0
  | .release | .undo => 1
  | .ready => 2
  | .out _ => 3 + spareWork newPage
  | .decStore _ _ => 4
  | .decLoad _ => 5
  | .free _ => 6
  | .seg n => 8 * (n + 1) + 6 + retryWork newPage
  | .incStore n _ => 8 * (n + 1) + 7
  | .incLoad n => 8 * (n + 1) + 8
  | .alloc n => 8 * (n + 1) + 9

def Req.work (r : Req) : Nat := r.pi.length + r.pc.work r.newPage

theorem spareWork_le (newPage : Option Page) : spareWork newPage ≤ 4 := by
  cases newPage
  · exact Nat.zero_le _
  · exact Nat.le_refl _

theorem retryWork_le (newPage : Option Page) : retryWork newPage ≤ 4 := by
  cases newPage
  · exact Nat.le_refl _
  · exact Nat.zero_le _

@[simp] theorem spareWork_none : spareWork none = 0 := rfl
@[simp] theorem spareWork_some (page : Page) : spareWork (some page) = 4 := rfl
@[simp] theorem retryWork_none : retryWork none = 4 := rfl
@[simp] theorem retryWork_some (page : Page) : retryWork (some page) = 0 := rfl

theorem work_loopPc (n : Nat) (newPage : Option Page) : (loopPc n).work newPage ≤ 8 * n + 10 := by
  have hs := spareWork_le newPage
  have hr := retryWork_le newPage
  cases n with
  | zero => show 3 + spareWork newPage ≤ 10; omega
  | succ n => show 8 * (n + 1) + 6 + retryWork newPage ≤ _; omega

/-- A segment is worth more than what it leaves to do. -/
theorem work_loopPc_lt (n : Nat) (newPage newPage' : Option Page) :
    (loopPc n).work newPage' + 1 < (Pc.seg n).work newPage := by
  have hs := spareWork_le newPage'
  have hr := retryWork_le newPage'
  show _ < 8 * (n + 1) + 6 + retryWork newPage
  cases n with
  | zero => show 3 + spareWork newPage' + 1 < _; omega
  | succ n => show 8 * (n + 1) + 6 + retryWork newPage' + 1 < _; omega

variable {ι : Type} [DecidableEq ι] {s s' : State ι}

/-- The request of a step has the record `r` afterwards. -/
theorem work_setReq {p : Pool} {i : ι} {r : Req} (h : r.pi.length + r.pc.work r.newPage < (s.reqs i).work) :
    (((s.setPool p).setReq i r).reqs i).work < (s.reqs i).work := by
  rw [State.setReq_reqs, if_pos rfl]
  exact h

/-- The request of a step goes on with the same indices. -/
theorem work_move {p : Pool} {i : ι} {pc : Pc} {newPage : Option Page}
    (h : pc.work newPage < (s.reqs i).pc.work (s.reqs i).newPage) :
    (((s.setPool p).setReq i ⟨pc, newPage, (s.reqs i).pi⟩).reqs i).work < (s.reqs i).work :=
  work_setReq (Nat.add_lt_add_left h _)

theorem work_seg {i : ι} {ok : Bool} {n : Nat} (hpc : (s.reqs i).pc = .seg n) :
    ((s.seg i n (segSection s.pool (s.reqs i).newPage ok)).reqs i).work < (s.reqs i).work := by
  have hs := spareWork_le (s.reqs i).newPage
  cases hsec : segSection s.pool (s.reqs i).newPage ok with
  | full =>
    refine work_move (p := s.pool) ?_
    rw [hpc]
    show 3 + spareWork (s.reqs i).newPage < 8 * (n + 1) + 6 + retryWork (s.reqs i).newPage
    omega
  | needPage =>
    refine work_move (p := s.pool) ?_
    rw [hpc, segSection_needPage hsec]
    show 8 * (n + 1) + 9 < 8 * (n + 1) + 6 + 4
    omega
  | storeFailed page =>
    refine work_move (p := s.pool) ?_
    rw [hpc]
    show 6 < 8 * (n + 1) + 6 + retryWork (s.reqs i).newPage
    omega
  | took p newPage x =>
    have hlt := work_loopPc_lt n (s.reqs i).newPage newPage
    refine work_setReq ?_
    rw [Req.work, hpc]
    show ((s.reqs i).pi ++ [x]).length + (loopPc n).work newPage < _
    rw [List.length_append, List.length_singleton]
    omega

/-- A step within a call lowers its work. -/
theorem work_step {a : Label ι} (ha : a.calls = false) (hok : SpareOk (s.reqs a.req)) (h : step s a = some s') :
    (s'.reqs a.req).work < (s.reqs a.req).work := by
  cases a with
  | get i n => cases ha
  | release i => cases ha
  | seg i ok =>
    simp only [step] at h
    split at h <;> cases h
    rename_i n hpc
    exact work_seg hpc
  | alloc i page =>
    simp only [step] at h
    split at h
    · rename_i n hpc
      cases h
      refine work_move (p := s.pool) ?_
      have hs := spareWork_le (s.reqs i).newPage
      rw [hpc]
      show 3 + spareWork (s.reqs i).newPage < 8 * (n + 1) + 9
      omega
    · rename_i n page hpc
      split at h <;> cases h
      refine work_move ?_
      rw [hpc]
      exact Nat.lt_succ_self _
    · cases h
  | incLoad i =>
    simp only [step] at h
    split at h <;> cases h
    rename_i n hpc
    refine work_move (p := s.pool) ?_
    rw [hpc]
    exact Nat.lt_succ_self _
  | incStore i =>
    simp only [step] at h
    split at h <;> cases h
    rename_i n v hpc
    have hsome : (s.reqs i).newPage.isSome := by simpa only [Label.req, SpareOk, hpc] using hok
    obtain ⟨page, hpage⟩ := Option.isSome_iff_exists.mp hsome
    refine work_move ?_
    rw [hpc, hpage]
    exact Nat.lt_succ_self _
  | out i =>
    simp only [step] at h
    split at h
    · rename_i err page hpc hnew
      cases h
      refine work_move (p := s.pool) ?_
      rw [hpc, hnew]
      exact Nat.lt_succ_self _
    · rename_i err hpc hnew
      cases h
      refine work_move (p := s.pool) ?_
      rw [hpc, hnew]
      cases err
      · exact Nat.lt_succ_self _
      · show 1 < 3
        omega
    · cases h
  | free i =>
    simp only [step] at h
    split at h <;> cases h
    rename_i err page hpc hnew
    refine work_move ?_
    rw [hpc]
    exact Nat.lt_succ_self _
  | decLoad i =>
    simp only [step] at h
    split at h <;> cases h
    rename_i err hpc
    refine work_move (p := s.pool) ?_
    rw [hpc]
    exact Nat.lt_succ_self _
  | decStore i =>
    simp only [step] at h
    split at h <;> cases h
    rename_i err v hpc
    have hnone : (s.reqs i).newPage = none := by simpa only [Label.req, SpareOk, hpc] using hok
    refine work_move ?_
    rw [hpc, hnone]
    exact Nat.lt_succ_self _
  | undo i =>
    simp only [step] at h
    split at h <;> [skip; cases h]
    rename_i hpc
    split at h
    · cases h
      refine work_move (p := s.pool) ?_
      rw [hpc]
      exact Nat.lt_succ_self _
    · rename_i x hx
      cases h
      have hpos : 0 < (s.reqs i).pi.length := by
        refine List.length_pos_iff.mpr fun hnil => ?_
        rw [hnil] at hx
        cases hx
      refine work_setReq ?_
      show (s.reqs i).pi.dropLast.length + (s.reqs i).pc.work (s.reqs i).newPage < _
      rw [List.length_dropLast, Req.work]
      omega
  | releaseOne i =>
    simp only [step] at h
    split at h <;> [skip; cases h]
    rename_i hpc
    split at h
    · cases h
      refine work_move (p := s.pool) ?_
      rw [hpc]
      exact Nat.lt_succ_self _
    · rename_i x xs hx
      cases h
      refine work_setReq ?_
      show xs.length + (s.reqs i).pc.work (s.reqs i).newPage < _
      rw [Req.work, hx, List.length_cons]
      omega

theorem work_get {i : ι} {n : Nat} (h : step s (.get i n) = some s') :
    (s'.reqs i).work ≤ (s.reqs i).work + 8 * n + 10 := by
  simp only [step] at h
  split at h <;> cases h
  rename_i hpc
  have hloop := work_loopPc n none
  rw [State.setReq_reqs, if_pos rfl, Req.work, Req.work, hpc, Pc.work]
  simp only
  omega

theorem work_release {i : ι} (h : step s (.release i) = some s') : (s'.reqs i).work ≤ (s.reqs i).work := by
  simp only [step] at h
  split at h <;> cases h
  rename_i hpc
  rw [State.setReq_reqs, if_pos rfl, Req.work, Req.work, hpc, Pc.work, Pc.work]
  simp only
  omega

/-- Where a request is in a call, a step within the call is possible. -/
theorem step_enabled {i : ι} (hok : SpareOk (s.reqs i)) (hidle : (s.reqs i).pc ≠ .idle)
    (hready : (s.reqs i).pc ≠ .ready) : ∃ a : Label ι, a.calls = false ∧ (step s a).isSome := by
  unfold SpareOk at hok
  cases hpc : (s.reqs i).pc with
  | idle => exact absurd hpc hidle
  | ready => exact absurd hpc hready
  | seg n => exact ⟨.seg i true, rfl, by simp only [step, hpc]; rfl⟩
  | alloc n => exact ⟨.alloc i none, rfl, by simp only [step, hpc]; rfl⟩
  | incLoad n => exact ⟨.incLoad i, rfl, by simp only [step, hpc]; rfl⟩
  | incStore n v => exact ⟨.incStore i, rfl, by simp only [step, hpc]; rfl⟩
  | out err =>
    refine ⟨.out i, rfl, ?_⟩
    cases hnew : (s.reqs i).newPage <;> simp only [step, hpc, hnew] <;> rfl
  | free err =>
    rw [hpc] at hok
    obtain ⟨page, hnew⟩ := Option.isSome_iff_exists.mp hok
    exact ⟨.free i, rfl, by simp only [step, hpc, hnew]; rfl⟩
  | decLoad err => exact ⟨.decLoad i, rfl, by simp only [step, hpc]; rfl⟩
  | decStore err v => exact ⟨.decStore i, rfl, by simp only [step, hpc]; rfl⟩
  | undo =>
    refine ⟨.undo i, rfl, ?_⟩
    cases hpi : (s.reqs i).pi.getLast? <;> simp only [step, hpc, hpi, if_true] <;> rfl
  | release =>
    refine ⟨.releaseOne i, rfl, ?_⟩
    cases hpi : (s.reqs i).pi <;> simp only [step, hpc, hpi, if_true] <;> rfl

end Ubbd.Pages

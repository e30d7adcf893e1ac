import UbbdKernel.Pages.Model

/-!
# The calls of one request

`ubbd_get_data_pages` ends with an index in every slot, or with none: while it
runs, the segments it has done and those it has still to do make up the
request (`Calling`). `ubbd_req_release` ends with none (`Releasing`).
-/

namespace Ubbd.Pages

variable {ι : Type} [DecidableEq ι]

/-- A call of `ubbd_get_data_pages` for `cnt` segments is running, or has
returned. -/
def Calling (cnt : Nat) (r : Req) : Prop :=
  match r.pc with
  | .seg n | .alloc n | .incLoad n | .incStore n _ => r.pi.length + (n + 1) = cnt
  | .out err | .free err | .decLoad err | .decStore err _ => err = false → r.pi.length = cnt
  | .undo => True
  | .ready => r.pi.length = cnt
  | .idle => r.pi = []
  | .release => False

/-- A call of `ubbd_req_release` is running, or has returned. -/
def Releasing (r : Req) : Prop := r.pc = .release ∨ r.pc = .idle ∧ r.pi = []

/-- A call of `ubbd_get_data_pages` is running. -/
def Pc.getting : Pc → Bool
  | .idle | .ready | .release => false
  | _ => true

/-- The request whose call takes the step. -/
def Label.req : Label ι → ι
  | .get i _ | .seg i _ | .alloc i _ | .incLoad i | .incStore i | .out i | .free i | .decLoad i
  | .decStore i | .undo i | .release i | .releaseOne i => i

/-- The label starts a call. -/
def Label.calls : Label ι → Bool
  | .get _ _ | .release _ => true
  | _ => false

theorem calling_loopPc (n : Nat) (newPage : Option Page) (pi : List Nat) :
    Calling (pi.length + n) ⟨loopPc n, newPage, pi⟩ := by
  cases n with
  | zero => exact fun _ => rfl
  | succ n => exact rfl

/-- What a step inside a call does to its request. -/
structure Goes (r r' : Req) : Prop where
  running : r.pc ≠ .idle ∧ r.pc ≠ .ready
  calling : ∀ cnt, Calling cnt r → Calling cnt r'
  releasing : Releasing r → Releasing r'

/-- Steps of `ubbd_get_data_pages`. -/
theorem Goes.of_getting {r r' : Req} (hr : r.pc.getting = true)
    (h : ∀ cnt, Calling cnt r → Calling cnt r') : Goes r r' := by
  have hne : ∀ pc : Pc, pc.getting = false → r.pc ≠ pc := by
    rintro pc hpc rfl
    rw [hr] at hpc
    cases hpc
  refine ⟨⟨hne _ rfl, hne _ rfl⟩, h, fun hrel => ?_⟩
  rcases hrel with hrel | ⟨hrel, -⟩
  · exact absurd hrel (hne _ rfl)
  · exact absurd hrel (hne _ rfl)

/-- A section of the loop, whatever its outcome. -/
theorem goes_seg {s : State ι} {i : ι} {n : Nat} (hpc : (s.reqs i).pc = .seg n) (sec : Seg) :
    Goes (s.reqs i) ((s.seg i n sec).reqs i) := by
  refine .of_getting (by rw [hpc]; rfl) fun cnt h => ?_
  simp only [Calling, hpc] at h
  cases sec with
  | full => simp [State.seg, State.setReq_reqs, Calling]
  | needPage => simpa [State.seg, State.setReq_reqs, Calling] using h
  | storeFailed page => simp [State.seg, State.setReq_reqs, Calling]
  | took p newPage index =>
    have hcall := calling_loopPc n newPage ((s.reqs i).pi ++ [index])
    rw [show ((s.reqs i).pi ++ [index]).length + n = cnt by simp; omega] at hcall
    simpa [State.seg, State.setReq_reqs] using hcall

/-- A step that is not the start of a call. -/
theorem step_goes {s s' : State ι} {l : Label ι} (hl : l.calls = false) (h : step s l = some s') :
    Goes (s.reqs l.req) (s'.reqs l.req) := by
  cases l with
  | get i n => cases hl
  | release i => cases hl
  | seg i storeOk =>
    simp only [step] at h
    split at h <;> cases h
    rename_i n hpc
    exact goes_seg hpc _
  | alloc i page =>
    simp only [step] at h
    split at h
    · rename_i n hpc
      cases h
      refine .of_getting (by rw [Label.req, hpc]; rfl) fun cnt _ => ?_
      simp [State.setReq_reqs, Label.req, Calling]
    · rename_i n page hpc
      split at h <;> cases h
      refine .of_getting (by rw [Label.req, hpc]; rfl) fun cnt hc => ?_
      simpa [State.setReq_reqs, Label.req, Calling, hpc] using hc
    · cases h
  | incLoad i =>
    simp only [step] at h
    split at h <;> cases h
    rename_i n hpc
    refine .of_getting (by rw [Label.req, hpc]; rfl) fun cnt hc => ?_
    simpa [State.setReq_reqs, Label.req, Calling, hpc] using hc
  | incStore i =>
    simp only [step] at h
    split at h <;> cases h
    rename_i n v hpc
    refine .of_getting (by rw [Label.req, hpc]; rfl) fun cnt hc => ?_
    simpa [State.setReq_reqs, Label.req, Calling, hpc] using hc
  | out i =>
    simp only [step] at h
    split at h
    · rename_i err page hpc hnew
      cases h
      refine .of_getting (by rw [Label.req, hpc]; rfl) fun cnt hc => ?_
      simpa [State.setReq_reqs, Label.req, Calling, hpc] using hc
    · rename_i err hpc hnew
      cases h
      refine .of_getting (by rw [Label.req, hpc]; rfl) fun cnt hc => ?_
      cases err <;> simp [State.setReq_reqs, Label.req, Calling, hpc] at hc ⊢
      exact hc
    · cases h
  | free i =>
    simp only [step] at h
    split at h <;> cases h
    rename_i err page hpc hnew
    refine .of_getting (by rw [Label.req, hpc]; rfl) fun cnt hc => ?_
    simpa [State.setReq_reqs, Label.req, Calling, hpc] using hc
  | decLoad i =>
    simp only [step] at h
    split at h <;> cases h
    rename_i err hpc
    refine .of_getting (by rw [Label.req, hpc]; rfl) fun cnt hc => ?_
    simpa [State.setReq_reqs, Label.req, Calling, hpc] using hc
  | decStore i =>
    simp only [step] at h
    split at h <;> cases h
    rename_i err v hpc
    refine .of_getting (by rw [Label.req, hpc]; rfl) fun cnt hc => ?_
    simpa [State.setReq_reqs, Label.req, Calling, hpc] using hc
  | undo i =>
    simp only [step] at h
    split at h <;> [skip; cases h]
    rename_i hpc
    split at h
    · rename_i hlast
      cases h
      refine .of_getting (by rw [Label.req, hpc]; rfl) fun cnt hc => ?_
      simpa [State.setReq_reqs, Label.req, Calling] using hlast
    · cases h
      refine .of_getting (by rw [Label.req, hpc]; rfl) fun cnt hc => ?_
      simp [State.setReq_reqs, Label.req, Calling, hpc]
  | releaseOne i =>
    simp only [step] at h
    split at h <;> [skip; cases h]
    rename_i hpc
    have hrun : (s.reqs i).pc ≠ .idle ∧ (s.reqs i).pc ≠ .ready := by simp [hpc]
    have hcall : ∀ cnt, ¬ Calling cnt (s.reqs i) := fun cnt hc => by simp [Calling, hpc] at hc
    split at h
    · rename_i hpi
      cases h
      refine ⟨hrun, fun cnt hc => absurd hc (hcall cnt), fun _ => .inr ?_⟩
      simp [State.setReq_reqs, Label.req, hpi]
    · cases h
      refine ⟨hrun, fun cnt hc => absurd hc (hcall cnt), fun _ => .inl ?_⟩
      simp [State.setReq_reqs, Label.req, hpc]

/-- A step leaves the other requests alone. -/
theorem step_other {s s' : State ι} {l : Label ι} (h : step s l = some s') {j : ι} (hj : j ≠ l.req) :
    s'.reqs j = s.reqs j := by
  cases l with
  | seg i storeOk =>
    simp only [step] at h
    split at h <;> cases h
    unfold State.seg
    split <;> simp [State.setReq_reqs, show j ≠ i from hj]
  | _ =>
    simp only [step] at h
    (repeat' split at h) <;> cases h <;> simp [State.setReq_reqs] <;> exact fun hji => absurd hji hj

/-- `ubbd_get_data_pages` is called. -/
theorem step_get {s s' : State ι} {i : ι} {n : Nat} (h : step s (.get i n) = some s')
    (hpi : (s.reqs i).pi = []) : Calling n (s'.reqs i) := by
  simp only [step] at h
  split at h <;> cases h
  have hcall := calling_loopPc n none (s.reqs i).pi
  rw [show (s.reqs i).pi.length + n = n by simp [hpi]] at hcall
  simpa [State.setReq_reqs] using hcall

/-- `ubbd_req_release` is called for a request that has its indices, or none. -/
theorem releasing_release {s : State ι} {i : ι} (h : (s.reqs i).pc = .ready ∨
    (s.reqs i).pc = .idle ∧ (s.reqs i).pi = []) :
    Releasing (((step s (.release i)).getD s).reqs i) := by
  rcases h with h | ⟨h, hpi⟩
  · exact .inl (by simp [step, h, State.setReq_reqs])
  · exact .inr (by simp [step, h, hpi])

end Ubbd.Pages

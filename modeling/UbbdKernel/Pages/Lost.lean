import UbbdKernel.Pages.Owner

/-!
# Data page indices that nobody has

A request that gives up at a full command ring keeps its data page indices
until `ubbd_queue_rq` wipes its private data. From then on nobody has them:
their bits stay set. Whoever else has an index has it alone all the same.
`withLost` gives the lost indices to one more request, so that `Bits` and `Arr`
hold of the requests and this one (`Owned`); wiping a request moves its indices
there (`Owned.reset`), and every step of the calls keeps `Owned`.
-/

namespace Ubbd.Pages

variable {ι : Type}

/-- The requests, and one more that has the indices `lost`. -/
def withLost (lost : List Nat) (s : State ι) : State (Option ι) where
  pool := s.pool
  reqs
    | none => ⟨.idle, none, lost⟩
    | some i => s.reqs i

/-- Every index in a slot is there alone, below `data_pages`, marked and backed
by a page of its own; so are the indices nobody has. -/
def Owned (s : State ι) : Prop := ∃ lost, Bits (withLost lost s) ∧ Arr (withLost lost s)

theorem owned_init {n : Nat} (h : n ≤ 2 ^ 31) (reserved : Nat) (live : Page → Bool) :
    Owned (initState ι n reserved live) := by
  have heq : withLost [] (initState ι n reserved live) = initState (Option ι) n reserved live := by
    unfold withLost initState
    congr 1
    funext i
    cases i <;> rfl
  refine ⟨[], ?_, ?_⟩
  · rw [heq]
    exact bits_init (by omega) reserved live
  · rw [heq]
    exact arr_init h reserved live

namespace Owned

variable {s s' : State ι}

theorem lt (h : Owned s) {i : ι} {x : Nat} (hx : x ∈ (s.reqs i).pi) : x < 2 ^ 31 := by
  obtain ⟨lost, hb, ha⟩ := h
  exact (hb.lt (some i) x hx).trans_le ha.small

theorem alone (h : Owned s) {i j : ι} {x : Nat} (hi : x ∈ (s.reqs i).pi) (hj : x ∈ (s.reqs j).pi) : i = j := by
  have hx := h.lt hi
  obtain ⟨lost, hb, ha⟩ := h
  exact Option.some.inj (hb.alone (some i) (some j) x hx hi hj)

theorem nodup (h : Owned s) (i : ι) : (s.reqs i).pi.Nodup := by
  obtain ⟨lost, hb, ha⟩ := h
  exact (ha.owner hb).nodup (some i)

/-- An index in a slot has a page. -/
theorem page (h : Owned s) {i : ι} {x : Nat} (hx : x ∈ (s.reqs i).pi) : ∃ page, s.pool.array x = some page := by
  obtain ⟨lost, hb, ha⟩ := h
  exact Option.isSome_iff_exists.mp (ha.backed (some i) x hx)

/-- No page is in the array twice. -/
theorem inj (h : Owned s) {x y : Nat} {page : Page} (hx : s.pool.array x = some page)
    (hy : s.pool.array y = some page) : x = y := by
  obtain ⟨lost, hb, ha⟩ := h
  exact ha.inj x y page hx hy

variable [DecidableEq ι]

omit [DecidableEq ι] in
theorem withLost_pi {s s' : State ι} (lost : List Nat) (h : ∀ j, (s'.reqs j).pi = (s.reqs j).pi) (j : Option ι) :
    ((withLost lost s').reqs j).pi = ((withLost lost s).reqs j).pi := by
  cases j with
  | none => rfl
  | some j => exact h j

theorem withLost_setReq (lost : List Nat) (s : State ι) (i : ι) (r : Req) :
    withLost lost (s.setReq i r) = (withLost lost s).setReq (some i) r := by
  show (⟨s.pool, _⟩ : State (Option ι)) = ⟨s.pool, _⟩
  congr 1
  funext j
  rw [Function.update_apply]
  cases j with
  | none =>
    rw [if_neg (Option.some_ne_none i).symm]
    rfl
  | some j =>
    show (s.setReq i r).reqs j = _
    rw [State.setReq_reqs]
    simp only [Option.some.injEq]
    rfl

/-- What a step does, it does beside the indices nobody has. -/
theorem effect (lost : List Nat) (e : Effect s s') : Effect (withLost lost s) (withLost lost s') := by
  cases e with
  | frame pool pi spare =>
    refine .frame pool (withLost_pi lost pi) fun j page hp => ?_
    cases j with
    | none => cases hp
    | some j => exact spare j page hp
  | took i ok p pc newPage x sec eq =>
    subst eq
    exact .took (some i) ok p pc newPage x sec (withLost_setReq lost (s.setPool p) i _)
  | alloc i pc page fresh eq =>
    subst eq
    exact .alloc (some i) pc page fresh (withLost_setReq lost (s.setPool _) i _)
  | free i pc page spare eq =>
    subst eq
    exact .free (some i) pc page spare (withLost_setReq lost (s.setPool _) i _)
  | release i x l r slots eq =>
    subst eq
    exact .release (some i) x l r slots (withLost_setReq lost (s.setPool _) i _)

theorem step (h : Owned s) (e : Effect s s') : Owned s' := by
  obtain ⟨lost, hb, ha⟩ := h
  exact ⟨lost, (effect lost e).bits hb, (effect lost e).arr hb ha⟩

/-- The `memset` of `ubbd_queue_rq`: the indices of the request are lost. -/
theorem reset (h : Owned s) (t : ι) : Owned (s.setReq t Req.fresh) := by
  have hnodup := h.nodup t
  obtain ⟨lost, hb, ha⟩ := h
  have hlt : ∀ i, ∀ x ∈ ((withLost lost s).reqs i).pi, x < 2 ^ 31 := fun i x hx =>
    (hb.lt i x hx).trans_le ha.small
  -- who has an index afterwards, and who had it
  have hpi : ∀ i, ∀ x ∈ ((withLost (lost ++ (s.reqs t).pi) (s.setReq t Req.fresh)).reqs i).pi,
      ∃ j, x ∈ ((withLost lost s).reqs j).pi ∧ (j = some t → i = none) ∧ (j ≠ some t → i = j) := by
    intro i x hx
    cases i with
    | none =>
      rcases List.mem_append.mp hx with hx | hx
      · exact ⟨none, hx, nofun, fun _ => rfl⟩
      · exact ⟨some t, hx, fun _ => rfl, fun h => absurd rfl h⟩
    | some i =>
      have hx : x ∈ ((s.setReq t Req.fresh).reqs i).pi := hx
      rw [State.setReq_reqs] at hx
      split at hx
      · cases hx
      · rename_i hne
        exact ⟨some i, hx, fun heq => absurd (Option.some.inj heq) hne, fun _ => rfl⟩
  refine ⟨lost ++ (s.reqs t).pi, ⟨hb.size, fun i x hx => ?_, hb.high, fun x hx => ?_, fun i x hx => ?_,
    fun i j x hx hi hj => ?_⟩, ⟨ha.small, fun i x hx => ?_, ha.below, ha.inj, ha.live, fun i page hp => ?_,
    fun i j page hi hj => ?_⟩⟩
  · obtain ⟨j, hj, -⟩ := hpi i x hx
    exact hb.lt j x hj
  · rw [show (withLost (lost ++ (s.reqs t).pi) (s.setReq t Req.fresh)).pool = (withLost lost s).pool from rfl,
      hb.set x hx]
    constructor
    · rintro ⟨i, hi⟩
      cases i with
      | none => exact ⟨none, List.mem_append_left _ hi⟩
      | some i =>
        by_cases hit : i = t
        · subst hit
          exact ⟨none, List.mem_append_right _ hi⟩
        · refine ⟨some i, ?_⟩
          show x ∈ ((s.setReq t Req.fresh).reqs i).pi
          rw [State.setReq_reqs, if_neg hit]
          exact hi
    · rintro ⟨i, hi⟩
      obtain ⟨j, hj, -⟩ := hpi i x hi
      exact ⟨j, hj⟩
  · cases i with
    | none =>
      show (lost ++ (s.reqs t).pi).count x ≤ 1
      rw [List.count_append]
      have h1 : lost.count x ≤ 1 := hb.once none x hx
      have h2 : (s.reqs t).pi.count x ≤ 1 := hb.once (some t) x hx
      by_cases hl : x ∈ lost
      · have : x ∉ (s.reqs t).pi := fun ht => nomatch hb.alone none (some t) x hx hl ht
        rw [List.count_eq_zero_of_not_mem this]
        omega
      · rw [List.count_eq_zero_of_not_mem hl]
        omega
    | some i =>
      show ((s.setReq t Req.fresh).reqs i).pi.count x ≤ 1
      rw [State.setReq_reqs]
      split
      · exact Nat.zero_le _
      · exact hb.once (some i) x hx
  · obtain ⟨i', hi', h1, h2⟩ := hpi i x hi
    obtain ⟨j', hj', h3, h4⟩ := hpi j x hj
    obtain rfl := hb.alone i' j' x hx hi' hj'
    by_cases he : i' = some t
    · rw [h1 he, h3 he]
    · rw [h2 he, h4 he]
  · obtain ⟨j, hj, -⟩ := hpi i x hx
    exact ha.backed j x hj
  · cases i with
    | none => cases hp
    | some i =>
      have hp : ((s.setReq t Req.fresh).reqs i).newPage = some page := hp
      rw [State.setReq_reqs] at hp
      split at hp
      · cases hp
      · exact ha.spare (some i) page hp
  · have hold : ∀ i, ((withLost (lost ++ (s.reqs t).pi) (s.setReq t Req.fresh)).reqs i).newPage = some page →
        ((withLost lost s).reqs i).newPage = some page := by
      intro i hi
      cases i with
      | none => cases hi
      | some i =>
        have hi : ((s.setReq t Req.fresh).reqs i).newPage = some page := hi
        rw [State.setReq_reqs] at hi
        split at hi
        · cases hi
        · exact hi
    exact ha.spare_inj i j page (hold i hi) (hold j hj)

/-- An index that stays in its slot keeps its page. -/
theorem stable (h : Owned s) (e : Effect s s') {j : ι} {x : Nat} (hx : x ∈ (s.reqs j).pi)
    (hx' : x ∈ (s'.reqs j).pi) : s'.pool.array x = s.pool.array x := by
  have hlt := h.lt hx
  obtain ⟨page, hpage⟩ := h.page hx
  have hsize : s.pool.dataPages < 2 ^ 32 := by
    obtain ⟨lost, hb, -⟩ := h
    exact hb.size
  have hsmall : s.pool.dataPages ≤ 2 ^ 31 := by
    obtain ⟨lost, -, ha⟩ := h
    exact ha.small
  cases e with
  | frame pool pi spare => rw [pool.2.2.1]
  | took i ok p pc newPage y sec eq =>
    have htook := segSection_took hsize sec
    have hy := htook.lt
    rw [eq]
    show p.array x = _
    rcases htook.array with ⟨-, harr, -⟩ | ⟨q, -, hnone, harr, -⟩
    · rw [harr]
    · rw [toULong_toInt32 (by omega)] at hnone harr
      have hne : x ≠ y := by
        rintro rfl
        rw [hpage] at hnone
        cases hnone
      rw [harr, Function.update_of_ne hne]
  | alloc i pc page fresh eq => rw [eq]; rfl
  | free i pc page spare eq => rw [eq]; rfl
  | release i y l r slots eq =>
    have hy : y ∈ (s.reqs i).pi := by
      rw [slots]
      exact List.mem_append_right _ (List.mem_cons_self ..)
    have hne : x ≠ y := by
      rintro rfl
      obtain rfl := h.alone hx hy
      have hnd := h.nodup j
      rw [slots] at hnd
      rw [eq, State.setReq_reqs, if_pos rfl] at hx'
      rcases List.mem_append.mp hx' with hx' | hx'
      · exact (List.nodup_append.mp hnd).2.2 _ hx' _ (List.mem_cons_self ..) rfl
      · exact (List.nodup_cons.mp (List.nodup_append.mp hnd).2.1).1 hx'
    rw [eq]
    show (releaseSection s.pool y).array x = _
    rcases releaseSection_array s.pool y with ⟨harr, -⟩ | ⟨q, -, harr, -⟩
    · rw [harr]
    · rw [harr, toULong_toInt32 (h.lt hy), Function.update_of_ne hne]

end Owned

end Ubbd.Pages

import UbbdKernel.Queue.Entries

/-!
# What a request keeps

From the moment `queue_req_prepare` has returned 0 until a thread begins to
release its pages, a request keeps its operation, its segments and its data page
indices, and the indices keep their pages, whatever is done for other requests
(`keeping_step`). In the states of a run it has an index for each segment, in no
other slot of any request, with a page of its own (`kept_states`).
-/

namespace Ubbd.Queue

variable {C : Conf} {s s' : State C}

/-- `queue_req_prepare` has returned 0. -/
def Wk.has : Wk → Bool
  | .prepared | .inserted | .full | .published => true
  | _ => false

theorem Wk.stage_of_has {w : Wk} (h : w.has = true) : w.stage ≠ .free := by
  cases w with
  | prepared | inserted | full | published => decide
  | _ => cases h

/-- The request has its data pages. -/
def Keeping (s : State C) (t : C.Tag) : Prop := (s.rqs t).wk.has = true ∧ ∀ x, (s.threads x).releases ≠ some t

/-- The request is the same, and has the same indices with the same pages. -/
structure Same (s s' : State C) (t : C.Tag) : Prop where
  req : (s'.rqs t).req = (s.rqs t).req
  op : (s'.rqs t).op = (s.rqs t).op
  start : (s'.rqs t).start = (s.rqs t).start
  pi : (s'.pages.reqs t).pi = (s.pages.reqs t).pi
  page : ∀ x ∈ (s.pages.reqs t).pi, s'.pages.pool.array x = s.pages.pool.array x

theorem Holding.has (h : Holding s) {t : C.Tag} (ht : Keeping s t) : Has (s.rqs t) (s.pages.reqs t) := by
  have hwants := h.wants t ht.2
  have hwk := ht.1
  generalize (s.rqs t).wk = w at hwants hwk
  cases w <;> first | exact hwants | cases hwk

theorem Same.refl (s : State C) (t : C.Tag) : Same s s t := ⟨rfl, rfl, rfl, rfl, fun _ _ => rfl⟩

/-- The pages of a request that has its indices stay where they are. -/
theorem Holding.pages (h : Holding s) {t : C.Tag} (e : Pages.Effect s.pages s'.pages)
    (hpi : (s'.pages.reqs t).pi = (s.pages.reqs t).pi) :
    ∀ x ∈ (s.pages.reqs t).pi, s'.pages.pool.array x = s.pages.pool.array x :=
  fun _ hx => h.owned.stable e hx (hpi ▸ hx)

/-! ## Steps of requests -/

theorem keeping_other {t u : C.Tag} {l : WkLabel C} (h : Holding s) (hs : WkStep s t l s') (hu : u ≠ t) :
    Same s s' u := by
  have hpi : (s'.pages.reqs u).pi = (s.pages.reqs u).pi := by rw [wkStep_pages hs hu]
  refine ⟨by rw [hs.other hu], by rw [hs.other hu], by rw [hs.other hu], hpi, ?_⟩
  cases hs with
  | rqStart wk r =>
    obtain ⟨op, w, -, heq⟩ := startRq_eq s t r
    rw [heq]
    exact fun _ _ => rfl
  | get wk piOk cnt pos p hp => exact h.pages (Pages.step_effect hp) hpi
  | _ => exact fun _ _ => rfl

/-- The request of a step has its pages before, or gets them by this step. -/
theorem keeping_self {t : C.Tag} {l : WkLabel C} (hs : WkStep s t l s') (ht : (s'.rqs t).wk.has = true) :
    Same s s' t ∧ ((s.rqs t).wk.has = true ∨
      ((s.rqs t).wk = .passed ∨ (s.rqs t).wk = .pages) ∧ (s'.rqs t).wk = .prepared) := by
  have hwk : ∀ w, ((s.setWk t w).rqs t) = { s.rqs t with wk := w } := fun w => (State.setWk_rqs ..).trans (if_pos rfl)
  have hrq : ∀ r, (s.setRq t r).rqs t = r := fun r => (State.setRq_rqs ..).trans (if_pos rfl)
  -- another record for the request, with what it keeps
  have hsame : ∀ {r : Rq C.pageSize} {q : State C}, q.rqs t = r → q.pages = s.pages →
      r.req = (s.rqs t).req → r.op = (s.rqs t).op → r.start = (s.rqs t).start → Same s q t := by
    intro r q hr hp hreq hop hstart
    exact ⟨by rw [hr, hreq], by rw [hr, hop], by rw [hr, hstart], by rw [hp], fun _ _ => by rw [hp]⟩
  cases hs with
  | refused wk => exact ⟨.refl s t, .inl ht⟩
  | rqStart wk r =>
    obtain ⟨op, w, hw, heq⟩ := startRq_eq s t r
    rw [heq, State.setRq_rqs, if_pos rfl] at ht
    rcases hw with rfl | rfl <;> cases ht
  | noData wk piOk cnt => exact ⟨hsame (hrq _) rfl rfl rfl rfl, .inr ⟨.inl wk, congrArg Rq.wk (hrq _)⟩⟩
  | gotPages wk pc => exact ⟨hsame (hwk _) rfl rfl rfl rfl, .inr ⟨.inr wk, congrArg Rq.wk (hwk _)⟩⟩
  | insert wk lock => exact ⟨hsame (hwk .inserted) rfl rfl rfl rfl, .inl (by rw [wk]; rfl)⟩
  | full wk => exact ⟨hsame (hwk _) rfl rfl rfl rfl, .inl (by rw [wk]; rfl)⟩
  | publish wk ring se => exact ⟨hsame (hrq _) rfl rfl rfl rfl, .inl (by rw [wk]; rfl)⟩
  | rqRead wk st =>
    rw [hwk] at ht
    cases ht
  | pass wk st =>
    rw [hwk] at ht
    cases ht
  | refuse wk e =>
    rw [hwk] at ht
    cases ht
  | noPi wk cnt =>
    rw [hrq] at ht
    cases ht
  | noPages wk pc =>
    rw [hrq] at ht
    cases ht
  | get wk piOk cnt pos p hp =>
    have ht : (((s.setRq t _).rqs t).wk).has = true := ht
    rw [hrq] at ht
    cases ht
  | remove wk lock =>
    have ht : (((s.setWk t _).rqs t).wk).has = true := ht
    rw [hwk] at ht
    cases ht
  | endRequest e wk =>
    have ht : (((s.setWk t _).rqs t).wk).has = true := ht
    rw [hwk] at ht
    cases ht

/-! ## Steps of threads -/

/-- A request that has its pages after a step of a thread had them before. -/
theorem ThStep.keeping {x : Nat} {l : ThLabel} (ho : Own s) (hs : ThStep s x l s') {u : C.Tag} (hu : Keeping s' u) :
    Keeping s u := by
  obtain ⟨hwk, hrel⟩ := hu
  have hold : (s.rqs u).wk.has = true := by
    rcases (hs.wk u).2 with h | ⟨-, h⟩
    · rwa [← h]
    · rw [h] at hwk
      cases hwk
  refine ⟨hold, ?_⟩
  cases hs with
  | back l call pc => exact hrel
  | released t by_ pc idle =>
    have hx := hrel x
    rw [State.setPc_threads, if_pos rfl] at hx
    exact releases_setPc hrel (by rw [pc]; exact hx)
  | finish t by_ pc =>
    refine releases_setPc hrel ?_
    rw [pc]
    intro htu
    obtain rfl : t = u := Option.some.inj htu
    have hpub := (ho.of_holds (x := x) (t := t) (by rw [pc]; rfl)).1
    have hwk : ((finishRq s t by_).rqs t).wk.has = true := hwk
    rw [finishRq_wk by_ hpub, if_pos rfl] at hwk
    cases hwk
  | mark t by_ pc => exact releases_setPc (s := s) hrel (by rw [pc]; exact nofun)
  | remFlushed force snap pc flushed => exact releases_setPc hrel (by rw [pc]; exact nofun)
  | advance by_ pc => exact releases_setPc (s := s) hrel (by rw [pc]; exact nofun)
  | _ => exact releases_setPc (s := s) hrel (by simp only [*]; exact nofun)

theorem thStep_same {x : Nat} {l : ThLabel} (h : Holding s) (hs : ThStep s x l s') {u : C.Tag} (hu : Keeping s' u) :
    Same s s' u := by
  obtain ⟨hreq, hop, -, -, -, hstart⟩ := thStep_rqs hs u
  cases hs with
  | mark t by_ pc =>
    have hut : u ≠ t := by
      rintro rfl
      refine hu.2 x ?_
      show ((s.setPc x (.release u by_)).threads x).releases = some u
      rw [State.setPc_threads, if_pos rfl]
      rfl
    have hpi := congrArg Pages.Req.pi ((h.call_release t).2 u hut)
    refine ⟨rfl, rfl, rfl, hpi, ?_⟩
    cases hp : Pages.step s.pages (.release t) with
    | none => exact fun _ _ => rfl
    | some p =>
      rw [hp] at hpi
      exact fun y hy => h.owned.stable (Pages.step_effect hp) hy (hpi ▸ hy)
  | released t by_ pc idle => exact ⟨hreq, hop, hstart, rfl, fun _ _ => rfl⟩
  | finish t by_ pc => exact ⟨hreq, hop, hstart, rfl, fun _ _ => rfl⟩
  | _ => exact ⟨rfl, rfl, rfl, rfl, fun _ _ => rfl⟩

/-! ## Steps of the queue -/

/-- Who has its pages after a step had them before, or gets them by this step;
the request and what it has stay the same. -/
theorem keeping_step {a : Label C} (ho : Own s) (h : Holding s) (hs : step s a = some s') {t : C.Tag}
    (ht : Keeping s' t) :
    Same s s' t ∧ (Keeping s t ∨
      ((s.rqs t).wk = .passed ∨ (s.rqs t).wk = .pages) ∧ (s'.rqs t).wk = .prepared) := by
  cases step_cases hs with
  | rq hw =>
    rename_i u l
    have hth := hw.control.2.1
    obtain ⟨hwk, hrel⟩ := ht
    rw [hth] at hrel
    by_cases htu : t = u
    · subst htu
      obtain ⟨hsame, hold⟩ := keeping_self hw hwk
      exact ⟨hsame, hold.imp (fun hhas => ⟨hhas, hrel⟩) id⟩
    · rw [hw.other htu] at hwk
      exact ⟨keeping_other h hw htu, .inl ⟨hwk, hrel⟩⟩
  | th hx => exact ⟨thStep_same h hx ht, .inl (hx.keeping ho ht)⟩
  | page l hl p hp =>
    have hhas := h.has (s := s) ht
    have hpi : (p.reqs t).pi = (s.pages.reqs t).pi := by rw [hhas.page hl hp]
    exact ⟨⟨rfl, rfl, rfl, hpi, fun x hx => h.owned.stable (Pages.step_effect hp) hx (hpi ▸ hx)⟩, .inl ht⟩
  | _ => exact ⟨⟨rfl, rfl, rfl, rfl, fun _ _ => rfl⟩, .inl ht⟩

/-- The request is published, and its pages are not yet being given back. -/
def Pending (s : State C) (t : C.Tag) : Prop :=
  (s.rqs t).wk = .published ∧ ∀ x, (s.threads x).releases ≠ some t

theorem Pending.keeping {t : C.Tag} (h : Pending s t) : Keeping s t := ⟨by rw [h.1]; rfl, h.2⟩

/-- A request that is pending after a step was so before, or is submitted by it. -/
theorem pending_step {a : Label C} (hs : step s a = some s') {t : C.Tag} (ht : Pending s' t) :
    a = .rq t .submit ∨ Pending s t ∧ (s'.rqs t).tid = (s.rqs t).tid := by
  obtain ⟨hwk, hrel⟩ := ht
  cases step_cases hs with
  | rq hw =>
    rename_i u l
    rw [hw.control.2.1] at hrel
    by_cases htu : t = u
    · subst htu
      by_cases hl : l = .submit
      · exact .inl (by rw [hl])
      · have heq := hw.published hl hwk
        rw [heq] at hwk ⊢
        exact .inr ⟨⟨hwk, hrel⟩, rfl⟩
    · have heq := hw.other htu
      rw [heq] at hwk ⊢
      exact .inr ⟨⟨hwk, hrel⟩, rfl⟩
  | th hx =>
    obtain ⟨hwk, hrel, -, htid⟩ := hx.published hwk hrel
    exact .inr ⟨⟨hwk, hrel⟩, htid⟩
  | _ => exact .inr ⟨⟨hwk, hrel⟩, rfl⟩

/-- A pending request stays so until a thread marks its entry. -/
theorem Pending.step {a : Label C} {t : C.Tag} (h : Pending s t) (hs : Queue.step s a = some s') :
    Pending s' t ∨ ∃ x by_, a = .th x .mark ∧ s.threads x = .mark t by_ := by
  obtain ⟨hwk, hrel⟩ := h
  cases step_cases hs with
  | rq hw =>
    rename_i u l
    have htu : t ≠ u := by
      rintro rfl
      exact hw.wk_ne hwk
    refine .inl ⟨?_, ?_⟩
    · rw [hw.other htu]
      exact hwk
    · rw [hw.control.2.1]
      exact hrel
  | th hx =>
    rename_i x l
    have hmove : ∀ {q : State C} {pc : Pc C}, q.threads = s.threads → (q.rqs t).wk = (s.rqs t).wk →
        pc.releases ≠ some t → Pending (q.setPc x pc) t := by
      intro q pc hth hrq hpc
      refine ⟨hrq.trans hwk, fun y => ?_⟩
      rw [State.setPc_threads]
      split
      · exact hpc
      · rw [hth]
        exact hrel y
    have hxrel := hrel x
    cases hx with
    | back l call pc => exact .inl ⟨hwk, hrel⟩
    | mark u by_ pc =>
      by_cases hut : u = t
      · subst hut
        exact .inr ⟨x, by_, rfl, pc⟩
      · exact .inl (hmove (q := s) rfl rfl fun he => hut (Option.some.inj he))
    | released u by_ pc idle =>
      rw [pc] at hxrel
      refine .inl (hmove (q := s.setRq u _) rfl ?_ hxrel)
      rw [State.setRq_rqs, if_neg fun he => hxrel (congrArg some he.symm)]
    | finish u by_ pc =>
      rw [pc] at hxrel
      refine .inl (hmove rfl ?_ nofun)
      have hne : t ≠ u := fun he => hxrel (congrArg some he.symm)
      exact congrArg Rq.wk ((State.setWk_rqs ..).trans (if_neg hne))
    | remFlushed force snap pc flushed => exact .inl (hmove (q := s) rfl rfl (by cases force <;> nofun))
    | advance by_ pc => exact .inl (hmove (q := s) rfl rfl (by cases by_ <;> nofun))
    | _ => exact .inl (hmove (q := s) rfl rfl nofun)
  | _ => exact .inl ⟨hwk, hrel⟩

/-- Every request that has its pages has an index for each of its segments, in
no other slot, and each index has a page of its own. -/
def Kept (s : State C) : Prop := ∀ t, Keeping s t →
  (s.pages.reqs t).pi.length = (s.rqs t).req.ubbdReqSegments (s.rqs t).op ∧ (s.pages.reqs t).pi.Nodup ∧
    ∀ x ∈ (s.pages.reqs t).pi, (∃ page, s.pages.pool.array x = some page ∧
      ∀ y, s.pages.pool.array y = some page → y = x) ∧ ∀ u, x ∈ (s.pages.reqs u).pi → u = t

theorem Holding.kept (h : Holding s) : Kept s := by
  intro t ht
  refine ⟨?_, h.owned.nodup t, fun x hx => ⟨?_, fun u hu => h.owned.alone hu hx⟩⟩
  · rw [(h.has ht).length]
    refine (h.known t).cnt ?_
    have hwk := ht.1
    generalize (s.rqs t).wk = w at hwk
    cases w <;> first | rfl | cases hwk
  · obtain ⟨page, hpage⟩ := h.owned.page hx
    exact ⟨page, hpage, fun y hy => h.owned.inj hy hpage⟩

/-- In every run in which completion entries are answers, no more than
`2 ^ 64 - 1` commands are published and REMOVING is not overwritten. -/
theorem kept_states (C : Conf) {n : Nat} (hn : n ≤ 2 ^ 31) (r : Nat) (as : List (Label C))
    (h : (lts C).Steps (fun s a s' => Answers s a ∧ Unwrapped s a ∧ Lasts s s') (initState C n r) as) :
    (lts C).States Kept (initState C n r) as :=
  (Lts.states_of_steps (fun _ _ _ hi hs ⟨ha, hu, hl⟩ => hi.step hs ha hu hl) (regular_init hn r) h).mono
    fun _ hi => hi.holding.kept

/-- Steps of requests leave REMOVING as it is. -/
theorem lasts_of_rq {as : List (Label C)} (h : ∀ x l, .th x l ∉ as) (s : State C) :
    (lts C).Steps (fun s _ s' => Lasts s s') s as := by
  have hrq : (lts C).Steps (fun _ a _ => ∀ x l, a ≠ .th x l) s as :=
    Lts.steps_of_forall (fun a ha _ _ x l he => by rw [he] at ha; exact h x l ha) s
  refine Lts.steps_of_steps (I := fun _ => True) (fun s a s' _ hs ha => ⟨trivial, ?_⟩) trivial hrq
  cases step_cases hs with
  | rq hw => exact fun hst => hw.control.1.trans hst
  | th hx => exact absurd rfl (ha _ _)
  | _ => exact id

/-- A write keeps its page while another one finds the ring full. -/
theorem kept_states_writeFull :
    (lts (smallConf 2)).States Kept (initState (smallConf 2) 8 6) writeFull ∧
      ∃ s, (lts (smallConf 2)).exec (initState (smallConf 2) 8 6) writeFull = some s ∧
        (s.rqs ⟨0, by decide⟩).wk.has = true ∧ (s.pages.reqs ⟨0, by decide⟩).pi = [0] := by
  refine ⟨kept_states _ (by decide) _ _ ?_, _, rfl, rfl, rfl⟩
  have hanswers : (lts (smallConf 2)).Steps (fun s a _ => Answers s a) (initState (smallConf 2) 8 6) writeFull :=
    Lts.steps_of_forall (fun a ha _ _ => by
      cases a with
      | th x b => exact absurd ha (th_notMem_writeFull x b)
      | _ => trivial) _
  exact hanswers.and ((unwrapped_of_length (by decide)).and (lasts_of_rq th_notMem_writeFull _))

end Ubbd.Queue

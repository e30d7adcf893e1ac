import UbbdKernel.Queue.Reclaim
import UbbdKernel.Service.Lossless

/-!
# The ring at rest

When backend and callers have nothing left to do, the whole command ring is free
again, in whatever order the requests were completed and however the calls of
`advance_cmd_ring` fell (`ring_free_at_rest`): the first command in it would be
that of a request still published, and all of them are ended.
-/

namespace Ubbd.Service

open Ubbd.Ring (Ent markAt Rep)

variable {C : Conf} {s s' : State C}

/-- The entries of the ring, in order up to a forced removal. -/
def Reclaimed (s : State C) : Prop :=
  ¬ Queue.Spliced s.queue → ∃ hs es, Queue.Entries s.queue s.pos hs es ∧
    (s.seen ++ es.filterMap Ent.cmd = s.sent.map fun m => m.2.cmd) ∧ Queue.Tidy s.queue hs es

theorem reclaimed_init (n r : Nat) : Reclaimed (initState C n r) := fun _ =>
  ⟨[], [], Queue.entries_init n r, rfl, Queue.tidy_init n r⟩

theorem Reclaimed.frame (h : Reclaimed s) (hq : s'.queue = s.queue) (hpos : s'.pos = s.pos) (hseen : s'.seen = s.seen)
    (hsent : s'.sent = s.sent) : Reclaimed s' := by
  unfold Reclaimed
  rw [hq, hpos, hseen, hsent]
  exact h

theorem Reclaimed.queue (hx : Exchange s) (h : Reclaimed s) {l : Queue.Label C.queue} {q : Queue.State C.queue}
    (ok : allowed s l = true) (hq : Queue.step s.queue l = some q) : Reclaimed (record s l q) := by
  intro hns
  have hns' : ¬ Queue.Spliced s.queue := fun hs => hns (hs.step hq)
  obtain ⟨hs, es, hent, hcmds, htidy⟩ := h hns'
  obtain ⟨hs', es', hent', hes, hm⟩ := Queue.entries_step (pageSize_lt C.data) hx.regular hent hq
    (fun p he => by rw [he] at ok; cases ok)
    fun x t by_ _ pc hns e hmem => hx.mark hent hcmds pc hns hmem
  refine ⟨hs', es', hent', ?_, htidy.step hx.regular.traced.own (hent.undone hns') hq (hm hns')⟩
  show s.seen ++ _ = List.map _ (s.sent ++ sentBy s l q)
  rw [hes, List.map_append, ← hcmds, sentBy_cmds, List.append_assoc]

/-- A caller looks for the request of its entry. -/
theorem Reclaimed.fetch (hx : Exchange s) (h : Reclaimed s) {x : Nat} {r : Taken} {q q' : Queue.State C.queue}
    (hr : s.taken x = some r) (hq : Queue.step s.queue (.th x (.take (C.compr.privData.get s.compr r.ce))) = some q)
    (hq' : Queue.step q (.th x .fetch) = some q') :
    Reclaimed { s.setTaken x (entryKept s x q') with queue := q' } := by
  intro hns
  have hns₁ : ¬ Queue.Spliced q := fun hs => hns (hs.step hq')
  have hns₀ : ¬ Queue.Spliced s.queue := fun hs => hns₁ (hs.step hq)
  have hreg := hx.regular_take hr hq hq'
  obtain ⟨hs, es, hent, hcmds, htidy⟩ := h hns₀
  obtain ⟨hs₁, es₁, h₁, hes₁, hm₁⟩ := Queue.entries_step (pageSize_lt C.data) hx.regular hent hq nofun nofun
  obtain ⟨hs₂, es₂, h₂, hes₂, hm₂⟩ := Queue.entries_step (pageSize_lt C.data) hreg h₁ hq' nofun nofun
  have htidy₁ := htidy.step hx.regular.traced.own (hent.undone hns₀) hq (hm₁ hns₀)
  refine ⟨hs₂, es₂, h₂, ?_, htidy₁.step hreg.traced.own (h₁.undone hns₁) hq' (hm₂ hns₁)⟩
  show s.seen ++ _ = List.map _ s.sent
  rw [hes₂, hes₁, ← hcmds]
  simp only [Queue.published, List.append_nil]

/-- The backend passes a command. -/
theorem Reclaimed.readCmd (h : Reclaimed s) {c : Cmd} (more : s.pos ≠ s.queue.ring.cmdHead)
    (hc : Ring.cmdAt C.header s.queue.ring.cmdr s.pos = some c) :
    Reclaimed { s with
      pos := (s.pos + Ring.entLen C.header s.queue.ring.cmdr s.pos) % C.header.cmdrSize
      seen := s.seen ++ [c]
      todo := s.todo ++ [c] } := by
  intro hns
  obtain ⟨hs, es, hent, hcmds, htidy⟩ := h hns
  obtain ⟨e, es, rfl, hec, hent'⟩ := hent.passCmd more hc
  have hlist : (hs ++ [e]) ++ es = hs ++ e :: es := by rw [List.append_assoc, List.singleton_append]
  refine ⟨hs ++ [e], es, hent', ?_, fun x hx hxc => ?_, ?_, ?_, ?_⟩
  · rw [List.filterMap_cons_some hec] at hcmds
    show (s.seen ++ [c]) ++ _ = _
    rw [List.append_assoc, List.singleton_append]
    exact hcmds
  · rcases List.mem_append.mp hx with hx | hx
    · exact htidy.pads x hx hxc
    · rw [List.mem_singleton.mp hx, hec] at hxc
      cases hxc
  · rw [hlist]
    exact htidy.last
  · rw [hlist]
    exact htidy.owner
  · rw [hlist]
    exact htidy.front

/-- The backend passes a padding, and marks it. -/
theorem Reclaimed.readPad (h : Reclaimed s) (more : s.pos ≠ s.queue.ring.cmdHead)
    (hc : Ring.cmdAt C.header s.queue.ring.cmdr s.pos = none) :
    Reclaimed { s with
      pos := (s.pos + Ring.entLen C.header s.queue.ring.cmdr s.pos) % C.header.cmdrSize
      queue := { s.queue with ring := Ring.setDone C.header s.queue.ring s.pos } } := by
  intro hns
  obtain ⟨hs, es, hent, hcmds, htidy⟩ := h hns
  obtain ⟨e, es, rfl, hpos, hec, hent'⟩ := hent.passPad more hc
  have hlist : ((hs ++ [e]).map (markAt s.pos)) ++ es.map (markAt s.pos) = (hs ++ e :: es).map (markAt s.pos) := by
    rw [← List.map_append, List.append_assoc, List.singleton_append]
  -- a command is not at the place of the padding
  have hkeep : ∀ x ∈ hs ++ e :: es, x.cmd.isSome = true → markAt s.pos x = x := by
    intro x hx hxc
    refine if_neg fun he => ?_
    have := hent.cmdAt hx
    rw [he, hc] at this
    rw [← this] at hxc
    cases hxc
  refine ⟨_, _, hent', ?_, fun x hx hxc => ?_, ?_, fun x hx hxc hxd => ?_, ?_⟩
  · rw [List.filterMap_cons_none hec] at hcmds
    show s.seen ++ _ = _
    rw [Queue.filterMap_markAt]
    exact hcmds
  · obtain ⟨y, hy, rfl⟩ := List.mem_map.mp hx
    rw [Ring.markAt_cmd] at hxc
    rcases List.mem_append.mp hy with hy | hy
    · exact Queue.done_markAt (htidy.pads y hy hxc)
    · rw [List.mem_singleton.mp hy, markAt, if_pos hpos]
  · rw [hlist]
    intro x hx
    obtain ⟨y, hy, rfl⟩ := Queue.getLast?_map_markAt hx
    rw [Ring.markAt_cmd]
    exact htidy.last y hy
  · rw [hlist] at hx
    obtain ⟨y, hy, rfl⟩ := List.mem_map.mp hx
    rw [Ring.markAt_cmd] at hxc
    rw [hkeep y hy hxc] at hxd ⊢
    exact htidy.owner y hy hxc hxd
  · rw [hlist]
    refine htidy.front.imp id fun hw x hx => ?_
    rw [List.find?_map] at hx
    obtain ⟨y, hy, rfl⟩ := Option.map_eq_some_iff.mp hx
    have hfind : (hs ++ e :: es).find? (fun e => e.cmd.isSome) = some y := by
      rw [← hy]
      exact congrArg (List.find? · _) (funext fun z => by rw [Function.comp_apply, Ring.markAt_cmd])
    rw [hkeep y (List.mem_of_find?_eq_some hfind) (by simpa using List.find?_some hfind)]
    exact hw y hfind

theorem reclaimed_step {a : Label C} (hx : Exchange s) (h : Reclaimed s) (hs : step s a = some s') : Reclaimed s' := by
  cases step_cases hs with
  | queue l q ok hq => exact h.queue hx ok hq
  | fetch x r q q' hr hq hq' => exact h.fetch hx hr hq hq'
  | readCmd c more hc => exact h.readCmd more hc
  | readPad more hc => exact h.readPad more hc
  | _ => exact h.frame rfl rfl rfl rfl

/-! ## At rest -/

/-- A request that is not ended with its answer is not published at rest. -/
theorem Accounted.none_published (hx : Exchange s) (h : Accounted s) (hr : AtRest s) (t : C.Tag) :
    (s.queue.rqs t).wk ≠ .published := by
  intro hwk
  have hpub := hx.regular.traced.recorded.published t (by rw [hwk]; rfl)
  rw [hx.pub] at hpub
  obtain ⟨m, hm, heq⟩ := List.mem_map.mp hpub
  obtain ⟨d, -, he⟩ := h.atRest hr m hm
  refine hx.regular.traced.recorded.not_logged (t := t) (by rw [hwk]; decide) ?_
  obtain ⟨-, htag, hstart⟩ := Queue.Pub.mk.inj heq
  rw [show (t, (s.queue.rqs t).start) = m.1 from Prod.ext htag.symm hstart.symm]
  exact hx.ended _ he

/-- A command of half the size of the ring has room in it, if it is empty. -/
theorem submit_of_empty {H : Header} {r : CmdRing} (h : Rep H r []) {c : Cmd} (hc : c.Ok)
    (hsize : 2 * H.ubbdGetCmdSize c.iov.length ≤ H.cmdrSize - H.cmdrReserved) : (Ring.submit H r c).isSome = true := by
  have hused := h.spaceUsed
  have havail := h.spaceAvailable
  have hneed := h.spaceNeeded (H.cmdr_add_cmdSize_lt hc.segs)
  rw [hused, List.map_nil, Circular.total_nil, Nat.add_zero] at havail
  have henough : Ring.submitRingSpaceEnough H r (H.ubbdGetCmdSize c.iov.length) = true := by
    rw [Ring.submitRingSpaceEnough, if_neg]
    rw [havail, hneed]
    split <;> omega
  rw [Ring.submit, if_pos henough, Option.isSome_some]

theorem Reclaimed.empty (hx : Exchange s) (h : Reclaimed s) (ha : Accounted s) (hns : ¬ Queue.Spliced s.queue)
    (hr : AtRest s) (hno : ∀ x, (s.queue.threads x).advances = false) : Rep C.header s.queue.ring [] := by
  obtain ⟨hs, es, hent, -, htidy⟩ := h hns
  have hrep := hent.rep hns
  have hwaits : Queue.Waits (hs ++ es) := htidy.front.resolve_left fun ⟨x, hx⟩ => by
    rw [hno x] at hx
    cases hx
  rcases List.eq_nil_or_concat (hs ++ es) with hnil | ⟨l, e, hl⟩
  · rw [hnil] at hrep
    exact hrep
  · -- the last entry is a command, so there is a first one
    have hlast := htidy.last e (by rw [hl, List.concat_eq_append, List.getLast?_append, List.getLast?_singleton]; rfl)
    have hmem : e ∈ hs ++ es := by
      rw [hl, List.concat_eq_append]
      exact List.mem_append_right _ (List.mem_singleton.mpr rfl)
    have hsome := (List.find?_isSome (p := fun e : Ent => e.cmd.isSome)).mpr ⟨e, hmem, hlast⟩
    obtain ⟨x, hfind⟩ := Option.isSome_iff_exists.mp hsome
    obtain ⟨t, ⟨hwk, -⟩, -⟩ := htidy.owner x (List.mem_of_find?_eq_some hfind) (by simpa using List.find?_some hfind)
      (hwaits x hfind)
    exact absurd hwk (ha.none_published hx hr t)

theorem reclaimed_states (C : Conf) {n : Nat} (hn : n ≤ 2 ^ 31) (r : Nat) (as : List (Label C))
    (h : (lts C).Steps Proper (initState C n r) as) :
    (lts C).States (fun s => Exchange s ∧ Reclaimed s) (initState C n r) as :=
  Lts.states_of_steps (fun _ _ _ hi hs hp => ⟨exchange_step hi.1 hs hp, reclaimed_step hi.1 hi.2 hs⟩)
    ⟨exchange_init hn r, reclaimed_init n r⟩ h

/-- At rest, with no thread on its way to `advance_cmd_ring`, before a forced
removal takes requests off the list. The backend has marked each padding it
passed (`stepRead`): an unmarked one would hold the tail for ever. -/
theorem ring_free_at_rest (C : Conf) {n : Nat} (hn : n ≤ 2 ^ 31) (r : Nat) (as : List (Label C))
    (h : (lts C).Steps Proper (initState C n r) as) :
    (lts C).States (fun s => ¬ Queue.Spliced s.queue → AtRest s → (∀ x, (s.queue.threads x).advances = false) →
      s.queue.ring.cmdTail = s.queue.ring.cmdHead ∧
        ∀ c : Cmd, c.Ok → 2 * C.header.ubbdGetCmdSize c.iov.length ≤ C.header.cmdrSize - C.header.cmdrReserved →
          (Ring.submit C.header s.queue.ring c).isSome = true) (initState C n r) as := by
  refine ((carried_states C hn r as h).and (reclaimed_states C hn r as h)).mono fun s hi hns hr hno => ?_
  obtain ⟨⟨hx, hc⟩, -, hreclaimed⟩ := hi
  have hempty := hreclaimed.empty hx (hc.accounted hx hns) hns hr hno
  exact ⟨hempty.chain, fun c hok hsize => submit_of_empty hempty hok hsize⟩

/-- After the READ the ring is free, with head and tail behind its entry. -/
theorem ring_free_at_rest_read :
    (lts smallConf).States (fun s => ¬ Queue.Spliced s.queue → AtRest s → (∀ x, (s.queue.threads x).advances = false) →
        s.queue.ring.cmdTail = s.queue.ring.cmdHead ∧
          ∀ c : Cmd, c.Ok → 2 * smallConf.header.ubbdGetCmdSize c.iov.length ≤
            smallConf.header.cmdrSize - smallConf.header.cmdrReserved →
              (Ring.submit smallConf.header s.queue.ring c).isSome = true)
        (initState smallConf 8 6) (sendRead ++ answerRead ++ completeRead) ∧
      ((lts smallConf).exec (initState smallConf 8 6) (sendRead ++ answerRead ++ completeRead)).map
        (fun s => (s.queue.ring.cmdTail, s.queue.ring.cmdHead)) = some (48, 48) := by
  refine ⟨ring_free_at_rest _ (by decide) _ _ (proper_of_calm (List.all_eq_true.mp rfl) (List.all_eq_true.mp rfl)
    (List.all_eq_true.mp rfl) (by decide) fun _ => rfl), by decide +kernel⟩

end Ubbd.Service

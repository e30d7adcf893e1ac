import Mathlib.Data.List.Nodup
import UbbdKernel.Queue.Fetch
import UbbdKernel.Ring.Fifo

/-!
# What `fetch_inflight_req` returns is published

The entries of the published requests are in the ring, and each of them has
its own (`Inv`). A request on `inflight_reqs` that is not published has the
`req_tid` 0, or that of the queue (`RqOk`), so `fetch_inflight_req` does not
return it for any other value. `sound_iff_safe`: in every run whose steps are
all `Safe` every state is `Sound`, and before `req_tid` wraps only in these.
-/

namespace Ubbd.Fetch

open Ubbd.Ring Circular
open Queue (inc64 inc64_lt)

variable {ι : Type} [DecidableEq ι] {H : Header} {s s' : State ι} {es : List Ent}

/-! ## The invariant -/

/-- The driver has the request, and its worker has finished with it. -/
structure Quiet (r : Rq) : Prop where
  inUse : r.inUse = true
  pending : r.pending = false
  pc : r.pc.quiet = true

/-- The entry of the request is in the ring and not DONE. -/
structure Pub (es : List Ent) (r : Rq) : Prop where
  quiet : Quiet r
  ent : ∃ e ∈ es, r.se = some e.pos ∧ e.cmd = some r.seCmd ∧ e.done = false

/-- A request in a queue with these entries, this `req_tid` and this holder of the
lock; `listed` says that it is on `inflight_reqs`. -/
structure RqOk (H : Header) (ring : CmdRing) (es : List Ent) (tid : Nat) (lock : Option (Holder ι)) (listed : Prop)
    (i : ι) (r : Rq) : Prop where
  used : r.pending = true ∨ r.pc.quiet = false → r.inUse = true
  pending : r.pending = true → r.pc.quiet = true ∧ r.reqTid = 0
  early : r.pc.early = true → r.reqTid = 0
  late : r.pc.late = true → r.reqTid = tid
  locked : r.pc.locked = true → lock = some (.worker i)
  room : r.pc = .padded ∨ r.pc = .assigned → Reserved H ring es r.seCmd
  /-- The entry is behind the others, in front of where the head will be. -/
  written : r.pc = .written → r.se = some ring.cmdHead ∧
    Rep H { ring with cmdHead := updateCmdrHead ring.cmdHead (r.size H) H.cmdrSize }
      (es ++ [cmdEnt H ring.cmdHead r.seCmd])
  listed : listed → r.pc.onList = true ∨ Pub es r

/-- A request that a thread may mark DONE. -/
def Live (l : List ι) (threads : Nat → Th ι) (i : ι) : Prop := i ∈ l ∨ ∃ x, threads x = .fetched i

structure Inv (H : Header) (s : State ι) (es : List Ent) : Prop where
  rep : Rep H s.ring es
  tid : s.reqTid < 2 ^ 64
  rqs : ∀ i, RqOk H s.ring es s.reqTid s.cmdrLock (i ∈ s.inflight) i (s.rqs i)
  nodup : s.inflight.Nodup
  held : ∀ x i, (s.threads x).req = some i → i ∉ s.inflight ∧ Quiet (s.rqs i)
  fetched : ∀ x i, s.threads x = .fetched i → Pub es (s.rqs i)
  once : ∀ x y i, (s.threads x).req = some i → (s.threads y).req = some i → x = y
  /-- No two of them have the same entry. -/
  distinct : ∀ i j, i ≠ j → Live s.inflight s.threads i → Live s.inflight s.threads j →
    (s.rqs i).pc.quiet = true → (s.rqs j).pc.quiet = true → (s.rqs i).se ≠ (s.rqs j).se
  advancing : ∀ x, s.threads x = .advancing → s.cmdrLock = some (.thread x)
  running : ∀ x, s.threads x ≠ .crashed

variable {ring ring' : CmdRing} {es' : List Ent} {tid tid' : Nat} {lock lock' : Option (Holder ι)} {L L' : Prop}
  {i j : ι} {r : Rq}

section

omit [DecidableEq ι]

theorem Pub.mono (h : Pub es r) (hes : es ⊆ es') : Pub es' r :=
  have ⟨e, he, hent⟩ := h.ent
  ⟨h.quiet, e, hes he, hent⟩

/-- Marking another entry DONE. -/
theorem Pub.setDone (h : Pub es r) {pos : Nat} (hne : r.se ≠ some pos) : Pub (es.map (markAt pos)) r := by
  obtain ⟨e, he, hse, hent⟩ := h.ent
  have hsame : markAt pos e = e := if_neg fun hpos => hne (by rw [hse, hpos])
  exact ⟨h.quiet, e, List.mem_map.mpr ⟨e, he, hsame⟩, hse, hent⟩

theorem RqOk.imp (h : RqOk H ring es tid lock L i r) (hL : L' → L) : RqOk H ring es tid lock L' i r :=
  ⟨h.used, h.pending, h.early, h.late, h.locked, h.room, h.written, fun hl => h.listed (hL hl)⟩

theorem Pc.locked_of_late {pc : Pc} (h : pc.late = true) : pc.locked = true := by
  cases pc <;> first | rfl | cases h

theorem Pc.not_quiet_of_late {pc : Pc} (h : pc.late = true) : pc.quiet = false := by
  cases pc <;> first | rfl | cases h

theorem Pc.not_quiet_of_early {pc : Pc} (h : pc.early = true) : pc.quiet = false := by
  cases pc <;> first | rfl | cases h

theorem Pc.not_quiet_of_onList {pc : Pc} (h : pc.onList = true) : pc.quiet = false := by
  cases pc <;> first | rfl | cases h

/-- What a request does not hold `cmdr_lock` for may change. -/
theorem RqOk.unlocked (h : RqOk H ring es tid lock L i r) (hu : r.pc.locked = false) (hL : L' → L)
    (hp : Pub es r → Pub es' r) : RqOk H ring' es' tid' lock' L' i r := by
  have hne : r.pc.locked ≠ true := by rw [hu]; decide
  refine ⟨h.used, h.pending, h.early, fun hl => absurd (Pc.locked_of_late hl) hne, fun hl => absurd hl hne,
    fun hpc => absurd ?_ hne, fun hpc => absurd ?_ hne, fun hl => (h.listed (hL hl)).imp_right hp⟩
  · rcases hpc with hpc | hpc <;> rw [hpc] <;> rfl
  · rw [hpc]
    rfl

theorem Inv.not_locked (h : Inv H s es) (hl : s.cmdrLock ≠ some (.worker j)) : (s.rqs j).pc.locked = false :=
  Bool.eq_false_iff.mpr fun hpc => hl ((h.rqs j).locked hpc)

/-- While the worker of `i` holds the lock, no other one does. -/
theorem Inv.others_unlocked (h : Inv H s es) (hi : (s.rqs i).pc.locked = true) (hj : j ≠ i) :
    (s.rqs j).pc.locked = false := by
  refine h.not_locked fun hl => hj ?_
  rw [(h.rqs i).locked hi] at hl
  cases hl
  rfl

theorem Inv.not_held (h : Inv H s es) (hi : ¬ Quiet (s.rqs i)) (x : Nat) : (s.threads x).req ≠ some i :=
  fun hx => hi (h.held x i hx).2

theorem Inv.pub (h : Inv H s es) (hl : Live s.inflight s.threads i) (hq : (s.rqs i).pc.quiet = true) :
    Pub es (s.rqs i) := by
  rcases hl with hl | ⟨x, hx⟩
  · rcases (h.rqs i).listed hl with hon | hp
    · rw [Pc.not_quiet_of_onList hon] at hq
      cases hq
    · exact hp
  · exact h.fetched x i hx

theorem RqOk.notMem (h : RqOk H ring es tid lock L i r) (hon : r.pc.onList = false) (hq : ¬ Quiet r) : ¬ L := by
  intro hl
  rcases h.listed hl with hpc | hp
  · rw [hon] at hpc
    cases hpc
  · exact hq hp.quiet

theorem not_quiet_of_pc (h : r.pc.quiet = false) : ¬ Quiet r := by
  intro hq
  have := hq.pc
  rw [h] at this
  cases this

theorem Inv.not_listed (h : Inv H s es) (hpc : (s.rqs i).pc.early = true) (hon : (s.rqs i).pc.onList = false) :
    i ∉ s.inflight :=
  (h.rqs i).notMem hon (not_quiet_of_pc (Pc.not_quiet_of_early hpc))

theorem Pc.quiet_iff {pc : Pc} : pc.quiet = true ↔ pc = .idle ∨ pc = .published := by
  cases pc <;> decide

theorem Pc.early_or_late {pc : Pc} (h : pc.onList = true) : pc.early = true ∨ pc.late = true := by
  cases pc <;> first | decide | cases h

/-- A request whose worker does not work on it. -/
theorem RqOk.of_quiet (hq : r.pc.quiet = true) (hpend : r.pending = true → r.inUse = true ∧ r.reqTid = 0)
    (hlock : r.pc = .published → lock = some (.worker i)) (hl : L → Pub es r) :
    RqOk H ring es tid lock L i r := by
  rcases Pc.quiet_iff.mp hq with hpc | hpc
  all_goals
    refine ⟨fun h => (hpend ?_).1, fun h => ⟨hq, (hpend h).2⟩, fun h => ?_, fun h => ?_, fun h => ?_, fun h => ?_,
      fun h => ?_, fun h => .inr (hl h)⟩
    · simpa [hq] using h
  all_goals rw [hpc] at h
  all_goals first | exact hlock hpc | simp [Pc.early, Pc.late, Pc.locked] at h

/-- A request whose worker does not hold the lock. -/
theorem RqOk.of_busy (hu : r.pc.locked = false) (hused : r.inUse = true)
    (hpend : ¬ r.pending = true) (htid : r.pc.early = true → r.reqTid = 0) (hl : L → r.pc.onList = true) :
    RqOk H ring es tid lock L i r := by
  have hne : r.pc.locked ≠ true := by rw [hu]; decide
  refine ⟨fun _ => hused, fun h => absurd h hpend, htid, fun h => absurd (Pc.locked_of_late h) hne,
    fun h => absurd h hne, fun h => absurd ?_ hne, fun h => absurd ?_ hne, fun h => .inl (hl h)⟩
  · rcases h with h | h <;> rw [h] <;> rfl
  · rw [h]
    rfl

theorem RqOk.busy (h : RqOk H ring es tid lock L i r) (hq : r.pc.quiet = false) :
    r.inUse = true ∧ ¬ r.pending = true := by
  refine ⟨h.used (.inr hq), fun hp => ?_⟩
  rw [(h.pending hp).1] at hq
  cases hq

/-- A request that the driver does not have. -/
theorem Inv.free (h : Inv H s es) (hfree : (s.rqs i).inUse = false) :
    (s.rqs i).pc.quiet = true ∧ ¬ Quiet (s.rqs i) ∧ i ∉ s.inflight := by
  have hi := h.rqs i
  have hold : ¬ Quiet (s.rqs i) := fun hq => by
    have := hq.inUse
    rw [hfree] at this
    cases this
  have hquiet : (s.rqs i).pc.quiet = true := by
    by_contra hne
    have := hi.used (.inr (Bool.eq_false_iff.mpr hne))
    rw [hfree] at this
    cases this
  refine ⟨hquiet, hold, fun hl => ?_⟩
  rcases hi.listed hl with hon | hp
  · rw [Pc.not_quiet_of_onList hon] at hquiet
    cases hquiet
  · exact hold hp.quiet

end

/-! ## Steps of a worker -/

/-- A step of request `i`, which may hold the lock. -/
theorem Inv.worker (h : Inv H s es) {l : List ι} (hrep : Rep H ring es') (ht : tid < 2 ^ 64)
    (hi : RqOk H ring es' tid lock (i ∈ l) i r)
    (ho : ∀ j, j ≠ i → RqOk H ring es' tid lock (j ∈ l) j (s.rqs j)) (hes : es ⊆ es') (hl : l.Nodup)
    (hsub : ∀ j, j ≠ i → j ∈ l → j ∈ s.inflight)
    (hheld : ∀ x, (s.threads x).req = some i → i ∉ l ∧ Quiet r)
    (hfetched : ∀ x, s.threads x = .fetched i → Pub es' r)
    (hdis : r.pc.quiet = true → Live l s.threads i → ∀ j, j ≠ i → Live s.inflight s.threads j →
      (s.rqs j).pc.quiet = true → (s.rqs j).se ≠ r.se)
    (hlock : ∀ x, s.cmdrLock = some (.thread x) → lock = some (.thread x)) :
    Inv H { s with
      ring := ring
      cmdrLock := lock
      reqTid := tid
      rqs := Function.update s.rqs i r
      inflight := l } es' := by
  have hlive : ∀ j, j ≠ i → Live l s.threads j → Live s.inflight s.threads j := fun j hj hlj =>
    hlj.imp_left (hsub j hj)
  have hrqs := (Function.forall_update_iff s.rqs fun j r => RqOk H ring es' tid lock (j ∈ l) j r).mpr ⟨hi, ho⟩
  have hheld' := (Function.forall_update_iff s.rqs fun j r => ∀ x, (s.threads x).req = some j → j ∉ l ∧ Quiet r).mpr
    ⟨hheld, fun j hji x hx =>
      have ⟨hn, hq⟩ := h.held x j hx
      ⟨fun hmem => hn (hsub j hji hmem), hq⟩⟩
  have hfetched' := (Function.forall_update_iff s.rqs fun j r => ∀ x, s.threads x = .fetched j → Pub es' r).mpr
    ⟨hfetched, fun j _ x hx => (h.fetched x j hx).mono hes⟩
  refine ⟨hrep, ht, hrqs, hl, fun x j => hheld' j x, fun x j => hfetched' j x, h.once,
    fun j k hjk hj hk hqj hqk => ?_, fun x hx => hlock x (h.advancing x hx), h.running⟩
  by_cases hji : j = i
  · subst hji
    have hkj := Ne.symm hjk
    simp only [Function.update_self, Function.update_of_ne hkj] at hqj hqk ⊢
    exact (hdis hqj hj k hkj (hlive k hkj hk) hqk).symm
  · by_cases hki : k = i
    · subst hki
      simp only [Function.update_self, Function.update_of_ne hji] at hqj hqk ⊢
      exact hdis hqk hk j hji (hlive j hji hj) hqj
    · simp only [Function.update_of_ne hji, Function.update_of_ne hki] at hqj hqk ⊢
      exact h.distinct j k hjk (hlive j hji hj) (hlive k hki hk) hqj hqk

/-- A step of request `i` that leaves ring and lock alone, while its worker has
not put it on the list and published it. -/
theorem Inv.calm (h : Inv H s es) {l : List ι}
    (hi : RqOk H s.ring es s.reqTid s.cmdrLock (i ∈ l) i r) (hl : l.Nodup)
    (hsub : ∀ j, j ≠ i → j ∈ l → j ∈ s.inflight) (hold : ¬ Quiet (s.rqs i))
    (hdead : r.pc.quiet = true → i ∉ l) : Inv H { s with rqs := Function.update s.rqs i r, inflight := l } es := by
  have hnone := h.not_held hold
  refine h.worker h.rep h.tid hi (fun j hj => (h.rqs j).imp (hsub j hj)) (List.Subset.refl es) hl hsub
    (fun x hx => absurd hx (hnone x)) (fun x hx => absurd (congrArg Th.req hx) (hnone x)) (fun hq hlive => ?_)
    fun _ hx => hx
  rcases hlive with hmem | ⟨x, hx⟩
  · exact absurd hmem (hdead hq)
  · exact absurd (congrArg Th.req hx) (hnone x)

theorem Inv.queueRq (h : Inv H s es) (hfree : (s.rqs i).inUse = false) :
    Inv H (s.setRq i { s.rqs i with inUse := true, pending := true, reqTid := 0, se := none }) es := by
  obtain ⟨hquiet, hold, hmem⟩ := h.free hfree
  exact h.calm (.of_quiet hquiet (fun _ => ⟨rfl, rfl⟩) (fun hpc => (h.rqs i).locked (by rw [hpc]; rfl))
    fun hl => absurd hl hmem) h.nodup (fun _ _ hl => hl) hold fun _ => hmem

theorem Inv.start (h : Inv H s es) (hpend : (s.rqs i).pending = true) (hidle : (s.rqs i).pc = .idle) {pc : Pc}
    (hpc : pc = .started ∨ pc = .failed) : Inv H (s.setRq i { s.rqs i with pending := false, pc := pc }) es := by
  have hi := h.rqs i
  have hold : ¬ Quiet (s.rqs i) := fun hq => by
    rw [hq.pending] at hpend
    cases hpend
  have hmem := hi.notMem (by rw [hidle]; rfl) hold
  have hused := hi.used (.inl hpend)
  have htid := (hi.pending hpend).2
  refine h.calm ?_ h.nodup (fun _ _ hl => hl) hold fun _ => hmem
  rcases hpc with rfl | rfl
  · exact .of_busy rfl hused nofun (fun _ => htid) fun hl => absurd hl hmem
  · exact .of_busy rfl hused nofun (fun _ => htid) fun hl => absurd hl hmem

/-- The worker of `i` moves on outside of the section, before its command has a `req_tid`. -/
theorem Inv.move (h : Inv H s es) {l : List ι} (hpc : (s.rqs i).pc.early = true)
    (hr : r.pc.quiet = false ∧ r.pc.locked = false)
    (hsame : r.inUse = (s.rqs i).inUse ∧ r.pending = (s.rqs i).pending ∧ r.reqTid = (s.rqs i).reqTid)
    (hon : i ∈ l → r.pc.onList = true) (hl : l.Nodup) (hsub : ∀ j, j ≠ i → j ∈ l → j ∈ s.inflight) :
    Inv H { s with rqs := Function.update s.rqs i r, inflight := l } es := by
  have hi := h.rqs i
  have hold := Pc.not_quiet_of_early hpc
  obtain ⟨hused, hpend⟩ := hi.busy hold
  rw [← hsame.1] at hused
  rw [← hsame.2.1] at hpend
  refine h.calm (.of_busy hr.2 hused hpend (fun _ => hsame.2.2.trans (hi.early hpc)) hon) hl hsub
    (not_quiet_of_pc hold) fun hq => ?_
  rw [hr.1] at hq
  cases hq

theorem Inv.prepare (h : Inv H s es) (hpc : (s.rqs i).pc = .started) (c : {c : Cmd // c.Ok}) :
    Inv H (s.setRq i { s.rqs i with cmd := c, pc := .prepared }) es := by
  have hmem := h.not_listed (by rw [hpc]; rfl) (by rw [hpc]; rfl)
  exact h.move (by rw [hpc]; rfl) ⟨rfl, rfl⟩ ⟨rfl, rfl, rfl⟩ (fun hl => absurd hl hmem) h.nodup fun _ _ hl => hl

theorem Inv.fails (h : Inv H s es) {pc : Pc}
    (hpc : (s.rqs i).pc = .started ∧ pc = .failed ∨ (s.rqs i).pc = .listed ∧ pc = .refused) :
    Inv H (s.setPc i pc) es := by
  rcases hpc with ⟨hpc, rfl⟩ | ⟨hpc, rfl⟩
  · have hmem := h.not_listed (by rw [hpc]; rfl) (by rw [hpc]; rfl)
    exact h.move (by rw [hpc]; rfl) ⟨rfl, rfl⟩ ⟨rfl, rfl, rfl⟩ (fun hl => absurd hl hmem) h.nodup fun _ _ hl => hl
  · exact h.move (by rw [hpc]; rfl) ⟨rfl, rfl⟩ ⟨rfl, rfl, rfl⟩ (fun _ => rfl) h.nodup fun _ _ hl => hl

theorem Inv.insert (h : Inv H s es) (hpc : (s.rqs i).pc = .prepared) :
    Inv H { s.setPc i .listed with inflight := s.inflight ++ [i] } es := by
  have hmem := h.not_listed (by rw [hpc]; rfl) (by rw [hpc]; rfl)
  refine h.move (by rw [hpc]; rfl) ⟨rfl, rfl⟩ ⟨rfl, rfl, rfl⟩ (fun _ => rfl) ?_ fun j hj hl => ?_
  · exact List.nodup_append.mpr ⟨h.nodup, List.nodup_singleton i, fun a ha b hb hab =>
      hmem (by rw [← List.mem_singleton.mp hb, ← hab]; exact ha)⟩
  · exact (List.mem_append.mp hl).resolve_right fun hji => hj (List.mem_singleton.mp hji)

theorem Inv.remove (h : Inv H s es) (hpc : (s.rqs i).pc = .refused) :
    Inv H { s.setPc i .failed with inflight := s.inflight.erase i } es := by
  have hmem : i ∉ s.inflight.erase i := h.nodup.not_mem_erase
  exact h.move (by rw [hpc]; rfl) ⟨rfl, rfl⟩ ⟨rfl, rfl, rfl⟩ (fun hl => absurd hl hmem) (h.nodup.erase i)
    fun _ _ hl => List.mem_of_mem_erase hl

theorem Inv.endRequest (h : Inv H s es) (hpc : (s.rqs i).pc = .failed) :
    Inv H (s.setRq i { s.rqs i with inUse := false, pc := .idle }) es := by
  have hi := h.rqs i
  have hold : ¬ Quiet (s.rqs i) := not_quiet_of_pc (by rw [hpc]; rfl)
  have hmem := hi.notMem (by rw [hpc]; rfl) hold
  obtain ⟨-, hpend⟩ := hi.busy (by rw [hpc]; rfl)
  exact h.calm (.of_quiet rfl (fun hp => absurd hp hpend) nofun fun hl => absurd hl hmem) h.nodup (fun _ _ hl => hl)
    hold fun _ => hmem

/-- A step of the worker that holds the lock, or takes it, and has not yet published its command. -/
theorem Inv.section_ (h : Inv H s es) (hrep : Rep H ring es') (ht : tid < 2 ^ 64)
    (hi : RqOk H ring es' tid lock (i ∈ s.inflight) i r) (hes : es ⊆ es')
    (hfree : s.cmdrLock = none ∨ (s.rqs i).pc.locked = true) (hold : (s.rqs i).pc.quiet = false)
    (hdis : r.pc.quiet = true → ∀ j, j ≠ i → Live s.inflight s.threads j → (s.rqs j).pc.quiet = true →
      (s.rqs j).se ≠ r.se) :
    Inv H { s with
      ring := ring
      cmdrLock := lock
      reqTid := tid
      rqs := Function.update s.rqs i r } es' := by
  have hnone := h.not_held (not_quiet_of_pc hold)
  have hlocked : ∀ j, j ≠ i → (s.rqs j).pc.locked = false := fun j hj => by
    rcases hfree with hfree | hfree
    · exact h.not_locked (by rw [hfree]; exact nofun)
    · exact h.others_unlocked hfree hj
  refine h.worker hrep ht hi (fun j hj => (h.rqs j).unlocked (hlocked j hj) id fun hp => hp.mono hes) hes h.nodup
    (fun _ _ hl => hl) (fun x hx => absurd hx (hnone x)) (fun x hx => absurd (congrArg Th.req hx) (hnone x))
    (fun hq _ => hdis hq) fun x hx => ?_
  rcases hfree with hfree | hfree
  · rw [hfree] at hx
    cases hx
  · rw [(h.rqs i).locked hfree] at hx
    cases hx

theorem Inv.reserve (h : Inv H s es) (hpc : (s.rqs i).pc = .listed) (hfree : s.cmdrLock = none)
    (hroom : submitRingSpaceEnough H s.ring ((s.rqs i).size H) = true) :
    ∃ es', Inv H { s.setPc i .padded with
      ring := insertPadding H s.ring ((s.rqs i).size H)
      cmdrLock := some (.worker i) } es' := by
  have hi := h.rqs i
  have hold : (s.rqs i).pc.quiet = false := by rw [hpc]; rfl
  obtain ⟨hused, hpend⟩ := hi.busy hold
  obtain ⟨ps, -, hrep, -, hfit, htotal⟩ := h.rep.insertPadding (H.cmdr_add_cmdSize_lt (s.rqs i).cmd.2.segs) hroom
  exact ⟨es ++ ps, h.section_ hrep h.tid ⟨fun _ => hused, fun hp => absurd hp hpend,
    fun _ => hi.early (by rw [hpc]; rfl), nofun, fun _ => rfl, fun _ => ⟨hfit, htotal⟩, nofun, fun _ => .inl rfl⟩
    (List.subset_append_left _ _) (.inl hfree) hold nofun⟩

theorem Inv.assign (h : Inv H s es) (hpc : (s.rqs i).pc = .padded) :
    Inv H { s.setRq i { s.rqs i with reqTid := inc64 s.reqTid, pc := .assigned } with reqTid := inc64 s.reqTid }
      es := by
  have hi := h.rqs i
  have hold : (s.rqs i).pc.quiet = false := by rw [hpc]; rfl
  have hlocked : (s.rqs i).pc.locked = true := by rw [hpc]; rfl
  obtain ⟨hused, hpend⟩ := hi.busy hold
  obtain ⟨hfit, htotal⟩ := hi.room (.inl hpc)
  exact h.section_ h.rep (inc64_lt h.tid) ⟨fun _ => hused, fun hp => absurd hp hpend, nofun, fun _ => rfl,
    fun _ => hi.locked hlocked, fun _ => ⟨hfit, htotal⟩, nofun, fun _ => .inl rfl⟩ (List.Subset.refl es) (.inr hlocked)
    hold nofun

theorem Inv.init (h : Inv H s es) (hpc : (s.rqs i).pc = .assigned) :
    Inv H { s.setRq i { s.rqs i with se := some s.ring.cmdHead, pc := .written } with
      ring := { s.ring with
        cmdr := queueReqDataInit H (queueReqSeInit H s.ring.cmdr s.ring.cmdHead (s.rqs i).seCmd) s.ring.cmdHead
          (s.rqs i).seCmd } } es := by
  have hi := h.rqs i
  have hold : (s.rqs i).pc.quiet = false := by rw [hpc]; rfl
  have hlocked : (s.rqs i).pc.locked = true := by rw [hpc]; rfl
  obtain ⟨hused, hpend⟩ := hi.busy hold
  have hroom := hi.room (.inr hpc)
  have hok : (s.rqs i).seCmd.Ok := Rq.seCmd_ok (by rw [hi.late (by rw [hpc]; rfl)]; exact h.tid)
  obtain ⟨hrep, hsame⟩ := h.rep.publish hok hroom
  exact h.section_ (h.rep.congr hsame) h.tid ⟨fun _ => hused, fun hp => absurd hp hpend, nofun,
    fun _ => hi.late (by rw [hpc]; rfl), fun _ => hi.locked hlocked, nofun, fun _ => ⟨rfl, hrep⟩, fun _ => .inl rfl⟩
    (List.Subset.refl es) (.inr hlocked) hold nofun

theorem Inv.publish (h : Inv H s es) (hpc : (s.rqs i).pc = .written) :
    ∃ es', Inv H { s.setPc i .published with
      ring := { s.ring with cmdHead := updateCmdrHead s.ring.cmdHead ((s.rqs i).size H) H.cmdrSize } } es' := by
  have hi := h.rqs i
  have hold : (s.rqs i).pc.quiet = false := by rw [hpc]; rfl
  have hlocked : (s.rqs i).pc.locked = true := by rw [hpc]; rfl
  obtain ⟨hused, hpend⟩ := hi.busy hold
  obtain ⟨hse, hrep⟩ := hi.written hpc
  refine ⟨_, h.section_ hrep h.tid (.of_quiet rfl (fun hp => absurd hp hpend) (fun _ => hi.locked hlocked) fun _ =>
    ⟨⟨hused, Bool.eq_false_iff.mpr hpend, rfl⟩, _, List.mem_append_right _ (List.mem_singleton_self _), hse, rfl,
      rfl⟩) (List.subset_append_left _ _) (.inr hlocked) hold fun _ j _ hlive hq hsame => ?_⟩
  -- the entries that were there lie elsewhere
  obtain ⟨e, he, hpos, -, -⟩ := (h.pub hlive hq).ent
  rw [hpos, hse] at hsame
  exact hrep.pos_ne he (List.mem_singleton_self _) (Option.some.inj hsame).symm

theorem Inv.unlock (h : Inv H s es) (hpc : (s.rqs i).pc = .published) :
    Inv H { s.setPc i .idle with cmdrLock := none } es := by
  have hi := h.rqs i
  have hlocked : (s.rqs i).pc.locked = true := by rw [hpc]; rfl
  have hquiet : (s.rqs i).pc.quiet = true := by rw [hpc]; rfl
  have hpub : Pub es (s.rqs i) → Pub es { s.rqs i with pc := .idle } := fun hp =>
    ⟨⟨hp.quiet.inUse, hp.quiet.pending, rfl⟩, hp.ent⟩
  refine h.worker h.rep h.tid (.of_quiet rfl (fun hp => ⟨hi.used (.inl hp), (hi.pending hp).2⟩) nofun fun hl => ?_)
    (fun j hj => (h.rqs j).unlocked (h.others_unlocked hlocked hj) id id) (List.Subset.refl es) h.nodup
    (fun _ _ hl => hl) (fun x hx => ?_) (fun x hx => hpub (h.fetched x i hx)) (fun _ hlive j hj hlj hqj => ?_)
    fun x hx => ?_
  · exact hpub (h.pub (.inl hl) hquiet)
  · obtain ⟨hmem, hq⟩ := h.held x i hx
    exact ⟨hmem, hq.inUse, hq.pending, rfl⟩
  · exact h.distinct j i hj hlj hlive hqj hquiet
  · rw [hi.locked hlocked] at hx
    cases hx

/-! ## Steps of a thread -/

omit [DecidableEq ι] in
theorem fetched_setTh {x y : Nat} {th : Th ι} (hth : ∀ j, th ≠ .fetched j)
    (hy : (s.setTh x th).threads y = .fetched j) : y ≠ x ∧ s.threads y = .fetched j :=
  (Function.forall_update_iff s.threads fun y t => t = .fetched j → y ≠ x ∧ s.threads y = .fetched j).mpr
    ⟨fun hx => absurd hx (hth j), fun _ hyx hy => ⟨hyx, hy⟩⟩ y hy

omit [DecidableEq ι] in
/-- A thread moves on to where it has no request to fetch, or no more. -/
theorem Inv.thread (h : Inv H s es) {x : Nat} {th : Th ι}
    (hrqs : ∀ j, RqOk H s.ring es s.reqTid lock (j ∈ s.inflight) j (s.rqs j))
    (hreq : ∀ j, th.req = some j → (s.threads x).req = some j) (hfetched : ∀ j, th ≠ .fetched j)
    (hadv : th = .advancing → lock = some (.thread x))
    (hlock : ∀ y, y ≠ x → s.cmdrLock = some (.thread y) → lock = some (.thread y)) (hrun : th ≠ .crashed) :
    Inv H { s.setTh x th with cmdrLock := lock } es := by
  have hreq' : ∀ y j, (Function.update s.threads x th y).req = some j → (s.threads y).req = some j :=
    (Function.forall_update_iff s.threads fun y t => ∀ j, t.req = some j → (s.threads y).req = some j).mpr
      ⟨hreq, fun _ _ _ hy => hy⟩
  have hfetched' : ∀ y j, Function.update s.threads x th y = .fetched j → s.threads y = .fetched j :=
    fun y j hy => (fetched_setTh hfetched hy).2
  have hadv' : ∀ y, Function.update s.threads x th y = .advancing → lock = some (.thread y) :=
    (Function.forall_update_iff s.threads fun y t => t = .advancing → lock = some (.thread y)).mpr
      ⟨hadv, fun y hyx hy => hlock y hyx (h.advancing y hy)⟩
  have hrun' : ∀ y, Function.update s.threads x th y ≠ .crashed :=
    (Function.forall_update_iff s.threads fun _ t => t ≠ .crashed).mpr ⟨hrun, fun y _ => h.running y⟩
  have hlive : ∀ j, Live s.inflight (Function.update s.threads x th) j → Live s.inflight s.threads j := fun j hj =>
    hj.imp_right fun ⟨y, hy⟩ => ⟨y, hfetched' y j hy⟩
  exact ⟨h.rep, h.tid, hrqs, h.nodup, fun y j hy => h.held y j (hreq' y j hy),
    fun y j hy => h.fetched y j (hfetched' y j hy), fun y z j hy hz => h.once y z j (hreq' y j hy) (hreq' z j hz),
    fun j k hjk hj hk => h.distinct j k hjk (hlive j hj) (hlive k hk), hadv', hrun'⟩

section

omit [DecidableEq ι]

theorem RqOk.setDone (h : RqOk H ring es tid lock L i r) {e : Ent} (he : e ∈ es)
    (hne : L → r.pc.quiet = true → r.se ≠ some e.pos) :
    RqOk H (Ring.setDone H ring e.pos) (es.map (markAt e.pos)) tid lock L i r := by
  have hspan : (es.map (markAt e.pos)).map Ent.toSpan = es.map Ent.toSpan := by
    simp [List.map_map, Function.comp_def]
  refine ⟨h.used, h.pending, h.early, h.late, h.locked, fun hpc => ?_, fun hpc => ?_, fun hl => ?_⟩
  · obtain ⟨hfit, htotal⟩ := h.room hpc
    exact ⟨hfit, by rw [hspan]; exact htotal⟩
  · obtain ⟨hse, hrep⟩ := h.written hpc
    have hlast : markAt e.pos (cmdEnt H ring.cmdHead r.seCmd) = cmdEnt H ring.cmdHead r.seCmd :=
      if_neg (hrep.pos_ne he (List.mem_singleton_self _))
    have hdone := hrep.setDone (List.mem_append_left _ he)
    rw [List.map_append, List.map_singleton, hlast] at hdone
    exact ⟨hse, hdone⟩
  · exact (h.listed hl).imp_right fun hp => hp.setDone (hne hl hp.quiet.pc)

theorem Inv.setDone (h : Inv H s es) {e : Ent} (he : e ∈ es)
    (hne : ∀ j, Live s.inflight s.threads j → (s.rqs j).pc.quiet = true → (s.rqs j).se ≠ some e.pos) :
    Inv H { s with ring := Ring.setDone H s.ring e.pos } (es.map (markAt e.pos)) :=
  ⟨h.rep.setDone he, h.tid, fun j => (h.rqs j).setDone he fun hl => hne j (.inl hl), h.nodup, h.held,
    fun x j hx => (h.fetched x j hx).setDone (hne j (.inr ⟨x, hx⟩) (h.fetched x j hx).quiet.pc), h.once, h.distinct,
    h.advancing, h.running⟩

theorem Inv.pad (h : Inv H s es) {pos : Nat} (hmem : pos ∈ walk H s.ring) (hpad : entOp H s.ring.cmdr pos = .pad) :
    ∃ es', Inv H { s with ring := Ring.setDone H s.ring pos } es' := by
  obtain ⟨e, he, rfl⟩ := h.rep.mem_walk.mp hmem
  refine ⟨_, h.setDone he fun j hlive hq hse => ?_⟩
  -- the entry of a request is no padding
  obtain ⟨e', he', hpos, hcmd, -⟩ := (h.pub hlive hq).ent
  have hat := (h.rep.at_ e' he').cmd
  rw [hpos] at hse
  rw [Option.some.inj hse, cmdAt, if_pos hpad, hcmd] at hat
  cases hat

theorem Inv.mark (h : Inv H s es) {x pos : Nat} (hx : s.threads x = .fetched i) (hse : (s.rqs i).se = some pos) :
    ∃ es', Inv H { s.setTh x (.marked i) with ring := Ring.setDone H s.ring pos } es' := by
  obtain ⟨e, he, hpos, -, -⟩ := (h.fetched x i hx).ent
  obtain rfl : e.pos = pos := Option.some.inj (hpos.symm.trans hse)
  have hreq : (s.threads x).req = some i := by rw [hx]; rfl
  have hmarked : Inv H (s.setTh x (.marked i)) es :=
    h.thread h.rqs (fun j hj => hj ▸ hreq) nofun nofun (fun _ _ hl => hl) nofun
  refine ⟨_, hmarked.setDone he fun j hlive hq hsame => ?_⟩
  have hji : j ≠ i := by
    rintro rfl
    rcases hlive with hmem | ⟨y, hy⟩
    · exact (h.held x j hreq).1 hmem
    · obtain ⟨hyx, hy⟩ := fetched_setTh nofun hy
      exact hyx (h.once y x j (by rw [hy]; rfl) hreq)
  have hlive' : Live s.inflight s.threads j := hlive.imp_right fun ⟨y, hy⟩ => ⟨y, (fetched_setTh nofun hy).2⟩
  exact h.distinct j i hji hlive' (.inr ⟨x, hx⟩) hq (h.fetched x i hx).quiet.pc (hsame.trans hse.symm)

theorem Inv.pop (h : Inv H s es) {x se : Nat} (hx : s.threads x = .advancing) (hold : getOldestSe s.ring = some se)
    (hdone : entDone H s.ring.cmdr se = true) :
    ∃ es', Inv H { s with ring := { s.ring with
      cmdTail := updateCmdrTail s.ring.cmdTail (entLen H s.ring.cmdr se) H.cmdrSize } } es' := by
  obtain ⟨hne, rfl⟩ : s.ring.cmdTail ≠ s.ring.cmdHead ∧ s.ring.cmdTail = se := by
    unfold getOldestSe at hold
    split at hold <;> cases hold
    exact ⟨‹_›, rfl⟩
  cases es with
  | nil => exact absurd h.rep.chain hne
  | cons e es =>
    have hat := h.rep.at_ e (List.mem_cons_self ..)
    have hpos : e.pos = s.ring.cmdTail := h.rep.chain.1
    have hlen := hat.len
    have hedone := hat.done
    rw [hpos] at hlen hedone
    rw [hdone] at hedone
    -- nothing of an unfinished request is dropped
    have hpub : ∀ r, Pub (e :: es) r → Pub es r := fun r hp => by
      obtain ⟨e', he', hent⟩ := hp.ent
      rcases List.mem_cons.mp he' with rfl | he'
      · rw [← hedone] at hent
        cases hent.2.2
      · exact ⟨hp.quiet, e', he', hent⟩
    have hfit := (h.rep.fits e (List.mem_cons_self ..)).2
    rw [hlen, updateCmdrTail_eq h.rep.tail_lt (by rw [← hpos]; exact hfit)]
    have hlock : ∀ j, (s.rqs j).pc.locked = false := fun j => h.not_locked (by rw [h.advancing x hx]; nofun)
    exact ⟨es, h.rep.pop, h.tid, fun j => (h.rqs j).unlocked (hlock j) id (hpub _), h.nodup, h.held,
      fun y j hy => hpub _ (h.fetched y j hy), h.once, h.distinct, h.advancing, h.running⟩

theorem Inv.takeLock (h : Inv H s es) {x : Nat} (hfree : s.cmdrLock = none) :
    Inv H { s.setTh x .advancing with cmdrLock := some (.thread x) } es := by
  refine h.thread (fun j => (h.rqs j).unlocked (h.not_locked (by rw [hfree]; nofun)) id id) nofun nofun
    (fun _ => rfl) (fun y _ hy => ?_) nofun
  rw [hfree] at hy
  cases hy

theorem Inv.release (h : Inv H s es) {x : Nat} (hx : s.threads x = .advancing) :
    Inv H { s.setTh x .again with cmdrLock := none } es := by
  have hlock := h.advancing x hx
  refine h.thread (fun j => (h.rqs j).unlocked (h.not_locked (by rw [hlock]; nofun)) id id) nofun nofun nofun
    (fun y hy hl => ?_) nofun
  rw [hlock] at hl
  cases hl
  exact absurd rfl hy

theorem Th.req_of_calm {th : Th ι} (h : th.calm = true) : th.req = none := by
  cases th <;> first | rfl | cases h

theorem Inv.goOn (h : Inv H s es) {x : Nat} {th : Th ι} (hth : th.calm = true) : Inv H (s.setTh x th) es := by
  refine h.thread h.rqs (fun j hj => ?_) (fun j hj => ?_) (fun e => ?_) (fun _ _ hl => hl) fun e => ?_
  · rw [Th.req_of_calm hth] at hj
    cases hj
  · rw [hj] at hth
    cases hth
  · rw [e] at hth
    cases hth
  · rw [e] at hth
    cases hth

/-- On a value that is safe, `fetch_inflight_req` returns a published request. -/
theorem Inv.found (h : Inv H s es) {x v : Nat} (hx : s.threads x = .took v) (hsafe : Safe s (.fetch x))
    (hmem : i ∈ s.inflight) (hi : (s.rqs i).reqTid = v) : Pub es (s.rqs i) := by
  obtain ⟨hearly, hlate⟩ := hsafe x v rfl hx i hmem
  rcases (h.rqs i).listed hmem with hon | hp
  · -- unpublished, its `req_tid` is 0 or that of the queue
    rcases Pc.early_or_late hon with hpc | hpc
    · rw [hearly (hi.symm.trans ((h.rqs i).early hpc))] at hpc
      cases hpc
    · rw [hlate (hi.symm.trans ((h.rqs i).late hpc))] at hpc
      cases hpc
  · exact hp

end

theorem Inv.fetch (h : Inv H s es) {x v : Nat} {st : QueueStatus}
    (hfind : s.inflight.find? (fun i => (s.rqs i).reqTid = v) = some i) (hpub : Pub es (s.rqs i)) :
    Inv H { s.setTh x (.fetched i) with inflight := s.inflight.erase i, status := st } es := by
  have hmem : i ∈ s.inflight := List.mem_of_find?_eq_some hfind
  have herase : i ∉ s.inflight.erase i := h.nodup.not_mem_erase
  have hsub : ∀ j, j ∈ s.inflight.erase i → j ∈ s.inflight := fun j hj => List.mem_of_mem_erase hj
  -- nobody else has the request
  have hnone : ∀ y, (s.threads y).req ≠ some i := fun y hy => (h.held y i hy).1 hmem
  have hreq : ∀ y j, (Function.update s.threads x (.fetched i) y).req = some j →
      (y = x ∧ j = i) ∨ (s.threads y).req = some j :=
    (Function.forall_update_iff s.threads fun y t => ∀ j, t.req = some j →
      (y = x ∧ j = i) ∨ (s.threads y).req = some j).mpr
      ⟨fun j hj => .inl ⟨rfl, (Option.some.inj hj).symm⟩, fun _ _ _ hy => .inr hy⟩
  have hfetched : ∀ y j, Function.update s.threads x (.fetched i) y = .fetched j → j = i ∨ s.threads y = .fetched j :=
    (Function.forall_update_iff s.threads fun y t => ∀ j, t = .fetched j → j = i ∨ s.threads y = .fetched j).mpr
      ⟨fun j hj => .inl (Th.fetched.inj hj).symm, fun _ _ _ hy => .inr hy⟩
  have hadv : ∀ y, Function.update s.threads x (.fetched i) y = .advancing → s.cmdrLock = some (.thread y) :=
    (Function.forall_update_iff s.threads fun y t => t = .advancing → s.cmdrLock = some (.thread y)).mpr
      ⟨nofun, fun y _ => h.advancing y⟩
  have hrun : ∀ y, Function.update s.threads x (.fetched i) y ≠ .crashed :=
    (Function.forall_update_iff s.threads fun _ t => t ≠ .crashed).mpr ⟨nofun, fun y _ => h.running y⟩
  have hlive : ∀ j, Live (s.inflight.erase i) (Function.update s.threads x (.fetched i)) j →
      Live s.inflight s.threads j := by
    rintro j (hj | ⟨y, hy⟩)
    · exact .inl (hsub j hj)
    · rcases hfetched y j hy with rfl | hy
      · exact .inl hmem
      · exact .inr ⟨y, hy⟩
  refine ⟨h.rep, h.tid, fun j => (h.rqs j).imp (hsub j), h.nodup.erase i, fun y j hy => ?_, fun y j hy => ?_,
    fun y z j hy hz => ?_, fun j k hjk hj hk => h.distinct j k hjk (hlive j hj) (hlive k hk), hadv, hrun⟩
  · rcases hreq y j hy with ⟨-, rfl⟩ | hy
    · exact ⟨herase, hpub.quiet⟩
    · obtain ⟨hn, hq⟩ := h.held y j hy
      exact ⟨fun hj => hn (hsub j hj), hq⟩
  · rcases hfetched y j hy with rfl | hy
    · exact hpub
    · exact h.fetched y j hy
  · rcases hreq y j hy with ⟨rfl, rfl⟩ | hy'
    · rcases hreq z j hz with ⟨rfl, -⟩ | hz'
      · rfl
      · exact absurd hz' (hnone z)
    · rcases hreq z j hz with ⟨rfl, rfl⟩ | hz'
      · exact absurd hy' (hnone y)
      · exact h.once y z j hy' hz'

theorem Inv.finish (h : Inv H s es) {x : Nat} (hx : s.threads x = .marked i) :
    Inv H ((s.setRq i { s.rqs i with inUse := false }).setTh x .ended) es := by
  have hreq : (s.threads x).req = some i := by rw [hx]; rfl
  obtain ⟨hmem, hq⟩ := h.held x i hreq
  have hended : Inv H (s.setTh x .ended) es := h.thread h.rqs nofun nofun nofun (fun _ _ hl => hl) nofun
  -- no other thread has the request
  have hnone : ∀ y, ((s.setTh x .ended).threads y).req ≠ some i :=
    (Function.forall_update_iff s.threads fun _ t => t.req ≠ some i).mpr
      ⟨nofun, fun y hyx hy => hyx (h.once y x i hy hreq)⟩
  refine hended.worker h.rep h.tid (.of_quiet hq.pc (fun hp => ?_) (fun hpc => (h.rqs i).locked (by rw [hpc]; rfl))
    fun hl => absurd hl hmem) (fun j _ => h.rqs j) (List.Subset.refl es) h.nodup (fun _ _ hl => hl)
    (fun y hy => absurd hy (hnone y)) (fun y hy => absurd (congrArg Th.req hy) (hnone y)) (fun _ hlive => ?_)
    fun _ hl => hl
  · rw [hq.pending] at hp
    cases hp
  · rcases hlive with hl | ⟨y, hy⟩
    · exact absurd hl hmem
    · exact absurd (congrArg Th.req hy) (hnone y)

/-! ## All runs -/

omit [DecidableEq ι] in
theorem initState_inv (m : Mem) : Inv H (initState ι m) [] := by
  have h₁ := H.reserved_pos
  have h₂ := H.reserved_le
  refine ⟨⟨rfl, by simp only [initState]; omega, Nat.dvd_zero _, nofun, nofun, Nat.zero_le _, nofun⟩,
    Nat.two_pow_pos 64, fun i => .of_quiet rfl nofun nofun nofun, List.nodup_nil, nofun, nofun, nofun,
    fun i j _ hi => ?_, nofun, nofun⟩
  rcases hi with hi | ⟨x, hx⟩
  · cases hi
  · cases hx

/-- A step that is safe keeps the invariant. -/
theorem inv_step {a : Label ι} (h : Inv H s es) (hs : step H s a = some s') (hsafe : Safe s a) :
    ∃ es', Inv H s' es' := by
  cases step_cases hs with
  | setStatus => exact ⟨es, h.rep, h.tid, h.rqs, h.nodup, h.held, h.fetched, h.once, h.distinct, h.advancing, h.running⟩
  | queueRq hfree => exact ⟨es, h.queueRq hfree⟩
  | start hpend hidle hgoes => exact ⟨es, h.start hpend hidle hgoes⟩
  | prepare hpc => exact ⟨es, h.prepare hpc _⟩
  | fails hpc => exact ⟨es, h.fails hpc⟩
  | insert hpc => exact ⟨es, h.insert hpc⟩
  | reserve hpc hfree hroom => exact h.reserve hpc hfree hroom
  | assign hpc => exact ⟨es, h.assign hpc⟩
  | init hpc => exact ⟨es, h.init hpc⟩
  | publish hpc => exact h.publish hpc
  | unlock hpc => exact ⟨es, h.unlock hpc⟩
  | remove hpc => exact ⟨es, h.remove hpc⟩
  | endRequest hpc => exact ⟨es, h.endRequest hpc⟩
  | stay => exact ⟨es, h⟩
  | goOn _ hth => exact ⟨es, h.goOn hth⟩
  | fetch hx hfind =>
    have hi := List.find?_some hfind
    exact ⟨es, h.fetch hfind (h.found hx hsafe (List.mem_of_find?_eq_some hfind) (of_decide_eq_true hi))⟩
  | crash hx hmissing =>
    obtain ⟨e, -, hse, -⟩ := (h.fetched _ _ hx).ent
    rw [hmissing] at hse
    cases hse
  | mark hx hse => exact h.mark hx hse
  | finish hx => exact ⟨es, h.finish hx⟩
  | lock _ hfree => exact ⟨es, h.takeLock hfree⟩
  | pop hx hold hdone => exact h.pop hx hold hdone
  | release hx => exact ⟨es, h.release hx⟩
  | pad hmem hpad => exact h.pad hmem hpad

omit [DecidableEq ι] in
theorem Inv.sound (h : Inv H s es) : Sound H s := by
  refine ⟨fun x i hx => ?_, h.running⟩
  obtain ⟨hq, e, he, hse, hcmd, -⟩ := h.fetched x i hx
  exact ⟨e.pos, hse, h.rep.mem_walk.mpr ⟨e, he, rfl⟩, (h.rep.at_ e he).cmd.trans hcmd, hq.pc⟩

/-- Fewer than `2^64` commands are published: `req_tid` does not start again from 0. -/
def Few (s : State ι) (a : Label ι) : Prop := ∀ i, a = .assign i → s.reqTid ≠ 2 ^ 64 - 1

/-- The published requests on the list have a `req_tid` that was given to them, and
not the one of a request that is not published. -/
structure Tids (tid : Nat) (rqs : ι → Rq) (l : List ι) : Prop where
  late : ∀ i, (rqs i).pc.late = true → 0 < tid
  listed : ∀ i ∈ l, (rqs i).pc.quiet = true →
    0 < (rqs i).reqTid ∧ (rqs i).reqTid ≤ tid ∧ ∀ j, (rqs j).pc.late = true → (rqs i).reqTid < tid

/-- A step of request `i` that does not set `req_tid`. -/
theorem Tids.update {rqs : ι → Rq} {l l' : List ι} (h : Tids tid rqs l)
    (hlate : r.pc.late = true → (rqs i).pc.late = true) (hsub : ∀ j, j ≠ i → j ∈ l' → j ∈ l)
    (hi : i ∈ l' → r.pc.quiet = true → 0 < r.reqTid ∧ r.reqTid ≤ tid ∧
      ∀ j, j ≠ i → (rqs j).pc.late = true → r.reqTid < tid) : Tids tid (Function.update rqs i r) l' := by
  have hlate' : ∀ j, (Function.update rqs i r j).pc.late = true → (rqs j).pc.late = true := by
    intro j hj
    by_cases hji : j = i
    · rw [hji] at hj ⊢
      exact hlate (by simpa using hj)
    · simpa [Function.update_of_ne hji] using hj
  refine ⟨fun j hj => h.late j (hlate' j hj), fun j hmem hq => ?_⟩
  by_cases hji : j = i
  · subst hji
    rw [Function.update_self] at hq ⊢
    obtain ⟨h1, h2, h3⟩ := hi hmem hq
    refine ⟨h1, h2, fun k hk => ?_⟩
    by_cases hkj : k = j
    · rw [hkj, Function.update_self] at hk
      rw [Pc.not_quiet_of_late hk] at hq
      cases hq
    · exact h3 k hkj (hlate' k hk)
  · rw [Function.update_of_ne hji] at hq ⊢
    obtain ⟨h1, h2, h3⟩ := h.listed j (hsub j hji hmem) hq
    exact ⟨h1, h2, fun k hk => h3 k (hlate' k hk)⟩

theorem tids_step {a : Label ι} (hi : Inv H s es) (h : Tids s.reqTid s.rqs s.inflight) (hs : step H s a = some s')
    (hfew : Few s a) : Tids s'.reqTid s'.rqs s'.inflight := by
  cases step_cases hs with
  | setStatus | stay | goOn | crash | mark | lock | pop | release | pad => exact h
  | @queueRq i hfree =>
    exact h.update id (fun _ _ hl => hl) fun hl => absurd hl (hi.free hfree).2.2
  | start _ _ hgoes =>
    rcases hgoes with rfl | rfl
    · exact h.update nofun (fun _ _ hl => hl) nofun
    · exact h.update nofun (fun _ _ hl => hl) nofun
  | prepare => exact h.update nofun (fun _ _ hl => hl) nofun
  | fails hpc =>
    rcases hpc with ⟨-, rfl⟩ | ⟨-, rfl⟩
    · exact h.update nofun (fun _ _ hl => hl) nofun
    · exact h.update nofun (fun _ _ hl => hl) nofun
  | insert =>
    refine h.update nofun (fun j hj hl => ?_) nofun
    exact (List.mem_append.mp hl).resolve_right fun hji => hj (List.mem_singleton.mp hji)
  | reserve => exact h.update nofun (fun _ _ hl => hl) nofun
  | @assign i hpc =>
    have hne := hfew i rfl
    have hinc : inc64 s.reqTid = s.reqTid + 1 := if_neg hne
    have hlate : ∀ j, j ≠ i → (s.rqs j).pc.late = false := fun j hj => by
      have hlocked : (s.rqs i).pc.locked = true := by rw [hpc]; rfl
      refine Bool.eq_false_iff.mpr fun hl => ?_
      have := hi.others_unlocked hlocked hj
      rw [Pc.locked_of_late hl] at this
      cases this
    show Tids (inc64 s.reqTid) (Function.update s.rqs i _) s.inflight
    rw [hinc]
    refine ⟨fun _ _ => Nat.succ_pos _, fun j hmem hq => ?_⟩
    by_cases hji : j = i
    · rw [hji, Function.update_self] at hq
      cases hq
    · rw [Function.update_of_ne hji] at hq ⊢
      obtain ⟨h1, h2, -⟩ := h.listed j hmem hq
      exact ⟨h1, by omega, fun _ _ => by omega⟩
  | init hpc => exact h.update (fun _ => by rw [hpc]; rfl) (fun _ _ hl => hl) nofun
  | @publish i hpc =>
    have hlocked : (s.rqs i).pc.locked = true := by rw [hpc]; rfl
    have hlate : (s.rqs i).pc.late = true := by rw [hpc]; rfl
    have htid := (hi.rqs i).late hlate
    have hpos := h.late i hlate
    refine h.update nofun (fun _ _ hl => hl) fun _ _ => ⟨?_, ?_, fun j hj hl => ?_⟩
    · show 0 < (s.rqs i).reqTid
      omega
    · exact htid.le
    · have := hi.others_unlocked hlocked hj
      rw [Pc.locked_of_late hl] at this
      cases this
  | @unlock i hpc =>
    refine h.update nofun (fun _ _ hl => hl) fun hl _ => ?_
    obtain ⟨h1, h2, h3⟩ := h.listed i hl (by rw [hpc]; rfl)
    exact ⟨h1, h2, fun j _ => h3 j⟩
  | remove => exact h.update nofun (fun _ _ hl => List.mem_of_mem_erase hl) nofun
  | @endRequest i hpc =>
    have hmem := (hi.rqs i).notMem (by rw [hpc]; rfl) (not_quiet_of_pc (by rw [hpc]; rfl))
    exact h.update nofun (fun _ _ hl => hl) fun hl => absurd hl hmem
  | fetch =>
    exact ⟨h.late, fun j hmem => h.listed j (List.mem_of_mem_erase hmem)⟩
  | @finish x i hx =>
    refine h.update id (fun _ _ hl => hl) fun hl hq => ?_
    obtain ⟨h1, h2, h3⟩ := h.listed i hl hq
    exact ⟨h1, h2, fun j _ => h3 j⟩

/-- A step that is not safe returns a request that is not published. -/
theorem not_sound_of_not_safe {a : Label ι} (h : Tids s.reqTid s.rqs s.inflight) (hi : Inv H s es)
    (hs : step H s a = some s') (hbreach : ¬ Safe s a) : ¬ Sound H s' := by
  intro hsound
  simp only [Safe, not_forall] at hbreach
  obtain ⟨x, v, rfl, hx, i, hmem, hbad⟩ := hbreach
  have hbad' : (v = 0 ∧ (s.rqs i).pc.early = true) ∨ (v = s.reqTid ∧ (s.rqs i).pc.late = true) := by
    by_contra hne
    simp only [not_or, not_and, Bool.not_eq_true] at hne
    exact hbad hne
  have htid : (s.rqs i).reqTid = v := by
    rcases hbad' with ⟨rfl, hpc⟩ | ⟨rfl, hpc⟩
    · exact (hi.rqs i).early hpc
    · exact (hi.rqs i).late hpc
  simp only [step, hx, Option.some.injEq] at hs
  unfold fetchReq at hs
  cases hfind : s.inflight.find? (fun i => (s.rqs i).reqTid = v) with
  | none => exact absurd htid (by simpa using List.find?_eq_none.mp hfind i hmem)
  | some j =>
    simp only [hfind] at hs
    subst hs
    obtain ⟨-, -, -, -, hq⟩ := hsound.1 x j (Function.update_self ..)
    have hjv : (s.rqs j).reqTid = v := by simpa using List.find?_some hfind
    obtain ⟨h1, -, h3⟩ := h.listed j (List.mem_of_find?_eq_some hfind) hq
    rcases hbad' with ⟨rfl, -⟩ | ⟨rfl, hpc⟩
    · omega
    · have := h3 i hpc
      omega

/-- In every run whose steps are all safe, `fetch_inflight_req` returns only published
requests; and in a run of fewer than `2^64` commands only then. -/
theorem sound_iff_safe (H : Header) (m : Mem) (as : List (Label ι)) :
    ((lts H ι).Steps (fun s a _ => Safe s a) (initState ι m) as → (lts H ι).States (Sound H) (initState ι m) as) ∧
      ((lts H ι).Steps (fun s a _ => Few s a) (initState ι m) as →
        (lts H ι).States (Sound H) (initState ι m) as →
          (lts H ι).Steps (fun s a _ => Safe s a) (initState ι m) as) := by
  constructor
  · intro h
    refine Lts.States.mono (fun s ⟨es, hi⟩ => hi.sound) (Lts.states_of_steps (I := fun s => ∃ es, Inv H s es) ?_
      ⟨[], initState_inv m⟩ h)
    rintro s a s' ⟨es, hi⟩ hs hsafe
    exact inv_step hi hs hsafe
  · intro hfew
    refine (Lts.states_iff_steps_of (M := lts H ι) (B := fun s a _ => Few s a)
      (I := fun s => (∃ es, Inv H s es) ∧ Tids s.reqTid s.rqs s.inflight) ?_ ?_ ?_ ?_ hfew).mp
    · rintro s ⟨⟨es, hi⟩, -⟩
      exact hi.sound
    · rintro s a s' ⟨⟨es, hi⟩, ht⟩ hs hfew hsafe
      exact ⟨inv_step hi hs hsafe, tids_step hi ht hs hfew⟩
    · rintro s a s' ⟨⟨es, hi⟩, ht⟩ hs - hbreach
      exact not_sound_of_not_safe ht hi hs hbreach
    · exact ⟨⟨[], initState_inv m⟩, nofun, nofun⟩

/-- A flush that is put on the list. -/
def insertFlush : List (Label Nat) := [.queueRq 0, .start 0, .prepare 0 (some flush), .insert 0]

/-- It is published, and a completion entry comes with its `req_tid`. -/
def answeredFlush : List (Label Nat) :=
  insertFlush ++ [.reserve 0, .assign 0, .init 0, .publish 0, .enter 0, .take 0 1, .fetch 0]

/-- A step for which there is room, at the start of a run. -/
theorem safe_reserve (hpc : (s.rqs i).pc = .listed) (hfree : s.cmdrLock = none)
    (hroom : submitRingSpaceEnough H s.ring ((s.rqs i).size H) = true) {as : List (Label ι)}
    (has : (lts H ι).Steps (fun s a _ => Safe s a) { s.setPc i .padded with
      ring := insertPadding H s.ring ((s.rqs i).size H)
      cmdrLock := some (.worker i) } as) : (lts H ι).Steps (fun s a _ => Safe s a) s (.reserve i :: as) := by
  refine Lts.Steps.cons ?_ nofun has
  show step H s (.reserve i) = _
  simp only [step, hpc, hfree, hroom, Option.isNone_none, and_self, if_true]

theorem sound_iff_safe_answered :
    (lts (Queue.sampleConf 1).header Nat).States (Sound (Queue.sampleConf 1).header) (initState Nat fun _ => 0)
        answeredFlush ∧
      ((lts (Queue.sampleConf 1).header Nat).exec (initState Nat fun _ => 0) answeredFlush).any
        (fun s => (s.threads 0).req = some 0) = true := by
  refine ⟨(sound_iff_safe _ _ _).1 ?_, by decide⟩
  unfold answeredFlush insertFlush
  iterate 4 refine Lts.Steps.cons rfl nofun ?_
  refine safe_reserve rfl rfl (by decide) ?_
  iterate 5 refine Lts.Steps.cons rfl nofun ?_
  refine Lts.Steps.cons rfl (fun x v hl hx i hmem => ?_) trivial
  cases hl
  cases hx
  obtain rfl : i = 0 := List.mem_singleton.mp hmem
  exact ⟨nofun, fun _ => rfl⟩

/-- A completion entry with `priv_data` 0 ends a request that has no `req_tid` yet, and
its `se` is missing. -/
theorem zero_entry_crashes :
    ∃ s, (lts (Queue.sampleConf 1).header Nat).exec (initState Nat fun _ => 0)
        (insertFlush ++ [.enter 0, .take 0 0, .fetch 0, .mark 0]) = some s ∧
      s.threads 0 = .crashed ∧ ¬ Sound (Queue.sampleConf 1).header s :=
  ⟨_, rfl, rfl, fun h => h.2 0 rfl⟩

end Ubbd.Fetch

import UbbdKernel.Queue.Holding
import UbbdKernel.Ring.Reader

/-!
# The command ring of a queue and its reader

The entries of the command ring while requests are published, completed and
removed, and a backend reads the ring. `Entries s pos hs es`: the backend at
`pos` has passed the entries `hs`, and `es` are those in front of it; every
published request that has not been marked DONE has its entry among them.

A forced removal marks entries the backend has not passed yet, and then
`advance_cmd_ring` may move the tail past the backend. The bytes stay what they
are: once a removal ends requests, no worker is left that could publish one
(`Awaited.quiet`), and the entries are followed from where the tail was.
-/

namespace Ubbd.Queue

open Ubbd.Ring (Ent Rep markAt cmdEnt)
open Circular

variable {C : Conf} {s s' : State C}

/-! ## Removals -/

/-- In `queue_stop` or `queue_start`, or about to set STOPPED. -/
def Pc.stops : Pc C → Bool
  | .stopSet | .stopFlush | .stopFlushing _ | .stopFlushed | .startSet | .setStopped _ _ => true
  | _ => false

/-- What removals have waited for, beside stops and starts. -/
def Awaited (s : State C) : Prop := ∀ x, (s.threads x).stops = false → Gone s (s.threads x)

/-- REMOVING is not overwritten. -/
def Lasts (s s' : State C) : Prop := s.status = .removing → s'.status = .removing

/-- A removal has taken the requests off the list. -/
def Spliced (s : State C) : Prop := ∃ x, (s.threads x).ending = true ∨ s.threads x = .removed true

theorem awaited_init (n r : Nat) : Awaited (initState C n r) := fun _ _ => trivial

theorem awaited_thStep {x : Nat} {l : ThLabel} (h : Awaited s) (hs : ThStep s x l s') (hl : Lasts s s') :
    Awaited s' := by
  have hframe : ∀ {pc : Pc C}, Gone s pc → Gone s' pc := Gone.frame hl fun _ t ht =>
    ⟨(hs.busy t).1 ▸ ht, (hs.busy t).2.2⟩
  have hx : (s.threads x).stops = false → Gone s' (s.threads x) := fun hp => hframe (h x hp)
  have hmove : ∀ {pc : Pc C}, (pc.stops = false → Gone s' pc) →
      ∀ y, ((s.setPc x pc).threads y).stops = false → Gone s' ((s.setPc x pc).threads y) := fun hpc =>
    forall_setPc (P := fun _ pc => pc.stops = false → Gone s' pc) hpc fun y _ hp => hframe (h y hp)
  cases hs with
  | back l call pc => exact h
  | remSet force pc lock => exact hmove fun _ => rfl
  | remFlush force pc =>
    rw [pc] at hx
    exact hmove fun _ => ⟨hx rfl, fun _ _ => Nat.le_refl _⟩
  | remFlushed force snap pc flushed =>
    rw [pc] at hx
    have hquiet : Quiet s := fun t => eq_false_of_imp (b := false)
      (fun hb => absurd (flushed t (Wk.active_of_busy hb)) (Nat.not_lt.mpr ((hx rfl).2 t hb))) rfl
    refine hmove fun _ => ?_
    cases force <;> exact ⟨(hx rfl).1, hquiet⟩
  | remSplice pc lock =>
    rw [pc] at hx
    exact hmove fun _ => hx rfl
  | remDone pc tmp =>
    rw [pc] at hx
    exact hmove fun _ => hx rfl
  | remNext pc t ts tmp =>
    rw [pc] at hx
    exact hmove fun _ => hx rfl
  | mark t by_ pc =>
    rw [pc] at hx
    exact hmove fun _ => by cases by_ <;> exact hx rfl
  | released t by_ pc idle =>
    rw [pc] at hx
    exact hmove fun _ => by cases by_ <;> exact hx rfl
  | finish t by_ pc =>
    rw [pc] at hx
    exact hmove fun _ => by cases by_ <;> exact hx rfl
  | advance by_ pc =>
    rw [pc] at hx
    exact hmove fun _ => by cases by_ <;> exact hx rfl
  | stopRead | stopSet | stopFlush | stopFlushed | startRead | last => exact hmove nofun
  | _ => exact hmove fun _ => trivial

theorem awaited_step {a : Label C} (h : Awaited s) (hs : step s a = some s') (hl : Lasts s s') : Awaited s' := by
  cases step_cases hs with
  | rq hw =>
    obtain ⟨h₁, h₂, -⟩ := hw.control
    intro x hx
    rw [h₂] at hx ⊢
    exact (h x hx).frame (fun hst => h₁.trans hst) fun hst t ht => hw.busy (by rw [hst]; exact nofun) ht
  | th ht => exact awaited_thStep h ht hl
  | _ => exact h

/-- Once a removal ends requests, no worker is past the status check. -/
theorem Awaited.quiet (h : Awaited s) (hs : Spliced s) : s.status = .removing ∧ Quiet s := by
  obtain ⟨x, hx | hx⟩ := hs
  · have hg := h x
    generalize s.threads x = pc at hx hg
    cases pc with
    | remNext => exact hg rfl
    | mark t by_ => cases by_ <;> [cases hx; exact hg rfl]
    | release t by_ => cases by_ <;> [cases hx; exact hg rfl]
    | finish t by_ => cases by_ <;> [cases hx; exact hg rfl]
    | advance by_ => cases by_ <;> [cases hx; exact hg rfl]
    | _ => cases hx
  · have hg := h x
    rw [hx] at hg
    exact hg rfl

theorem Awaited.splicesQuiet {a : Label C} (h : Awaited s) (hs : step s a = some s') : SplicesQuiet s a := by
  cases step_cases hs with
  | th ht =>
    rename_i x l
    have hx := h x
    cases ht with
    | remSplice pc lock =>
      rw [pc] at hx
      exact (hx rfl).2
    | back l call pc => cases l <;> trivial
    | _ => trivial
  | _ => trivial

theorem Spliced.step {a : Label C} (h : Spliced s) (hs : Queue.step s a = some s') : Spliced s' := by
  obtain ⟨y, hy⟩ := h
  refine ⟨y, ?_⟩
  cases step_cases hs with
  | rq hw =>
    rw [hw.control.2.1]
    exact hy
  | th ht =>
    rename_i x l
    have hmove : ∀ {pc : Pc C},
        ((s.threads x).ending = true ∨ s.threads x = .removed true → pc.ending = true ∨ pc = .removed true) →
        ((s.setPc x pc).threads y).ending = true ∨ (s.setPc x pc).threads y = .removed true := by
      intro pc hpc
      rw [State.setPc_threads]
      split
      · rename_i hyx
        exact hpc (hyx ▸ hy)
      · exact hy
    cases ht with
    | back l call pc => exact hy
    | remDone pc tmp => exact hmove fun _ => .inr rfl
    | remNext pc t ts tmp => exact hmove fun _ => .inl rfl
    | mark t by_ pc =>
      rw [pc] at hmove
      exact hmove fun h => .inl (by cases by_ <;> [exact absurd h (by simp [Pc.ending]); rfl])
    | released t by_ pc idle =>
      rw [pc] at hmove
      exact hmove fun h => .inl (by cases by_ <;> [exact absurd h (by simp [Pc.ending]); rfl])
    | finish t by_ pc =>
      rw [pc] at hmove
      exact hmove fun h => .inl (by cases by_ <;> [exact absurd h (by simp [Pc.ending]); rfl])
    | advance by_ pc =>
      rw [pc] at hmove
      exact hmove fun h => .inl (by cases by_ <;> [exact absurd h (by simp [Pc.ending]); rfl])
    | _ =>
      refine hmove fun h => ?_
      simp only [*] at h
      rcases h with h | h <;> cases h
  | _ => exact hy

/-- A queue on which no more than `2 ^ 64 - 1` commands were published. -/
structure Regular (s : State C) : Prop where
  traced : Traced s
  awaited : Awaited s
  holding : Holding s
  few : s.pub.length < 2 ^ 64

theorem regular_init {n : Nat} (hn : n ≤ 2 ^ 31) (r : Nat) : Regular (initState C n r) :=
  ⟨traced_init n r, awaited_init n r, holding_init hn r, Nat.two_pow_pos 64⟩

theorem Regular.step {a : Label C} (h : Regular s) (hs : Queue.step s a = some s') (ha : Answers s a)
    (hu : Unwrapped s a) (hl : Lasts s s') : Regular s' := by
  refine ⟨traced_step h.traced hs ha hu (h.awaited.splicesQuiet hs), awaited_step h.awaited hs hl,
    holding_step h.traced.own h.holding hs, ?_⟩
  have hfew := h.few
  cases step_cases hs with
  | rq hw =>
    cases hw with
    | publish wk ring se =>
      have hu : s.pub.length < 2 ^ 64 - 1 := hu
      show (s.pub ++ _).length < 2 ^ 64
      rw [List.length_append, List.length_singleton]
      omega
    | rqStart wk r =>
      obtain ⟨op, w, -, heq⟩ := startRq_eq _ _ r
      rw [heq]
      exact hfew
    | _ => exact hfew
  | th ht => cases ht <;> exact hfew
  | _ => exact hfew

/-- No thread has begun to release a request that one is to mark. -/
theorem Own.unreleased (h : Own s) {x : Nat} {t : C.Tag} {by_ : By} (pc : s.threads x = .mark t by_) (y : Nat) :
    (s.threads y).releases ≠ some t := by
  intro hy
  obtain ⟨-, hat⟩ := h.of_holds (x := x) (t := t) (by rw [pc]; rfl)
  have hyx : some y = some x := by
    by_contra hne
    have h0 := hat.2 (some y) hne
    have hmem : t ∈ place s (some y) := by simp [place, Pc.holds_of_releases hy]
    exact absurd h0 (Nat.ne_of_gt (List.count_pos_iff.mpr hmem))
  rw [Option.some.inj hyx, pc] at hy
  cases hy

/-! ## The ring -/

/-- The entry of a request, not DONE. -/
def Posted (es : List Ent) (r : Rq C.pageSize) : Prop :=
  ∃ e ∈ es, e.pos = r.se ∧ e.done = false ∧ ∃ c, e.cmd = some c ∧ c.privData = r.tid

/-- The reader at `pos` has passed `hs`, and `es` are in front of it. Up to a
removal that ends requests, the entries are those from the tail on, and none in
front of the reader is DONE. -/
structure Entries (s : State C) (pos : Nat) (hs es : List Ent) : Prop where
  trail : ∃ start, Rep C.header { s.ring with cmdTail := start } (hs ++ es) ∧
    Chain C.header.cmdrSize start (hs.map Ent.toSpan) pos ∧
    (¬ Spliced s → start = s.ring.cmdTail ∧ ∀ e ∈ es, e.done = false)
  entry : ∀ t, (s.rqs t).wk = .published → (∀ x, (s.threads x).releases ≠ some t) → Posted (hs ++ es) (s.rqs t)

variable {pos : Nat} {hs es : List Ent}

theorem entries_init (n r : Nat) : Entries (initState C n r) 0 [] [] where
  trail := by
    have h₁ := C.header.reserved_pos
    have h₂ := C.header.reserved_le
    refine ⟨0, ⟨rfl, ?_, Nat.dvd_zero _, nofun, nofun, Nat.zero_le _, nofun⟩, rfl, fun _ => ⟨rfl, nofun⟩⟩
    show 0 < C.header.cmdrSize
    omega
  entry _ h := nomatch h

/-- The command at the place of an entry is that of the entry. -/
theorem Entries.cmdAt (h : Entries s pos hs es) {e : Ent} (he : e ∈ hs ++ es) :
    Ring.cmdAt C.header s.ring.cmdr e.pos = e.cmd := by
  obtain ⟨start, hrep, -⟩ := h.trail
  exact (hrep.at_ e he).cmd

/-- Steps that leave the ring alone and publish nothing. -/
theorem Entries.frame (h : Entries s pos hs es) (hring : s'.ring = s.ring) (hsp : Spliced s → Spliced s')
    (hentry : ∀ t, (s'.rqs t).wk = .published → (∀ x, (s'.threads x).releases ≠ some t) →
      (s.rqs t).wk = .published ∧ (∀ x, (s.threads x).releases ≠ some t) ∧ (s'.rqs t).se = (s.rqs t).se ∧
        (s'.rqs t).tid = (s.rqs t).tid) : Entries s' pos hs es where
  trail := by
    obtain ⟨start, hrep, hc, hn⟩ := h.trail
    rw [hring]
    exact ⟨start, hrep, hc, fun hns => hn fun h => hns (hsp h)⟩
  entry t hwk hrel := by
    obtain ⟨hwk, hrel, hse, htid⟩ := hentry t hwk hrel
    unfold Posted
    rw [hse, htid]
    exact h.entry t hwk hrel

/-! ### The reader -/

theorem Entries.rest (h : Entries s pos hs es) : Chain C.header.cmdrSize pos (es.map Ent.toSpan) s.ring.cmdHead := by
  obtain ⟨start, hrep, hfront, -⟩ := h.trail
  have hc := hrep.chain
  rw [List.map_append] at hc
  obtain ⟨p, hp, hc⟩ := chain_append.mp hc
  rw [hfront.end_unique hp]
  exact hc

/-- At the head, the reader has passed all entries. -/
theorem Entries.eq_nil (h : Entries s pos hs es) (hp : pos = s.ring.cmdHead) : es = [] := by
  have hrest := h.rest
  obtain ⟨start, hrep, -, -⟩ := h.trail
  have htotal := hrep.total_lt
  rw [List.map_append, total_append] at htotal
  rw [← hp] at hrest
  refine List.map_eq_nil_iff.mp (hrest.eq_nil (fun e he => hrep.fits_span e ?_) (by omega))
  rw [List.map_append]
  exact List.mem_append_right _ he

theorem Entries.undone (h : Entries s pos hs es) (hns : ¬ Spliced s) : ∀ e ∈ es, e.done = false := by
  obtain ⟨start, -, -, hn⟩ := h.trail
  exact (hn hns).2

theorem Entries.rep (h : Entries s pos hs es) (hns : ¬ Spliced s) : Rep C.header s.ring (hs ++ es) := by
  obtain ⟨start, hrep, -, hn⟩ := h.trail
  rw [(hn hns).1] at hrep
  exact hrep

/-- The reader passes the entry at its place. -/
theorem Entries.pass (h : Entries s pos hs es) (hp : pos ≠ s.ring.cmdHead) :
    ∃ e es', es = e :: es' ∧ e.pos = pos ∧ Ring.cmdAt C.header s.ring.cmdr pos = e.cmd ∧
      Entries s ((pos + Ring.entLen C.header s.ring.cmdr pos) % C.header.cmdrSize) (hs ++ [e]) es' := by
  cases es with
  | nil => exact absurd h.rest hp
  | cons e es =>
    have hpos : e.pos = pos := h.rest.1
    have hmem : e ∈ hs ++ e :: es := List.mem_append_right _ (List.mem_cons_self ..)
    refine ⟨e, es, rfl, hpos, hpos ▸ h.cmdAt hmem, ?_, ?_⟩
    · obtain ⟨start, hrep, hfront, hn⟩ := h.trail
      have hlen := (hrep.at_ e hmem).len
      rw [hpos] at hlen
      refine ⟨start, by rwa [List.append_assoc], ?_, fun hns => ?_⟩
      · rw [List.map_append, hlen]
        exact hfront.snoc hpos
      · obtain ⟨hstart, hundone⟩ := hn hns
        exact ⟨hstart, fun x hx => hundone x (List.mem_cons_of_mem _ hx)⟩
    · intro t hwk hrel
      rw [List.append_assoc]
      exact h.entry t hwk hrel

/-- The entry at `p` is marked DONE. -/
theorem Entries.setDone (h : Entries s pos hs es) {e : Ent} (he : e ∈ hs ++ es)
    (hring : s'.ring = Ring.setDone C.header s.ring e.pos) (hsp : Spliced s → Spliced s') (hin : ¬ Spliced s' → e ∈ hs)
    (hentry : ∀ t, (s'.rqs t).wk = .published → (∀ x, (s'.threads x).releases ≠ some t) →
      (s.rqs t).wk = .published ∧ (∀ x, (s.threads x).releases ≠ some t) ∧ (s'.rqs t).se = (s.rqs t).se ∧
        (s'.rqs t).tid = (s.rqs t).tid ∧ (s.rqs t).se ≠ e.pos) :
    Entries s' pos (hs.map (markAt e.pos)) (es.map (markAt e.pos)) where
  trail := by
    obtain ⟨start, hrep, hfront, hn⟩ := h.trail
    refine ⟨start, ?_, ?_, fun hns => ?_⟩
    · rw [hring, ← List.map_append]
      exact hrep.setDone he
    · rw [List.map_map, show Ent.toSpan ∘ markAt e.pos = Ent.toSpan from funext (Ring.markAt_toSpan _)]
      exact hfront
    · obtain ⟨hstart, hundone⟩ := hn fun h => hns (hsp h)
      refine ⟨by rw [hring, hstart]; rfl, fun x hx => ?_⟩
      obtain ⟨y, hy, rfl⟩ := List.mem_map.mp hx
      rw [markAt, if_neg (hrep.pos_ne (hin hns) hy)]
      exact hundone y hy
  entry t hwk hrel := by
    obtain ⟨hwk, hrel, hse, htid, hne⟩ := hentry t hwk hrel
    obtain ⟨x, hx, hpos, hdone, hc⟩ := h.entry t hwk hrel
    refine ⟨x, ?_, by rw [hse]; exact hpos, hdone, by rw [htid]; exact hc⟩
    rw [← List.map_append]
    exact List.mem_map.mpr ⟨x, hx, if_neg (by rw [hpos]; exact hne)⟩

/-- The reader passes a command. -/
theorem Entries.passCmd (h : Entries s pos hs es) (hp : pos ≠ s.ring.cmdHead) {c : Cmd}
    (hc : Ring.cmdAt C.header s.ring.cmdr pos = some c) :
    ∃ e es', es = e :: es' ∧ e.cmd = some c ∧
      Entries s ((pos + Ring.entLen C.header s.ring.cmdr pos) % C.header.cmdrSize) (hs ++ [e]) es' := by
  obtain ⟨e, es', rfl, -, hcmd, h'⟩ := h.pass hp
  exact ⟨e, es', rfl, hcmd.symm.trans hc, h'⟩

theorem filterMap_markAt (p : Nat) (l : List Ent) : (l.map (markAt p)).filterMap Ent.cmd = l.filterMap Ent.cmd := by
  rw [List.filterMap_map]
  exact List.filterMap_congr fun x _ => Ring.markAt_cmd _ x

/-- The reader passes a padding, and marks it. -/
theorem Entries.passPad (h : Entries s pos hs es) (hp : pos ≠ s.ring.cmdHead)
    (hc : Ring.cmdAt C.header s.ring.cmdr pos = none) :
    ∃ e es', es = e :: es' ∧ e.pos = pos ∧ e.cmd = none ∧
      Entries { s with ring := Ring.setDone C.header s.ring pos }
        ((pos + Ring.entLen C.header s.ring.cmdr pos) % C.header.cmdrSize) ((hs ++ [e]).map (markAt pos))
        (es'.map (markAt pos)) := by
  obtain ⟨e, es', rfl, rfl, hcmd, h'⟩ := h.pass hp
  have hmem : e ∈ hs ++ [e] := List.mem_append_right _ (List.mem_singleton.mpr rfl)
  refine ⟨e, es', rfl, rfl, hcmd.symm.trans hc, h'.setDone (List.mem_append_left _ hmem) rfl id (fun _ => hmem)
    fun t hwk hrel => ⟨hwk, hrel, rfl, rfl, fun hse => ?_⟩⟩
  obtain ⟨x, hx, hpos, -, c, hxc, -⟩ := h.entry t hwk hrel
  have := h.cmdAt hx
  rw [hpos, hse, hc, hxc] at this
  cases this

/-- The tid of a request whose entry is in front of the reader. -/
theorem Entries.ahead (h : Entries s pos hs es) {t : C.Tag} (hwk : (s.rqs t).wk = .published)
    (hrel : ∀ x, (s.threads x).releases ≠ some t) {e : Ent} (he : e ∈ es) (hpos : e.pos = (s.rqs t).se) :
    ∃ c ∈ es.filterMap Ent.cmd, c.privData = (s.rqs t).tid := by
  obtain ⟨x, hx, hxpos, -, c, hc, htid⟩ := h.entry t hwk hrel
  have h₁ := h.cmdAt hx
  rw [hxpos, ← hpos, h.cmdAt (List.mem_append_right _ he), hc] at h₁
  exact ⟨c, List.mem_filterMap.mpr ⟨e, he, h₁⟩, htid⟩

/-- `advance_cmd_ring` moves nothing but the tail. -/
theorem advanceLoop_eq (H : Header) (fuel : Nat) (r : CmdRing) :
    ∃ t, Ring.advanceLoop H fuel r = { r with cmdTail := t } := by
  induction fuel generalizing r with
  | zero => exact ⟨r.cmdTail, rfl⟩
  | succ fuel ih =>
    unfold Ring.advanceLoop
    split
    · exact ⟨r.cmdTail, rfl⟩
    · split
      · obtain ⟨t, ht⟩ := ih { r with
          cmdTail := Ring.updateCmdrTail r.cmdTail (Ring.entLen H r.cmdr _) H.cmdrSize }
        exact ⟨t, ht⟩
      · exact ⟨r.cmdTail, rfl⟩

theorem mem_dropWhile {α : Type} {p : α → Bool} {l : List α} {a : α} (h : a ∈ l) (ha : p a = false) :
    a ∈ l.dropWhile p := by
  rw [← List.takeWhile_append_dropWhile (p := p) (l := l)] at h
  refine (List.mem_append.mp h).resolve_left fun ht => ?_
  rw [List.mem_takeWhile_imp ht] at ha
  cases ha

theorem Entries.advance (h : Entries s pos hs es) (hring : s'.ring = Ring.advanceCmdRing C.header s.ring)
    (hsp : Spliced s ↔ Spliced s') (hentry : ∀ t, (s'.rqs t).wk = .published →
      (∀ x, (s'.threads x).releases ≠ some t) → (s.rqs t).wk = .published ∧
        (∀ x, (s.threads x).releases ≠ some t) ∧ (s'.rqs t).se = (s.rqs t).se ∧ (s'.rqs t).tid = (s.rqs t).tid) :
    ∃ hs', Entries s' pos hs' es ∧ (¬ Spliced s → hs' = hs.dropWhile Ent.done) := by
  obtain ⟨start, hrep, hfront, hn⟩ := h.trail
  obtain ⟨t, ht⟩ := advanceLoop_eq C.header (Ring.maxEntries C.header) s.ring
  by_cases hs' : Spliced s
  · refine ⟨hs, ⟨⟨start, ?_, hfront, fun hns => absurd (hsp.mp hs') hns⟩, fun u hwk hrel => ?_⟩,
      fun hns => absurd hs' hns⟩
    · rw [hring, show Ring.advanceCmdRing C.header s.ring = { s.ring with cmdTail := t } from ht]
      exact hrep
    · obtain ⟨hwk, hrel, hse, htid⟩ := hentry u hwk hrel
      unfold Posted
      rw [hse, htid]
      exact h.entry u hwk hrel
  · obtain ⟨rfl, hundone⟩ := hn hs'
    obtain ⟨t, ht, hrep'⟩ := hrep.advanceCmdRing
    have hdrop : (hs ++ es).dropWhile Ent.done = hs.dropWhile Ent.done ++ es := by
      rw [List.dropWhile_append]
      split
      · rename_i hnil
        rw [List.isEmpty_iff.mp hnil, List.nil_append]
        cases es with
        | nil => rfl
        | cons e es => rw [List.dropWhile_cons, hundone e (List.mem_cons_self ..), if_neg nofun]
      · rfl
    refine ⟨hs.dropWhile Ent.done, ⟨⟨t, ?_, ?_, fun _ => ⟨by rw [hring, ht], hundone⟩⟩, fun u hwk hrel => ?_⟩,
      fun _ => rfl⟩
    · rw [hring, ht, ← hdrop]
      exact hrep'
    · have hc := hrep'.chain
      rw [hdrop, List.map_append] at hc
      obtain ⟨p, hp, hc⟩ := chain_append.mp hc
      rwa [h.rest.start_unique hc]
    · obtain ⟨hwk, hrel, hse, htid⟩ := hentry u hwk hrel
      obtain ⟨x, hx, hpos, hdone, hc⟩ := h.entry u hwk hrel
      refine ⟨x, ?_, by rw [hse]; exact hpos, hdone, by rw [htid]; exact hc⟩
      rw [← hdrop]
      exact mem_dropWhile hx hdone

/-! ### Publications -/

/-- The command of a request that is to be submitted. -/
theorem cmdOf_ok (hsize : C.pageSize < 2 ^ 64) (ho : Own s) (h : Holding s) (htid : s.reqTid < 2 ^ 64) {t : C.Tag}
    (hwk : (s.rqs t).wk = .inserted) : (cmdOf s t).Ok := by
  have hwants := h.wants t (ho.not_releases (by rw [hwk]; nofun))
  have hop := (h.known t).op (by rw [hwk]; nofun)
  have hcnt := (h.known t).cnt (by rw [hwk]; rfl)
  rw [hwk] at hwants
  have hlen : (s.pages.reqs t).pi.length = _ := Has.length hwants
  have hle : ((s.rqs t).req.seIov C.dataOff (s.pages.reqs t).pi).length ≤ maxSegments := by
    have := (s.rqs t).req.segs_le
    rw [← Request.length_segments] at this
    rw [Request.seIov, List.length_zipWith]
    omega
  refine ⟨fun hpad => ?_, inc64_lt htid, Nat.mod_lt _ (Nat.two_pow_pos 64), (s.rqs t).req.bytes_lt, fun v hv => ?_, hle⟩
  · rw [show (s.rqs t).op = .pad from hpad] at hop
    unfold ubbdOp at hop
    split at hop <;> cases hop
  · obtain ⟨k, hk, rfl⟩ := List.getElem_of_mem hv
    have hk' : k < (s.rqs t).req.segments.length := by
      have : k < ((s.rqs t).req.seIov C.dataOff (s.pages.reqs t).pi).length := hk
      rw [Request.seIov, List.length_zipWith] at this
      omega
    obtain ⟨bio, hbio, hbv⟩ := List.mem_flatten.mp (List.getElem_mem hk')
    have hsingle := (s.rqs t).req.single bio hbio _ hbv
    simp only [cmdOf, Request.seCmd, Request.seIov, List.getElem_zipWith]
    exact ⟨Nat.mod_lt _ (Nat.two_pow_pos 64), by omega⟩

/-- A request is published: its entry is in front of the reader, behind all
others. -/
theorem Entries.publish (h : Entries s pos hs es) (hns : ¬ Spliced s) {t : C.Tag} (hc : (cmdOf s t).Ok) {ring : CmdRing}
    (hr : Ring.submit C.header s.ring (cmdOf s t) = some ring) (hring : s'.ring = ring)
    (hth : s'.threads = s.threads) (ht : (s'.rqs t).se = Ring.sePos C.header s.ring (cmdOf s t) ∧
      (s'.rqs t).tid = inc64 s.reqTid) (hother : ∀ u, u ≠ t → s'.rqs u = s.rqs u) :
    ∃ ps e, Ring.Pad ps ∧ e.cmd = some (cmdOf s t) ∧ e.done = false ∧ e.pos = (s'.rqs t).se ∧
      Entries s' pos hs (es ++ (ps ++ [e])) := by
  obtain ⟨start, hrep, hfront, hn⟩ := h.trail
  obtain ⟨rfl, hundone⟩ := hn hns
  rw [Ring.submit] at hr
  split at hr <;> [skip; cases hr]
  rename_i henough
  cases hr
  obtain ⟨ps, hps, hrep, -, hfit, hroom⟩ :=
    Rep.insertPadding hrep (C.header.cmdr_add_cmdSize_lt hc.segs) henough
  obtain ⟨hrep, -⟩ := hrep.publish hc ⟨hfit, hroom⟩
  have htail : (Ring.publish C.header
      (Ring.insertPadding C.header s.ring (C.header.ubbdGetCmdSize (cmdOf s t).iov.length)) (cmdOf s t)).cmdTail =
      s.ring.cmdTail := by
    unfold Ring.publish Ring.insertPadding
    split <;> rfl
  have hlist : hs ++ (es ++ (ps ++ [cmdEnt C.header (Ring.sePos C.header s.ring (cmdOf s t)) (cmdOf s t)])) =
      hs ++ es ++ ps ++ [cmdEnt C.header (Ring.sePos C.header s.ring (cmdOf s t)) (cmdOf s t)] := by
    simp only [List.append_assoc]
  refine ⟨ps, cmdEnt C.header (Ring.sePos C.header s.ring (cmdOf s t)) (cmdOf s t), hps, rfl, rfl, ht.1.symm,
    ⟨⟨s.ring.cmdTail, ?_, hfront, fun _ => ⟨?_, fun e he => ?_⟩⟩, fun u hwk hrel => ?_⟩⟩
  · rw [hlist, hring, ← htail]
    exact hrep
  · rw [hring, htail]
  · rcases List.mem_append.mp he with he | he
    · exact hundone e he
    · rcases List.mem_append.mp he with he | he
      · exact (hps e he).2
      · rw [List.mem_singleton.mp he]
        rfl
  · rw [hlist]
    by_cases hut : u = t
    · subst hut
      refine ⟨_, List.mem_append_right _ (List.mem_singleton.mpr rfl), ht.1.symm, rfl, _, rfl, ?_⟩
      rw [ht.2]
      rfl
    · rw [hother u hut] at hwk ⊢
      rw [hth] at hrel
      obtain ⟨x, hx, hent⟩ := h.entry u hwk hrel
      exact ⟨x, List.mem_append_left _ (List.mem_append_left _ hx), hent⟩

/-! ## Steps -/

/-- A request that is published after a step of a request was so before, but
for the step that publishes it. -/
theorem WkStep.published {t : C.Tag} {l : WkLabel C} (hs : WkStep s t l s') (hl : l ≠ .submit) {u : C.Tag}
    (hu : (s'.rqs u).wk = .published) : s'.rqs u = s.rqs u := by
  by_cases hut : u = t
  · subst hut
    cases hs with
    | refused wk => rfl
    | rqStart wk r =>
      obtain ⟨op, w, hw, heq⟩ := startRq_eq s u r
      rw [heq, State.setRq_rqs, if_pos rfl] at hu
      rcases hw with rfl | rfl <;> cases hu
    | publish wk ring se => exact absurd rfl hl
    | _ => simp [State.setWk_rqs, State.setRq_rqs] at hu
  · exact hs.other hut

/-- A request that is published and not released after a step of a thread was
so before. -/
theorem ThStep.published {x : Nat} {l : ThLabel} (hs : ThStep s x l s') {u : C.Tag}
    (hwk : (s'.rqs u).wk = .published) (hrel : ∀ y, (s'.threads y).releases ≠ some u) :
    (s.rqs u).wk = .published ∧ (∀ y, (s.threads y).releases ≠ some u) ∧ (s'.rqs u).se = (s.rqs u).se ∧
      (s'.rqs u).tid = (s.rqs u).tid := by
  obtain ⟨-, -, -, htid, hse, -⟩ := thStep_rqs hs u
  have hold : (s.rqs u).wk = .published := by
    rcases (hs.wk u).2 with h | ⟨h, h'⟩
    · rwa [← h]
    · rw [hwk] at h'
      cases h'
  refine ⟨hold, ?_, hse, htid⟩
  cases hs with
  | back l call pc => exact hrel
  | released t by_ pc idle =>
    have hx := hrel x
    rw [State.setPc_threads, if_pos rfl] at hx
    exact releases_setPc hrel (by rw [pc]; exact hx)
  | finish t by_ pc =>
    refine releases_setPc hrel ?_
    rw [pc]
    intro htu
    obtain rfl : t = u := Option.some.inj htu
    have hwk : ((finishRq s t by_).rqs t).wk = .published := hwk
    rw [finishRq_wk by_ hold, if_pos rfl] at hwk
    cases hwk
  | mark t by_ pc => exact releases_setPc (s := s) hrel (by rw [pc]; exact nofun)
  | remFlushed force snap pc flushed => exact releases_setPc hrel (by rw [pc]; exact nofun)
  | advance by_ pc => exact releases_setPc (s := s) hrel (by rw [pc]; exact nofun)
  | _ => exact releases_setPc (s := s) hrel (by simp only [*]; exact nofun)

/-- The command that a step publishes. -/
def published (s : State C) (a : Label C) (s' : State C) : List Cmd :=
  match a with
  | .rq t .submit => if (s'.rqs t).wk = .published then [cmdOf s t] else []
  | _ => []

/-- A thread marks the entry of the request it has. -/
theorem Entries.mark (ht : Traced s) (h : Entries s pos hs es) {x : Nat} {t : C.Tag} {by_ : By}
    (pc : s.threads x = .mark t by_) (hmark : ¬ Spliced s → ∀ e ∈ es, e.pos ≠ (s.rqs t).se)
    (hs' : ThStep s x .mark s') (hring : s'.ring = Ring.setDone C.header s.ring (s.rqs t).se)
    (hx : s'.threads x = .release t by_) (hsp : Spliced s → Spliced s') :
    Entries s' pos (hs.map (markAt (s.rqs t).se)) (es.map (markAt (s.rqs t).se)) := by
  obtain ⟨hwk, -⟩ := ht.own.of_holds (x := x) (t := t) (by rw [pc]; rfl)
  obtain ⟨e, he, hpos, hdone, c, hcmd, hc⟩ := h.entry t hwk (ht.own.unreleased pc)
  rw [← hpos] at hring ⊢
  refine h.setDone he hring hsp (fun hns => ?_) fun u hu hrel => ?_
  · refine (List.mem_append.mp he).resolve_right fun hmem => ?_
    exact hmark (fun h => hns (hsp h)) e hmem hpos
  · have hux := hrel x
    obtain ⟨hu, hrel, hse, htid⟩ := hs'.published hu hrel
    refine ⟨hu, hrel, hse, htid, fun heq => hux ?_⟩
    -- the entry at that place has the tid of `t`
    obtain ⟨e', he', hpos', -, c', hcmd', hc'⟩ := h.entry u hu hrel
    have hcc : c' = c := by
      have h₁ := h.cmdAt he'
      have h₂ := h.cmdAt he
      rw [hpos', heq, h₂, hcmd, hcmd'] at h₁
      exact (Option.some.inj h₁).symm
    have hpub := ht.recorded.tid_inj (ht.recorded.published u (by rw [hu]; rfl))
      (ht.recorded.published t (by rw [hwk]; rfl)) (by show (s.rqs u).tid = (s.rqs t).tid; rw [← hc', ← hc, hcc])
    obtain rfl : u = t := congrArg Pub.tag hpub
    rw [hx]
    rfl

/-- How the entries change: not at all, or by a publication, a mark, or an advance
of the tail. -/
inductive Moved (s : State C) (a : Label C) (s' : State C) (hs es : List Ent) : List Ent → List Ent → Prop
  | same (mark : ∀ x, a ≠ .th x .mark) (advance : ∀ x, a ≠ .th x .advance) : Moved s a s' hs es hs es
  | publish (t : C.Tag) (ps : List Ent) (e : Ent) (label : a = .rq t .submit) (wk : (s'.rqs t).wk = .published)
      (pad : Ring.Pad ps) (cmd : e.cmd = some (cmdOf s t)) (undone : e.done = false) (pos : e.pos = (s'.rqs t).se) :
      Moved s a s' hs es hs (es ++ (ps ++ [e]))
  | mark (x : Nat) (t : C.Tag) (by_ : By) (label : a = .th x .mark) (pc : s.threads x = .mark t by_)
      (pc' : s'.threads x = .release t by_) :
      Moved s a s' hs es (hs.map (markAt (s.rqs t).se)) (es.map (markAt (s.rqs t).se))
  | advance (x : Nat) (label : a = .th x .advance) : Moved s a s' hs es (hs.dropWhile Ent.done) es

/-- Every step but those of the reader keeps the entries, and puts the command
it publishes behind them, if completions mark only entries the reader has
passed. -/
theorem entries_step {a : Label C} (hsize : C.pageSize < 2 ^ 64) (hr : Regular s) (h : Entries s pos hs es)
    (hs' : step s a = some s') (hpad : ∀ p, a ≠ .pad p)
    (hmark : ∀ x t by_, a = .th x .mark → s.threads x = .mark t by_ → ¬ Spliced s →
      ∀ e ∈ es, e.pos ≠ (s.rqs t).se) :
    ∃ hs' es', Entries s' pos hs' es' ∧ es'.filterMap Ent.cmd = es.filterMap Ent.cmd ++ published s a s' ∧
      (¬ Spliced s → Moved s a s' hs es hs' es') := by
  have hsp : Spliced s → Spliced s' := fun h => h.step hs'
  cases step_cases hs' with
  | rq hw =>
    rename_i t l
    by_cases hl : l = .submit
    · subst hl
      have hst : stepWk s t .submit = some s' := hs'
      simp only [stepWk] at hst
      split at hst <;> [skip; cases hst]
      rename_i hwk
      rw [Option.some.injEq] at hst
      have htid : s.reqTid < 2 ^ 64 := by
        rw [hr.traced.recorded.reqTid]
        exact hr.few
      cases hsub : Ring.submit C.header s.ring (cmdOf s t) with
      | none =>
        rw [hsub] at hst
        subst hst
        refine ⟨hs, es, h.frame rfl hsp fun u hu hrel => ?_, ?_,
          fun _ => .same (fun _ he => by cases he) fun _ he => by cases he⟩
        · have hut : u ≠ t := by
            rintro rfl
            rw [publishRq, State.setWk_rqs, if_pos rfl] at hu
            cases hu
          have heq : (publishRq s t (inc64 s.reqTid) (Ring.sePos C.header s.ring (cmdOf s t)) none).rqs u = s.rqs u :=
            (State.setWk_rqs ..).trans (if_neg hut)
          rw [heq] at hu ⊢
          exact ⟨hu, hrel, rfl, rfl⟩
        · show _ = _ ++ if ((s.setWk t .full).rqs t).wk = .published then _ else _
          rw [State.setWk_rqs, if_pos rfl, if_neg (show ¬ Wk.full = .published by decide), List.append_nil]
      | some ring =>
        rw [hsub] at hst
        have hns : ¬ Spliced s := fun hspl => by
          have := (hr.awaited.quiet hspl).2 t
          rw [hwk] at this
          cases this
        have hrq : s'.rqs t = { s.rqs t with
            tid := inc64 s.reqTid, se := Ring.sePos C.header s.ring (cmdOf s t), wk := .published } := by
          rw [← hst]
          exact (State.setRq_rqs ..).trans (if_pos rfl)
        obtain ⟨ps, e, hps, hcmd, hdone, hpos, hes⟩ : ∃ ps e, Ring.Pad ps ∧ e.cmd = some (cmdOf s t) ∧
            e.done = false ∧ e.pos = (s'.rqs t).se ∧ Entries s' pos hs (es ++ (ps ++ [e])) :=
          h.publish hns (cmdOf_ok hsize hr.traced.own hr.holding htid hwk) hsub (by rw [← hst]; rfl)
            (by rw [← hst]; rfl) (by rw [hrq]; exact ⟨rfl, rfl⟩) fun u hut => by
              rw [← hst]
              exact (State.setRq_rqs ..).trans (if_neg hut)
        refine ⟨hs, _, hes, ?_, fun _ => .publish t ps e rfl (by rw [hrq]) hps hcmd hdone hpos⟩
        have hnil : ps.filterMap Ent.cmd = [] := List.filterMap_eq_nil_iff.mpr fun p hp => (hps p hp).1
        rw [List.filterMap_append, List.filterMap_append, hnil, published, hrq, if_pos rfl,
          List.filterMap_cons_some hcmd]
        rfl
    · have hpub : published s (.rq t l) s' = [] := by
        cases l <;> first | rfl | exact absurd rfl hl
      rw [hpub, List.append_nil]
      refine ⟨hs, es, h.frame ?_ hsp fun u hu hrel => ?_, rfl,
        fun _ => .same (fun _ he => by cases he) fun _ he => by cases he⟩
      · cases hw with
        | rqStart wk r =>
          obtain ⟨op, w, -, heq⟩ := startRq_eq s t r
          rw [heq]
          rfl
        | publish => exact absurd rfl hl
        | _ => rfl
      · have heq := hw.published hl hu
        rw [heq] at hu ⊢
        rw [hw.control.2.1] at hrel
        exact ⟨hu, hrel, rfl, rfl⟩
  | th hx =>
    rename_i x l
    rw [show published s (.th x l) s' = [] from rfl, List.append_nil]
    have hx' := hx
    cases hx with
    | mark t by_ pc =>
      have hpc : (s.setPc x (.release t by_)).threads x = .release t by_ := (State.setPc_threads ..).trans (if_pos rfl)
      exact ⟨_, _, h.mark hr.traced pc (hmark x t by_ rfl pc) hx' rfl hpc hsp, filterMap_markAt _ es,
        fun _ => .mark x t by_ rfl pc hpc⟩
    | advance by_ pc =>
      have hback : Spliced { s.setPc x by_.next with ring := Ring.advanceCmdRing C.header s.ring } → Spliced s := by
        rintro ⟨y, hy⟩
        have hy : ((s.setPc x by_.next).threads y).ending = true ∨ (s.setPc x by_.next).threads y = .removed true := hy
        rw [State.setPc_threads] at hy
        refine ⟨y, ?_⟩
        split at hy
        · rename_i hyx
          rw [hyx, pc]
          cases by_ with
          | entry tid => rcases hy with h | h <;> cases h
          | removal => exact .inl rfl
        · exact hy
      obtain ⟨hs₁, h₁, hdrop⟩ := h.advance rfl ⟨hsp, hback⟩ fun u hu hrel => hx'.published hu hrel
      refine ⟨hs₁, es, h₁, rfl, fun hns => ?_⟩
      rw [hdrop hns]
      exact .advance x rfl
    | back l call pc =>
      refine ⟨hs, es, h, rfl, fun _ => .same (fun y he => ?_) fun y he => ?_⟩
      · cases he
        cases call
      · cases he
        cases call
    | _ =>
      exact ⟨hs, es, h.frame rfl hsp fun u hu hrel => hx'.published hu hrel, rfl,
        fun _ => .same (fun _ he => by cases he) fun _ he => by cases he⟩
  | pad p ring => exact absurd rfl (hpad p)
  | _ =>
    exact ⟨hs, es, h.frame rfl hsp fun u hu hrel => ⟨hu, hrel, rfl, rfl⟩, (List.append_nil _).symm,
      fun _ => .same (fun _ he => by cases he) fun _ he => by cases he⟩

end Ubbd.Queue

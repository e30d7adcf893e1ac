import UbbdKernel.Queue.Entries

/-!
# The space of the command ring

Commands complete in any order, and `advance_cmd_ring` gives back the space of
the DONE entries in front. Each thread marks its entry before it calls
`advance_cmd_ring`, so unless one is on its way there the first command in the
ring is not DONE (`Tidy.front`), and a command that is not DONE is that of a
request that is still published (`Tidy.owner`). Paddings do not hold the others
up: the reader has marked those it has passed, and none is the last entry.
-/

namespace Ubbd.Queue

open Ubbd.Ring (Ent markAt)

variable {C : Conf} {s s' : State C}

/-- The thread has marked an entry, and will call `advance_cmd_ring`. -/
def Pc.advances : Pc C → Bool
  | .release _ _ | .finish _ _ | .advance _ => true
  | _ => false

/-- The request is published, and no thread has begun to release it. -/
def Unmarked (s : State C) (t : C.Tag) : Prop :=
  (s.rqs t).wk = .published ∧ ∀ x, (s.threads x).releases ≠ some t

/-- The first command is not DONE. -/
def Waits (l : List Ent) : Prop := ∀ e, l.find? (fun e => e.cmd.isSome) = some e → e.done = false

/-- The reader has passed `hs`, and `es` are in front of it. -/
structure Tidy (s : State C) (hs es : List Ent) : Prop where
  pads : ∀ e ∈ hs, e.cmd = none → e.done = true
  last : ∀ e, (hs ++ es).getLast? = some e → e.cmd.isSome = true
  owner : ∀ e ∈ hs ++ es, e.cmd.isSome = true → e.done = false → ∃ t, Unmarked s t ∧ (s.rqs t).se = e.pos
  front : (∃ x, (s.threads x).advances = true) ∨ Waits (hs ++ es)

theorem tidy_init (n r : Nat) : Tidy (initState C n r) [] [] where
  pads := nofun
  last := nofun
  owner := nofun
  front := .inr nofun

/-! ## The first command -/

theorem Waits.publish {l ps : List Ent} {e : Ent} (h : Waits l) (hps : Ring.Pad ps) (he : e.done = false) :
    Waits (l ++ (ps ++ [e])) := by
  intro x hx
  have hnone : ps.find? (fun e => e.cmd.isSome) = none :=
    List.find?_eq_none.mpr fun p hp => by rw [(hps p hp).1]; decide
  rw [List.find?_append, List.find?_append, hnone, Option.none_or] at hx
  rcases Option.or_eq_some_iff.mp hx with hx | ⟨-, hx⟩
  · exact h x hx
  · rw [List.mem_singleton.mp (List.mem_of_find?_eq_some hx)]
    exact he

/-- Past the DONE entries in front, where the paddings that were passed are DONE. -/
theorem waits_dropWhile {hs es : List Ent} (hpads : ∀ e ∈ hs, e.cmd = none → e.done = true)
    (hes : ∀ e ∈ es, e.done = false) : Waits (hs.dropWhile Ent.done ++ es) := by
  intro x hx
  cases hd : hs.dropWhile Ent.done with
  | nil =>
    rw [hd, List.nil_append] at hx
    exact hes x (List.mem_of_find?_eq_some hx)
  | cons e r =>
    have hdone : e.done = false := by
      have := List.head?_dropWhile_not Ent.done hs
      rw [hd] at this
      simpa using this
    have hmem : e ∈ hs := (List.dropWhile_sublist _).subset (hd ▸ List.mem_cons_self ..)
    have hcmd : e.cmd.isSome = true := by
      refine Option.isSome_iff_ne_none.mpr fun hn => ?_
      rw [hpads e hmem hn] at hdone
      cases hdone
    simp only [hd, List.cons_append, List.find?_cons, hcmd] at hx
    rw [← Option.some.inj hx]
    exact hdone

/-! ## Steps -/

/-- Only its mark makes a published request one that is released. -/
theorem Unmarked.step {a : Label C} {u : C.Tag} (h : Unmarked s u) (hs : Queue.step s a = some s')
    (hm : ∀ x by_, a = .th x .mark → s.threads x ≠ .mark u by_) :
    Unmarked s' u ∧ (s'.rqs u).se = (s.rqs u).se := by
  obtain ⟨hwk, hrel⟩ := h
  cases step_cases hs with
  | rq hw =>
    rename_i t l
    have hut : u ≠ t := fun he => hw.wk_ne (he ▸ hwk)
    rw [Unmarked, hw.control.2.1, hw.other hut]
    exact ⟨⟨hwk, hrel⟩, rfl⟩
  | th hx =>
    rename_i x l
    obtain ⟨-, -, -, -, hse, -⟩ := thStep_rqs hx u
    refine ⟨⟨?_, ?_⟩, hse⟩
    · rcases (hx.wk u).2 with heq | ⟨-, hnone⟩
      · rw [heq, hwk]
      · -- only the end of the request takes it from PUBLISHED
        exfalso
        cases hx with
        | finish t by_ pc =>
          have hut : u ≠ t := by
            rintro rfl
            have := hrel x
            rw [pc] at this
            exact this rfl
          have hnone : ((finishRq s t by_).rqs u).wk = .none := hnone
          rw [finishRq, State.setWk_rqs, if_neg hut, hwk] at hnone
          cases hnone
        | released t by_ pc idle =>
          have hsame : ((s.setRq t { s.rqs t with heapPi := false }).rqs u).wk = (s.rqs u).wk :=
            State.setRq_field (r := { s.rqs t with heapPi := false }) Rq.wk rfl u
          exact absurd (hwk.symm.trans (hsame.symm.trans hnone)) (by decide)
        | _ => exact absurd (hwk.symm.trans hnone) (by decide)
    · have hmove : ∀ {pc : Pc C}, pc.releases ≠ some u → ∀ y, ((s.setPc x pc).threads y).releases ≠ some u :=
        fun hpc => forall_setPc (P := fun _ pc => pc.releases ≠ some u) hpc fun y _ => hrel y
      have hx' := hrel x
      cases hx with
      | back l call pc => exact hrel
      | mark t by_ pc => exact hmove fun he => hm x by_ rfl (Option.some.inj he ▸ pc)
      | released t by_ pc idle =>
        rw [pc] at hx'
        exact hmove hx'
      | remFlushed force snap pc flushed => exact hmove (by cases force <;> exact (Option.some_ne_none u).symm)
      | advance by_ pc => exact hmove (by cases by_ <;> exact (Option.some_ne_none u).symm)
      | _ => exact hmove (Option.some_ne_none u).symm
  | _ => exact ⟨⟨hwk, hrel⟩, rfl⟩

/-- Who has marked an entry goes on until it calls `advance_cmd_ring`. -/
theorem advances_step {a : Label C} (hs : step s a = some s') (ha : ∀ x, a ≠ .th x .advance) {y : Nat}
    (hy : (s.threads y).advances = true) : (s'.threads y).advances = true := by
  cases step_cases hs with
  | rq hw =>
    rw [hw.control.2.1]
    exact hy
  | th hx =>
    rename_i x l
    have hmove : ∀ {pc : Pc C}, ((s.threads x).advances = true → pc.advances = true) →
        ((s.setPc x pc).threads y).advances = true := by
      intro pc hpc
      rw [State.setPc_threads]
      split
      · rename_i hyx
        exact hpc (hyx ▸ hy)
      · exact hy
    cases hx with
    | back l call pc => exact hy
    | advance by_ pc => exact absurd rfl (ha x)
    | mark | released | finish => exact hmove fun _ => rfl
    | _ =>
      refine hmove fun hadv => ?_
      simp only [*] at hadv
      cases hadv
  | _ => exact hy

theorem getLast?_map_markAt {p : Nat} {l : List Ent} {e : Ent} (h : (l.map (markAt p)).getLast? = some e) :
    ∃ x, l.getLast? = some x ∧ e = markAt p x := by
  rw [List.getLast?_map] at h
  obtain ⟨x, hx, rfl⟩ := Option.map_eq_some_iff.mp h
  exact ⟨x, hx, rfl⟩

theorem markAt_done {p : Nat} {e : Ent} (h : (markAt p e).done = false) : e.done = false ∧ e.pos ≠ p := by
  unfold markAt at h
  split at h
  · cases h
  · exact ⟨h, ‹_›⟩

theorem done_markAt {p : Nat} {e : Ent} (h : e.done = true) : (markAt p e).done = true := by
  unfold markAt
  split
  · rfl
  · exact h

theorem markAt_pos (p : Nat) (e : Ent) : (markAt p e).pos = e.pos := congrArg Span.pos (Ring.markAt_toSpan p e)

theorem Tidy.step {a : Label C} {hs es hs' es' : List Ent} (h : Tidy s hs es) (ho : Own s)
    (hes : ∀ e ∈ es, e.done = false) (hstep : Queue.step s a = some s') (hm : Moved s a s' hs es hs' es') :
    Tidy s' hs' es' := by
  -- a request that is still unmarked owns its entry
  have howner : ∀ e ∈ hs ++ es, e.cmd.isSome = true → e.done = false →
      (∀ u x by_, (s.rqs u).se = e.pos → a = .th x .mark → s.threads x ≠ .mark u by_) →
      ∃ t, Unmarked s' t ∧ (s'.rqs t).se = e.pos := by
    intro e he hcmd hdone hmark
    obtain ⟨t, ht, hse⟩ := h.owner e he hcmd hdone
    obtain ⟨ht', hse'⟩ := ht.step hstep fun x by_ => hmark t x by_ hse
    exact ⟨t, ht', hse'.trans hse⟩
  cases hm with
  | same mark advance =>
    refine ⟨h.pads, h.last, fun e he hcmd hdone => howner e he hcmd hdone fun _ x _ _ ha => absurd ha (mark x), ?_⟩
    exact h.front.imp_left fun ⟨x, hx⟩ => ⟨x, advances_step hstep advance hx⟩
  | publish t ps e label wk pad cmd undone pos =>
    subst label
    have hcmd : e.cmd.isSome = true := by rw [cmd]; rfl
    refine ⟨h.pads, fun x hx => ?_, fun x hx hxc hxd => ?_, ?_⟩
    · rw [← List.append_assoc, ← List.append_assoc, List.getLast?_append, List.getLast?_singleton, Option.some_or] at hx
      rw [← Option.some.inj hx]
      exact hcmd
    · rw [← List.append_assoc] at hx
      rcases List.mem_append.mp hx with hx | hx
      · exact howner x hx hxc hxd fun _ _ _ _ ha => by cases ha
      · rcases List.mem_append.mp hx with hx | hx
        · rw [(pad x hx).1] at hxc
          cases hxc
        · rw [List.mem_singleton.mp hx]
          refine ⟨t, ⟨wk, fun y => ?_⟩, pos.symm⟩
          cases step_cases hstep with
          | rq hw =>
            rw [hw.control.2.1]
            exact ho.not_releases hw.wk_ne y
    · rw [← List.append_assoc]
      refine h.front.imp (fun ⟨x, hx⟩ => ⟨x, ?_⟩) fun hw => hw.publish pad undone
      exact advances_step hstep (fun _ ha => by cases ha) hx
  | mark x t by_ label pc pc' =>
    refine ⟨fun e he hcmd => ?_, fun e he => ?_, fun e he hcmd hdone => ?_, .inl ⟨x, by rw [pc']; rfl⟩⟩
    · obtain ⟨y, hy, rfl⟩ := List.mem_map.mp he
      rw [Ring.markAt_cmd] at hcmd
      exact done_markAt (h.pads y hy hcmd)
    · rw [← List.map_append] at he
      obtain ⟨y, hy, rfl⟩ := getLast?_map_markAt he
      rw [Ring.markAt_cmd]
      exact h.last y hy
    · rw [← List.map_append] at he
      obtain ⟨y, hy, rfl⟩ := List.mem_map.mp he
      rw [Ring.markAt_cmd] at hcmd
      obtain ⟨hyd, hne⟩ := markAt_done hdone
      rw [markAt_pos]
      refine howner y hy hcmd hyd fun u z b hse ha hz => hne ?_
      rw [label] at ha
      obtain ⟨rfl, -⟩ := Label.th.inj ha
      rw [pc] at hz
      rw [(Pc.mark.inj hz).1]
      exact hse.symm
  | advance x label =>
    have hsub : hs.dropWhile Ent.done ++ es <:+ hs ++ es := ⟨hs.takeWhile Ent.done, by
      rw [← List.append_assoc, List.takeWhile_append_dropWhile]⟩
    refine ⟨fun e he => h.pads e ((List.dropWhile_sublist _).subset he), fun e he => h.last e ?_,
      fun e he hcmd hdone => ?_, .inr (waits_dropWhile h.pads hes)⟩
    · obtain ⟨l, hl⟩ := hsub
      rw [← hl, List.getLast?_append, he, Option.some_or]
    · refine howner e (hsub.subset he) hcmd hdone fun u z b _ ha => ?_
      rw [label] at ha
      cases ha

end Ubbd.Queue

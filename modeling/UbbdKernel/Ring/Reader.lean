import UbbdKernel.Ring.Fifo

/-!
# A reader of the command ring

The backend reads the ring on its own: from a place between tail and head it
goes from entry to entry until it has reached `cmd_head`. `Place H r pos hs es`
says that the entries of the ring are `hs`, which it has passed, and `es`, from
`pos` on, none of them DONE. It keeps its place when entries are appended
(`Place.append`), when an entry it has passed is marked DONE
(`Place.setDone`), and when `advance_cmd_ring` drops such entries
(`Place.advanceCmdRing`); it passes one entry at a time (`Place.pass`), and
where `pos` is the head it has passed them all (`Place.eq_nil`).
-/

namespace Ubbd.Ring

open Circular

variable {H : Header} {r : CmdRing} {es : List Ent}

/-! ## The place of the reader -/

/-- The ring has the entries `hs`, which the reader at `pos` has passed, and
`es`, which it has not. -/
structure Place (H : Header) (r : CmdRing) (pos : Nat) (hs es : List Ent) : Prop where
  rep : Rep H r (hs ++ es)
  front : Chain H.cmdrSize r.cmdTail (hs.map Ent.toSpan) pos
  undone : ∀ e ∈ es, e.done = false

variable {pos : Nat} {hs : List Ent}

theorem Place.rest (h : Place H r pos hs es) : Chain H.cmdrSize pos (es.map Ent.toSpan) r.cmdHead := by
  have hc := h.rep.chain
  rw [List.map_append] at hc
  obtain ⟨p, hp, hc⟩ := chain_append.mp hc
  rw [h.front.end_unique hp]
  exact hc

theorem Place.total_add (h : Place H r pos hs es) :
    total (hs.map Ent.toSpan) + total (es.map Ent.toSpan) < H.cmdrSize := by
  have := h.rep.total_lt
  rwa [List.map_append, total_append] at this

theorem Place.pos_lt (h : Place H r pos hs es) : pos < H.cmdrSize := by
  have ht := h.total_add
  refine (h.front.dist_end h.rep.tail_lt (fun s hs' => ?_) (by omega)).1
  exact h.rep.fits_span s (by rw [List.map_append]; exact List.mem_append_left _ hs')

/-- At the head, the reader has passed all entries. -/
theorem Place.eq_nil (h : Place H r pos hs es) (hp : pos = r.cmdHead) : es = [] := by
  have ht := h.total_add
  have hf : ∀ s ∈ es.map Ent.toSpan, s.Fits H.cmdrSize := fun s hs' =>
    h.rep.fits_span s (by rw [List.map_append]; exact List.mem_append_right _ hs')
  have hd := (h.rest.dist_end h.pos_lt hf (by omega)).2
  rw [hp, dist_self] at hd
  cases es with
  | nil => rfl
  | cons e es =>
    have := (hf e.toSpan (List.mem_cons_self ..)).1
    rw [List.map_cons, total_cons] at hd
    omega

/-- The reader passes the entry at its place. -/
theorem Place.pass (h : Place H r pos hs es) (hp : pos ≠ r.cmdHead) :
    ∃ e es', es = e :: es' ∧ cmdAt H r.cmdr pos = e.cmd ∧
      Place H r ((pos + entLen H r.cmdr pos) % H.cmdrSize) (hs ++ [e]) es' := by
  cases es with
  | nil => exact absurd h.rest hp
  | cons e es =>
    have hat := h.rep.at_ e (List.mem_append_right _ (List.mem_cons_self ..))
    have hpos : e.pos = pos := h.rest.1
    have hlen := hat.len
    have hcmd := hat.cmd
    rw [hpos] at hlen hcmd
    refine ⟨e, es, rfl, hcmd, ?_, ?_, fun x hx => h.undone x (List.mem_cons_of_mem _ hx)⟩
    · rw [List.append_assoc]
      exact h.rep
    · rw [List.map_append, hlen]
      exact h.front.snoc hpos

/-- Entries are appended. -/
theorem Place.append (h : Place H r pos hs es) {r' : CmdRing} {xs : List Ent} (hr : Rep H r' (hs ++ es ++ xs))
    (ht : r'.cmdTail = r.cmdTail) (hx : ∀ x ∈ xs, x.done = false) : Place H r' pos hs (es ++ xs) := by
  refine ⟨by rwa [← List.append_assoc], ht ▸ h.front, fun e he => ?_⟩
  rcases List.mem_append.mp he with he | he
  · exact h.undone e he
  · exact hx e he

/-- The entries the reader has passed, as a ring of their own. -/
theorem Place.passed (h : Place H r pos hs es) : Rep H { r with cmdHead := pos } hs := by
  have hmem : ∀ e ∈ hs, e ∈ hs ++ es := fun e he => List.mem_append_left _ he
  refine ⟨h.front, h.rep.tail_lt, ?_, fun e he => h.rep.fits e (hmem e he), fun e he => h.rep.dvd e (hmem e he),
    ?_, fun e he => h.rep.at_ e (hmem e he)⟩
  · refine h.rest.dvd_start H.align_cmdr h.rep.head_dvd fun s hs' => ?_
    obtain ⟨e, he, rfl⟩ := List.mem_map.mp hs'
    exact h.rep.dvd e (List.mem_append_right _ he)
  · have := h.rep.room
    rw [List.map_append, total_append] at this
    omega

/-- The entries between the tail and the reader are those it has passed. -/
theorem Place.mem_walk (h : Place H r pos hs es) {p : Nat} :
    p ∈ walkLoop H r.cmdr pos (maxEntries H) r.cmdTail ↔ ∃ e ∈ hs, e.pos = p := by
  rw [h.passed.walkLoop h.passed.length_le, List.mem_map]

/-- An entry the reader has passed is marked DONE. -/
theorem Place.setDone (h : Place H r pos hs es) {e : Ent} (he : e ∈ hs) :
    Place H (Ring.setDone H r e.pos) pos (hs.map (markAt e.pos)) es := by
  have hne : ∀ x ∈ es, x.pos ≠ e.pos := fun x hx => h.rep.pos_ne he hx
  have hes : es.map (markAt e.pos) = es := by
    conv_rhs => rw [← List.map_id es]
    refine List.map_congr_left fun x hx => ?_
    rw [markAt, if_neg (hne x hx)]
    rfl
  have hrep := h.rep.setDone (List.mem_append_left es he)
  rw [List.map_append, hes] at hrep
  refine ⟨hrep, ?_, h.undone⟩
  rw [List.map_map, show Ent.toSpan ∘ markAt e.pos = Ent.toSpan from funext (markAt_toSpan _)]
  exact h.front

/-- `advance_cmd_ring` drops entries the reader has passed. -/
theorem Place.advanceCmdRing (h : Place H r pos hs es) :
    (Ring.advanceCmdRing H r).cmdHead = r.cmdHead ∧
      ∃ hs', hs' <:+ hs ∧ Place H (Ring.advanceCmdRing H r) pos hs' es := by
  obtain ⟨t, ht, hrep⟩ := h.rep.advanceCmdRing
  have hdrop : (hs ++ es).dropWhile Ent.done = hs.dropWhile Ent.done ++ es := by
    rw [List.dropWhile_append]
    split
    · rename_i hnil
      rw [List.isEmpty_iff.mp hnil, List.nil_append]
      cases es with
      | nil => rfl
      | cons e es => rw [List.dropWhile_cons, h.undone e (List.mem_cons_self ..), if_neg nofun]
    · rfl
  rw [hdrop] at hrep
  rw [ht]
  refine ⟨rfl, hs.dropWhile Ent.done, List.dropWhile_suffix _, hrep, ?_, h.undone⟩
  have hc := hrep.chain
  rw [List.map_append] at hc
  obtain ⟨p, hp, hc⟩ := chain_append.mp hc
  rwa [h.rest.start_unique hc]

end Ubbd.Ring

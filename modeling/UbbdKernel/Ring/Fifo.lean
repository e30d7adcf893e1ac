import Mathlib.Data.List.Basic
import Mathlib.Data.List.Find
import Mathlib.Data.List.Pairwise
import Mathlib.Data.List.TakeWhile
import UbbdKernel.Framework.Lts
import UbbdKernel.Ring.Entry

/-!
# The command ring is a FIFO queue

`Rep H r es` says that the ring `r` holds the entries `es`, oldest first: they
follow one another from tail to head, none straddles the end of the ring, and
together they leave the reserve free. A submission appends a padding, if the
command does not fit before the end of the ring, and then its entry
(`Rep.submit`); marking an entry DONE changes that entry alone
(`Rep.setDone`); `advance_cmd_ring` drops the entries that are DONE in front
of the first that is not (`Rep.advanceCmdRing`).

A `RingState` also remembers the commands submitted so far and how many of
them were reclaimed. In every run the bytes from tail to head decode to the
commands submitted and not reclaimed (`ring_refines_fifo`).
-/

namespace Ubbd.Ring

open Circular
open Mem (SameOn SameOutside)

variable {H : Header}

/-- The ring `r` holds the entries `es`, oldest first. -/
structure Rep (H : Header) (r : CmdRing) (es : List Ent) : Prop where
  chain : Chain H.cmdrSize r.cmdTail (es.map Ent.toSpan) r.cmdHead
  tail_lt : r.cmdTail < H.cmdrSize
  head_dvd : H.opAlign ∣ r.cmdHead
  fits : ∀ e ∈ es, e.toSpan.Fits H.cmdrSize
  dvd : ∀ e ∈ es, H.opAlign ∣ e.len
  room : total (es.map Ent.toSpan) ≤ H.cmdrSize - H.cmdrReserved
  at_ : ∀ e ∈ es, At H r.cmdr e

section

variable {r : CmdRing} {es : List Ent}

theorem Rep.total_lt (h : Rep H r es) : total (es.map Ent.toSpan) < H.cmdrSize := by
  have h₁ := h.room
  have h₂ := H.reserved_pos
  have h₃ := H.reserved_le
  omega

theorem Rep.fits_span (h : Rep H r es) : ∀ s ∈ es.map Ent.toSpan, s.Fits H.cmdrSize := by
  intro s hs
  obtain ⟨e, he, rfl⟩ := List.mem_map.mp hs
  exact h.fits e he

theorem Rep.dist (h : Rep H r es) :
    r.cmdHead < H.cmdrSize ∧ dist H.cmdrSize r.cmdTail r.cmdHead = total (es.map Ent.toSpan) :=
  h.chain.dist_end h.tail_lt h.fits_span h.total_lt

theorem Rep.align_le (h : Rep H r es) {e : Ent} (he : e ∈ es) : H.opAlign ≤ e.len :=
  Nat.le_of_dvd (h.fits e he).1 (h.dvd e he)

theorem Rep.hdr_le (h : Rep H r es) {e : Ent} (he : e ∈ es) : H.sizeofSeHdr ≤ e.len :=
  H.hdr_le_align.trans (h.align_le he)

/-- A ring with entries has its head away from its tail. -/
theorem Rep.head_ne_tail {e : Ent} (h : Rep H r (e :: es)) : r.cmdTail ≠ r.cmdHead := by
  intro heq
  have hd := h.dist.2
  rw [heq, dist_self, List.map_cons, total_cons] at hd
  have := (h.fits e (List.mem_cons_self ..)).1
  omega

/-- The ring holds at most `maxEntries` entries. -/
theorem Rep.length_le (h : Rep H r es) : es.length ≤ maxEntries H := by
  have hle : (es.map Ent.toSpan).length * H.opAlign ≤ _ := length_mul_le_total fun s hs => by
    obtain ⟨e, he, rfl⟩ := List.mem_map.mp hs
    exact h.align_le he
  rw [List.length_map] at hle
  exact (Nat.le_div_iff_mul_le H.opAlign_pos).mpr (hle.trans h.total_lt.le)

/-- The entries depend on their own bytes only. -/
theorem Rep.congr (h : Rep H r es) {m : Mem} (hs : ∀ x ∈ es, SameOn x.pos x.len r.cmdr m) :
    Rep H { r with cmdr := m } es :=
  ⟨h.chain, h.tail_lt, h.head_dvd, h.fits, h.dvd, h.room, fun e he => (h.at_ e he).congr (h.hdr_le he) (hs e he)⟩

/-- Two parts of the ring have no place in common. -/
theorem Rep.pos_ne {hs : List Ent} (h : Rep H r (hs ++ es)) {e x : Ent} (he : e ∈ hs) (hx : x ∈ es) :
    x.pos ≠ e.pos := by
  have hp := h.chain.pairwise h.tail_lt h.fits_span h.total_lt
  rw [List.map_append, List.pairwise_append] at hp
  have hd := hp.2.2 _ (List.mem_map_of_mem he) _ (List.mem_map_of_mem hx)
  have h1 := (h.fits e (List.mem_append_left _ he)).1
  have h2 := (h.fits x (List.mem_append_right _ hx)).1
  rcases hd with hd | hd
  · omega
  · omega

/-! ## Space -/

/-- `space_used` are the bytes of the entries. -/
theorem Rep.spaceUsed (h : Rep H r es) : spaceUsed H r = total (es.map Ent.toSpan) := by
  obtain ⟨hlt, hd⟩ := h.dist
  have hsize := H.cmdrSize_lt
  have ht := h.tail_lt
  rw [← hd]
  unfold Ring.spaceUsed Circular.dist
  split
  · rw [sub32_eq (by omega) (by omega), if_pos (by omega)]
  · split
    · rw [sub32_eq (by omega) (by omega), add32_eq (by omega), if_neg (by omega)]
      omega
    · rw [if_pos (by omega)]
      omega

theorem spaceMax_eq : spaceMax H = H.cmdrSize - H.cmdrReserved :=
  sub32_eq H.reserved_le H.cmdrSize_lt

/-- The subtraction for `space_available` does not wrap. -/
theorem Rep.spaceAvailable (h : Rep H r es) :
    Ring.spaceAvailable H r + Ring.spaceUsed H r = H.cmdrSize - H.cmdrReserved := by
  have hroom := h.room
  have hsize := H.cmdrSize_lt
  rw [Ring.spaceAvailable, h.spaceUsed, spaceMax_eq, sub32_eq hroom (by omega)]
  omega

/-- `space_needed` is computed without wrapping. -/
theorem Rep.spaceNeeded (h : Rep H r es) {n : Nat} (hn : H.cmdrSize + n < 2 ^ 32) :
    Ring.spaceNeeded H r n =
      if n < H.cmdrSize - r.cmdHead then n else n + (H.cmdrSize - r.cmdHead) := by
  have hlt := h.dist.1
  unfold Ring.spaceNeeded
  rw [sub32_eq (by omega) (by omega), add32_eq (by omega)]
  by_cases hfit : n < H.cmdrSize - r.cmdHead
  · rw [if_pos hfit, if_pos hfit]
  · rw [if_neg hfit, if_neg hfit, sub32_eq (by omega) (by omega)]
    omega

/-! ## The operations -/

/-- Appending an entry, written to the bytes from the head on. -/
theorem Rep.push (h : Rep H r es) {e : Ent} {m : Mem} (hpos : e.pos = r.cmdHead)
    (hf : e.toSpan.Fits H.cmdrSize) (hd : H.opAlign ∣ e.len)
    (hroom : total (es.map Ent.toSpan) + e.len ≤ H.cmdrSize - H.cmdrReserved) (hat : At H m e)
    (hout : SameOutside e.pos e.len r.cmdr m) :
    Rep H ⟨m, next H.cmdrSize r.cmdHead e.len, r.cmdTail⟩ (es ++ [e]) ∧
      ∀ x ∈ es, SameOn x.pos x.len r.cmdr m := by
  have hreserved := H.reserved_pos
  have hle := H.reserved_le
  have hsame : ∀ x ∈ es, SameOn x.pos x.len r.cmdr m := by
    intro x hx
    refine hout.sameOn ?_
    rw [hpos]
    exact h.chain.free h.tail_lt h.fits_span (by omega) (by rw [← hpos]; exact hf.2)
      (List.mem_map_of_mem hx)
  refine ⟨⟨?_, h.tail_lt, ?_, ?_, ?_, ?_, ?_⟩, hsame⟩
  · rw [List.map_append]
    exact h.chain.snoc hpos
  · exact (Nat.dvd_mod_iff H.align_cmdr).mpr (Nat.dvd_add h.head_dvd hd)
  · intro x hx
    rcases List.mem_append.mp hx with hx | hx
    · exact h.fits x hx
    · rw [List.mem_singleton.mp hx]
      exact hf
  · intro x hx
    rcases List.mem_append.mp hx with hx | hx
    · exact h.dvd x hx
    · rw [List.mem_singleton.mp hx]
      exact hd
  · rw [List.map_append, total_append]
    simpa using hroom
  · intro x hx
    rcases List.mem_append.mp hx with hx | hx
    · exact (h.at_ x hx).congr (h.hdr_le hx) (hsame x hx)
    · rw [List.mem_singleton.mp hx]
      exact hat

/-- Reclaiming the oldest entry. -/
theorem Rep.pop {e : Ent} (h : Rep H r (e :: es)) :
    Rep H { r with cmdTail := next H.cmdrSize r.cmdTail e.len } es := by
  obtain ⟨hpos, hc⟩ := h.chain
  have hroom := h.room
  rw [List.map_cons, total_cons] at hroom
  exact ⟨hc, Nat.mod_lt _ (by have := h.tail_lt; omega), h.head_dvd,
    fun x hx => h.fits x (List.mem_cons_of_mem _ hx), fun x hx => h.dvd x (List.mem_cons_of_mem _ hx),
    by omega, fun x hx => h.at_ x (List.mem_cons_of_mem _ hx)⟩

theorem updateCmdrHead_eq {head used : Nat} (h : head < H.cmdrSize) :
    updateCmdrHead head used H.cmdrSize = next H.cmdrSize head used := by
  rw [updateCmdrHead, next, Nat.mod_eq_of_lt h]

theorem updateCmdrTail_eq {tail used : Nat} (h : tail < H.cmdrSize) (hu : tail + used ≤ H.cmdrSize) :
    updateCmdrTail tail used H.cmdrSize = next H.cmdrSize tail used := by
  have hsize := H.cmdrSize_lt
  rw [updateCmdrTail, next, Nat.mod_eq_of_lt h, add32_eq (by omega)]

/-- The padding entries `insert_padding` may add. -/
def Pad (ps : List Ent) : Prop := ∀ p ∈ ps, p.cmd = none ∧ p.done = false

/-- `insert_padding` keeps the entries, appends at most a padding, and leaves
room for the command before the end of the ring. -/
theorem Rep.insertPadding (h : Rep H r es) {n : Nat} (hn : H.cmdrSize + n < 2 ^ 32)
    (hs : submitRingSpaceEnough H r n = true) :
    ∃ ps, Pad ps ∧ Rep H (Ring.insertPadding H r n) (es ++ ps) ∧
      (∀ x ∈ es, SameOn x.pos x.len r.cmdr (Ring.insertPadding H r n).cmdr) ∧
      (Ring.insertPadding H r n).cmdHead + n ≤ H.cmdrSize ∧
      total ((es ++ ps).map Ent.toSpan) + n ≤ H.cmdrSize - H.cmdrReserved := by
  have hhead := h.dist.1
  have hsize := H.cmdrSize_lt
  have hused := h.spaceUsed
  have havail := h.spaceAvailable
  have hneed := h.spaceNeeded hn
  have henough : Ring.spaceNeeded H r n ≤ Ring.spaceAvailable H r := by
    unfold submitRingSpaceEnough at hs
    split at hs
    · cases hs
    · omega
  have hsub : sub32 H.cmdrSize r.cmdHead = H.cmdrSize - r.cmdHead := sub32_eq (by omega) (by omega)
  unfold Ring.insertPadding
  rw [hsub]
  by_cases hfit : H.cmdrSize - r.cmdHead ≥ n
  · rw [if_pos hfit]
    refine ⟨[], by simp [Pad], by simpa using h, fun x _ => SameOn.refl _ _ _, by omega, ?_⟩
    rw [List.append_nil]
    split at hneed <;> omega
  · simp only [if_neg hfit, updateCmdrHead_eq hhead]
    rw [if_neg (by omega)] at hneed
    have hd : H.opAlign ∣ H.cmdrSize - r.cmdHead := Nat.dvd_sub H.align_cmdr h.head_dvd
    have hhdr : H.sizeofSeHdr ≤ H.cmdrSize - r.cmdHead :=
      H.hdr_le_align.trans (Nat.le_of_dvd (by omega) hd)
    obtain ⟨hrep, hsame⟩ := h.push (e := ⟨⟨r.cmdHead, H.cmdrSize - r.cmdHead⟩, none, false⟩) rfl
      ⟨by simp only; omega, by simp only; omega⟩ hd (by simp only; omega)
      (at_padding (m := r.cmdr) hd (by omega) (Nat.sub_le _ _))
      ((Mem.fill_outside _ _ _ _).trans (setHdr_outside _ _ _ _ hhdr))
    refine ⟨_, ?_, hrep, hsame, ?_, ?_⟩
    · intro p hp
      rw [List.mem_singleton.mp hp]
      exact ⟨rfl, rfl⟩
    · simp only [next]
      rw [show r.cmdHead + (H.cmdrSize - r.cmdHead) = H.cmdrSize by omega, Nat.mod_self]
      omega
    · simp only [List.map_append, total_append, List.map_cons, List.map_nil, total_cons, total_nil]
      omega

/-- The entry of a command, at `pos`. -/
def cmdEnt (H : Header) (pos : Nat) (c : Cmd) : Ent :=
  ⟨⟨pos, H.ubbdGetCmdSize c.iov.length⟩, some c, false⟩

/-- A command that fits before the end of the ring and in the free space. -/
structure Reserved (H : Header) (r : CmdRing) (es : List Ent) (c : Cmd) : Prop where
  fits : r.cmdHead + H.ubbdGetCmdSize c.iov.length ≤ H.cmdrSize
  room : total (es.map Ent.toSpan) + H.ubbdGetCmdSize c.iov.length ≤ H.cmdrSize - H.cmdrReserved

/-- Writing and publishing a command for which there is room appends its entry. -/
theorem Rep.publish (h : Rep H r es) {c : Cmd} (hc : c.Ok) (hr : Reserved H r es c) :
    Rep H (Ring.publish H r c) (es ++ [cmdEnt H r.cmdHead c]) ∧
      ∀ x ∈ es, SameOn x.pos x.len r.cmdr (Ring.publish H r c).cmdr := by
  have hfit := hr.fits
  rw [Ring.publish, updateCmdrHead_eq h.dist.1]
  exact h.push (e := cmdEnt H r.cmdHead c) rfl ⟨H.cmdSize_pos hc.segs, hfit⟩ (H.dvd_cmdSize _) hr.room
    (at_submit hc (by omega)) (submit_outside _ _ hc)

/-- An accepted submission appends the entry of its command, after a padding
if need be, and writes to no byte of the entries that are there. -/
theorem Rep.submit (h : Rep H r es) {c : Cmd} (hc : c.Ok) {r' : CmdRing}
    (hs : Ring.submit H r c = some r') :
    (∃ ps e, Pad ps ∧ e.cmd = some c ∧ e.pos = sePos H r c ∧ Rep H r' (es ++ (ps ++ [e]))) ∧
      ∀ x ∈ es, SameOn x.pos x.len r.cmdr r'.cmdr := by
  rw [Ring.submit] at hs
  split at hs <;> [skip; cases hs]
  rename_i henough
  cases hs
  obtain ⟨ps, hps, hrep, hsame, hfit, hroom⟩ := h.insertPadding (H.cmdr_add_cmdSize_lt hc.segs) henough
  obtain ⟨hrep', hsame'⟩ := hrep.publish hc ⟨hfit, hroom⟩
  refine ⟨⟨ps, cmdEnt H (sePos H r c) c, hps, rfl, rfl, ?_⟩, fun x hx a h1 h2 => ?_⟩
  · rw [← List.append_assoc]
    exact hrep'
  · exact (hsame' x (List.mem_append_left _ hx) a h1 h2).trans (hsame x hx a h1 h2)

/-- The entry at `pos` marked DONE. -/
def markAt (pos : Nat) (e : Ent) : Ent := if e.pos = pos then { e with done := true } else e

@[simp] theorem markAt_toSpan (pos : Nat) (e : Ent) : (markAt pos e).toSpan = e.toSpan := by
  unfold markAt
  split <;> rfl

@[simp] theorem markAt_cmd (pos : Nat) (e : Ent) : (markAt pos e).cmd = e.cmd := by
  unfold markAt
  split <;> rfl

/-- Two entries at the same place are the same one. -/
theorem Rep.disjoint_of_ne (h : Rep H r es) {e x : Ent} (he : e ∈ es) (hx : x ∈ es)
    (hne : x.pos ≠ e.pos) : x.toSpan.Disjoint e.toSpan := by
  have hp := h.chain.pairwise h.tail_lt h.fits_span h.total_lt
  exact hp.forall (List.mem_map_of_mem hx) (List.mem_map_of_mem he) fun heq =>
    hne (congrArg Span.pos heq)

theorem Rep.setDone (h : Rep H r es) {e : Ent} (he : e ∈ es) :
    Rep H (Ring.setDone H r e.pos) (es.map (markAt e.pos)) := by
  have hspan : (es.map (markAt e.pos)).map Ent.toSpan = es.map Ent.toSpan := by
    simp [List.map_map, Function.comp_def]
  refine ⟨by rw [hspan]; exact h.chain, h.tail_lt, h.head_dvd, ?_, ?_, by rw [hspan]; exact h.room, ?_⟩
  · intro x hx
    obtain ⟨y, hy, rfl⟩ := List.mem_map.mp hx
    rw [markAt_toSpan]
    exact h.fits y hy
  · intro x hx
    obtain ⟨y, hy, rfl⟩ := List.mem_map.mp hx
    rw [markAt_toSpan]
    exact h.dvd y hy
  · intro x hx
    obtain ⟨y, hy, rfl⟩ := List.mem_map.mp hx
    unfold markAt
    split
    · rename_i hpos
      rw [← hpos]
      exact (h.at_ y hy).setDone
    · rename_i hpos
      exact (h.at_ y hy).congr (h.hdr_le hy)
        ((setDone_outside r (h.hdr_le he)).sameOn (h.disjoint_of_ne he hy hpos))

/-- The loop of `advance_cmd_ring` drops the DONE entries in front. -/
theorem Rep.advanceLoop (h : Rep H r es) {fuel : Nat} (hf : es.length ≤ fuel) :
    ∃ t, Ring.advanceLoop H fuel r = { r with cmdTail := t } ∧
      Rep H { r with cmdTail := t } (es.dropWhile Ent.done) := by
  induction fuel generalizing r es with
  | zero =>
    obtain rfl : es = [] := List.eq_nil_of_length_eq_zero (by omega)
    exact ⟨r.cmdTail, rfl, h⟩
  | succ fuel ih =>
    cases es with
    | nil =>
      have htail : r.cmdTail = r.cmdHead := h.chain
      refine ⟨r.cmdTail, ?_, h⟩
      rw [Ring.advanceLoop, getOldestSe, if_pos htail]
    | cons e es =>
      have hat := h.at_ e (List.mem_cons_self ..)
      have hpos : e.pos = r.cmdTail := h.chain.1
      have hdone := hat.done
      have hlen := hat.len
      rw [hpos] at hdone hlen
      simp only [Ring.advanceLoop, getOldestSe, if_neg h.head_ne_tail, hdone, hlen, List.dropWhile_cons]
      by_cases hd : e.done = true
      · have hfit := (h.fits e (List.mem_cons_self ..)).2
        rw [if_pos hd, if_pos hd, updateCmdrTail_eq h.tail_lt (by rw [← hpos]; exact hfit)]
        exact ih h.pop (by simpa using hf)
      · rw [if_neg hd, if_neg hd]
        exact ⟨r.cmdTail, rfl, h⟩

theorem Rep.advanceCmdRing (h : Rep H r es) :
    ∃ t, Ring.advanceCmdRing H r = { r with cmdTail := t } ∧
      Rep H { r with cmdTail := t } (es.dropWhile Ent.done) :=
  h.advanceLoop h.length_le

/-- A command that finds all entries reclaimed, and needs no padding, leaves
them all reclaimed once it is done. -/
theorem Rep.submit_done (h : Rep H r []) {c : Cmd} (hc : c.Ok)
    (hs : submitRingSpaceEnough H r (H.ubbdGetCmdSize c.iov.length) = true)
    (hp : Ring.insertPadding H r (H.ubbdGetCmdSize c.iov.length) = r)
    (hfit : r.cmdHead + H.ubbdGetCmdSize c.iov.length ≤ H.cmdrSize)
    (hroom : H.ubbdGetCmdSize c.iov.length ≤ H.cmdrSize - H.cmdrReserved) :
    ∃ r', Ring.submit H r c = some r' ∧
      Rep H (Ring.advanceCmdRing H (Ring.setDone H r' (sePos H r c))) [] ∧
      (Ring.advanceCmdRing H (Ring.setDone H r' (sePos H r c))).cmdHead =
        next H.cmdrSize r.cmdHead (H.ubbdGetCmdSize c.iov.length) := by
  have hpos : sePos H r c = r.cmdHead := by rw [sePos, hp]
  have hsubmit : Ring.submit H r c = some (Ring.publish H r c) := by
    rw [Ring.submit, if_pos hs, hp]
  have hhead : (Ring.publish H r c).cmdHead = next H.cmdrSize r.cmdHead (H.ubbdGetCmdSize c.iov.length) :=
    updateCmdrHead_eq h.dist.1
  obtain ⟨hrep, -⟩ := h.publish hc ⟨hfit, by simpa using hroom⟩
  obtain ⟨t, ht, hadv⟩ :=
    (hrep.setDone (e := cmdEnt H r.cmdHead c) (List.mem_singleton.mpr rfl)).advanceCmdRing
  refine ⟨_, hsubmit, ?_⟩
  rw [hpos, show r.cmdHead = (cmdEnt H r.cmdHead c).pos from rfl, ht]
  exact ⟨by simpa [markAt, cmdEnt] using hadv, hhead⟩

/-! ## Decoding -/

theorem Rep.walkLoop (h : Rep H r es) {fuel : Nat} (hf : es.length ≤ fuel) :
    Ring.walkLoop H r.cmdr r.cmdHead fuel r.cmdTail = es.map fun e => e.pos := by
  induction es generalizing r fuel with
  | nil =>
    have htail : r.cmdTail = r.cmdHead := h.chain
    cases fuel with
    | zero => rfl
    | succ fuel => simp [Ring.walkLoop, htail]
  | cons e es ih =>
    obtain ⟨fuel, rfl⟩ : ∃ k, fuel = k + 1 := ⟨fuel - 1, by simp at hf; omega⟩
    have hpos : e.pos = r.cmdTail := h.chain.1
    have hlen := (h.at_ e (List.mem_cons_self ..)).len
    rw [hpos] at hlen
    rw [Ring.walkLoop, if_neg h.head_ne_tail, hlen, List.map_cons, hpos]
    exact congrArg _ (ih h.pop (by simpa using hf))

/-- The lengths in the headers lead from entry to entry. -/
theorem Rep.walk (h : Rep H r es) : Ring.walk H r = es.map fun e => e.pos := h.walkLoop h.length_le

theorem Rep.mem_walk (h : Rep H r es) {pos : Nat} : pos ∈ Ring.walk H r ↔ ∃ e ∈ es, e.pos = pos := by
  rw [h.walk, List.mem_map]

theorem Rep.decode (h : Rep H r es) : Ring.decode H r = es.filterMap Ent.cmd := by
  rw [Ring.decode, h.walk, List.filterMap_map]
  exact List.filterMap_congr fun e he => (h.at_ e he).cmd

end

/-! ## Runs -/

/-- A ring, the commands submitted to it so far, and how many of them
`advance_cmd_ring` has passed. -/
structure RingState where
  ring : CmdRing
  submitted : List Cmd
  reclaimed : Nat

inductive RingLabel
  | submit (c : {c : Cmd // c.Ok})
  | done (pos : Nat)
  | advance

/-- How many entries of commands the loop of `advance_cmd_ring` passes. -/
def passedLoop (H : Header) : Nat → CmdRing → Nat
  | 0, _ => 0
  | fuel + 1, r =>
    match getOldestSe r with
    | none => 0
    | some se =>
      if entDone H r.cmdr se then
        (if entOp H r.cmdr se = .pad then 0 else 1) +
          passedLoop H fuel { r with cmdTail := updateCmdrTail r.cmdTail (entLen H r.cmdr se) H.cmdrSize }
      else 0

/-- The state after a submission, which a full ring refuses. -/
def RingState.accept (s : RingState) (c : Cmd) : Option CmdRing → RingState
  | some r => { s with ring := r, submitted := s.submitted ++ [c] }
  | none => s

/-- Submissions, DONE marks on entries of the ring, and `advance_cmd_ring`. -/
def ringStep (H : Header) (s : RingState) : RingLabel → Option RingState
  | .submit c => some (s.accept c (submit H s.ring c))
  | .done pos => if pos ∈ walk H s.ring then some { s with ring := setDone H s.ring pos } else none
  | .advance =>
    some { s with
      ring := advanceCmdRing H s.ring
      reclaimed := s.reclaimed + passedLoop H (maxEntries H) s.ring }

/-- A ring starts with head and tail at zero, whatever its bytes. -/
def ringLts (H : Header) : Lts RingState RingLabel where
  init s := s.ring.cmdHead = 0 ∧ s.ring.cmdTail = 0 ∧ s.submitted = [] ∧ s.reclaimed = 0
  step := ringStep H

/-- The ring holds entries that are the commands not reclaimed. -/
def RingInv (H : Header) (s : RingState) : Prop :=
  ∃ es, Rep H s.ring es ∧ es.filterMap Ent.cmd = s.submitted.drop s.reclaimed ∧
    s.reclaimed ≤ s.submitted.length

theorem ringInv_init {s : RingState} (h : (ringLts H).init s) : RingInv H s := by
  obtain ⟨hh, ht, hs, hr⟩ := h
  have h₁ := H.reserved_pos
  have h₂ := H.reserved_le
  refine ⟨[], ⟨?_, by omega, by simp [hh], ?_, ?_, by simp, ?_⟩, by simp [hs], by omega⟩
  · simp [Chain, hh, ht]
  all_goals exact fun _ he => absurd he List.not_mem_nil

theorem Rep.passedLoop {r : CmdRing} {es : List Ent} (h : Rep H r es) {fuel : Nat}
    (hf : es.length ≤ fuel) :
    Ring.passedLoop H fuel r = ((es.takeWhile Ent.done).filterMap Ent.cmd).length := by
  induction fuel generalizing r es with
  | zero =>
    obtain rfl : es = [] := List.eq_nil_of_length_eq_zero (by omega)
    rfl
  | succ fuel ih =>
    cases es with
    | nil =>
      have htail : r.cmdTail = r.cmdHead := h.chain
      simp [Ring.passedLoop, getOldestSe, htail]
    | cons e es =>
      have hat := h.at_ e (List.mem_cons_self ..)
      have hpos : e.pos = r.cmdTail := h.chain.1
      have hdone := hat.done
      have hlen := hat.len
      have hcmd := hat.cmd
      rw [hpos] at hdone hlen hcmd
      simp only [Ring.passedLoop, getOldestSe, if_neg h.head_ne_tail, hdone, hlen, List.takeWhile_cons]
      by_cases hd : e.done = true
      · have hfit := (h.fits e (List.mem_cons_self ..)).2
        rw [if_pos hd, if_pos hd, updateCmdrTail_eq h.tail_lt (by rw [← hpos]; exact hfit),
          ih h.pop (by simpa using hf)]
        unfold cmdAt at hcmd
        by_cases hp : entOp H r.cmdr r.cmdTail = .pad
        · rw [if_pos hp] at hcmd
          simp [hp, ← hcmd]
        · rw [if_neg hp] at hcmd
          simp [hp, ← hcmd, Nat.add_comm]
      · rw [if_neg hd, if_neg hd]
        rfl

theorem ringInv_step {s s' : RingState} {a : RingLabel} (h : RingInv H s)
    (hs : ringStep H s a = some s') : RingInv H s' := by
  obtain ⟨es, hrep, hcmds, hle⟩ := h
  cases a with
  | submit c =>
    simp only [ringStep, Option.some.injEq] at hs
    subst hs
    cases hsub : submit H s.ring c with
    | some r =>
      obtain ⟨⟨ps, e, hps, hcmd, -, hrep'⟩, -⟩ := hrep.submit c.property hsub
      have hnil : ps.filterMap Ent.cmd = [] :=
        List.filterMap_eq_nil_iff.mpr fun p hp => (hps p hp).1
      refine ⟨_, hrep', ?_, by simp only [RingState.accept, List.length_append]; omega⟩
      simp only [RingState.accept, List.filterMap_append, hnil, List.nil_append, List.filterMap_cons, hcmd,
        List.filterMap_nil, hcmds]
      rw [List.drop_append_of_le_length hle]
    | none => exact ⟨es, hrep, hcmds, hle⟩
  | done pos =>
    simp only [ringStep] at hs
    split at hs <;> [skip; cases hs]
    rename_i hpos
    rw [Option.some.injEq] at hs
    subst hs
    obtain ⟨e, he, rfl⟩ := hrep.mem_walk.mp hpos
    refine ⟨_, hrep.setDone he, ?_, hle⟩
    rw [List.filterMap_map, ← hcmds]
    exact List.filterMap_congr fun x _ => markAt_cmd _ x
  | advance =>
    simp only [ringStep, Option.some.injEq] at hs
    subst hs
    obtain ⟨t, ht, hrep'⟩ := hrep.advanceCmdRing
    have hcount := hrep.passedLoop hrep.length_le
    have hsplit : (es.takeWhile Ent.done).filterMap Ent.cmd ++ (es.dropWhile Ent.done).filterMap Ent.cmd =
        s.submitted.drop s.reclaimed := by
      rw [← List.filterMap_append, List.takeWhile_append_dropWhile, hcmds]
    have hlen := congrArg List.length hsplit
    rw [List.length_append, List.length_drop] at hlen
    refine ⟨_, by rw [ht]; exact hrep', ?_, by simp only; omega⟩
    rw [hcount, ← List.drop_drop, ← hsplit, List.drop_left]

/-- What the ring promises in a state:

* the bytes from tail to head decode to the commands submitted and not yet
  reclaimed, in the order of their submission;
* the entries follow one another from tail to head, none straddles the end of
  the ring, and head and tail lie inside it;
* the used bytes are those of the entries, they leave the reserve free, and
  nothing wraps in the space computation;
* a submission that is accepted writes to no byte of these entries, and never
  brings the head to the tail;
* `advance_cmd_ring` moves nothing but the tail, to the oldest entry that is
  not DONE, or to the head if there is none. -/
structure RingOk (H : Header) (s : RingState) : Prop where
  decode : decode H s.ring = s.submitted.drop s.reclaimed
  reclaimed_le : s.reclaimed ≤ s.submitted.length
  chain : Chain H.cmdrSize s.ring.cmdTail
    ((walk H s.ring).map fun p => ⟨p, entLen H s.ring.cmdr p⟩) s.ring.cmdHead
  no_straddle : ∀ p ∈ walk H s.ring,
    0 < entLen H s.ring.cmdr p ∧ p + entLen H s.ring.cmdr p ≤ H.cmdrSize
  head_lt : s.ring.cmdHead < H.cmdrSize
  tail_lt : s.ring.cmdTail < H.cmdrSize
  used : spaceUsed H s.ring = ((walk H s.ring).map (entLen H s.ring.cmdr)).sum
  available : spaceAvailable H s.ring + spaceUsed H s.ring = H.cmdrSize - H.cmdrReserved
  needed : ∀ cnt ≤ maxSegments, spaceNeeded H s.ring (H.ubbdGetCmdSize cnt) =
    if H.ubbdGetCmdSize cnt < H.cmdrSize - s.ring.cmdHead then H.ubbdGetCmdSize cnt
    else H.ubbdGetCmdSize cnt + (H.cmdrSize - s.ring.cmdHead)
  submit : ∀ c : Cmd, c.Ok → ∀ r, submit H s.ring c = some r →
    (∀ p ∈ walk H s.ring, SameOn p (entLen H s.ring.cmdr p) s.ring.cmdr r.cmdr) ∧
      r.cmdHead ≠ r.cmdTail ∧ spaceUsed H r ≤ H.cmdrSize - H.cmdrReserved
  advance : advanceCmdRing H s.ring = { s.ring with
    cmdTail := ((walk H s.ring).find? fun p => !entDone H s.ring.cmdr p).getD s.ring.cmdHead }

/-- `advance_cmd_ring` stops at the oldest entry that is not DONE. -/
theorem Rep.advance_tail {r : CmdRing} {es : List Ent} (h : Rep H r es) :
    Ring.advanceCmdRing H r = { r with
      cmdTail := ((Ring.walk H r).find? fun p => !entDone H r.cmdr p).getD r.cmdHead } := by
  obtain ⟨t, ht, hrep⟩ := h.advanceCmdRing
  have hfind : ((Ring.walk H r).find? fun p => !entDone H r.cmdr p) =
      ((es.dropWhile Ent.done).head?).map fun e => e.pos := by
    rw [h.walk, List.find?_map, ← List.find?_not_eq_head?_dropWhile]
    refine congrArg _ (List.find?_congr fun e he => ?_)
    simp only [Function.comp_apply, (h.at_ e he).done]
  rw [ht, hfind]
  have hc := hrep.chain
  cases hes : es.dropWhile Ent.done with
  | nil =>
    rw [hes] at hc
    rw [show t = r.cmdHead from hc]
    rfl
  | cons e es' =>
    rw [hes] at hc
    rw [show t = e.pos from hc.1.symm]
    rfl

theorem RingInv.ok {s : RingState} (h : RingInv H s) : RingOk H s := by
  obtain ⟨es, hrep, hcmds, hle⟩ := h
  have hwalk := hrep.walk
  have hspans : ((Ring.walk H s.ring).map fun p => (⟨p, entLen H s.ring.cmdr p⟩ : Span)) =
      es.map Ent.toSpan := by
    rw [hwalk, List.map_map]
    refine List.map_congr_left fun e he => ?_
    simp only [Function.comp_apply, (hrep.at_ e he).len]
  refine ⟨hrep.decode.trans hcmds, hle, ?_, ?_, hrep.dist.1, hrep.tail_lt, ?_, hrep.spaceAvailable, ?_, ?_,
    hrep.advance_tail⟩
  · rw [hspans]
    exact hrep.chain
  · intro p hp
    obtain ⟨e, he, rfl⟩ := hrep.mem_walk.mp hp
    rw [(hrep.at_ e he).len]
    exact hrep.fits e he
  · rw [hrep.spaceUsed, ← hspans, total, List.map_map]
    rfl
  · exact fun cnt hcnt => hrep.spaceNeeded (H.cmdr_add_cmdSize_lt hcnt)
  · intro c hc r hsub
    obtain ⟨⟨ps, e, -, -, -, hrep'⟩, hsame⟩ := hrep.submit hc hsub
    refine ⟨fun p hp => ?_, fun heq => ?_, by rw [hrep'.spaceUsed]; exact hrep'.room⟩
    · obtain ⟨x, hx, rfl⟩ := hrep.mem_walk.mp hp
      rw [(hrep.at_ x hx).len]
      exact hsame x hx
    · cases hl : es ++ (ps ++ [e]) with
      | nil => simp at hl
      | cons x xs =>
        rw [hl] at hrep'
        exact hrep'.head_ne_tail heq.symm

/-- The command ring is a FIFO queue: in every run of submissions, DONE marks
and calls of `advance_cmd_ring`, from an empty ring, every state is one where
the bytes from tail to head are the commands submitted and not reclaimed. -/
theorem ring_refines_fifo (H : Header) (m : Mem) (labels : List RingLabel) :
    (ringLts H).States (RingOk H) ⟨⟨m, 0, 0⟩, [], 0⟩ labels := by
  refine Lts.States.mono (fun _ => RingInv.ok) (Lts.states_of_steps (C := fun _ _ _ => True) ?_ ?_ ?_)
  · exact fun s a s' hi hs _ => ringInv_step hi hs
  · exact ringInv_init ⟨rfl, rfl, rfl, rfl⟩
  · exact Lts.steps_true _ _

end Ubbd.Ring

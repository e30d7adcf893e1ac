import Mathlib.Algebra.BigOperators.Ring.List
import Mathlib.Algebra.Order.BigOperators.Group.List
import UbbdKernel.Framework.Loop
import UbbdKernel.Ring.Completion
import UbbdKernel.Ring.Space

/-!
# The loops over the rings

Two loops of the driver go on until an index of a ring meets another one, in
steps that the backend can write: `advance_cmd_ring` moves the tail by the
length in the header of each entry that is DONE, and the loop of
`ubbd_queue_complete` goes on until the tail is at the head of the completion
ring, which is the backend's. `LoopsEnd` says that both are left in time.

`loopsEnd_iff` is what the shared memory must hold for that: of the command
ring, the lengths of the entries that are DONE (`DoneLens`). Those that are
multiples of the alignment keep the loop for ever exactly when some of them,
one after another, add up to a multiple of the size of the ring (`NoRound`), as
a length of 0 does.
-/

namespace Ubbd.Ring

open Loop Circular

variable (H : Header)

/-! ## The command ring -/

/-- An iteration of `advance_cmd_ring`: where it moves the tail, if it does not
leave the loop. -/
def advanceIter (m : Mem) (head tail : Nat) : Option Nat :=
  match getOldestSe ⟨m, head, tail⟩ with
  | none => none
  | some se => if entDone H m se then some (updateCmdrTail tail (entLen H m se) H.cmdrSize) else none

variable {H}

theorem advanceIter_eq (m : Mem) (head tail : Nat) :
    advanceIter H m head tail =
      if tail = head then none
      else if entDone H m tail then some (updateCmdrTail tail (entLen H m tail) H.cmdrSize) else none := by
  unfold advanceIter getOldestSe
  by_cases h : tail = head
  · rw [if_pos h, if_pos h]
  · rw [if_neg h, if_neg h]

theorem advanceLoop_succ (n : Nat) (r : CmdRing) :
    advanceLoop H (n + 1) r = match advanceIter H r.cmdr r.cmdHead r.cmdTail with
      | none => r
      | some t => advanceLoop H n { r with cmdTail := t } := by
  rw [advanceLoop, advanceIter_eq, getOldestSe]
  by_cases h : r.cmdTail = r.cmdHead
  · rw [if_pos h, if_pos h]
  · rw [if_neg h, if_neg h]
    simp only
    split <;> rfl

/-- Within its bound `advanceLoop` is the whole loop: it leaves the tail where the
loop is left. -/
theorem advanceLoop_met {n : Nat} {r : CmdRing} (h : EndsWithin (advanceIter H r.cmdr r.cmdHead) n r.cmdTail) :
    ∃ t ∈ Met (advanceIter H r.cmdr r.cmdHead) r.cmdTail, advanceIter H r.cmdr r.cmdHead t = none ∧
      advanceLoop H n r = { r with cmdTail := t } := by
  induction n generalizing r with
  | zero => exact ⟨r.cmdTail, met_self _ _, endsWithin_zero.mp h, rfl⟩
  | succ n ih =>
    rw [advanceLoop_succ]
    cases hb : advanceIter H r.cmdr r.cmdHead r.cmdTail with
    | none => exact ⟨r.cmdTail, met_self _ _, hb, rfl⟩
    | some b =>
      obtain ⟨t, ht, hnone, heq⟩ := ih (r := { r with cmdTail := b }) ((endsWithin_succ hb).mp h)
      exact ⟨t, met_of_step hb ht, hnone, heq⟩

/-- The loop over entries that the driver wrote, one iteration for each entry. -/
theorem Rep.endsWithin {r : CmdRing} {es : List Ent} (h : Rep H r es) :
    EndsWithin (advanceIter H r.cmdr r.cmdHead) es.length r.cmdTail := by
  induction es generalizing r with
  | nil =>
    have htail : r.cmdTail = r.cmdHead := h.chain
    refine endsWithin_zero.mpr ?_
    rw [advanceIter_eq, if_pos htail]
  | cons e es ih =>
    have hat := h.at_ e (List.mem_cons_self ..)
    have hpos : e.pos = r.cmdTail := h.chain.1
    have hfit := (h.fits e (List.mem_cons_self ..)).2
    have hdone := hat.done
    have hlen := hat.len
    rw [hpos] at hdone hlen hfit
    have hiter : advanceIter H r.cmdr r.cmdHead r.cmdTail =
        if e.done then some (next H.cmdrSize r.cmdTail e.len) else none := by
      rw [advanceIter_eq, if_neg h.head_ne_tail, hdone, hlen, updateCmdrTail_eq h.tail_lt hfit]
    by_cases hd : e.done = true
    · rw [if_pos hd] at hiter
      exact (endsWithin_succ hiter).mpr (ih h.pop)
    · rw [if_neg hd] at hiter
      exact (endsWithin_zero.mpr hiter).mono (Nat.zero_le _)

/-- From `p` on there are headers with the lengths `lens`, each where the one
before leads; all of them are DONE, and none is at the head. -/
def DoneLens (H : Header) (m : Mem) (head : Nat) : Nat → List Nat → Prop
  | _, [] => True
  | p, len :: lens => (p ≠ head ∧ entDone H m p = true ∧ entLen H m p = len) ∧
    DoneLens H m head (updateCmdrTail p len H.cmdrSize) lens

/-- Where these lengths lead. -/
def lead (H : Header) : Nat → List Nat → Nat
  | p, [] => p
  | p, len :: lens => lead H (updateCmdrTail p len H.cmdrSize) lens

theorem lead_append (p : Nat) (as bs : List Nat) : lead H p (as ++ bs) = lead H (lead H p as) bs := by
  induction as generalizing p with
  | nil => rfl
  | cons len as ih => exact ih _

theorem doneLens_append {m : Mem} {head p : Nat} {as bs : List Nat} :
    DoneLens H m head p (as ++ bs) ↔ DoneLens H m head p as ∧ DoneLens H m head (lead H p as) bs := by
  induction as generalizing p with
  | nil => exact ⟨fun h => ⟨trivial, h⟩, fun h => h.2⟩
  | cons len as ih =>
    show _ ∧ DoneLens H m head _ (as ++ bs) ↔ (_ ∧ _) ∧ _
    rw [ih]
    exact and_assoc.symm

theorem lead_lt {p : Nat} (hp : p < H.cmdrSize) (lens : List Nat) : lead H p lens < H.cmdrSize := by
  induction lens generalizing p with
  | nil => exact hp
  | cons len lens ih => exact ih (Nat.mod_lt _ (by omega))

/-- The loop takes an iteration for each of them. -/
theorem after_advanceIter {m : Mem} {head tail k b : Nat} :
    after (advanceIter H m head) k tail = some b ↔
      ∃ lens, lens.length = k ∧ DoneLens H m head tail lens ∧ lead H tail lens = b := by
  induction k generalizing tail with
  | zero =>
    rw [after, Option.some.injEq]
    constructor
    · intro h
      exact ⟨[], rfl, trivial, h⟩
    · rintro ⟨lens, hlen, -, hb⟩
      obtain rfl := List.length_eq_zero_iff.mp hlen
      exact hb
  | succ k ih =>
    rw [after, Option.bind_eq_some_iff]
    constructor
    · rintro ⟨c, hc, h⟩
      rw [advanceIter_eq] at hc
      split at hc <;> [cases hc; skip]
      rename_i hne
      split at hc <;> cases hc
      rename_i hdone
      obtain ⟨lens, hlen, hl, hb⟩ := ih.mp h
      exact ⟨_ :: lens, congrArg (· + 1) hlen, ⟨⟨hne, hdone, rfl⟩, hl⟩, hb⟩
    · rintro ⟨lens, hlen, hl, hb⟩
      cases lens with
      | nil => cases hlen
      | cons len lens =>
        obtain ⟨⟨hne, hdone, rfl⟩, hl⟩ := hl
        refine ⟨_, ?_, ih.mpr ⟨lens, Nat.succ.inj hlen, hl, hb⟩⟩
        rw [advanceIter_eq, if_neg hne, if_pos hdone]

theorem mem_met {m : Mem} {head tail b : Nat} :
    b ∈ Met (advanceIter H m head) tail ↔ ∃ lens, DoneLens H m head tail lens ∧ lead H tail lens = b := by
  constructor
  · rintro ⟨k, hk⟩
    obtain ⟨lens, -, hl⟩ := after_advanceIter.mp hk
    exact ⟨lens, hl⟩
  · rintro ⟨lens, hl⟩
    exact ⟨lens.length, after_advanceIter.mpr ⟨lens, rfl, hl⟩⟩

theorem endsWithin_iff_doneLens {m : Mem} {head tail n : Nat} :
    EndsWithin (advanceIter H m head) n tail ↔ ∀ lens, DoneLens H m head tail lens → lens.length ≤ n := by
  constructor
  · intro hends lens hl
    by_contra hlt
    have hafter := after_advanceIter.mpr ⟨lens, rfl, hl, rfl⟩
    rw [after_none hends (by omega)] at hafter
    cases hafter
  · intro h
    refine Option.eq_none_iff_forall_ne_some.mpr fun b hb => ?_
    obtain ⟨lens, hlen, hl, -⟩ := after_advanceIter.mp hb
    have := h lens hl
    omega

/-! ### Sums of lengths -/

/-- Each length is that of an entry, and their sums do not lead past the head. -/
def LensFit (H : Header) (m : Mem) (head tail : Nat) : Prop :=
  ∀ lens, DoneLens H m head tail lens → (∀ len ∈ lens, H.opAlign ≤ len) ∧ lens.sum ≤ dist H.cmdrSize tail head

theorem LensFit.endsWithin {m : Mem} {head tail : Nat} (hf : LensFit H m head tail) (hh : head < H.cmdrSize)
    (ht : tail < H.cmdrSize) : EndsWithin (advanceIter H m head) (maxEntries H) tail := by
  refine endsWithin_iff_doneLens.mpr fun lens hl => ?_
  obtain ⟨hmin, hsum⟩ := hf lens hl
  have hle : lens.length * H.opAlign ≤ H.cmdrSize := calc
    lens.length * H.opAlign ≤ lens.sum := List.card_nsmul_le_sum lens _ hmin
    _ ≤ dist H.cmdrSize tail head := hsum
    _ ≤ H.cmdrSize := (dist_lt_size ht hh).le
  exact (Nat.le_div_iff_mul_le H.opAlign_pos).mpr hle

/-- The `u32` sum of an offset and a length does not wrap, and the lengths are
multiples of the alignment. -/
structure Aligned (H : Header) (m : Mem) (head tail : Nat) : Prop where
  dvd : ∀ lens, DoneLens H m head tail lens → ∀ len ∈ lens, H.opAlign ∣ len
  lt : ∀ lens len, DoneLens H m head tail (lens ++ [len]) → lead H tail lens + len < 2 ^ 32

/-- No lengths one after another add up to a multiple of the size of the ring. -/
def NoRound (H : Header) (m : Mem) (head tail : Nat) : Prop :=
  ∀ lens round, DoneLens H m head tail (lens ++ round) → round ≠ [] → ¬ H.cmdrSize ∣ round.sum

/-- Lengths lead as far as their sum says. -/
theorem Aligned.lead_eq {m : Mem} {head tail : Nat} (h : Aligned H m head tail) (ht : tail < H.cmdrSize)
    {lens round : List Nat} (hl : DoneLens H m head tail (lens ++ round)) :
    lead H tail (lens ++ round) = (lead H tail lens + round.sum) % H.cmdrSize := by
  induction round generalizing lens with
  | nil => rw [List.append_nil, List.sum_nil, Nat.add_zero, Nat.mod_eq_of_lt (lead_lt ht lens)]
  | cons len round ih =>
    rw [List.append_cons] at hl ⊢
    have hlt := h.lt lens len (doneLens_append.mp hl).1
    have hstep : lead H tail (lens ++ [len]) = (lead H tail lens + len) % H.cmdrSize := by
      rw [lead_append, lead, lead, updateCmdrTail, Nat.mod_eq_of_lt (lead_lt ht lens), add32_eq hlt]
    rw [ih hl, hstep, Nat.mod_add_mod, List.sum_cons, Nat.add_assoc]

/-- Round the ring and back at an offset: the lengths add up to a multiple of its
size. -/
theorem Aligned.back_iff {m : Mem} {head tail : Nat} (h : Aligned H m head tail) (ht : tail < H.cmdrSize)
    {lens round : List Nat} (hl : DoneLens H m head tail (lens ++ round)) :
    lead H tail (lens ++ round) = lead H tail lens ↔ H.cmdrSize ∣ round.sum := by
  rw [h.lead_eq ht hl]
  constructor
  · intro heq
    have hmod : lead H tail lens + round.sum ≡ lead H tail lens + 0 [MOD H.cmdrSize] := by
      rw [Nat.add_zero]
      exact heq.trans (Nat.mod_eq_of_lt (lead_lt ht lens)).symm
    exact (Nat.modEq_zero_iff_dvd).mp (Nat.ModEq.add_left_cancel' _ hmod)
  · rintro ⟨k, hk⟩
    rw [hk, Nat.add_mul_mod_self_left, Nat.mod_eq_of_lt (lead_lt ht lens)]

theorem Aligned.cycles_iff {m : Mem} {head tail : Nat} (h : Aligned H m head tail) (ht : tail < H.cmdrSize) :
    Cycles (advanceIter H m head) tail ↔ ¬ NoRound H m head tail := by
  constructor
  · rintro ⟨b, hb, c, hc, hbc⟩ hno
    obtain ⟨lens, hl, rfl⟩ := mem_met.mp hb
    obtain ⟨k, hk⟩ := hbc
    have hafter : after (advanceIter H m head) (k + 1) (lead H tail lens) = some (lead H tail lens) := by
      rw [after, hc]
      exact hk
    obtain ⟨round, hlen, hr, hback⟩ := after_advanceIter.mp hafter
    have hboth := doneLens_append.mpr ⟨hl, hr⟩
    refine hno lens round hboth (List.ne_nil_of_length_eq_add_one hlen) ((h.back_iff ht hboth).mp ?_)
    rw [lead_append]
    exact hback
  · intro hround
    simp only [NoRound, not_forall, not_not] at hround
    obtain ⟨lens, round, hboth, hne, hdvd⟩ := hround
    have hback := (h.back_iff ht hboth).mpr hdvd
    rw [lead_append] at hback
    obtain ⟨hl, hr⟩ := doneLens_append.mp hboth
    have hafter := after_advanceIter.mpr ⟨round, rfl, hr, hback⟩
    obtain ⟨k, hk⟩ := Nat.exists_eq_add_one_of_ne_zero fun h0 => hne (List.length_eq_zero_iff.mp h0)
    rw [hk] at hafter
    obtain ⟨c, hc, hcb⟩ := Option.bind_eq_some_iff.mp hafter
    exact ⟨_, mem_met.mpr ⟨lens, hl, rfl⟩, c, hc, _, hcb⟩

/-- The loop stays among the offsets that are aligned as the tail is, which are
`maxEntries`. -/
theorem Aligned.endsWithin_iff {m : Mem} {head tail : Nat} (h : Aligned H m head tail) (ht : tail < H.cmdrSize) :
    EndsWithin (advanceIter H m head) (maxEntries H) tail ↔ NoRound H m head tail := by
  have hpos := H.opAlign_pos
  have hmet : Met (advanceIter H m head) tail ⊆
      (fun k => k * H.opAlign + tail % H.opAlign) '' Set.Iio (maxEntries H) := by
    intro b hb
    obtain ⟨lens, hl, rfl⟩ := mem_met.mp hb
    have hlt := lead_lt ht lens
    have hdvd : H.opAlign ∣ lens.sum := List.dvd_sum (h.dvd lens hl)
    have hmod : lead H tail lens % H.opAlign = tail % H.opAlign := by
      rw [← List.nil_append lens] at hl ⊢
      rw [h.lead_eq ht hl, Nat.mod_mod_of_dvd _ H.align_cmdr, lead]
      obtain ⟨k, hk⟩ := hdvd
      rw [hk, Nat.add_mul_mod_self_left]
    refine ⟨lead H tail lens / H.opAlign, Nat.div_lt_div_of_lt_of_dvd H.align_cmdr hlt, ?_⟩
    show _ * _ + _ = _
    rw [← hmod, Nat.mul_comm, Nat.div_add_mod]
  have hcard : ((fun k => k * H.opAlign + tail % H.opAlign) '' Set.Iio (maxEntries H)).encard ≤
      maxEntries H + 1 := calc
    _ ≤ (Set.Iio (maxEntries H)).encard := Set.encard_image_le _ _
    _ = maxEntries H := encard_Iio _
    _ ≤ maxEntries H + 1 := le_self_add
  rw [endsWithin_iff_not_cycles hmet hcard, h.cycles_iff ht, not_not]

/-- The tail stays at an entry of length 0. -/
theorem cycles_of_zero {m : Mem} {head tail : Nat} (ht : tail < H.cmdrSize) (hne : tail ≠ head)
    (hd : entDone H m tail = true) (hlen : entLen H m tail = 0) : Cycles (advanceIter H m head) tail := by
  have hsize := H.cmdrSize_lt
  refine ⟨tail, met_self _ _, tail, ?_, met_self _ _⟩
  rw [advanceIter_eq, if_neg hne, if_pos hd, hlen, updateCmdrTail, Nat.mod_eq_of_lt ht, add32_eq (by omega),
    Nat.add_zero, Nat.mod_eq_of_lt ht]

/-! ## The completion ring -/

/-- An iteration of the loop of `ubbd_queue_complete`, which takes an entry: where
it moves the tail, if there is one. -/
def completeIter (L : Compr.Layout) (head tail : Nat) : Option Nat :=
  if tail = head then none else some (Compr.updateComprTail tail L.sizeofCe L.comprSize)

theorem sizeofCe_pos (L : Compr.Layout) : 0 < L.sizeofCe :=
  Nat.pos_of_dvd_of_pos L.dvd L.size_pos

/-- The loop gets from `tail` to the head in `k` entries. -/
theorem completeIter_endsWithin {L : Compr.Layout} {head tail k : Nat} (h : tail < L.comprSize)
    (hk : (tail + k * L.sizeofCe) % L.comprSize = head) : EndsWithin (completeIter L head) k tail := by
  induction k generalizing tail with
  | zero =>
    rw [Nat.zero_mul, Nat.add_zero, Nat.mod_eq_of_lt h] at hk
    exact endsWithin_zero.mpr (if_pos hk)
  | succ k ih =>
    by_cases heq : tail = head
    · have hleft : completeIter L head tail = none := if_pos heq
      exact (endsWithin_zero.mpr hleft).mono (Nat.zero_le _)
    · have hstep : completeIter L head tail = some ((tail + L.sizeofCe) % L.comprSize) := by
        rw [completeIter, if_neg heq, Compr.updateComprTail, Nat.mod_eq_of_lt h]
      refine (endsWithin_succ hstep).mpr (ih (Nat.mod_lt _ L.size_pos) ?_)
      rw [Nat.mod_add_mod, ← hk, Nat.succ_mul]
      congr 1
      omega

/-- The head is one of the slots that the tail passes. -/
def SlotOf (L : Compr.Layout) (head tail : Nat) : Prop :=
  head < L.comprSize ∧ head % L.sizeofCe = tail % L.sizeofCe

instance (L : Compr.Layout) (head tail : Nat) : Decidable (SlotOf L head tail) :=
  inferInstanceAs (Decidable (_ ∧ _))

/-- The loop over the completion ring is left, and then within one round, exactly
then. -/
theorem completeIter_endsWithin_iff {L : Compr.Layout} {head tail : Nat} (h : tail < L.comprSize) :
    EndsWithin (completeIter L head) (L.comprSize / L.sizeofCe) tail ↔ SlotOf L head tail := by
  have hpos := sizeofCe_pos L
  constructor
  · intro hends
    obtain ⟨b, hb, hnone⟩ := hends.exists_last
    obtain rfl : b = head := by
      by_contra hne
      rw [completeIter, if_neg hne] at hnone
      cases hnone
    refine met_inv (P := fun b => b < L.comprSize ∧ b % L.sizeofCe = tail % L.sizeofCe) ⟨h, rfl⟩
      (fun c d hc hd => ?_) hb
    unfold completeIter at hd
    split at hd <;> cases hd
    refine ⟨Nat.mod_lt _ L.size_pos, ?_⟩
    rw [Compr.updateComprTail, Nat.mod_eq_of_lt hc.1, Nat.mod_mod_of_dvd _ L.dvd, Nat.add_mod_right]
    exact hc.2
  · rintro ⟨hlt, hmod⟩
    -- the bytes from the tail round to the head are a whole number of entries
    have hdist : L.sizeofCe ∣ dist L.comprSize tail head := by
      unfold Circular.dist
      split
      · exact (Nat.modEq_iff_dvd' (by omega)).mp hmod.symm
      · obtain ⟨n, hn⟩ := L.dvd
        refine (Nat.modEq_iff_dvd' (by omega)).mp (hmod.symm.trans ?_)
        rw [hn, Nat.add_mul_mod_self_left]
    obtain ⟨k, hk⟩ := hdist
    have hround : (tail + k * L.sizeofCe) % L.comprSize = head := by
      rw [Nat.mul_comm, ← hk]
      unfold Circular.dist
      split
      · rw [Nat.add_sub_cancel' (by omega), Nat.mod_eq_of_lt hlt]
      · rw [Nat.add_sub_cancel' (by omega), Nat.add_mod_right, Nat.mod_eq_of_lt hlt]
    refine (completeIter_endsWithin h hround).mono ((Nat.le_div_iff_mul_le hpos).mpr ?_)
    rw [Nat.mul_comm, ← hk]
    unfold Circular.dist
    split <;> omega

/-! ## Both loops -/

/-- The loops are left in time, with the shared memory as it is: the headers in
the command ring `m`, and the head of the completion ring. -/
structure LoopsEnd (H : Header) (L : Compr.Layout) (m : Mem) (cmdHead cmdTail comprHead comprTail : Nat) :
    Prop where
  advance : EndsWithin (advanceIter H m cmdHead) (H.cmdrSize / H.opAlign) cmdTail
  complete : EndsWithin (completeIter L comprHead) (L.comprSize / L.sizeofCe) comprTail

/-- The entries that are DONE from the tail on, each where the length of the one
before leads, are no more than there are aligned offsets; and the head of the
completion ring is one of the slots of its tail. With lengths that are
multiples of the alignment the former says that none of them, one after
another, add up to a multiple of the size of the ring. It is so if each is
that of an entry, and they do not lead past the head. -/
theorem loopsEnd_iff (H : Header) (L : Compr.Layout) (m : Mem) {cmdHead cmdTail comprTail : Nat} (comprHead : Nat)
    (hh : cmdHead < H.cmdrSize) (ht : cmdTail < H.cmdrSize) (h : comprTail < L.comprSize) :
    (LoopsEnd H L m cmdHead cmdTail comprHead comprTail ↔
      (∀ lens, DoneLens H m cmdHead cmdTail lens → lens.length ≤ H.cmdrSize / H.opAlign) ∧
        SlotOf L comprHead comprTail) ∧
      (Aligned H m cmdHead cmdTail → (LoopsEnd H L m cmdHead cmdTail comprHead comprTail ↔
        NoRound H m cmdHead cmdTail ∧ SlotOf L comprHead comprTail)) ∧
      (LensFit H m cmdHead cmdTail → SlotOf L comprHead comprTail →
        LoopsEnd H L m cmdHead cmdTail comprHead comprTail) := by
  have hboth : LoopsEnd H L m cmdHead cmdTail comprHead comprTail ↔
      EndsWithin (advanceIter H m cmdHead) (H.cmdrSize / H.opAlign) cmdTail ∧ SlotOf L comprHead comprTail := by
    rw [← completeIter_endsWithin_iff h]
    exact ⟨fun h => ⟨h.advance, h.complete⟩, fun h => ⟨h.1, h.2⟩⟩
  refine ⟨?_, fun ha => ?_, fun hf hs => hboth.mpr ⟨hf.endsWithin hh ht, hs⟩⟩
  · rw [hboth, endsWithin_iff_doneLens]
  · rw [hboth, ← ha.endsWithin_iff ht]
    rfl

/-- One entry of 8 bytes that is DONE. -/
def oneDone : Mem := fun a => if a = 1 then 8 else if a = 4 then 1 else 0

theorem oneDone_doneLens {lens : List Nat} (h : DoneLens header64 oneDone 8 0 lens) : lens = [] ∨ lens = [8] := by
  cases lens with
  | nil => exact .inl rfl
  | cons len lens =>
    obtain ⟨⟨-, -, rfl⟩, h⟩ := h
    cases lens with
    | nil => exact .inr rfl
    | cons len lens => exact absurd rfl h.1.1

theorem oneDone_aligned : Aligned header64 oneDone 8 0 where
  dvd lens h len hlen := by
    rcases oneDone_doneLens h with rfl | rfl
    · cases hlen
    · rw [List.mem_singleton.mp hlen]
      decide
  lt lens len h := by
    rcases oneDone_doneLens h with h | h
    · exact absurd h (by simp)
    · obtain ⟨rfl, hlen⟩ := (List.append_eq_singleton_iff.mp h).resolve_right (by simp)
      rw [List.singleton_inj.mp hlen]
      decide

theorem oneDone_lensFit : LensFit header64 oneDone 8 0 := by
  intro lens h
  rcases oneDone_doneLens h with rfl | rfl <;> decide

/-- The entry is passed, and the second slot of the completion ring. -/
theorem loopsEnd_iff_one :
    LoopsEnd header64 Compr.twoSlots oneDone 8 0 16 0 ∧ NoRound header64 oneDone 8 0 := by
  have h := @loopsEnd_iff header64 Compr.twoSlots oneDone 8 0 0 16 (by decide) (by decide) (by decide)
  have hends := h.2.2 oneDone_lensFit (by decide)
  exact ⟨hends, ((h.2.1 oneDone_aligned).mp hends).1⟩

/-- A header that is DONE and has length 0. -/
def zeroLen : Mem := fun a => if a = 4 then 1 else 0

/-- `advance_cmd_ring` never gets past it. -/
theorem zero_length_endless : (∀ n, ¬ EndsWithin (advanceIter header64 zeroLen 8) n 0) ∧
    ¬ LoopsEnd header64 Compr.twoSlots zeroLen 8 0 16 0 := by
  have hcyc : Cycles (advanceIter header64 zeroLen 8) 0 :=
    cycles_of_zero (by decide) (by decide) (by decide) (by decide)
  exact ⟨hcyc.not_endsWithin, fun h => hcyc.not_endsWithin _ h.advance⟩

end Ubbd.Ring

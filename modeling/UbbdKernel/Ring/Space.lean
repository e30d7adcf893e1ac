import UbbdKernel.Ring.Fifo

/-!
# The space check and the padding

`submit_ring_space_enough` and `insert_padding` each decide whether a command
fits before the end of the ring, the one with `>` and the other with `>=`. A
command that ends exactly at the end of the ring is therefore charged for a
padding that is not inserted. `enough_iff` says what the check compares, and
`agrees_iff` when its answer is the right one: that the bytes in use, the
padding and the command leave the reserve free.
-/

namespace Ubbd.Ring

open Circular

variable (H : Header)

/-- The bytes between tail and head. -/
def usedBytes (r : CmdRing) : Nat := dist H.cmdrSize r.cmdTail r.cmdHead

/-- The bytes from the head to the end of the ring. -/
def restBytes (r : CmdRing) : Nat := H.cmdrSize - r.cmdHead

/-- The bytes that are neither in use nor in the reserve. -/
def freeBytes (r : CmdRing) : Nat := H.cmdrSize - H.cmdrReserved - usedBytes H r

/-- The bytes `insert_padding` adds. -/
def padBytes (r : CmdRing) (cmdSize : Nat) : Nat := if restBytes H r ≥ cmdSize then 0 else restBytes H r

/-- The ring invariant. -/
structure SpaceInv (r : CmdRing) : Prop where
  head_lt : r.cmdHead < H.cmdrSize
  tail_lt : r.cmdTail < H.cmdrSize
  head_dvd : H.opAlign ∣ r.cmdHead
  tail_dvd : H.opAlign ∣ r.cmdTail
  used_le : usedBytes H r ≤ H.cmdrSize - H.cmdrReserved

variable {H} {r : CmdRing}

/-- A ring that holds entries satisfies it. -/
theorem Rep.spaceInv {es : List Ent} (h : Rep H r es) : SpaceInv H r where
  head_lt := h.dist.1
  tail_lt := h.tail_lt
  head_dvd := h.head_dvd
  tail_dvd := by
    refine h.chain.dvd_start H.align_cmdr h.head_dvd fun s hs => ?_
    obtain ⟨e, he, rfl⟩ := List.mem_map.mp hs
    exact h.dvd e he
  used_le := by
    rw [usedBytes, h.dist.2]
    exact h.room

/-- `insert_padding` moves the head by `padBytes`. -/
theorem SpaceInv.insertPadding_head (h : SpaceInv H r) (cmdSize : Nat) :
    (insertPadding H r cmdSize).cmdHead = next H.cmdrSize r.cmdHead (padBytes H r cmdSize) := by
  have hlt := h.head_lt
  have hsub : sub32 H.cmdrSize r.cmdHead = restBytes H r := sub32_eq (by omega) H.cmdrSize_lt
  unfold insertPadding padBytes
  rw [hsub]
  split
  · exact (Nat.mod_eq_of_lt hlt).symm
  · exact updateCmdrHead_eq hlt

theorem SpaceInv.spaceUsed (h : SpaceInv H r) : spaceUsed H r = usedBytes H r := by
  have hsize := H.cmdrSize_lt
  have hhead := h.head_lt
  have htail := h.tail_lt
  unfold Ring.spaceUsed usedBytes Circular.dist
  split
  · rw [sub32_eq (by omega) (by omega), if_pos (by omega)]
  · split
    · rw [sub32_eq (by omega) (by omega), add32_eq (by omega), if_neg (by omega)]
      omega
    · rw [if_pos (by omega)]
      omega

/-- What `submit_ring_space_enough` compares, in `u32`. -/
theorem SpaceInv.enough_iff (h : SpaceInv H r) (n : Nat) :
    submitRingSpaceEnough H r n = true ↔
      (if n < restBytes H r then n else (n + restBytes H r) % 2 ^ 32) ≤ freeBytes H r := by
  have hsize := H.cmdrSize_lt
  have hhead := h.head_lt
  have hused := h.used_le
  have hsub : sub32 H.cmdrSize r.cmdHead = restBytes H r := sub32_eq (by omega) hsize
  have havail : spaceAvailable H r = freeBytes H r := by
    rw [Ring.spaceAvailable, h.spaceUsed, spaceMax_eq, sub32_eq hused (by omega), freeBytes]
  have hneed : spaceNeeded H r n = if n < restBytes H r then n else (n + restBytes H r) % 2 ^ 32 := by
    unfold spaceNeeded
    rw [hsub]
    split
    · rfl
    · unfold sub32 add32 restBytes
      omega
  rw [submitRingSpaceEnough, havail, hneed, ← Nat.not_lt]
  by_cases hlt : freeBytes H r < if n < restBytes H r then n else (n + restBytes H r) % 2 ^ 32
  · rw [if_pos hlt]
    exact iff_of_false (by decide) (not_not.mpr hlt)
  · rw [if_neg hlt]
    exact iff_of_true rfl hlt

/-- The command fits: with the padding that is inserted for it, it leaves the
reserve free. -/
def FitsRing (H : Header) (r : CmdRing) (cmdSize : Nat) : Prop :=
  usedBytes H r + padBytes H r cmdSize + cmdSize ≤ H.cmdrSize - H.cmdrReserved

theorem SpaceInv.fitsRing_iff (h : SpaceInv H r) (n : Nat) :
    FitsRing H r n ↔ n + (if restBytes H r ≥ n then 0 else restBytes H r) ≤ freeBytes H r := by
  have hused := h.used_le
  unfold FitsRing padBytes freeBytes
  split <;> omega

/-- A command of a request, whose size leaves room in a `u32`, is only refused
where it fits if it ends exactly at the end of the ring. -/
theorem SpaceInv.agrees_of_fits (h : SpaceInv H r) {n : Nat} (hn : H.cmdrSize + n < 2 ^ 32) :
    (submitRingSpaceEnough H r n = true ↔ FitsRing H r n) ↔
      ¬ (n = restBytes H r ∧ n ≤ freeBytes H r ∧ freeBytes H r < 2 * n) := by
  have hrest : restBytes H r ≤ H.cmdrSize := Nat.sub_le _ _
  rw [h.enough_iff, h.fitsRing_iff, Nat.mod_eq_of_lt (show n + restBytes H r < 2 ^ 32 by omega)]
  split <;> split <;> omega

/-- For every command size the check and the padding agree, but where the
command ends exactly at the end of the ring and there is not room for it
twice, or where the sum of the two sizes wraps to something that fits. -/
theorem agrees_iff (h : SpaceInv H r) (cmdSize : UInt32) :
    (submitRingSpaceEnough H r cmdSize.toNat = true ↔
      usedBytes H r + padBytes H r cmdSize.toNat + cmdSize.toNat ≤ H.cmdrSize - H.cmdrReserved) ↔
    (cmdSize.toNat = restBytes H r → cmdSize.toNat + restBytes H r < 2 ^ 32 →
      freeBytes H r < cmdSize.toNat ∨ 2 * cmdSize.toNat ≤ freeBytes H r) ∧
    (restBytes H r ≤ cmdSize.toNat → 2 ^ 32 ≤ cmdSize.toNat + restBytes H r →
      cmdSize.toNat = restBytes H r ∧ cmdSize.toNat ≤ freeBytes H r ∨
      freeBytes H r + 2 ^ 32 < cmdSize.toNat + restBytes H r) := by
  have hn := cmdSize.toNat_lt
  have hfit := h.fitsRing_iff cmdSize.toNat
  have hfree : freeBytes H r ≤ H.cmdrSize := by
    unfold freeBytes
    omega
  have hrest : restBytes H r ≤ H.cmdrSize := Nat.sub_le _ _
  have hsize := H.cmdrSize_lt
  rw [FitsRing] at hfit
  rw [h.enough_iff, hfit]
  split <;> split <;> omega

/-- An empty ring of 64 bytes with its head in the middle. -/
def halfway : CmdRing := ⟨fun _ => 0, 32, 32⟩

/-- Its header, with a reserve of 8 bytes. -/
def header64 : Header := sampleHeader 64 8 eight_dvd_64 eight_pos eight_le_64 lt_64

theorem spaceInv_halfway : SpaceInv header64 halfway := by
  constructor <;> decide

theorem agrees_iff_halfway : SpaceInv header64 halfway ∧
    (submitRingSpaceEnough header64 halfway (24 : UInt32).toNat = true ↔
      usedBytes header64 halfway + padBytes header64 halfway (24 : UInt32).toNat + (24 : UInt32).toNat ≤
        header64.cmdrSize - header64.cmdrReserved) :=
  ⟨spaceInv_halfway, (agrees_iff spaceInv_halfway 24).mpr (by decide)⟩

/-- A command of 32 bytes fits exactly before the end of the ring, no padding
is needed, and it is refused. -/
theorem exact_fit_refused : SpaceInv header64 halfway ∧
    usedBytes header64 halfway + padBytes header64 halfway 32 + 32 ≤ header64.cmdrSize - header64.cmdrReserved ∧
    submitRingSpaceEnough header64 halfway 32 = false :=
  ⟨spaceInv_halfway, by decide, by decide⟩

end Ubbd.Ring

import Mathlib.Tactic.Common
import UbbdKernel.Request

/-!
# The address of a data page

Three paths compute where data page `i` is in the file of the queue:
`ubbd_release_page` for the range it unmaps (`releaseOff`, with `int`s and
the constant 4096), `ubbd_set_se_iov` for the backend (`iovBase`, with
`PAGE_SIZE`), and `ubbd_vma_fault` from the offset back to the index
(`faultIndex`). They agree on page 0, and on the pages below `2 ^ 19` when
pages have 4096 bytes, provided that `data_off` is a whole number of pages,
and on no other page (`agree_iff`).
-/

namespace Ubbd.Address

/-- The page size of a 64-bit kernel, and `data_off`, which is `RING_SIZE`:
the size of an allocation. -/
structure Geometry where
  pageShift : Nat
  dataOff : Nat
  le_pageShift : 12 ≤ pageShift
  pageShift_le : pageShift ≤ 20
  dataOff_lt : dataOff < 2 ^ 56

/-- The product `page_index * 4096` of two `int`s. -/
def mul4096 (i : Int) : Int := toInt32 (toUInt32 (i * 4096))

namespace Geometry

variable (g : Geometry)

/-- `PAGE_SIZE`. -/
def pageSize : Nat := 2 ^ g.pageShift

/-- The page of an offset of the file. -/
def page (off : Nat) : Nat := off / g.pageSize

/-- The `off` of `ubbd_release_page` for the index `pi` of a slot. -/
def releaseOff (pi : Nat) : Nat := (g.dataOff + toULong (mul4096 (toInt32 pi))) % 2 ^ 64

/-- The `iov_base` of `ubbd_set_se_iov` for the index `pi` of a slot and a
segment at `bvOffset` of its page. -/
def iovBase (pi bvOffset : Nat) : Nat := (pi * g.pageSize + g.dataOff + bvOffset) % 2 ^ 64

/-- The data index that `ubbd_vma_fault` decodes page `pgoff` of the file to, if
it is not a page of the rings. -/
def faultIndex (pgoff : Nat) : Option Nat :=
  let offset := pgoff * g.pageSize % 2 ^ 64
  if offset < g.dataOff then none else some ((offset - g.dataOff) / g.pageSize % 2 ^ 32)

/-- The first page of the file at or after the data offset of index `i`. -/
def dataPgoff (i : Nat) : Nat := (g.dataOff + g.pageSize - 1) / g.pageSize + i

theorem le_pageSize : 4096 ≤ g.pageSize :=
  Nat.pow_le_pow_right (n := 2) (by decide) g.le_pageShift

theorem pageSize_le : g.pageSize ≤ 2 ^ 20 :=
  Nat.pow_le_pow_right (n := 2) (by decide) g.pageShift_le

/-- The next page size is 8192. -/
theorem le_pageSize_of_ne (h : g.pageSize ≠ 4096) : 8192 ≤ g.pageSize := by
  have hs : g.pageShift ≠ 12 := fun hs => h (by rw [pageSize, hs]; rfl)
  have hle := g.le_pageShift
  exact Nat.pow_le_pow_right (n := 2) (by decide) (show 13 ≤ g.pageShift by omega)

theorem page_eq_iff (off k : Nat) : g.page off = k ↔ k * g.pageSize ≤ off ∧ off < k * g.pageSize + g.pageSize := by
  have hp := g.le_pageSize
  rw [page, Nat.div_eq_iff (by omega), Nat.mul_comm k]
  omega

end Geometry

open Ubbd.Address.Geometry

/-! ## The paths -/

theorem toULong_mul4096 (i : Nat) : toULong (mul4096 (toInt32 i)) =
    if i % 2 ^ 20 < 2 ^ 19 then i % 2 ^ 20 * 4096 else 2 ^ 64 - 2 ^ 32 + i % 2 ^ 20 * 4096 := by
  unfold mul4096 toULong toUInt32 toInt32
  split <;> split <;> split <;> omega

/-- The product fits an `int`. -/
theorem releaseOff_of_lt (g : Geometry) {i : Nat} (h : i < 2 ^ 19) : g.releaseOff i = g.dataOff + i * 4096 := by
  have hlt := g.dataOff_lt
  rw [releaseOff, toULong_mul4096]
  split <;> omega

/-- The product wraps: the offset is before that of the page, or it is not even
an offset of a file. -/
theorem releaseOff_of_ge (g : Geometry) {i : Nat} (h : 2 ^ 19 ≤ i) (h' : i < 2 ^ 32) :
    g.releaseOff i < g.dataOff + i * 4096 ∨ 2 ^ 63 ≤ g.releaseOff i := by
  have hlt := g.dataOff_lt
  rw [releaseOff, toULong_mul4096]
  split <;> omega

/-- No address of a data page wraps. -/
theorem mul_pageSize_lt (g : Geometry) {i : Nat} (h : i < 2 ^ 32) : i * g.pageSize < 2 ^ 52 :=
  calc i * g.pageSize ≤ i * 2 ^ 20 := Nat.mul_le_mul_left i g.pageSize_le
    _ < 2 ^ 52 := by omega

theorem iovBase_eq (g : Geometry) {i b : Nat} (h : i < 2 ^ 32) (hb : b < g.pageSize) :
    g.iovBase i b = i * g.pageSize + g.dataOff + b := by
  have hi := mul_pageSize_lt g h
  have hlt := g.dataOff_lt
  have hp := g.pageSize_le
  exact Nat.mod_eq_of_lt (by omega)

/-- A fault there decodes to the index. -/
theorem faultIndex_dataPgoff (g : Geometry) {i : Nat} (h : i < 2 ^ 32) : g.faultIndex (g.dataPgoff i) = some i := by
  have hi := mul_pageSize_lt g h
  have hlt := g.dataOff_lt
  have hp := g.le_pageSize
  have hple := g.pageSize_le
  obtain ⟨q, hq⟩ : ∃ q, (g.dataOff + g.pageSize - 1) / g.pageSize = q := ⟨_, rfl⟩
  have hqb := (Nat.div_eq_iff (by omega)).mp hq
  have hoff : (q + i) * g.pageSize % 2 ^ 64 = q * g.pageSize + i * g.pageSize := by
    rw [Nat.add_mul]
    exact Nat.mod_eq_of_lt (by omega)
  have hdiv : (q * g.pageSize + i * g.pageSize - g.dataOff) / g.pageSize = i := by
    rw [Nat.div_eq_iff (by omega)]
    omega
  rw [faultIndex, dataPgoff, hq]
  simp only [hoff]
  rw [if_neg (by omega), hdiv, Nat.mod_eq_of_lt h]

theorem dataPgoff_of_dvd (g : Geometry) {i q : Nat} (hq : g.dataOff = q * g.pageSize) : g.dataPgoff i = q + i := by
  have hp := g.le_pageSize
  rw [dataPgoff, hq, Nat.add_sub_assoc (by omega), Nat.add_comm (q * _), Nat.add_mul_div_right _ _ (by omega),
    Nat.div_eq_of_lt (by omega), Nat.zero_add]

/-- With `data_off` a whole number of pages, so is every data page. -/
theorem page_add (g : Geometry) {i q b : Nat} (hq : g.dataOff = q * g.pageSize) (hb : b < g.pageSize) :
    g.page (i * g.pageSize + g.dataOff + b) = q + i := by
  rw [page_eq_iff, Nat.add_mul, ← hq]
  omega

/-- The release of page 0, and that of a page of 4096 bytes whose offset fits an
`int`, unmaps the page itself. -/
theorem page_releaseOff (g : Geometry) {i q : Nat} (hq : g.dataOff = q * g.pageSize)
    (hi : i = 0 ∨ g.pageSize = 4096 ∧ i < 2 ^ 19) : g.page (g.releaseOff i) = g.dataPgoff i := by
  have hp := g.le_pageSize
  have hoff : g.releaseOff i = i * g.pageSize + g.dataOff + 0 := by
    rcases hi with rfl | ⟨hps, hsmall⟩
    · rw [releaseOff_of_lt g (by decide)]
      omega
    · rw [releaseOff_of_lt g hsmall, hps]
      omega
  rw [hoff, page_add g hq (by omega), dataPgoff_of_dvd g hq]

/-- The entries that `ubbd_set_se_iov` writes are at `iovBase`. -/
theorem base_seIov (g : Geometry) (r : Request g.pageSize) (pi : List Nat) :
    (r.seIov g.dataOff pi).map Iovec.base = List.zipWith (fun i bv => g.iovBase i bv.off) pi r.segments := by
  rw [Request.seIov, List.map_zipWith]
  rfl

/-! ## Agreement -/

/-- The paths agree on data page `i`: the page that its release unmaps is the
page that a fault decodes to index `i`, and every address that the backend is
given in data page `i` is in it. -/
structure Agree (g : Geometry) (i : Nat) : Prop where
  decoded : g.faultIndex (g.page (g.releaseOff i)) = some i
  iov : ∀ b < g.pageSize, g.page (g.iovBase i b) = g.page (g.releaseOff i)

/-- The addresses in a data page are all in one page of the file only if
`data_off` is a whole number of pages. -/
theorem Agree.dvd {g : Geometry} {i : Nat} (h : Agree g i) (hi : i < 2 ^ 32) : g.pageSize ∣ g.dataOff := by
  have hp := g.le_pageSize
  have hfirst := h.iov 0 (by omega)
  have hlast := h.iov (g.pageSize - 1) (by omega)
  rw [iovBase_eq g hi (by omega)] at hfirst hlast
  rw [← hfirst, page_eq_iff] at hlast
  have hdiv : g.page (i * g.pageSize + g.dataOff + 0) = i + g.dataOff / g.pageSize := by
    rw [page, Nat.add_zero, Nat.add_comm, Nat.add_mul_div_right _ _ (by omega), Nat.add_comm]
  rw [hdiv, Nat.add_mul] at hlast
  have hmod := Nat.div_add_mod g.dataOff g.pageSize
  rw [Nat.mul_comm] at hmod
  exact Nat.dvd_of_mod_eq_zero (by omega)

/-- For every page size, every `data_pages` and every index below it. -/
theorem agree_iff (g : Geometry) (dataPages : UInt32) {i : Nat} (h : i < dataPages.toNat) :
    Agree g i ↔ g.pageSize ∣ g.dataOff ∧ (i = 0 ∨ g.pageSize = 4096 ∧ i < 2 ^ 19) := by
  have hi : i < 2 ^ 32 := Nat.lt_trans h dataPages.toNat_lt
  have hp := g.le_pageSize
  have hmul := mul_pageSize_lt g hi
  have hlt := g.dataOff_lt
  constructor
  · intro hagree
    refine ⟨hagree.dvd hi, ?_⟩
    obtain ⟨q, hq⟩ := hagree.dvd hi
    rw [Nat.mul_comm] at hq
    have hiov := hagree.iov 0 (by omega)
    have hbase : g.page (g.iovBase i 0) = i + q := by
      rw [iovBase_eq g hi (by omega), page_eq_iff, Nat.add_mul, ← hq]
      omega
    rw [hbase, eq_comm, page_eq_iff, Nat.add_mul, ← hq] at hiov
    by_contra hne
    obtain ⟨hi0, hne⟩ := not_or.mp hne
    -- the unmapped offset is before the page, or too far behind it
    by_cases hsmall : i < 2 ^ 19
    · have hlarge : i * 8192 ≤ i * g.pageSize :=
        Nat.mul_le_mul_left i (g.le_pageSize_of_ne fun h => hne ⟨h, hsmall⟩)
      rw [releaseOff_of_lt g hsmall] at hiov
      omega
    · have hle : i * 4096 ≤ i * g.pageSize := Nat.mul_le_mul_left i hp
      have hps := g.pageSize_le
      rcases releaseOff_of_ge g (by omega) hi with hoff | hoff <;> omega
  · rintro ⟨⟨q, hq⟩, hcond⟩
    rw [Nat.mul_comm] at hq
    have hrelease := page_releaseOff g hq hcond
    refine ⟨?_, fun b hb => ?_⟩
    · rw [hrelease]
      exact faultIndex_dataPgoff g hi
    · rw [hrelease, dataPgoff_of_dvd g hq, iovBase_eq g hi hb]
      exact page_add g hq hb

/-- Pages of 4096 bytes, and rings of 1 MiB. -/
def sample : Geometry := ⟨12, 2 ^ 20, by decide, by decide, by decide⟩

theorem agree_iff_two : 2 < (3 : UInt32).toNat ∧ Agree sample 2 :=
  ⟨by decide, (agree_iff sample 3 (by decide)).mpr ⟨by decide, .inr ⟨by decide, by decide⟩⟩⟩

/-- Pages of 64 KiB: the release of data page 1 unmaps data page 0. -/
theorem second_page_disagrees : ∃ g : Geometry, g.pageSize = 2 ^ 16 ∧ g.pageSize ∣ g.dataOff ∧
    g.faultIndex (g.page (g.releaseOff 1)) = some 0 ∧ ¬ Agree g 1 := by
  refine ⟨⟨16, 2 ^ 20, by decide, by decide, by decide⟩, by decide, by decide, by decide, fun h => ?_⟩
  exact absurd h.decoded (by decide)

end Ubbd.Address

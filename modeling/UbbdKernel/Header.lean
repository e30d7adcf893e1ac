import UbbdKernel.Basic
import UbbdKernel.Framework.Bytes

/-!
# The shared header `ubbd.h`

The layout of the ring that kernel and backend share is fixed in `ubbd.h`,
in a repository of its own. `Header` is what the driver uses of it: the size
of the command ring and of its reserve, the members of `struct ubbd_se` and
of its header, and the accessors of the packed word `len_op` and of the
flags; with what the driver relies on. `sampleHeader` is one such header.
-/

namespace Ubbd

/-- `sizeof(struct iovec)`: a pointer and a `size_t`. -/
def sizeofIovec : Nat := 16

/-- The largest number of segments of a request: `blk_queue_max_hw_sectors(q,
128)` lets a request have 128 sectors, and no segment is empty. -/
def maxSegments : Nat := 128 * 512

/-- `round_up`, to a power of two. -/
def roundUp (x y : Nat) : Nat := (x + (y - 1)) / y * y

theorem le_roundUp {x y : Nat} (hy : 0 < y) : x ≤ roundUp x y := by
  have := Nat.div_add_mod (x + (y - 1)) y
  have := Nat.mod_lt (x + (y - 1)) hy
  unfold roundUp
  rw [Nat.mul_comm]
  omega

theorem roundUp_le (x y : Nat) : roundUp x y ≤ x + (y - 1) := Nat.div_mul_le_self _ _

theorem dvd_roundUp (x y : Nat) : y ∣ roundUp x y := Nat.dvd_mul_left _ _

/-- What the driver uses of `ubbd.h`. -/
structure Header where
  /-- `CMDR_SIZE`, `CMDR_RESERVED` and `UBBD_OP_ALIGN_SIZE`. -/
  cmdrSize : Nat
  cmdrReserved : Nat
  opAlign : Nat
  /-- `sizeof(struct ubbd_se_hdr)` and `sizeof(struct ubbd_se)`. -/
  sizeofSeHdr : Nat
  sizeofSe : Nat
  /-- The members of `struct ubbd_se`, the first two in its header. -/
  lenOp : Field
  flags : Field
  privData : Field
  offset : Field
  len : Field
  iovCnt : Field
  /-- The offset of the array `iov` that follows them. -/
  iovOff : Nat
  /-- `ubbd_se_hdr_set_op`, `_get_op`, `_set_len` and `_get_len` on the word
  `len_op`. -/
  setOp : Nat → UbbdOp → Nat
  getOp : Nat → UbbdOp
  setLen : Nat → Nat → Nat
  getLen : Nat → Nat
  /-- `ubbd_se_hdr_flags_test` and `_set` of `UBBD_SE_HDR_DONE` on the flags. -/
  testDone : Nat → Bool
  setDone : Nat → Nat
  opAlign_pos : 0 < opAlign
  align_cmdr : opAlign ∣ cmdrSize
  hdr_le_align : sizeofSeHdr ≤ opAlign
  reserved_pos : 0 < cmdrReserved
  reserved_le : cmdrReserved ≤ cmdrSize
  /-- The ring and the largest command together are no larger than a `u32`. -/
  fits : cmdrSize + sizeofSe + sizeofIovec * maxSegments + opAlign ≤ 2 ^ 32
  disjoint : [lenOp, flags, privData, offset, len, iovCnt].Pairwise Field.Disjoint
  lenOp_hdr : lenOp.off + lenOp.width ≤ sizeofSeHdr
  flags_hdr : flags.off + flags.width ≤ sizeofSeHdr
  before_iov : ∀ f ∈ [lenOp, flags, privData, offset, len, iovCnt], f.off + f.width ≤ iovOff
  iovOff_le : iovOff ≤ sizeofSe
  lenOp_width : lenOp.width = 4
  privData_width : privData.width = 8
  offset_width : offset.width = 8
  len_width : 4 ≤ len.width
  iovCnt_width : 4 ≤ iovCnt.width
  setOp_lt (op : UbbdOp) : setOp 0 op < 2 ^ 32
  setLen_lt (w l : Nat) : setLen w l < 2 ^ 32
  getOp_setOp (op : UbbdOp) : getOp (setOp 0 op) = op
  getOp_setLen (w l : Nat) : getOp (setLen w l) = getOp w
  getLen_setLen {w l : Nat} : opAlign ∣ l → l ≤ cmdrSize → getLen (setLen w l) = l
  testDone_zero : testDone 0 = false
  testDone_setDone (w : Nat) : testDone (setDone w) = true
  setDone_lt {w : Nat} : w < 256 ^ flags.width → setDone w < 256 ^ flags.width

/-- The number of an operation in the packed word of `sampleHeader`. -/
def sampleCode : UbbdOp → Nat
  | .write => 0 | .read => 1 | .discard => 2 | .writeZeros => 3 | .flush => 4 | .pad => 5

def sampleOp : Nat → UbbdOp
  | 0 => .write | 1 => .read | 2 => .discard | 3 => .writeZeros | 4 => .flush | _ => .pad

/-- A header with the operation in the low byte of `len_op`, the length above
it and DONE as the low bit of the flags, for a ring of `size` bytes. -/
def sampleHeader (size reserved : Nat) (hs : 8 ∣ size) (hr : 0 < reserved) (hrs : reserved ≤ size)
    (hb : size < 2 ^ 24) : Header where
  cmdrSize := size
  cmdrReserved := reserved
  opAlign := 8
  sizeofSeHdr := 8
  sizeofSe := 32
  lenOp := ⟨0, 4⟩
  flags := ⟨4, 4⟩
  privData := ⟨8, 8⟩
  offset := ⟨16, 8⟩
  len := ⟨24, 4⟩
  iovCnt := ⟨28, 4⟩
  iovOff := 32
  setOp w op := w / 256 * 256 % 2 ^ 32 + sampleCode op
  getOp w := sampleOp (w % 256)
  setLen w l := l % 2 ^ 24 * 256 + w % 256
  getLen w := w / 256
  testDone w := w % 2 = 1
  setDone w := w / 2 * 2 + 1
  opAlign_pos := by decide
  align_cmdr := hs
  hdr_le_align := by decide
  reserved_pos := hr
  reserved_le := hrs
  fits := by simp only [sizeofIovec, maxSegments]; omega
  disjoint := by decide
  lenOp_hdr := by decide
  flags_hdr := by decide
  before_iov := by decide
  iovOff_le := by decide
  lenOp_width := rfl
  privData_width := rfl
  offset_width := rfl
  len_width := by decide
  iovCnt_width := by decide
  setOp_lt op := by cases op <;> decide
  setLen_lt w l := by omega
  getOp_setOp op := by cases op <;> rfl
  getOp_setLen w l := by
    congr 1
    omega
  getLen_setLen _ hl := by omega
  testDone_zero := rfl
  testDone_setDone w := by
    simp only [decide_eq_true_eq]
    omega
  setDone_lt h := by
    simp only at h ⊢
    omega

-- what a sample header asks of a ring of 64 bytes with a reserve of 8
theorem eight_pos : 0 < 8 := by decide

theorem eight_dvd_64 : 8 ∣ 64 := by decide

theorem eight_le_64 : 8 ≤ 64 := by decide

theorem lt_64 : 64 < 2 ^ 24 := by decide

namespace Header

variable (H : Header)

/-- `ubbd_get_cmd_size` of a request with `cnt` segments. -/
def ubbdGetCmdSize (cnt : Nat) : Nat :=
  roundUp ((H.sizeofSe + sizeofIovec * cnt) % 2 ^ 32) H.opAlign

variable {H}

theorem ubbdGetCmdSize_eq {cnt : Nat} (h : cnt ≤ maxSegments) :
    H.ubbdGetCmdSize cnt = roundUp (H.sizeofSe + sizeofIovec * cnt) H.opAlign := by
  have := H.fits
  have := Nat.mul_le_mul_left sizeofIovec h
  have := H.opAlign_pos
  rw [ubbdGetCmdSize, Nat.mod_eq_of_lt (by omega)]

/-- An entry has room for its members and its `iov`. -/
theorem iov_le_cmdSize {cnt : Nat} (h : cnt ≤ maxSegments) :
    H.iovOff + sizeofIovec * cnt ≤ H.ubbdGetCmdSize cnt := by
  have := H.iovOff_le
  have := le_roundUp (x := H.sizeofSe + sizeofIovec * cnt) H.opAlign_pos
  rw [ubbdGetCmdSize_eq h]
  omega

theorem cmdSize_pos {cnt : Nat} (h : cnt ≤ maxSegments) : 0 < H.ubbdGetCmdSize cnt := by
  have h₁ := iov_le_cmdSize (H := H) h
  have h₂ := H.before_iov H.lenOp (List.mem_cons_self ..)
  have h₃ := H.lenOp_width
  omega

/-- The ring and a command fit in a `u32`. -/
theorem cmdr_add_cmdSize_lt {cnt : Nat} (h : cnt ≤ maxSegments) :
    H.cmdrSize + H.ubbdGetCmdSize cnt < 2 ^ 32 := by
  have := H.fits
  have := Nat.mul_le_mul_left sizeofIovec h
  have := roundUp_le (H.sizeofSe + sizeofIovec * cnt) H.opAlign
  have := H.opAlign_pos
  rw [ubbdGetCmdSize_eq h]
  omega

theorem cmdrSize_lt : H.cmdrSize < 2 ^ 32 := by
  have := H.fits
  have := H.opAlign_pos
  omega

theorem dvd_cmdSize (cnt : Nat) : H.opAlign ∣ H.ubbdGetCmdSize cnt := dvd_roundUp _ _

end Header

end Ubbd

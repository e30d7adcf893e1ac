import UbbdKernel.Ring.Model

/-!
# Requests

A block layer request: its operation, its range, and its chain of bios, each
a list of segments inside one page. `ubbdReqSegments` counts the segments that
need a data page, `seIov` are the ranges that `ubbd_set_se_iov` writes for
them, and `seCmd` is the whole command of a request.
-/

namespace Ubbd

/-- `struct bio_vec`, as `bio_for_each_segment` yields it. -/
structure BioVec where
  page : Nat
  off : Nat
  len : Nat
  deriving DecidableEq, Repr

/-- A request, for pages of `pageSize` bytes. -/
structure Request (pageSize : Nat) where
  op : ReqOp
  /-- `blk_rq_pos`, in sectors, and `blk_rq_bytes`. -/
  pos : Nat
  bytes : Nat
  /-- The segments of each bio of the chain. -/
  bios : List (List BioVec)
  single : ∀ bio ∈ bios, ∀ bv ∈ bio, bv.off + bv.len ≤ pageSize
  segs_le : (bios.map List.length).sum ≤ maxSegments
  bytes_lt : bytes < 2 ^ 32

/-- The `switch` of `ubbd_queue_rq`. -/
def ubbdOp : ReqOp → Option UbbdOp
  | .flush => some .flush
  | .discard => some .discard
  | .writeZeroes => some .writeZeros
  | .write => some .write
  | .read => some .read
  | .other => none

/-- `ubbd_req_nodata`, for the operations a request can have. -/
def ubbdReqNodata : UbbdOp → Bool
  | .write | .read => false
  | .discard | .writeZeros | .flush | .pad => true

/-- `UBBD_REQ_INLINE_PI_MAX`. -/
def inlinePiMax : Nat := 4

namespace Request

variable {pageSize : Nat}

/-- The segments of the chain, in the order of the walks over it. -/
def segments (r : Request pageSize) : List BioVec := r.bios.flatten

/-- `ubbd_req_segments`. -/
def ubbdReqSegments (r : Request pageSize) (op : UbbdOp) : Nat :=
  if ubbdReqNodata op then 0 else r.bios.foldl (fun segs bio => (segs + bio.length) % 2 ^ 32) 0

/-- The ranges `ubbd_set_se_iov` writes, for the indices in the slots `pi`. -/
def seIov (r : Request pageSize) (dataOff : Nat) (pi : List Nat) : List Iovec :=
  List.zipWith (fun i bv => ⟨(i * pageSize + dataOff + bv.off) % 2 ^ 64, bv.len⟩) pi r.segments

/-- The command that `queue_req_se_init` and `queue_req_data_init` write. -/
def seCmd (r : Request pageSize) (op : UbbdOp) (dataOff tid : Nat) (pi : List Nat) : Cmd where
  op := op
  privData := tid
  offset := r.pos * 512 % 2 ^ 64
  len := r.bytes
  iov := r.seIov dataOff pi

theorem length_segments (r : Request pageSize) : r.segments.length = (r.bios.map List.length).sum := by
  simp [segments]

theorem foldl_segments {bios : List (List BioVec)} {k : Nat}
    (h : k + (bios.map List.length).sum < 2 ^ 32) :
    bios.foldl (fun segs bio => (segs + bio.length) % 2 ^ 32) k = k + (bios.map List.length).sum := by
  induction bios generalizing k with
  | nil => rfl
  | cons bio bios ih =>
    simp only [List.map_cons, List.sum_cons] at h ⊢
    rw [List.foldl_cons, Nat.mod_eq_of_lt (by omega), ih (by omega)]
    omega

/-- The count of the segments of a request with data does not wrap. -/
theorem ubbdReqSegments_eq (r : Request pageSize) {op : UbbdOp} (h : ubbdReqNodata op = false) :
    r.ubbdReqSegments op = r.segments.length := by
  have hle := r.segs_le
  have hmax : maxSegments = 65536 := rfl
  rw [ubbdReqSegments, h, length_segments]
  simp only [Bool.false_eq_true, if_false]
  rw [foldl_segments (by omega), Nat.zero_add]

end Request

end Ubbd

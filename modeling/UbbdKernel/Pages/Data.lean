import Mathlib.Data.List.GetD
import UbbdKernel.Framework.PageMem
import UbbdKernel.Pages.Calls
import UbbdKernel.Pages.Owner
import UbbdKernel.Request
import UbbdKernel.Ring.Fifo

/-!
# The data of a request

Five walks over the bios of a request have to agree: `ubbd_req_segments` counts
the segments, `ubbd_get_data_pages` records a data page index for each in the
slots (`inline_pi` and, from the fifth on, `pi`), `ubbd_set_se_iov` writes their
ranges in the mapping of the backend, and `copy_data_to_ubbdreq` and
`copy_data_from_ubbdreq` copy between the bios and the data pages. The backend
finds a byte of its mapping through `ubbd_vma_fault`.

`dataSeen`: whenever `ubbd_get_data_pages` has returned for a request, in any
run of the calls of any number of requests, the backend sees at the ranges of
the entry what the bios of a WRITE hold, and the bios of a READ get what is
found there, segment by segment, if no two of its segments share a byte; of the
data pages, the kernel writes to these ranges only. Two segments of a READ that
share a byte both end up with the data of the second
(`overlapping_segments_not_seen`).
-/

namespace Ubbd.Data

open Pages (Page)

/-! ## The walks -/

/-- `bio_for_each_segment`, with `bvec_index`. -/
def walkBio : Nat → List BioVec → List (Nat × BioVec)
  | _, [] => []
  | k, bv :: bvs => (k, bv) :: walkBio (k + 1) bvs

/-- The segments of a chain of bios, each with its `bvec_index`, in the order
in which the walks go over them. -/
def walk : Nat → List (List BioVec) → List (Nat × BioVec)
  | _, [] => []
  | k, bio :: bios => walkBio k bio ++ walk (k + bio.length) bios

/-- The slots of a request: `inline_pi`, and `pi` with its `pi_cnt -
UBBD_REQ_INLINE_PI_MAX` elements. -/
structure Slots where
  inlinePi : Nat → Nat
  pi : List Nat

/-- `ubbd_req_pi_alloc`, if there are more segments than slots in `inline_pi`. -/
def ubbdReqPiAlloc (inlinePi : Nat → Nat) (piCnt : Nat) : Slots :=
  ⟨inlinePi, List.replicate (piCnt - inlinePiMax) 0⟩

/-- `ubbd_req_get_pi`; none if it reads behind the array. -/
def ubbdReqGetPi (s : Slots) (bvecIndex : Nat) : Option Nat :=
  if bvecIndex < inlinePiMax then some (s.inlinePi bvecIndex) else s.pi[bvecIndex - inlinePiMax]?

/-- `ubbd_req_set_pi`; none if it writes behind the array. -/
def ubbdReqSetPi (s : Slots) (index value : Nat) : Option Slots :=
  if index < inlinePiMax then some { s with inlinePi := Function.update s.inlinePi index value }
  else if index - inlinePiMax < s.pi.length then some { s with pi := s.pi.set (index - inlinePiMax) value }
  else none

/-- The stores of `ubbd_get_data_pages` to the slots, for the indices it takes. -/
def setPis : Slots → List (Nat × BioVec) → List Nat → Option Slots
  | s, (bvecIndex, _) :: w, pageIndex :: xs =>
    (ubbdReqSetPi s bvecIndex pageIndex).bind fun s => setPis s w xs
  | s, _, _ => some s

/-- `PAGE_SIZE` and `data_off`, which is a whole number of pages; the offsets of
all data pages fit in an `unsigned long`. -/
structure Layout where
  pageSize : Nat
  dataOff : Nat
  pageSize_pos : 0 < pageSize
  dvd : pageSize ∣ dataOff
  fits : 2 ^ 32 * pageSize + dataOff ≤ 2 ^ 64

variable (L : Layout)

/-- The element of the `iov` for a segment whose page has index `pageIndex`. -/
def iovOf (pageIndex : Nat) (bv : BioVec) : Iovec :=
  ⟨(pageIndex * L.pageSize + L.dataOff + bv.off) % 2 ^ 64, bv.len⟩

/-- `ubbd_set_se_iov`. -/
def ubbdSetSeIov (s : Slots) (w : List (Nat × BioVec)) : Option (List Iovec) :=
  w.mapM fun (bvecIndex, bv) => (ubbdReqGetPi s bvecIndex).map fun pageIndex => iovOf L pageIndex bv

/-- `ubbd_req_get_page`. -/
def ubbdReqGetPage (s : Slots) (array : Nat → Option Page) (bvecIndex : Nat) : Option Page :=
  (ubbdReqGetPi s bvecIndex).bind array

/-- `copy_data_to_ubbdreq`; none at the `BUG_ON`. The pages of bios are not
pages of the driver. -/
def copyDataToUbbdreq (s : Slots) (array : Nat → Option Page) (bio : PageMem) (w : List (Nat × BioVec))
    (data : PageMem) : Option PageMem :=
  w.foldlM (fun data (bvecIndex, bv) => (ubbdReqGetPage s array bvecIndex).map fun page =>
    data.memcpy bio ⟨page, bv.page, bv.off, bv.len⟩) data

/-- `copy_data_from_ubbdreq`. -/
def copyDataFromUbbdreq (s : Slots) (array : Nat → Option Page) (data : PageMem) (w : List (Nat × BioVec))
    (bio : PageMem) : Option PageMem :=
  w.foldlM (fun bio (bvecIndex, bv) => (ubbdReqGetPage s array bvecIndex).map fun page =>
    bio.memcpy data ⟨bv.page, page, bv.off, bv.len⟩) bio

/-- What is mapped at a page of the backend's mapping. -/
inductive MapPage
  /-- A page of the ring, by its offset. -/
  | ring (off : Nat)
  | data (page : Page)

/-- `ubbd_vma_fault`; none for `VM_FAULT_SIGBUS`. -/
def ubbdVmaFault (array : Nat → Option Page) (pgoff : Nat) : Option MapPage :=
  let offset := pgoff * L.pageSize % 2 ^ 64
  if offset < L.dataOff then some (.ring offset)
  else (array ((offset - L.dataOff) / L.pageSize % 2 ^ 32)).map .data

/-- The byte of the mapping at `a`. -/
def mmapByte (array : Nat → Option Page) (ring : Mem) (data : PageMem) (a : Nat) : Option UInt8 :=
  (ubbdVmaFault L array (a / L.pageSize)).map fun
    | .ring off => ring (off + a % L.pageSize)
    | .data page => data page (a % L.pageSize)

/-- The bytes of a range of the mapping. -/
def readIovec (array : Nat → Option Page) (ring : Mem) (data : PageMem) (v : Iovec) : Option (List UInt8) :=
  (List.range v.len).mapM fun k => mmapByte L array ring data (v.base + k)

/-- The bytes of a segment. -/
def segBytes (bio : PageMem) (bv : BioVec) : List UInt8 := bio.bytes bv.page bv.off bv.len

/-- No byte is in both segments. -/
def SegApart (bv bv' : BioVec) : Prop :=
  bv.page = bv'.page → bv.off + bv.len ≤ bv'.off ∨ bv'.off + bv'.len ≤ bv.off

/-! ## What is to hold -/

/-- What holds of a request with data, its slots and the `iov` of its entry. -/
structure Seen (H : Header) (r : Request L.pageSize) (op : UbbdOp) (array : Nat → Option Page) (pi : List Nat)
    (s : Slots) (iov : List Iovec) : Prop where
  /-- `iov_cnt` is the number of segments, and all slots that the walks use are
  below `pi_cnt`. -/
  cnt : r.ubbdReqSegments op = r.segments.length
  slots : ∀ w ∈ walk 0 r.bios, w.1 < r.ubbdReqSegments op
  /-- The entry says so, has the `iov`, and its length has room for it. -/
  entry : ∀ ring es tid ring', Ring.Rep H ring es → tid < 2 ^ 64 →
    Ring.submit H ring (r.seCmd op L.dataOff tid pi) = some ring' →
    let pos := Ring.sePos H ring (r.seCmd op L.dataOff tid pi)
    H.iovCnt.get ring'.cmdr pos = r.segments.length ∧ (Ring.entCmd H ring'.cmdr pos).iov = iov ∧
      H.iovOff + sizeofIovec * r.segments.length ≤ Ring.entLen H ring'.cmdr pos
  /-- The ranges give the bytes of the bios once these are copied, and nothing
  else of a data page is written. -/
  write : ∀ ring bio data, ∃ data', copyDataToUbbdreq s array bio (walk 0 r.bios) data = some data' ∧
    iov.mapM (readIovec L array ring data') = some (r.segments.map (segBytes bio)) ∧
    ∀ p x, data' p x ≠ data p x → ∃ v ∈ iov, ∃ k < v.len,
      ubbdVmaFault L array ((v.base + k) / L.pageSize) = some (.data p) ∧ x = (v.base + k) % L.pageSize
  /-- The bios get the bytes of the ranges, if no two segments share a byte. -/
  read : ∀ ring bio data, ∃ bio', copyDataFromUbbdreq s array data (walk 0 r.bios) bio = some bio' ∧
    (r.segments.Pairwise SegApart →
      iov.mapM (readIovec L array ring data) = some (r.segments.map (segBytes bio')))

/-- After `ubbd_get_data_pages` has recorded the indices `pi`. -/
def DataSeen (H : Header) (r : Request L.pageSize) (array : Nat → Option Page) (pi : List Nat) : Prop :=
  ∀ inlinePi op, ubbdReqNodata op = false → ∃ s iov,
    setPis (ubbdReqPiAlloc inlinePi (r.ubbdReqSegments op)) (walk 0 r.bios) pi = some s ∧
      ubbdSetSeIov L s (walk 0 r.bios) = some iov ∧ Seen L H r op array pi s iov

/-- The bios of a READ whose segments share no byte get the bytes at its
ranges. -/
theorem DataSeen.readBack {H : Header} {r : Request L.pageSize} {array : Nat → Option Page} {pi : List Nat}
    (h : DataSeen L H r array pi) (hap : r.segments.Pairwise SegApart) (ring : Mem) (bio data : PageMem) :
    ∃ sl iov bio', ubbdSetSeIov L sl (walk 0 r.bios) = some iov ∧
      copyDataFromUbbdreq sl array data (walk 0 r.bios) bio = some bio' ∧
      iov.mapM (readIovec L array ring data) = some (r.segments.map (segBytes bio')) := by
  obtain ⟨sl, iov, -, hiov, hseen⟩ := h (fun _ => 0) .read rfl
  obtain ⟨bio', hcopy, hread⟩ := hseen.read ring bio data
  exact ⟨sl, iov, bio', hiov, hcopy, hread hap⟩

/-! ## Walks and slots -/

theorem walkBio_append (k : Nat) (a b : List BioVec) :
    walkBio k (a ++ b) = walkBio k a ++ walkBio (k + a.length) b := by
  induction a generalizing k with
  | nil => rfl
  | cons bv a ih =>
    rw [List.cons_append, walkBio, walkBio, ih, List.length_cons, List.cons_append]
    congr 3
    omega

/-- The shape of the chain does not matter. -/
theorem walk_eq (k : Nat) (bios : List (List BioVec)) : walk k bios = walkBio k bios.flatten := by
  induction bios generalizing k with
  | nil => rfl
  | cons bio bios ih => rw [walk, ih, List.flatten_cons, walkBio_append]

theorem walkBio_map_snd (k : Nat) (bvs : List BioVec) : (walkBio k bvs).map Prod.snd = bvs := by
  induction bvs generalizing k with
  | nil => rfl
  | cons bv bvs ih => rw [walkBio, List.map_cons, ih]

theorem mem_walkBio {k : Nat} {bvs : List BioVec} {w : Nat × BioVec} (h : w ∈ walkBio k bvs) :
    k ≤ w.1 ∧ w.1 < k + bvs.length := by
  induction bvs generalizing k with
  | nil => cases h
  | cons bv bvs ih =>
    rw [List.length_cons]
    rcases List.mem_cons.mp h with rfl | h
    · exact ⟨le_rfl, by simp⟩
    · have := ih h
      omega

theorem ubbdReqSetPi_ok (s : Slots) (index value : Nat) (h : index < inlinePiMax + s.pi.length) :
    ∃ s', ubbdReqSetPi s index value = some s' ∧ s'.pi.length = s.pi.length ∧
      ubbdReqGetPi s' index = some value ∧ ∀ j, j ≠ index → ubbdReqGetPi s' j = ubbdReqGetPi s j := by
  unfold ubbdReqSetPi ubbdReqGetPi
  by_cases hi : index < inlinePiMax
  · rw [if_pos hi]
    refine ⟨_, rfl, rfl, ?_, fun j hj => ?_⟩
    · rw [if_pos hi]
      exact congrArg some (Function.update_self ..)
    · simp only [Function.update_of_ne hj]
  · have hlt : index - inlinePiMax < s.pi.length := by omega
    rw [if_neg hi, if_pos hlt]
    refine ⟨_, rfl, List.length_set, ?_, fun j hj => ?_⟩
    · rw [if_neg hi, List.getElem?_set_self hlt]
    · split
      · rfl
      · exact List.getElem?_set_ne (by omega)

/-- The stores to the slots stay inside them, and slot `k + j` gets index `j`. -/
theorem setPis_ok {s : Slots} {k : Nat} {bvs : List BioVec} {xs : List Nat} (hlen : xs.length = bvs.length)
    (hk : k + bvs.length ≤ inlinePiMax + s.pi.length) :
    ∃ s', setPis s (walkBio k bvs) xs = some s' ∧ (∀ j < k, ubbdReqGetPi s' j = ubbdReqGetPi s j) ∧
      ∀ j < xs.length, ubbdReqGetPi s' (k + j) = xs[j]? := by
  induction bvs generalizing s k xs with
  | nil =>
    obtain rfl := List.eq_nil_of_length_eq_zero hlen
    exact ⟨s, rfl, fun _ _ => rfl, nofun⟩
  | cons bv bvs ih =>
    obtain ⟨x, xs, rfl⟩ := List.exists_cons_of_length_eq_add_one hlen
    simp only [List.length_cons] at hlen hk
    obtain ⟨s₁, hset, hlen₁, hget, hother⟩ := ubbdReqSetPi_ok s k x (by omega)
    obtain ⟨s', hs', hbefore, hafter⟩ := ih (s := s₁) (k := k + 1) (show xs.length = bvs.length by omega) (by omega)
    refine ⟨s', ?_, fun j hj => ?_, fun j hj => ?_⟩
    · rw [walkBio, setPis, hset, Option.bind_some, hs']
    · rw [hbefore j (by omega), hother j (by omega)]
    · cases j with
      | zero => rw [Nat.add_zero, hbefore k (by omega), hget, List.getElem?_cons_zero]
      | succ j =>
        rw [List.length_cons] at hj
        rw [← Nat.add_assoc, Nat.add_right_comm, hafter j (by omega), List.getElem?_cons_succ]

/-! ## The mapping of the backend -/

variable {L}

/-- The byte at `k` of a segment's range is that of the segment's offset in the
page with its index. -/
theorem mmap_iovOf (array : Nat → Option Page) {x k : Nat} {bv : BioVec} (hx : x < 2 ^ 31)
    (hbv : bv.off + bv.len ≤ L.pageSize) (hk : k < bv.len) :
    ((iovOf L x bv).base + k) % L.pageSize = bv.off + k ∧
      ubbdVmaFault L array (((iovOf L x bv).base + k) / L.pageSize) = (array x).map .data := by
  have hpos := L.pageSize_pos
  have hfits := L.fits
  obtain ⟨d, hd⟩ := L.dvd
  have hle : x * L.pageSize ≤ 2 ^ 31 * L.pageSize := Nat.mul_le_mul_right _ hx.le
  have hsum : x * L.pageSize + L.dataOff = L.pageSize * (x + d) := by
    rw [hd]
    ring
  have hbase : (iovOf L x bv).base + k = L.pageSize * (x + d) + (bv.off + k) := by
    show (x * L.pageSize + L.dataOff + bv.off) % 2 ^ 64 + k = _
    rw [Nat.mod_eq_of_lt (by omega), hsum, Nat.add_assoc]
  have hoff : (x + d) * L.pageSize % 2 ^ 64 = x * L.pageSize + L.dataOff := by
    rw [Nat.mul_comm, ← hsum, Nat.mod_eq_of_lt (by omega)]
  rw [hbase]
  constructor
  · rw [Nat.mul_add_mod, Nat.mod_eq_of_lt (by omega)]
  · rw [Nat.mul_add_div hpos, Nat.div_eq_of_lt (by omega), Nat.add_zero]
    unfold ubbdVmaFault
    simp only [hoff]
    rw [if_neg (by omega), Nat.add_sub_cancel, Nat.mul_div_cancel _ hpos, Nat.mod_eq_of_lt (by omega)]

theorem mapM_eq_map {α β : Type} {f : α → Option β} {g : α → β} {l : List α} (h : ∀ a ∈ l, f a = some (g a)) :
    l.mapM f = some (l.map g) := by
  induction l with
  | nil => rfl
  | cons a l ih =>
    rw [List.mapM_cons, h a (List.mem_cons_self ..), ih fun b hb => h b (List.mem_cons_of_mem _ hb)]
    rfl

theorem readIovec_iovOf {array : Nat → Option Page} {x : Nat} {page : Page} {bv : BioVec} (hx : x < 2 ^ 31)
    (ha : array x = some page) (hbv : bv.off + bv.len ≤ L.pageSize) (ring : Mem) (data : PageMem) :
    readIovec L array ring data (iovOf L x bv) = some (data.bytes page bv.off bv.len) := by
  refine mapM_eq_map fun k hk => ?_
  obtain ⟨hmod, hfault⟩ := mmap_iovOf array hx hbv (List.mem_range.mp hk)
  rw [mmapByte, hfault, ha, hmod]
  rfl

/-! ## Slots with pages of their own -/

/-- Slot `k` has index `ix k`, with page `pg k`, for each of the `n` segments,
and no two of them have the same page. -/
structure Backed (s : Slots) (array : Nat → Option Page) (n : Nat) (ix : Nat → Nat) (pg : Nat → Page) : Prop where
  slot : ∀ k < n, ubbdReqGetPi s k = some (ix k)
  small : ∀ k < n, ix k < 2 ^ 31
  page : ∀ k < n, array (ix k) = some (pg k)
  own : ∀ j < n, ∀ k < n, pg j = pg k → j = k

section

variable {s : Slots} {array : Nat → Option Page} {ix : Nat → Nat} {pg : Nat → Page} {bvs : List BioVec}

theorem Backed.ubbdSetSeIov (h : Backed s array bvs.length ix pg) :
    Data.ubbdSetSeIov L s (walkBio 0 bvs) = some ((walkBio 0 bvs).map fun w => iovOf L (ix w.1) w.2) := by
  refine mapM_eq_map fun w hw => ?_
  have := mem_walkBio hw
  show (ubbdReqGetPi s w.1).map _ = _
  rw [h.slot w.1 (by omega)]
  rfl

theorem Backed.ubbdReqGetPage (h : Backed s array bvs.length ix pg) {w : Nat × BioVec}
    (hw : w ∈ walkBio 0 bvs) : Data.ubbdReqGetPage s array w.1 = some (pg w.1) := by
  have := mem_walkBio hw
  rw [Data.ubbdReqGetPage, h.slot w.1 (by omega), Option.bind_some, h.page w.1 (by omega)]

/-- A walk that copies for each segment does all its copies. -/
theorem foldlM_copyAll {f : PageMem → Nat × BioVec → Option PageMem} {c : Nat × BioVec → Copy} {m src : PageMem}
    {ws : List (Nat × BioVec)} (h : ∀ m, ∀ w ∈ ws, f m w = some (m.memcpy src (c w))) :
    ws.foldlM f m = some (m.copyAll src (ws.map c)) := by
  induction ws generalizing m with
  | nil => rfl
  | cons w ws ih =>
    rw [List.foldlM_cons, h m w (List.mem_cons_self ..)]
    exact ih fun m v hv => h m v (List.mem_cons_of_mem _ hv)

/-- The copies to the data pages, and from them. -/
def copyTo (pg : Nat → Page) (w : Nat × BioVec) : Copy := ⟨pg w.1, w.2.page, w.2.off, w.2.len⟩

def copyFrom (pg : Nat → Page) (w : Nat × BioVec) : Copy := ⟨w.2.page, pg w.1, w.2.off, w.2.len⟩

theorem Backed.copyDataToUbbdreq (h : Backed s array bvs.length ix pg) (bio data : PageMem) :
    Data.copyDataToUbbdreq s array bio (walkBio 0 bvs) data =
      some (data.copyAll bio ((walkBio 0 bvs).map (copyTo pg))) := by
  apply foldlM_copyAll
  intro m w hw
  show (Data.ubbdReqGetPage s array w.1).map _ = _
  rw [h.ubbdReqGetPage hw]
  rfl

theorem Backed.copyDataFromUbbdreq (h : Backed s array bvs.length ix pg) (bio data : PageMem) :
    Data.copyDataFromUbbdreq s array data (walkBio 0 bvs) bio =
      some (bio.copyAll data ((walkBio 0 bvs).map (copyFrom pg))) := by
  apply foldlM_copyAll
  intro m w hw
  show (Data.ubbdReqGetPage s array w.1).map _ = _
  rw [h.ubbdReqGetPage hw]
  rfl

theorem walkBio_pairwise (k : Nat) (bvs : List BioVec) :
    (walkBio k bvs).Pairwise fun w w' => w.1 < w'.1 := by
  induction bvs generalizing k with
  | nil => exact List.Pairwise.nil
  | cons bv bvs ih =>
    refine List.Pairwise.cons (fun w hw => ?_) (ih (k + 1))
    have := mem_walkBio hw
    show k < w.1
    omega

/-- The copies to the data pages go to different pages. -/
theorem Backed.copyTo_apart (h : Backed s array bvs.length ix pg) :
    ((walkBio 0 bvs).map (copyTo pg)).Pairwise Copy.Apart := by
  rw [List.pairwise_map]
  refine (walkBio_pairwise 0 bvs).imp_of_mem fun {w w'} hw hw' hlt heq => ?_
  have h1 := mem_walkBio hw
  have h2 := mem_walkBio hw'
  have := h.own w.1 (by omega) w'.1 (by omega) heq
  omega

/-- The copies to the bios go to different bytes, if no two segments share one. -/
theorem copyFrom_apart (hap : bvs.Pairwise SegApart) :
    ((walkBio 0 bvs).map (copyFrom pg)).Pairwise Copy.Apart := by
  rw [← walkBio_map_snd 0 bvs, List.pairwise_map] at hap
  rw [List.pairwise_map]
  exact hap

/-- The bytes of the segments, through the ranges of the `iov`. -/
theorem Backed.readIovec (h : Backed s array bvs.length ix pg) (hbv : ∀ bv ∈ bvs, bv.off + bv.len ≤ L.pageSize)
    {bio data : PageMem} (ring : Mem)
    (hsame : ∀ w ∈ walkBio 0 bvs, data.bytes (pg w.1) w.2.off w.2.len = segBytes bio w.2) :
    ((walkBio 0 bvs).map fun w => iovOf L (ix w.1) w.2).mapM (Data.readIovec L array ring data) =
      some (bvs.map (segBytes bio)) := by
  rw [List.mapM_map, show bvs.map (segBytes bio) = (walkBio 0 bvs).map fun w => segBytes bio w.2 by
    rw [← walkBio_map_snd 0 bvs, List.map_map, walkBio_map_snd]
    rfl]
  refine mapM_eq_map fun w hw => ?_
  have hlt := mem_walkBio hw
  have hmem : w.2 ∈ bvs := by
    rw [← walkBio_map_snd 0 bvs]
    exact List.mem_map_of_mem hw
  rw [Function.comp_apply, readIovec_iovOf (h.small w.1 (by omega)) (h.page w.1 (by omega)) (hbv _ hmem) ring data,
    hsame w hw]

end

/-! ## A request that has its pages -/

variable {H : Header} {r : Request L.pageSize}

theorem single_segments (r : Request L.pageSize) : ∀ bv ∈ r.segments, bv.off + bv.len ≤ L.pageSize := by
  intro bv hbv
  obtain ⟨bio, hbio, hbv⟩ := List.mem_flatten.mp hbv
  exact r.single bio hbio bv hbv

/-- The `iov` is that of the command. -/
theorem seIov_eq {ix : Nat → Nat} {pi : List Nat} {k : Nat} {bvs : List BioVec} (hlen : pi.length = bvs.length)
    (hix : ∀ j < pi.length, pi[j]? = some (ix (k + j))) :
    List.zipWith (fun i bv => (⟨(i * L.pageSize + L.dataOff + bv.off) % 2 ^ 64, bv.len⟩ : Iovec)) pi bvs =
      (walkBio k bvs).map fun w => iovOf L (ix w.1) w.2 := by
  induction bvs generalizing k pi with
  | nil =>
    rw [List.zipWith_nil_right]
    rfl
  | cons bv bvs ih =>
    obtain ⟨x, pi, rfl⟩ := List.exists_cons_of_length_eq_add_one hlen
    have h0 := hix 0 (by simp)
    rw [List.getElem?_cons_zero, Nat.add_zero, Option.some.injEq] at h0
    rw [List.zipWith_cons_cons, walkBio, List.map_cons, h0]
    congr 1
    refine ih (by simpa using hlen) fun j hj => ?_
    have := hix (j + 1) (by simpa using hj)
    rw [List.getElem?_cons_succ] at this
    rw [this, Nat.add_right_comm, Nat.add_assoc]

theorem seCmd_ok (r : Request L.pageSize) {op : UbbdOp} (hop : op ≠ .pad) {tid : Nat} (htid : tid < 2 ^ 64)
    {pi : List Nat} (hlen : pi.length = r.segments.length) : (r.seCmd op L.dataOff tid pi).Ok := by
  have hlt : L.pageSize < 2 ^ 64 := by
    have := L.fits
    have := L.pageSize_pos
    omega
  refine ⟨hop, htid, Nat.mod_lt _ (by decide), r.bytes_lt, fun v hv => ?_, ?_⟩
  · obtain ⟨k, hk, rfl⟩ := List.getElem_of_mem hv
    have hk' : k < r.segments.length := by
      have : k < (r.seIov L.dataOff pi).length := hk
      rw [Request.seIov, List.length_zipWith] at this
      omega
    have hbv := single_segments r _ (List.getElem_mem hk')
    simp only [Request.seCmd, Request.seIov, List.getElem_zipWith]
    exact ⟨Nat.mod_lt _ (by decide), by omega⟩
  · have := r.segs_le
    rw [← r.length_segments] at this
    simp only [Request.seCmd, Request.seIov, List.length_zipWith]
    omega

/-- What the entry of a submitted command says of its `iov`. -/
theorem submit_iov {c : Cmd} (hc : c.Ok) {ring ring' : CmdRing} {es : List Ring.Ent} (hrep : Ring.Rep H ring es)
    (hs : Ring.submit H ring c = some ring') :
    H.iovCnt.get ring'.cmdr (Ring.sePos H ring c) = c.iov.length ∧
      (Ring.entCmd H ring'.cmdr (Ring.sePos H ring c)).iov = c.iov ∧
      H.iovOff + sizeofIovec * c.iov.length ≤ Ring.entLen H ring'.cmdr (Ring.sePos H ring c) := by
  obtain ⟨⟨ps, e, -, hcmd, hpos, hrep'⟩, -⟩ := hrep.submit hc hs
  have hat := hrep'.at_ e (by simp)
  have hent := hat.cmd
  rw [hpos, hcmd] at hent
  unfold Ring.cmdAt at hent
  split at hent <;> [cases hent; skip]
  have heq : Ring.entCmd H ring'.cmdr (Ring.sePos H ring c) = c := Option.some.inj hent
  refine ⟨?_, by rw [heq], ?_⟩
  · have := congrArg (fun c => c.iov.length) heq
    exact (Ring.readIov_length _ _ _).symm.trans this
  · rw [← hpos, hat.len]
    exact hat.room c hcmd

theorem Backed.seen {s : Slots} {array : Nat → Option Page} {ix : Nat → Nat} {pg : Nat → Page} {pi : List Nat}
    (h : Backed s array r.segments.length ix pg) (hlen : pi.length = r.segments.length)
    (hix : ∀ j < pi.length, pi[j]? = some (ix j)) {op : UbbdOp} (hop : ubbdReqNodata op = false) :
    Seen L H r op array pi s ((walkBio 0 r.segments).map fun w => iovOf L (ix w.1) w.2) := by
  have hcnt := r.ubbdReqSegments_eq hop
  have hw : walk 0 r.bios = walkBio 0 r.segments := walk_eq 0 r.bios
  have hsingle := single_segments r
  refine ⟨hcnt, fun w hw' => ?_, fun ring es tid ring' hrep htid hs => ?_, fun ring bio data => ?_,
    fun ring bio data => ?_⟩
  · rw [hw] at hw'
    have := mem_walkBio hw'
    omega
  · have hne : op ≠ .pad := by
      rintro rfl
      cases hop
    have hiov : r.seIov L.dataOff pi = (walkBio 0 r.segments).map fun w => iovOf L (ix w.1) w.2 :=
      seIov_eq hlen fun j hj => by rw [Nat.zero_add]; exact hix j hj
    have hl : (r.seIov L.dataOff pi).length = r.segments.length := by
      rw [Request.seIov, List.length_zipWith, hlen, Nat.min_self]
    obtain ⟨h1, h2, h3⟩ := submit_iov (seCmd_ok r hne htid hlen) hrep hs
    refine ⟨h1.trans hl, h2.trans hiov, ?_⟩
    rw [← hl]
    exact h3
  · rw [hw]
    refine ⟨_, h.copyDataToUbbdreq bio data, h.readIovec hsingle ring fun w hw' => ?_, fun p x hne => ?_⟩
    · exact PageMem.bytes_congr fun x h1 h2 =>
        PageMem.copyAll_of_mem h.copyTo_apart (List.mem_map_of_mem hw') h1 h2
    · -- the byte is written by the copy for some segment
      by_contra hno
      refine hne (PageMem.copyAll_frame fun c hc hwr => hno ?_)
      obtain ⟨w, hw', rfl⟩ := List.mem_map.mp hc
      obtain ⟨rfl, h1, h2⟩ := hwr
      have hlt := mem_walkBio hw'
      have hbv := hsingle w.2 (by rw [← walkBio_map_snd 0 r.segments]; exact List.mem_map_of_mem hw')
      simp only [copyTo] at h1 h2
      refine ⟨_, List.mem_map_of_mem hw', x - w.2.off, ?_, ?_⟩
      · show x - w.2.off < w.2.len
        omega
      · obtain ⟨hmod, hfault⟩ := mmap_iovOf array (k := x - w.2.off) (h.small w.1 (by omega)) hbv (by omega)
        refine ⟨?_, ?_⟩
        · rw [hfault, h.page w.1 (by omega)]
          rfl
        · rw [hmod]
          omega
  · rw [hw]
    refine ⟨_, h.copyDataFromUbbdreq bio data, fun hap => ?_⟩
    have hcopy : ((walkBio 0 r.segments).map (copyFrom pg)).Pairwise Copy.Apart := copyFrom_apart hap
    refine h.readIovec hsingle ring fun w hw' => PageMem.bytes_congr fun x h1 h2 => ?_
    exact (PageMem.copyAll_of_mem hcopy (List.mem_map_of_mem hw') h1 h2).symm

/-! ## In every run -/

section

variable {ι : Type} {reqs : ι → Request L.pageSize}

/-- The calls of `ubbd_get_data_pages` go over the segments of their requests. -/
def Walks (reqs : ι → Request L.pageSize) (a : Pages.Label ι) : Prop :=
  ∀ i n, a = .get i n → n = (walk 0 (reqs i).bios).length

/-- Each request is in a call, or between two. -/
def Calls (reqs : ι → Request L.pageSize) (s : Pages.State ι) : Prop :=
  ∀ i, Pages.Calling (walk 0 (reqs i).bios).length (s.reqs i) ∨ Pages.Releasing (s.reqs i)

/-- A request whose call has returned has a page of its own for each segment. -/
theorem backed_of_ready {s : Pages.State ι} (hb : Pages.Bits s) (ha : Pages.Arr s) (hc : Calls reqs s) {i : ι}
    (hi : (s.reqs i).pc = .ready) :
    (s.reqs i).pi.length = (reqs i).segments.length ∧
      ∀ sl : Slots, (∀ j < (s.reqs i).pi.length, ubbdReqGetPi sl j = (s.reqs i).pi[j]?) →
        Backed sl s.pool.array (reqs i).segments.length (fun k => (s.reqs i).pi.getD k 0)
          fun k => (s.pool.array ((s.reqs i).pi.getD k 0)).getD 0 := by
  have hlen : (s.reqs i).pi.length = (reqs i).segments.length := by
    rcases hc i with h | h | ⟨h, -⟩
    · rw [walk_eq, show (walkBio 0 (reqs i).bios.flatten).length = (reqs i).segments.length by
        rw [← List.length_map (f := Prod.snd), walkBio_map_snd]
        rfl] at h
      simpa [Pages.Calling, hi] using h
    · rw [hi] at h
      cases h
    · rw [hi] at h
      cases h
  have hmem : ∀ k < (s.reqs i).pi.length, (s.reqs i).pi.getD k 0 ∈ (s.reqs i).pi := fun k hk => by
    rw [List.getD_eq_getElem _ _ hk]
    exact List.getElem_mem hk
  have hsmall : ∀ x ∈ (s.reqs i).pi, x < 2 ^ 31 := fun x hx => (hb.lt i x hx).trans_le ha.small
  have hnodup : (s.reqs i).pi.Nodup := by
    refine List.nodup_iff_count_le_one.mpr fun x => ?_
    by_cases hx : x ∈ (s.reqs i).pi
    · exact hb.once i x (hsmall x hx)
    · rw [List.count_eq_zero_of_not_mem hx]
      exact Nat.zero_le _
  refine ⟨hlen, fun sl hsl => ?_⟩
  rw [← hlen]
  have hpage : ∀ k < (s.reqs i).pi.length, s.pool.array ((s.reqs i).pi.getD k 0) =
      some ((s.pool.array ((s.reqs i).pi.getD k 0)).getD 0) := fun k hk => by
    obtain ⟨page, hpage⟩ := Option.isSome_iff_exists.mp (ha.backed i _ (hmem k hk))
    rw [hpage]
    rfl
  refine ⟨fun k hk => ?_, fun k hk => hsmall _ (hmem k hk), hpage, fun j hj k hk heq => ?_⟩
  · rw [hsl k hk, List.getElem?_eq_getElem hk, List.getD_eq_getElem _ _ hk]
  · have hix := ha.inj _ _ _ (hpage j hj) (heq ▸ hpage k hk)
    rw [List.getD_eq_getElem _ _ hj, List.getD_eq_getElem _ _ hk] at hix
    exact hnodup.getElem_inj_iff.mp hix

theorem dataSeen_of_ready (H : Header) {s : Pages.State ι} (hb : Pages.Bits s) (ha : Pages.Arr s)
    (hc : Calls reqs s) {i : ι} (hi : (s.reqs i).pc = .ready) :
    DataSeen L H (reqs i) s.pool.array (s.reqs i).pi := by
  intro inlinePi op hop
  obtain ⟨hlen, hback⟩ := backed_of_ready hb ha hc hi
  have hcnt := (reqs i).ubbdReqSegments_eq hop
  have hw : walk 0 (reqs i).bios = walkBio 0 (reqs i).segments := walk_eq 0 (reqs i).bios
  obtain ⟨sl, hset, -, hget⟩ := setPis_ok (s := ubbdReqPiAlloc inlinePi ((reqs i).ubbdReqSegments op)) (k := 0)
    hlen (by rw [hcnt, ubbdReqPiAlloc, List.length_replicate]; omega)
  have hb := hback sl fun j hj => by
    rw [← hget j hj, Nat.zero_add]
  rw [hw]
  refine ⟨sl, _, hset, hb.ubbdSetSeIov, hb.seen hlen (fun j hj => ?_) hop⟩
  rw [List.getElem?_eq_getElem hj, List.getD_eq_getElem _ _ hj]

variable [DecidableEq ι]

theorem step_calls {s s' : Pages.State ι} {a : Pages.Label ι} (h : Calls reqs s) (hs : Pages.step s a = some s')
    (ha : Walks reqs a) : Calls reqs s' := by
  intro j
  by_cases hj : j = a.req
  · subst hj
    by_cases hc : a.calls = false
    · have hgoes := Pages.step_goes hc hs
      exact (h a.req).imp (hgoes.calling _) hgoes.releasing
    · cases a with
      | get i n =>
        have hpi : (s.reqs i).pi = [] := by
          simp only [Pages.step, Option.ite_none_right_eq_some] at hs
          rcases h i with hc | hc | ⟨-, hc⟩
          · simpa [Pages.Calling, hs.1] using hc
          · rw [hs.1] at hc
            cases hc
          · exact hc
        rw [ha i n rfl] at hs
        exact .inl (Pages.step_get hs hpi)
      | release i =>
        simp only [Pages.step, Option.ite_none_right_eq_some, Option.some.injEq] at hs
        obtain ⟨-, rfl⟩ := hs
        exact .inr (.inl (by simp [Pages.State.setReq_reqs, Pages.Label.req]))
      | _ => exact absurd rfl hc
  · rw [Pages.step_other hs hj]
    exact h j

/-- In every run of the calls of any number of requests, on a queue with at
most `2 ^ 31` data pages, the backend sees the data of each request that has
its pages. -/
theorem dataSeen (L : Layout) (H : Header) (reqs : ι → Request L.pageSize) {n : Nat} (hn : n ≤ 2 ^ 31)
    (reserved : Nat) (live : Page → Bool) (as : List (Pages.Label ι)) (has : ∀ a ∈ as, Walks reqs a) :
    (Pages.lts ι).States
      (fun s => ∀ i, (s.reqs i).pc = .ready → DataSeen L H (reqs i) s.pool.array (s.reqs i).pi)
      (Pages.initState ι n reserved live) as := by
  have hstep : ∀ s a s', Pages.Bits s ∧ Pages.Arr s ∧ Calls reqs s → Pages.step s a = some s' → Walks reqs a →
      Pages.Bits s' ∧ Pages.Arr s' ∧ Calls reqs s' := by
    intro s a s' ⟨hb, ha, hc⟩ hs hw
    have e := Pages.step_effect hs
    exact ⟨e.bits hb, e.arr hb ha, step_calls hc hs hw⟩
  have hinit : Calls reqs (Pages.initState ι n reserved live) := fun i => .inl rfl
  refine (Lts.states_of_steps (I := fun s => Pages.Bits s ∧ Pages.Arr s ∧ Calls reqs s) hstep
    ⟨Pages.bits_init (by omega) _ _, Pages.arr_init hn _ _, hinit⟩
    (Lts.steps_of_forall (C := fun _ a _ => Walks reqs a) (fun a ha _ _ => has a ha) _)).mono ?_
  exact fun s h i hi => dataSeen_of_ready H h.1 h.2.1 h.2.2 hi

end

/-- Pages of 4096 bytes, the data pages behind one page of ring. -/
def smallLayout : Layout := ⟨4096, 4096, by decide, by decide, by decide⟩

/-- A READ of two sectors, into the two halves of a kilobyte of page 7, the
second one first. -/
def readApart : Request smallLayout.pageSize where
  op := .read
  pos := 0
  bytes := 1024
  bios := [[⟨7, 512, 512⟩], [⟨7, 0, 512⟩]]
  single := by simp [smallLayout]
  segs_le := by decide
  bytes_lt := by decide

/-- A READ of two bytes whose two segments are the same byte of page 7. -/
def readTwice : Request smallLayout.pageSize where
  op := .read
  pos := 0
  bytes := 2
  bios := [[⟨7, 0, 1⟩, ⟨7, 0, 1⟩]]
  single := by simp [smallLayout]
  segs_le := by decide
  bytes_lt := by decide

/-- `ubbd_get_data_pages` for two segments, on a new queue. -/
def getTwo : List (Pages.Label Unit) :=
  [.get () 2, .seg () true, .alloc () (some 0), .incLoad (), .incStore (), .seg () true, .seg () true,
    .alloc () (some 1), .incLoad (), .incStore (), .seg () true, .out ()]

/-- The segments of `readApart` share no byte, so its bios get what the backend
has at its ranges. -/
theorem dataSeen_getTwo :
    ∃ s, (Pages.lts Unit).exec (Pages.initState Unit 2 0 fun _ => false) getTwo = some s ∧
      DataSeen smallLayout (sampleHeader 256 8 (by decide) (by decide) (by decide) (by decide)) readApart s.pool.array
        (s.reqs ()).pi ∧
      readApart.segments.Pairwise SegApart ∧
      ∀ ring bio data, ∃ sl iov bio', ubbdSetSeIov smallLayout sl (walk 0 readApart.bios) = some iov ∧
        copyDataFromUbbdreq sl s.pool.array data (walk 0 readApart.bios) bio = some bio' ∧
        iov.mapM (readIovec smallLayout s.pool.array ring data) = some (readApart.segments.map (segBytes bio')) := by
  have h := dataSeen smallLayout (sampleHeader 256 8 (by decide) (by decide) (by decide) (by decide))
    (fun _ : Unit => readApart) (n := 2) (by decide) 0 (fun _ => false) getTwo fun a ha i n e => by
      subst e
      simp only [getTwo, List.mem_cons, List.not_mem_nil, or_false, reduceCtorEq] at ha
      cases ha
      rfl
  have hapart : readApart.segments.Pairwise SegApart := by
    simp [Request.segments, readApart, SegApart]
  have hseen := h.last rfl () rfl
  exact ⟨_, rfl, hseen, hapart, hseen.readBack smallLayout hapart⟩

/-- The data pages of `readTwice` are two, with different bytes; its byte gets
that of the second. -/
theorem overlapping_segments_not_seen :
    ∃ s, (Pages.lts Unit).exec (Pages.initState Unit 2 0 fun _ => false) getTwo = some s ∧
      (s.reqs ()).pc = .ready ∧
      ∃ sl iov bio', setPis (ubbdReqPiAlloc (fun _ => 0) (readTwice.ubbdReqSegments .read)) (walk 0 readTwice.bios)
          (s.reqs ()).pi = some sl ∧
        ubbdSetSeIov smallLayout sl (walk 0 readTwice.bios) = some iov ∧
        copyDataFromUbbdreq sl s.pool.array (fun p _ => UInt8.ofNat p) (walk 0 readTwice.bios) (fun _ _ => 0) =
          some bio' ∧
        iov.mapM (readIovec smallLayout s.pool.array (fun _ => 0) fun p _ => UInt8.ofNat p) = some [[0], [1]] ∧
        readTwice.segments.map (segBytes bio') = [[1], [1]] ∧
        iov.mapM (readIovec smallLayout s.pool.array (fun _ => 0) fun p _ => UInt8.ofNat p) ≠
          some (readTwice.segments.map (segBytes bio')) :=
  ⟨_, rfl, rfl, _, _, _, rfl, rfl, rfl, by decide +kernel, by decide +kernel, by decide +kernel⟩

end Ubbd.Data

import UbbdKernel.Header

/-!
# The command ring

The ring of submission entries that the queue shares with its backend: its
bytes, its head (where the kernel writes the next entry) and its tail (the
oldest entry not reclaimed). The functions are those of `ubbd_req.c` that
run under `cmdr_lock`, on the bytes of the ring and in `u32` arithmetic;
`entLen`, `entOp`, `entDone` and `entCmd` read an entry back, and `walk`
follows the entries from tail to head by their lengths.
-/

namespace Ubbd

/-- `struct iovec`. -/
structure Iovec where
  base : Nat
  len : Nat
  deriving DecidableEq, Repr

/-- What a submission entry says: the operation, `priv_data` (the request's
`req_tid`), the range of the device, and the `iov` of its data pages. -/
structure Cmd where
  op : UbbdOp
  privData : Nat
  offset : Nat
  len : Nat
  iov : List Iovec
  deriving DecidableEq, Repr

/-- A command the driver makes of a request: no padding, its members in the
range of their types, and no more segments than a request may have. -/
structure Cmd.Ok (c : Cmd) : Prop where
  op : c.op ≠ .pad
  privData : c.privData < 2 ^ 64
  offset : c.offset < 2 ^ 64
  len : c.len < 2 ^ 32
  iov : ∀ v ∈ c.iov, v.base < 2 ^ 64 ∧ v.len < 2 ^ 64
  segs : c.iov.length ≤ maxSegments

/-- The command ring of a queue. -/
structure CmdRing where
  cmdr : Mem
  cmdHead : Nat
  cmdTail : Nat

namespace Ring

/-- Addition and subtraction of `u32`. -/
def add32 (a b : Nat) : Nat := (a + b) % 2 ^ 32
def sub32 (a b : Nat) : Nat := (a + 2 ^ 32 - b) % 2 ^ 32

theorem add32_eq {a b : Nat} (h : a + b < 2 ^ 32) : add32 a b = a + b := Nat.mod_eq_of_lt h

theorem sub32_eq {a b : Nat} (h : b ≤ a) (ha : a < 2 ^ 32) : sub32 a b = a - b := by
  unfold sub32
  omega

/-- `UPDATE_CMDR_HEAD`, whose `used` is a `size_t`. -/
def updateCmdrHead (head used size : Nat) : Nat := (head % size + used) % size

/-- `UPDATE_CMDR_TAIL`, whose `used` is a `u32`. -/
def updateCmdrTail (tail used size : Nat) : Nat := add32 (tail % size) used % size

variable (H : Header)

/-- The local variables of `submit_ring_space_enough`. -/
def spaceMax : Nat := sub32 H.cmdrSize H.cmdrReserved

def spaceUsed (r : CmdRing) : Nat :=
  if r.cmdHead > r.cmdTail then sub32 r.cmdHead r.cmdTail
  else if r.cmdHead < r.cmdTail then add32 r.cmdHead (sub32 H.cmdrSize r.cmdTail)
  else 0

def spaceAvailable (r : CmdRing) : Nat := sub32 (spaceMax H) (spaceUsed H r)

def spaceNeeded (r : CmdRing) (cmdSize : Nat) : Nat :=
  if sub32 H.cmdrSize r.cmdHead > cmdSize then cmdSize
  else sub32 (add32 cmdSize H.cmdrSize) r.cmdHead

/-- `submit_ring_space_enough`. -/
def submitRingSpaceEnough (r : CmdRing) (cmdSize : Nat) : Bool :=
  if spaceAvailable H r < spaceNeeded H r cmdSize then false else true

/-- The two stores of `ubbd_se_hdr_set_op` and `ubbd_se_hdr_set_len` to the
header at `pos`. -/
def setHdr (m : Mem) (pos : Nat) (op : UbbdOp) (len : Nat) : Mem :=
  let m₁ := H.lenOp.set m pos (H.setOp (H.lenOp.get m pos) op)
  H.lenOp.set m₁ pos (H.setLen (H.lenOp.get m₁ pos) len)

/-- `insert_padding`. -/
def insertPadding (r : CmdRing) (cmdSize : Nat) : CmdRing :=
  if sub32 H.cmdrSize r.cmdHead ≥ cmdSize then r
  else
    let padLen := sub32 H.cmdrSize r.cmdHead
    { r with
      cmdr := setHdr H (r.cmdr.fill r.cmdHead padLen 0) r.cmdHead .pad padLen
      cmdHead := updateCmdrHead r.cmdHead padLen H.cmdrSize }

/-- `queue_req_se_init`, for the entry at `pos`. -/
def queueReqSeInit (m : Mem) (pos : Nat) (c : Cmd) : Mem :=
  let m₀ := m.fill pos (H.ubbdGetCmdSize c.iov.length) 0
  let m₁ := setHdr H m₀ pos c.op (H.ubbdGetCmdSize c.iov.length)
  let m₂ := H.privData.set m₁ pos c.privData
  let m₃ := H.offset.set m₂ pos c.offset
  let m₄ := H.len.set m₃ pos c.len
  H.iovCnt.set m₄ pos c.iov.length

/-- The stores of `ubbd_set_se_iov` to the `iov` at `a`. -/
def ubbdSetSeIov (m : Mem) : Nat → List Iovec → Mem
  | _, [] => m
  | a, v :: vs => ubbdSetSeIov ((m.writeLE a 8 v.base).writeLE (a + 8) 8 v.len) (a + sizeofIovec) vs

/-- `queue_req_data_init`, for the entry at `pos`. -/
def queueReqDataInit (m : Mem) (pos : Nat) (c : Cmd) : Mem :=
  if c.iov.length ≠ 0 then ubbdSetSeIov m (pos + H.iovOff) c.iov else m

/-- What `ubbd_queue_workfn` does after `insert_padding`: the entry at the head is
written, and the head moved behind it. -/
def publish (r : CmdRing) (c : Cmd) : CmdRing :=
  { r with
    cmdr := queueReqDataInit H (queueReqSeInit H r.cmdr r.cmdHead c) r.cmdHead c
    cmdHead := updateCmdrHead r.cmdHead (H.ubbdGetCmdSize c.iov.length) H.cmdrSize }

/-- The section of `ubbd_queue_workfn` under `cmdr_lock`: the entry of a
command is padded to, written and published, if the ring has room for it. -/
def submit (r : CmdRing) (c : Cmd) : Option CmdRing :=
  if submitRingSpaceEnough H r (H.ubbdGetCmdSize c.iov.length) then
    some (publish H (insertPadding H r (H.ubbdGetCmdSize c.iov.length)) c)
  else none

/-- Where `submit` puts the entry (`ubbd_req->se`). -/
def sePos (r : CmdRing) (c : Cmd) : Nat := (insertPadding H r (H.ubbdGetCmdSize c.iov.length)).cmdHead

/-- `ubbd_se_hdr_flags_set(se, UBBD_SE_HDR_DONE)`. -/
def setDone (r : CmdRing) (pos : Nat) : CmdRing :=
  { r with cmdr := H.flags.set r.cmdr pos (H.setDone (H.flags.get r.cmdr pos)) }

/-! ## Reading entries -/

/-- The length, operation and DONE flag of the entry at `pos`. -/
def entLen (m : Mem) (pos : Nat) : Nat := H.getLen (H.lenOp.get m pos)
def entOp (m : Mem) (pos : Nat) : UbbdOp := H.getOp (H.lenOp.get m pos)
def entDone (m : Mem) (pos : Nat) : Bool := H.testDone (H.flags.get m pos)

/-- The `cnt` elements of the `iov` at `a`. -/
def readIov (m : Mem) : Nat → Nat → List Iovec
  | _, 0 => []
  | a, cnt + 1 => ⟨m.readLE a 8, m.readLE (a + 8) 8⟩ :: readIov m (a + sizeofIovec) cnt

/-- The command of the entry at `pos`. -/
def entCmd (m : Mem) (pos : Nat) : Cmd where
  op := entOp H m pos
  privData := H.privData.get m pos
  offset := H.offset.get m pos
  len := H.len.get m pos
  iov := readIov m (pos + H.iovOff) (H.iovCnt.get m pos)

/-- `get_oldest_se`: the offset of the entry at the tail. -/
def getOldestSe (r : CmdRing) : Option Nat := if r.cmdTail = r.cmdHead then none else some r.cmdTail

/-- The loop of `advance_cmd_ring`, at most `fuel` times. -/
def advanceLoop : Nat → CmdRing → CmdRing
  | 0, r => r
  | fuel + 1, r =>
    match getOldestSe r with
    | none => r
    | some se =>
      if entDone H r.cmdr se then
        advanceLoop fuel { r with cmdTail := updateCmdrTail r.cmdTail (entLen H r.cmdr se) H.cmdrSize }
      else r

/-- The most entries the ring can hold. -/
def maxEntries : Nat := H.cmdrSize / H.opAlign

/-- `advance_cmd_ring`. -/
def advanceCmdRing (r : CmdRing) : CmdRing := advanceLoop H (maxEntries H) r

/-- The offsets of the entries from `p` to `q`, by their lengths, at most
`fuel` of them. -/
def walkLoop (m : Mem) (q : Nat) : Nat → Nat → List Nat
  | 0, _ => []
  | fuel + 1, p => if p = q then [] else p :: walkLoop m q fuel ((p + entLen H m p) % H.cmdrSize)

/-- The offsets of the entries from tail to head. -/
def walk (r : CmdRing) : List Nat := walkLoop H r.cmdr r.cmdHead (maxEntries H) r.cmdTail

/-- The command at `pos`, if it is no padding. -/
def cmdAt (m : Mem) (pos : Nat) : Option Cmd :=
  if entOp H m pos = .pad then none else some (entCmd H m pos)

/-- What the bytes from tail to head say: the commands of the entries that
are no padding. -/
def decode (r : CmdRing) : List Cmd := (walk H r).filterMap (cmdAt H r.cmdr)

end Ring

end Ubbd

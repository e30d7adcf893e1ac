import UbbdKernel.Framework.Circular
import UbbdKernel.Ring.Model

/-!
# Entries of the command ring

An `Ent` is an entry as the ring means it: where it lies, the command it
carries (none for a padding) and whether it is DONE. `At` says that the bytes
of the ring carry it. It depends on the entry's own bytes only (`At.congr`);
`insert_padding` and the submission of a command write such an entry
(`at_padding`, `at_submit`), and marking it DONE changes nothing else of it
(`At.setDone`).
-/

namespace Ubbd.Ring

open Mem (SameOn SameOutside)

variable {H : Header}

structure Ent extends Span where
  cmd : Option Cmd
  done : Bool

/-- The bytes of `m` at `e.pos` carry the entry `e`. -/
structure At (H : Header) (m : Mem) (e : Ent) : Prop where
  len : entLen H m e.pos = e.len
  done : entDone H m e.pos = e.done
  cmd : cmdAt H m e.pos = e.cmd
  room : ∀ c, e.cmd = some c → H.iovOff + sizeofIovec * c.iov.length ≤ e.len

/-- The members of `struct ubbd_se` share no byte with `len_op`. -/
theorem disjoint_lenOp :
    H.flags.Disjoint H.lenOp ∧ H.privData.Disjoint H.lenOp ∧ H.offset.Disjoint H.lenOp ∧
      H.len.Disjoint H.lenOp ∧ H.iovCnt.Disjoint H.lenOp := by
  have h := H.disjoint
  simp only [List.pairwise_cons, List.mem_cons, List.not_mem_nil, or_false, forall_eq_or_imp,
    forall_eq] at h
  obtain ⟨⟨h1, h2, h3, h4, h5⟩, -⟩ := h
  exact ⟨h1.symm, h2.symm, h3.symm, h4.symm, h5.symm⟩

/-- The members of `struct ubbd_se` share no byte with the flags. -/
theorem disjoint_flags :
    H.lenOp.Disjoint H.flags ∧ H.privData.Disjoint H.flags ∧ H.offset.Disjoint H.flags ∧
      H.len.Disjoint H.flags ∧ H.iovCnt.Disjoint H.flags := by
  have h := H.disjoint
  simp only [List.pairwise_cons, List.mem_cons, List.not_mem_nil, or_false, forall_eq_or_imp,
    forall_eq] at h
  obtain ⟨⟨h0, -⟩, ⟨h2, h3, h4, h5⟩, -⟩ := h
  exact ⟨h0, h2.symm, h3.symm, h4.symm, h5.symm⟩

/-! ## `iov` arrays -/

theorem readIov_length (m : Mem) (a cnt : Nat) : (readIov m a cnt).length = cnt := by
  induction cnt generalizing a with
  | zero => rfl
  | succ cnt ih => simp [readIov, ih]

theorem readIov_congr {m m' : Mem} {a cnt : Nat} (h : SameOn a (sizeofIovec * cnt) m m') :
    readIov m' a cnt = readIov m a cnt := by
  induction cnt generalizing a with
  | zero => rfl
  | succ cnt ih =>
    simp only [readIov, sizeofIovec] at h ih ⊢
    rw [Mem.readLE_congr (h.mono (by omega) (by omega)), Mem.readLE_congr (h.mono (by omega) (by omega)),
      ih (h.mono (by omega) (by omega))]

theorem ubbdSetSeIov_outside (m : Mem) (a : Nat) (vs : List Iovec) :
    SameOutside a (sizeofIovec * vs.length) m (ubbdSetSeIov m a vs) := by
  induction vs generalizing m a with
  | nil => exact fun _ _ => rfl
  | cons v vs ih =>
    simp only [ubbdSetSeIov, sizeofIovec, List.length_cons] at ih ⊢
    refine SameOutside.trans ?_ ((ih _ _).mono (by omega) (by omega))
    exact ((Mem.writeLE_outside m a 8 v.base).mono (by omega) (by omega)).trans
      ((Mem.writeLE_outside _ (a + 8) 8 v.len).mono (by omega) (by omega))

theorem readIov_ubbdSetSeIov (m : Mem) (a : Nat) (vs : List Iovec)
    (h : ∀ v ∈ vs, v.base < 2 ^ 64 ∧ v.len < 2 ^ 64) :
    readIov (ubbdSetSeIov m a vs) a vs.length = vs := by
  induction vs generalizing m a with
  | nil => rfl
  | cons v vs ih =>
    obtain ⟨hb, hl⟩ : v.base < 256 ^ 8 ∧ v.len < 256 ^ 8 := h v (List.mem_cons_self ..)
    have hrest := ubbdSetSeIov_outside ((m.writeLE a 8 v.base).writeLE (a + 8) 8 v.len) (a + sizeofIovec) vs
    simp only [readIov, List.length_cons, ubbdSetSeIov, sizeofIovec] at ih hrest ⊢
    rw [ih _ _ fun w hw => h w (List.mem_cons_of_mem _ hw),
      Mem.readLE_congr (hrest.sameOn (b := a) (k := 8) (by omega)),
      Mem.readLE_congr (hrest.sameOn (b := a + 8) (k := 8) (by omega)),
      Mem.readLE_writeLE, Mem.readLE_writeLE_of_disjoint (by omega), Mem.readLE_writeLE,
      Nat.mod_eq_of_lt hb, Nat.mod_eq_of_lt hl]

/-! ## An entry depends on its own bytes -/

theorem entCmd_congr {m m' : Mem} {pos n : Nat} (h : SameOn pos n m m')
    (hn : H.iovOff + sizeofIovec * (entCmd H m pos).iov.length ≤ n) :
    entCmd H m' pos = entCmd H m pos := by
  have hf : ∀ f ∈ [H.lenOp, H.flags, H.privData, H.offset, H.len, H.iovCnt],
      f.get m' pos = f.get m pos := fun f hf =>
    Field.get_congr h (by have := H.before_iov f hf; omega)
  simp only [List.mem_cons, List.not_mem_nil, or_false, forall_eq_or_imp, forall_eq] at hf
  obtain ⟨h0, -, h2, h3, h4, h5⟩ := hf
  simp only [entCmd, readIov_length] at hn
  simp only [entCmd, entOp, h0, h2, h3, h4, h5, Cmd.mk.injEq, true_and]
  exact readIov_congr (h.mono (by omega) (by omega))

theorem At.congr {m m' : Mem} {e : Ent} (h : At H m e) (hl : H.sizeofSeHdr ≤ e.len)
    (hs : SameOn e.pos e.len m m') : At H m' e := by
  have hlen : H.lenOp.get m' e.pos = H.lenOp.get m e.pos :=
    Field.get_congr hs (by have := H.lenOp_hdr; omega)
  have hflags : H.flags.get m' e.pos = H.flags.get m e.pos :=
    Field.get_congr hs (by have := H.flags_hdr; omega)
  refine ⟨by rw [entLen, hlen]; exact h.len, by rw [entDone, hflags]; exact h.done, ?_, h.room⟩
  have hop : entOp H m' e.pos = entOp H m e.pos := by rw [entOp, entOp, hlen]
  have hc := h.cmd
  by_cases hp : entOp H m e.pos = .pad
  · rw [← hc, cmdAt, cmdAt, if_pos (hop.trans hp), if_pos hp]
  · rw [cmdAt, if_neg hp] at hc
    rw [cmdAt, if_neg (by rwa [hop]), ← hc, entCmd_congr hs (h.room _ hc.symm)]

/-- Marking an entry DONE. -/
theorem At.setDone {r : CmdRing} {e : Ent} (h : At H r.cmdr e) :
    At H (setDone H r e.pos).cmdr { e with done := true } := by
  obtain ⟨h0, h2, h3, h4, h5⟩ := disjoint_flags (H := H)
  have hlt : H.flags.get r.cmdr e.pos < 256 ^ H.flags.width := by
    generalize H.flags = f
    unfold Field.get
    generalize e.pos + f.off = a
    generalize f.width = w
    induction w generalizing a with
    | zero => simp [Mem.readLE]
    | succ w ih =>
      have := ih (a + 1)
      have := (r.cmdr a).toNat_lt
      rw [Mem.readLE, Nat.pow_succ']
      omega
  have hiov : readIov (Ring.setDone H r e.pos).cmdr (e.pos + H.iovOff) (H.iovCnt.get r.cmdr e.pos) =
      readIov r.cmdr (e.pos + H.iovOff) (H.iovCnt.get r.cmdr e.pos) :=
    readIov_congr ((Field.set_outside H.flags r.cmdr e.pos _
      (H.before_iov H.flags (by simp))).sameOn (.inr (Nat.le_refl _)))
  refine ⟨?_, ?_, ?_, h.room⟩
  · simp only [entLen, Ring.setDone, Field.get_set_of_disjoint h0]
    exact h.len
  · simp only [entDone, Ring.setDone, Field.get_set _ _ _ (H.setDone_lt hlt), H.testDone_setDone]
  · have hget : ∀ {f : Field}, f.Disjoint H.flags →
        f.get (Ring.setDone H r e.pos).cmdr e.pos = f.get r.cmdr e.pos := fun hf =>
      Field.get_set_of_disjoint hf ..
    have hop : entOp H (Ring.setDone H r e.pos).cmdr e.pos = entOp H r.cmdr e.pos := by
      rw [entOp, entOp, hget h0]
    have hcmd : entCmd H (Ring.setDone H r e.pos).cmdr e.pos = entCmd H r.cmdr e.pos := by
      simp only [entCmd, hop, hget h2, hget h3, hget h4, hget h5, hiov]
    rw [← h.cmd, cmdAt, cmdAt, hcmd]
    exact if_congr (by rw [hop]) rfl rfl

theorem setDone_outside (r : CmdRing) {e : Span} (hl : H.sizeofSeHdr ≤ e.len) :
    SameOutside e.pos e.len r.cmdr (setDone H r e.pos).cmdr :=
  Field.set_outside _ _ _ _ (by have := H.flags_hdr; omega)

/-! ## The entries the driver writes -/

theorem lenOp_setHdr {m : Mem} {pos len : Nat} {op : UbbdOp} (h : H.lenOp.get m pos = 0) :
    H.lenOp.get (setHdr H m pos op len) pos = H.setLen (H.setOp 0 op) len := by
  have hw : 256 ^ H.lenOp.width = 2 ^ 32 := by rw [H.lenOp_width]; decide
  simp only [setHdr]
  rw [Field.get_set _ _ _ (by rw [hw]; exact H.setLen_lt _ _), h,
    Field.get_set _ _ _ (by rw [hw]; exact H.setOp_lt _)]

theorem get_setHdr {f : Field} (hf : f.Disjoint H.lenOp) (m : Mem) (pos : Nat) (op : UbbdOp) (len : Nat) :
    f.get (setHdr H m pos op len) pos = f.get m pos := by
  simp only [setHdr, Field.get_set_of_disjoint hf]

theorem setHdr_outside (m : Mem) (pos : Nat) (op : UbbdOp) (len : Nat) {n : Nat}
    (hn : H.sizeofSeHdr ≤ n) : SameOutside pos n m (setHdr H m pos op len) := by
  have hl : H.lenOp.off + H.lenOp.width ≤ n := by have := H.lenOp_hdr; omega
  exact (Field.set_outside _ _ _ _ hl).trans (Field.set_outside _ _ _ _ hl)

/-- The entry `insert_padding` writes. -/
theorem at_padding {m : Mem} {pos padLen : Nat} (ha : H.opAlign ∣ padLen) (hp : 0 < padLen)
    (hle : padLen ≤ H.cmdrSize) :
    At H (setHdr H (m.fill pos padLen 0) pos .pad padLen) ⟨⟨pos, padLen⟩, none, false⟩ := by
  have hhdr : H.sizeofSeHdr ≤ padLen := H.hdr_le_align.trans (Nat.le_of_dvd hp ha)
  have hzero : ∀ f : Field, f.off + f.width ≤ H.sizeofSeHdr → f.get (m.fill pos padLen 0) pos = 0 :=
    fun f hf => Field.get_fill (hf.trans hhdr)
  have hlen : H.lenOp.get (setHdr H (m.fill pos padLen 0) pos .pad padLen) pos = _ :=
    lenOp_setHdr (hzero _ H.lenOp_hdr)
  refine ⟨?_, ?_, ?_, fun c hc => by cases hc⟩
  · simp only [entLen, hlen]
    exact H.getLen_setLen ha hle
  · simp only [entDone]
    rw [get_setHdr disjoint_lenOp.1, hzero _ H.flags_hdr, H.testDone_zero]
  · simp only [cmdAt, entOp, hlen, H.getOp_setLen, H.getOp_setOp, ite_true]

/-- The members after `queue_req_se_init`. -/
theorem queueReqSeInit_fields (m : Mem) (pos : Nat) {c : Cmd} (hc : c.Ok) :
    H.lenOp.get (queueReqSeInit H m pos c) pos =
        H.setLen (H.setOp 0 c.op) (H.ubbdGetCmdSize c.iov.length) ∧
      H.flags.get (queueReqSeInit H m pos c) pos = 0 ∧
      H.privData.get (queueReqSeInit H m pos c) pos = c.privData ∧
      H.offset.get (queueReqSeInit H m pos c) pos = c.offset ∧
      H.len.get (queueReqSeInit H m pos c) pos = c.len ∧
      H.iovCnt.get (queueReqSeInit H m pos c) pos = c.iov.length := by
  have hd := H.disjoint
  simp only [List.pairwise_cons, List.mem_cons, List.not_mem_nil, or_false, forall_eq_or_imp,
    forall_eq] at hd
  obtain ⟨⟨-, d02, d03, d04, d05⟩, ⟨d12, d13, d14, d15⟩, ⟨d23, d24, d25⟩, ⟨d34, d35⟩, d45, -⟩ := hd
  have hroom := H.iov_le_cmdSize hc.segs
  have hzero : ∀ f ∈ [H.lenOp, H.flags, H.privData, H.offset, H.len, H.iovCnt],
      f.get (m.fill pos (H.ubbdGetCmdSize c.iov.length) 0) pos = 0 := fun f hf =>
    Field.get_fill (by have := H.before_iov f hf; omega)
  have hpow : ∀ {w k : Nat}, k ≤ w → 256 ^ k ≤ 256 ^ w := fun h => Nat.pow_le_pow_right (by decide) h
  have hseg := hc.segs
  have hmax : maxSegments = 65536 := rfl
  have wlen : c.len < 256 ^ H.len.width := hc.len.trans_le (hpow H.len_width)
  have wcnt : c.iov.length < 256 ^ H.iovCnt.width :=
    (show c.iov.length < 256 ^ 4 by omega).trans_le (hpow H.iovCnt_width)
  have wpriv : c.privData < 256 ^ H.privData.width := by rw [H.privData_width]; exact hc.privData
  have woff : c.offset < 256 ^ H.offset.width := by rw [H.offset_width]; exact hc.offset
  simp only [queueReqSeInit]
  refine ⟨?_, ?_, ?_, ?_, ?_, ?_⟩
  · rw [Field.get_set_of_disjoint d05, Field.get_set_of_disjoint d04, Field.get_set_of_disjoint d03,
      Field.get_set_of_disjoint d02, lenOp_setHdr (hzero _ (by simp))]
  · rw [Field.get_set_of_disjoint d15, Field.get_set_of_disjoint d14, Field.get_set_of_disjoint d13,
      Field.get_set_of_disjoint d12, get_setHdr disjoint_lenOp.1, hzero _ (by simp)]
  · rw [Field.get_set_of_disjoint d25, Field.get_set_of_disjoint d24, Field.get_set_of_disjoint d23,
      Field.get_set _ _ _ wpriv]
  · rw [Field.get_set_of_disjoint d35, Field.get_set_of_disjoint d34, Field.get_set _ _ _ woff]
  · rw [Field.get_set_of_disjoint d45, Field.get_set _ _ _ wlen]
  · rw [Field.get_set _ _ _ wcnt]

theorem queueReqSeInit_outside (m : Mem) (pos : Nat) {c : Cmd} (hc : c.Ok) :
    SameOutside pos (H.ubbdGetCmdSize c.iov.length) m (queueReqSeInit H m pos c) := by
  have hroom := H.iov_le_cmdSize hc.segs
  have hfield : ∀ f ∈ [H.lenOp, H.flags, H.privData, H.offset, H.len, H.iovCnt], ∀ (m : Mem) (v : Nat),
      SameOutside pos (H.ubbdGetCmdSize c.iov.length) m (f.set m pos v) := fun f hf m v =>
    Field.set_outside _ _ _ _ (by have := H.before_iov f hf; omega)
  have hhdr : H.sizeofSeHdr ≤ H.ubbdGetCmdSize c.iov.length :=
    H.hdr_le_align.trans (Nat.le_of_dvd (H.cmdSize_pos hc.segs) (H.dvd_cmdSize _))
  exact ((Mem.fill_outside m pos _ 0).trans (setHdr_outside _ _ _ _ hhdr)).trans
    ((hfield _ (by simp) _ _).trans ((hfield _ (by simp) _ _).trans
      ((hfield _ (by simp) _ _).trans (hfield _ (by simp) _ _))))

theorem queueReqDataInit_outside (m : Mem) (pos : Nat) (c : Cmd) :
    SameOutside (pos + H.iovOff) (sizeofIovec * c.iov.length) m (queueReqDataInit H m pos c) := by
  unfold queueReqDataInit
  split
  · exact ubbdSetSeIov_outside _ _ _
  · exact fun _ _ => rfl

/-- The entry of a submission carries its command. -/
theorem at_submit {m : Mem} {pos : Nat} {c : Cmd} (hc : c.Ok)
    (hle : H.ubbdGetCmdSize c.iov.length ≤ H.cmdrSize) :
    At H (queueReqDataInit H (queueReqSeInit H m pos c) pos c)
      ⟨⟨pos, H.ubbdGetCmdSize c.iov.length⟩, some c, false⟩ := by
  obtain ⟨f0, f1, f2, f3, f4, f5⟩ := queueReqSeInit_fields (H := H) m pos hc
  -- the stores to the `iov` come after all members
  have hf : ∀ f ∈ [H.lenOp, H.flags, H.privData, H.offset, H.len, H.iovCnt],
      f.get (queueReqDataInit H (queueReqSeInit H m pos c) pos c) pos =
        f.get (queueReqSeInit H m pos c) pos := fun f hf =>
    Field.get_congr (n := H.iovOff) ((queueReqDataInit_outside _ _ _).sameOn (by omega))
      (H.before_iov f hf)
  simp only [List.mem_cons, List.not_mem_nil, or_false, forall_eq_or_imp, forall_eq] at hf
  obtain ⟨g0, g1, g2, g3, g4, g5⟩ := hf
  have hiov : readIov (queueReqDataInit H (queueReqSeInit H m pos c) pos c) (pos + H.iovOff)
      c.iov.length = c.iov := by
    unfold queueReqDataInit
    split
    · exact readIov_ubbdSetSeIov _ _ _ hc.iov
    · rename_i h
      have : c.iov = [] := List.eq_nil_of_length_eq_zero (by simpa using h)
      rw [this]
      rfl
  have hop : entOp H (queueReqDataInit H (queueReqSeInit H m pos c) pos c) pos = c.op := by
    rw [entOp, g0, f0, H.getOp_setLen, H.getOp_setOp]
  refine ⟨?_, ?_, ?_, fun d hd => ?_⟩
  · simp only [entLen, g0, f0]
    exact H.getLen_setLen (H.dvd_cmdSize _) hle
  · simp only [entDone, g1, f1, H.testDone_zero]
  · simp only [cmdAt, hop]
    rw [ite_cond_eq_false _ _ (eq_false hc.op)]
    simp only [entCmd, hop, g2, f2, g3, f3, g4, f4, g5, f5, hiov]
  · cases hd
    exact H.iov_le_cmdSize hc.segs

/-- A submission writes to its own entry only. -/
theorem submit_outside (m : Mem) (pos : Nat) {c : Cmd} (hc : c.Ok) :
    SameOutside pos (H.ubbdGetCmdSize c.iov.length) m
      (queueReqDataInit H (queueReqSeInit H m pos c) pos c) := by
  have hroom := H.iov_le_cmdSize hc.segs
  exact (queueReqSeInit_outside m pos hc).trans
    ((queueReqDataInit_outside _ _ _).mono (by omega) (by omega))

end Ubbd.Ring

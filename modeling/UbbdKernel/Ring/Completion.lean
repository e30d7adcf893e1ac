import Mathlib.Data.List.Forall2
import Mathlib.Tactic.Common
import UbbdKernel.Framework.Bytes
import UbbdKernel.Framework.Lts

/-!
# The completion ring

The backend writes a completion entry to the slot at `compr_head` and
advances the head; any number of callers of `ubbd_queue_complete` take the
entry at `compr_tail`, each advancing the tail under `compr_lock` and reading
the entry after it has dropped the lock: `priv_data` first, and `result` once
the request is found and its data are copied.

`Consumed` says that every entry published up to the tail is consumed once
and with its own contents. The slot of an entry is free as soon as the tail
has moved past it, while its consumer may still be reading, so this needs
that the backend does not write to such a slot (`consumed_of_apart`). With
two callers a ring of two slots is enough to lose an entry and to act on
another one twice (`overwritten_not_consumed`).
-/

namespace Ubbd.Compr

/-- What the driver uses of `struct ubbd_ce` and of `COMPR_SIZE`. -/
structure Layout where
  sizeofCe : Nat
  comprSize : Nat
  privData : Field
  result : Field
  size_pos : 0 < comprSize
  dvd : sizeofCe ∣ comprSize
  disjoint : privData.Disjoint result
  privData_le : privData.off + privData.width ≤ sizeofCe
  result_le : result.off + result.width ≤ sizeofCe

/-- `struct ubbd_ce`. -/
structure Ce where
  privData : Nat
  result : Nat
  deriving DecidableEq

/-- A caller of `ubbd_queue_complete` that has taken an entry: where the entry
lies, and `priv_data` once it is read. -/
structure Reader where
  ce : Nat
  privData : Option Nat

/-- What a caller acted on: `priv_data`, and `result` unless there was no
request of that id (`fetch_inflight_req` returned NULL). -/
structure Act where
  privData : Nat
  result : Option Nat

/-- The ring, the callers reading an entry, and the record of the run: what
the backend published, how many entries were taken, what was acted on. -/
structure ComprRing where
  compr : Mem
  comprHead : Nat
  comprTail : Nat
  readers : List Reader
  published : List Ce
  taken : Nat
  acted : List Act

def initComprRing (m : Mem) : ComprRing where
  compr := m
  comprHead := 0
  comprTail := 0
  readers := []
  published := []
  taken := 0
  acted := []

variable (L : Layout)

/-- `UPDATE_COMPR_TAIL`, whose `used` is a `size_t`; the backend moves the head
in the same way. -/
def updateComprTail (tail used size : Nat) : Nat := (tail % size + used) % size

/-- The entry at `pos`. -/
def ceAt (m : Mem) (pos : Nat) : Ce where
  privData := L.privData.get m pos
  result := L.result.get m pos

def writeCe (m : Mem) (pos : Nat) (e : Ce) : Mem :=
  L.result.set (L.privData.set m pos e.privData) pos e.result

inductive Label
  /-- The backend writes an entry to the slot at the head. -/
  | write (e : Ce)
  /-- The backend advances the head, never onto the tail. -/
  | advance
  /-- A caller takes the entry at the tail, under `compr_lock`. -/
  | take
  /-- Caller `i` reads `ce->priv_data`; `found`: whether a request has it. -/
  | readPrivData (i : Nat) (found : Bool)
  /-- Caller `i` reads `ce->result`. -/
  | readResult (i : Nat)

def step (r : ComprRing) : Label → Option ComprRing
  | .write e => some { r with compr := writeCe L r.compr r.comprHead e }
  | .advance =>
    let head := updateComprTail r.comprHead L.sizeofCe L.comprSize
    if head = r.comprTail then none
    else some { r with comprHead := head, published := r.published ++ [ceAt L r.compr r.comprHead] }
  | .take =>
    -- `get_complete_entry` finds the ring empty
    if r.comprTail = r.comprHead then none
    else some { r with
      comprTail := updateComprTail r.comprTail L.sizeofCe L.comprSize
      readers := r.readers ++ [⟨r.comprTail, none⟩]
      taken := r.taken + 1 }
  | .readPrivData i found =>
    match r.readers[i]? with
    | some ⟨ce, none⟩ =>
      let tid := L.privData.get r.compr ce
      if found then some { r with readers := r.readers.set i ⟨ce, some tid⟩ }
      else some { r with readers := r.readers.eraseIdx i, acted := r.acted ++ [⟨tid, none⟩] }
    | _ => none
  | .readResult i =>
    match r.readers[i]? with
    | some ⟨ce, some tid⟩ =>
      some { r with
        readers := r.readers.eraseIdx i
        acted := r.acted ++ [⟨tid, some (L.result.get r.compr ce)⟩] }
    | _ => none

def lts : Lts ComprRing Label where
  init r := ∃ m, r = initComprRing m
  step := step L

/-! ## What is to hold -/

/-- A caller acted on the contents of the entry. -/
def Agrees (e : Ce) (a : Act) : Prop := a.privData = e.privData ∧ ∀ res ∈ a.result, res = e.result

/-- The entries published up to the tail are, in some order, those acted on,
each with its own contents, and those of the callers still reading. -/
def Consumed (r : ComprRing) : Prop :=
  r.comprTail = r.taken * L.sizeofCe % L.comprSize ∧ r.taken ≤ r.published.length ∧
    ∃ done reading, (done ++ reading).Perm (r.published.take r.taken) ∧
      List.Forall₂ Agrees done r.acted ∧ reading.length = r.readers.length

/-- The backend does not write to a slot that a caller is still reading. -/
def Apart (r : ComprRing) (a : Label) : Prop :=
  ∀ e, a = .write e → ∀ x ∈ r.readers, x.ce ≠ r.comprHead

/-! ## Slots -/

namespace Layout

/-- The number of slots. -/
def slots : Nat := L.comprSize / L.sizeofCe

/-- Where the entry published as number `k` lies. -/
def slot (k : Nat) : Nat := k * L.sizeofCe % L.comprSize

theorem size_eq : L.comprSize = L.slots * L.sizeofCe := (Nat.div_mul_cancel L.dvd).symm

theorem slots_pos : 0 < L.slots := by
  have h := L.size_pos
  rw [L.size_eq] at h
  exact Nat.pos_of_mul_pos_right h

theorem sizeofCe_pos : 0 < L.sizeofCe := by
  have h := L.size_pos
  rw [L.size_eq] at h
  exact Nat.pos_of_mul_pos_left h

theorem slot_eq (k : Nat) : L.slot k = k % L.slots * L.sizeofCe := by
  rw [slot, L.size_eq, Nat.mul_mod_mul_right]

theorem dvd_slot (k : Nat) : L.sizeofCe ∣ L.slot k := ⟨k % L.slots, by rw [slot_eq, Nat.mul_comm]⟩

theorem slot_inj {j k : Nat} (h : L.slot j = L.slot k) : j % L.slots = k % L.slots := by
  rw [slot_eq, slot_eq] at h
  exact Nat.eq_of_mul_eq_mul_right L.sizeofCe_pos h

/-- Fewer than a whole turn apart, two entries lie in different slots. -/
theorem slot_ne {j k : Nat} (h : j < k) (hk : k < j + L.slots) : L.slot j ≠ L.slot k := by
  intro he
  have hmod := L.slot_inj he
  have hj := Nat.div_add_mod j L.slots
  have hk' := Nat.div_add_mod k L.slots
  rw [← hmod] at hk'
  have hlt : L.slots * (k / L.slots) < L.slots * (j / L.slots + 1) := by
    rw [Nat.mul_add, Nat.mul_one]
    omega
  have hlt' : L.slots * (j / L.slots) < L.slots * (k / L.slots) := by omega
  have h1 := Nat.lt_of_mul_lt_mul_left hlt
  have h2 := Nat.lt_of_mul_lt_mul_left hlt'
  omega

theorem slot_add_slots (k : Nat) : L.slot (k + L.slots) = L.slot k := by
  rw [slot_eq, slot_eq, Nat.add_mod_right]

theorem updateComprTail_slot (k : Nat) :
    updateComprTail (L.slot k) L.sizeofCe L.comprSize = L.slot (k + 1) := by
  rw [updateComprTail, slot, slot, Nat.mod_mod, Nat.mod_add_mod, Nat.add_mul, Nat.one_mul]

end Layout

/-- An entry in another slot stays as it is. -/
theorem ceAt_writeCe {m : Mem} {p q : Nat} {e : Ce} (hp : L.sizeofCe ∣ p) (hq : L.sizeofCe ∣ q)
    (hpq : p ≠ q) : ceAt L (writeCe L m q e) p = ceAt L m p := by
  have hout : Mem.SameOutside q L.sizeofCe m (writeCe L m q e) :=
    (L.privData.set_outside m q e.privData L.privData_le).trans
      (L.result.set_outside _ q e.result L.result_le)
  -- two multiples of the size lie at least that far apart
  have hd : p + L.sizeofCe ≤ q ∨ q + L.sizeofCe ≤ p := by
    obtain ⟨i, rfl⟩ := hp
    obtain ⟨j, rfl⟩ := hq
    rcases Nat.lt_or_gt_of_ne (fun h : i = j => hpq (h ▸ rfl)) with h | h
    · exact .inl (by rw [← Nat.mul_succ]; exact Nat.mul_le_mul_left _ h)
    · exact .inr (by rw [← Nat.mul_succ]; exact Nat.mul_le_mul_left _ h)
  have hsame := hout.sameOn hd
  unfold ceAt
  rw [Field.get_congr hsame L.privData_le, Field.get_congr hsame L.result_le]

/-! ## The invariant -/

variable {L}

/-- The entry a caller has taken is still in its slot. -/
def Reads (L : Layout) (m : Mem) (e : Ce) (x : Reader) : Prop :=
  ceAt L m x.ce = e ∧ (∀ tid ∈ x.privData, tid = e.privData) ∧ L.sizeofCe ∣ x.ce

structure Inv (L : Layout) (r : ComprRing) : Prop where
  tail : r.comprTail = L.slot r.taken
  head : r.comprHead = L.slot r.published.length
  le : r.taken ≤ r.published.length
  room : r.published.length < r.taken + L.slots
  /-- The entries from tail to head are in their slots. -/
  kept : ∀ k e, r.taken ≤ k → r.published[k]? = some e → ceAt L r.compr (L.slot k) = e
  acts : ∃ done reading, (done ++ reading).Perm (r.published.take r.taken) ∧
    List.Forall₂ Agrees done r.acted ∧ List.Forall₂ (Reads L r.compr) reading r.readers

theorem Inv.consumed {r : ComprRing} (h : Inv L r) : Consumed L r := by
  obtain ⟨done, reading, hp, hd, hr⟩ := h.acts
  exact ⟨h.tail, h.le, done, reading, hp, hd, hr.length_eq⟩

theorem initComprRing_inv (m : Mem) : Inv L (initComprRing m) where
  tail := by simp [Layout.slot, initComprRing]
  head := by simp [Layout.slot, initComprRing]
  le := Nat.le_refl 0
  room := by
    have := L.slots_pos
    show 0 < 0 + L.slots
    omega
  kept := fun k e _ h => by simp [initComprRing] at h
  acts := ⟨[], [], .nil, .nil, .nil⟩

/-- One reader of a list and its entry, apart from the others. -/
theorem forall₂_split {R : Ce → Reader → Prop} {es : List Ce} {xs : List Reader} {i : Nat} {x : Reader}
    (h : List.Forall₂ R es xs) (hx : xs[i]? = some x) :
    ∃ es₁ e es₂, es = es₁ ++ e :: es₂ ∧ R e x ∧ List.Forall₂ R (es₁ ++ es₂) (xs.eraseIdx i) ∧
      ∀ x', R e x' → List.Forall₂ R es (xs.set i x') := by
  induction h generalizing i with
  | nil => cases hx
  | @cons e y es xs he h ih =>
    cases i with
    | zero =>
      cases hx
      exact ⟨[], e, es, rfl, he, h, fun x' hx' => .cons hx' h⟩
    | succ i =>
      obtain ⟨es₁, e', es₂, rfl, hR, hera, hset⟩ := ih hx
      exact ⟨e :: es₁, e', es₂, rfl, hR, .cons he hera, fun x' hx' => .cons he (hset x' hx')⟩

/-- A write away from every entry that is being read. -/
theorem forall₂_reads_writeCe {m : Mem} {q : Nat} {e : Ce} (hq : L.sizeofCe ∣ q) {es : List Ce}
    {xs : List Reader} (h : List.Forall₂ (Reads L m) es xs) (hne : ∀ x ∈ xs, x.ce ≠ q) :
    List.Forall₂ (Reads L (writeCe L m q e)) es xs := by
  induction h with
  | nil => exact .nil
  | @cons _ x _ xs hx _ ih =>
    refine .cons ⟨?_, hx.2⟩ (ih fun y hy => hne y (List.mem_cons_of_mem _ hy))
    rw [ceAt_writeCe L hx.2.2 hq (hne x (List.mem_cons_self ..))]
    exact hx.1

/-- The entries before number `k + 1`. -/
theorem take_succ_perm {es : List Ce} {k : Nat} {e : Ce} (h : es[k]? = some e) :
    es.take (k + 1) = es.take k ++ [e] := by
  rw [List.take_add_one, h, Option.toList_some]

/-- An entry read to its end moves from those being read to those acted on. -/
theorem perm_finish (done es₁ es₂ : List Ce) (e : Ce) :
    (done ++ [e] ++ (es₁ ++ es₂)).Perm (done ++ (es₁ ++ e :: es₂)) := by
  rw [List.append_assoc]
  apply List.Perm.append_left
  show (e :: (es₁ ++ es₂)).Perm _
  exact List.perm_middle.symm

theorem Inv.write {r : ComprRing} (h : Inv L r) {e : Ce} (hne : ∀ x ∈ r.readers, x.ce ≠ r.comprHead) :
    Inv L { r with compr := writeCe L r.compr r.comprHead e } := by
  obtain ⟨done, reading, hperm, hdone, hread⟩ := h.acts
  have hq : L.sizeofCe ∣ r.comprHead := h.head ▸ L.dvd_slot _
  refine { h with
    kept := fun k e' hk hp => ?_
    acts := ⟨done, reading, hperm, hdone, forall₂_reads_writeCe hq hread hne⟩ }
  have hlt := (List.getElem?_eq_some_iff.mp hp).1
  have hk' : r.taken ≤ k := hk
  have hroom := h.room
  have hslot : L.slot k ≠ r.comprHead := h.head ▸ L.slot_ne hlt (by omega)
  rw [ceAt_writeCe L (L.dvd_slot k) hq hslot]
  exact h.kept k e' hk hp

/-- The head is advanced onto a slot that is not the tail. -/
theorem Inv.advance {r : ComprRing} (h : Inv L r)
    (hne : updateComprTail r.comprHead L.sizeofCe L.comprSize ≠ r.comprTail) :
    Inv L { r with
      comprHead := updateComprTail r.comprHead L.sizeofCe L.comprSize
      published := r.published ++ [ceAt L r.compr r.comprHead] } := by
  obtain ⟨done, reading, hperm, hdone, hread⟩ := h.acts
  rw [h.head, L.updateComprTail_slot] at hne
  have hlt : r.published.length + 1 < r.taken + L.slots := by
    have hroom := h.room
    have : r.published.length + 1 ≠ r.taken + L.slots := fun e => by
      rw [e, L.slot_add_slots, h.tail] at hne
      exact hne rfl
    omega
  refine { tail := h.tail, head := ?_, le := ?_, room := ?_, kept := fun k e hk hp => ?_, acts := ?_ }
  · show updateComprTail r.comprHead _ _ = _
    rw [h.head, L.updateComprTail_slot, List.length_append, List.length_singleton]
  · have := h.le
    simp only [List.length_append, List.length_singleton]
    omega
  · simpa using hlt
  · simp only [List.getElem?_append] at hp
    split at hp
    · exact h.kept k e hk hp
    · obtain ⟨hk', he⟩ := List.getElem?_eq_some_iff.mp hp
      have hk0 : k = r.published.length := by simp at hk'; omega
      subst hk0
      rw [← h.head]
      simpa using he
  · refine ⟨done, reading, ?_, hdone, hread⟩
    show (done ++ reading).Perm ((r.published ++ _).take r.taken)
    rw [List.take_append_of_le_length h.le]
    exact hperm

/-- The entry at the tail is taken. -/
theorem Inv.take {r : ComprRing} (h : Inv L r) (hne : r.comprTail ≠ r.comprHead) :
    Inv L { r with
      comprTail := updateComprTail r.comprTail L.sizeofCe L.comprSize
      readers := r.readers ++ [⟨r.comprTail, none⟩]
      taken := r.taken + 1 } := by
  obtain ⟨done, reading, hperm, hdone, hread⟩ := h.acts
  have hlt : r.taken < r.published.length := by
    have hle := h.le
    have : r.taken ≠ r.published.length := fun e => hne (by rw [h.tail, h.head, e])
    omega
  obtain ⟨e, he⟩ : ∃ e, r.published[r.taken]? = some e := ⟨_, List.getElem?_eq_getElem hlt⟩
  refine { tail := ?_, head := h.head, le := hlt, room := ?_, kept := fun k e' hk hp => ?_, acts := ?_ }
  · show updateComprTail r.comprTail _ _ = _
    rw [h.tail, L.updateComprTail_slot]
  · have := h.room
    show r.published.length < r.taken + 1 + L.slots
    omega
  · exact h.kept k e' (by simp only at hk; omega) hp
  · refine ⟨done, reading ++ [e], ?_, hdone, List.rel_append hread (.cons ⟨?_, ?_, ?_⟩ .nil)⟩
    · show (done ++ (reading ++ [e])).Perm (r.published.take (r.taken + 1))
      rw [take_succ_perm he, ← List.append_assoc]
      exact hperm.append_right _
    · show ceAt L r.compr r.comprTail = e
      rw [h.tail]
      exact h.kept _ e (Nat.le_refl _) he
    · intro tid htid
      cases htid
    · show L.sizeofCe ∣ r.comprTail
      exact h.tail ▸ L.dvd_slot _

/-- Caller `i` has read what it needs of its entry, and acts. -/
theorem Inv.act {r : ComprRing} (h : Inv L r) {i : Nat} {x : Reader} (hx : r.readers[i]? = some x) {a : Act}
    (ha : ∀ e, Reads L r.compr e x → Agrees e a) :
    Inv L { r with readers := r.readers.eraseIdx i, acted := r.acted ++ [a] } := by
  obtain ⟨done, reading, hperm, hdone, hread⟩ := h.acts
  obtain ⟨es₁, e, es₂, rfl, hR, hera, -⟩ := forall₂_split hread hx
  refine { h with acts := ⟨done ++ [e], es₁ ++ es₂, ?_, ?_, hera⟩ }
  · exact (perm_finish done es₁ es₂ e).trans hperm
  · exact List.rel_append hdone (.cons (ha e hR) .nil)

theorem step_inv {r r' : ComprRing} {a : Label} (h : Inv L r) (hs : step L r a = some r') (ha : Apart r a) :
    Inv L r' := by
  cases a with
  | write e =>
    cases hs
    exact h.write (ha e rfl)
  | advance =>
    simp only [step, Option.ite_none_left_eq_some, Option.some.injEq] at hs
    obtain ⟨hne, rfl⟩ := hs
    exact h.advance hne
  | take =>
    simp only [step, Option.ite_none_left_eq_some, Option.some.injEq] at hs
    obtain ⟨hne, rfl⟩ := hs
    exact h.take hne
  | readPrivData i found =>
    simp only [step] at hs
    split at hs <;> [skip; cases hs]
    rename_i ce hx
    have htid : ∀ e, Reads L r.compr e ⟨ce, none⟩ → L.privData.get r.compr ce = e.privData := fun e hR =>
      congrArg Ce.privData hR.1
    split at hs <;> cases hs
    · obtain ⟨done, reading, hperm, hdone, hread⟩ := h.acts
      obtain ⟨es₁, e, es₂, rfl, hR, -, hset⟩ := forall₂_split hread hx
      refine { h with acts := ⟨done, _, hperm, hdone, hset _ ⟨hR.1, fun tid ht => ?_, hR.2.2⟩⟩ }
      cases ht
      exact htid e hR
    · exact h.act hx fun e hR => ⟨htid e hR, fun res hr => by cases hr⟩
  | readResult i =>
    simp only [step] at hs
    split at hs <;> cases hs
    rename_i ce tid hx
    refine h.act hx fun e hR => ⟨hR.2.1 tid rfl, fun res hr => ?_⟩
    cases hr
    exact congrArg Ce.result hR.1

/-- In every run of the backend and any number of callers in which the backend
does not write to a slot that is still being read, every published entry up
to the tail is consumed once, with its own contents. -/
theorem consumed_of_apart (m : Mem) (as : List Label)
    (h : (lts L).Steps (fun r a _ => Apart r a) (initComprRing m) as) :
    (lts L).States (Consumed L) (initComprRing m) as :=
  (Lts.states_of_steps (I := Inv L) (fun _ _ _ hi hs ha => step_inv hi hs ha) (initComprRing_inv m) h).mono
    fun _ hi => hi.consumed

/-- Two slots of 16 bytes. -/
def twoSlots : Layout where
  sizeofCe := 16
  comprSize := 32
  privData := ⟨0, 8⟩
  result := ⟨8, 4⟩
  size_pos := by decide
  dvd := by decide
  disjoint := by decide
  privData_le := by decide
  result_le := by decide

/-- Two entries, the second written while the caller that took the first still
reads it. -/
theorem consumed_of_apart_two :
    (lts twoSlots).Steps (fun r a _ => Apart r a) (initComprRing fun _ => 0)
        [.write ⟨7, 0⟩, .advance, .take, .readPrivData 0 true, .write ⟨8, 1⟩, .advance, .readResult 0] ∧
      ∃ r, (lts twoSlots).exec (initComprRing fun _ => 0)
          [.write ⟨7, 0⟩, .advance, .take, .readPrivData 0 true, .write ⟨8, 1⟩, .advance, .readResult 0] =
            some r ∧
        r.acted.map (fun a => (a.privData, a.result)) = [(7, some 0)] ∧ Consumed twoSlots r := by
  have h : (lts twoSlots).Steps (fun r a _ => Apart r a) (initComprRing fun _ => 0)
      [.write ⟨7, 0⟩, .advance, .take, .readPrivData 0 true, .write ⟨8, 1⟩, .advance, .readResult 0] := by
    refine .cons rfl (fun e _ x hx => by cases hx) ?_
    refine .cons rfl (fun e he => by cases he) ?_
    refine .cons rfl (fun e he => by cases he) ?_
    refine .cons rfl (fun e he => by cases he) ?_
    refine .cons rfl (fun e _ x hx => ?_) ?_
    · obtain rfl := List.mem_singleton.mp hx
      decide
    refine .cons rfl (fun e he => by cases he) ?_
    exact .cons rfl (fun e he => by cases he) trivial
  exact ⟨h, _, rfl, by decide, (consumed_of_apart _ _ h).last rfl⟩

/-- Two callers of two slots: the first has taken entry 7 and not read it, the
second has taken entry 8, so the backend writes entry 9 to the slot of entry
7, and the first caller acts on it. Entry 7 is lost, and entry 9 is still to
be taken. -/
theorem overwritten_not_consumed :
    ∃ r, (lts twoSlots).exec (initComprRing fun _ => 0)
        [.write ⟨7, 0⟩, .advance, .take, .write ⟨8, 0⟩, .advance, .take, .write ⟨9, 1⟩, .advance,
          .readPrivData 0 true, .readResult 0, .readPrivData 0 true, .readResult 0] = some r ∧
      r.published = [⟨7, 0⟩, ⟨8, 0⟩, ⟨9, 1⟩] ∧ r.taken = 2 ∧ r.readers.length = 0 ∧
      r.acted.map (fun a => (a.privData, a.result)) = [(9, some 1), (8, some 0)] ∧
      ¬ Consumed twoSlots r := by
  refine ⟨_, rfl, by decide, rfl, rfl, by decide, ?_⟩
  rintro ⟨-, -, done, reading, hperm, hdone, -⟩
  obtain ⟨e, _, he, _, rfl⟩ := List.forall₂_cons_right_iff.mp hdone
  have h9 : e.privData = 9 := he.1.symm
  have hmem : e ∈ [(⟨7, 0⟩ : Ce), ⟨8, 0⟩] :=
    hperm.subset (List.mem_append_left reading (List.mem_cons_self ..))
  rcases List.mem_cons.mp hmem with rfl | hmem
  · exact absurd h9 (by decide)
  · obtain rfl := List.mem_singleton.mp hmem
    exact absurd h9 (by decide)

end Ubbd.Compr

import UbbdKernel.Queue.Step
import UbbdKernel.Service.Model

/-!
# The completion entries of a queue and the callers that take them

What a caller of `ubbd_queue_complete` has of an entry, from the moment it takes
it until it has ended the request (`Takes`), and where the entries lie that were
posted (`Completions`). A caller reads `result` when it has copied the data of a
READ, long after the tail has moved past the entry, so this needs that the
backend writes no entry to a slot that a caller has still to read (`Apart`).
-/

namespace Ubbd.Service

open Queue (Pc By ThStep)
open Compr (ceAt)

variable {C : Conf} {s s' : State C}

/-- What the entry says that was posted as `p`. -/
def ceOf (p : Nat × Reply) : Compr.Ce := ⟨p.1, p.2.result⟩

/-- The caller has the entry that was posted as `p`, in its slot as long as it
has not read `result`. -/
structure Is (s : State C) (r : Taken) (p : Nat × Reply) : Prop where
  num : s.posted[r.num]? = some p
  lt : r.num < s.ntaken
  ce : r.ce = C.compr.slot r.num
  unread : r.result = none → ceAt C.compr s.compr r.ce = ceOf p
  result : ∀ res, r.result = some res → res = p.2.result

/-- What a thread has of an entry, by where it is. -/
def Takes (s : State C) (x : Nat) : Pc C.queue → Prop
  | .again => ∀ r, s.taken x = some r → r.got = [] ∧ r.result = none ∧ ∃ p, Is s r p
  | .took _ => False
  | .setStopped _ tid => ∃ r p, s.taken x = some r ∧ r.got = [] ∧ r.result = none ∧ Is s r p ∧ p.1 = tid
  | .mark _ (.entry tid) => ∃ r p, s.taken x = some r ∧ Is s r p ∧ p.1 = tid
  | .release _ (.entry tid) | .finish _ (.entry tid) =>
    ∃ r p, s.taken x = some r ∧ Is s r p ∧ p.1 = tid ∧ r.result = some p.2.result
  | _ => s.taken x = none

/-- The entries from tail to head are in their slots, and so is the one that is
written. -/
structure Completions (s : State C) : Prop where
  tail : s.comprTail = C.compr.slot s.ntaken
  head : s.comprHead = C.compr.slot s.posted.length
  le : s.ntaken ≤ s.posted.length
  room : s.posted.length < s.ntaken + C.compr.slots
  kept : ∀ k p, s.ntaken ≤ k → s.posted[k]? = some p → ceAt C.compr s.compr (C.compr.slot k) = ceOf p
  writing : ∀ p, s.writing = some p → ceAt C.compr s.compr s.comprHead = ceOf p
  takes : ∀ x, Takes s x (s.queue.threads x)

/-- The backend writes no entry to a slot that a caller has still to read. -/
def Apart (s : State C) : Label C → Prop
  | .reply _ _ => ∀ x r, s.taken x = some r → r.result = none → r.ce ≠ s.comprHead
  | _ => True

theorem completions_init (n r : Nat) : Completions (initState C n r) where
  tail := by simp [initState, Compr.Layout.slot]
  head := by simp [initState, Compr.Layout.slot]
  le := Nat.le_refl 0
  room := by
    have := C.compr.slots_pos
    show 0 < 0 + C.compr.slots
    omega
  kept k p _ h := by simp [initState] at h
  writing _ h := nomatch h
  takes _ := rfl

/-! ## Frames -/

theorem Is.frame {r : Taken} {p : Nat × Reply} (h : Is s r p) (hp : s.posted <+: s'.posted)
    (hn : s.ntaken ≤ s'.ntaken) (hc : r.result = none → ceAt C.compr s'.compr r.ce = ceAt C.compr s.compr r.ce) :
    Is s' r p where
  num := by
    obtain ⟨hlt, -⟩ := List.getElem?_eq_some_iff.mp h.num
    obtain ⟨t, ht⟩ := hp
    rw [← ht, List.getElem?_append_left hlt]
    exact h.num
  lt := Nat.lt_of_lt_of_le h.lt hn
  ce := h.ce
  unread hr := (hc hr).trans (h.unread hr)
  result := h.result

theorem Takes.frame {x : Nat} {pc : Pc C.queue} (h : Takes s x pc) (ht : s'.taken x = s.taken x)
    (hi : ∀ r p, s.taken x = some r → Is s r p → Is s' r p) : Takes s' x pc := by
  cases pc with
  | again =>
    intro r hr
    rw [ht] at hr
    obtain ⟨hgot, hres, p, hp⟩ := h r hr
    exact ⟨hgot, hres, p, hi r p hr hp⟩
  | took tid => exact h
  | setStopped t tid =>
    obtain ⟨r, p, hr, hgot, hres, hp, htid⟩ := h
    exact ⟨r, p, ht.trans hr, hgot, hres, hi r p hr hp, htid⟩
  | mark t by_ =>
    cases by_ with
    | entry tid =>
      obtain ⟨r, p, hr, hp, htid⟩ := h
      exact ⟨r, p, ht.trans hr, hi r p hr hp, htid⟩
    | removal => exact ht.trans h
  | release t by_ =>
    cases by_ with
    | entry tid =>
      obtain ⟨r, p, hr, hp, htid, hres⟩ := h
      exact ⟨r, p, ht.trans hr, hi r p hr hp, htid, hres⟩
    | removal => exact ht.trans h
  | finish t by_ =>
    cases by_ with
    | entry tid =>
      obtain ⟨r, p, hr, hp, htid, hres⟩ := h
      exact ⟨r, p, ht.trans hr, hi r p hr hp, htid, hres⟩
    | removal => exact ht.trans h
  | _ => exact ht.trans h

/-- Whatever entry a thread has was posted. -/
theorem Takes.is {x : Nat} {pc : Pc C.queue} (h : Takes s x pc) {r : Taken} (hr : s.taken x = some r) :
    ∃ p, Is s r p := by
  have hnone : s.taken x ≠ none := by rw [hr]; nofun
  cases pc with
  | again => exact (h r hr).2.2
  | took tid => exact h.elim
  | setStopped t tid =>
    obtain ⟨r', p, hr', -, -, hp, -⟩ := h
    exact ⟨p, Option.some.inj (hr'.symm.trans hr) ▸ hp⟩
  | mark t by_ =>
    cases by_ with
    | entry tid =>
      obtain ⟨r', p, hr', hp, -⟩ := h
      exact ⟨p, Option.some.inj (hr'.symm.trans hr) ▸ hp⟩
    | removal => exact absurd h hnone
  | release t by_ =>
    cases by_ with
    | entry tid =>
      obtain ⟨r', p, hr', hp, -⟩ := h
      exact ⟨p, Option.some.inj (hr'.symm.trans hr) ▸ hp⟩
    | removal => exact absurd h hnone
  | finish t by_ =>
    cases by_ with
    | entry tid =>
      obtain ⟨r', p, hr', hp, -⟩ := h
      exact ⟨p, Option.some.inj (hr'.symm.trans hr) ▸ hp⟩
    | removal => exact absurd h hnone
  | _ => exact absurd h hnone

/-- Steps that leave the completion ring alone. -/
theorem Completions.frame (h : Completions s) (htail : s'.comprTail = s.comprTail) (hhead : s'.comprHead = s.comprHead)
    (hn : s'.ntaken = s.ntaken) (hposted : s'.posted = s.posted) (hc : s'.compr = s.compr)
    (hw : s'.writing = s.writing) (ht : ∀ x, Takes s' x (s'.queue.threads x)) : Completions s' where
  tail := by rw [htail, hn]; exact h.tail
  head := by rw [hhead, hposted]; exact h.head
  le := by rw [hn, hposted]; exact h.le
  room := by rw [hn, hposted]; exact h.room
  kept := by rw [hn, hposted, hc]; exact h.kept
  writing := by rw [hw, hhead, hc]; exact h.writing
  takes := ht

/-- Another entry of one thread. -/
theorem Completions.thread (h : Completions s) {x : Nat} (htail : s'.comprTail = s.comprTail)
    (hhead : s'.comprHead = s.comprHead) (hn : s'.ntaken = s.ntaken) (hposted : s'.posted = s.posted)
    (hc : s'.compr = s.compr) (hw : s'.writing = s.writing)
    (hother : ∀ y, y ≠ x → s'.taken y = s.taken y ∧ s'.queue.threads y = s.queue.threads y)
    (hx : (∀ r p, Is s r p → Is s' r p) → Takes s' x (s'.queue.threads x)) : Completions s' := by
  have hi : ∀ r p, Is s r p → Is s' r p := fun r p hp =>
    hp.frame (hposted ▸ List.prefix_refl _) (Nat.le_of_eq hn.symm) fun _ => by rw [hc]
  refine h.frame htail hhead hn hposted hc hw fun y => ?_
  by_cases hyx : y = x
  · rw [hyx]
    exact hx hi
  · rw [(hother y hyx).2]
    exact (h.takes y).frame (hother y hyx).1 fun r p _ => hi r p

/-! ## The backend -/

theorem ceAt_writeCe_self {m : Mem} {p : Nat} {e : Compr.Ce} (h₁ : e.privData < 2 ^ 64) (h₂ : e.result < 2 ^ 32) :
    ceAt C.compr (Compr.writeCe C.compr m p e) p = e := by
  have hp : C.compr.privData.get (Compr.writeCe C.compr m p e) p = e.privData := by
    rw [Compr.writeCe, Field.get_set_of_disjoint C.compr.disjoint, Field.get_set]
    rw [C.privData_width]
    exact h₁
  have hr : C.compr.result.get (Compr.writeCe C.compr m p e) p = e.result := by
    rw [Compr.writeCe, Field.get_set]
    rw [C.result_width]
    exact h₂
  rw [ceAt, hp, hr]

/-- The backend writes an entry. -/
theorem Completions.reply (h : Completions s) {tid : Nat} {d : Reply} {todo : List Cmd} (htid : tid < 2 ^ 64)
    (hres : d.result < 2 ^ 32) (ha : ∀ x r, s.taken x = some r → r.result = none → r.ce ≠ s.comprHead) :
    Completions { s with
      compr := Compr.writeCe C.compr s.compr s.comprHead ⟨tid, d.result⟩
      todo := todo
      writing := some (tid, d) } where
  tail := h.tail
  head := h.head
  le := h.le
  room := h.room
  kept k p hk hp := by
    obtain ⟨hlt, -⟩ := List.getElem?_eq_some_iff.mp hp
    have hlt : k < s.posted.length := hlt
    have hroom := h.room
    have hk : s.ntaken ≤ k := hk
    show ceAt C.compr (Compr.writeCe C.compr s.compr s.comprHead _) _ = _
    rw [h.head, Compr.ceAt_writeCe C.compr (C.compr.dvd_slot _) (C.compr.dvd_slot _)
      (C.compr.slot_ne hlt (by omega))]
    exact h.kept k p hk hp
  writing p hp := by
    obtain rfl : (tid, d) = p := Option.some.inj hp
    exact ceAt_writeCe_self htid hres
  takes x := (h.takes x).frame rfl fun r p hr hp =>
    hp.frame (List.prefix_refl _) (Nat.le_refl _) fun hnone => by
      have hne := ha x r hr hnone
      rw [hp.ce] at hne ⊢
      rw [h.head] at hne
      show ceAt C.compr (Compr.writeCe C.compr s.compr s.comprHead _) _ = _
      rw [h.head]
      exact Compr.ceAt_writeCe C.compr (C.compr.dvd_slot _) (C.compr.dvd_slot _) hne

/-- It moves the head behind the entry. -/
theorem Completions.post (h : Completions s) {p : Nat × Reply} (hp : s.writing = some p)
    (room : Compr.updateComprTail s.comprHead C.compr.sizeofCe C.compr.comprSize ≠ s.comprTail) :
    Completions { s with
      comprHead := Compr.updateComprTail s.comprHead C.compr.sizeofCe C.compr.comprSize
      posted := s.posted ++ [p]
      writing := none } := by
  rw [h.head, C.compr.updateComprTail_slot, h.tail] at room
  have hlen : (s.posted ++ [p]).length = s.posted.length + 1 := by rw [List.length_append, List.length_singleton]
  refine ⟨h.tail, ?_, ?_, ?_, fun k q hk hq => ?_, nofun, fun x => ?_⟩
  · show Compr.updateComprTail s.comprHead _ _ = C.compr.slot (s.posted ++ [p]).length
    rw [hlen, h.head, C.compr.updateComprTail_slot]
  · exact h.le.trans (by rw [hlen]; omega)
  · show (s.posted ++ [p]).length < s.ntaken + C.compr.slots
    rw [hlen]
    have hne : s.posted.length + 1 ≠ s.ntaken + C.compr.slots := fun he => by
      rw [he, C.compr.slot_add_slots] at room
      exact room rfl
    have := h.room
    omega
  · rcases Nat.lt_or_ge k s.posted.length with hlt | hge
    · rw [List.getElem?_append_left hlt] at hq
      exact h.kept k q hk hq
    · rw [List.getElem?_append_right hge] at hq
      obtain ⟨hlt, heq⟩ := List.getElem?_eq_some_iff.mp hq
      have hk : k = s.posted.length := by
        rw [List.length_singleton] at hlt
        omega
      rw [List.getElem_singleton] at heq
      subst heq
      show ceAt C.compr s.compr (C.compr.slot k) = _
      rw [hk, ← h.head]
      exact h.writing p hp
  · exact (h.takes x).frame rfl fun r q _ hq =>
      hq.frame (List.prefix_append _ _) (Nat.le_refl _) fun _ => rfl

/-! ## The callers -/

/-- A caller takes the entry at the tail. -/
theorem Completions.take (h : Completions s) {x : Nat} (pc : s.queue.threads x = .again)
    (more : s.comprTail ≠ s.comprHead) :
    Completions { s.setTaken x (some ⟨s.comprTail, s.ntaken, [], none⟩) with
      comprTail := Compr.updateComprTail s.comprTail C.compr.sizeofCe C.compr.comprSize
      ntaken := s.ntaken + 1 } := by
  have hlt : s.ntaken < s.posted.length := by
    refine Nat.lt_of_le_of_ne h.le fun he => more ?_
    rw [h.tail, h.head, he]
  have hi : ∀ r p, Is s r p → Is (C := C) { s.setTaken x (some ⟨s.comprTail, s.ntaken, [], none⟩) with
      comprTail := Compr.updateComprTail s.comprTail C.compr.sizeofCe C.compr.comprSize
      ntaken := s.ntaken + 1 } r p := fun r p hp =>
    hp.frame (List.prefix_refl _) (Nat.le_succ _) fun _ => rfl
  refine ⟨?_, h.head, hlt, ?_, fun k p hk => h.kept k p (Nat.le_of_succ_le hk), h.writing, fun y => ?_⟩
  · show Compr.updateComprTail s.comprTail _ _ = _
    rw [h.tail, C.compr.updateComprTail_slot]
  · show s.posted.length < s.ntaken + 1 + _
    have := h.room
    omega
  · by_cases hyx : y = x
    · subst hyx
      show Takes _ y (s.queue.threads y)
      rw [pc]
      intro r hr
      have hr : (s.setTaken y (some ⟨s.comprTail, s.ntaken, [], none⟩)).taken y = some r := hr
      rw [State.setTaken_taken, if_pos rfl] at hr
      obtain rfl := Option.some.inj hr
      refine ⟨rfl, rfl, s.posted[s.ntaken], List.getElem?_eq_getElem hlt, Nat.lt_succ_self _, h.tail, fun _ => ?_,
        nofun⟩
      show ceAt C.compr s.compr s.comprTail = _
      rw [h.tail]
      exact h.kept _ _ (Nat.le_refl _) (List.getElem?_eq_getElem hlt)
    · refine (h.takes y).frame ?_ fun r p _ => hi r p
      show (s.setTaken x _).taken y = _
      rw [State.setTaken_taken, if_neg hyx]

/-- The entry of a caller that has not looked for its request. -/
theorem Completions.tid (h : Completions s) {x : Nat} {r : Taken} (hr : s.taken x = some r)
    (pc : s.queue.threads x = .again) :
    r.got = [] ∧ r.result = none ∧ ∃ p, Is s r p ∧ C.compr.privData.get s.compr r.ce = p.1 := by
  have ht := h.takes x
  rw [pc] at ht
  obtain ⟨hgot, hres, p, hp⟩ := ht r hr
  exact ⟨hgot, hres, p, hp, congrArg Compr.Ce.privData (hp.unread hres)⟩

/-- Where a caller is when it has looked for the request of its entry. -/
theorem fetch_threads {q q₁ q₂ : Queue.State C.queue} {x tid : Nat} (h₁ : Queue.step q (.th x (.take tid)) = some q₁)
    (h₂ : Queue.step q₁ (.th x .fetch) = some q₂) :
    q.threads x = .again ∧ (∀ y, y ≠ x → q₂.threads y = q.threads y) ∧
      (q₂.threads x = .again ∨
        ∃ t ∈ q.inflight, q₂.threads x = .setStopped t tid ∨ q₂.threads x = .mark t (.entry tid)) := by
  have h₁ : ThStep q x (.take tid) q₁ := Queue.stepTh_cases h₁
  have h₂ : ThStep q₁ x .fetch q₂ := Queue.stepTh_cases h₂
  cases h₁ with
  | back l call pc => cases call
  | take _ pc =>
    have hx : (q.setPc x (.took tid)).threads x = .took tid := (Queue.State.setPc_threads ..).trans (if_pos rfl)
    have hother : ∀ {pc : Pc C.queue} y, y ≠ x → ((q.setPc x (.took tid)).setPc x pc).threads y = q.threads y := by
      intro pc y hy
      rw [Queue.State.setPc_threads, if_neg hy, Queue.State.setPc_threads, if_neg hy]
    refine ⟨pc, ?_⟩
    cases h₂ with
    | back l call pc => cases call
    | miss tid' pc' lock absent => exact ⟨hother, .inl ((Queue.State.setPc_threads ..).trans (if_pos rfl))⟩
    | last tid' pc' lock t mem tid_eq st empty =>
      obtain rfl : tid = tid' := Pc.took.inj (hx.symm.trans pc')
      exact ⟨hother, .inr ⟨t, mem, .inl ((Queue.State.setPc_threads ..).trans (if_pos rfl))⟩⟩
    | fetch tid' pc' lock t mem tid_eq =>
      obtain rfl : tid = tid' := Pc.took.inj (hx.symm.trans pc')
      exact ⟨hother, .inr ⟨t, mem, .inr ((Queue.State.setPc_threads ..).trans (if_pos rfl))⟩⟩

/-- The step of `fetch_inflight_req`. -/
theorem Completions.fetch (h : Completions s) {x : Nat} {r : Taken} {q q' : Queue.State C.queue}
    (hr : s.taken x = some r) (hq : Queue.step s.queue (.th x (.take (C.compr.privData.get s.compr r.ce))) = some q)
    (hq' : Queue.step q (.th x .fetch) = some q') :
    Completions { s.setTaken x (entryKept s x q') with queue := q' } := by
  obtain ⟨pc, hother, hx⟩ := fetch_threads hq hq'
  obtain ⟨hgot, hres, p, hp, htid⟩ := h.tid hr pc
  have hset : ∀ y, ({ s.setTaken x (entryKept s x q') with queue := q' } : State C).taken y =
      if y = x then entryKept s x q' else s.taken y := fun y => State.setTaken_taken ..
  refine h.thread (x := x) rfl rfl rfl rfl rfl rfl (fun y hy => ⟨by rw [hset, if_neg hy], hother y hy⟩) fun hi => ?_
  show Takes _ x (q'.threads x)
  rcases hx with hx | ⟨t, -, hx | hx⟩
  · rw [hx]
    intro r' hr'
    rw [hset, if_pos rfl, entryKept, hx] at hr'
    cases hr'
  · rw [hx]
    exact ⟨r, p, by rw [hset, if_pos rfl, entryKept, hx, hr], hgot, hres, hi r p hp, htid.symm⟩
  · rw [hx]
    exact ⟨r, p, by rw [hset, if_pos rfl, entryKept, hx, hr], hi r p hp, htid.symm⟩

/-- A caller copies a segment, or reads `result`. -/
theorem Completions.reads (h : Completions s) {x : Nat} {t : C.Tag} {tid : Nat} {r r' : Taken}
    (pc : s.queue.threads x = .mark t (.entry tid)) (hr : s.taken x = some r) (hnum : r'.num = r.num)
    (hce : r'.ce = r.ce) (hunread : r.result = none)
    (hres : r'.result = none ∨ r'.result = some (C.compr.result.get s.compr r.ce)) :
    Completions (s.setTaken x (some r')) := by
  have ht := h.takes x
  rw [pc] at ht
  obtain ⟨r₀, p, hr₀, hp, htid⟩ := ht
  obtain rfl : r₀ = r := Option.some.inj (hr₀.symm.trans hr)
  refine h.thread (x := x) rfl rfl rfl rfl rfl rfl (fun y hy => ⟨?_, rfl⟩) fun hi => ?_
  · rw [State.setTaken_taken, if_neg hy]
  · show Takes _ x (s.queue.threads x)
    rw [pc]
    refine ⟨r', p, by rw [State.setTaken_taken, if_pos rfl], ⟨hnum ▸ hp.num, hnum ▸ hp.lt, ?_, fun _ => ?_, ?_⟩, htid⟩
    · rw [hce, hnum]
      exact hp.ce
    · rw [hce]
      exact hp.unread hunread
    · intro res hr'
      rcases hres with hnone | hsome
      · rw [hnone] at hr'
        cases hr'
      · rw [hsome] at hr'
        rw [← Option.some.inj hr']
        exact congrArg Compr.Ce.result (hp.unread hunread)

/-! ## The queue -/

/-- Only the end of a request takes the entry from its thread. -/
theorem record_taken {l : Queue.Label C.queue} {q : Queue.State C.queue} (hl : ∀ x, l ≠ .th x .finish) :
    (record s l q).taken = s.taken := by
  show takenAfter s l = s.taken
  unfold takenAfter
  split
  · rename_i x
    exact absurd rfl (hl x)
  · rfl

theorem takenAfter_of_ne {x y : Nat} (hy : y ≠ x) (l : Queue.ThLabel) : takenAfter s (.th x l) y = s.taken y := by
  cases l with
  | finish => exact Function.update_of_ne hy _ _
  | _ => rfl

/-- A step of a thread of the queue. -/
theorem Completions.threadStep (h : Completions s) {x : Nat} {l : Queue.ThLabel} {q : Queue.State C.queue}
    (ok : allowed s (.th x l) = true) (hq : ThStep s.queue x l q) : Completions (record s (.th x l) q) := by
  have hmove : ∀ {b : Queue.State C.queue} {pc : Pc C.queue}, q.threads = (b.setPc x pc).threads →
      b.threads = s.queue.threads → l ≠ .finish → (Takes s x (s.queue.threads x) → Takes s x pc) →
      Completions (record s (.th x l) q) := by
    intro b pc hth hth₀ hl hpc
    have htaken : (record s (.th x l) q).taken = s.taken := record_taken fun y he => hl (by cases he; rfl)
    refine h.thread (x := x) rfl rfl rfl rfl rfl rfl (fun y hy => ⟨by rw [htaken], ?_⟩) fun hi => ?_
    · show q.threads y = _
      rw [hth, Queue.State.setPc_threads, if_neg hy, hth₀]
    · show Takes _ x (q.threads x)
      rw [hth, Queue.State.setPc_threads, if_pos rfl]
      exact (hpc (h.takes x)).frame (by rw [htaken]) fun r p _ => hi r p
  cases hq with
  | back l call pc =>
    have htaken : (record s (.th x l) s.queue).taken = s.taken :=
      record_taken fun y he => by cases he; cases call
    exact h.frame rfl rfl rfl rfl rfl rfl fun y => (h.takes y).frame (by rw [htaken]) fun r p _ hp =>
      hp.frame (List.prefix_refl _) (Nat.le_refl _) fun _ => rfl
  | remFlushed force snap pc flushed =>
    exact hmove rfl rfl nofun fun h => by rw [pc] at h; cases force <;> exact h
  | remNext pc t ts tmp => exact hmove (b := s.queue) rfl rfl nofun fun h => by rw [pc] at h; exact h
  | enter pc st =>
    refine hmove rfl rfl nofun fun h => ?_
    rw [pc] at h
    exact fun r hr => by rw [show s.taken x = none from h] at hr; cases hr
  | take tid pc => cases ok
  | none pc =>
    refine hmove rfl rfl nofun fun _ => ?_
    exact Option.isNone_iff_eq_none.mp (Bool.and_eq_true_iff.mp ok).1
  | miss | last | fetch => cases ok
  | setStopped t tid pc =>
    refine hmove (b := s.queue) rfl rfl nofun fun h => ?_
    rw [pc] at h
    obtain ⟨r, p, hr, -, -, hp, htid⟩ := h
    exact ⟨r, p, hr, hp, htid⟩
  | mark t by_ pc =>
    refine hmove (b := s.queue) rfl rfl nofun fun h => ?_
    rw [pc] at h
    cases by_ with
    | entry tid =>
      obtain ⟨r, p, hr, hp, htid⟩ := h
      simp only [allowed, pc, hr] at ok
      obtain ⟨res, hres⟩ := Option.isSome_iff_exists.mp (show r.result.isSome = true from ok)
      exact ⟨r, p, hr, hp, htid, by rw [hres, hp.result res hres]⟩
    | removal => exact h
  | released t by_ pc idle =>
    refine hmove (b := s.queue.setRq t _) rfl rfl nofun fun h => ?_
    rw [pc] at h
    cases by_ <;> exact h
  | finish t by_ pc =>
    have htaken : (record s (.th x .finish) ((Queue.finishRq s.queue t by_).setPc x (.advance by_))).taken =
        Function.update s.taken x none := rfl
    refine h.thread (x := x) rfl rfl rfl rfl rfl rfl (fun y hy => ⟨?_, ?_⟩) fun _ => ?_
    · rw [htaken, Function.update_of_ne hy]
    · exact (Queue.State.setPc_threads ..).trans (if_neg hy)
    · show Takes _ x (((Queue.finishRq s.queue t by_).setPc x (.advance by_)).threads x)
      rw [Queue.State.setPc_threads, if_pos rfl]
      show (record s (.th x .finish) _).taken x = none
      rw [htaken, Function.update_self]
  | advance by_ pc =>
    refine hmove (b := s.queue) rfl rfl nofun fun h => ?_
    rw [pc] at h
    cases by_ with
    | entry tid => exact fun r hr => by rw [show s.taken x = none from h] at hr; cases hr
    | removal => exact h
  | _ => exact hmove (b := s.queue) rfl rfl nofun fun h => by simp only [*] at h; exact h

theorem Completions.queue (h : Completions s) {l : Queue.Label C.queue} {q : Queue.State C.queue}
    (ok : allowed s l = true) (hq : Queue.step s.queue l = some q) : Completions (record s l q) := by
  have hsame : (∀ x, l ≠ .th x .finish) → q.threads = s.queue.threads → Completions (record s l q) := by
    intro hl hth
    refine h.frame rfl rfl rfl rfl rfl rfl fun x => ?_
    show Takes _ x (q.threads x)
    rw [hth]
    exact (h.takes x).frame (by rw [record_taken hl]) fun r p _ hp =>
      hp.frame (List.prefix_refl _) (Nat.le_refl _) fun _ => rfl
  cases Queue.step_cases hq with
  | rq hw => exact hsame nofun hw.control.2.1
  | th hx => exact h.threadStep ok hx
  | _ => exact hsame nofun rfl

/-- Every step keeps the entries in their slots, as long as the backend writes
to no slot that is still to be read. -/
theorem completions_step {a : Label C} (h : Completions s) (htodo : ∀ c ∈ s.todo, c.privData < 2 ^ 64)
    (hs : step s a = some s') (ha : Apart s a) : Completions s' := by
  cases step_cases hs with
  | queue l q ok hq => exact h.queue ok hq
  | copyTo t bio bv page wk op seg hpage =>
    exact h.frame rfl rfl rfl rfl rfl rfl fun x => (h.takes x).frame rfl fun r p _ hp =>
      hp.frame (List.prefix_refl _) (Nat.le_refl _) fun _ => rfl
  | take x pc hnone more => exact h.take pc more
  | fetch x r q q' hr hq hq' => exact h.fetch hr hq hq'
  | copyFrom x t tid r bv page pc hr op unread seg hpage => exact h.reads pc hr rfl rfl unread (.inl unread)
  | result x t tid r pc hr unread full => exact h.reads pc hr rfl rfl unread (.inr rfl)
  | readCmd c more hc =>
    exact h.frame rfl rfl rfl rfl rfl rfl fun x => (h.takes x).frame rfl fun r p _ hp =>
      hp.frame (List.prefix_refl _) (Nat.le_refl _) fun _ => rfl
  | readPad more hc =>
    exact h.frame rfl rfl rfl rfl rfl rfl fun x => (h.takes x).frame rfl fun r p _ hp =>
      hp.frame (List.prefix_refl _) (Nat.le_refl _) fun _ => rfl
  | store tid k j b c v page hc hv op lt hpage =>
    exact h.frame rfl rfl rfl rfl rfl rfl fun x => (h.takes x).frame rfl fun r p _ hp =>
      hp.frame (List.prefix_refl _) (Nat.le_refl _) fun _ => rfl
  | reply tid result c hc free lt =>
    have hmem := List.mem_of_find?_eq_some hc
    have htid : c.privData = tid := by simpa using List.find?_some hc
    exact h.reply (d := ⟨result, readData s c⟩) (htid ▸ htodo c hmem) lt ha
  | post p hp room => exact h.post hp room

end Ubbd.Service

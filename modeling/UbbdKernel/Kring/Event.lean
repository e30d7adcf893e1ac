import Mathlib.Logic.Function.Basic
import UbbdKernel.Framework.Lts
import UbbdKernel.Ring.Reader

/-!
# No lost wakeup

A worker publishes its command in the ring and then calls
`ubbd_kring_event_notify`, which increments the counter of the device and wakes
who waits on it. A backend opens the device, where its listener copies the
counter, maps the ring, handles what is there, and from then on waits in
`ubbd_kring_poll` or `ubbd_kring_read` until it is told of an event and handles
the entries until it has reached `cmd_head`.

The head is published before the counter is incremented, and `cmd_head` is read
after `event_count` is set: so the commands that are counted in `event_count`
are handled by the time the backend waits again. `noLostWakeup`: a backend that
is asleep has handled every command whose notification has returned, if fewer
than `2^32` notifications came since it took the counter.
-/

namespace Ubbd.Event

open Ubbd.Ring Circular

/-- Where a worker is, with the number of its command. -/
inductive Worker
  | idle
  /-- `cmd_head` is past the command. -/
  | published (i : Nat)
  /-- `ubbd_kring_event_notify` has incremented the counter. -/
  | bumped (i : Nat)
  deriving DecidableEq

inductive Backend
  | closed
  /-- `ubbd_kring_open` returned; the ring is not mapped. -/
  | opened
  /-- It handles entries, until it has reached `cmd_head`. -/
  | handling
  /-- It is about to check the counter, in `ubbd_kring_poll` or `ubbd_kring_read`. -/
  | waiting
  /-- `ubbd_kring_poll` found a difference, and is to read the counter again. -/
  | rereading
  /-- `ubbd_kring_read` found a difference, and copies what it read to the user. -/
  | copying (eventCount : BitVec 32) (seen : Nat)
  /-- The last check found `event_count` equal to the counter, and nothing has
  woken the backend since. -/
  | asleep
  deriving DecidableEq

structure System where
  ring : CmdRing
  /-- Who holds `cmdr_lock`, after `insert_padding`, and its command. -/
  cmdrLock : Option (Nat × {c : Cmd // c.Ok})
  workers : Nat → Worker
  /-- `idev->event`. -/
  event : BitVec 32
  /-- `listener->event_count`. -/
  eventCount : BitVec 32
  backend : Backend
  /-- Where the backend is in the ring. -/
  pos : Nat
  /-- The commands that were published, and those the backend has handled. -/
  published : List Cmd
  handled : List Cmd
  /-- The numbers of the commands, in the order in which the counter was
  incremented for them, and of those whose notification has returned. -/
  notifies : List Nat
  completed : List Nat
  /-- How many notifications there were when `event_count` was last set from the
  counter, or found equal to it. -/
  taken : Nat

/-- An empty ring, and nobody has opened the device. -/
def initSystem (cmdr : Mem) : System where
  ring := ⟨cmdr, 0, 0⟩
  cmdrLock := none
  workers := fun _ => .idle
  event := 0
  eventCount := 0
  backend := .closed
  pos := 0
  published := []
  handled := []
  notifies := []
  completed := []
  taken := 0

inductive Label
  /-- `ubbd_queue_workfn` takes `cmdr_lock`, finds room, and pads. -/
  | reserve (w : Nat) (c : {c : Cmd // c.Ok})
  /-- It writes the entry, publishes `cmd_head` and drops the lock. -/
  | publish (w : Nat)
  /-- `ubbd_kring_event_notify`: `atomic_inc`, and `wake_up_interruptible`. -/
  | atomicInc (w : Nat)
  | wakeUp (w : Nat)
  /-- `ubbd_kring_open`: the listener copies the counter. -/
  | openDev
  | mmap
  /-- The backend handles the entry at its place. -/
  | handle
  /-- It finds that it has reached `cmd_head`. -/
  | reached
  /-- `ubbd_kring_poll`: the comparison, and the second `atomic_read`. -/
  | pollCompare
  | pollReread
  /-- `ubbd_kring_read`: `atomic_read` and the comparison, and `copy_to_user`. -/
  | readCheck
  | readCopy (ok : Bool)
  /-- The wait ends without an event: `-EAGAIN`, a signal, a timeout of `poll`. -/
  | giveUp
  /-- A command the backend has handled is completed. -/
  | done (p : Nat)
  /-- `advance_cmd_ring`. -/
  | advance

def System.setWorker (s : System) (w : Nat) (x : Worker) : System :=
  { s with workers := Function.update s.workers w x }

/-- The check found `event_count` equal to the counter. -/
def System.sleep (s : System) : System := { s with taken := s.notifies.length, backend := .asleep }

def step (H : Header) (s : System) : Label → Option System
  | .reserve w c =>
    if s.cmdrLock.isNone ∧ s.workers w = .idle ∧
        submitRingSpaceEnough H s.ring (H.ubbdGetCmdSize c.1.iov.length) then
      some { s with
        ring := insertPadding H s.ring (H.ubbdGetCmdSize c.1.iov.length)
        cmdrLock := some (w, c) }
    else none
  | .publish w =>
    match s.cmdrLock with
    | some (w', c) =>
      if w' = w then
        some ({ s with
          ring := publish H s.ring c
          cmdrLock := none
          published := s.published ++ [c.1] }.setWorker w (.published s.published.length))
      else none
    | none => none
  | .atomicInc w =>
    match s.workers w with
    | .published i =>
      some ({ s with event := s.event + 1, notifies := s.notifies ++ [i] }.setWorker w (.bumped i))
    | _ => none
  | .wakeUp w =>
    match s.workers w with
    | .bumped i =>
      some ({ s with
        completed := s.completed ++ [i]
        backend := if s.backend = Backend.asleep then .waiting else s.backend }.setWorker w .idle)
    | _ => none
  | .openDev =>
    if s.backend = .closed then
      some { s with eventCount := s.event, taken := s.notifies.length, backend := .opened }
    else none
  | .mmap => if s.backend = .opened then some { s with pos := s.ring.cmdTail, backend := .handling } else none
  | .handle =>
    if s.backend = .handling ∧ s.pos ≠ s.ring.cmdHead then
      some { s with
        pos := (s.pos + entLen H s.ring.cmdr s.pos) % H.cmdrSize
        handled := s.handled ++ (cmdAt H s.ring.cmdr s.pos).toList }
    else none
  | .reached =>
    if s.backend = .handling ∧ s.pos = s.ring.cmdHead then some { s with backend := .waiting } else none
  | .pollCompare =>
    if s.backend = .waiting then
      if s.eventCount ≠ s.event then some { s with backend := .rereading } else some s.sleep
    else none
  | .pollReread =>
    if s.backend = .rereading then
      some { s with eventCount := s.event, taken := s.notifies.length, backend := .handling }
    else none
  | .readCheck =>
    if s.backend = .waiting then
      if s.event ≠ s.eventCount then some { s with backend := .copying s.event s.notifies.length }
      else some s.sleep
    else none
  | .readCopy ok =>
    match s.backend with
    | .copying eventCount seen =>
      if ok then some { s with eventCount := eventCount, taken := seen, backend := .handling }
      else some { s with backend := .waiting }
    | _ => none
  | .giveUp => if s.backend = .asleep then some { s with backend := .waiting } else none
  | .done p =>
    if p ∈ walkLoop H s.ring.cmdr s.pos (maxEntries H) s.ring.cmdTail then
      some { s with ring := setDone H s.ring p }
    else none
  | .advance => some { s with ring := advanceCmdRing H s.ring }

def lts (H : Header) : Lts System Label where
  init s := ∃ m, s = initSystem m
  step := step H

/-- A backend that is asleep has handled every command whose notification has
returned. -/
def NoLostWakeup (s : System) : Prop :=
  s.backend = .asleep → ∀ i ∈ s.completed, i < s.published.length ∧ s.handled[i]? = s.published[i]?

/-- Fewer than `2^32` notifications came since the listener took the counter,
at each of its checks. -/
def Timely (s : System) (a : Label) : Prop :=
  a = .pollCompare ∨ a = .readCheck → s.notifies.length < s.taken + 2 ^ 32

/-! ## What a step does -/

/-- What each step does, with what it has found. -/
inductive EventStep (H : Header) (s : System) : Label → System → Prop
  | reserve {w : Nat} {c : {c : Cmd // c.Ok}}
      (room : submitRingSpaceEnough H s.ring (H.ubbdGetCmdSize c.1.iov.length) = true) :
    EventStep H s (.reserve w c) { s with
      ring := insertPadding H s.ring (H.ubbdGetCmdSize c.1.iov.length)
      cmdrLock := some (w, c) }
  | publish {w : Nat} {c : {c : Cmd // c.Ok}} (locked : s.cmdrLock = some (w, c)) :
    EventStep H s (.publish w) ({ s with
      ring := publish H s.ring c
      cmdrLock := none
      published := s.published ++ [c.1] }.setWorker w (.published s.published.length))
  | atomicInc {w i : Nat} (published : s.workers w = .published i) :
    EventStep H s (.atomicInc w)
      ({ s with event := s.event + 1, notifies := s.notifies ++ [i] }.setWorker w (.bumped i))
  | wakeUp {w i : Nat} (bumped : s.workers w = .bumped i) :
    EventStep H s (.wakeUp w) ({ s with
      completed := s.completed ++ [i]
      backend := if s.backend = Backend.asleep then .waiting else s.backend }.setWorker w .idle)
  /-- The listener takes the counter, and the backend goes on to `b`. -/
  | take {a : Label} {b : Backend}
      (takes : (s.backend = .closed ∧ b = .opened) ∨ (s.backend = .rereading ∧ b = .handling)) :
    EventStep H s a { s with eventCount := s.event, taken := s.notifies.length, backend := b }
  | mmap (opened : s.backend = .opened) : EventStep H s .mmap { s with pos := s.ring.cmdTail, backend := .handling }
  | handle (handling : s.backend = .handling) (more : s.pos ≠ s.ring.cmdHead) :
    EventStep H s .handle { s with
      pos := (s.pos + entLen H s.ring.cmdr s.pos) % H.cmdrSize
      handled := s.handled ++ (cmdAt H s.ring.cmdr s.pos).toList }
  | reached (handling : s.backend = .handling) (all : s.pos = s.ring.cmdHead) :
    EventStep H s .reached { s with backend := .waiting }
  | differs (waiting : s.backend = .waiting) : EventStep H s .pollCompare { s with backend := .rereading }
  | copies (waiting : s.backend = .waiting) :
    EventStep H s .readCheck { s with backend := .copying s.event s.notifies.length }
  | sleep {a : Label} (check : a = .pollCompare ∨ a = .readCheck) (waiting : s.backend = .waiting)
      (same : s.eventCount = s.event) :
    EventStep H s a s.sleep
  | copied {e : BitVec 32} {n : Nat} (copying : s.backend = .copying e n) :
    EventStep H s (.readCopy true) { s with eventCount := e, taken := n, backend := .handling }
  | fails {e : BitVec 32} {n : Nat} (copying : s.backend = .copying e n) :
    EventStep H s (.readCopy false) { s with backend := .waiting }
  | giveUp (asleep : s.backend = .asleep) : EventStep H s .giveUp { s with backend := .waiting }
  | done {p : Nat} (passed : p ∈ walkLoop H s.ring.cmdr s.pos (maxEntries H) s.ring.cmdTail) :
    EventStep H s (.done p) { s with ring := setDone H s.ring p }
  | advance : EventStep H s .advance { s with ring := advanceCmdRing H s.ring }

variable {H : Header} {s s' : System}

theorem step_cases {a : Label} (hs : step H s a = some s') : EventStep H s a s' := by
  cases a with
  | reserve w c =>
    simp only [step, Option.ite_none_right_eq_some, Option.some.injEq] at hs
    obtain ⟨⟨-, -, hroom⟩, rfl⟩ := hs
    exact .reserve hroom
  | publish w =>
    simp only [step] at hs
    split at hs <;> [skip; cases hs]
    rename_i w' c hl
    simp only [Option.ite_none_right_eq_some, Option.some.injEq] at hs
    obtain ⟨rfl, rfl⟩ := hs
    exact .publish hl
  | atomicInc w =>
    simp only [step] at hs
    split at hs <;> cases hs
    exact .atomicInc ‹_›
  | wakeUp w =>
    simp only [step] at hs
    split at hs <;> cases hs
    exact .wakeUp ‹_›
  | openDev =>
    simp only [step, Option.ite_none_right_eq_some, Option.some.injEq] at hs
    obtain ⟨hb, rfl⟩ := hs
    exact .take (.inl ⟨hb, rfl⟩)
  | mmap =>
    simp only [step, Option.ite_none_right_eq_some, Option.some.injEq] at hs
    obtain ⟨hb, rfl⟩ := hs
    exact .mmap hb
  | handle =>
    simp only [step, Option.ite_none_right_eq_some, Option.some.injEq] at hs
    obtain ⟨⟨hb, hp⟩, rfl⟩ := hs
    exact .handle hb hp
  | reached =>
    simp only [step, Option.ite_none_right_eq_some, Option.some.injEq] at hs
    obtain ⟨⟨hb, hp⟩, rfl⟩ := hs
    exact .reached hb hp
  | pollCompare =>
    simp only [step, Option.ite_none_right_eq_some] at hs
    obtain ⟨hb, hs⟩ := hs
    split at hs <;> cases hs
    · exact .differs hb
    · exact .sleep (.inl rfl) hb (not_not.mp ‹_›)
  | pollReread =>
    simp only [step, Option.ite_none_right_eq_some, Option.some.injEq] at hs
    obtain ⟨hb, rfl⟩ := hs
    exact .take (.inr ⟨hb, rfl⟩)
  | readCheck =>
    simp only [step, Option.ite_none_right_eq_some] at hs
    obtain ⟨hb, hs⟩ := hs
    split at hs <;> cases hs
    · exact .copies hb
    · exact .sleep (.inr rfl) hb (Eq.symm (not_not.mp ‹_›))
  | readCopy ok =>
    simp only [step] at hs
    split at hs <;> [skip; cases hs]
    rename_i e n hb
    cases ok with
    | true =>
      cases hs
      exact .copied hb
    | false =>
      cases hs
      exact .fails hb
  | giveUp =>
    simp only [step, Option.ite_none_right_eq_some, Option.some.injEq] at hs
    obtain ⟨hb, rfl⟩ := hs
    exact .giveUp hb
  | done p =>
    simp only [step, Option.ite_none_right_eq_some, Option.some.injEq] at hs
    obtain ⟨hp, rfl⟩ := hs
    exact .done hp
  | advance =>
    cases hs
    exact .advance

/-! ## The backend in the ring -/

/-- The backend has handled the commands in front of its place, and those from
there on are the rest of the published ones; who holds `cmdr_lock` has room
for its command. -/
structure Reading (H : Header) (s : System) (hs es : List Ent) : Prop where
  place : Place H s.ring s.pos hs es
  rest : s.published = s.handled ++ es.filterMap Ent.cmd
  reserved : ∀ w c, s.cmdrLock = some (w, c) → Reserved H s.ring (hs ++ es) c
  unmapped : s.backend = .closed ∨ s.backend = .opened → hs = []

def RingInv (H : Header) (s : System) : Prop := ∃ hs es, Reading H s hs es

theorem RingInv.handled_le (h : RingInv H s) : s.handled <+: s.published := by
  obtain ⟨hs, es, hr⟩ := h
  exact ⟨_, hr.rest.symm⟩

/-- A backend that has reached `cmd_head` has handled all commands. -/
theorem RingInv.reached (h : RingInv H s) (hp : s.pos = s.ring.cmdHead) : s.handled = s.published := by
  obtain ⟨hs, es, hr⟩ := h
  rw [hr.rest, hr.place.eq_nil hp, List.filterMap_nil, List.append_nil]

/-- A step that leaves ring and place alone. -/
theorem RingInv.of_eq (h : RingInv H s) (hr : s'.ring = s.ring) (hp : s'.pos = s.pos)
    (hpub : s'.published = s.published) (hh : s'.handled = s.handled) (hl : s'.cmdrLock = s.cmdrLock)
    (hb : s'.backend = .closed ∨ s'.backend = .opened → s.backend = .closed ∨ s.backend = .opened) :
    RingInv H s' := by
  obtain ⟨hs, es, hread⟩ := h
  refine ⟨hs, es, ?_, ?_, ?_, fun e => hread.unmapped (hb e)⟩
  · rw [hr, hp]
    exact hread.place
  · rw [hpub, hh]
    exact hread.rest
  · rw [hl, hr]
    exact hread.reserved

theorem RingInv.reserve (h : RingInv H s) {w : Nat} {c : {c : Cmd // c.Ok}}
    (hs : submitRingSpaceEnough H s.ring (H.ubbdGetCmdSize c.1.iov.length) = true) :
    RingInv H { s with
      ring := insertPadding H s.ring (H.ubbdGetCmdSize c.1.iov.length)
      cmdrLock := some (w, c) } := by
  obtain ⟨hs', es, hread⟩ := h
  obtain ⟨ps, hps, hrep, -, hfit, hroom⟩ :=
    hread.place.rep.insertPadding (H.cmdr_add_cmdSize_lt c.2.segs) hs
  have htail : (insertPadding H s.ring (H.ubbdGetCmdSize c.1.iov.length)).cmdTail = s.ring.cmdTail := by
    unfold insertPadding
    split <;> rfl
  refine ⟨hs', es ++ ps, hread.place.append hrep htail fun p hp => (hps p hp).2, ?_, fun w' c' hc' => ?_,
    hread.unmapped⟩
  · rw [List.filterMap_append, List.filterMap_eq_nil_iff.mpr fun p hp => (hps p hp).1, List.append_nil]
    exact hread.rest
  · cases hc'
    rw [← List.append_assoc]
    exact ⟨hfit, hroom⟩

theorem RingInv.publish (h : RingInv H s) {w : Nat} {c : {c : Cmd // c.Ok}} {x : Worker}
    (hl : s.cmdrLock = some (w, c)) :
    RingInv H ({ s with
      ring := Ring.publish H s.ring c
      cmdrLock := none
      published := s.published ++ [c.1] }.setWorker w x) := by
  obtain ⟨hs, es, hread⟩ := h
  obtain ⟨hrep, -⟩ := hread.place.rep.publish c.2 (hread.reserved w c hl)
  refine ⟨hs, es ++ [cmdEnt H s.ring.cmdHead c.1], hread.place.append hrep rfl fun x hx => ?_, ?_, nofun,
    hread.unmapped⟩
  · rw [List.mem_singleton.mp hx]
    rfl
  · show s.published ++ [c.1] = s.handled ++ (es ++ [cmdEnt H s.ring.cmdHead c.1]).filterMap Ent.cmd
    rw [hread.rest, List.filterMap_append, List.append_assoc]
    rfl

theorem RingInv.mmap (h : RingInv H s) (hb : s.backend = .opened) :
    RingInv H { s with pos := s.ring.cmdTail, backend := .handling } := by
  obtain ⟨hs, es, hread⟩ := h
  obtain rfl := hread.unmapped (.inr hb)
  exact ⟨[], es, ⟨hread.place.rep, rfl, hread.place.undone⟩, hread.rest, hread.reserved, nofun⟩

theorem RingInv.handle (h : RingInv H s) (hb : s.backend = .handling) (hp : s.pos ≠ s.ring.cmdHead) :
    RingInv H { s with
      pos := (s.pos + entLen H s.ring.cmdr s.pos) % H.cmdrSize
      handled := s.handled ++ (cmdAt H s.ring.cmdr s.pos).toList } := by
  obtain ⟨hs, es, hread⟩ := h
  obtain ⟨e, es, rfl, hcmd, hplace⟩ := hread.place.pass hp
  refine ⟨hs ++ [e], es, hplace, ?_, fun w c hc => ?_, fun e => ?_⟩
  · show s.published = s.handled ++ (cmdAt H s.ring.cmdr s.pos).toList ++ es.filterMap Ent.cmd
    rw [hread.rest, hcmd, List.append_assoc]
    cases he : e.cmd <;> simp [he]
  · rw [List.append_assoc]
    exact hread.reserved w c hc
  · rw [show s.backend = _ from hb] at e
    simp at e

theorem RingInv.done (h : RingInv H s) {p : Nat}
    (hp : p ∈ walkLoop H s.ring.cmdr s.pos (maxEntries H) s.ring.cmdTail) :
    RingInv H { s with ring := setDone H s.ring p } := by
  obtain ⟨hs, es, hread⟩ := h
  obtain ⟨e, he, rfl⟩ := hread.place.mem_walk.mp hp
  refine ⟨_, es, hread.place.setDone he, hread.rest, fun w c hc => ?_, fun hb => ?_⟩
  · obtain ⟨hfit, hroom⟩ := hread.reserved w c hc
    refine ⟨hfit, ?_⟩
    rw [List.map_append, List.map_map, show Ent.toSpan ∘ markAt e.pos = Ent.toSpan from funext (markAt_toSpan _),
      ← List.map_append]
    exact hroom
  · rw [hread.unmapped hb] at he
    cases he

theorem RingInv.advance (h : RingInv H s) : RingInv H { s with ring := advanceCmdRing H s.ring } := by
  obtain ⟨hs, es, hread⟩ := h
  obtain ⟨hhead, hs', ⟨ds, rfl⟩, hplace⟩ := hread.place.advanceCmdRing
  refine ⟨hs', es, hplace, hread.rest, fun w c hc => ?_, fun hb => ?_⟩
  · obtain ⟨hfit, hroom⟩ := hread.reserved w c hc
    refine ⟨?_, ?_⟩
    · show (advanceCmdRing H s.ring).cmdHead + _ ≤ _
      rw [hhead]
      exact hfit
    · simp only [List.append_assoc, List.map_append, total_append] at hroom ⊢
      omega
  · exact (List.append_eq_nil_iff.mp (hread.unmapped hb)).2

theorem initSystem_ringInv (m : Mem) : RingInv H (initSystem m) := by
  have h₁ := H.reserved_pos
  have h₂ := H.reserved_le
  refine ⟨[], [], ⟨⟨rfl, by simp only [initSystem]; omega, ?_, ?_, ?_, ?_, ?_⟩, rfl, ?_⟩, rfl, nofun, fun _ => rfl⟩
  · exact Nat.dvd_zero _
  · exact nofun
  · exact nofun
  · exact Nat.zero_le _
  · exact nofun
  · exact nofun

theorem step_ringInv {a : Label} (h : RingInv H s) (hs : step H s a = some s') : RingInv H s' := by
  cases step_cases hs with
  | reserve hroom => exact h.reserve hroom
  | publish hl => exact h.publish hl
  | mmap hb => exact h.mmap hb
  | handle hb hp => exact h.handle hb hp
  | done hp => exact h.done hp
  | advance => exact h.advance
  | atomicInc => exact h.of_eq rfl rfl rfl rfl rfl id
  | wakeUp =>
    refine h.of_eq rfl rfl rfl rfl rfl fun e => ?_
    simp only [System.setWorker] at e
    split at e
    · simp at e
    · exact e
  | take ht =>
    refine h.of_eq rfl rfl rfl rfl rfl fun e => ?_
    rcases ht with ⟨hb, -⟩ | ⟨-, rfl⟩
    · exact .inl hb
    · simp at e
  | reached | differs | copies | copied | fails | giveUp => exact h.of_eq rfl rfl rfl rfl rfl (by simp)
  | sleep => exact h.of_eq rfl rfl rfl rfl rfl (by simp [System.sleep])

/-! ## The counter and the listener -/

/-- The backend has handled what it was told of, and has not been told of more. -/
def Backend.waits : Backend → Bool
  | .waiting | .copying _ _ | .asleep => true
  | _ => false

structure CountInv (s : System) : Prop where
  event : s.event = BitVec.ofNat 32 s.notifies.length
  count : s.eventCount = BitVec.ofNat 32 s.taken
  taken_le : s.taken ≤ s.notifies.length
  workers : ∀ w i, s.workers w = .published i ∨ s.workers w = .bumped i → i < s.published.length
  bumped : ∀ w i, s.workers w = .bumped i → i ∈ s.notifies
  notifies : ∀ i ∈ s.notifies, i < s.published.length
  completed : ∀ i ∈ s.completed, i ∈ s.notifies
  /-- The commands counted in `event_count` are handled. -/
  waits : s.backend.waits = true → ∀ i ∈ s.notifies.take s.taken, i < s.handled.length
  copying : ∀ e n, s.backend = .copying e n → e = BitVec.ofNat 32 n ∧ n ≤ s.notifies.length
  asleep : s.backend = .asleep → ∀ i ∈ s.completed, i ∈ s.notifies.take s.taken

theorem CountInv.noneLost (hr : RingInv H s) (h : CountInv s) : NoLostWakeup s := by
  intro hb i hi
  obtain ⟨rest, hrest⟩ := hr.handled_le
  have hlt := h.waits (by rw [hb]; rfl) i (h.asleep hb i hi)
  refine ⟨h.notifies i (h.completed i hi), ?_⟩
  rw [← hrest, List.getElem?_append_left hlt]

/-- A check that finds `event_count` equal to the counter, in time, finds that
nothing was notified since. -/
theorem CountInv.taken_eq (h : CountInv s) (ht : s.notifies.length < s.taken + 2 ^ 32)
    (he : s.eventCount = s.event) : s.taken = s.notifies.length := by
  rw [h.count, h.event] at he
  have hle := h.taken_le
  have hmod := congrArg BitVec.toNat he
  simp only [BitVec.toNat_ofNat] at hmod
  omega

/-- A step of the backend that leaves `event_count` alone. -/
theorem CountInv.setBackend (h : CountInv s) {b : Backend} (hw : b.waits = true → s.backend.waits = true)
    (hc : ∀ e n, b = .copying e n → e = BitVec.ofNat 32 n ∧ n ≤ s.notifies.length)
    (ha : b = .asleep → ∀ i ∈ s.completed, i ∈ s.notifies.take s.taken) : CountInv { s with backend := b } :=
  ⟨h.event, h.count, h.taken_le, h.workers, h.bumped, h.notifies, h.completed, fun e => h.waits (hw e), hc, ha⟩

/-- The listener takes a value of the counter, and the backend goes on to
handle entries. -/
theorem CountInv.take (h : CountInv s) {e : BitVec 32} {n : Nat} {b : Backend} (he : e = BitVec.ofNat 32 n)
    (hn : n ≤ s.notifies.length) (hw : b.waits = false) :
    CountInv { s with eventCount := e, taken := n, backend := b } := by
  refine ⟨h.event, he, hn, h.workers, h.bumped, h.notifies, h.completed, fun e => ?_, fun e n e' => ?_, fun e => ?_⟩
  · rw [hw] at e
    cases e
  · rw [show b = _ from e'] at hw
    cases hw
  · rw [show b = _ from e] at hw
    cases hw

/-- The backend goes to sleep on a check that is in time. -/
theorem CountInv.sleep (h : CountInv s) (hb : s.backend = .waiting) (ht : s.notifies.length < s.taken + 2 ^ 32)
    (he : s.eventCount = s.event) : CountInv s.sleep := by
  have htaken := h.taken_eq ht he
  have hs : s.sleep = { s with backend := .asleep } := by
    rw [System.sleep, ← htaken]
  rw [hs]
  refine h.setBackend (fun _ => by rw [hb]; rfl) nofun fun _ i hi => ?_
  rw [htaken, List.take_length]
  exact h.completed i hi

theorem CountInv.publish (h : CountInv s) {r : CmdRing} {c : Cmd} {w : Nat} :
    CountInv ({ s with
      ring := r
      cmdrLock := none
      published := s.published ++ [c] }.setWorker w (.published s.published.length)) := by
  have hlen : (s.published ++ [c]).length = s.published.length + 1 := List.length_append
  refine ⟨h.event, h.count, h.taken_le, fun v i hv => ?_, fun v i hv => ?_, fun i hi => ?_, h.completed, h.waits,
    h.copying, h.asleep⟩
  · show i < (s.published ++ [c]).length
    by_cases hvw : v = w
    · subst hvw
      simp [System.setWorker] at hv
      omega
    · simp only [System.setWorker, Function.update_of_ne hvw] at hv
      have := h.workers v i hv
      omega
  · by_cases hvw : v = w
    · subst hvw
      simp [System.setWorker] at hv
    · simp only [System.setWorker, Function.update_of_ne hvw] at hv
      exact h.bumped v i hv
  · show i < (s.published ++ [c]).length
    have := h.notifies i hi
    omega

/-- `atomic_inc` of the notification of command `i`. -/
theorem CountInv.atomicInc (h : CountInv s) {w i : Nat} (hw : s.workers w = .published i) :
    CountInv ({ s with event := s.event + 1, notifies := s.notifies ++ [i] }.setWorker w (.bumped i)) := by
  have htake : (s.notifies ++ [i]).take s.taken = s.notifies.take s.taken :=
    List.take_append_of_le_length h.taken_le
  have hlen : (s.notifies ++ [i]).length = s.notifies.length + 1 := List.length_append
  have hi := h.workers w i (.inl hw)
  refine ⟨?_, h.count, ?_, fun v j hv => ?_, fun v j hv => ?_, fun j hj => ?_, fun j hj => ?_, fun e => ?_,
    fun e n e' => ?_, fun e => ?_⟩
  · show s.event + 1 = BitVec.ofNat 32 (s.notifies ++ [i]).length
    rw [hlen, BitVec.ofNat_add, h.event]
    rfl
  · show s.taken ≤ (s.notifies ++ [i]).length
    have := h.taken_le
    omega
  · by_cases hvw : v = w
    · subst hvw
      simp only [System.setWorker, Function.update_self, reduceCtorEq, Worker.bumped.injEq, false_or] at hv
      exact hv ▸ hi
    · simp only [System.setWorker, Function.update_of_ne hvw] at hv
      exact h.workers v j hv
  · by_cases hvw : v = w
    · subst hvw
      simp only [System.setWorker, Function.update_self, Worker.bumped.injEq] at hv
      exact List.mem_append_right _ (List.mem_singleton.mpr hv.symm)
    · simp only [System.setWorker, Function.update_of_ne hvw] at hv
      exact List.mem_append_left _ (h.bumped v j hv)
  · rcases List.mem_append.mp hj with hj | hj
    · exact h.notifies j hj
    · exact List.mem_singleton.mp hj ▸ hi
  · exact List.mem_append_left _ (h.completed j hj)
  · show ∀ j ∈ (s.notifies ++ [i]).take s.taken, _
    rw [htake]
    exact h.waits e
  · obtain ⟨he, hn⟩ := h.copying e n e'
    refine ⟨he, ?_⟩
    show n ≤ (s.notifies ++ [i]).length
    omega
  · show ∀ j ∈ s.completed, j ∈ (s.notifies ++ [i]).take s.taken
    rw [htake]
    exact h.asleep e

/-- The notification of command `i` returns; a backend that was asleep is not
any more. -/
theorem CountInv.wakeUp (h : CountInv s) {w i : Nat} (hw : s.workers w = .bumped i) :
    CountInv ({ s with
      completed := s.completed ++ [i]
      backend := if s.backend = Backend.asleep then .waiting else s.backend }.setWorker w .idle) := by
  have hother : ∀ {v x}, Function.update s.workers w .idle v = x → x ≠ .idle → s.workers v = x := by
    intro v x hv hx
    by_cases hvw : v = w
    · subst hvw
      rw [Function.update_self] at hv
      exact absurd hv.symm hx
    · rwa [Function.update_of_ne hvw] at hv
  refine ⟨h.event, h.count, h.taken_le, fun v j hv => ?_, fun v j hv => ?_, h.notifies, fun j hj => ?_, fun e => ?_,
    fun e n e' => ?_, fun e => ?_⟩
  · exact h.workers v j (hv.imp (fun e => hother e nofun) fun e => hother e nofun)
  · exact h.bumped v j (hother hv nofun)
  · rcases List.mem_append.mp hj with hj | hj
    · exact h.completed j hj
    · exact List.mem_singleton.mp hj ▸ h.bumped w i hw
  · refine h.waits ?_
    simp only [System.setWorker] at e
    split at e
    · rename_i hb
      rw [hb]
      rfl
    · exact e
  · simp only [System.setWorker] at e'
    split at e'
    · cases e'
    · exact h.copying e n e'
  · simp only [System.setWorker] at e
    split at e
    · cases e
    · contradiction

/-- The backend handles an entry. -/
theorem CountInv.handle (h : CountInv s) (hb : s.backend = .handling) (p : Nat) (cs : List Cmd) :
    CountInv { s with pos := p, handled := s.handled ++ cs } := by
  refine ⟨h.event, h.count, h.taken_le, h.workers, h.bumped, h.notifies, h.completed, fun e => ?_, h.copying,
    h.asleep⟩
  rw [show s.backend = _ from hb] at e
  cases e

/-- The backend has handled all commands, and waits again. -/
theorem CountInv.reached (h : CountInv s) (hall : s.handled = s.published) :
    CountInv { s with backend := .waiting } := by
  refine ⟨h.event, h.count, h.taken_le, h.workers, h.bumped, h.notifies, h.completed, fun _ i hi => ?_, nofun,
    nofun⟩
  rw [hall]
  exact h.notifies i (List.mem_of_mem_take hi)

theorem initSystem_countInv (m : Mem) : CountInv (initSystem m) := by
  constructor <;> simp [initSystem, Backend.waits]

theorem step_countInv {a : Label} (hr : RingInv H s) (h : CountInv s) (hs : step H s a = some s')
    (ht : Timely s a) : CountInv s' := by
  cases step_cases hs with
  | publish => exact h.publish
  | atomicInc hw => exact h.atomicInc hw
  | wakeUp hw => exact h.wakeUp hw
  | take htake =>
    refine h.take h.event le_rfl ?_
    rcases htake with ⟨-, rfl⟩ | ⟨-, rfl⟩ <;> rfl
  | mmap =>
    exact ⟨h.event, h.count, h.taken_le, h.workers, h.bumped, h.notifies, h.completed, nofun, nofun, nofun⟩
  | handle hb => exact h.handle hb _ _
  | reached hb hp => exact h.reached (hr.reached hp)
  | differs => exact h.setBackend nofun nofun nofun
  | copies hb =>
    refine h.setBackend (fun _ => by rw [hb]; rfl) (fun e n e' => ?_) nofun
    cases e'
    exact ⟨h.event, le_rfl⟩
  | sleep hcheck hb he => exact h.sleep hb (ht hcheck) he
  | copied hb => exact h.take (h.copying _ _ hb).1 (h.copying _ _ hb).2 rfl
  | fails hb => exact h.setBackend (fun _ => by rw [hb]; rfl) nofun nofun
  | giveUp hb => exact h.setBackend (fun _ => by rw [hb]; rfl) nofun nofun
  | reserve | done | advance =>
    exact ⟨h.event, h.count, h.taken_le, h.workers, h.bumped, h.notifies, h.completed, h.waits, h.copying, h.asleep⟩

/-- No wakeup is lost: whatever the order of submissions, notifications and
checks, a backend that is asleep has handled every command whose notification
has returned. -/
theorem noLostWakeup (H : Header) (m : Mem) (as : List Label)
    (ht : (lts H).Steps (fun s a _ => Timely s a) (initSystem m) as) :
    (lts H).States NoLostWakeup (initSystem m) as :=
  (Lts.states_of_steps (I := fun s => RingInv H s ∧ CountInv s)
    (fun _ _ _ h hs ht => ⟨step_ringInv h.1 hs, step_countInv h.1 h.2 hs ht⟩)
    ⟨initSystem_ringInv m, initSystem_countInv m⟩ ht).mono fun _ h => CountInv.noneLost h.1 h.2

/-! ## A run that is short is in time -/

theorem step_notifies_length {a : Label} (hs : step H s a = some s') :
    s'.notifies.length ≤ s.notifies.length + 1 := by
  cases step_cases hs with
  | atomicInc => exact le_of_eq List.length_append
  | _ => exact Nat.le_succ _

theorem timely_of_length {as : List Label} (h : s.notifies.length + as.length ≤ 2 ^ 32) :
    (lts H).Steps (fun s a _ => Timely s a) s as := by
  induction as generalizing s with
  | nil => trivial
  | cons a as ih =>
    intro s' hs
    have hlen := step_notifies_length hs
    rw [List.length_cons] at h
    exact ⟨fun _ => by omega, ih (by omega)⟩

/-- A backend that is told of a command by `poll`, handles it, and sleeps again. -/
theorem noLostWakeup_flush :
    ∃ s, (lts (sampleHeader 256 8 (by decide) (by decide) (by decide) (by decide))).exec (initSystem fun _ => 0)
        [.openDev, .mmap, .reached, .pollCompare, .giveUp,
          .reserve 0 ⟨⟨.flush, 7, 0, 0, []⟩, by constructor <;> decide⟩, .publish 0, .atomicInc 0, .pollCompare,
          .pollReread, .handle, .reached, .wakeUp 0, .pollCompare] = some s ∧
      s.backend = .asleep ∧ s.completed = [0] ∧ s.handled[0]? = s.published[0]? := by
  refine ⟨_, rfl, rfl, rfl, ?_⟩
  have h := noLostWakeup (sampleHeader 256 8 (by decide) (by decide) (by decide) (by decide)) (fun _ => 0)
    [.openDev, .mmap, .reached, .pollCompare, .giveUp, .reserve 0 ⟨⟨.flush, 7, 0, 0, []⟩, by constructor <;> decide⟩,
      .publish 0, .atomicInc 0, .pollCompare, .pollReread, .handle, .reached, .wakeUp 0, .pollCompare]
    (timely_of_length (by decide))
  exact (h.last rfl rfl 0 (List.mem_singleton.mpr rfl)).2

end Ubbd.Event

import Mathlib.Algebra.Order.Ring.Nat
import Mathlib.Data.List.Nodup
import Mathlib.Tactic.Common
import UbbdKernel.Framework.Lts

/-!
# A channel of requests and replies

What a client and a server that work through shared memory are to provide
together: messages are sent under keys, the server receives them in the order
in which they were sent, replies to what it has received, in any order, and the
client ends each message once, with the reply of the server (`deliver`) or on
its own account (`drop`).

`Good` says what this means for the records of a channel, and holds in every
state (`good_of_reach`). `reach_of_simulates` is the rule for implementations:
when every step of an implementation, from a state related to one of the
channel, is no step or one step of the channel, every state it reaches is
related to one that the channel reaches.
-/

namespace Ubbd

/-- The messages with keys `κ` and contents `μ` that were sent, how many of
them were received, the replies `ρ` to them, and how they were ended: with a
reply, or without. -/
structure Channel (κ μ ρ : Type) where
  sent : List (κ × μ)
  received : Nat
  replied : List (κ × ρ)
  ended : List (κ × Option ρ)

namespace Channel

variable {κ μ ρ : Type}

def empty (κ μ ρ : Type) : Channel κ μ ρ := ⟨[], 0, [], []⟩

/-- The keys of messages, replies and ends. -/
def keys {α : Type} (l : List (κ × α)) : List κ := l.map Prod.fst

theorem mem_keys {α : Type} {l : List (κ × α)} {k : κ} : k ∈ keys l ↔ ∃ v, (k, v) ∈ l := by
  unfold keys
  constructor
  · intro h
    obtain ⟨⟨k', v⟩, hmem, rfl⟩ := List.mem_map.mp h
    exact ⟨v, hmem⟩
  · rintro ⟨v, h⟩
    exact List.mem_map_of_mem h

@[simp] theorem keys_append {α : Type} (l l' : List (κ × α)) : keys (l ++ l') = keys l ++ keys l' :=
  List.map_append

@[simp] theorem keys_singleton {α : Type} (k : κ) (v : α) : keys [(k, v)] = [k] := rfl

/-- The steps of client and server. -/
inductive Step (c : Channel κ μ ρ) : Channel κ μ ρ → Prop
  | send (k : κ) (m : μ) (new : k ∉ keys c.sent) : Step c { c with sent := c.sent ++ [(k, m)] }
  | receive (more : c.received < c.sent.length) : Step c { c with received := c.received + 1 }
  | reply (k : κ) (r : ρ) (received : k ∈ keys (c.sent.take c.received)) (new : k ∉ keys c.replied) :
      Step c { c with replied := c.replied ++ [(k, r)] }
  | deliver (k : κ) (r : ρ) (replied : (k, r) ∈ c.replied) (new : k ∉ keys c.ended) :
      Step c { c with ended := c.ended ++ [(k, some r)] }
  | drop (k : κ) (sent : k ∈ keys c.sent) (new : k ∉ keys c.ended) :
      Step c { c with ended := c.ended ++ [(k, none)] }

/-- The states reached from the empty channel. -/
inductive Reach : Channel κ μ ρ → Prop
  | empty : Reach (empty κ μ ρ)
  | step {c c' : Channel κ μ ρ} : Reach c → Step c c' → Reach c'

/-- No message is sent, replied to or ended twice; only received messages are
replied to, and what is delivered under a key is the reply to it. -/
structure Good (c : Channel κ μ ρ) : Prop where
  sent : (keys c.sent).Nodup
  received : c.received ≤ c.sent.length
  replied : (keys c.replied).Nodup
  replied_mem : ∀ k ∈ keys c.replied, k ∈ keys (c.sent.take c.received)
  ended : (keys c.ended).Nodup
  ended_mem : ∀ k ∈ keys c.ended, k ∈ keys c.sent
  delivered : ∀ k r, (k, some r) ∈ c.ended → (k, r) ∈ c.replied

theorem keys_append_new {α : Type} {l : List (κ × α)} {k : κ} (h : (keys l).Nodup) (hk : k ∉ keys l) (v : α) :
    (keys (l ++ [(k, v)])).Nodup := by
  rw [keys_append, keys_singleton]
  exact List.nodup_append.mpr ⟨h, List.nodup_singleton k, fun a ha b hb heq => by
    rw [List.mem_singleton.mp hb] at heq
    exact hk (heq ▸ ha)⟩

theorem mem_keys_append {α : Type} {l l' : List (κ × α)} {k : κ} (h : k ∈ keys l) : k ∈ keys (l ++ l') := by
  rw [keys_append]
  exact List.mem_append_left _ h

theorem keys_take_subset {α : Type} {l : List (κ × α)} {n : Nat} {k : κ} (h : k ∈ keys (l.take n)) : k ∈ keys l := by
  obtain ⟨v, hv⟩ := mem_keys.mp h
  exact mem_keys.mpr ⟨v, List.mem_of_mem_take hv⟩

theorem Good.step {c c' : Channel κ μ ρ} (h : Good c) (hs : Step c c') : Good c' := by
  cases hs with
  | send k m new =>
    refine { h with sent := keys_append_new h.sent new m, received := ?_, replied_mem := ?_, ended_mem := ?_ }
    · rw [List.length_append]
      exact h.received.trans (Nat.le_add_right _ _)
    · intro j hj
      rw [List.take_append_of_le_length h.received]
      exact h.replied_mem j hj
    · exact fun j hj => mem_keys_append (h.ended_mem j hj)
  | receive more =>
    refine { h with received := more, replied_mem := fun j hj => ?_ }
    obtain ⟨v, hv⟩ := mem_keys.mp (h.replied_mem j hj)
    exact mem_keys.mpr ⟨v, List.take_subset_take_left _ (Nat.le_succ _) hv⟩
  | reply k r received new =>
    refine { h with replied := keys_append_new h.replied new r, replied_mem := fun j hj => ?_, delivered := ?_ }
    · rw [keys_append, List.mem_append] at hj
      rcases hj with hj | hj
      · exact h.replied_mem j hj
      · rw [List.mem_singleton.mp hj]
        exact received
    · exact fun j r' hj => List.mem_append_left _ (h.delivered j r' hj)
  | deliver k r replied new =>
    have hk : k ∈ keys c.sent := keys_take_subset (h.replied_mem k (mem_keys.mpr ⟨r, replied⟩))
    refine { h with ended := keys_append_new h.ended new _, ended_mem := fun j hj => ?_, delivered := ?_ }
    · rw [keys_append, List.mem_append] at hj
      rcases hj with hj | hj
      · exact h.ended_mem j hj
      · rw [List.mem_singleton.mp hj]
        exact hk
    · intro j r' hj
      rcases List.mem_append.mp hj with hj | hj
      · exact h.delivered j r' hj
      · cases List.mem_singleton.mp hj
        exact replied
  | drop k sent new =>
    refine { h with ended := keys_append_new h.ended new _, ended_mem := fun j hj => ?_, delivered := ?_ }
    · rw [keys_append, List.mem_append] at hj
      rcases hj with hj | hj
      · exact h.ended_mem j hj
      · rw [List.mem_singleton.mp hj]
        exact sent
    · intro j r' hj
      rcases List.mem_append.mp hj with hj | hj
      · exact h.delivered j r' hj
      · cases List.mem_singleton.mp hj

theorem good_of_reach {c : Channel κ μ ρ} (h : Reach c) : Good c := by
  induction h with
  | empty =>
    exact ⟨List.nodup_nil, Nat.le_refl 0, List.nodup_nil, nofun, List.nodup_nil, nofun, nofun⟩
  | step _ hs ih => exact ih.step hs

/-! ## Implementations -/

variable {σ α : Type} {M : Lts σ α}

/-- Every state of a run is related to one the channel reaches, if the first is
and each step under the condition `B` is at most one step of the channel. `I`
is an invariant of the implementation. -/
theorem reach_of_simulates {B : σ → α → σ → Prop} {I : σ → Prop} {R : σ → Channel κ μ ρ → Prop}
    (hinv : ∀ s a s', I s → M.step s a = some s' → B s a s' → I s')
    (hsim : ∀ s a s' c, I s → M.step s a = some s' → B s a s' → R s c → R s' c ∨ ∃ c', Step c c' ∧ R s' c')
    {s : σ} (hs : I s) {c : Channel κ μ ρ} (hc : Reach c) (hr : R s c) {as : List α} (h : M.Steps B s as) :
    M.States (fun s => I s ∧ ∃ c, Reach c ∧ R s c) s as := by
  refine Lts.states_of_steps (fun s a s' hi he hb => ?_) ⟨hs, c, hc, hr⟩ h
  obtain ⟨hi, c, hc, hr⟩ := hi
  refine ⟨hinv s a s' hi he hb, ?_⟩
  rcases hsim s a s' c hi he hb hr with hr | ⟨c', hstep, hr⟩
  · exact ⟨c, hc, hr⟩
  · exact ⟨c', hc.step hstep, hr⟩

end Channel

end Ubbd

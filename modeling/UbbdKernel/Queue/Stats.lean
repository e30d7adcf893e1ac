import UbbdKernel.Framework.Lts
import UbbdKernel.Framework.Wrap

/-!
# Request statistics

With `UBBD_REQUEST_STATS`, a queue counts its completed requests and sums up
four intervals of each, and `ubbd_q_req_stats_show` prints the averages.
`do_div` takes a 32-bit divisor, while the count has 64 bits and is compared
with 0 as such.

* `step_inv`: the fields are the count and the sums of the requests counted
  since the last reset, as long as these fit 64 bits.
* `trueAverages_iff`: when the averages shown in a state are true.
* `averages_iff`: in which runs all averages shown are true.
-/

namespace Ubbd.Stats

/-- The intervals of a request, each from `start_kt`. -/
inductive Interval
  | startToPrepare | startToSubmit | startToComplete | startToRelease
  deriving DecidableEq

def Interval.all : List Interval := [.startToPrepare, .startToSubmit, .startToComplete, .startToRelease]

def Interval.name : Interval → String
  | .startToPrepare => "start_to_prepare"
  | .startToSubmit => "start_to_submit"
  | .startToComplete => "start_to_complete"
  | .startToRelease => "start_to_release"

/-- A `ktime_t` that is a time on the monotonic clock, or the time between two,
and so not negative. -/
structure Ktime where
  ns : UInt64
  nonneg : ns.toNat < 2 ^ 63

/-- The times of `struct ubbd_request`. -/
structure Request where
  startKt : Ktime
  times : Interval → Ktime

/-- The statistics of `struct ubbd_queue`. -/
structure Queue where
  statsReqs : UInt64
  times : Interval → UInt64

/-- `ubbd_req_stats`. -/
def ubbdReqStats (q : Queue) (r : Request) : Queue :=
  if r.startKt.ns = 0 then q
  else { statsReqs := q.statsReqs + 1, times := fun i => q.times i + (r.times i).ns }

/-- `do_div`, whose divisor is a `uint32_t`; a division by 0 has no result. -/
def doDiv (n base : UInt64) : Option UInt64 :=
  if base.toUInt32 = 0 then none else some (n / base.toUInt32.toUInt64)

/-- The lines that `ubbd_q_req_stats_show` prints: the count as `%llu`, the
values as `%lld`. -/
def ubbdQReqStatsShow (q : Queue) : Option (List (String × Int)) := do
  let times ← Interval.all.mapM fun i =>
    if q.statsReqs ≠ 0 then doDiv (q.times i) q.statsReqs else some (q.times i)
  return ("requests", q.statsReqs.toNat) ::
    (Interval.all.map Interval.name).zip (times.map fun v => v.toInt64.toInt)

/-- `ubbd_q_req_stats_write` of `cnt` bytes; `-EFAULT` where the first cannot be
copied. -/
def ubbdQReqStatsWrite (q : Queue) (buffer : Option Char) (cnt : Nat) : Option Nat × Queue :=
  match buffer with
  | none => (none, q)
  | some c => (some cnt, if c = 'r' ∨ c = 'R' then ⟨0, fun _ => 0⟩ else q)

/-! ## Runs -/

structure State where
  q : Queue
  /-- The requests counted since the last reset. -/
  counted : List Request

inductive Label
  | complete (r : Request)
  | read
  | write (buffer : Option Char) (cnt : Nat)

/-- Does a write reset the statistics? -/
def resets (buffer : Option Char) : Bool := buffer = some 'r' ∨ buffer = some 'R'

def step (s : State) : Label → Option State
  | .complete r =>
    some ⟨ubbdReqStats s.q r, if r.startKt.ns = 0 then s.counted else r :: s.counted⟩
  | .read => some s
  | .write buffer cnt =>
    some ⟨(ubbdQReqStatsWrite s.q buffer cnt).2, if resets buffer then [] else s.counted⟩

/-- The queue of a new device. -/
def initState : State := ⟨⟨0, fun _ => 0⟩, []⟩

def lts : Lts State Label where
  init s := s = initState
  step := step

namespace State

/-- The sum of an interval over the requests counted. -/
def total (s : State) (i : Interval) : Nat := (s.counted.map fun r => (r.times i).ns.toNat).sum

/-- Neither the count nor a sum has outgrown its 64 bits. -/
def Fits (s : State) : Prop := s.counted.length < 2 ^ 64 ∧ ∀ i, s.total i < 2 ^ 64

/-- What is shown are the count and the averages of the requests counted. -/
def TrueAverages (s : State) : Prop :=
  ubbdQReqStatsShow s.q = some (("requests", (s.q.statsReqs.toNat : Int)) ::
    Interval.all.map fun i => (i.name, ((s.total i / s.q.statsReqs.toNat : Nat) : Int)))

/-- The count fits the divisor of `do_div`, or what is left of it there is more
than each sum. -/
def Divisible (s : State) : Prop :=
  s.q.statsReqs.toNat < 2 ^ 32 ∨ ∀ i, s.total i < s.q.statsReqs.toNat % 2 ^ 32

end State

/-- A condition on the states in which the statistics are read. -/
def Reads (P : State → Prop) (s : State) : Label → State → Prop
  | .read, _ => P s
  | _, _ => True

theorem total_zero {s : State} (h : s.counted = []) (i : Interval) : s.total i = 0 := by
  rw [State.total, h]
  rfl

/-- An average is not negative as an `s64`. -/
theorem total_le (s : State) (i : Interval) : s.total i ≤ s.counted.length * (2 ^ 63 - 1) := by
  rw [State.total]
  induction s.counted with
  | nil => exact Nat.zero_le _
  | cons r rs ih =>
    have hr := (r.times i).nonneg
    rw [List.map_cons, List.sum_cons, List.length_cons]
    omega

/-! ## The division -/

theorem doDiv_zero {n base : UInt64} (h : base.toNat % 2 ^ 32 = 0) : doDiv n base = none := by
  have hbase : base.toUInt32 = 0 := UInt32.toNat_inj.mp h
  rw [doDiv, if_pos hbase]

theorem doDiv_pos {n base : UInt64} (h : base.toNat % 2 ^ 32 ≠ 0) :
    ∃ v, doDiv n base = some v ∧ v.toNat = n.toNat / (base.toNat % 2 ^ 32) := by
  have hbase : base.toUInt32 ≠ 0 := fun hz => h (UInt32.toNat_inj.mpr hz)
  refine ⟨_, if_neg hbase, ?_⟩
  rw [UInt64.toNat_div]
  rfl

/-- `%lld` prints the values below `2 ^ 63` as they are. -/
theorem toInt64_eq_iff (v : UInt64) (x : Nat) : v.toInt64.toInt = x ↔ v.toNat = x ∧ x < 2 ^ 63 := by
  have hlt := v.toNat_lt
  have hint : v.toInt64.toInt = if 2 * v.toNat < 2 ^ 64 then (v.toNat : Int) else v.toNat - 2 ^ 64 :=
    BitVec.toInt_eq_toNat_cond _
  rw [hint]
  split <;> omega

/-! ## What is shown -/

theorem show_none {q : Queue} (h0 : q.statsReqs ≠ 0) (h : q.statsReqs.toNat % 2 ^ 32 = 0) :
    ubbdQReqStatsShow q = none := by
  simp only [ubbdQReqStatsShow, Interval.all, List.mapM_cons, if_pos h0, doDiv_zero h]
  rfl

theorem show_some {q : Queue} {v : Interval → UInt64}
    (h : ∀ i, (if q.statsReqs ≠ 0 then doDiv (q.times i) q.statsReqs else some (q.times i)) = some (v i)) :
    ubbdQReqStatsShow q = some (("requests", (q.statsReqs.toNat : Int)) ::
      Interval.all.map fun i => (i.name, (v i).toInt64.toInt)) := by
  simp only [ubbdQReqStatsShow, Interval.all, List.mapM_cons, List.mapM_nil, h]
  rfl

/-- The averages are true if each value printed is. -/
theorem trueAverages_iff_values {s : State} {v : Interval → UInt64}
    (h : ∀ i, (if s.q.statsReqs ≠ 0 then doDiv (s.q.times i) s.q.statsReqs else some (s.q.times i)) = some (v i)) :
    s.TrueAverages ↔ ∀ i, (v i).toInt64.toInt = (s.total i / s.q.statsReqs.toNat : Nat) := by
  rw [State.TrueAverages, show_some h]
  refine ⟨fun he i => ?_, fun he => by simp only [he]⟩
  have hmap := List.tail_eq_of_cons_eq (Option.some.inj he)
  have hmem : i ∈ Interval.all := by cases i <;> decide
  exact congrArg Prod.snd (List.map_inj_left.mp hmap i hmem)

/-- The fields are the count and the sums of the requests counted. -/
structure Inv (s : State) : Prop where
  reqs : s.q.statsReqs.toNat = s.counted.length
  times : ∀ i, (s.q.times i).toNat = s.total i

theorem average_lt {s : State} (h : Inv s) (h0 : s.q.statsReqs ≠ 0) (i : Interval) :
    s.total i / s.q.statsReqs.toNat < 2 ^ 63 := by
  have hpos : 0 < s.q.statsReqs.toNat := Nat.pos_of_ne_zero fun hz => h0 (UInt64.toNat_inj.mp hz)
  have hle := total_le s i
  rw [← h.reqs, Nat.mul_comm] at hle
  have hdiv : s.total i / s.q.statsReqs.toNat ≤ 2 ^ 63 - 1 := Nat.div_le_of_le_mul (by rwa [Nat.mul_comm])
  omega

/-- The averages shown are true exactly where the division leaves the quotient alone. -/
theorem trueAverages_iff {s : State} (h : Inv s) : s.TrueAverages ↔ s.Divisible := by
  by_cases h0 : s.q.statsReqs = 0
  · have hnil : s.counted = [] := List.length_eq_zero_iff.mp (by rw [← h.reqs, h0]; rfl)
    refine iff_of_true ((trueAverages_iff_values fun i => if_neg (not_not.mpr h0)).mpr fun i => ?_) (.inl ?_)
    · rw [toInt64_eq_iff, h.times, total_zero hnil, Nat.zero_div]
      decide
    · rw [h0]
      decide
  by_cases hmod : s.q.statsReqs.toNat % 2 ^ 32 = 0
  · refine iff_of_false (fun he => ?_) fun hd => ?_
    · rw [State.TrueAverages, show_none h0 hmod] at he
      cases he
    · rw [State.Divisible, hmod] at hd
      have hne : s.q.statsReqs.toNat ≠ 0 := fun hz => h0 (UInt64.toNat_inj.mp hz)
      obtain hlt | hlt := hd
      · omega
      · exact Nat.not_lt_zero _ (hlt .startToPrepare)
  · choose v hv hval using fun i => doDiv_pos (n := s.q.times i) hmod
    rw [trueAverages_iff_values (v := v) fun i => by rw [if_pos h0, hv i]]
    have hone : ∀ i, (v i).toInt64.toInt = (s.total i / s.q.statsReqs.toNat : Nat) ↔
        s.q.statsReqs.toNat < 2 ^ 32 ∨ s.total i < s.q.statsReqs.toNat % 2 ^ 32 := fun i => by
      rw [toInt64_eq_iff, hval, h.times, ← Wrap.div_mod_eq_iff (by decide) hmod]
      exact and_iff_left (average_lt h h0 i)
    simp only [hone, forall_or_left]
    rfl

/-! ## All runs -/

theorem step_inv {s s' : State} {a : Label} (h : Inv s) (hs : step s a = some s') (hf : s'.Fits) : Inv s' := by
  cases a with
  | read =>
    cases hs
    exact h
  | write buffer cnt =>
    cases hs
    cases buffer with
    | none => exact h
    | some c =>
      by_cases hc : c = 'r' ∨ c = 'R'
      · have hreset : resets (some c) = true := by simpa [resets] using hc
        rw [ubbdQReqStatsWrite, if_pos hc, if_pos hreset]
        exact ⟨rfl, fun _ => rfl⟩
      · have hreset : ¬ resets (some c) = true := by simpa [resets] using hc
        rw [ubbdQReqStatsWrite, if_neg hc, if_neg hreset]
        exact h
  | complete r =>
    cases hs
    by_cases hstart : r.startKt.ns = 0
    · rw [ubbdReqStats, if_pos hstart, if_pos hstart]
      exact h
    · rw [ubbdReqStats, if_neg hstart, if_neg hstart] at *
      refine ⟨?_, fun i => ?_⟩
      · rw [UInt64.toNat_add, h.reqs]
        exact Nat.mod_eq_of_lt hf.1
      · rw [UInt64.toNat_add, h.times, Nat.add_comm]
        exact Nat.mod_eq_of_lt (hf.2 i)

theorem initState_inv : Inv initState := ⟨rfl, fun _ => rfl⟩

/-- In the runs whose sums fit, the averages shown are all true exactly if each
is shown while the division leaves the quotient alone. -/
theorem averages_iff (as : List Label) (h : lts.Steps (fun _ _ s' => s'.Fits) initState as) :
    lts.Steps (Reads State.TrueAverages) initState as ↔ lts.Steps (Reads State.Divisible) initState as := by
  have hreads : ∀ {P Q : State → Prop}, (∀ s, Inv s → P s → Q s) → lts.Steps (Reads P) initState as →
      lts.Steps (Reads Q) initState as := fun {P Q} hpq hp => by
    refine Lts.steps_of_steps (I := Inv) (fun s a s' hi hs hc => ⟨step_inv hi hs hc.1, ?_⟩) initState_inv (h.and hp)
    cases a with
    | read => exact hpq s hi hc.2
    | complete _ => trivial
    | write _ _ => trivial
  exact ⟨hreads fun s hi => (trueAverages_iff hi).mp, hreads fun s hi => (trueAverages_iff hi).mpr⟩

/-- A request each of whose intervals is a nanosecond. -/
def tick : Request := ⟨⟨1, by decide⟩, fun _ => ⟨1, by decide⟩⟩

theorem averages_tick : lts.Steps (Reads State.TrueAverages) initState [.complete tick, .read] := by
  have hfits : lts.Steps (fun _ _ s' => s'.Fits) initState [.complete tick, .read] := by
    refine Lts.Steps.cons rfl ⟨by decide, fun i => ?_⟩ (Lts.Steps.cons rfl ⟨by decide, fun i => ?_⟩ trivial) <;>
      exact show 1 < 2 ^ 64 by decide
  refine (averages_iff _ hfits).mpr (Lts.Steps.cons rfl trivial (Lts.Steps.cons rfl (.inl ?_) trivial))
  decide

/-- The state after `k` such requests. -/
def ticked (k : Nat) : State := ⟨⟨.ofNat k, fun _ => .ofNat k⟩, List.replicate k tick⟩

theorem step_ticked (k : Nat) : step (ticked k) (.complete tick) = some (ticked (k + 1)) := by
  have hnext : UInt64.ofNat k + 1 = UInt64.ofNat (k + 1) := (UInt64.ofNat_add k 1).symm
  rw [step, ubbdReqStats, if_neg (by decide), if_neg (by decide), ticked, ticked, ← hnext]
  rfl

theorem ticked_fits {k : Nat} (hk : k < 2 ^ 64) : (ticked k).Fits := by
  have htotal : ∀ i, (ticked k).total i = k := fun i => by
    rw [State.total, ticked, List.map_replicate, List.sum_replicate_nat]
    exact Nat.mul_one k
  exact ⟨by rwa [ticked, List.length_replicate], fun i => by rwa [htotal]⟩

theorem run_ticks {j k : Nat} (h : j + k < 2 ^ 64) :
    lts.exec (ticked j) (List.replicate k (.complete tick)) = some (ticked (j + k)) ∧
      lts.Steps (fun _ _ s' => s'.Fits) (ticked j) (List.replicate k (.complete tick)) := by
  induction k generalizing j with
  | zero => exact ⟨rfl, trivial⟩
  | succ k ih =>
    obtain ⟨hexec, hfits⟩ := ih (j := j + 1) (by omega)
    rw [List.replicate_succ]
    refine ⟨?_, Lts.Steps.cons (step_ticked j) (ticked_fits (by omega)) hfits⟩
    rw [Lts.exec_cons (step_ticked j), hexec]
    congr 2
    omega

/-- After `2 ^ 32` requests the division is one by 0. -/
theorem count_wraps :
    lts.Steps (fun _ _ s' => s'.Fits) initState (List.replicate (2 ^ 32) (.complete tick) ++ [.read]) ∧
      ¬ lts.Steps (Reads State.TrueAverages) initState (List.replicate (2 ^ 32) (.complete tick) ++ [.read]) := by
  obtain ⟨hexec, hfits⟩ := run_ticks (j := 0) (k := 2 ^ 32) (by decide)
  refine ⟨hfits.append fun s' he => ?_, fun h => ?_⟩
  · obtain rfl := Option.some.inj (hexec.symm.trans he)
    exact Lts.Steps.cons rfl (ticked_fits (by decide)) trivial
  · have htrue := ((h.rest hexec) _ rfl).1
    have hcount : (ticked (0 + 2 ^ 32)).q.statsReqs.toNat = 2 ^ 32 := UInt64.toNat_ofNat_of_lt (by decide)
    rw [Reads, State.TrueAverages, show_none] at htrue
    · cases htrue
    · intro hz
      rw [hz] at hcount
      cases hcount
    · rw [hcount, Nat.mod_self]

end Ubbd.Stats

import Jullop.RequestStats
import Mathlib.Algebra.Order.Group.Int
import Mathlib.Algebra.Order.Group.Unbundled.Abs
import Mathlib.Algebra.Ring.Int.Defs
import Mathlib.Data.List.Induction
import Mathlib.Algebra.Order.BigOperators.Group.List

/-! The times of one request against the intervals that were measured: what the
calls of `per_request_record_start` and `per_request_record_end` since the last
`per_request_clear_time` add up to. -/

namespace Jullop

namespace Timespec

def nanos (t : Timespec) : Int := 1000000000 * t.tvSec + t.tvNsec

def Normal (t : Timespec) : Prop := 0 ≤ t.tvNsec ∧ t.tvNsec < 1000000000

end Timespec

/-- The remainder of a division that rounds towards zero has the sign of the
dividend. -/
theorem tdiv_rest (x : Int) : ∃ rest, x = 1000 * x.tdiv 1000 + rest ∧ -1000 < rest ∧ rest < 1000 ∧
    (0 ≤ x → 0 ≤ rest) ∧ (x ≤ 0 → rest ≤ 0) := by
  refine ⟨x.tmod 1000, (Int.mul_tdiv_add_tmod x 1000).symm, Int.lt_tmod_of_pos x (by decide),
    Int.tmod_lt_of_pos x (by decide), Int.tmod_nonneg 1000, ?_⟩
  intro hx
  have hneg := Int.tmod_nonneg 1000 (Int.neg_nonneg.mpr hx)
  rw [Int.neg_tmod] at hneg
  omega

section

variable {a b c : Timespec}

/-- A time is wrong by less than a microsecond, in both directions. -/
theorem getTimeDelta_bounds (a b : Timespec) :
    b.nanos - a.nanos - 999 ≤ 1000 * getTimeDelta a b ∧
      1000 * getTimeDelta a b ≤ b.nanos - a.nanos + 999 := by
  obtain ⟨rest, hrest⟩ := tdiv_rest (b.tvNsec - a.tvNsec)
  simp only [getTimeDelta, Timespec.nanos]
  omega

theorem getTimeDelta_nonneg (h : a.nanos ≤ b.nanos) : 0 ≤ getTimeDelta a b := by
  obtain ⟨hlow, -⟩ := getTimeDelta_bounds a b
  omega

/-- The rounding changes its direction with the sign of the nanoseconds, and the
times are still in order. -/
theorem getTimeDelta_mono (ha : a.Normal) (hb : b.Normal) (hc : c.Normal)
    (h : b.nanos ≤ c.nanos) : getTimeDelta a b ≤ getTimeDelta a c := by
  obtain ⟨rest, hrest⟩ := tdiv_rest (b.tvNsec - a.tvNsec)
  obtain ⟨rest', hrest'⟩ := tdiv_rest (c.tvNsec - a.tvNsec)
  simp only [Timespec.Normal] at ha hb hc
  simp only [Timespec.nanos] at h
  simp only [getTimeDelta]
  omega

end

inductive TimeCall
  | start (type : TimeType) (now : Timespec)
  | stop (type : TimeType) (now : Timespec)

namespace TimeCall

def type : TimeCall → TimeType
  | start type _ => type
  | stop type _ => type

def now : TimeCall → Timespec
  | start _ now => now
  | stop _ now => now

def apply (stats : PerRequestStats) : TimeCall → Option PerRequestStats
  | start type now => perRequestRecordStart stats type now
  | stop type now => perRequestRecordEnd stats type now

end TimeCall

/-- The times after these calls; `none` when the process exits at one of them. -/
def replay (calls : List TimeCall) : Option PerRequestStats :=
  calls.foldlM TimeCall.apply perRequestClearTime

/-- The clock readings that are taken for one type. -/
def readings (t : TimeType) (calls : List TimeCall) : List Timespec :=
  (calls.filter fun call => call.type = t).map TimeCall.now

/-- The readings in pairs of a start and an end. A start that is still without its
end is left out. -/
def paired : List Timespec → List (Timespec × Timespec)
  | a :: b :: rest => (a, b) :: paired rest
  | _ => []

def intervals (t : TimeType) (calls : List TimeCall) : List (Timespec × Timespec) :=
  paired (readings t calls)

/-- The measured times, and the time that has really passed, in nanoseconds. -/
def micros (is : List (Timespec × Timespec)) : Int := (is.map fun (a, b) => getTimeDelta a b).sum

def elapsed (is : List (Timespec × Timespec)) : Int := (is.map fun (a, b) => b.nanos - a.nanos).sum

def Ordered (calls : List TimeCall) : Prop := calls.Pairwise fun c d => c.now.nanos ≤ d.now.nanos

theorem replay_snoc (calls : List TimeCall) (call : TimeCall) :
    replay (calls ++ [call]) = (replay calls).bind fun stats => call.apply stats := by
  simp only [replay, List.foldlM_append, List.foldlM_cons, List.foldlM_nil, bind_pure]
  rfl

def unpaired (is : List (Timespec × Timespec)) : List Timespec := is.flatMap fun (a, b) => [a, b]

theorem paired_unpaired (is : List (Timespec × Timespec)) (running : Option Timespec) :
    paired (unpaired is ++ running.toList) = is := by
  induction is with
  | nil => cases running <;> rfl
  | cons i is ih => simpa [unpaired, paired] using ih

theorem readings_snoc (t : TimeType) (calls : List TimeCall) (call : TimeCall) :
    readings t (calls ++ [call]) =
      readings t calls ++ if call.type = t then [call.now] else [] := by
  by_cases h : call.type = t <;> simp [readings, h]

namespace TimeType

theorem bit_ne_zero (t : TimeType) : t.bit ≠ 0 := by
  cases t <;> decide

theorem bit_and_bit {t u : TimeType} (h : u ≠ t) : u.bit &&& t.bit = 0 := by
  revert h
  cases t <;> cases u <;> decide

theorem and_bit_or (x : BitVec 8) (t u : TimeType) :
    (x ||| u.bit) &&& t.bit ≠ 0 ↔ u = t ∨ x &&& t.bit ≠ 0 := by
  by_cases h : u = t
  · subst h
    have hself : (x ||| u.bit) &&& u.bit = u.bit := by
      ext i hi
      simp +contextual
    simpa [hself] using u.bit_ne_zero
  · have hother : (x ||| u.bit) &&& t.bit = x &&& t.bit := by
      rw [BitVec.and_or_distrib_right, bit_and_bit h]
      exact BitVec.or_zero
    simp [hother, h]

theorem and_bit_andNot (x : BitVec 8) (t u : TimeType) :
    (x &&& ~~~ u.bit) &&& t.bit ≠ 0 ↔ u ≠ t ∧ x &&& t.bit ≠ 0 := by
  by_cases h : u = t
  · subst h
    simp [BitVec.and_assoc]
  · have hother : ~~~ u.bit &&& t.bit = t.bit := by
      revert h
      cases t <;> cases u <;> decide
    simp [BitVec.and_assoc, hother, h]

end TimeType

/-- The times of one type hold what its readings alone have measured: `running` is
the start that is still without its end. -/
structure Measured (t : TimeType) (calls : List TimeCall) (stats : PerRequestStats)
    (is : List (Timespec × Timespec)) (running : Option Timespec) : Prop where
  readings : readings t calls = unpaired is ++ running.toList
  set : stats.isTimeSet &&& t.bit ≠ 0 ↔ running ≠ none
  start : ∀ a, running = some a → stats.start t = a
  total : stats.totalMicros t = micros is

namespace Measured

variable {t : TimeType} {calls : List TimeCall} {stats stats' : PerRequestStats}
  {is : List (Timespec × Timespec)} {running : Option Timespec} {type : TimeType} {now : Timespec}

theorem init (t : TimeType) : Measured t [] perRequestClearTime [] none where
  readings := rfl
  set := by simp [perRequestClearTime]
  start := by simp
  total := rfl

theorem recordStart (h : Measured t calls stats is running)
    (hs : perRequestRecordStart stats type now = some stats') :
    ∃ running', Measured t (calls ++ [.start type now]) stats' is running' := by
  simp only [perRequestRecordStart] at hs
  split at hs
  · cases hs
  · next hset =>
    cases hs
    by_cases htype : type = t
    · subst htype
      have hrunning : running = none := by
        by_contra hsome
        exact hset (decide_eq_true (h.set.mpr hsome))
      refine ⟨some now, ?_, ?_, ?_, h.total⟩
      · rw [readings_snoc, h.readings, hrunning]
        simp [TimeCall.type, TimeCall.now]
      · rw [TimeType.and_bit_or]
        simp
      · simp
    · refine ⟨running, ?_, ?_, ?_, h.total⟩
      · rw [readings_snoc, h.readings]
        simp [TimeCall.type, htype]
      · rw [TimeType.and_bit_or, ← h.set]
        simp [htype]
      · intro a ha
        simpa [Function.update_of_ne (Ne.symm htype)] using h.start a ha

theorem recordEnd (h : Measured t calls stats is running)
    (hs : perRequestRecordEnd stats type now = some stats') :
    ∃ is' running', Measured t (calls ++ [.stop type now]) stats' is' running' := by
  simp only [perRequestRecordEnd] at hs
  split at hs
  · next hset =>
    cases hs
    by_cases htype : type = t
    · subst htype
      obtain ⟨a, ha⟩ := Option.ne_none_iff_exists'.mp (h.set.mp (of_decide_eq_true hset))
      refine ⟨is ++ [(a, now)], none, ?_, ?_, ?_, ?_⟩
      · rw [readings_snoc, h.readings, ha]
        simp [unpaired, TimeCall.type, TimeCall.now]
      · rw [TimeType.and_bit_andNot]
        simp
      · simp
      · simp [Function.update_self, h.total, h.start a ha, micros]
    · refine ⟨is, running, ?_, ?_, h.start, ?_⟩
      · rw [readings_snoc, h.readings]
        simp [TimeCall.type, htype]
      · rw [TimeType.and_bit_andNot, ← h.set]
        simp [htype]
      · simpa [Function.update_of_ne (Ne.symm htype)] using h.total
  · cases hs

theorem of_replay (h : replay calls = some stats) (t : TimeType) :
    ∃ is running, Measured t calls stats is running := by
  induction calls using List.reverseRecOn generalizing stats with
  | nil =>
    cases h
    exact ⟨[], none, .init t⟩
  | append_singleton calls call ih =>
    rw [replay_snoc] at h
    obtain ⟨stats', hstats', hcall⟩ := Option.bind_eq_some_iff.mp h
    obtain ⟨is, running, hm⟩ := ih hstats'
    cases call with
    | start type now => exact ⟨is, hm.recordStart hcall⟩
    | stop type now => exact hm.recordEnd hcall

theorem intervals_eq (h : Measured t calls stats is running) : intervals t calls = is := by
  rw [intervals, h.readings, paired_unpaired]

end Measured

section

variable {calls : List TimeCall} {stats : PerRequestStats}

theorem replay_total (h : replay calls = some stats) (t : TimeType) :
    perRequestGetTime stats t = micros (intervals t calls) := by
  obtain ⟨is, running, hm⟩ := Measured.of_replay h t
  rw [hm.intervals_eq]
  exact hm.total

/-- An interval is a start and an end in the order in which they were read. -/
theorem paired_ordered {rs : List Timespec} (h : rs.Pairwise fun a b => a.nanos ≤ b.nanos) :
    ∀ i ∈ paired rs, i.1.nanos ≤ i.2.nanos := by
  induction rs using paired.induct with
  | case1 a b rest ih =>
    obtain ⟨ha, hrest⟩ := List.pairwise_cons.mp h
    intro i hi
    rcases List.mem_cons.mp hi with rfl | hi
    · exact ha b (by simp)
    · exact ih (List.pairwise_cons.mp hrest).2 i hi
  | case2 rs hrs =>
    intro i hi
    rw [paired.eq_2 rs hrs] at hi
    exact absurd hi (by simp)

theorem Ordered.intervals (h : Ordered calls) (t : TimeType) :
    ∀ i ∈ intervals t calls, i.1.nanos ≤ i.2.nanos :=
  paired_ordered (List.pairwise_map.mpr (h.filter _))

theorem micros_nonneg {is : List (Timespec × Timespec)} (h : ∀ i ∈ is, i.1.nanos ≤ i.2.nanos) :
    0 ≤ micros is := by
  refine List.sum_nonneg ?_
  intro x hx
  obtain ⟨i, hi, rfl⟩ := List.mem_map.mp hx
  exact getTimeDelta_nonneg (h i hi)

theorem micros_bounds (is : List (Timespec × Timespec)) :
    elapsed is - 999 * is.length ≤ 1000 * micros is ∧
      1000 * micros is ≤ elapsed is + 999 * is.length := by
  induction is with
  | nil => simp [micros, elapsed]
  | cons i is ih =>
    obtain ⟨hlow, hhigh⟩ := getTimeDelta_bounds i.1 i.2
    simp only [micros, elapsed, List.map_cons, List.sum_cons, List.length_cons] at ih ⊢
    omega

/-- For calls at which no check fires, with a clock that does not go back, each of
the five times is not negative, is given by the readings of its own type, and is
wrong by less than a microsecond for each interval. A time that is taken later is
not shorter. -/
theorem total_micros_accurate (h : replay calls = some stats) (hclock : Ordered calls)
    (t : TimeType) :
    0 ≤ perRequestGetTime stats t ∧
      (∀ calls' stats', replay calls' = some stats' → readings t calls' = readings t calls →
        perRequestGetTime stats' t = perRequestGetTime stats t) ∧
      (1 ≤ (intervals t calls).length →
        |1000 * perRequestGetTime stats t - elapsed (intervals t calls)| <
          1000 * (intervals t calls).length) ∧
      ∀ a b c : Timespec, a.Normal → b.Normal → c.Normal → a.nanos ≤ b.nanos →
        b.nanos ≤ c.nanos → getTimeDelta a b ≤ getTimeDelta a c := by
  have htotal := replay_total h t
  refine ⟨?_, ?_, ?_, ?_⟩
  · rw [htotal]
    exact micros_nonneg (hclock.intervals t)
  · intro calls' stats' h' hreadings
    rw [htotal, replay_total h' t, intervals, hreadings, intervals]
  · intro hlen
    obtain ⟨hlow, hhigh⟩ := micros_bounds (intervals t calls)
    rw [htotal, abs_lt]
    omega
  · intro a b c ha hb hc _ hbc
    exact getTimeDelta_mono ha hb hc hbc

end

/-- A second begins within both of the reads, which together take 3701 nanoseconds. -/
def twoReads : List TimeCall :=
  [.start .totalTime ⟨4, 999999000⟩, .start .clientReadTime ⟨4, 999999500⟩,
    .stop .clientReadTime ⟨5, 200⟩, .start .clientReadTime ⟨5, 999999999⟩,
    .stop .clientReadTime ⟨6, 3000⟩]

theorem total_micros_accurate_twoReads :
    ∃ stats, replay twoReads = some stats ∧ perRequestGetTime stats .clientReadTime = 5 ∧
      |1000 * perRequestGetTime stats .clientReadTime - 3701| < 2000 := by
  refine ⟨_, rfl, by decide, ?_⟩
  have hclock : Ordered twoReads := by
    simp [Ordered, twoReads, TimeCall.now, Timespec.nanos]
  exact (total_micros_accurate rfl hclock .clientReadTime).2.2.1 (by decide)

end Jullop

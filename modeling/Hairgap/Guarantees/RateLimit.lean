import Hairgap.Base.Transition
import Hairgap.Source.Limiter
import Mathlib.Algebra.Order.Field.Basic
import Mathlib.Algebra.Order.Field.Rat
import Mathlib.Tactic.Linarith

/-!
# The limiter bounds the total rate

A window is only closed by a rate check that its octets passed, and an open one holds at most
`HLIM_CHK_PERIOD` packets.
-/
namespace Hairgap.Guarantees
open Hairgap.Base Hairgap.Source

/-- A call of `hgap_limiter_limit` and the clock readings it made. -/
structure LimitCall where
  len : Nat
  readings : List Timeval
  deriving DecidableEq, Repr

/-- A call that returned. -/
def LimitStep (hlim : HgapLimiter) (call : LimitCall) (hlim' : HgapLimiter) : Prop :=
  hgapLimiterLimit hlim call.len call.readings = some (hlim', [])

/-- The readings of the rate checks, all but the one of the reset, are later than the start of
the window. -/
def ChecksLater (hlim : HgapLimiter) (call : LimitCall) : Prop :=
  ∀ now ∈ call.readings.dropLast, hlim.since.seconds < now.seconds

/-- All readings of a limiter, that of its creation first. -/
def readings (t0 : Timeval) (calls : List LimitCall) : List Timeval :=
  t0 :: calls.flatMap LimitCall.readings

theorem readings_snoc (t0 : Timeval) (calls : List LimitCall) (call : LimitCall) :
    readings t0 (calls ++ [call]) = readings t0 calls ++ call.readings := by
  rw [readings, List.flatMap_append, List.flatMap_singleton]
  rfl

/-- Readings that never go back. -/
def NeverBack (clock : List Timeval) : Prop :=
  clock.Pairwise fun a b => a.seconds ≤ b.seconds

theorem limitWait_spec {hlim : HgapLimiter} {clock rest : List Timeval}
    (wait : limitWait hlim clock = some rest) :
    ∃ before now, clock = before ++ now :: rest ∧
      hgapLimiterGetCurrentRate hlim now ≤ hlim.byterate := by
  induction clock with
  | nil => cases wait
  | cons now clock ih =>
    rw [limitWait] at wait
    split at wait
    · obtain ⟨before, last, rfl, rate⟩ := ih wait
      exact ⟨now :: before, last, rfl, rate⟩
    next rate =>
      cases wait
      exact ⟨[], now, rfl, le_of_not_gt rate⟩

/-- A rate that is not above the limit bounds the octets of its window. -/
theorem rate_le_iff {hlim : HgapLimiter} {now : Timeval} (later : hlim.since.seconds < now.seconds) :
    hgapLimiterGetCurrentRate hlim now ≤ hlim.byterate ↔
      (hlim.nBytesSent : Rat) ≤ hlim.byterate * (now.seconds - hlim.since.seconds) := by
  have passed : 0 < timeDiff hlim.since now := sub_pos.mpr later
  rw [hgapLimiterGetCurrentRate, if_neg (ne_of_gt passed), div_le_iff₀ passed, timeDiff]

/-- The limiter behind the counters of a call. -/
def passedBy (hlim : HgapLimiter) (len : Nat) : HgapLimiter :=
  { hlim with
    totalDataSent := hlim.totalDataSent + len
    nPktSent := hlim.nPktSent + 1
    nBytesSent := hlim.nBytesSent + len }

/-- What a call does: it counts, or it closes a window whose rate it checked. -/
theorem limitStep_cases {hlim hlim' : HgapLimiter} {call : LimitCall}
    (step : LimitStep hlim call hlim') :
    (¬ (hlim.byterate ≠ 0 ∧ hlim.nPktSent + 1 > hlimChkPeriod) ∧ call.readings = [] ∧
      hlim' = passedBy hlim call.len) ∨
    (∃ before now reset, call.readings = before ++ [now, reset] ∧
      hgapLimiterGetCurrentRate (passedBy hlim call.len) now ≤ hlim.byterate ∧
      hlim' = hgapLimiterResetRate (passedBy hlim call.len) reset) := by
  unfold LimitStep hgapLimiterLimit at step
  extract_lets counted at step
  split at step
  · split at step
    next reset rest wait =>
      cases step
      obtain ⟨before, now, split, rate⟩ := limitWait_spec wait
      exact .inr ⟨before, now, reset, split, rate, rfl⟩
    · cases step
  next open_ =>
    simp only [Option.some.injEq, Prod.mk.injEq] at step
    exact .inl ⟨open_, step.2, step.1.symm⟩

/-- Between two calls, all octets but those of the open window are within the rate up to its
start. -/
structure WithinRate (byterate : Rat) (t0 : Timeval) (L : Nat) (calls : List LimitCall)
    (hlim : HgapLimiter) : Prop where
  byterate_eq : hlim.byterate = byterate
  since : hlim.since ∈ readings t0 calls
  total : hlim.totalDataSent = (calls.map LimitCall.len).sum
  packets : hlim.nPktSent ≤ hlimChkPeriod
  window : hlim.nBytesSent ≤ hlim.nPktSent * L
  closed : (hlim.totalDataSent : Rat) - hlim.nBytesSent ≤
    byterate * (hlim.since.seconds - t0.seconds)

theorem WithinRate.step {byterate : Rat} (positive : 0 < byterate) {t0 : Timeval} {L : Nat}
    {calls : List LimitCall} {call : LimitCall} {hlim hlim' : HgapLimiter}
    (clock : NeverBack (readings t0 (calls ++ [call]))) (short : call.len ≤ L)
    (before : WithinRate byterate t0 L calls hlim) (step : LimitStep hlim call hlim')
    (later : ChecksLater hlim call) : WithinRate byterate t0 L (calls ++ [call]) hlim' := by
  have all := readings_snoc t0 calls call
  have total : (passedBy hlim call.len).totalDataSent =
      ((calls ++ [call]).map LimitCall.len).sum := by
    simp [passedBy, before.total]
  rcases limitStep_cases step with ⟨room, -, rfl⟩ | ⟨checks, now, reset, split, rate, rfl⟩
  · have fits : hlim.nPktSent + 1 ≤ hlimChkPeriod := by
      by_contra above
      exact room ⟨before.byterate_eq ▸ ne_of_gt positive, Nat.lt_of_not_le above⟩
    have window : (hlim.nPktSent + 1) * L = hlim.nPktSent * L + L := Nat.succ_mul _ _
    refine ⟨before.byterate_eq, all ▸ List.mem_append_left _ before.since, total, fits, ?_, ?_⟩
    · exact window ▸ Nat.add_le_add before.window short
    · have closed := before.closed
      simp only [passedBy, Nat.cast_add]
      linarith
  · have later : (passedBy hlim call.len).since.seconds < now.seconds := by
      refine later now ?_
      rw [split]
      simp
    have within := (rate_le_iff later).mp rate
    have order : now.seconds ≤ reset.seconds := by
      rw [NeverBack, all, split] at clock
      have tail := (List.pairwise_append.mp (List.pairwise_append.mp clock).2.1).2.1
      exact (List.pairwise_cons.mp tail).1 reset (List.mem_singleton_self _)
    have counted := before.closed
    refine ⟨before.byterate_eq, ?_, total, Nat.zero_le _, Nat.zero_le _, ?_⟩
    · rw [all, split]
      simp [hgapLimiterResetRate]
    · have counters : (hlim.nBytesSent : Rat) + call.len ≤
          byterate * (now.seconds - hlim.since.seconds) := by
        rw [← before.byterate_eq]
        exact_mod_cast within
      have waited : byterate * (now.seconds - t0.seconds) ≤
          byterate * (reset.seconds - t0.seconds) := by
        refine mul_le_mul_of_nonneg_left ?_ (le_of_lt positive)
        linarith only [order]
      simp only [hgapLimiterResetRate, passedBy, Nat.cast_add, Nat.cast_zero, sub_zero]
      linarith only [counted, counters, waited]

/-- Behind any number of calls. -/
theorem withinRate_run {byterate : Rat} (positive : 0 < byterate) {t0 : Timeval} {L : Nat}
    {calls : List LimitCall} {hlim : HgapLimiter}
    (run : Steps (Guarded ChecksLater LimitStep) (hgapLimiterNew byterate t0) calls hlim)
    (short : ∀ call ∈ calls, call.len ≤ L) (clock : NeverBack (readings t0 calls)) :
    WithinRate byterate t0 L calls hlim := by
  refine run.invariant (fun calls hlim => NeverBack (readings t0 calls) →
    (∀ call ∈ calls, call.len ≤ L) → WithinRate byterate t0 L calls hlim) ?_ ?_ clock short
  · intro _ _
    refine ⟨rfl, List.mem_cons_self, rfl, Nat.zero_le _, Nat.zero_le _, ?_⟩
    simp [hgapLimiterNew]
  · rintro calls hlim call hlim' before ⟨step, later⟩ clock short
    refine (before ?_ fun call' member => short call' (List.mem_append_left _ member)).step positive
      clock (short call (List.mem_append_right _ (List.mem_singleton_self _))) step later
    rw [NeverBack, readings_snoc] at clock
    exact (List.pairwise_append.mp clock).1

/-- The octets of all calls are within the rate, but for the packets of one check period. -/
theorem WithinRate.bound {byterate : Rat} (positive : 0 < byterate) {t0 : Timeval} {L : Nat}
    {calls : List LimitCall} {hlim : HgapLimiter} (within : WithinRate byterate t0 L calls hlim)
    {t : Rat} (returns : ∀ reading ∈ readings t0 calls, reading.seconds ≤ t) :
    (hlim.totalDataSent : Rat) ≤ byterate * (t - t0.seconds) + hlimChkPeriod * L := by
  have started := returns _ within.since
  have elapsed : byterate * (hlim.since.seconds - t0.seconds) ≤ byterate * (t - t0.seconds) := by
    refine mul_le_mul_of_nonneg_left ?_ (le_of_lt positive)
    linarith only [started]
  have window : (hlim.nBytesSent : Rat) ≤ hlimChkPeriod * L := by
    exact_mod_cast within.window.trans (Nat.mul_le_mul_right L within.packets)
  have closed := within.closed
  linarith only [closed, elapsed, window]

section Sender

/-- A call of `hgap_sender_send`: what `sendto` returned, and the clock readings. -/
structure SendCall where
  ret : Int
  readings : List Timeval
  deriving DecidableEq, Repr

/-- The call of the limiter it makes, unless the datagram was not sent. -/
def SendCall.limit (send : SendCall) : Option LimitCall :=
  if 0 ≤ send.ret then some ⟨send.ret.toNat, send.readings⟩ else none

def SendStep (hlim : HgapLimiter) (send : SendCall) (hlim' : HgapLimiter) : Prop :=
  hgapSenderSend hlim send.ret send.readings = some (hlim', [])

/-- Sending is a run of the limiter, over the octets that were sent. -/
theorem sends_limited {hlim hlim' : HgapLimiter} {sends : List SendCall}
    (run : Steps (Guarded (fun hlim send => ∀ call, send.limit = some call → ChecksLater hlim call)
      SendStep) hlim sends hlim') :
    Steps (Guarded ChecksLater LimitStep) hlim (sends.filterMap SendCall.limit) hlim' := by
  induction run with
  | nil => exact .nil _
  | @snoc s t sends send before last ih =>
    obtain ⟨step, later⟩ := last
    unfold SendStep hgapSenderSend at step
    rw [List.filterMap_append]
    split at step
    next sent =>
      have limit : send.limit = some ⟨send.ret.toNat, send.readings⟩ := if_pos sent
      rw [List.filterMap_cons_some limit]
      exact .snoc ih ⟨step, later _ limit⟩
    next lost =>
      have limit : send.limit = none := if_neg lost
      rw [List.filterMap_cons_none limit, List.filterMap_nil, List.append_nil]
      simp only [Option.some.injEq, Prod.mk.injEq] at step
      exact step.1 ▸ ih

/-- What was not sent counts nothing. -/
theorem sent_octets (sends : List SendCall) :
    ((sends.filterMap SendCall.limit).map LimitCall.len).sum =
      (sends.map fun send => send.ret.toNat).sum := by
  induction sends with
  | nil => rfl
  | cons send sends ih =>
    rw [List.map_cons, List.sum_cons, ← ih]
    by_cases sent : 0 ≤ send.ret
    · have limit : send.limit = some ⟨send.ret.toNat, send.readings⟩ := if_pos sent
      rw [List.filterMap_cons_some limit, List.map_cons, List.sum_cons]
    · have limit : send.limit = none := if_neg sent
      rw [List.filterMap_cons_none limit, Int.toNat_of_nonpos (by omega), Nat.zero_add]

end Sender

/-- When a call returns, the octets of all calls so far are within the rate since the limiter
was made, but for the packets of one check period; and so are the octets `hgap_sender_send` has
sent. -/
theorem limiter_rate (byterate : Rat) (positive : 0 < byterate) (t0 : Timeval) (L : Nat)
    (hlim : HgapLimiter) :
    (∀ calls : List LimitCall,
      Steps (Guarded ChecksLater LimitStep) (hgapLimiterNew byterate t0) calls hlim →
      (∀ call ∈ calls, call.len ≤ L) → NeverBack (readings t0 calls) →
      ∀ t : Rat, (∀ reading ∈ readings t0 calls, reading.seconds ≤ t) →
        hlim.totalDataSent = (calls.map LimitCall.len).sum ∧
          (hlim.totalDataSent : Rat) ≤ byterate * (t - t0.seconds) + hlimChkPeriod * L) ∧
    ∀ sends : List SendCall,
      Steps (Guarded (fun hlim send => ∀ call, send.limit = some call → ChecksLater hlim call)
        SendStep) (hgapLimiterNew byterate t0) sends hlim →
      (∀ send ∈ sends, send.ret ≤ L) → NeverBack (readings t0 (sends.filterMap SendCall.limit)) →
      ∀ t : Rat, (∀ reading ∈ readings t0 (sends.filterMap SendCall.limit), reading.seconds ≤ t) →
        hlim.totalDataSent = (sends.map fun send => send.ret.toNat).sum ∧
          (hlim.totalDataSent : Rat) ≤ byterate * (t - t0.seconds) + hlimChkPeriod * L := by
  constructor
  · intro calls run short clock t returns
    have within := withinRate_run positive run short clock
    exact ⟨within.total, within.bound positive returns⟩
  · intro sends run short clock t returns
    have few : ∀ call ∈ sends.filterMap SendCall.limit, call.len ≤ L := by
      intro call member
      obtain ⟨send, inside, limit⟩ := List.mem_filterMap.mp member
      unfold SendCall.limit at limit
      split at limit
      · cases limit
        exact Int.toNat_le.mpr (short send inside)
      · cases limit
    have within := withinRate_run positive (sends_limited run) few clock
    refine ⟨?_, within.bound positive returns⟩
    rw [within.total, sent_octets]

section Window

/-- Packets of one octet that fit the first window. -/
private theorem window_run (byterate : Rat) (t0 : Timeval) (n : Nat) (fits : n ≤ hlimChkPeriod) :
    Steps (Guarded ChecksLater LimitStep) (hgapLimiterNew byterate t0)
      (List.replicate n ⟨1, []⟩) ⟨byterate, n, n, t0, n⟩ := by
  induction n with
  | zero => exact .nil _
  | succ n ih =>
    have open_ : ¬ (byterate ≠ 0 ∧ n + 1 > hlimChkPeriod) := fun full => Nat.not_lt.mpr fits full.2
    have step : LimitStep ⟨byterate, n, n, t0, n⟩ ⟨1, []⟩ ⟨byterate, n + 1, n + 1, t0, n + 1⟩ := by
      rw [LimitStep, hgapLimiterLimit, if_neg open_]
    rw [List.replicate_succ']
    exact .snoc (ih (Nat.le_of_succ_le fits)) ⟨step, nofun⟩

/-- One packet more, checked after two seconds at a limit of a thousand octets a second; and a
packet that is sent behind one that cannot be. -/
theorem limiter_rate_window :
    (1001 : Rat) ≤ 1000 * (2 - (Timeval.mk 0 0).seconds) + hlimChkPeriod * (1 : Nat) ∧
    ∃ hlim, Steps (Guarded (fun hlim send => ∀ call, send.limit = some call → ChecksLater hlim call)
        SendStep) (hgapLimiterNew 1000 ⟨0, 0⟩) [⟨-1, []⟩, ⟨1, []⟩] hlim ∧ hlim.totalDataSent = 1 := by
  have step : LimitStep ⟨1000, 1000, 1000, ⟨0, 0⟩, 1000⟩ ⟨1, [⟨2, 0⟩, ⟨2, 0⟩]⟩
      ⟨1000, 0, 0, ⟨2, 0⟩, 1001⟩ := by
    unfold LimitStep
    decide +kernel
  have later : ChecksLater ⟨1000, 1000, 1000, ⟨0, 0⟩, 1000⟩ ⟨1, [⟨2, 0⟩, ⟨2, 0⟩]⟩ := by
    simp [ChecksLater, Timeval.seconds]
  have all : readings ⟨0, 0⟩ (List.replicate hlimChkPeriod ⟨1, []⟩ ++ [⟨1, [⟨2, 0⟩, ⟨2, 0⟩]⟩]) =
      [⟨0, 0⟩, ⟨2, 0⟩, ⟨2, 0⟩] := by
    rw [readings_snoc, readings, List.flatMap_replicate]
    simp
  have short : ∀ call ∈ List.replicate hlimChkPeriod (LimitCall.mk 1 []) ++
      [⟨1, [⟨2, 0⟩, ⟨2, 0⟩]⟩], call.len ≤ 1 := by
    rintro call member
    rcases List.mem_append.mp member with earlier | last
    · rw [List.eq_of_mem_replicate earlier]
    · rw [List.mem_singleton.mp last]
  have sends : Steps (Guarded (fun hlim send => ∀ call, send.limit = some call →
      ChecksLater hlim call) SendStep) (hgapLimiterNew 1000 ⟨0, 0⟩) [⟨-1, []⟩, ⟨1, []⟩]
        ⟨1000, 1, 1, ⟨0, 0⟩, 1⟩ := by
    refine .snoc (.snoc (.nil _) ⟨rfl, fun _ limit => nomatch limit⟩) ⟨?_, fun call limit => ?_⟩
    · unfold SendStep
      decide +kernel
    · cases limit
      simp [ChecksLater]
  constructor
  · obtain ⟨-, bound⟩ := (limiter_rate 1000 (by norm_num) ⟨0, 0⟩ 1 _).1 _
      (.snoc (window_run 1000 ⟨0, 0⟩ hlimChkPeriod (Nat.le_refl _)) ⟨step, later⟩) short
      (by rw [all]; simp [NeverBack, Timeval.seconds]) 2 (by rw [all]; simp [Timeval.seconds])
    exact_mod_cast bound
  · have one : ∀ send ∈ [SendCall.mk (-1) [], ⟨1, []⟩], send.ret ≤ (1 : Nat) := by decide
    have clock : readings ⟨0, 0⟩ ([SendCall.mk (-1) [], ⟨1, []⟩].filterMap SendCall.limit) =
        [⟨0, 0⟩] := by decide
    exact ⟨_, sends, ((limiter_rate 1000 (by norm_num) ⟨0, 0⟩ 1 _).2 _ sends one
      (by rw [clock]; simp [NeverBack]) 0 (by rw [clock]; simp [Timeval.seconds])).1⟩

end Window

end Hairgap.Guarantees

import FastRing.CapturePacing
import FastRing.Config
import FastRing.Settings

/-! # Which configurations can be run

The ADC simulator as its callers see it: created from any configuration, started and stopped
any number of times, with a capture thread of its own for each start. `config_validate` bounds
the sample rate, but nothing between the caller and `capture_thread` asks it. A rate of 0 is a
division by zero in the thread; a rate above a million is an interval of 0, and a deadline that
does not move. -/

namespace FastRing

open Runs

theorem sampleIntervalUs_eq_zero {sampleRate : UInt32} (h : 1000000 < sampleRate.toNat) :
    sampleIntervalUs sampleRate = 0 := by
  refine UInt64.toNat_inj.mp ?_
  rw [sampleIntervalUs_toNat]
  exact Nat.div_eq_of_lt h

/-- Where `capture_thread` is: before the computation of its interval, in its loop, stopped by
a division by zero, or returned. -/
inductive CaptureRun where
  | starting
  | sampling (interval : UInt64) (thread : CaptureThread)
  | faulted
  | returned
  deriving DecidableEq, Repr

/-- An ADC simulator with its capture thread; `joining` says that the caller is in
`adc_simulator_stop` and waits for the thread. -/
structure AdcDevice where
  adc : AdcSimulator
  thread : Option CaptureRun
  joining : Bool
  deriving DecidableEq, Repr

namespace AdcDevice

/-- A simulator as `adc_simulator_create` leaves it. -/
def init (adc : AdcSimulator) : AdcDevice := { adc := adc, thread := none, joining := false }

/-- `adc_simulator_start`; `created` says whether a thread can be created. -/
def start (s : AdcDevice) (created : Bool) : AdcError × AdcDevice :=
  if s.adc.running then (.ok, s)
  else if created then
    (.ok, { s with adc := { s.adc with running := true }, thread := some .starting })
  -- `running` is set and set back
  else (.errorThread, s)

/-- `adc_simulator_stop` up to the join. -/
def stop (s : AdcDevice) : AdcDevice :=
  if s.adc.running then { s with adc := { s.adc with running := false }, joining := true } else s

/-- `capture_thread` goes on, and finds `clock` when it reads the clock. -/
def captureStep (s : AdcDevice) (clock : UInt64) : Option AdcDevice :=
  match s.thread with
  | some .starting =>
    if s.adc.config.sampleRate = 0 then some { s with thread := some .faulted }
    else
      some { s with
        thread := some (.sampling (sampleIntervalUs s.adc.config.sampleRate)
          { nextSampleTime := clock, taken := [] }) }
  | some (.sampling interval thread) =>
    if s.adc.running then
      some { s with thread := some (.sampling interval (captureIteration interval thread clock)) }
    else some { s with thread := some .returned }
  | _ => none

inductive Label where
  | setCallback (callback : Bool)
  | start (created : Bool)
  | stop
  | join
  | thread (clock : UInt64)
  deriving DecidableEq, Repr

/-- A call of the one thread that uses the simulator, or a step of the capture thread. -/
def step (s : AdcDevice) : Label → Option AdcDevice
  | .setCallback callback =>
    if s.joining then none else some { s with adc := { s.adc with callback := callback } }
  | .start created => if s.joining then none else some (s.start created).2
  | .stop => if s.joining then none else some s.stop
  | .join =>
    if s.joining = true ∧ s.thread = some .returned then
      some { s with thread := none, joining := false }
    else none
  | .thread clock => s.captureStep clock

/-- The clock is read as less than `2 ^ 63` microseconds. -/
def Label.ClockInRange : Label → Prop
  | .thread clock => clock.toNat < 2 ^ 63
  | _ => True

/-- The capture thread has not divided by zero, and each sample it has taken has moved its
deadline on. -/
structure Safe (s : AdcDevice) : Prop where
  divides : s.thread ≠ some .faulted
  advances : ∀ interval thread, s.thread = some (.sampling interval thread) →
    ∀ x ∈ thread.taken, x.deadline.toNat < x.next.toNat

/-- Every simulator that can be created from the configuration is safe in all it does. -/
def SafeToRun (config : Option AdcConfig) : Prop :=
  ∀ allocated adc, adcSimulatorCreate config allocated = some adc →
    ∀ ls s, (∀ l ∈ ls, l.ClockInRange) → run step (init adc) ls = some s → s.Safe

/-! ## The rates in range -/

/-- The capture thread of a simulator with the given sample rate has divided by it and keeps
to the rules of `CapturePacing`. -/
def ThreadOk (sampleRate : UInt32) : Option CaptureRun → Prop
  | some (.sampling interval thread) =>
    interval = sampleIntervalUs sampleRate ∧ thread.Inv interval.toNat
  | some .faulted => False
  | _ => True

structure Inv (config : AdcConfig) (s : AdcDevice) : Prop where
  configured : s.adc.config = config
  thread : ThreadOk config.sampleRate s.thread

variable {s t : AdcDevice} {config : AdcConfig}

/-- What a call of the user leaves of the simulator: its configuration, and the thread it had,
none, or a new one. -/
theorem step_call {l : Label} (hl : ∀ clock, l ≠ .thread clock) (h : s.step l = some t) :
    t.adc.config = s.adc.config ∧
      (t.thread = s.thread ∨ t.thread = none ∨ t.thread = some .starting) := by
  cases l with
  | thread clock => exact absurd rfl (hl clock)
  | setCallback callback =>
    simp only [step] at h
    split at h
    · cases h
    · cases h
      exact ⟨rfl, .inl rfl⟩
  | start created =>
    simp only [step, start] at h
    split at h
    · cases h
    · split at h
      · cases h
        exact ⟨rfl, .inl rfl⟩
      · split at h
        · cases h
          exact ⟨rfl, .inr (.inr rfl)⟩
        · cases h
          exact ⟨rfl, .inl rfl⟩
  | stop =>
    simp only [step, stop] at h
    split at h
    · cases h
    · split at h
      · cases h
        exact ⟨rfl, .inl rfl⟩
      · cases h
        exact ⟨rfl, .inl rfl⟩
  | join =>
    simp only [step] at h
    split at h
    · cases h
      exact ⟨rfl, .inr (.inl rfl)⟩
    · cases h

/-- With a rate other than 0 the thread gets into its loop, and stays within its rules. -/
theorem captureStep_inv (hrate : config.sampleRate ≠ 0) (hi : Inv config s) {clock : UInt64}
    (hc : clock.toNat < 2 ^ 63) (h : s.captureStep clock = some t) : Inv config t := by
  obtain ⟨hconfig, hthread⟩ := hi
  unfold captureStep at h
  cases hs : s.thread with
  | none => simp [hs] at h
  | some run =>
    rw [hs] at hthread
    cases run with
    | faulted => exact hthread.elim
    | returned => simp [hs] at h
    | starting =>
      simp only [hs, hconfig, if_neg hrate] at h
      cases h
      exact ⟨hconfig, rfl, start_inv _ clock⟩
    | sampling interval thread =>
      obtain ⟨rfl, hinv⟩ := hthread
      simp only [hs] at h
      split at h
      · cases h
        exact ⟨hconfig, rfl, captureIteration_inv (sampleIntervalUs_le _) hc hinv⟩
      · cases h
        exact ⟨hconfig, trivial⟩

theorem step_inv (hrate : config.sampleRate ≠ 0) (hi : Inv config s) {l : Label}
    (hc : l.ClockInRange) (h : s.step l = some t) : Inv config t := by
  by_cases hl : ∃ clock, l = .thread clock
  · obtain ⟨clock, rfl⟩ := hl
    exact captureStep_inv hrate hi hc h
  · obtain ⟨hconfig, hthread⟩ := step_call (fun clock he => hl ⟨clock, he⟩) h
    refine ⟨hconfig.trans hi.configured, ?_⟩
    rcases hthread with heq | heq | heq <;> rw [heq]
    · exact hi.thread
    · trivial
    · trivial

/-- With an interval that is not 0, the rules move every deadline on. -/
theorem Inv.safe (hi : Inv config s) (h0 : 1 ≤ config.sampleRate.toNat)
    (h1 : config.sampleRate.toNat ≤ 1000000) : s.Safe := by
  have hthread := hi.thread
  constructor
  · intro hfault
    rw [hfault] at hthread
    exact hthread
  · intro interval thread hs x hx
    rw [hs] at hthread
    obtain ⟨rfl, hinv⟩ := hthread
    have hgap := (hinv.ok x hx).gap
    have hpos := sampleIntervalUs_pos h0 h1
    omega

theorem safeToRun_of_rate {config : Option AdcConfig}
    (h0 : 1 ≤ (config.getD adcConfigGetDefault).sampleRate.toNat)
    (h1 : (config.getD adcConfigGetDefault).sampleRate.toNat ≤ 1000000) : SafeToRun config := by
  intro allocated adc hcreate ls s hclock hrun
  have hrate : (config.getD adcConfigGetDefault).sampleRate ≠ 0 := by
    intro hzero
    rw [hzero] at h0
    exact absurd h0 (by decide)
  have hinit : Inv (config.getD adcConfigGetDefault) (init adc) := by
    unfold adcSimulatorCreate at hcreate
    split at hcreate
    · cases hcreate
      exact ⟨rfl, trivial⟩
    · cases hcreate
  have hall : AllSteps step (fun _ l => l.ClockInRange) (init adc) ls :=
    allSteps_of_labels fun l hl _ => hclock l hl
  have hinv : Inv (config.getD adcConfigGetDefault) s :=
    invariant_of_steps (fun _ _ _ hi hc hs => step_inv hrate hi hc hs) hinit hall hrun
  exact hinv.safe h0 h1

/-! ## The other rates -/

/-- Nothing keeps a simulator with a rate of 0 from being started, and its thread from dividing
by it. -/
theorem not_safeToRun_of_zero {config : Option AdcConfig}
    (hzero : (config.getD adcConfigGetDefault).sampleRate = 0) : ¬ SafeToRun config := by
  intro h
  have hsafe := h true _ rfl [.start true, .thread 0] _ (by simp [Label.ClockInRange])
    (by simp [run, step, start, captureStep, init, hzero]; rfl)
  exact hsafe.divides rfl

/-- With a rate above a million the first sample leaves the deadline where it was. -/
theorem not_safeToRun_of_gt {config : Option AdcConfig}
    (hgt : 1000000 < (config.getD adcConfigGetDefault).sampleRate.toNat) : ¬ SafeToRun config := by
  intro h
  have hrate : (config.getD adcConfigGetDefault).sampleRate ≠ 0 := by
    intro hzero
    rw [hzero] at hgt
    exact absurd hgt (by decide)
  have hinterval := sampleIntervalUs_eq_zero hgt
  have hsafe := h true _ rfl [.start true, .thread 0, .thread 0] _ (by simp [Label.ClockInRange])
    (by simp [run, step, start, captureStep, init, hrate, hinterval]; rfl)
  have hmoves := hsafe.advances 0 _ rfl { reading := 0, deadline := 0, next := 0 } (by decide)
  exact absurd hmoves (by decide)

/-- A configuration can be run exactly if its sample rate is one that `config_validate` accepts;
without a configuration the default is used. -/
theorem safeToRun_iff (config : Option AdcConfig) :
    SafeToRun config ↔ 1 ≤ (config.getD adcConfigGetDefault).sampleRate.toNat ∧
      (config.getD adcConfigGetDefault).sampleRate.toNat ≤ 1000000 := by
  constructor
  · intro h
    constructor
    · refine Nat.pos_of_ne_zero ?_
      intro hzero
      exact not_safeToRun_of_zero (UInt32.toNat_inj.mp hzero) h
    · refine Nat.le_of_not_lt ?_
      intro hgt
      exact not_safeToRun_of_gt hgt h
  · rintro ⟨h0, h1⟩
    exact safeToRun_of_rate h0 h1

/-- A rate of 0 and one of two million: both simulators are started, the thread of the first
divides by zero, and the second takes two samples at one reading of the clock, for one
deadline. -/
theorem unchecked_rates :
    (init ⟨{ adcConfigGetDefault with sampleRate := 0 }, false, false⟩).start true =
        (.ok, ⟨⟨{ adcConfigGetDefault with sampleRate := 0 }, true, false⟩, some .starting, false⟩) ∧
      ¬ SafeToRun (some { adcConfigGetDefault with sampleRate := 0 }) ∧
      (captureThread 2000000 5 [5, 5]).taken = [⟨5, 5, 5⟩, ⟨5, 5, 5⟩] ∧
      ¬ SafeToRun (some { adcConfigGetDefault with sampleRate := 2000000 }) :=
  ⟨rfl, not_safeToRun_of_zero rfl, by decide, not_safeToRun_of_gt (by decide)⟩

/-- What `config_validate` accepts can be run. -/
theorem safeToRun_of_validated {config : SystemConfig}
    (h : (configValidate (some config)).1 = true) : SafeToRun (some config.adc) := by
  obtain ⟨h0, h1⟩ := validated_rate h
  exact safeToRun_of_rate h0 h1

end AdcDevice

/-- The program itself only runs simulators that are safe. -/
theorem Application.safeToRun {s : Application} {c2p p2n : RingBuffer AdcSample}
    {allocated : Nat → Bool} {ls : List Application.Label}
    (h : run Application.step (.init c2p p2n allocated) ls = some s) {adc : AdcSimulator}
    (hadc : s.adc = some adc) : AdcDevice.SafeToRun (some adc.config) := by
  rw [(run_defaults h).adc adc hadc]
  exact AdcDevice.safeToRun_of_validated (congrArg Prod.fst configGetDefault_valid)

/-- With an interval of 0 a due sample moves the deadline to the reading and no further. -/
theorem captureIteration_zero {s : CaptureThread} {c : UInt64} (hdue : s.nextSampleTime ≤ c) :
    captureIteration 0 s c =
      { nextSampleTime := c
        taken := s.taken ++ [{ reading := c, deadline := s.nextSampleTime, next := c }] } := by
  have hnext : (if s.nextSampleTime < c then c else s.nextSampleTime) = c := by
    split
    · rfl
    · rename_i hlt
      exact UInt64.le_antisymm hdue (UInt64.not_lt.mp hlt)
  simp only [captureIteration, ge_iff_le, if_pos hdue, UInt64.add_zero, hnext]

theorem session_zero {readings : List UInt64} {s : CaptureThread}
    (hsorted : (s.nextSampleTime :: readings).Pairwise (· ≤ ·)) :
    (readings.foldl (captureIteration 0) s).taken.map (fun x => x.reading) =
      s.taken.map (fun x => x.reading) ++ readings := by
  induction readings generalizing s with
  | nil => simp
  | cons c readings ih =>
    obtain ⟨hfirst, hrest⟩ := List.pairwise_cons.mp hsorted
    rw [List.foldl_cons, captureIteration_zero (hfirst c List.mem_cons_self), ih hrest]
    simp

/-- Above a million the rate limits nothing: a clock that does not go back finds a sample taken
at each of its readings. -/
theorem unlimited_rate {sampleRate : UInt32} (hgt : 1000000 < sampleRate.toNat) {start : UInt64}
    {readings : List UInt64} (hsorted : (start :: readings).Pairwise (· ≤ ·)) :
    (captureThread sampleRate start readings).taken.map (fun x => x.reading) = readings := by
  rw [captureThread, sampleIntervalUs_eq_zero hgt]
  exact session_zero hsorted

end FastRing

import FastRing.Application

/-! # What the capture side of the program does

The steps of `capture_thread_worker` and of the ADC simulator's `capture_thread`, position by
position: what the thread has found there, and the program after it. -/

namespace FastRing.Application

variable {s t : Application}

inductive CaptureMove (s : Application) (env : WorkerEnv) : Application → Prop
  | getAdc (pos : s.capture = .getAdc) :
      CaptureMove s env { s with capture := if s.adc.isSome then .checkRunning else .createAdc }
  | noMemory (pos : s.capture = .createAdc)
      (failed : adcSimulatorCreate (some adcConfigGetDefault) env.granted = none) :
      CaptureMove s env { s with capture := .getAdc }
  | create {adc : AdcSimulator} (pos : s.capture = .createAdc)
      (new : adcSimulatorCreate (some adcConfigGetDefault) env.granted = some adc) :
      CaptureMove s env { s with adc := some adc, capture := .setCallback }
  | setCallback (pos : s.capture = .setCallback) :
      CaptureMove s env { s with
        adc := s.adc.map fun adc => { adc with callback := true }
        capture := .start false }
  | running {restart : Bool} {adc : AdcSimulator} (pos : s.capture = .start restart)
      (present : s.adc = some adc) (running : adc.running = true) :
      CaptureMove s env { s with capture := if restart then .getAdc else .checkRunning }
  | start {restart : Bool} {adc : AdcSimulator} (pos : s.capture = .start restart)
      (present : s.adc = some adc) (stopped : ¬ adc.running = true) :
      CaptureMove s env { s with
        adc := some { adc with running := true }
        pipeline := { s.pipeline with startTime := env.clock, sequence := 0 }
        capture := .createThread restart }
  | createThread {restart : Bool} (pos : s.capture = .createThread restart)
      (granted : env.granted = true) (absent : s.captureThread = none) :
      CaptureMove s env { s with
        captureThread := some .readRunning
        capture := if restart then .getAdc else .checkRunning }
  | noThread {restart : Bool} (pos : s.capture = .createThread restart)
      (refused : ¬ env.granted = true) :
      CaptureMove s env { s with
        adc := s.adc.map fun adc => { adc with running := false }
        capture := if restart then .getAdc else .checkRunning }
  | checkRunning {adc : AdcSimulator} (pos : s.capture = .checkRunning)
      (present : s.adc = some adc) :
      CaptureMove s env { s with capture := if adc.running then .getAdc else .start true }

theorem captureStep_move {env : WorkerEnv} (h : s.captureStep env = some t) :
    CaptureMove s env t := by
  unfold captureStep at h
  split at h
  · rename_i pos
    cases h
    exact .getAdc pos
  · rename_i pos
    split at h
    · rename_i failed
      cases h
      exact .noMemory pos failed
    · rename_i adc new
      cases h
      exact .create pos new
  · rename_i pos
    cases h
    exact .setCallback pos
  · rename_i restart pos
    obtain ⟨adc, present, rfl⟩ := Option.map_eq_some_iff.mp h
    split
    · rename_i running
      exact .running pos present running
    · rename_i stopped
      exact .start pos present stopped
  · rename_i restart pos
    simp only at h
    split at h
    · rename_i granted
      split at h
      · rename_i absent
        cases h
        exact .createThread pos granted absent
      · cases h
    · rename_i refused
      cases h
      exact .noThread pos refused
  · rename_i pos
    obtain ⟨adc, present, rfl⟩ := Option.map_eq_some_iff.mp h
    exact .checkRunning pos present

inductive CaptureThreadMove (s : Application) (due : Option (UInt64 × Int32)) : Application → Prop
  | readRunning {adc : AdcSimulator} (pos : s.captureThread = some .readRunning)
      (present : s.adc = some adc) :
      CaptureThreadMove s due { s with
        captureThread := some (if adc.running then .readClock else .done) }
  | early {adc : AdcSimulator} (pos : s.captureThread = some .readClock)
      (present : s.adc = some adc) (notDue : due = none) :
      CaptureThreadMove s due { s with captureThread := some .readRunning }
  | sample {adc : AdcSimulator} {currentTime : UInt64} {value : Int32} {pipeline : Pipeline}
      (pos : s.captureThread = some .readClock) (present : s.adc = some adc)
      (isDue : due = some (currentTime, value)) (callback : adc.callback = true)
      (made : s.pipeline.capture currentTime value = some pipeline) :
      CaptureThreadMove s due { s with pipeline := pipeline, captureThread := some .callback }
  | discard {adc : AdcSimulator} {currentTime : UInt64} {value : Int32}
      (pos : s.captureThread = some .readClock) (present : s.adc = some adc)
      (isDue : due = some (currentTime, value)) (noCallback : ¬ adc.callback = true) :
      CaptureThreadMove s due { s with
        pipeline := { s.pipeline with sequence := s.pipeline.sequence + 1 }
        captureThread := some .readRunning }
  | callback {pipeline : Pipeline} (pos : s.captureThread = some .callback)
      (moved : s.pipeline.callbackStep = some pipeline) :
      CaptureThreadMove s due { s with
        pipeline := pipeline
        captureThread := some
          (if pipeline.captureToProcess.producer.isIdle then .readRunning else .callback) }

theorem captureThreadStep_move {due : Option (UInt64 × Int32)}
    (h : s.captureThreadStep due = some t) : CaptureThreadMove s due t := by
  unfold captureThreadStep at h
  split at h
  · rename_i adc pos present
    cases h
    exact .readRunning pos present
  · rename_i adc pos present
    split at h
    · cases h
      exact .early pos present rfl
    · split at h
      · rename_i callback
        obtain ⟨pipeline, made, rfl⟩ := Option.map_eq_some_iff.mp h
        exact .sample pos present rfl callback made
      · rename_i noCallback
        cases h
        exact .discard pos present rfl noCallback
  · rename_i pos
    obtain ⟨pipeline, moved, rfl⟩ := Option.map_eq_some_iff.mp h
    exact .callback pos moved
  · cases h

end FastRing.Application

import FastRing.EndToEnd

/-! # The counters of the pipeline

The rings count what they refuse, the workers count what they did. At a moment when
no worker is inside an iteration the five counters agree with the samples and blocks
they stand for. In between, a counter lags by what the worker at that position is
about to count: `Counted` says so for every position. -/

namespace FastRing

/-- The samples in blocks whose sending did not return `ADC_OK`. -/
def failedSamples (handed : List (DataBlock × AdcError)) : Nat :=
  ((handed.filter fun p => p.2 ≠ .ok).map fun p => p.1.samples.length).sum

def okBlocks (handed : List (DataBlock × AdcError)) : Nat := handed.countP fun p => p.2 = .ok

def failedBlocks (handed : List (DataBlock × AdcError)) : Nat := handed.countP fun p => p.2 ≠ .ok

/-- The bytes, and the errors, that the network thread has not counted yet. -/
def NetworkPos.uncountedBytes : NetworkPos → Nat
  | .sent block err => if err = .ok then 24 + 16 * block.samples.length else 0
  | _ => 0

def NetworkPos.uncountedErrors : NetworkPos → Nat
  | .sent _ err => if err = .ok then 0 else 1
  | _ => 0

theorem okBlocks_append (handed : List (DataBlock × AdcError)) (block : DataBlock)
    (err : AdcError) : okBlocks (handed ++ [(block, err)]) =
      okBlocks handed + if err = .ok then 1 else 0 := by
  rw [okBlocks, List.countP_append]
  by_cases h : err = .ok <;> simp [h, okBlocks]

theorem failedBlocks_append (handed : List (DataBlock × AdcError)) (block : DataBlock)
    (err : AdcError) : failedBlocks (handed ++ [(block, err)]) =
      failedBlocks handed + if err = .ok then 0 else 1 := by
  rw [failedBlocks, List.countP_append]
  by_cases h : err = .ok <;> simp [h, failedBlocks]

theorem output_length (handed : List (DataBlock × AdcError)) :
    (handed.flatMap fun p => p.1.samples).length = okSamples handed + failedSamples handed := by
  induction handed with
  | nil => rfl
  | cons p handed ih =>
    rw [List.flatMap_cons, List.length_append, ih]
    by_cases h : p.2 = .ok <;> simp [okSamples, failedSamples, h] <;> omega

namespace Pipeline

variable {s t : Pipeline}

structure Counted (s : Pipeline) : Prop where
  total : s.captureToProcess.published.length % 2 ^ 64 =
    (s.stats.totalSamples.toNat + s.captureToProcess.producer.accepted) % 2 ^ 64
  dropped : (s.captureToProcess.refused.length + s.processToNetwork.refused.length) % 2 ^ 64 =
    (s.stats.droppedSamples.toNat + s.captureToProcess.producer.rejected +
      s.processToNetwork.producer.rejected) % 2 ^ 64
  bytes : (24 * okBlocks s.handed + 16 * okSamples s.handed) % 2 ^ 64 =
    (s.stats.sentBytes.toNat + s.network.uncountedBytes) % 2 ^ 64
  errors : failedBlocks s.handed % 2 ^ 64 =
    (s.stats.sendErrors.toNat + s.network.uncountedErrors) % 2 ^ 64

theorem Producer.uncounted_zero {p : Producer AdcSample} (h : p.isDone = false) :
    p.accepted = 0 ∧ p.rejected = 0 := by
  cases p with
  | pushDone | batchDone => cases h
  | _ => exact ⟨rfl, rfl⟩

theorem capture_counted (hc : Counted s) {currentTime : UInt64} {value : Int32}
    (h : s.capture currentTime value = some t) : Counted t := by
  unfold capture at h
  split at h
  case h_2 => cases h
  rename_i hp
  cases h
  have ht := hc.total
  have hd := hc.dropped
  rw [hp] at ht hd
  exact ⟨ht, hd, hc.bytes, hc.errors⟩

theorem callbackStep_counted (hi : Inv s) (hc : Counted s) (h : s.callbackStep = some t) :
    Counted t := by
  have ht := hc.total
  have hd := hc.dropped
  cases callbackStep_move h with
  | push running access =>
    have hnd : s.captureToProcess.producer.isDone = false := by
      have hsingle := hi.single
      cases hp : s.captureToProcess.producer with
      | pushDone x accepted => exact absurd hp (running x accepted)
      | batchDone b n => rw [hp] at hsingle; cases hsingle
      | _ => rfl
    obtain ⟨hpub, href⟩ := Spsc.producerStep_counts access
    obtain ⟨ha, hr⟩ := Producer.uncounted_zero hnd
    rw [ha] at ht
    rw [hr] at hd
    refine ⟨?_, ?_, hc.bytes, hc.errors⟩
    · simp only [hpub]; omega
    · simp only [href]; omega
  | @count x accepted pos =>
    rw [pos] at ht hd
    cases accepted with
    | true =>
      refine ⟨?_, hd, hc.bytes, hc.errors⟩
      simp only [Producer.accepted, SystemStats.countPush, if_true, UInt64.toNat_add,
        UInt64.toNat_one] at ht ⊢
      omega
    | false =>
      refine ⟨ht, ?_, hc.bytes, hc.errors⟩
      simp only [Producer.rejected, SystemStats.countPush, Bool.false_eq_true, if_false,
        UInt64.toNat_add, UInt64.toNat_one] at hd ⊢
      omega

theorem processStep_counted (hi : Inv s) (hc : Counted s) (h : s.processStep = some t) :
    Counted t := by
  have ht := hc.total
  have hd := hc.dropped
  cases processStep_move h with
  | start | noData => exact ⟨ht, hd, hc.bytes, hc.errors⟩
  | forward idle _ _ =>
    rw [idle] at hd
    exact ⟨ht, hd, hc.bytes, hc.errors⟩
  | pop _ _ access =>
    obtain ⟨_, hpub, href, hpr⟩ := Spsc.consumerStep_flow access
    rw [← hpub, ← hpr] at ht
    rw [← href, ← hpr] at hd
    exact ⟨ht, hd, hc.bytes, hc.errors⟩
  | push running access =>
    have hnd : s.processToNetwork.producer.isDone = false := by
      have hbatch := hi.pushBatch
      cases hp : s.processToNetwork.producer with
      | batchDone b n => exact absurd hp (running b n)
      | pushDone x accepted => rw [hp] at hbatch; cases hbatch
      | _ => rfl
    obtain ⟨_, href⟩ := Spsc.producerStep_counts access
    obtain ⟨_, hr⟩ := Producer.uncounted_zero hnd
    rw [hr] at hd
    refine ⟨ht, ?_, hc.bytes, hc.errors⟩
    simp only [href]
    omega
  | count pos =>
    rw [pos] at hd
    unfold SystemStats.countForward
    split
    · rename_i hlt
      refine ⟨ht, ?_, hc.bytes, hc.errors⟩
      simp only [Producer.rejected, UInt64.toNat_add, UInt32.toNat_toUInt64,
        UInt32.toNat_sub_of_le _ _ (UInt32.le_of_lt hlt)] at hd ⊢
      omega
    · rename_i hge
      rw [UInt32.lt_iff_toNat_lt] at hge
      refine ⟨ht, ?_, hc.bytes, hc.errors⟩
      simp only [Producer.rejected] at hd ⊢
      omega

theorem networkStep_counted (hi : Inv s) (hc : Counted s) {env : NetworkEnv}
    (h : s.networkStep env = some t) : Counted t := by
  have hb := hc.bytes
  have he := hc.errors
  have hnet := hi.network
  cases networkStep_move h with
  | noClient => exact hc
  | connect pos _ =>
    rw [pos] at hb he
    refine ⟨hc.total, hc.dropped, ?_, ?_⟩
    · simp only; split <;> exact hb
    · simp only; split <;> exact he
  | start pos | fill pos _ | lose pos _ =>
    rw [pos] at hb he
    exact ⟨hc.total, hc.dropped, hb, he⟩
  | pop _ _ access =>
    obtain ⟨_, _, href, hpr⟩ := Spsc.consumerStep_flow access
    have hd := hc.dropped
    rw [← href, ← hpr] at hd
    exact ⟨hc.total, hd, hb, he⟩
  | takeOver pos _ =>
    rw [pos] at hb he
    refine ⟨hc.total, hc.dropped, ?_, ?_⟩
    · simp only; split <;> exact hb
    · simp only; split <;> exact he
  | send pos _ =>
    rw [pos] at hb he
    refine ⟨hc.total, hc.dropped, ?_, ?_⟩
    · simp only [okBlocks_append, okSamples_append, NetworkPos.uncountedBytes] at hb ⊢
      split <;> omega
    · simp only [failedBlocks_append, NetworkPos.uncountedErrors] at he ⊢
      split <;> omega
  | @count block err pos =>
    rw [pos] at hb he hnet
    simp only [NetworkPos.uncountedBytes, NetworkPos.uncountedErrors] at hb he
    unfold SystemStats.countSend
    split
    · rename_i hok
      rw [if_pos hok] at hb he
      refine ⟨hc.total, hc.dropped, ?_, he⟩
      simp only [UInt64.toNat_add, UInt64.toNat_ofNat', hnet.2, dataBlockSize, adcSampleSize,
        NetworkPos.uncountedBytes]
      omega
    · rename_i hne
      rw [if_neg hne] at hb he
      refine ⟨hc.total, hc.dropped, hb, ?_⟩
      simp only [UInt64.toNat_add, UInt64.toNat_one, NetworkPos.uncountedErrors]
      omega

theorem step_counted (hi : Inv s) (hc : Counted s) {l : Label} (h : s.step l = some t) :
    Counted t := by
  cases l with
  | capture currentTime value => exact capture_counted hc h
  | callback => exact callbackStep_counted hi hc h
  | process => exact processStep_counted hi hc h
  | network env => exact networkStep_counted hi hc h

/-- No worker is inside an iteration. -/
structure Quiescent (s : Pipeline) : Prop where
  capture : s.captureToProcess.producer = .idle
  processPop : s.captureToProcess.consumer = .idle
  processPush : s.processToNetwork.producer = .idle
  networkPop : s.processToNetwork.consumer = .idle
  network : s.network = .idle

/-- Exact accounting: at every moment when no worker is inside an iteration, whatever
the threads and the network did before. All sums are modulo `2 ^ 64`. -/
theorem accounting (c2p p2n : RingBuffer AdcSample) (h : c2p.Fresh) (h' : p2n.Fresh)
    (startTime : UInt64) (allocated : Nat → Bool) (ls : List Label) (s : Pipeline)
    (hr : Runs.run step (init c2p p2n startTime allocated) ls = some s) (hq : Quiescent s) :
    UInt64.ofNat s.generated.length = s.stats.totalSamples + s.captureToProcess.rb.dropped ∧
    s.stats.totalSamples = UInt64.ofNat (ringBufferCount s.captureToProcess.rb).toNat +
      s.processToNetwork.rb.dropped + UInt64.ofNat (ringBufferCount s.processToNetwork.rb).toNat +
      UInt64.ofNat (okSamples s.handed) +
      UInt64.ofNat (failedSamples s.handed + s.unsent.length) ∧
    s.stats.droppedSamples = s.captureToProcess.rb.dropped + s.processToNetwork.rb.dropped ∧
    s.stats.sentBytes = UInt64.ofNat (24 * okBlocks s.handed + 16 * okSamples s.handed) ∧
    s.stats.sendErrors = UInt64.ofNat (failedBlocks s.handed) := by
  have hinv : Inv s ∧ Counted s :=
    Runs.invariant (I := fun s => Inv s ∧ Counted s)
      (fun _ _ _ hi hs => ⟨step_inv hi.1 hs, step_counted hi.1 hi.2 hs⟩)
      ⟨init_inv h h' startTime allocated, rfl, rfl, rfl, rfl⟩ hr
  obtain ⟨hi, hc⟩ := hinv
  obtain ⟨q₁, hq₁⟩ := hi.first
  obtain ⟨q₂, hq₂⟩ := hi.second
  have htotal := hc.total
  have hdropped := hc.dropped
  have hbytes := hc.bytes
  have herrors := hc.errors
  have hoffered := hi.offered
  rw [hq.capture] at htotal hdropped hoffered
  rw [hq.processPush] at hdropped
  rw [hq.network] at hbytes herrors
  -- the pipeline is empty but for the rings: all samples are there, sent, or dropped
  have hflow : s.generated.length = s.captureToProcess.refused.length +
      s.processToNetwork.refused.length + s.unsent.length +
      (okSamples s.handed + failedSamples s.handed) + q₂.length + q₁.length := by
    have := hi.ledger.perm.length_eq
    simp only [Pipeline.dropped, kept, output, Spsc.line, hq.capture, hq.processPop, hq.processPush,
      hq.networkPop, hq.network, hq₁.contents, hq₂.contents, Producer.held, Consumer.taken,
      NetworkPos.holding, List.length_append, List.length_nil, output_length] at this
    omega
  simp only [Producer.accepted, Producer.rejected, Producer.held, NetworkPos.uncountedBytes,
    NetworkPos.uncountedErrors, List.length_nil] at htotal hdropped hbytes herrors hoffered
  have hcount₁ := hq₁.holds.count
  have hcount₂ := hq₂.holds.count
  rw [hq₁.dropped, hq₂.dropped, hcount₁, hcount₂]
  refine ⟨?_, ?_, ?_, ?_, ?_⟩ <;> rw [← UInt64.toNat_inj] <;>
    simp only [UInt64.toNat_add, UInt64.toNat_ofNat'] <;>
    have := UInt64.toNat_lt s.stats.totalSamples <;>
    have := UInt64.toNat_lt s.stats.droppedSamples <;>
    have := UInt64.toNat_lt s.stats.sentBytes <;>
    have := UInt64.toNat_lt s.stats.sendErrors <;>
    omega

/-- Three samples, of which one is refused and the two others are lost in `send`. -/
theorem accounting_gap : ∃ s : Pipeline,
    Runs.run step (init tinyRing tinyRing 0 fun _ => true) gapRun = some s ∧ Quiescent s ∧
      s.stats.sendErrors = UInt64.ofNat (failedBlocks s.handed) ∧ failedBlocks s.handed = 2 ∧
      s.stats.totalSamples = 2 ∧ s.stats.droppedSamples = 1 := by
  have hq : ∀ s, Runs.run step (init tinyRing tinyRing 0 fun _ => true) gapRun = some s →
      Quiescent s := by
    rintro _ ⟨⟩
    exact ⟨rfl, rfl, rfl, rfl, rfl⟩
  refine ⟨_, rfl, hq _ rfl, ?_, rfl, rfl, rfl⟩
  exact (accounting tinyRing tinyRing tinyRing_fresh tinyRing_fresh 0 (fun _ => true) gapRun _ rfl
    (hq _ rfl)).2.2.2.2

end Pipeline

end FastRing

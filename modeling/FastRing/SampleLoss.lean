import FastRing.WorkerSpecs
import FastRing.RingCreate

/-! # Where samples get lost

Every sample offered to the callback is in one of the rings, was counted as
dropped, or was sent in a block. The callback and the process worker keep this
balance: what a full ring refuses, they count. The network worker does not: a batch
it popped and cannot hand over to the OS as a whole, it forgets. So the balance
holds in every state of a run exactly when no iteration of the network worker ends
that way. -/

namespace FastRing

variable {s : System} {q q' : List AdcSample}

/-- The samples in blocks for which `tcp_client_send_data_block` returned `ADC_OK`. -/
def okSamples (handed : List (DataBlock × AdcError)) : Nat :=
  ((handed.filter fun p => p.2 = .ok).map fun p => p.1.samples.length).sum

/-- Every sample offered is accounted for; `dropped_samples` has 64 bits. -/
def System.Conserved (s : System) : Prop :=
  s.offered % 2 ^ 64 = (s.stats.droppedSamples.toNat + (ringBufferCount s.captureToProcess).toNat +
    (ringBufferCount s.processToNetwork).toNat + okSamples s.handed) % 2 ^ 64

instance (s : System) : Decidable s.Conserved := inferInstanceAs (Decidable (_ = _))

/-- The step loses no sample: an iteration of the network worker that has a
connection and finds samples gets a block from the pool, and the OS takes all of it. -/
def lossless (s : System) : WorkerStep → Prop
  | .network env =>
    canSend s.tcpClient env = true → 0 < (ringBufferCount s.processToNetwork).toNat →
      (getBlockFromPool s.pool).1 = true ∧
        TakesAll (dataBlockSize + min 256 (ringBufferCount s.processToNetwork).toNat * adcSampleSize)
          env.send
  | _ => True

/-- Both rings hold something definite. -/
def System.Filled (s : System) : Prop :=
  ∃ q q', s.captureToProcess.Holds q ∧ s.processToNetwork.Holds q'

theorem SystemStats.countPush_dropped (stats : SystemStats) (accepted : Bool) :
    (stats.countPush accepted).droppedSamples =
      if accepted then stats.droppedSamples else stats.droppedSamples + 1 := by
  cases accepted <;> rfl

theorem SystemStats.countSend_dropped (stats : SystemStats) (popped : UInt32) (err : AdcError) :
    (stats.countSend popped err).droppedSamples = stats.droppedSamples := by
  unfold countSend
  split <;> rfl

theorem okSamples_append (handed : List (DataBlock × AdcError)) (block : DataBlock)
    (err : AdcError) : okSamples (handed ++ [(block, err)]) =
      okSamples handed + if err = .ok then block.samples.length else 0 := by
  rw [okSamples, List.filter_append, List.map_append, List.sum_append]
  by_cases h : err = .ok <;> simp [h, okSamples]

/-! ## One step -/

theorem adcSampleCallback_filled (h : s.captureToProcess.Holds q) (x : AdcSample) :
    ∃ q', (adcSampleCallback s x).captureToProcess.Holds q' := by
  have hr := h.room
  rw [adcSampleCallback_eq h]
  split
  · exact ⟨_, h.accept [x] 0 (by simp; omega)⟩
  · exact ⟨_, h.accept [] 1 (by simpa using hr)⟩

theorem step_filled {t : System} {l : WorkerStep} (hf : s.Filled) (h : s.step l = some t) :
    t.Filled := by
  obtain ⟨q, q', hq, hq'⟩ := hf
  have hr' := hq'.room
  cases l with
  | sample x =>
    cases h
    obtain ⟨q₁, h₁⟩ := adcSampleCallback_filled hq x
    exact ⟨q₁, q', h₁, hq'⟩
  | process =>
    cases h
    rw [processThreadWorker_eq hq hq' rfl rfl]
    refine ⟨_, _, hq.release (Nat.min_le_right _ _), hq'.accept _ _ ?_⟩
    rw [List.length_take]
    omega
  | network env =>
    cases h
    have hcase := networkThreadWorker_cases hq' env
    generalize networkThreadWorker s env = t at hcase
    cases hcase with
    | noClient | refused | empty => exact ⟨q, q', hq, hq'⟩
    | noBlock | sent => exact ⟨q, _, hq, hq'.release (Nat.min_le_right _ _)⟩

/-- The callback and the process worker keep the balance; the network worker keeps
it exactly in the lossless iterations. -/
theorem step_conserved_iff (hf : s.Filled) (hc : s.Conserved) (l : WorkerStep) :
    (∀ t, s.step l = some t → t.Conserved) ↔ lossless s l := by
  obtain ⟨q, q', hq, hq'⟩ := hf
  have hr := hq.room
  have hr' := hq'.room
  have hN := hq.wf.le_pow
  have hN' := hq'.wf.le_pow
  unfold System.Conserved at hc
  rw [hq.count, hq'.count] at hc
  cases l with
  | sample x =>
    refine ⟨fun _ => trivial, ?_⟩
    rintro _ _ ⟨⟩
    unfold System.Conserved
    rw [adcSampleCallback_eq hq]
    split
    · rw [(hq.accept [x] 0 (by simp; omega)).count, hq'.count, SystemStats.countPush_dropped]
      simp only [List.length_append, List.length_singleton, if_true] at hc ⊢
      omega
    · rw [(hq.accept [] 1 (by simpa using hr)).count, hq'.count, SystemStats.countPush_dropped]
      simp only [List.append_nil, Bool.false_eq_true, if_false,
        UInt64.toNat_add, UInt64.toNat_one] at hc ⊢
      omega
  | process =>
    refine ⟨fun _ => trivial, ?_⟩
    rintro _ _ ⟨⟩
    unfold System.Conserved
    obtain ⟨k, hk⟩ : ∃ k, k = min 256 q.length := ⟨_, rfl⟩
    obtain ⟨j, hj⟩ : ∃ j, j = min k (s.processToNetwork.capacity.toNat - 1 - q'.length) := ⟨_, rfl⟩
    have hlen : (q.take j).length = j := by rw [List.length_take]; omega
    rw [processThreadWorker_eq hq hq' hk hj, (hq.release (by omega)).count,
      (hq'.accept (q.take j) (k - j) (by omega)).count]
    simp only [List.length_append, List.length_drop, hlen, UInt64.toNat_add,
      UInt64.toNat_ofNat'] at hc ⊢
    omega
  | network env =>
    simp only [System.step, lossless, Option.some.injEq, forall_eq', hq'.count]
    have hcase := networkThreadWorker_cases hq' env
    generalize networkThreadWorker s env = t at hcase
    cases hcase with
    | noClient none =>
      refine ⟨fun _ can => ?_, fun _ => ?_⟩
      · rw [none] at can; cases can
      · unfold System.Conserved; rw [hq.count, hq'.count]; exact hc
    | refused none =>
      refine ⟨fun _ can => ?_, fun _ => ?_⟩
      · rw [none] at can; cases can
      · unfold System.Conserved; rw [hq.count, hq'.count]; exact hc
    | empty can ready nil =>
      refine ⟨fun _ _ hpos => ?_, fun _ => ?_⟩
      · rw [nil] at hpos; cases hpos
      · unfold System.Conserved; rw [hq.count, hq'.count]; exact hc
    | noBlock can ready ne missing =>
      have hpos := List.length_pos_iff.mpr ne
      refine ⟨fun h => ?_, fun h => ?_⟩
      · exfalso
        unfold System.Conserved at h
        rw [hq.count, (hq'.release (Nat.min_le_right _ _)).count] at h
        simp only [List.length_drop] at hc h
        omega
      · rw [(h can hpos).1] at missing
        cases missing
    | @sent can client log ready ne present block hb r ends on =>
      have hpos := List.length_pos_iff.mpr ne
      have hlen : block.samples.length = min 256 q'.length := by rw [hb]; simp [fillBlock]
      have hok := ends.ok_iff
      rw [block.bytes_length, hlen] at hok
      unfold System.Conserved
      rw [hq.count, (hq'.release (Nat.min_le_right _ _)).count]
      simp only [okSamples_append, SystemStats.countSend_dropped,
        List.length_drop, hlen] at hc ⊢
      by_cases he : r.err = .ok
      · rw [if_pos he]
        exact ⟨fun _ _ _ => ⟨present, hok.mp he⟩, fun _ => by omega⟩
      · rw [if_neg he]
        refine ⟨fun h => by omega, fun h => ?_⟩
        exact absurd (hok.mpr (h can hpos).2) he

/-! ## Runs -/

theorem init_conserved {c2p p2n : RingBuffer AdcSample} (h : c2p.Fresh) (h' : p2n.Fresh)
    (allocated : Nat → Bool) : (System.init c2p p2n allocated).Conserved := by
  have hc : (ringBufferCount c2p).toNat = 0 := h.holds.count
  have hc' : (ringBufferCount p2n).toNat = 0 := h'.holds.count
  simp [System.Conserved, System.init, hc, hc', okSamples, SystemStats.zero]

/-- A run of the workers keeps every sample accounted for, in every state it
reaches, exactly when none of its steps loses samples. -/
theorem conserved_iff_lossless (c2p p2n : RingBuffer AdcSample) (h : c2p.Fresh) (h' : p2n.Fresh)
    (allocated : Nat → Bool) (ls : List WorkerStep) :
    Runs.AllStates System.step System.Conserved (System.init c2p p2n allocated) ls ↔
      Runs.AllSteps System.step lossless (System.init c2p p2n allocated) ls :=
  Runs.allStates_iff (I := System.Filled) (fun _ _ _ hf _ hs => step_filled hf hs)
    (fun _ l hf hc => step_conserved_iff hf hc l) ls ⟨[], [], h.holds, h'.holds⟩
    (init_conserved h h' allocated)

/-- The network worker connects, and `send` answers as given. -/
def connectingEnv (send : Nat → SendOutcome) : NetworkEnv :=
  { allocated := true, connect := { fd := 3, addressValid := true, accepted := true }, clock := 0
    send := send }

/-- One sample goes all the way to the network worker. -/
def oneSample (send : Nat → SendOutcome) : List WorkerStep :=
  [.sample default, .process, .network (connectingEnv send)]

/-- The OS takes the whole block: the sample is accounted for throughout. -/
theorem conserved_one_sample :
    Runs.AllStates System.step System.Conserved
      (System.init pipelineRing pipelineRing fun _ => true)
      (oneSample fun _ => .accepted 100) := by
  refine (conserved_iff_lossless _ _ pipelineRing_fresh pipelineRing_fresh _ _).mpr ?_
  refine ⟨trivial, ?_⟩
  rintro _ ⟨⟩
  refine ⟨trivial, ?_⟩
  rintro _ ⟨⟩
  refine ⟨fun _ _ => ⟨rfl, 1, fun _ _ => Nat.succ_pos _, by decide⟩, fun _ _ => trivial⟩

/-- `send` reports a timeout: the sample is gone and nothing counts it. -/
theorem sample_lost : ∃ s : System,
    Runs.run System.step (System.init pipelineRing pipelineRing fun _ => true)
      (oneSample fun _ => .wouldBlock) = some s ∧ ¬ s.Conserved ∧ s.offered = 1 ∧
      s.stats.droppedSamples = 0 :=
  ⟨_, rfl, by decide, rfl, rfl⟩

end FastRing

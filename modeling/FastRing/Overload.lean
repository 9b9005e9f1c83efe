import FastRing.SampleLoss
import FastRing.Lib.Backlog

/-! # When the rings are large enough

A ring drops samples when more arrive for a while than are taken out. The first ring takes every
sample exactly when no window of the run offers more samples than the ring has places and the
process worker's iterations of that window can move. The same bound on the iterations themselves
is enough for the second ring, as long as the network worker is connected, and then
`dropped_samples` stays zero. -/

namespace FastRing

variable {s t : System} {q q' : List AdcSample}

/-- The callback's sample is not refused. -/
def accepts (s : System) : WorkerStep → Prop
  | .sample x => (ringBufferPush s.captureToProcess x).1 = true
  | _ => True

/-- The second ring takes all that the process worker takes from the first. -/
def forwardsAll (s : System) : WorkerStep → Prop
  | .process =>
    let ((_, popped, samples), _) := ringBufferPopBatch s.captureToProcess 256
    (ringBufferPushBatch s.processToNetwork (Batch.ofList samples)).1.2 = popped
  | _ => True

/-- The network worker has a connection in its iterations. -/
def connects (s : System) : WorkerStep → Prop
  | .network env => canSend s.tcpClient env = true
  | _ => True

namespace WorkerStep

/-- The samples a step offers to the first ring. -/
def offers : WorkerStep → Nat
  | .sample _ => 1
  | _ => 0

/-- What the process worker's iteration can move. -/
def moves : WorkerStep → Nat
  | .process => 256
  | _ => 0

/-- What the network worker's iteration can send. -/
def sends : WorkerStep → Nat
  | .network _ => 256
  | _ => 0

end WorkerStep

/-! ## One step -/

theorem step_isSome (s : System) (l : WorkerStep) : ∃ t, s.step l = some t := by
  cases l <;> exact ⟨_, rfl⟩

theorem accepts_sample_iff (h : s.captureToProcess.Holds q) (x : AdcSample) :
    accepts s (.sample x) ↔ q.length + 1 ≤ s.captureToProcess.capacity.toNat - 1 := by
  rw [accepts, h.push_eq, Nat.add_one_le_iff]
  split
  · exact ⟨fun _ => ‹_›, fun _ => rfl⟩
  · exact ⟨nofun, fun hlt => absurd hlt ‹_›⟩

theorem forwardsAll_process_iff (h : s.captureToProcess.Holds q) (h' : s.processToNetwork.Holds q') :
    forwardsAll s .process ↔
      q'.length + min 256 q.length ≤ s.processToNetwork.capacity.toNat - 1 := by
  have hr' := h'.room
  obtain ⟨k, hk⟩ : ∃ k, k = min 256 q.length := ⟨_, rfl⟩
  have hlen : (q.take k).length = k := by rw [List.length_take]; omega
  have hword : (q.take k).length < 2 ^ 32 := by omega
  have hpush := h'.pushBatch_eq (Batch.ofList (q.take k))
    (k := min k (s.processToNetwork.capacity.toNat - 1 - q'.length))
    (by rw [Batch.ofList_count hword, hlen])
  simp only [forwardsAll, h.popBatch_eq 256 (k := k) hk, hpush]
  rw [← UInt32.toNat_inj, UInt32.toNat_ofNat', UInt32.toNat_ofNat', Nat.mod_eq_of_lt (by omega),
    Nat.mod_eq_of_lt (by omega)]
  omega

/-- The capacities stay, whatever a worker does. -/
theorem step_capacity {l : WorkerStep} (hf : s.Filled) (h : s.step l = some t) :
    t.captureToProcess.capacity = s.captureToProcess.capacity ∧
      t.processToNetwork.capacity = s.processToNetwork.capacity := by
  obtain ⟨q, q', hq, hq'⟩ := hf
  cases l with
  | sample x =>
    cases h
    rw [adcSampleCallback_eq hq]
    split <;> exact ⟨rfl, rfl⟩
  | process =>
    cases h
    rw [processThreadWorker_eq hq hq' rfl rfl]
    exact ⟨rfl, rfl⟩
  | network env =>
    cases h
    have hcase := networkThreadWorker_cases hq' env
    generalize networkThreadWorker s env = t at hcase
    cases hcase <;> exact ⟨rfl, rfl⟩

/-- The fill of the first ring, when the callback's sample finds room. -/
theorem step_first_count {l : WorkerStep} (hf : s.Filled) (h : s.step l = some t)
    (hroom : (ringBufferCount s.captureToProcess).toNat + l.offers ≤
      s.captureToProcess.capacity.toNat - 1) :
    (ringBufferCount t.captureToProcess).toNat =
      (ringBufferCount s.captureToProcess).toNat + l.offers - l.moves := by
  obtain ⟨q, q', hq, hq'⟩ := hf
  rw [hq.count] at hroom ⊢
  cases l with
  | sample x =>
    cases h
    have hlt : q.length < s.captureToProcess.capacity.toNat - 1 := hroom
    rw [adcSampleCallback_eq hq, if_pos hlt, (hq.accept [x] 0 (by simp; omega)).count]
    simp [WorkerStep.offers, WorkerStep.moves]
  | process =>
    cases h
    rw [processThreadWorker_eq hq hq' rfl rfl, (hq.release (Nat.min_le_right _ _)).count,
      List.length_drop]
    simp only [WorkerStep.offers, WorkerStep.moves]
    omega
  | network env =>
    cases h
    have hcase := networkThreadWorker_cases hq' env
    generalize networkThreadWorker s env = t at hcase
    cases hcase <;> exact hq.count

/-- The fill of the second ring, with a connection. -/
theorem step_second_count {l : WorkerStep} (hf : s.Filled) (hcan : connects s l)
    (h : s.step l = some t) :
    (ringBufferCount t.processToNetwork).toNat ≤
      (ringBufferCount s.processToNetwork).toNat + l.moves - l.sends := by
  obtain ⟨q, q', hq, hq'⟩ := hf
  have hr' := hq'.room
  rw [hq'.count]
  cases l with
  | sample x =>
    cases h
    have hsame : (adcSampleCallback s x).processToNetwork = s.processToNetwork := rfl
    rw [hsame, hq'.count]
    exact Nat.le_add_right _ _
  | process =>
    cases h
    have hfits : q'.length + (q.take (min (min 256 q.length)
        (s.processToNetwork.capacity.toNat - 1 - q'.length))).length <
        s.processToNetwork.capacity.toNat := by
      rw [List.length_take]
      omega
    rw [processThreadWorker_eq hq hq' rfl rfl, (hq'.accept _ _ hfits).count, List.length_append,
      List.length_take]
    simp only [WorkerStep.moves, WorkerStep.sends]
    omega
  | network env =>
    cases h
    have hleft : (q'.drop (min 256 q'.length)).length = q'.length - 256 := by
      rw [List.length_drop]
      omega
    have hcase := networkThreadWorker_cases hq' env
    generalize networkThreadWorker s env = t at hcase
    cases hcase with
    | noClient none => exact absurd (none.symm.trans hcan) Bool.false_ne_true
    | refused none => exact absurd (none.symm.trans hcan) Bool.false_ne_true
    | empty can ready nil =>
      rw [hq'.count, nil]
      exact Nat.zero_le _
    | noBlock can ready ne missing =>
      rw [(hq'.release (Nat.min_le_right _ _)).count, hleft]
      exact Nat.le_refl _
    | sent can ready ne present =>
      rw [(hq'.release (Nat.min_le_right _ _)).count, hleft]
      exact Nat.le_refl _

/-- From a state in which nothing was dropped yet, exactly the steps that drop nothing lead to
such a state. -/
theorem step_undropped_iff (hf : s.Filled) (h0 : s.stats.droppedSamples = 0) (l : WorkerStep) :
    (∀ t, s.step l = some t → t.stats.droppedSamples = 0) ↔ accepts s l ∧ forwardsAll s l := by
  obtain ⟨q, q', hq, hq'⟩ := hf
  have hr' := hq'.room
  cases l with
  | sample x =>
    simp only [System.step, Option.some.injEq, forall_eq', accepts_sample_iff hq, forwardsAll,
      and_true]
    rw [adcSampleCallback_eq hq, Nat.add_one_le_iff]
    split
    · exact ⟨fun _ => ‹_›, fun _ => h0⟩
    · refine ⟨fun h => ?_, fun h => absurd h ‹_›⟩
      rw [SystemStats.countPush_dropped, h0] at h
      cases h
  | process =>
    simp only [System.step, Option.some.injEq, forall_eq', forwardsAll_process_iff hq hq', accepts,
      true_and]
    rw [processThreadWorker_eq hq hq' rfl rfl]
    simp only [h0, UInt64.zero_add]
    rw [← UInt64.toNat_inj, UInt64.toNat_ofNat', UInt64.toNat_zero, Nat.mod_eq_of_lt (by omega)]
    omega
  | network env =>
    refine ⟨fun _ => ⟨trivial, trivial⟩, fun _ t ht => ?_⟩
    cases ht
    have hcase := networkThreadWorker_cases hq' env
    generalize networkThreadWorker s env = t at hcase
    cases hcase with
    | noClient | refused | empty | noBlock => exact h0
    | sent => rw [SystemStats.countSend_dropped]; exact h0

/-! ## Runs -/

/-- What the capacities of the rings add to `Filled`. -/
structure Sized (n₁ n₂ : Nat) (s : System) : Prop where
  filled : s.Filled
  first : s.captureToProcess.capacity.toNat = n₁
  second : s.processToNetwork.capacity.toNat = n₂

theorem Sized.step {n₁ n₂ : Nat} {l : WorkerStep} (h : Sized n₁ n₂ s) (hs : s.step l = some t) :
    Sized n₁ n₂ t := by
  obtain ⟨hc, hc'⟩ := step_capacity h.filled hs
  exact ⟨step_filled h.filled hs, hc ▸ h.first, hc' ▸ h.second⟩

theorem Sized.accepts_iff {n₁ n₂ : Nat} (h : Sized n₁ n₂ s) (l : WorkerStep) :
    accepts s l ↔ (ringBufferCount s.captureToProcess).toNat + l.offers ≤ n₁ - 1 := by
  obtain ⟨⟨q, q', hq, hq'⟩, rfl, _⟩ := h
  have hr := hq.room
  rw [hq.count]
  cases l with
  | sample x => exact accepts_sample_iff hq x
  | process | network => exact ⟨fun _ => Nat.le_sub_one_of_lt hr, fun _ => trivial⟩

theorem Sized.forwardsAll {n₁ n₂ : Nat} (h : Sized n₁ n₂ s) (l : WorkerStep)
    (hroom : (ringBufferCount s.processToNetwork).toNat + l.moves ≤ n₂ - 1) : forwardsAll s l := by
  obtain ⟨⟨q, q', hq, hq'⟩, _, rfl⟩ := h
  rw [hq'.count] at hroom
  cases l with
  | process =>
    rw [forwardsAll_process_iff hq hq']
    simp only [WorkerStep.moves] at hroom
    omega
  | sample | network => trivial

section Runs

variable (c2p p2n : RingBuffer AdcSample) (h : c2p.Fresh) (h' : p2n.Fresh) (allocated : Nat → Bool)
  (ls : List WorkerStep)

include h h' in
theorem sized_init : Sized c2p.capacity.toNat p2n.capacity.toNat (System.init c2p p2n allocated) :=
  ⟨⟨[], [], h.holds, h'.holds⟩, rfl, rfl⟩

include h h' in
theorem accepts_iff_fits :
    Runs.AllSteps System.step accepts (System.init c2p p2n allocated) ls ↔
      Backlog.Fits WorkerStep.offers WorkerStep.moves (c2p.capacity.toNat - 1) 0 ls := by
  have hzero : (ringBufferCount c2p).toNat = 0 := h.holds.count
  rw [← hzero]
  refine Backlog.allSteps_iff_fits (fun s => (ringBufferCount s.captureToProcess).toNat)
    (I := Sized c2p.capacity.toNat p2n.capacity.toNat) (fun s l t hi ht => hi.step ht)
    (fun s l _ => step_isSome s l) (fun s l hi => hi.accepts_iff l) ?_ (sized_init c2p p2n h h' allocated)
  intro s l t hi ht hroom
  exact step_first_count hi.filled ht (hi.first.symm ▸ hroom)

include h h' in
theorem forwardsAll_of_fits
    (hcan : Runs.AllSteps System.step connects (System.init c2p p2n allocated) ls)
    (hfits : Backlog.Fits WorkerStep.moves WorkerStep.sends (p2n.capacity.toNat - 1) 0 ls) :
    Runs.AllSteps System.step forwardsAll (System.init c2p p2n allocated) ls := by
  have hzero : (ringBufferCount p2n).toNat = 0 := h'.holds.count
  refine Backlog.allSteps_of_fits (fun s => (ringBufferCount s.processToNetwork).toNat) connects
    (I := Sized c2p.capacity.toNat p2n.capacity.toNat)
    (fun s l t hi ht => hi.step ht) (fun s l hi hroom => hi.forwardsAll l hroom) ?_
    (sized_init c2p p2n h h' allocated) (Nat.le_of_eq hzero) hcan hfits
  intro s l t hi hside ht _
  exact step_second_count hi.filled hside ht

end Runs

/-- Every sample offered in a run is taken exactly when no window of the run offers more of them
than the first ring has places and the process worker can move in it. -/
theorem samples_taken_iff_windows (c2p p2n : RingBuffer AdcSample) (h : c2p.Fresh) (h' : p2n.Fresh)
    (allocated : Nat → Bool) (ls : List WorkerStep) :
    Runs.AllSteps System.step accepts (System.init c2p p2n allocated) ls ↔
      ∀ w x, w ++ [.sample x] <:+: ls →
        Backlog.total WorkerStep.offers w + 1 ≤
          c2p.capacity.toNat - 1 + Backlog.total WorkerStep.moves w := by
  rw [accepts_iff_fits c2p p2n h h', Backlog.fits_zero_iff]
  constructor
  · intro hw w x hx
    simpa [WorkerStep.offers] using hw w (.sample x) hx
  · intro hw
    refine Backlog.windows_of_arrivals fun w l hl hpos => ?_
    cases l with
    | sample x => simpa [WorkerStep.offers] using hw w x hl
    | process | network => cases hpos

/-- A ring with three places. -/
def burstRing : RingBuffer AdcSample :=
  { head := 0, tail := 0, capacity := 4, mask := 3, buffer := fun _ => default, dropped := 0 }

theorem burstRing_fresh : burstRing.Fresh :=
  ⟨⟨⟨2, by decide, by decide, by decide⟩, by decide, by decide, by decide⟩, rfl, rfl, rfl⟩

/-- A sample with the number `k`. -/
def numbered (k : UInt32) : AdcSample := { (default : AdcSample) with sequence := k }

/-- Three samples, and an iteration of the process worker. -/
def burst (k : UInt32) : List WorkerStep :=
  [.sample (numbered k), .sample (numbered (k + 1)), .sample (numbered (k + 2)), .process]

/-- Bursts of three samples fit a ring with three places; with one more sample before it, a burst
does not. -/
theorem samples_taken_bursts :
    Runs.AllSteps System.step accepts (System.init burstRing pipelineRing fun _ => true)
        (burst 0 ++ burst 3 ++ burst 6) ∧
      ¬ Runs.AllSteps System.step accepts (System.init burstRing pipelineRing fun _ => true)
        (burst 0 ++ .sample (numbered 3) :: burst 4) := by
  have hiff := samples_taken_iff_windows burstRing pipelineRing burstRing_fresh pipelineRing_fresh
    fun _ => true
  constructor
  · refine (hiff _).mpr fun w x hw => ?_
    have hwin : Backlog.Windows WorkerStep.offers WorkerStep.moves (burstRing.capacity.toNat - 1)
        (burst 0 ++ burst 3 ++ burst 6) := by decide
    simpa [WorkerStep.offers] using hwin w (.sample x) hw
  · intro h
    have hin : [WorkerStep.sample (numbered 3), .sample (numbered 4), .sample (numbered 5)] ++
        [.sample (numbered 6)] <:+: burst 0 ++ .sample (numbered 3) :: burst 4 :=
      ⟨burst 0, [.process], rfl⟩
    exact absurd ((hiff _).mp h _ _ hin) (by decide)

/-- Nothing is dropped in a run whose windows fit the rings and in which the network worker is
connected. -/
theorem undropped_of_windows (c2p p2n : RingBuffer AdcSample) (h : c2p.Fresh) (h' : p2n.Fresh)
    (allocated : Nat → Bool) (ls : List WorkerStep)
    (hoffered : Backlog.Windows WorkerStep.offers WorkerStep.moves (c2p.capacity.toNat - 1) ls)
    (hmoved : Backlog.Windows WorkerStep.moves WorkerStep.sends (p2n.capacity.toNat - 1) ls)
    (hcan : Runs.AllSteps System.step connects (System.init c2p p2n allocated) ls) :
    Runs.AllStates System.step (fun s => s.stats.droppedSamples = 0)
      (System.init c2p p2n allocated) ls := by
  have haccepts := (accepts_iff_fits c2p p2n h h' allocated ls).mpr
    ((Backlog.fits_zero_iff ls).mpr hoffered)
  have hforwards := forwardsAll_of_fits c2p p2n h h' allocated ls hcan
    ((Backlog.fits_zero_iff ls).mpr hmoved)
  have hstart : (System.init c2p p2n allocated).stats.droppedSamples = 0 := rfl
  have hiff := Runs.allStates_iff (I := System.Filled) (P := fun s => s.stats.droppedSamples = 0)
    (fun s l t hf _ ht => step_filled hf ht) (fun s l hf h0 => step_undropped_iff hf h0 l) ls
    (sized_init c2p p2n h h' allocated).filled hstart
  exact hiff.mpr (haccepts.and hforwards)

/-- A ring with places for three iterations of the process worker. -/
def blocksRing : RingBuffer AdcSample :=
  { head := 0, tail := 0, capacity := 1024, mask := 1023, buffer := fun _ => default, dropped := 0 }

theorem blocksRing_fresh : blocksRing.Fresh :=
  ⟨⟨⟨10, by decide, by decide, by decide⟩, by decide, by decide, by decide⟩, rfl, rfl, rfl⟩

/-- The network worker sends after three bursts, and again after one more. -/
def burstsRun : List WorkerStep :=
  burst 0 ++ burst 3 ++ burst 6 ++ .network (connectingEnv fun _ => .accepted 100) ::
    (burst 9 ++ [.network (connectingEnv fun _ => .accepted 100)])

theorem undropped_bursts :
    Runs.AllStates System.step (fun s => s.stats.droppedSamples = 0)
      (System.init burstRing blocksRing fun _ => true) burstsRun := by
  refine undropped_of_windows _ _ burstRing_fresh blocksRing_fresh _ _ (by decide) (by decide) ?_
  refine Runs.allSteps_of_labels fun l hl s => ?_
  cases l with
  | sample | process => trivial
  | network env =>
    obtain rfl : env = connectingEnv fun _ => .accepted 100 := by
      simpa [burstsRun, burst] using hl
    show canSend s.tcpClient _ = true
    unfold canSend
    split
    · exact Bool.or_true _
    · rfl

end FastRing

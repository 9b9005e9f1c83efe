import FastRing.Overload

/-! # While the server is out of reach

Without a connection the network worker takes nothing out of the second ring. The rings refuse what
comes last, so the samples that wait for the server are the oldest ones: the second ring keeps the
beginning of all that was ever moved towards it, and behind the gap the first ring goes on with the
samples it took. Everything in between is counted as dropped. -/

namespace FastRing

variable {s t u : System} {q q' q₁ : List AdcSample}

/-- The network worker gets no connection. -/
def disconnected (s : System) : WorkerStep → Prop
  | .network env => canSend s.tcpClient env = false
  | _ => True

instance : (s : System) → (l : WorkerStep) → Decidable (disconnected s l)
  | s, .network env => inferInstanceAs (Decidable (canSend s.tcpClient env = false))
  | _, .sample _ | _, .process => isTrue trivial

/-- The samples of a run that the first ring took. -/
def admitted : System → List WorkerStep → List AdcSample
  | _, [] => []
  | s, .sample x :: ls =>
    (if (ringBufferPush s.captureToProcess x).1 then [x] else []) ++ admitted (adcSampleCallback s x) ls
  | s, .process :: ls => admitted (processThreadWorker s) ls
  | s, .network env :: ls => admitted (networkThreadWorker s env) ls

/-- From `s`, where the rings hold `q` and `q'`, to `u`: of the samples `xs` that the first ring
took, it still holds the last ones, the others were `moved`. `refused` more were offered to it. -/
structure Retains (s u : System) (q q' xs moved rest : List AdcSample) (refused : Nat) : Prop where
  capacity : u.processToNetwork.capacity = s.processToNetwork.capacity
  first : u.captureToProcess.Holds rest
  second : u.processToNetwork.Holds
    ((q' ++ moved).take (s.processToNetwork.capacity.toNat - 1))
  order : q ++ xs = moved ++ rest
  dropped : u.stats.droppedSamples = s.stats.droppedSamples +
    UInt64.ofNat (refused + ((q' ++ moved).length - (s.processToNetwork.capacity.toNat - 1)))
  handed : u.handed = s.handed

theorem take_take_append {α : Type} (xs ys : List α) (n : Nat) :
    (xs.take n ++ ys).take n = (xs ++ ys).take n := by
  rw [List.take_append, List.take_append, List.take_take, Nat.min_self, List.length_take]
  congr 2
  omega

/-- Nothing happened yet. -/
theorem Retains.refl (h : s.captureToProcess.Holds q) (h' : s.processToNetwork.Holds q') :
    Retains s s q q' [] [] q 0 := by
  have hr' := h'.room
  have hnone : q'.length - (s.processToNetwork.capacity.toNat - 1) = 0 := by omega
  refine ⟨rfl, h, ?_, List.append_nil q, ?_, rfl⟩
  · rw [List.append_nil, List.take_of_length_le (by omega)]
    exact h'
  · simp [hnone]

/-- Two stretches without a connection are one. -/
theorem Retains.trans {xs xs' moved moved' rest rest' : List AdcSample} {n n' : Nat}
    (h : Retains s t q q' xs moved rest n)
    (h' : Retains t u rest ((q' ++ moved).take (s.processToNetwork.capacity.toNat - 1))
      xs' moved' rest' n') :
    Retains s u q q' (xs ++ xs') (moved ++ moved') rest' (n + n') := by
  have hcap := h.capacity
  refine ⟨h'.capacity.trans hcap, h'.first, ?_, ?_, ?_, h'.handed.trans h.handed⟩
  · have hsecond := h'.second
    rw [hcap, take_take_append, List.append_assoc] at hsecond
    exact hsecond
  · rw [← List.append_assoc, h.order, List.append_assoc, h'.order, List.append_assoc]
  · rw [h'.dropped, h.dropped, hcap, UInt64.add_assoc, ← UInt64.ofNat_add]
    simp only [List.length_append, List.length_take]
    congr 2
    omega

/-! ## One step -/

theorem adcSampleCallback_retains (h : s.captureToProcess.Holds q) (h' : s.processToNetwork.Holds q')
    (x : AdcSample) :
    ∃ rest xs, (if (ringBufferPush s.captureToProcess x).1 then [x] else []) = xs ∧
      Retains s (adcSampleCallback s x) q q' xs [] rest (1 - xs.length) := by
  have hr := h.room
  have hr' := h'.room
  have hkeep := Retains.refl h h'
  rw [adcSampleCallback_eq h, h.push_eq]
  by_cases hlt : q.length < s.captureToProcess.capacity.toNat - 1
  · rw [if_pos hlt, if_pos hlt]
    exact ⟨q ++ [x], [x], rfl, rfl, h.accept [x] 0 (by simp; omega), hkeep.second, rfl,
      hkeep.dropped, rfl⟩
  · rw [if_neg hlt, if_neg hlt]
    refine ⟨q, [], rfl, rfl, ?_, hkeep.second, List.append_nil q, ?_, rfl⟩
    · have := h.accept [] 1 (by simpa using hr)
      rwa [List.append_nil] at this
    · have hnone : q'.length - (s.processToNetwork.capacity.toNat - 1) = 0 := by omega
      simp [SystemStats.countPush_dropped, hnone]

theorem processThreadWorker_retains (h : s.captureToProcess.Holds q)
    (h' : s.processToNetwork.Holds q') :
    ∃ moved rest, Retains s (processThreadWorker s) q q' [] moved rest 0 := by
  have hr' := h'.room
  obtain ⟨k, hk⟩ : ∃ k, k = min 256 q.length := ⟨_, rfl⟩
  obtain ⟨j, hj⟩ : ∃ j, j = min k (s.processToNetwork.capacity.toNat - 1 - q'.length) := ⟨_, rfl⟩
  have hlen : (q.take k).length = k := by rw [List.length_take]; omega
  have hlenj : (q.take j).length = j := by rw [List.length_take]; omega
  -- the forwarded samples are those that still fit behind `q'`
  have hfit : (q' ++ q.take k).take (s.processToNetwork.capacity.toNat - 1) = q' ++ q.take j := by
    rw [List.take_append, List.take_of_length_le (by omega), List.take_take, hj, Nat.min_comm]
  rw [processThreadWorker_eq h h' hk hj]
  refine ⟨q.take k, q.drop k, rfl, h.release (by omega), ?_, ?_, ?_, rfl⟩
  · rw [hfit]
    exact h'.accept _ _ (by omega)
  · rw [List.append_nil, List.take_append_drop]
  · have hlost : k - j = 0 + ((q' ++ q.take k).length - (s.processToNetwork.capacity.toNat - 1)) := by
      rw [List.length_append, hlen]
      omega
    rw [hlost]

theorem networkThreadWorker_retains (h : s.captureToProcess.Holds q)
    (h' : s.processToNetwork.Holds q') {env : NetworkEnv} (hout : disconnected s (.network env)) :
    Retains s (networkThreadWorker s env) q q' [] [] q 0 := by
  have hkeep := Retains.refl h h'
  have hcase := networkThreadWorker_cases h' env
  generalize networkThreadWorker s env = t at hcase
  cases hcase with
  | noClient none => exact hkeep
  | refused none => exact ⟨rfl, hkeep.first, hkeep.second, hkeep.order, hkeep.dropped, rfl⟩
  | empty can => exact absurd (can.symm.trans hout) Bool.false_ne_true.symm
  | noBlock can => exact absurd (can.symm.trans hout) Bool.false_ne_true.symm
  | sent can => exact absurd (can.symm.trans hout) Bool.false_ne_true.symm

/-! ## Runs -/

theorem admitted_length_le (s : System) (ls : List WorkerStep) :
    (admitted s ls).length ≤ Backlog.total WorkerStep.offers ls := by
  induction ls generalizing s with
  | nil => exact Nat.le_refl 0
  | cons l ls ih =>
    cases l with
    | sample x =>
      rw [admitted, List.length_append, Backlog.total_cons]
      refine Nat.add_le_add ?_ (ih _)
      split <;> simp [WorkerStep.offers]
    | process | network => simpa [admitted, WorkerStep.offers] using ih _

/-- Without a connection the second ring keeps the oldest of the samples moved towards it, and the
first ring the newest of those it took. What lies between is counted, with those refused. -/
theorem outage_keeps_oldest (h : s.captureToProcess.Holds q) (h' : s.processToNetwork.Holds q')
    (ls : List WorkerStep) (hout : Runs.AllSteps System.step disconnected s ls)
    (hrun : Runs.run System.step s ls = some u) :
    ∃ moved rest, Retains s u q q' (admitted s ls) moved rest
      (Backlog.total WorkerStep.offers ls - (admitted s ls).length) := by
  induction ls generalizing s q q' with
  | nil =>
    cases hrun
    exact ⟨[], q, .refl h h'⟩
  | cons l ls ih =>
    obtain ⟨t, hs, ht⟩ := Runs.run_cons hrun
    have hrest := hout.2 t hs
    cases l with
    | sample x =>
      cases hs
      obtain ⟨rest, xs, hxs, hstep⟩ := adcSampleCallback_retains h h' x
      obtain ⟨moved, rest', htail⟩ := ih hstep.first hstep.second hrest ht
      have hone : xs.length ≤ 1 := by rw [← hxs]; split <;> simp
      have hle := admitted_length_le (adcSampleCallback s x) ls
      have hcount : 1 + Backlog.total WorkerStep.offers ls -
          (xs.length + (admitted (adcSampleCallback s x) ls).length) =
          (1 - xs.length) + (Backlog.total WorkerStep.offers ls -
            (admitted (adcSampleCallback s x) ls).length) := by omega
      refine ⟨moved, rest', ?_⟩
      rw [admitted, hxs, Backlog.total_cons, List.length_append, WorkerStep.offers, hcount]
      exact hstep.trans htail
    | process =>
      cases hs
      obtain ⟨moved, rest, hstep⟩ := processThreadWorker_retains h h'
      obtain ⟨moved', rest', htail⟩ := ih hstep.first hstep.second hrest ht
      refine ⟨moved ++ moved', rest', ?_⟩
      simpa [admitted, WorkerStep.offers] using hstep.trans htail
    | network env =>
      cases hs
      have hstep := networkThreadWorker_retains h h' hout.1
      obtain ⟨moved, rest, htail⟩ := ih hstep.first hstep.second hrest ht
      refine ⟨moved, rest, ?_⟩
      simpa [admitted, WorkerStep.offers] using hstep.trans htail

/-- The server refuses the connection. -/
def refusedEnv : NetworkEnv :=
  { connectingEnv (fun _ => .wouldBlock) with
    connect := { fd := 3, addressValid := true, accepted := false } }

/-- The samples of two bursts are moved, the second one too many for the second ring; of four more
the first ring takes three. -/
def outageRun : List WorkerStep :=
  burst 0 ++ .network refusedEnv :: burst 3 ++ [.sample (numbered 6), .sample (numbered 7),
    .sample (numbered 8), .sample (numbered 9), .network refusedEnv]

theorem outage_keeps_oldest_bursts : ∃ u moved rest,
    Runs.run System.step (System.init burstRing burstRing fun _ => true) outageRun = some u ∧
    Retains (System.init burstRing burstRing fun _ => true) u [] []
      ([0, 1, 2, 3, 4, 5, 6, 7, 8].map numbered) moved rest 1 ∧ u.stats.droppedSamples = 4 := by
  obtain ⟨u, hu, hdropped⟩ : ∃ u, Runs.run System.step
      (System.init burstRing burstRing fun _ => true) outageRun = some u ∧
        u.stats.droppedSamples = 4 := ⟨_, rfl, rfl⟩
  have hout : Runs.AllSteps System.step disconnected
      (System.init burstRing burstRing fun _ => true) outageRun := by decide
  obtain ⟨moved, rest, h⟩ := outage_keeps_oldest burstRing_fresh.holds burstRing_fresh.holds
    _ hout hu
  exact ⟨u, moved, rest, hu, h, hdropped⟩

end FastRing

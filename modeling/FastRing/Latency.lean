import FastRing.EndToEnd
import FastRing.Outage
import FastRing.Lib.Tandem

/-! # How long a sample stays in the rings

The two rings with their workers are two queues in a row, as long as the second ring takes all that
the process worker moves and the network worker is connected and finds its block. So the samples in
the rings are handed over to the client, in their order and before any later one, within as many
iterations of the process worker as move what the first ring holds, and then as many of the network
worker as empty the second one: 64 of each for the rings of the program. -/

namespace FastRing

open Tandem (Event)

variable {s t u : System} {q q' : List AdcSample}

/-- The samples given to `tcp_client_send_data_block`. -/
def handedSamples (s : System) : List AdcSample := s.handed.flatMap fun p => p.1.samples

/-- The network worker finds a block in the pool. -/
def findsBlock (s : System) : WorkerStep → Prop
  | .network _ => (getBlockFromPool s.pool).1 = true
  | _ => True

/-- Nothing is lost and nothing has to wait for a connection. -/
def flowsOn (s : System) (l : WorkerStep) : Prop := forwardsAll s l ∧ connects s l ∧ findsBlock s l

/-- The rings hold the two queues. -/
structure Queues (s : System) (a : Tandem.State AdcSample) : Prop where
  first : s.captureToProcess.Holds a.first
  second : s.processToNetwork.Holds a.second
  out : handedSamples s = a.out

/-- The event of a step: a sample arrives if the first ring takes it. -/
def eventOf (s : System) : WorkerStep → Event AdcSample
  | .sample x => .arrive (if (ringBufferPush s.captureToProcess x).1 then [x] else [])
  | .process => .move 256
  | .network _ => .serve 256

theorem eventOf_moves (s : System) (l : WorkerStep) : (eventOf s l).moves = l.moves := by
  cases l <;> rfl

theorem eventOf_serves (s : System) (l : WorkerStep) : (eventOf s l).serves = l.sends := by
  cases l <;> rfl

/-! ## One step -/

theorem adcSampleCallback_queues {a : Tandem.State AdcSample} (h : Queues s a) (x : AdcSample) :
    Queues (adcSampleCallback s x) (a.step (eventOf s (.sample x))) := by
  have hroom := h.first.room
  simp only [eventOf, Tandem.State.step, h.first.push_eq]
  rw [adcSampleCallback_eq h.first]
  by_cases hlt : a.first.length < s.captureToProcess.capacity.toNat - 1
  · rw [if_pos hlt]
    simp only [hlt, if_true]
    exact ⟨h.first.accept [x] 0 (by simp; omega), h.second, h.out⟩
  · rw [if_neg hlt]
    simp only [hlt, if_false]
    exact ⟨h.first.accept [] 1 (by simpa using hroom), h.second, h.out⟩

theorem processThreadWorker_queues {a : Tandem.State AdcSample} (h : Queues s a)
    (hall : forwardsAll s .process) : Queues (processThreadWorker s) (a.step (.move 256)) := by
  have hfits := (forwardsAll_process_iff h.first h.second).mp hall
  have hroom := h.second.room
  have hj : min 256 a.first.length = min (min 256 a.first.length)
      (s.processToNetwork.capacity.toNat - 1 - a.second.length) := by omega
  rw [processThreadWorker_eq h.first h.second rfl hj]
  refine ⟨?_, ?_, h.out⟩
  · have := h.first.release (Nat.min_le_right 256 _)
    rwa [← List.drop_eq_drop_min] at this
  · rw [← List.take_eq_take_min]
    exact h.second.accept _ _ (by rw [List.length_take]; omega)

theorem networkThreadWorker_queues {a : Tandem.State AdcSample} (h : Queues s a) {env : NetworkEnv}
    (hcan : connects s (.network env)) (hblock : findsBlock s (.network env)) :
    Queues (networkThreadWorker s env) (a.step (.serve 256)) := by
  have hrest := h.second.release (Nat.min_le_right 256 _)
  rw [← List.drop_eq_drop_min] at hrest
  have hcase := networkThreadWorker_cases h.second env
  generalize networkThreadWorker s env = t at hcase
  cases hcase with
  | noClient none => exact absurd (none.symm.trans hcan) Bool.false_ne_true
  | refused none => exact absurd (none.symm.trans hcan) Bool.false_ne_true
  | empty can ready nil =>
    refine ⟨h.first, ?_, ?_⟩
    · simp only [Tandem.State.step, nil, List.drop_nil]
      exact nil ▸ h.second
    · simp only [Tandem.State.step, nil, List.take_nil, List.append_nil]
      exact h.out
  | noBlock can ready ne missing => exact absurd (missing.symm.trans hblock) Bool.false_ne_true
  | sent can ready ne present hb =>
    refine ⟨h.first, hrest, ?_⟩
    simp only [handedSamples, List.flatMap_append, List.flatMap_singleton, hb, fillBlock]
    exact congrArg (· ++ a.second.take 256) h.out

theorem step_queues {a : Tandem.State AdcSample} {l : WorkerStep} (h : Queues s a)
    (hflow : flowsOn s l) (hs : s.step l = some t) : Queues t (a.step (eventOf s l)) := by
  cases l with
  | sample x =>
    cases hs
    exact adcSampleCallback_queues h x
  | process =>
    cases hs
    exact processThreadWorker_queues h hflow.1
  | network env =>
    cases hs
    exact networkThreadWorker_queues h hflow.2.1 hflow.2.2

/-! ## Runs -/

/-- The workers do what the two queues do. -/
theorem run_queues {a : Tandem.State AdcSample} (h : Queues s a) {ls : List WorkerStep}
    (hflow : Runs.AllSteps System.step flowsOn s ls) (hrun : Runs.run System.step s ls = some t) :
    ∃ es : List (Event AdcSample), Queues t (a.run es) ∧
      (es.map Event.moves).sum = Backlog.total WorkerStep.moves ls ∧
      (es.map Event.serves).sum = Backlog.total WorkerStep.sends ls ∧
      es.flatMap Event.arrivals = admitted s ls := by
  induction ls generalizing s a with
  | nil =>
    cases hrun
    exact ⟨[], h, rfl, rfl, rfl⟩
  | cons l ls ih =>
    obtain ⟨u, hs, hu⟩ := Runs.run_cons hrun
    obtain ⟨es, hq, hm, hsv, harr⟩ := ih (step_queues h hflow.1 hs) (hflow.2 u hs) hu
    refine ⟨eventOf s l :: es, hq, ?_, ?_, ?_⟩
    · rw [List.map_cons, List.sum_cons, hm, eventOf_moves, Backlog.total_cons]
    · rw [List.map_cons, List.sum_cons, hsv, eventOf_serves, Backlog.total_cons]
    · rw [List.flatMap_cons, harr]
      cases l with
      | sample x => cases hs; rfl
      | process => cases hs; rfl
      | network env => cases hs; rfl

/-- Once the process worker's iterations could move all that the first ring held, and after that the
network worker's could send all that the second ring then holds, everything is handed over. -/
theorem Queues.flushed {a : Tandem.State AdcSample} (h : Queues s a) {ls ls' : List WorkerStep}
    (hflow : Runs.AllSteps System.step flowsOn s ls)
    (hflow' : Runs.AllSteps System.step flowsOn u ls') (hrun : Runs.run System.step s ls = some u)
    (hrun' : Runs.run System.step u ls' = some t)
    (hmoves : a.first.length ≤ Backlog.total WorkerStep.moves ls)
    (hsends : ∀ q, u.processToNetwork.Holds q → q.length ≤ Backlog.total WorkerStep.sends ls') :
    a.all <+: handedSamples t ∧
      handedSamples t <+: a.all ++ (admitted s ls ++ admitted u ls') := by
  obtain ⟨es, hu, hm, _, harr⟩ := run_queues h hflow hrun
  obtain ⟨es', ht, _, hs, harr'⟩ := run_queues hu hflow' hrun'
  obtain ⟨hall, hno⟩ := a.flushed (hm ▸ hmoves) (hs ▸ hsends _ hu.second)
  rw [Tandem.State.run_append, ← ht.out] at hall hno
  rw [List.flatMap_append, harr, harr'] at hno
  exact ⟨hall, hno⟩

/-- The samples in the rings are handed over in their order, and before any later one, when the
process worker's iterations have moved as many as the first ring held, and after that the network
worker's have sent as many as the second ring can hold. -/
theorem handed_within (h : s.captureToProcess.Holds q) (h' : s.processToNetwork.Holds q')
    (ls ls' : List WorkerStep) (hflow : Runs.AllSteps System.step flowsOn s ls)
    (hflow' : Runs.AllSteps System.step flowsOn u ls') (hrun : Runs.run System.step s ls = some u)
    (hrun' : Runs.run System.step u ls' = some t)
    (hmoves : q.length ≤ Backlog.total WorkerStep.moves ls)
    (hsends : u.processToNetwork.capacity.toNat - 1 ≤ Backlog.total WorkerStep.sends ls') :
    handedSamples s ++ (q' ++ q) <+: handedSamples t ∧
      handedSamples t <+: handedSamples s ++ (q' ++ q) ++ (admitted s ls ++ admitted u ls') := by
  have hqueues : Queues s { first := q, second := q', out := handedSamples s } := ⟨h, h', rfl⟩
  refine hqueues.flushed hflow hflow' hrun hrun' hmoves fun q₁ hq₁ => ?_
  have hroom := hq₁.room
  omega

/-! ## The rings of the program -/

def WorkerStep.isProcess : WorkerStep → Bool
  | .process => true
  | _ => false

def WorkerStep.isNetwork : WorkerStep → Bool
  | .network _ => true
  | _ => false

theorem total_moves (ls : List WorkerStep) :
    Backlog.total WorkerStep.moves ls = 256 * ls.countP WorkerStep.isProcess :=
  Backlog.total_eq_countP (fun l => by cases l <;> rfl) ls

theorem total_sends (ls : List WorkerStep) :
    Backlog.total WorkerStep.sends ls = 256 * ls.countP WorkerStep.isNetwork :=
  Backlog.total_eq_countP (fun l => by cases l <;> rfl) ls

/-- With rings of `ringBufferSize` it takes 64 iterations of the process worker, and then 64 of the
network worker. -/
theorem handed_within_64 (h : s.captureToProcess.Holds q) (h' : s.processToNetwork.Holds q')
    (hcap : s.captureToProcess.capacity = ringBufferSize)
    (hcap' : s.processToNetwork.capacity = ringBufferSize) {ls ls' : List WorkerStep}
    (hflow : Runs.AllSteps System.step flowsOn s ls)
    (hflow' : Runs.AllSteps System.step flowsOn u ls') (hrun : Runs.run System.step s ls = some u)
    (hrun' : Runs.run System.step u ls' = some t) (hprocess : 64 ≤ ls.countP WorkerStep.isProcess)
    (hnetwork : 64 ≤ ls'.countP WorkerStep.isNetwork) :
    handedSamples s ++ (q' ++ q) <+: handedSamples t ∧
      handedSamples t <+: handedSamples s ++ (q' ++ q) ++ (admitted s ls ++ admitted u ls') := by
  have hsize : ringBufferSize.toNat = 64 * 256 := rfl
  have hqueues : Queues s { first := q, second := q', out := handedSamples s } := ⟨h, h', rfl⟩
  have hsized : Sized ringBufferSize.toNat ringBufferSize.toNat u :=
    Runs.invariant (fun _ _ _ hi hs => hi.step hs)
      ⟨⟨q, q', h, h'⟩, congrArg UInt32.toNat hcap, congrArg UInt32.toNat hcap'⟩ hrun
  refine hqueues.flushed hflow hflow' hrun hrun' ?_ fun q₁ hq₁ => ?_
  · have hroom := h.room
    rw [hcap] at hroom
    rw [total_moves]
    show q.length ≤ _
    omega
  · have hroom := hq₁.room
    rw [hsized.second] at hroom
    rw [total_sends]
    omega

/-- A sample was just taken by a ring with one place. -/
def oneTaken : System :=
  adcSampleCallback (System.init Pipeline.tinyRing Pipeline.tinyRing fun _ => true) default

theorem handed_within_one : ∃ t : System,
    Runs.run System.step oneTaken [.process, .network (connectingEnv fun _ => .accepted 100)] =
      some t ∧ [default] <+: handedSamples t := by
  have hstart : Queues (System.init Pipeline.tinyRing Pipeline.tinyRing fun _ => true)
      { first := [], second := [], out := [] } :=
    ⟨Pipeline.tinyRing_fresh.holds, Pipeline.tinyRing_fresh.holds, rfl⟩
  have hqueues := adcSampleCallback_queues hstart default
  have hflow : Runs.AllSteps System.step flowsOn oneTaken [.process] :=
    ⟨⟨rfl, trivial, trivial⟩, fun _ _ => trivial⟩
  have hflow' : Runs.AllSteps System.step flowsOn (processThreadWorker oneTaken)
      [.network (connectingEnv fun _ => .accepted 100)] :=
    ⟨⟨trivial, rfl, rfl⟩, fun _ _ => trivial⟩
  refine ⟨_, rfl, ?_⟩
  exact (handed_within hqueues.first hqueues.second _ _ hflow hflow' rfl rfl (by decide)
    (by decide)).1

end FastRing

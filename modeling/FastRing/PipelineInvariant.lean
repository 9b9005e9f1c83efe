import FastRing.PipelineMoves
import FastRing.SpscFlow
import FastRing.Lib.Ledger

/-! # The invariant of the pipeline

Every sample generated is either dropped (refused by one of the rings, or popped
without a block to send it in) or still in the pipeline: in a block handed over, in
the network thread's hands, or on its way through one of the rings. What is in the
pipeline is in the order of generation. Each thread moves samples along or drops
some; none brings two out of order. -/

namespace FastRing

/-- The samples in the network thread's hands. -/
def NetworkPos.holding : NetworkPos → List AdcSample
  | .popped samples => samples
  | .filled block => block.samples
  | _ => []

namespace Pipeline

variable {s t : Pipeline}

/-- The samples of the blocks handed to `tcp_client_send_data_block`, in order. -/
def output (s : Pipeline) : List AdcSample := s.handed.flatMap fun p => p.1.samples

/-- The samples that left the pipeline unsent. -/
def dropped (s : Pipeline) : List AdcSample :=
  s.captureToProcess.refused ++ s.processToNetwork.refused ++ s.unsent

/-- The samples handed over or in the pipeline, oldest first. -/
def kept (s : Pipeline) : List AdcSample :=
  s.output ++ s.network.holding ++ s.processToNetwork.line ++ s.captureToProcess.line

/-- The network thread pops only while it is popping, and its block tells the number
of its samples. -/
def NetworkOk (consumer : Consumer AdcSample) : NetworkPos → Prop
  | .idle | .ready => consumer = .idle
  | .popping => True
  | .popped samples => consumer = .idle ∧ samples.length < 2 ^ 32
  | .filled block | .sent block _ =>
    consumer = .idle ∧ block.sampleCount.toNat = block.samples.length

structure Inv (s : Pipeline) : Prop where
  first : ∃ q, Spsc.Inv s.captureToProcess q
  second : ∃ q, Spsc.Inv s.processToNetwork q
  single : s.captureToProcess.producer.isSingle = true
  popBatch : s.captureToProcess.consumer.isBatch = true
  pushBatch : s.processToNetwork.producer.isBatch = true
  popBatch' : s.processToNetwork.consumer.isBatch = true
  network : NetworkOk s.processToNetwork.consumer s.network
  ledger : Ledger s.generated s.dropped s.kept
  offered : s.generated.length = s.captureToProcess.published.length +
    s.captureToProcess.refused.length + s.captureToProcess.producer.held.length

/-! ## What each thread leaves alone -/

/-- The callback works on the first ring and the statistics. -/
theorem callbackStep_frame (h : s.callbackStep = some t) :
    ∃ c2p stats, t = { s with captureToProcess := c2p, stats := stats } := by
  cases callbackStep_move h with
  | push | count => exact ⟨_, _, rfl⟩

/-- The process thread works on the rings and the statistics, and does not push into the
first ring. -/
theorem processStep_frame (h : s.processStep = some t) :
    ∃ c2p p2n stats,
      t = { s with captureToProcess := c2p, processToNetwork := p2n, stats := stats } ∧
        c2p.producer = s.captureToProcess.producer ∧
        c2p.published = s.captureToProcess.published := by
  cases processStep_move h with
  | start | noData | forward | push | count => exact ⟨_, _, _, rfl, rfl, rfl⟩
  | pop _ _ access =>
    obtain ⟨_, hpub, _, hprod⟩ := Spsc.consumerStep_flow access
    exact ⟨_, _, _, rfl, hprod, hpub⟩

/-- The network thread leaves the first ring alone, and pushes into none. -/
theorem networkStep_rings {env : NetworkEnv} (h : s.networkStep env = some t) :
    t.captureToProcess = s.captureToProcess ∧
      t.processToNetwork.producer = s.processToNetwork.producer := by
  cases networkStep_move h with
  | noClient | connect | start | takeOver | fill | lose | send | count => exact ⟨rfl, rfl⟩
  | pop _ _ access =>
    obtain ⟨_, _, _, hpr⟩ := Spsc.consumerStep_flow access
    exact ⟨rfl, hpr⟩

/-! ## The capture thread -/

theorem capture_inv (hi : Inv s) {currentTime : UInt64} {value : Int32}
    (h : s.capture currentTime value = some t) : Inv t := by
  unfold capture at h
  split at h
  case h_2 => cases h
  rename_i hp
  cases h
  obtain ⟨q, hq⟩ := hi.first
  refine ⟨⟨q, hq.setProducer trivial⟩, hi.second, rfl, hi.popBatch, hi.pushBatch, hi.popBatch',
    hi.network, ?_, ?_⟩
  · have hnew := hi.ledger.enter (s.makeSample currentTime value)
    have hk : s.kept ++ [s.makeSample currentTime value] =
        s.output ++ s.network.holding ++ s.processToNetwork.line ++
          (s.captureToProcess.consumer.taken ++ s.captureToProcess.contents ++
            [s.makeSample currentTime value]) := by
      simp [kept, Spsc.line, hp, Producer.held]
    rw [hk] at hnew
    exact hnew
  · have := hi.offered
    rw [hp] at this
    simpa [Producer.held] using this

/-- A producer's access on the first ring: what it refuses leaves the pipeline. -/
theorem ledger_first {ring : Spsc AdcSample} {q : List AdcSample}
    (hl : Ledger s.generated s.dropped s.kept) (hq : Spsc.Inv s.captureToProcess q)
    (hs : s.captureToProcess.producerStep = some ring) :
    Ledger s.generated (dropped { s with captureToProcess := ring })
      (kept { s with captureToProcess := ring }) := by
  obtain ⟨a, r, b, hline, hline', hr⟩ := Spsc.producerStep_line hq hs
  have hk : s.kept = (s.output ++ s.network.holding ++ s.processToNetwork.line ++ a) ++ r ++ b := by
    rw [kept, hline]; simp
  rw [hk, dropped, List.append_assoc] at hl
  have hnew := hl.drop
  rw [List.append_assoc _ a b, ← hline', ← hr, ← List.append_assoc] at hnew
  exact hnew

/-- A producer's access on the second ring. -/
theorem ledger_second {ring : Spsc AdcSample} {q : List AdcSample}
    (hl : Ledger s.generated s.dropped s.kept) (hq : Spsc.Inv s.processToNetwork q)
    (hs : s.processToNetwork.producerStep = some ring) :
    Ledger s.generated (dropped { s with processToNetwork := ring })
      (kept { s with processToNetwork := ring }) := by
  obtain ⟨a, r, b, hline, hline', hr⟩ := Spsc.producerStep_line hq hs
  have hk : s.kept = (s.output ++ s.network.holding ++ a) ++ r ++ (b ++ s.captureToProcess.line) := by
    rw [kept, hline]; simp
  rw [hk, dropped] at hl
  have hnew := hl.drop
  have hk' : s.output ++ s.network.holding ++ a ++ (b ++ s.captureToProcess.line) =
      s.output ++ s.network.holding ++ ring.line ++ s.captureToProcess.line := by
    rw [hline']; simp
  rw [hk', List.append_assoc s.captureToProcess.refused, ← hr] at hnew
  exact hnew

theorem callbackStep_inv (hi : Inv s) (h : s.callbackStep = some t) : Inv t := by
  obtain ⟨q, hq⟩ := hi.first
  cases callbackStep_move h with
  | push _ access =>
    obtain ⟨a, r, hpub, href, hheld, _, hc⟩ := Spsc.producerStep_flow access
    refine ⟨Spsc.producerStep_inv hq access, hi.second, (Spsc.producerStep_kind access).1 hi.single,
      by rw [hc]; exact hi.popBatch, hi.pushBatch, hi.popBatch', hi.network,
      ledger_first (s := s) hi.ledger hq access, ?_⟩
    have := hi.offered
    rw [hheld] at this
    simp only [hpub, href, List.length_append] at this ⊢
    omega
  | count pos =>
    have hl : Spsc.line { s.captureToProcess with producer := .idle } = s.captureToProcess.line := by
      simp [Spsc.line, Spsc.contents, pos, Producer.held]
    refine ⟨⟨q, hq.setProducer trivial⟩, hi.second, rfl, hi.popBatch, hi.pushBatch, hi.popBatch',
      hi.network, ?_, ?_⟩
    · have := hi.ledger
      rw [kept, ← hl] at this
      exact this
    · have := hi.offered
      rw [pos] at this
      exact this

/-! ## The process thread -/

theorem Consumer.taken_nil {c : Consumer AdcSample} (hb : c.isBatch = true)
    (hd : ∀ count out, c ≠ .batchDone count out) : c.taken = [] := by
  cases c with
  | popDone => cases hb
  | batchDone count out => exact absurd rfl (hd count out)
  | _ => rfl

theorem processStep_inv (hi : Inv s) (h : s.processStep = some t) : Inv t := by
  obtain ⟨q, hq⟩ := hi.first
  obtain ⟨q', hq'⟩ := hi.second
  cases processStep_move h with
  | start _ pos =>
    have hl : Spsc.line { s.captureToProcess with consumer := .batch 256 } =
        s.captureToProcess.line := by
      simp [Spsc.line, Spsc.contents, pos, Consumer.taken]
    refine ⟨⟨q, hq.setConsumer trivial⟩, hi.second, hi.single, rfl, hi.pushBatch, hi.popBatch',
      hi.network, ?_, hi.offered⟩
    have := hi.ledger
    rw [kept, ← hl] at this
    exact this
  | pop _ running access =>
    obtain ⟨q₁, hq₁⟩ := Spsc.consumerStep_inv hq access
    obtain ⟨hl, hr⟩ := Spsc.consumerStep_line hq₁ access (Consumer.taken_nil hi.popBatch running)
    obtain ⟨_, hpub, _, hpr⟩ := Spsc.consumerStep_flow access
    refine ⟨⟨q₁, hq₁⟩, hi.second, by rw [hpr]; exact hi.single,
      Spsc.consumerStep_kind access hi.popBatch, hi.pushBatch, hi.popBatch', hi.network, ?_, ?_⟩
    · have := hi.ledger
      rw [kept, dropped, ← hl, ← hr] at this
      exact this
    · have := hi.offered
      rw [← hpub, ← hr, ← hpr] at this
      exact this
  | noData _ pos =>
    obtain ⟨_, hl⟩ := hq.batchDone pos
    refine ⟨⟨q, hq.setConsumer trivial⟩, hi.second, hi.single, rfl, hi.pushBatch, hi.popBatch',
      hi.network, ?_, hi.offered⟩
    have := hi.ledger
    rw [kept, hl] at this
    exact this
  | @forward count samples idle pos _ =>
    -- the batch popped goes on to the second ring
    obtain ⟨hword, hl⟩ := hq.batchDone pos
    refine ⟨⟨q, hq.setConsumer trivial⟩, ⟨q', hq'.setProducer trivial⟩, hi.single, rfl, rfl,
      hi.popBatch', hi.network, ?_, hi.offered⟩
    have hl' : Spsc.line { s.processToNetwork with producer := .batch (Batch.ofList samples) } =
        s.processToNetwork.line ++ samples := by
      simp [Spsc.line, Spsc.contents, idle, Producer.held, Batch.ofList_items hword]
    have := hi.ledger
    rw [kept, hl, ← List.append_assoc, List.append_assoc _ _ samples, ← hl'] at this
    exact this
  | push _ access =>
    obtain ⟨_, _, _, _, _, _, hc⟩ := Spsc.producerStep_flow access
    refine ⟨hi.first, Spsc.producerStep_inv hq' access, hi.single, hi.popBatch,
      (Spsc.producerStep_kind access).2 hi.pushBatch, by rw [hc]; exact hi.popBatch', ?_,
      ledger_second (s := s) hi.ledger hq' access, hi.offered⟩
    rw [hc]
    exact hi.network
  | count pos =>
    have hl : Spsc.line { s.processToNetwork with producer := .idle } = s.processToNetwork.line := by
      simp [Spsc.line, Spsc.contents, pos, Producer.held]
    refine ⟨hi.first, ⟨q', hq'.setProducer trivial⟩, hi.single, hi.popBatch, rfl, hi.popBatch',
      hi.network, ?_, hi.offered⟩
    have := hi.ledger
    rw [kept, ← hl] at this
    exact this

/-! ## The network thread -/

/-- The samples popped are in the thread's hands. -/
theorem takeOver_inv (hi : Inv s) (hn : s.network = .popping) {count : UInt32}
    {samples : List AdcSample} (hc : s.processToNetwork.consumer = .batchDone count samples) :
    Inv { s with
      processToNetwork := { s.processToNetwork with consumer := .idle }
      network := if samples.isEmpty then .idle else .popped samples } := by
  obtain ⟨q', hq'⟩ := hi.second
  obtain ⟨hword, hl⟩ := hq'.batchDone hc
  have hled := hi.ledger
  rw [kept, hn, hl] at hled
  refine ⟨hi.first, ⟨q', hq'.setConsumer trivial⟩, hi.single, hi.popBatch, hi.pushBatch, rfl,
    ?_, ?_, hi.offered⟩
  · simp only
    split
    · exact rfl
    · exact ⟨rfl, hword⟩
  · simp only [kept]
    split
    · rename_i hnil
      obtain rfl : samples = [] := by simpa using hnil
      exact hled
    · simp only [NetworkPos.holding, List.append_nil, List.append_assoc] at hled ⊢
      exact hled

/-- There is no block for the samples popped, and they are lost. -/
theorem lose_inv (hi : Inv s) {samples : List AdcSample} (hn : s.network = .popped samples)
    (pool : BlockPool) :
    Inv { s with pool := pool, network := .idle, unsent := s.unsent ++ samples } := by
  have hnet := hi.network
  have hled := hi.ledger
  rw [hn] at hnet
  rw [kept, hn] at hled
  refine ⟨hi.first, hi.second, hi.single, hi.popBatch, hi.pushBatch, hi.popBatch', hnet.1, ?_,
    hi.offered⟩
  have hsplit : s.output ++ samples ++ s.processToNetwork.line ++ s.captureToProcess.line =
      s.output ++ samples ++ (s.processToNetwork.line ++ s.captureToProcess.line) := by
    simp
  rw [NetworkPos.holding, hsplit, ← List.append_nil s.dropped] at hled
  have hnew := hled.drop
  rw [List.append_nil, ← List.append_assoc, dropped, List.append_assoc _ s.unsent] at hnew
  simp only [kept, NetworkPos.holding, List.append_nil]
  exact hnew

theorem networkStep_inv (hi : Inv s) {env : NetworkEnv} (h : s.networkStep env = some t) :
    Inv t := by
  obtain ⟨q', hq'⟩ := hi.second
  have hnet := hi.network
  have hled := hi.ledger
  cases networkStep_move h with
  | noClient => exact hi
  | connect pos _ =>
    rw [pos] at hnet
    rw [kept, pos] at hled
    refine ⟨hi.first, hi.second, hi.single, hi.popBatch, hi.pushBatch, hi.popBatch', ?_, ?_,
      hi.offered⟩
    · simp only; split <;> exact hnet
    · simp only [kept]; split <;> exact hled
  | start pos =>
    rw [pos] at hnet
    have hl : Spsc.line { s.processToNetwork with consumer := .batch samplesPerBlock } =
        s.processToNetwork.line := by
      have hc : s.processToNetwork.consumer = .idle := hnet
      simp [Spsc.line, Spsc.contents, hc, Consumer.taken]
    refine ⟨hi.first, ⟨q', hq'.setConsumer trivial⟩, hi.single, hi.popBatch, hi.pushBatch, rfl,
      trivial, ?_, hi.offered⟩
    rw [kept, pos, ← hl] at hled
    exact hled
  | pop pos running access =>
    obtain ⟨q₁, hq₁⟩ := Spsc.consumerStep_inv hq' access
    obtain ⟨hl, hr⟩ := Spsc.consumerStep_line hq₁ access (Consumer.taken_nil hi.popBatch' running)
    obtain ⟨_, _, _, hpr⟩ := Spsc.consumerStep_flow access
    refine ⟨hi.first, ⟨q₁, hq₁⟩, hi.single, hi.popBatch, by rw [hpr]; exact hi.pushBatch,
      Spsc.consumerStep_kind access hi.popBatch', by rw [pos]; trivial, ?_, hi.offered⟩
    rw [kept, dropped, ← hl, ← hr] at hled
    exact hled
  | takeOver pos done => exact takeOver_inv hi pos done
  | fill pos _ =>
    rw [pos] at hnet
    rw [kept, pos] at hled
    obtain ⟨hc, hword⟩ := hnet
    refine ⟨hi.first, hi.second, hi.single, hi.popBatch, hi.pushBatch, hi.popBatch', ⟨hc, ?_⟩, hled,
      hi.offered⟩
    simp only [fillBlock, UInt32.toNat_ofNat', Nat.mod_eq_of_lt hword]
  | lose pos _ => exact lose_inv hi pos _
  | send pos _ =>
    rw [pos] at hnet
    rw [kept, pos] at hled
    refine ⟨hi.first, hi.second, hi.single, hi.popBatch, hi.pushBatch, hi.popBatch', hnet, ?_,
      hi.offered⟩
    simp only [kept, output, NetworkPos.holding, List.flatMap_append, List.flatMap_singleton,
      List.append_nil] at hled ⊢
    exact hled
  | count pos =>
    rw [pos] at hnet
    rw [kept, pos] at hled
    exact ⟨hi.first, hi.second, hi.single, hi.popBatch, hi.pushBatch, hi.popBatch', hnet.1, hled,
      hi.offered⟩

/-! ## Runs -/

theorem step_inv (hi : Inv s) {l : Label} (h : s.step l = some t) : Inv t := by
  cases l with
  | capture currentTime value => exact capture_inv hi h
  | callback => exact callbackStep_inv hi h
  | process => exact processStep_inv hi h
  | network env => exact networkStep_inv hi h

theorem init_inv {c2p p2n : RingBuffer AdcSample} (h : c2p.Fresh) (h' : p2n.Fresh)
    (startTime : UInt64) (allocated : Nat → Bool) : Inv (init c2p p2n startTime allocated) :=
  ⟨⟨[], Spsc.init_inv h⟩, ⟨[], Spsc.init_inv h'⟩, rfl, rfl, rfl, rfl, rfl, .nil, rfl⟩

end Pipeline

end FastRing

import FastRing.PipelineInvariant
import FastRing.SpscSolo

/-! # Whole iterations and single accesses

`Workers` takes each iteration of a worker as one step, `Pipeline` interleaves the
threads access by access. A step of the former is a run of the latter in which one
thread does its iteration alone, so every run of whole iterations, on samples the ADC
can make, is also a run of the pipeline. -/

namespace FastRing.Pipeline

open Runs

variable {p : Pipeline} {s t : System}

/-- Between iterations, the pipeline is in the state of the workers. -/
structure Matches (p : Pipeline) (s : System) : Prop where
  first : p.captureToProcess.rb = s.captureToProcess
  second : p.processToNetwork.rb = s.processToNetwork
  stats : p.stats = s.stats
  client : p.tcpClient = s.tcpClient
  pool : p.pool = s.pool
  handed : p.handed = s.handed
  sequence : p.sequence = UInt32.ofNat s.offered
  captureIdle : p.captureToProcess.producer = .idle
  popIdle : p.captureToProcess.consumer = .idle
  pushIdle : p.processToNetwork.producer = .idle
  popIdle' : p.processToNetwork.consumer = .idle
  networkIdle : p.network = .idle

/-- The sample is the next one that the ADC, started at `startTime`, can make. -/
def fromAdc (startTime : UInt64) (s : System) : WorkerStep → Prop
  | .sample x => ∃ currentTime : UInt64, ∃ value : Int32,
      x = { timestamp := (currentTime - startTime).toUInt32, value := value
            sequence := UInt32.ofNat s.offered, channel := 0, flags := 0 }
  | _ => True

/-! ## A ring operation inside an iteration -/

theorem callback_run {ring ring' : Spsc AdcSample} (p : Pipeline)
    (h : Spsc.ProducerPath ring ring') :
    Reaches step { p with captureToProcess := ring }
      { p with captureToProcess := ring' } := by
  refine Path.reaches (l := Label.callback) (g := fun r => { p with captureToProcess := r }) ?_ h
  intro r r' hin hs
  simp only [step, callbackStep]
  split
  · rename_i hp
    rw [hp] at hin
    cases hin
  · rw [hs]
    rfl

theorem process_pop_run {ring ring' : Spsc AdcSample} (p : Pipeline)
    (hp : p.processToNetwork.producer = .idle) (h : Spsc.ConsumerPath ring ring') :
    Reaches step { p with captureToProcess := ring }
      { p with captureToProcess := ring' } := by
  refine Path.reaches (l := Label.process) (g := fun r => { p with captureToProcess := r }) ?_ h
  intro r r' hin hs
  simp only [step, processStep, hp]
  split
  · rename_i hc
    rw [hc] at hin
    cases hin
  · rename_i hc
    rw [hc] at hin
    cases hin
  · rw [hs]
    rfl

theorem process_push_run {ring ring' : Spsc AdcSample} (p : Pipeline)
    (h : Spsc.ProducerPath ring ring') :
    Reaches step { p with processToNetwork := ring }
      { p with processToNetwork := ring' } := by
  refine Path.reaches (l := Label.process) (g := fun r => { p with processToNetwork := r }) ?_ h
  intro r r' hin hs
  simp only [step, processStep]
  split
  · rename_i hc
    rw [hc] at hin
    cases hin
  · rename_i hc
    rw [hc] at hin
    cases hin
  · rw [hs]
    rfl

theorem network_pop_run {ring ring' : Spsc AdcSample} (p : Pipeline) (env : NetworkEnv)
    (hn : p.network = .popping) (h : Spsc.ConsumerPath ring ring') :
    Reaches step { p with processToNetwork := ring }
      { p with processToNetwork := ring' } := by
  refine Path.reaches (l := Label.network env) (g := fun r => { p with processToNetwork := r }) ?_ h
  intro r r' hin hs
  simp only [step, networkStep, hn]
  split
  · rename_i hc
    rw [hc] at hin
    cases hin
  · rw [hs]
    rfl

/-! ## The iterations -/

theorem sample_simulated (h : Matches p s) {x : AdcSample}
    (hx : fromAdc p.startTime s (.sample x)) :
    ∃ p', Reaches step p p' ∧ p'.startTime = p.startTime ∧ Matches p' (adcSampleCallback s x) := by
  obtain ⟨currentTime, value, rfl⟩ := hx
  have hmake : p.makeSample currentTime value =
      { timestamp := (currentTime - p.startTime).toUInt32, value := value
        sequence := UInt32.ofNat s.offered, channel := 0, flags := 0 } := by
    rw [makeSample, h.sequence]
  rw [← hmake]
  generalize hxe : p.makeSample currentTime value = x
  obtain ⟨ring, hpath, hrb, hprod, hcons⟩ := Spsc.push_solo p.captureToProcess x
  let p₁ : Pipeline := { p with sequence := p.sequence + 1, generated := p.generated ++ [x] }
  have hcap : step p (.capture currentTime value) =
      some { p₁ with captureToProcess := { p.captureToProcess with producer := .push x } } := by
    simp only [step, capture, h.captureIdle, hxe]
    rfl
  have hlast : step { p₁ with captureToProcess := ring } .callback =
      some { p₁ with
        captureToProcess := { ring with producer := .idle }
        stats := p.stats.countPush (ringBufferPush p.captureToProcess.rb x).1 } := by
    simp only [step, callbackStep, hprod]
    rfl
  refine ⟨_, (Reaches.single hcap).trans ((callback_run p₁ hpath).trans (.single hlast)), rfl, ?_⟩
  refine ⟨?_, h.second, ?_, h.client, h.pool, h.handed, ?_, rfl, hcons.trans h.popIdle, h.pushIdle,
    h.popIdle', h.networkIdle⟩
  · rw [adcSampleCallback, ← h.first]
    exact hrb
  · rw [adcSampleCallback, ← h.first, ← h.stats]
  · show p.sequence + 1 = UInt32.ofNat (s.offered + 1)
    rw [h.sequence, UInt32.ofNat_add]
    rfl

/-- The process thread takes samples from the first ring. -/
theorem process_popped (hp : p.processToNetwork.producer = .idle)
    (hc : p.captureToProcess.consumer = .idle) {q : List AdcSample}
    (hq : p.captureToProcess.rb.Holds q) {k : Nat} (hk : k = min (256 : UInt32).toNat q.length) :
    ∃ ring, Reaches step p { p with captureToProcess := ring } ∧
      ring.rb = p.captureToProcess.rb.release k ∧ ring.consumer = .batchDone 256 (q.take k) ∧
      ring.producer = p.captureToProcess.producer := by
  obtain ⟨ring, hpath, hrb, hcons, hprod⟩ := Spsc.popBatch_solo hq 256
  rw [hq.popBatch_eq 256 hk] at hrb hcons
  have hstart : step p .process = some { p with
      captureToProcess := { p.captureToProcess with consumer := .batch 256 } } := by
    simp only [step, processStep, hp, hc]
  exact ⟨ring, (Reaches.single hstart).trans (process_pop_run p hp hpath), hrb, hcons, hprod⟩

/-- An iteration of the process thread that finds samples, up to its statistics. -/
theorem process_forwarded (hp : p.processToNetwork.producer = .idle)
    (hc : p.captureToProcess.consumer = .idle) {q q' : List AdcSample}
    (hq : p.captureToProcess.rb.Holds q) (hq' : p.processToNetwork.rb.Holds q') {k : Nat}
    (hk : k = min (256 : UInt32).toNat q.length) (h0 : k ≠ 0) :
    ∃ ring ring' : Spsc AdcSample, Reaches step p { p with
        captureToProcess := { ring with consumer := .idle }
        processToNetwork := ring' } ∧
      ring.rb = p.captureToProcess.rb.release k ∧
      ring.producer = p.captureToProcess.producer ∧
      ring'.rb = (ringBufferPushBatch p.processToNetwork.rb (Batch.ofList (q.take k))).2 ∧
      ring'.producer = .batchDone (Batch.ofList (q.take k))
        (ringBufferPushBatch p.processToNetwork.rb (Batch.ofList (q.take k))).1.2 ∧
      ring'.consumer = p.processToNetwork.consumer := by
  obtain ⟨ring, hpopped, hrb, hcons, hprod⟩ := process_popped hp hc hq hk
  have hne : (q.take k).isEmpty = false := by
    have hlen : (q.take k).length = k := by rw [List.length_take]; omega
    cases htake : q.take k with
    | nil => rw [htake] at hlen; exact absurd hlen.symm h0
    | cons => rfl
  obtain ⟨ring', hpath', hrb', hprod', hcons'⟩ :=
    Spsc.pushBatch_solo hq' (Batch.ofList (q.take k))
  let p₁ : Pipeline := { p with captureToProcess := { ring with consumer := .idle } }
  have hmove : step { p with captureToProcess := ring } .process =
      some { p₁ with
        processToNetwork :=
          { p.processToNetwork with producer := .batch (Batch.ofList (q.take k)) } } := by
    simp only [step, processStep, hp, hcons, hne]
    rfl
  exact ⟨ring, ring', hpopped.trans ((Reaches.single hmove).trans (process_push_run p₁ hpath')),
    hrb, hprod, hrb', hprod', hcons'⟩

theorem process_simulated (hi : Inv p) (h : Matches p s) :
    ∃ p', Reaches step p p' ∧ p'.startTime = p.startTime ∧ Matches p' (processThreadWorker s) := by
  obtain ⟨q, hq⟩ := hi.first
  obtain ⟨q', hq'⟩ := hi.second
  obtain ⟨k, hk⟩ : ∃ k, k = min (256 : UInt32).toNat q.length := ⟨_, rfl⟩
  have hlen : (q.take k).length = k := by rw [List.length_take]; omega
  rw [processThreadWorker, ← h.first, hq.holds.popBatch_eq 256 hk]
  by_cases h0 : k = 0
  · -- nothing to move
    obtain ⟨ring, hpopped, hrb, hcons, hprod⟩ := process_popped h.pushIdle h.popIdle hq.holds hk
    subst h0
    have hend : step { p with captureToProcess := ring } .process =
        some { p with captureToProcess := { ring with consumer := .idle } } := by
      simp only [step, processStep, h.pushIdle, hcons]
      rfl
    exact ⟨_, hpopped.trans (.single hend), rfl, hrb, h.second, h.stats, h.client, h.pool, h.handed,
      h.sequence, hprod.trans h.captureIdle, rfl, h.pushIdle, h.popIdle', h.networkIdle⟩
  · obtain ⟨ring, ring', hreach, hrb, hprod, hrb', hprod', hcons'⟩ :=
      process_forwarded h.pushIdle h.popIdle hq.holds hq'.holds hk h0
    have hend : step { p with
          captureToProcess := { ring with consumer := .idle }
          processToNetwork := ring' } .process =
        some { p with
          captureToProcess := { ring with consumer := .idle }
          processToNetwork := { ring' with producer := .idle }
          stats := p.stats.countForward (Batch.ofList (q.take k)).count
            (ringBufferPushBatch p.processToNetwork.rb (Batch.ofList (q.take k))).1.2 } := by
      simp only [step, processStep, hprod']
    refine ⟨_, hreach.trans (.single hend), rfl, ?_⟩
    have hok : decide (0 < k) = true := decide_eq_true (Nat.pos_of_ne_zero h0)
    simp only [hok, if_true]
    refine ⟨hrb, ?_, ?_, h.client, h.pool, h.handed, h.sequence, hprod.trans h.captureIdle, rfl, rfl,
      hcons'.trans h.popIdle', h.networkIdle⟩
    · rw [← h.second]
      exact hrb'
    · rw [← h.second, ← h.stats]
      simp only [Batch.ofList, hlen]

/-- The block of an iteration, from the samples popped to the statistics. -/
theorem send_simulated (h : Matches p s) {client : TcpClient} (hc : s.tcpClient = some client)
    (env : NetworkEnv) (samples : List AdcSample) :
    ∃ p', Reaches step { p with network := .popped samples } p' ∧ p'.startTime = p.startTime ∧
      Matches p'
        (if (getBlockFromPool s.pool).1 then
          let block := fillBlock env.clock samples (UInt32.ofNat samples.length)
          let r := tcpClientSendDataBlock client block env.send
          { s with
            pool := (getBlockFromPool s.pool).2
            stats := s.stats.countSend (UInt32.ofNat samples.length) r.err
            tcpClient := some r.client
            handed := s.handed ++ [(block, r.err)]
            log := s.log ++ r.log }
        else { s with pool := (getBlockFromPool s.pool).2 }) := by
  rw [← h.pool]
  cases hpool : getBlockFromPool p.pool with
  | mk present pool =>
    cases present with
    | false =>
      have hstep : step { p with network := .popped samples } (.network env) = some { p with
            pool := pool
            network := .idle
            unsent := p.unsent ++ samples } := by
        simp only [step, networkStep, hpool]
        rfl
      exact ⟨_, .single hstep, rfl, h.first, h.second, h.stats, h.client, rfl, h.handed, h.sequence,
        h.captureIdle, h.popIdle, h.pushIdle, h.popIdle', rfl⟩
    | true =>
      simp only [if_true]
      generalize hb : fillBlock env.clock samples (UInt32.ofNat samples.length) = block
      generalize hr : tcpClientSendDataBlock client block env.send = r
      have hfill : step { p with network := .popped samples } (.network env) = some { p with
            pool := pool
            network := .filled block } := by
        simp only [step, networkStep, hpool, hb]
        rfl
      have hsend : step { p with pool := pool, network := .filled block } (.network env) =
          some { p with
            tcpClient := some r.client
            pool := pool
            network := .sent block r.err
            handed := p.handed ++ [(block, r.err)] } := by
        simp only [step, networkStep, h.client, hc, Option.map_some, hr]
      have hcount : block.sampleCount = UInt32.ofNat samples.length := by
        rw [← hb]
        rfl
      have hend : step { p with
            tcpClient := some r.client
            pool := pool
            network := .sent block r.err
            handed := p.handed ++ [(block, r.err)] } (.network env) = some { p with
            tcpClient := some r.client
            pool := pool
            network := .idle
            handed := p.handed ++ [(block, r.err)]
            stats := p.stats.countSend (UInt32.ofNat samples.length) r.err } := by
        rw [← hcount]
        rfl
      refine ⟨_, (Reaches.single hfill).trans ((Reaches.single hsend).trans (.single hend)), rfl,
        h.first, h.second, ?_, rfl, rfl, ?_, h.sequence, h.captureIdle, h.popIdle, h.pushIdle,
        h.popIdle', rfl⟩
      · rw [← h.stats]
      · rw [← h.handed]

theorem collect_simulated (hi : Inv p) (h : Matches p s) {client : TcpClient}
    (hc : s.tcpClient = some client) (env : NetworkEnv) :
    ∃ p', Reaches step { p with network := .ready } p' ∧ p'.startTime = p.startTime ∧
      Matches p' (collectAndSend s client env) := by
  obtain ⟨q, hq⟩ := hi.second
  have hpop := hq.holds.popBatch_eq samplesPerBlock rfl
  obtain ⟨ring, hpath, hrb, hcons, hprod⟩ := Spsc.popBatch_solo hq.holds samplesPerBlock
  rw [hpop] at hrb hcons
  have hstart : step { p with network := .ready } (.network env) = some { p with
      processToNetwork := { p.processToNetwork with consumer := .batch samplesPerBlock }
      network := .popping } := rfl
  have hpopped := (Reaches.single hstart).trans
    (network_pop_run { p with network := .popping } env rfl hpath)
  have hlen : (q.take (min samplesPerBlock.toNat q.length)).length =
      min samplesPerBlock.toNat q.length := by
    rw [List.length_take]; omega
  have hend : step { p with processToNetwork := ring, network := .popping } (.network env) =
      some { p with
        processToNetwork := { ring with consumer := .idle }
        network := if (q.take (min samplesPerBlock.toNat q.length)).isEmpty then .idle
          else .popped (q.take (min samplesPerBlock.toNat q.length)) } := by
    simp only [step, networkStep, hcons]
  rw [collectAndSend, ← h.second, hpop]
  generalize min samplesPerBlock.toNat q.length = k at *
  -- the state after the pop, between two iterations
  have hmatch : Matches { p with processToNetwork := { ring with consumer := .idle } }
      { s with processToNetwork := p.processToNetwork.rb.release k } :=
    ⟨h.first, hrb, h.stats, h.client, h.pool, h.handed, h.sequence, h.captureIdle, h.popIdle,
      hprod.trans h.pushIdle, rfl, h.networkIdle⟩
  by_cases h0 : k = 0
  · subst h0
    refine ⟨_, hpopped.trans (.single hend), rfl, ?_⟩
    exact ⟨h.first, hrb, h.stats, h.client, h.pool, h.handed, h.sequence, h.captureIdle, h.popIdle,
      hprod.trans h.pushIdle, rfl, rfl⟩
  · have hne : (q.take k).isEmpty = false := by
      cases htake : q.take k with
      | nil => rw [htake] at hlen; exact absurd hlen.symm h0
      | cons => rfl
    rw [hne] at hend
    obtain ⟨p', hreach, hst, hm⟩ := send_simulated hmatch hc env (q.take k)
    refine ⟨p', hpopped.trans ((Reaches.single hend).trans hreach), hst, ?_⟩
    have hok : decide (0 < k) = true := decide_eq_true (Nat.pos_of_ne_zero h0)
    rw [hlen] at hm
    simp only [hok, if_true]
    exact hm

theorem network_simulated (hi : Inv p) (h : Matches p s) (env : NetworkEnv) :
    ∃ p', Reaches step p p' ∧ p'.startTime = p.startTime ∧
      Matches p' (networkThreadWorker s env) := by
  unfold networkThreadWorker
  split
  · exact ⟨p, .refl p, rfl, h⟩
  · rename_i client hclient
    simp only
    generalize hr : ensureConnected client env = r
    have hconnect : step p (.network env) = some { p with
        tcpClient := some r.client
        network := if r.err = .ok then .ready else .idle } := by
      simp only [step, networkStep, h.networkIdle, h.client, hclient, hr]
    have hmatch : Matches { p with tcpClient := some r.client }
        { s with tcpClient := some r.client, log := s.log ++ r.log } :=
      ⟨h.first, h.second, h.stats, rfl, h.pool, h.handed, h.sequence, h.captureIdle, h.popIdle,
        h.pushIdle, h.popIdle', h.networkIdle⟩
    by_cases herr : r.err = .ok
    · rw [if_pos herr] at hconnect
      rw [if_neg (not_not_intro herr)]
      have hi' : Inv { p with tcpClient := some r.client } :=
        ⟨hi.first, hi.second, hi.single, hi.popBatch, hi.pushBatch, hi.popBatch', hi.network,
          hi.ledger, hi.offered⟩
      obtain ⟨p', hreach, hst, hm⟩ := collect_simulated hi' hmatch rfl env
      exact ⟨p', (Reaches.single hconnect).trans hreach, hst, hm⟩
    · rw [if_neg herr] at hconnect
      rw [if_pos herr]
      exact ⟨_, .single hconnect, rfl, h.first, h.second, h.stats, rfl, h.pool, h.handed, h.sequence,
        h.captureIdle, h.popIdle, h.pushIdle, h.popIdle', rfl⟩

/-! ## Runs -/

theorem init_matches (c2p p2n : RingBuffer AdcSample) (startTime : UInt64)
    (allocated : Nat → Bool) :
    Matches (init c2p p2n startTime allocated) (System.init c2p p2n allocated) :=
  ⟨rfl, rfl, rfl, rfl, rfl, rfl, rfl, rfl, rfl, rfl, rfl, rfl⟩

theorem iteration_simulated (hi : Inv p) (h : Matches p s) {l : WorkerStep}
    (hl : fromAdc p.startTime s l) (hs : s.step l = some t) :
    ∃ p', Reaches step p p' ∧ p'.startTime = p.startTime ∧ Matches p' t := by
  cases l with
  | sample x => cases hs; exact sample_simulated h hl
  | process => cases hs; exact process_simulated hi h
  | network env => cases hs; exact network_simulated hi h env

/-- A run of whole iterations is a run of the pipeline. -/
theorem workers_refined {c2p p2n : RingBuffer AdcSample} (h : c2p.Fresh) (h' : p2n.Fresh)
    (startTime : UInt64) (allocated : Nat → Bool) {ls : List WorkerStep}
    (hl : AllSteps System.step (fromAdc startTime) (System.init c2p p2n allocated) ls)
    (hr : run System.step (System.init c2p p2n allocated) ls = some s) :
    ∃ p, Reaches step (init c2p p2n startTime allocated) p ∧ Matches p s := by
  have hinv : ∃ p, Reaches step (init c2p p2n startTime allocated) p ∧ p.startTime = startTime ∧
      Matches p s := by
    refine invariant_of_steps (I := fun s => ∃ p, Reaches step (init c2p p2n startTime allocated) p ∧
      p.startTime = startTime ∧ Matches p s) ?_ ?_ hl hr
    · intro s l t hp hok hs
      obtain ⟨p, hreach, hst, hm⟩ := hp
      have hi := hreach.invariant (fun _ _ _ hi hs => step_inv hi hs)
        (init_inv h h' startTime allocated)
      rw [← hst] at hok
      obtain ⟨p', hreach', hst', hm'⟩ := iteration_simulated hi hm hok hs
      exact ⟨p', hreach.trans hreach', hst'.trans hst, hm'⟩
    · exact ⟨_, .refl _, rfl, init_matches c2p p2n startTime allocated⟩
  obtain ⟨p, hreach, _, hm⟩ := hinv
  exact ⟨p, hreach, hm⟩

end FastRing.Pipeline

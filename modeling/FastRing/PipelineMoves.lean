import FastRing.Pipeline

/-! # What a step of a thread does

The steps of `Pipeline` thread by thread: where the thread was, what it has found, and the state
after the step. -/

namespace FastRing.Pipeline

variable {s t : Pipeline}

inductive CallbackMove (s : Pipeline) : Pipeline → Prop
  | push {ring : Spsc AdcSample}
      (running : ∀ x accepted, s.captureToProcess.producer ≠ .pushDone x accepted)
      (access : s.captureToProcess.producerStep = some ring) :
      CallbackMove s { s with captureToProcess := ring }
  | count {x : AdcSample} {accepted : Bool}
      (pos : s.captureToProcess.producer = .pushDone x accepted) :
      CallbackMove s { s with
        captureToProcess := { s.captureToProcess with producer := .idle }
        stats := s.stats.countPush accepted }

theorem callbackStep_move (h : s.callbackStep = some t) : CallbackMove s t := by
  unfold callbackStep at h
  split at h
  · rename_i x accepted pos
    cases h
    exact .count pos
  · rename_i running
    obtain ⟨ring, access, rfl⟩ := Option.map_eq_some_iff.mp h
    exact .push running access

inductive ProcessMove (s : Pipeline) : Pipeline → Prop
  | start (idle : s.processToNetwork.producer = .idle) (pos : s.captureToProcess.consumer = .idle) :
      ProcessMove s { s with
        captureToProcess := { s.captureToProcess with consumer := .batch 256 } }
  | pop {ring : Spsc AdcSample} (idle : s.processToNetwork.producer = .idle)
      (running : ∀ count samples, s.captureToProcess.consumer ≠ .batchDone count samples)
      (access : s.captureToProcess.consumerStep = some ring) :
      ProcessMove s { s with captureToProcess := ring }
  | noData {count : UInt32} (idle : s.processToNetwork.producer = .idle)
      (pos : s.captureToProcess.consumer = .batchDone count []) :
      ProcessMove s { s with captureToProcess := { s.captureToProcess with consumer := .idle } }
  | forward {count : UInt32} {samples : List AdcSample} (idle : s.processToNetwork.producer = .idle)
      (pos : s.captureToProcess.consumer = .batchDone count samples) (data : samples ≠ []) :
      ProcessMove s { s with
        captureToProcess := { s.captureToProcess with consumer := .idle }
        processToNetwork := { s.processToNetwork with producer := .batch (Batch.ofList samples) } }
  | push {ring : Spsc AdcSample}
      (running : ∀ b pushed, s.processToNetwork.producer ≠ .batchDone b pushed)
      (access : s.processToNetwork.producerStep = some ring) :
      ProcessMove s { s with processToNetwork := ring }
  | count {b : Batch AdcSample} {pushed : UInt32}
      (pos : s.processToNetwork.producer = .batchDone b pushed) :
      ProcessMove s { s with
        processToNetwork := { s.processToNetwork with producer := .idle }
        stats := s.stats.countForward b.count pushed }

theorem processStep_move (h : s.processStep = some t) : ProcessMove s t := by
  unfold processStep at h
  split at h
  · rename_i idle
    split at h
    · rename_i pos
      cases h
      exact .start idle pos
    · rename_i count samples pos
      simp only at h
      split at h
      · rename_i hnil
        obtain rfl : samples = [] := by simpa using hnil
        cases h
        exact .noData idle pos
      · rename_i hdata
        cases h
        exact .forward idle pos (by simpa using hdata)
    · rename_i running
      obtain ⟨ring, access, rfl⟩ := Option.map_eq_some_iff.mp h
      exact .pop idle (fun count samples he => running count samples he) access
  · rename_i b pushed pos
    cases h
    exact .count pos
  · rename_i running
    obtain ⟨ring, access, rfl⟩ := Option.map_eq_some_iff.mp h
    exact .push running access

inductive NetworkMove (s : Pipeline) (env : NetworkEnv) : Pipeline → Prop
  | noClient (pos : s.network = .idle) (absent : getOrCreateClient s.tcpClient env = none) :
      NetworkMove s env s
  | connect {client : TcpClient} (pos : s.network = .idle)
      (get : getOrCreateClient s.tcpClient env = some client) :
      NetworkMove s env { s with
        tcpClient := some (ensureConnected client env).client
        network := if (ensureConnected client env).err = .ok then .ready else .idle }
  | start (pos : s.network = .ready) :
      NetworkMove s env { s with
        processToNetwork := { s.processToNetwork with consumer := .batch samplesPerBlock }
        network := .popping }
  | pop {ring : Spsc AdcSample} (pos : s.network = .popping)
      (running : ∀ count samples, s.processToNetwork.consumer ≠ .batchDone count samples)
      (access : s.processToNetwork.consumerStep = some ring) :
      NetworkMove s env { s with processToNetwork := ring }
  | takeOver {count : UInt32} {samples : List AdcSample} (pos : s.network = .popping)
      (done : s.processToNetwork.consumer = .batchDone count samples) :
      NetworkMove s env { s with
        processToNetwork := { s.processToNetwork with consumer := .idle }
        network := if samples.isEmpty then .idle else .popped samples }
  | fill {samples : List AdcSample} (pos : s.network = .popped samples)
      (present : (getBlockFromPool s.pool).1 = true) :
      NetworkMove s env { s with
        pool := (getBlockFromPool s.pool).2
        network := .filled (fillBlock env.clock samples (UInt32.ofNat samples.length)) }
  | lose {samples : List AdcSample} (pos : s.network = .popped samples)
      (absent : ¬ (getBlockFromPool s.pool).1 = true) :
      NetworkMove s env { s with
        pool := (getBlockFromPool s.pool).2, network := .idle, unsent := s.unsent ++ samples }
  | send {block : DataBlock} {client : TcpClient} (pos : s.network = .filled block)
      (connected : s.tcpClient = some client) :
      NetworkMove s env { s with
        tcpClient := some (tcpClientSendDataBlock client block env.send).client
        network := .sent block (tcpClientSendDataBlock client block env.send).err
        handed := s.handed ++ [(block, (tcpClientSendDataBlock client block env.send).err)] }
  | count {block : DataBlock} {err : AdcError} (pos : s.network = .sent block err) :
      NetworkMove s env { s with network := .idle, stats := s.stats.countSend block.sampleCount err }

theorem networkStep_move {env : NetworkEnv} (h : s.networkStep env = some t) :
    NetworkMove s env t := by
  unfold networkStep at h
  split at h
  · rename_i pos
    split at h
    · rename_i absent
      cases h
      exact .noClient pos absent
    · rename_i client get
      cases h
      exact .connect pos get
  · rename_i pos
    cases h
    exact .start pos
  · rename_i pos
    split at h
    · rename_i count samples done
      cases h
      exact .takeOver pos done
    · rename_i running
      obtain ⟨ring, access, rfl⟩ := Option.map_eq_some_iff.mp h
      exact .pop pos running access
  · rename_i samples pos
    simp only at h
    split at h
    · rename_i present
      cases h
      exact .fill pos present
    · rename_i absent
      cases h
      exact .lose pos absent
  · rename_i block pos
    obtain ⟨client, connected, rfl⟩ := Option.map_eq_some_iff.mp h
    exact .send pos connected
  · rename_i block err pos
    cases h
    exact .count pos

end FastRing.Pipeline

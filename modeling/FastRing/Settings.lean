import FastRing.ApplicationInvariant
import FastRing.CommandLine
import FastRing.Shutdown
import FastRing.Sockets
import FastRing.WorkerSpecs

/-! # What becomes of the options

`main` puts the server address, the port and the sample rate into the log and nowhere
else: the workers create the TCP client and the ADC simulator from the defaults. So
these options take effect exactly when they say what the defaults say. -/

namespace FastRing

/-- `main` up to the start of the threads, with the rings its buffer manager has. -/
def programStart (argv : List String) (c2p p2n : RingBuffer AdcSample) (allocated : Nat → Bool) :
    Option Application :=
  match parseArguments .default argv with
  | .accepted _ => some (.init c2p p2n allocated)
  | .help => none
  | .unknown _ => none

/-- A call leaves the client's configuration alone. -/
theorem CallShape.config {client client' : TcpClient} {call : TcpCall} {log : List Syscall}
    (h : CallShape client call (some client') log) : client'.config = client.config := by
  cases h <;> rfl

theorem getOrCreateClient_config {client : Option TcpClient} {env : NetworkEnv} {client' : TcpClient}
    (h : ∀ c, client = some c → c.config = tcpConfigGetDefault)
    (hget : getOrCreateClient client env = some client') : client'.config = tcpConfigGetDefault := by
  cases client with
  | some c =>
    cases hget
    exact h _ rfl
  | none =>
    simp only [getOrCreateClient, tcpClientCreate] at hget
    split at hget
    · cases hget
      rfl
    · cases hget

namespace Application

/-- The client and the ADC simulator have their default configuration. -/
structure Defaults (s : Application) : Prop where
  client : ∀ client, s.pipeline.tcpClient = some client → client.config = tcpConfigGetDefault
  adc : ∀ adc, s.adc = some adc → adc.config = adcConfigGetDefault

variable {s t : Application}

theorem networkStep_config {p p' : Pipeline} {env : NetworkEnv} (h : p.networkStep env = some p')
    (hc : ∀ client, p.tcpClient = some client → client.config = tcpConfigGetDefault) :
    ∀ client, p'.tcpClient = some client → client.config = tcpConfigGetDefault := by
  cases Pipeline.networkStep_move h with
  | noClient | start | pop | takeOver | fill | lose | count => exact hc
  | @connect client _ get =>
    intro c hc'
    cases hc'
    have hshape := (connect_shape client env.connect).config
    rw [ensureConnected_eq, hshape]
    exact getOrCreateClient_config hc get
  | @send block client _ connected =>
    intro c hc'
    cases hc'
    have hshape := (call_shape client (.sendDataBlock block env.send)).config
    rw [hshape]
    exact hc client connected

theorem captureStep_defaults {env : WorkerEnv} (h : Defaults s) (hs : s.captureStep env = some t) :
    Defaults t := by
  obtain ⟨startTime, sequence, hp⟩ := captureStep_pipeline hs
  refine ⟨by rw [hp]; exact h.client, ?_⟩
  cases captureStep_move hs with
  | getAdc | noMemory | running | createThread | checkRunning => exact h.adc
  | create _ new =>
    intro a ha
    cases ha
    simp only [adcSimulatorCreate] at new
    split at new
    · cases new; rfl
    · cases new
  | setCallback | noThread =>
    intro a ha
    obtain ⟨a', ha', rfl⟩ := Option.map_eq_some_iff.mp ha
    exact h.adc a' ha'
  | @start restart adc _ present _ =>
    intro a ha
    cases ha
    exact h.adc adc present

theorem workerStep_defaults {type : ThreadType} {env : WorkerEnv} (h : Defaults s)
    (hs : s.workerStep type env = some t) : Defaults t := by
  cases type with
  | capture => exact captureStep_defaults h hs
  | process =>
    obtain ⟨pipeline, hp, rfl⟩ := Option.map_eq_some_iff.mp hs
    obtain ⟨c2p, p2n, stats, rfl, _⟩ := Pipeline.processStep_frame hp
    exact ⟨h.client, h.adc⟩
  | network =>
    obtain ⟨pipeline, hp, rfl⟩ := Option.map_eq_some_iff.mp hs
    exact ⟨networkStep_config hp h.client, h.adc⟩

theorem captureThreadStep_defaults {due : Option (UInt64 × Int32)} (h : Defaults s)
    (hs : s.captureThreadStep due = some t) : Defaults t := by
  cases captureThreadStep_move hs with
  | readRunning | early | discard => exact ⟨h.client, h.adc⟩
  | sample _ _ _ _ made =>
    unfold Pipeline.capture at made
    split at made <;> cases made
    exact ⟨h.client, h.adc⟩
  | callback _ moved =>
    obtain ⟨c2p, stats, rfl⟩ := Pipeline.callbackStep_frame moved
    exact ⟨h.client, h.adc⟩

/-- Whatever is created is created with the defaults. -/
theorem step_defaults {l : Label} (h : Defaults s) (hs : s.step l = some t) : Defaults t := by
  unfold step at hs
  split at hs
  · cases hs
  · cases l with
    | main created leave =>
      obtain ⟨hp, hadc⟩ := mainStep_pipeline hs
      exact ⟨by rw [hp]; exact h.client, by rw [hadc]; exact h.adc⟩
    | wrapper id env =>
      obtain ⟨u, tm, more, hu, _, rfl⟩ := wrapperStep_cases hs
      rcases hu with rfl | ⟨type, hu⟩
      · exact ⟨h.client, h.adc⟩
      · have hd := workerStep_defaults h hu
        exact ⟨hd.client, hd.adc⟩
    | captureThread due => exact captureThreadStep_defaults h hs

theorem init_defaults (c2p p2n : RingBuffer AdcSample) (allocated : Nat → Bool) :
    Defaults (init c2p p2n allocated) := by
  refine ⟨?_, ?_⟩
  · intro client h
    cases h
  · intro adc h
    cases h

/-- The client and the ADC simulator have what the options say. -/
structure Configured (os : List CliOption) (s : Application) : Prop where
  server : ∀ client, s.pipeline.tcpClient = some client →
    client.config.serverIp = lastServerIp os ∧ client.config.serverPort = lastServerPort os
  rate : ∀ adc, s.adc = some adc → adc.config.sampleRate = lastSampleRate os

/-- Some run creates both of them. -/
theorem both_created (c2p p2n : RingBuffer AdcSample) (allocated : Nat → Bool) :
    ∃ s client adc, Runs.run step (init c2p p2n allocated)
        (mainRun 10 ++ wrapperRun 0 5 ++ wrapperRun 2 4) = some s ∧
      s.pipeline.tcpClient = some client ∧ s.adc = some adc :=
  ⟨_, _, _, rfl, rfl, rfl⟩

theorem run_defaults {c2p p2n : RingBuffer AdcSample} {allocated : Nat → Bool} {ls : List Label}
    (h : Runs.run step (init c2p p2n allocated) ls = some s) : Defaults s :=
  Runs.invariant (fun _ _ _ hd hs => step_defaults hd hs) (init_defaults c2p p2n allocated) h

/-- The options that `main` accepts take effect in all runs of the program exactly when
the last ones of their kind name the defaults. -/
theorem options_effective_iff {argv : List String} {c2p p2n : RingBuffer AdcSample}
    {allocated : Nat → Bool} {s₀ : Application}
    (h : programStart argv c2p p2n allocated = some s₀) :
    (∃ os, Reads argv os) ∧ ∀ os, Reads argv os →
      ((∀ ls s, Runs.run step s₀ ls = some s → Configured os s) ↔
        lastServerIp os = "127.0.0.1" ∧ lastServerPort os = 8080 ∧ lastSampleRate os = 40000) := by
  unfold programStart at h
  split at h
  · rename_i o ho
    cases h
    obtain ⟨os, hr, _⟩ := parseArguments_accepted_iff.mp ho
    refine ⟨⟨os, hr⟩, ?_⟩
    intro os _
    constructor
    · intro hall
      obtain ⟨s, client, adc, hs, hclient, hadc⟩ := both_created c2p p2n allocated
      have hd := run_defaults hs
      have hconf := hall _ s hs
      obtain ⟨hip, hport⟩ := hconf.server client hclient
      have hrate := hconf.rate adc hadc
      rw [hd.client client hclient] at hip hport
      rw [hd.adc adc hadc] at hrate
      exact ⟨hip.symm, hport.symm, hrate.symm⟩
    · rintro ⟨hip, hport, hrate⟩ ls s hs
      have hd := run_defaults hs
      refine ⟨?_, ?_⟩
      · intro client hclient
        rw [hd.client client hclient, hip, hport]
        exact ⟨rfl, rfl⟩
      · intro adc hadc
        rw [hd.adc adc hadc, hrate]
        rfl
  · cases h
  · cases h

/-- Two ports, of which the last one is 8080 modulo `2 ^ 16`. -/
theorem options_effective_port :
    ∃ s₀, programStart ["-p", "9000", "--port", "73616"] pipelineRing pipelineRing (fun _ => true) =
        some s₀ ∧
      ∀ ls s, Runs.run step s₀ ls = some s → Configured [.port "9000", .port "73616"] s := by
  have hreads : Reads (["-p", "9000"] ++ (["--port", "73616"] ++ [])) [.port "9000", .port "73616"] :=
    .cons List.mem_cons_self (.cons (List.mem_cons_of_mem _ List.mem_cons_self) .nil)
  exact ⟨_, rfl, ((options_effective_iff rfl).2 _ hreads).mpr ⟨rfl, by decide, rfl⟩⟩

/-- The port option is accepted, and the client is created for port 8080. -/
theorem port_option_ignored :
    ∃ s₀ s client, programStart ["-p", "9000"] pipelineRing pipelineRing (fun _ => true) = some s₀ ∧
      Reads ["-p", "9000"] [.port "9000"] ∧
      Runs.run step s₀ (mainRun 10 ++ wrapperRun 0 5 ++ wrapperRun 2 4) = some s ∧
      s.pipeline.tcpClient = some client ∧ client.config.serverPort = 8080 ∧
      lastServerPort [.port "9000"] = 9000 := by
  have hreads : Reads (["-p", "9000"] ++ []) [.port "9000"] := .cons List.mem_cons_self .nil
  exact ⟨_, _, _, rfl, hreads, rfl, rfl, rfl, by decide⟩

end Application

end FastRing

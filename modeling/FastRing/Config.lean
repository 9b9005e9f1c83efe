import FastRing.Application

/-! # The system configuration

`config.c`: the default configuration, and `config_validate`, which checks one field after the
other and logs the first value it refuses. Nothing in the program calls either of them: see
`RateLimit` for what follows for the ADC simulator. -/

namespace FastRing

/-- `buffer_config_t`. -/
structure BufferConfig where
  ringBufferSize : UInt32
  bufferCount : UInt32
  batchSize : UInt32
  deriving DecidableEq, Repr

/-- `network_config_t`. -/
structure NetworkConfig where
  serverIp : String
  serverPort : UInt16
  sendTimeoutMs : UInt32
  recvTimeoutMs : UInt32
  bufferSize : UInt32
  keepAlive : Bool
  noDelay : Bool
  deriving DecidableEq, Repr

/-- `thread_config_t`. -/
structure ThreadConfig where
  capturePriority : Int32
  processPriority : Int32
  networkPriority : Int32
  stackSize : UInt32
  setAffinity : Bool
  cpuCore : Int32
  deriving DecidableEq, Repr

/-- `log_config_t`. -/
structure LogConfig where
  logFile : String
  logLevel : Int32
  logToFile : Bool
  logToConsole : Bool
  maxFileSize : UInt32
  maxBackupFiles : UInt32
  deriving DecidableEq, Repr

/-- `system_config_t`. -/
structure SystemConfig where
  adc : AdcConfig
  buffer : BufferConfig
  network : NetworkConfig
  thread : ThreadConfig
  log : LogConfig
  runTimeSeconds : Int32
  deriving DecidableEq, Repr

/-! ## The defaults -/

def configGetAdcDefault : AdcConfig :=
  { sampleRate := 40000, resolution := 32, channelCount := 1, enableTrigger := false }

def configGetBufferDefault : BufferConfig :=
  { ringBufferSize := ringBufferSize, bufferCount := 3, batchSize := 256 }

def configGetNetworkDefault : NetworkConfig :=
  { serverIp := "127.0.0.1", serverPort := 8080, sendTimeoutMs := 5000, recvTimeoutMs := 5000
    bufferSize := 65536, keepAlive := true, noDelay := true }

/-- The priorities are those of the POSIX variant. -/
def configGetThreadDefault : ThreadConfig :=
  { capturePriority := 99, processPriority := 80, networkPriority := 70, stackSize := 0
    setAffinity := false, cpuCore := 0 }

def configGetLogDefault : LogConfig :=
  { logFile := "", logLevel := 1, logToFile := false, logToConsole := true
    maxFileSize := 10485760, maxBackupFiles := 3 }

def configGetDefault : SystemConfig :=
  { adc := configGetAdcDefault
    buffer := configGetBufferDefault
    network := configGetNetworkDefault
    thread := configGetThreadDefault
    log := configGetLogDefault
    runTimeSeconds := -1 }

/-! ## Validation -/

/-- A check of `config_validate`: which configurations it refuses, and the text and the value
it logs then. -/
structure ConfigCheck where
  refuses : SystemConfig → Bool
  text : String
  value : SystemConfig → Nat

def ConfigCheck.message (check : ConfigCheck) (config : SystemConfig) : String :=
  check.text ++ toString (check.value config)

def sampleRateCheck : ConfigCheck :=
  { refuses := fun config => config.adc.sampleRate = 0 ∨ config.adc.sampleRate > 1000000
    text := "Invalid sample rate: "
    value := fun config => config.adc.sampleRate.toNat }

def resolutionCheck : ConfigCheck :=
  { refuses := fun config => config.adc.resolution = 0 ∨ config.adc.resolution > 32
    text := "Invalid ADC resolution: "
    value := fun config => config.adc.resolution.toNat }

def ringBufferSizeCheck : ConfigCheck :=
  { refuses := fun config =>
      config.buffer.ringBufferSize < 256 ∨ config.buffer.ringBufferSize > 1048576
    text := "Invalid buffer size: "
    value := fun config => config.buffer.ringBufferSize.toNat }

def serverPortCheck : ConfigCheck :=
  { refuses := fun config => config.network.serverPort = 0
    text := "Invalid port: "
    value := fun config => config.network.serverPort.toNat }

/-- The checks in the order of `config_validate`. -/
def configChecks : List ConfigCheck :=
  [sampleRateCheck, resolutionCheck, ringBufferSizeCheck, serverPortCheck]

/-- `config_validate`, for `NULL` or a configuration: its result and what it logs. -/
def configValidate : Option SystemConfig → Bool × Option String
  | none => (false, none)
  | some config =>
    match configChecks.find? (·.refuses config) with
    | some check => (false, some (check.message config))
    | none => (true, none)

/-- A configuration is valid if no check refuses it; otherwise the message is that of a check
that does. -/
theorem configValidate_cases (config : SystemConfig) :
    ((∀ check ∈ configChecks, check.refuses config = false) ∧
        configValidate (some config) = (true, none)) ∨
      ∃ check ∈ configChecks, check.refuses config = true ∧
        configValidate (some config) = (false, some (check.message config)) := by
  cases hfind : configChecks.find? (fun check => check.refuses config) with
  | none =>
    refine .inl ⟨?_, by simp only [configValidate, hfind]⟩
    intro check hmem
    simpa using List.find?_eq_none.mp hfind check hmem
  | some check =>
    have hrefuses : check.refuses config = true :=
      List.find?_some (p := fun check : ConfigCheck => check.refuses config) hfind
    exact .inr ⟨check, List.mem_of_find?_eq_some hfind, hrefuses, by simp only [configValidate, hfind]⟩

/-- The sample rates that `config_validate` accepts. -/
theorem validated_rate {config : SystemConfig} (h : (configValidate (some config)).1 = true) :
    1 ≤ config.adc.sampleRate.toNat ∧ config.adc.sampleRate.toNat ≤ 1000000 := by
  rcases configValidate_cases config with ⟨haccepts, _⟩ | ⟨check, _, _, hfalse⟩
  · have hrate := haccepts sampleRateCheck (by simp [configChecks])
    simp only [sampleRateCheck, decide_eq_false_iff_not, not_or, gt_iff_lt,
      UInt32.lt_iff_toNat_lt] at hrate
    have hzero : config.adc.sampleRate.toNat ≠ 0 := fun he => hrate.1 (UInt32.toNat_inj.mp he)
    have hle : ¬ 1000000 < config.adc.sampleRate.toNat := hrate.2
    omega
  · rw [hfalse] at h
    cases h

theorem configGetDefault_valid : configValidate (some configGetDefault) = (true, none) := rfl

end FastRing

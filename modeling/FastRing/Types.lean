import Mathlib.Logic.Basic

/-! The types and constants of `adc_types.h`. The `double` fields of the system
statistics are only printed, and are left out. -/

namespace FastRing

def ringBufferSize : UInt32 := 16384

def samplesPerBlock : UInt32 := 256

def dataBlockMagic : UInt32 := 0xADC0DA7A

def dataBlockVersion : UInt32 := 1

/-- `adc_error_t`. -/
inductive AdcError where
  | ok
  | errorInit
  | errorBuffer
  | errorNetwork
  | errorThread
  | errorTimeout
  | errorInvalidParam
  deriving DecidableEq, Repr

/-- `adc_sample_t`: 16 bytes, without padding. -/
structure AdcSample where
  timestamp : UInt32
  value : Int32
  sequence : UInt32
  channel : UInt16
  flags : UInt16
  deriving DecidableEq, Repr, Inhabited

/-- `data_block_t`: a 24-byte header and the flexible array of samples. -/
structure DataBlock where
  magic : UInt32
  version : UInt32
  sequence : UInt32
  sampleCount : UInt32
  timestamp : UInt64
  samples : List AdcSample
  deriving DecidableEq, Repr

/-- `sizeof(data_block_t)`. -/
def dataBlockSize : Nat := 24

/-- `sizeof(adc_sample_t)`. -/
def adcSampleSize : Nat := 16

/-- The counters of `system_stats_t`. -/
structure SystemStats where
  totalSamples : UInt64
  droppedSamples : UInt64
  sentBytes : UInt64
  sendErrors : UInt64
  deriving DecidableEq, Repr

end FastRing

import Mathlib.Data.List.Basic

/-! # The command line

The loop of `main` over its arguments. An argument is a C string, with a `Char` for
each of its characters. The loop accepts exactly the argument lists that are made of
options, in their short or long form and with their values, and of several options of
one kind the last one wins. -/

namespace FastRing

/-- `log_level_t`. -/
inductive LogLevel where
  | debug
  | info
  | warn
  | error
  | fatal
  deriving DecidableEq, Repr

/-- The variables of `main` that the options set. -/
structure Options where
  serverIp : String
  serverPort : UInt16
  sampleRate : UInt32
  runTimeSeconds : Int32
  logFile : Option String
  logLevel : LogLevel
  deriving DecidableEq, Repr

def Options.default : Options :=
  { serverIp := "127.0.0.1", serverPort := 8080, sampleRate := 40000, runTimeSeconds := -1
    logFile := none, logLevel := .info }

/-! ## The C library -/

/-- `isspace` in the C locale. -/
def isSpace (c : Char) : Bool := c = ' ' || (9 ≤ c.toNat && c.toNat ≤ 13)

/-- The number the leading digits denote, behind digits that denote `acc`. -/
def digitsValue (acc : Nat) : List Char → Nat
  | [] => acc
  | c :: cs => if c.isDigit then digitsValue (10 * acc + (c.toNat - '0'.toNat)) cs else acc

/-- `LONG_MAX`, for 64 bits. -/
def longMax : Int := 9223372036854775807

/-- `strtol` to the base 10, which stays in the range of `long`. -/
def strtol (s : List Char) : Int :=
  match s.dropWhile isSpace with
  | '-' :: digits => max (-(digitsValue 0 digits)) (-longMax - 1)
  | '+' :: digits => min (digitsValue 0 digits) longMax
  | digits => min (digitsValue 0 digits) longMax

/-- `atoi`, which is `strtol` converted to `int`. -/
def atoi (s : String) : Int32 := Int32.ofInt (strtol s.toList)

/-- The string `strncpy` leaves in a buffer whose last byte, behind the first `n`, is
set to 0. -/
def strncpy (src : String) (n : Nat) : String := String.ofList (src.toList.take n)

/-! ## The loop -/

/-- What becomes of the arguments: the program runs, or it prints the help text and
returns 0, or it prints the unknown option and returns 1. -/
inductive ParseResult where
  | accepted (options : Options)
  | help
  | unknown (arg : String)
  deriving DecidableEq, Repr

def isOption (arg short long : String) : Bool := arg = short || arg = long

/-- The rest of the loop; `i + 1 < argc` holds when another argument follows. -/
def parseArguments (o : Options) : List String → ParseResult
  | [] => .accepted o
  | [arg] =>
    if isOption arg "-h" "--help" then .help
    else if isOption arg "-v" "--verbose" then .accepted { o with logLevel := .debug }
    else .unknown arg
  | arg :: value :: rest =>
    if isOption arg "-h" "--help" then .help
    else if isOption arg "-s" "--server" then
      parseArguments { o with serverIp := strncpy value 15 } rest
    else if isOption arg "-p" "--port" then
      parseArguments { o with serverPort := (atoi value).toUInt32.toUInt16 } rest
    else if isOption arg "-r" "--rate" then
      parseArguments { o with sampleRate := (atoi value).toUInt32 } rest
    else if isOption arg "-t" "--time" then
      parseArguments { o with runTimeSeconds := atoi value } rest
    else if isOption arg "-l" "--log" then parseArguments { o with logFile := some value } rest
    else if isOption arg "-v" "--verbose" then
      parseArguments { o with logLevel := .debug } (value :: rest)
    else .unknown arg

/-! ## Options -/

/-- An option with its value. -/
inductive CliOption where
  | server (value : String)
  | port (value : String)
  | rate (value : String)
  | time (value : String)
  | log (value : String)
  | verbose
  deriving DecidableEq, Repr

/-- The ways to write an option. -/
def CliOption.spellings : CliOption → List (List String)
  | .server value => [["-s", value], ["--server", value]]
  | .port value => [["-p", value], ["--port", value]]
  | .rate value => [["-r", value], ["--rate", value]]
  | .time value => [["-t", value], ["--time", value]]
  | .log value => [["-l", value], ["--log", value]]
  | .verbose => [["-v"], ["--verbose"]]

/-- What an option is for. -/
def CliOption.apply (o : Options) : CliOption → Options
  | .server value => { o with serverIp := strncpy value 15 }
  | .port value => { o with serverPort := (atoi value).toUInt32.toUInt16 }
  | .rate value => { o with sampleRate := (atoi value).toUInt32 }
  | .time value => { o with runTimeSeconds := atoi value }
  | .log value => { o with logFile := some value }
  | .verbose => { o with logLevel := .debug }

/-- The arguments are the options `os`, one after the other. -/
inductive Reads : List String → List CliOption → Prop
  | nil : Reads [] []
  | cons {args argv : List String} {option : CliOption} {os : List CliOption}
      (spelled : args ∈ option.spellings) (rest : Reads argv os) : Reads (args ++ argv) (option :: os)

theorem spelled {arg short long : String} (h : isOption arg short long = true) (values : List String) :
    arg :: values ∈ [short :: values, long :: values] := by
  have harg : arg = short ∨ arg = long := by simpa [isOption] using h
  rcases harg with rfl | rfl
  · exact List.mem_cons_self
  · exact List.mem_cons_of_mem _ List.mem_cons_self

/-- An option in front of further ones. -/
theorem Reads.option {o o' : Options} {args argv : List String} (option : CliOption)
    (spelled : args ∈ option.spellings)
    (h : ∃ os, Reads argv os ∧ o' = os.foldl CliOption.apply (option.apply o)) :
    ∃ os, Reads (args ++ argv) os ∧ o' = os.foldl CliOption.apply o := by
  obtain ⟨os, hr, rfl⟩ := h
  exact ⟨option :: os, .cons spelled hr, rfl⟩

/-- What the loop accepts is a list of options, all of which it applies. -/
theorem parseArguments_sound {o o' : Options} {argv : List String}
    (h : parseArguments o argv = .accepted o') :
    ∃ os, Reads argv os ∧ o' = os.foldl CliOption.apply o := by
  fun_induction parseArguments o argv with
  | case1 o =>
    cases h
    exact ⟨[], .nil, rfl⟩
  | case2 => cases h
  | case3 o arg _ hv =>
    cases h
    exact Reads.option .verbose (spelled hv []) ⟨[], .nil, rfl⟩
  | case4 => cases h
  | case5 => cases h
  | case6 o arg value rest _ hs ih => exact Reads.option (.server value) (spelled hs [value]) (ih h)
  | case7 o arg value rest _ _ hp ih => exact Reads.option (.port value) (spelled hp [value]) (ih h)
  | case8 o arg value rest _ _ _ hr ih => exact Reads.option (.rate value) (spelled hr [value]) (ih h)
  | case9 o arg value rest _ _ _ _ ht ih =>
    exact Reads.option (.time value) (spelled ht [value]) (ih h)
  | case10 o arg value rest _ _ _ _ _ hl ih =>
    exact Reads.option (.log value) (spelled hl [value]) (ih h)
  | case11 o arg value rest _ _ _ _ _ _ hv ih => exact Reads.option .verbose (spelled hv []) (ih h)
  | case12 => cases h

/-- Every list of options is accepted. -/
theorem parseArguments_complete {argv : List String} {os : List CliOption} (h : Reads argv os)
    (o : Options) : parseArguments o argv = .accepted (os.foldl CliOption.apply o) := by
  induction h generalizing o with
  | nil => rfl
  | @cons args argv option os hs _ ih =>
    cases option with
    | verbose =>
      rcases List.mem_pair.mp hs with rfl | rfl
      · cases argv with
        | nil => exact ih _
        | cons value rest => exact ih _
      · cases argv with
        | nil => exact ih _
        | cons value rest => exact ih _
    | _ => rcases List.mem_pair.mp hs with rfl | rfl <;> exact ih _

/-- A setting that options of one kind change has, after all options, the value of the
last one of that kind. -/
theorem foldl_apply_last {α : Type} {setting : Options → α} {f : CliOption → Option α}
    (h : ∀ o option, setting (CliOption.apply o option) = (f option).getD (setting o))
    (o : Options) (os : List CliOption) :
    setting (os.foldl CliOption.apply o) = (os.filterMap f).getLast?.getD (setting o) := by
  induction os generalizing o with
  | nil => rfl
  | cons option os ih =>
    rw [List.foldl_cons, ih, h, List.filterMap_cons]
    cases f option with
    | none => rfl
    | some value =>
      rw [List.getLast?_cons]
      rfl

/-! ## The values that count -/

def CliOption.serverIp? : CliOption → Option String
  | .server value => some (strncpy value 15)
  | _ => none

def CliOption.serverPort? : CliOption → Option UInt16
  | .port value => some (atoi value).toUInt32.toUInt16
  | _ => none

def CliOption.sampleRate? : CliOption → Option UInt32
  | .rate value => some (atoi value).toUInt32
  | _ => none

/-- The first 15 characters of the last server option. -/
def lastServerIp (os : List CliOption) : String :=
  (os.filterMap CliOption.serverIp?).getLast?.getD "127.0.0.1"

/-- The last port option modulo `2 ^ 16`. -/
def lastServerPort (os : List CliOption) : UInt16 :=
  (os.filterMap CliOption.serverPort?).getLast?.getD 8080

def lastSampleRate (os : List CliOption) : UInt32 :=
  (os.filterMap CliOption.sampleRate?).getLast?.getD 40000

/-- The arguments `main` accepts are lists of options, and of each kind the last one
counts. -/
theorem parseArguments_accepted_iff {argv : List String} {o : Options} :
    parseArguments .default argv = .accepted o ↔
      ∃ os, Reads argv os ∧ o = os.foldl CliOption.apply .default ∧ o.serverIp = lastServerIp os ∧
        o.serverPort = lastServerPort os ∧ o.sampleRate = lastSampleRate os := by
  constructor
  · intro h
    obtain ⟨os, hr, rfl⟩ := parseArguments_sound h
    refine ⟨os, hr, rfl, ?_, ?_, ?_⟩
    · refine foldl_apply_last (fun o option => ?_) .default os
      cases option <;> rfl
    · refine foldl_apply_last (fun o option => ?_) .default os
      cases option <;> rfl
    · refine foldl_apply_last (fun o option => ?_) .default os
      cases option <;> rfl
  · rintro ⟨os, hr, rfl, _⟩
    exact parseArguments_complete hr .default

example : parseArguments .default ["-p", "9000", "--port", " +73616x", "-v", "-s", "10.0.0.1"] =
    .accepted { Options.default with serverIp := "10.0.0.1", logLevel := .debug } := by
  decide

end FastRing

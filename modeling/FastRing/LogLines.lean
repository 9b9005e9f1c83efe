import FastRing.Logger
import FastRing.Lib.Critical

/-! # The log of many threads

The part of `log_message` that is under `g_log_lock`, for any number of threads: the line goes to the
console and to the log file, each flushed before the lock is released. So both get whole lines, in
one order, which is that of the calls for each thread, and at any moment there is at most the
beginning of one more line behind them. Calls below the minimum level do not come to the lock, and are
left out. -/

namespace FastRing

open Critical

/-- A stream of the C library: what is written out, and what is still in its buffer. -/
structure LogStream where
  out : List Char
  buffered : List Char
  deriving DecidableEq, Repr

/-- Of everything in the buffer the stream may write out a part, `early` characters, by itself. -/
def LogStream.print (s : LogStream) (text : List Char) (early : Nat) : LogStream :=
  { out := s.out ++ (s.buffered ++ text).take early, buffered := (s.buffered ++ text).drop early }

def LogStream.flush (s : LogStream) : LogStream := { out := s.out ++ s.buffered, buffered := [] }

/-- `stdout` and `g_log_file`. -/
structure Sinks where
  console : LogStream
  file : Option LogStream
  deriving DecidableEq, Repr

/-- A line to be printed, and what the streams write out by themselves. -/
structure LogEntry where
  text : List Char
  earlyConsole : Nat
  earlyFile : Nat
  deriving DecidableEq, Repr

/-! The four accesses of `log_message` under the lock. -/

def printConsole (e : LogEntry) (x : Sinks × Unit) : Sinks × Unit :=
  ({ x.1 with console := x.1.console.print e.text e.earlyConsole }, ())

def flushConsole (x : Sinks × Unit) : Sinks × Unit :=
  ({ x.1 with console := x.1.console.flush }, ())

def printFile (e : LogEntry) (x : Sinks × Unit) : Sinks × Unit :=
  ({ x.1 with file := x.1.file.map fun f => f.print e.text e.earlyFile }, ())

def flushFile (x : Sinks × Unit) : Sinks × Unit :=
  ({ x.1 with file := x.1.file.map LogStream.flush }, ())

/-- `log_message` under its lock. -/
def logSections : Sections LogEntry Sinks Unit where
  locals := fun _ => ()
  accesses := fun e => [printConsole e, flushConsole, printFile e, flushFile]

/-! ## One line -/

/-- A stream that has written out everything. -/
def LogStream.written (text : List Char) : LogStream := { out := text, buffered := [] }

@[simp] theorem LogStream.flush_written (text : List Char) :
    (LogStream.written text).flush = .written text := by
  simp [written, flush]

@[simp] theorem LogStream.flush_print (old text : List Char) (early : Nat) :
    ((LogStream.written old).print text early).flush = .written (old ++ text) := by
  simp [written, print, flush, List.append_assoc]

/-- Both sinks, with these texts written out. -/
def Sinks.written (console : List Char) (file : Option (List Char)) : Sinks :=
  { console := .written console, file := file.map LogStream.written }

theorem log_effect (e : LogEntry) (console : List Char) (file : Option (List Char)) :
    logSections.effect e (.written console file) =
      (.written (console ++ e.text) (file.map (· ++ e.text)), ()) := by
  cases file <;>
    simp [Sections.effect, perform, logSections, printConsole, flushConsole, printFile, flushFile,
      Sinks.written]

/-- In the middle of a line: the console has a part of it, and the file a part of that. -/
def MidLine (text console : List Char) (file : Option (List Char)) (s : Sinks) : Prop :=
  ∃ part part', s.console.out = console ++ part ∧ s.file.map LogStream.out = file.map (· ++ part') ∧
    part <+: text ∧ part' <+: part

theorem written_out (file : Option (List Char)) :
    (file.map LogStream.written).map LogStream.out = file.map (· ++ []) := by
  cases file <;> simp [LogStream.written]

theorem midLine_start (text console : List Char) (file : Option (List Char)) :
    MidLine text console file (.written console file) :=
  ⟨[], [], (List.append_nil _).symm, written_out file, List.nil_prefix, List.nil_prefix⟩

/-- After any of the four accesses. -/
theorem log_middle {e : LogEntry} {ran rest : List (Sinks × Unit → Sinks × Unit)}
    (h : logSections.accesses e = ran ++ rest) (console : List Char) (file : Option (List Char)) :
    MidLine e.text console file (perform ran (.written console file, ())).1 := by
  have hran : ran = (logSections.accesses e).take ran.length := by rw [h, List.take_left]
  have hle : ran.length ≤ 4 := by
    have := congrArg List.length h
    rw [List.length_append] at this
    exact Nat.le.intro this.symm
  have hconsole : (((LogStream.written console).print e.text e.earlyConsole).flush).out =
      console ++ e.text := congrArg LogStream.out (LogStream.flush_print _ _ _)
  rw [hran]
  generalize ran.length = k at hle
  match k, hle with
  | 0, _ => exact midLine_start _ _ _
  | 1, _ => exact ⟨_, [], rfl, written_out file, List.take_prefix _ _, List.nil_prefix⟩
  | 2, _ => exact ⟨e.text, [], hconsole, written_out file, List.prefix_rfl, List.nil_prefix⟩
  | 3, _ =>
    refine ⟨e.text, e.text.take e.earlyFile, hconsole, ?_, List.prefix_rfl, List.take_prefix _ _⟩
    cases file <;> rfl
  | 4, _ =>
    refine ⟨e.text, e.text, hconsole, ?_, List.prefix_rfl, List.prefix_rfl⟩
    cases file with
    | none => rfl
    | some text => exact congrArg (some ∘ LogStream.out) (LogStream.flush_print _ _ _)

/-! ## All interleavings -/

section

variable {ι : Type} [DecidableEq ι]

/-- The lines of the calls that have returned. -/
def linesOf (calls : List (ι × LogEntry × Unit)) : List Char := calls.flatMap fun c => c.2.1.text

omit [DecidableEq ι] in
/-- One at a time, the calls add their lines. -/
theorem log_replays {console : List Char} {file : Option (List Char)}
    {calls : List (ι × LogEntry × Unit)} {s : Sinks}
    (h : Replays logSections (.written console file) calls s) :
    s = .written (console ++ linesOf calls) (file.map (· ++ linesOf calls)) := by
  refine h.invariant (I := fun calls s => s = .written (console ++ linesOf calls)
    (file.map (· ++ linesOf calls))) ?_ ?_
  · cases file <;> simp [linesOf]
  · rintro calls _ i e rfl
    rw [log_effect]
    cases file <;> simp [linesOf]

/-- Whatever the interleaving: the console and the file get the lines of the calls that have returned,
in one order, and behind them at most the beginning of the line of a call that has the lock, the file
not more of it than the console. Each thread's lines are in the order of its calls, and as long as a
call is in progress one of them can go on. -/
theorem log_lines_whole (console : List Char) (file : Option (List Char))
    (ls : List (Label ι LogEntry)) (s : State ι LogEntry Sinks Unit)
    (h : Runs.run (step logSections) (State.init (.written console file)) ls = some s) :
    (∃ part part', s.shared.console.out = console ++ linesOf s.finished ++ part ∧
        s.shared.file.map LogStream.out = file.map (· ++ linesOf s.finished ++ part') ∧
        part' <+: part ∧ (s.owner = none → part = []) ∧
        ∀ i, s.owner = some i → ∃ e rest l, s.threads i = .inside e rest l ∧ part <+: e.text) ∧
      (∀ i, finishedBy i s.finished ++ (s.threads i).current = calledBy i ls) ∧
      ∀ i, s.threads i ≠ .outside →
        ∃ l t, (∀ j op, l ≠ .call j op) ∧ step logSections s l = some t := by
  have hserial := run_serial h
  refine ⟨?_, fun i => run_calls i h, fun i hi => hserial.exists_step hi⟩
  obtain ⟨base, hr, hh⟩ := hserial
  have hbase := log_replays hr
  subst hbase
  cases hh with
  | free owner shared =>
    refine ⟨[], [], ?_, ?_, List.prefix_rfl, fun _ => rfl, fun i hi => ?_⟩
    · rw [shared, List.append_nil]
      rfl
    · rw [shared]
      cases file <;> simp [Sinks.written, LogStream.written]
    · rw [owner] at hi
      cases hi
  | taken i e ran rest l owner here all shared =>
    obtain ⟨part, part', hconsole, hfile, hpart, hpart'⟩ := log_middle all (console ++ linesOf s.finished)
      (file.map (· ++ linesOf s.finished))
    rw [show perform ran _ = _ from shared.symm] at hconsole hfile
    refine ⟨part, part', hconsole, ?_, hpart', ?_, ?_⟩
    · rw [hfile, Option.map_map]
      rfl
    · intro hfree
      rw [owner] at hfree
      cases hfree
    · intro j hj
      rw [owner] at hj
      cases hj
      exact ⟨e, rest, l, here, hpart⟩

end

/-- Two threads; the second to call is the first to get the lock. -/
def twoThreads : List (Label Bool LogEntry) :=
  [.call true { text := ['a', '\n'], earlyConsole := 0, earlyFile := 0 },
    .call false { text := ['b', '\n'], earlyConsole := 1, earlyFile := 2 },
    .lock false, .access false, .access false, .access false, .access false, .unlock false,
    .lock true, .access true, .access true]

theorem log_lines_whole_two : ∃ s : State Bool LogEntry Sinks Unit,
    Runs.run (step logSections) (State.init (.written [] (some []))) twoThreads = some s ∧
      linesOf s.finished = ['b', '\n'] ∧
      ∃ part part', s.shared.console.out = [] ++ linesOf s.finished ++ part ∧
        s.shared.file.map LogStream.out = some ([] ++ linesOf s.finished ++ part') ∧
        part' <+: part := by
  refine ⟨_, rfl, rfl, ?_⟩
  obtain ⟨⟨part, part', hconsole, hfile, hpart, _⟩, _⟩ :=
    log_lines_whole [] (some []) twoThreads _ rfl
  exact ⟨part, part', hconsole, hfile, hpart⟩

/-! ## Logging in a signal handler -/

/-- `signal_handler` logs, on top of the thread that gets the signal, with a lock that is not
recursive: it can return if and only if that thread was not inside `log_message`'s lock. -/
theorem signal_handler_returns_iff {ι : Type} [DecidableEq ι] (console : List Char)
    (file : Option (List Char)) (ls : List (Label ι LogEntry)) (s : State ι LogEntry Sinks Unit)
    (h : Runs.run (step logSections) (State.init (.written console file)) ls = some s)
    (interrupted handler : ι) (hne : handler ≠ interrupted) (e : LogEntry)
    (hw : s.threads handler = .waiting e) :
    (∃ ls' t, (∀ l ∈ ls', NotBy interrupted l) ∧ Runs.run (step logSections) s ls' = some t ∧
        t.threads handler = .outside) ↔
      ∀ e' rest l, s.threads interrupted ≠ .inside e' rest l :=
  handler_returns_iff hne (run_serial h) hw

/-- The signal comes while `true` prints a line. -/
def signalInside : List (Label Bool LogEntry) :=
  [.call true { text := ['a', '\n'], earlyConsole := 0, earlyFile := 0 }, .lock true, .access true,
    .call false { text := ['b', '\n'], earlyConsole := 0, earlyFile := 0 }]

theorem signal_handler_returns_iff_inside : ∃ s : State Bool LogEntry Sinks Unit,
    Runs.run (step logSections) (State.init (.written [] none)) signalInside = some s ∧
      ¬ ∃ ls' t, (∀ l ∈ ls', NotBy true l) ∧ Runs.run (step logSections) s ls' = some t ∧
        t.threads false = .outside := by
  refine ⟨_, rfl, fun hreturns => ?_⟩
  have hiff := signal_handler_returns_iff [] none signalInside _ rfl true false Bool.false_ne_true
    { text := ['b', '\n'], earlyConsole := 0, earlyFile := 0 } rfl
  exact hiff.mp hreturns _ _ _ rfl

end FastRing

import FastRing.Types
import FastRing.Lib.Runs
import Mathlib.Logic.Function.Basic

/-! # The thread manager

`thread_manager.c` with one controlling thread, which calls the functions of the
manager one after the other, and the `thread_wrapper` threads it creates. A step is
one access to the shared fields `running`, `paused` and `states`, the creation or
the join of a thread, or a step inside a worker function, which is left open here.
Threads are numbered in the order of their creation; `handles` is the field
`threads` of the manager. Reads of a manager that is already freed are modelled as
reads of its last contents. -/

namespace FastRing

/-- `thread_type_t`. -/
inductive ThreadType where
  | capture
  | process
  | network
  deriving DecidableEq, Repr

/-- The order of the loops over all thread types. -/
def ThreadType.all : List ThreadType := [.capture, .process, .network]

/-- `thread_state_t`. -/
inductive ThreadState where
  | idle
  | running
  | paused
  | error
  | stopped
  deriving DecidableEq, Repr

/-- Positions of a `thread_wrapper` thread: before it reads `running`, `paused`,
`states[type]`, inside the worker, before it writes `states[type]`, returned. -/
inductive WrapperPos where
  | readRunning
  | readPaused
  | readState
  | work (k : Nat)
  | exit
  | done
  deriving DecidableEq, Repr

structure Wrapper where
  type : ThreadType
  pos : WrapperPos
  joined : Bool
  deriving DecidableEq, Repr

def Wrapper.live (w : Wrapper) : Prop := w.pos ≠ .done

instance (w : Wrapper) : Decidable w.live := inferInstanceAs (Decidable (_ ≠ _))

/-- Positions of the controlling thread. In the loops `todo` lists the thread types
still ahead; `destroying` says that `thread_manager_destroy` called
`thread_manager_stop`. -/
inductive Controller where
  | idle
  -- thread_manager_start
  | unpause
  | setRunning (todo : List ThreadType)
  | create (type : ThreadType) (todo : List ThreadType)
  -- thread_manager_stop
  | join (todo : List ThreadType) (destroying : Bool)
  | setStopped (type : ThreadType) (todo : List ThreadType) (destroying : Bool)
  -- thread_manager_destroy
  | free
  deriving DecidableEq, Repr

/-- The manager and its threads. The last four fields are history: whether the
manager was freed, the threads the latest call of `thread_manager_start` created,
its result, and whether `thread_manager_stop` returned after stopping the threads. -/
structure Manager where
  running : Bool
  paused : Bool
  states : ThreadType → ThreadState
  handles : ThreadType → Option Nat
  threads : Nat → Option Wrapper
  next : Nat
  controller : Controller
  released : Bool
  created : List Nat
  startReturned : Option AdcError
  stopReturned : Bool

namespace Manager

/-- `thread_manager_create` and `thread_manager_init`. -/
def init : Manager :=
  { running := false
    paused := false
    states := fun _ => .idle
    handles := fun _ => none
    threads := fun _ => none
    next := 0
    controller := .idle
    released := false
    created := []
    startReturned := none
    stopReturned := false }

/-- A call of the controlling thread. -/
inductive Call where
  | start
  | stop
  | pause
  | resume
  | destroy
  deriving DecidableEq, Repr

/-- The call up to its first access that waits or loops. -/
def enter (m : Manager) : Call → Manager
  | .start =>
    if m.running then { m with startReturned := some .ok, created := [] }
    else
      { m with
        running := true
        controller := .unpause
        created := []
        startReturned := none
        stopReturned := false }
  | .stop =>
    if m.running then { m with running := false, controller := .join ThreadType.all false } else m
  | .pause => { m with paused := true }
  | .resume => { m with paused := false }
  | .destroy =>
    if m.running then { m with running := false, controller := .join ThreadType.all true }
    else { m with controller := .free }

/-- A new thread of the given type, and its handle. -/
def spawn (m : Manager) (type : ThreadType) : Manager :=
  { m with
    handles := Function.update m.handles type (some m.next)
    threads := Function.update m.threads m.next
      (some { type := type, pos := .readRunning, joined := false })
    next := m.next + 1
    created := m.created ++ [m.next] }

/-- The next access of the controlling thread inside a call; `created` says whether
a thread can be created. A join waits until the thread has returned. -/
def controllerStep (m : Manager) (created : Bool) : Option Manager :=
  match m.controller with
  | .idle => none
  | .unpause => some { m with paused := false, controller := .setRunning ThreadType.all }
  | .setRunning [] => some { m with controller := .idle, startReturned := some .ok }
  | .setRunning (type :: todo) =>
    some { m with
      states := Function.update m.states type .running
      controller := .create type todo }
  | .create type todo =>
    if created then some { m.spawn type with controller := .setRunning todo }
    else
      some { m with running := false, controller := .idle, startReturned := some .errorThread }
  | .join [] destroying =>
    some { m with controller := if destroying then .free else .idle, stopReturned := true }
  | .join (type :: todo) destroying =>
    match m.handles type with
    | none => some { m with controller := .setStopped type todo destroying }
    | some id =>
      match m.threads id with
      | none => none
      | some w =>
        if w.pos = .done then
          some { m with
            threads := Function.update m.threads id (some { w with joined := true })
            controller := .setStopped type todo destroying }
        else none
  | .setStopped type todo destroying =>
    some { m with
      states := Function.update m.states type .stopped
      controller := .join todo destroying }
  | .free => some { m with released := true, controller := .idle }

/-- The next position of a wrapper thread; inside the worker, `more` says whether
the worker goes on. -/
def wrapperNext (m : Manager) (w : Wrapper) (more : Bool) : WrapperPos :=
  match w.pos with
  | .readRunning => if m.running then .readPaused else .exit
  | .readPaused => if m.paused then .readRunning else .readState
  | .readState => if m.states w.type = .running then .work 0 else .readRunning
  | .work k => if more then .work (k + 1) else .readRunning
  | .exit | .done => .done

/-- The next access of wrapper thread `id`. -/
def wrapperStep (m : Manager) (id : Nat) (more : Bool) : Option Manager :=
  match m.threads id with
  | none => none
  | some w =>
    if w.pos = .done then none
    else
      some { m with
        states := if w.pos = .exit then Function.update m.states w.type .stopped else m.states
        threads := Function.update m.threads id (some { w with pos := m.wrapperNext w more }) }

inductive Label where
  | call (c : Call)
  | controller (created : Bool)
  | wrapper (id : Nat) (more : Bool)
  deriving DecidableEq, Repr

def step (m : Manager) : Label → Option Manager
  | .call c => if m.controller = .idle ∧ m.released = false then some (m.enter c) else none
  | .controller created => m.controllerStep created
  | .wrapper id more => m.wrapperStep id more

end Manager

end FastRing

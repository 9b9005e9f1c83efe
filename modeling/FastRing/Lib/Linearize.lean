import Mathlib.Logic.Function.Basic
import FastRing.Lib.Runs

/-! Objects that several threads use at the same time. An `Object` says what a call does, in
at most two moments: a look at the state, and the effect, which may depend on what the look
has seen. In the atomic object the calls of the threads overlap, but the look and the effect
of each are single moments between its call and its return.

A system is as good as the atomic object if whatever its threads call and get back could be
called and got back there. A simulation proves it that says, step by step, which looks and
effects take place. -/

namespace Linearize

variable {ι Op Obs Ret S T L : Type}

/-- What calls see and do, one at a time. -/
structure Object (Op Obs Ret S : Type) where
  look : S → Op → Obs
  effect : S → Op → Obs → Ret × S

/-- The whole call happens at the moment of its effect. -/
def Object.Single (O : Object Op Obs Ret S) (op : Op) : Prop :=
  ∀ s o o', O.effect s op o = O.effect s op o'

/-- How far the call of a thread is. -/
inductive Pending (Op Obs Ret : Type) where
  | idle
  | called (op : Op)
  | looked (op : Op) (obs : Obs)
  | done (ret : Ret)

/-- What the outside sees. -/
inductive Event (ι Op Ret : Type) where
  | call (i : ι) (op : Op)
  | ret (i : ι) (ret : Ret)
  deriving DecidableEq

/-- The object in use by the threads `ι`. -/
structure Atomic (ι Op Obs Ret S : Type) where
  state : S
  pending : ι → Pending Op Obs Ret

/-- The object before any call. -/
def Atomic.init (s : S) : Atomic ι Op Obs Ret S := { state := s, pending := fun _ => .idle }

/-- Thread `i` is now as far as `p`. -/
def Atomic.set [DecidableEq ι] (a : Atomic ι Op Obs Ret S) (i : ι) (p : Pending Op Obs Ret) :
    Atomic ι Op Obs Ret S :=
  { a with pending := Function.update a.pending i p }

section

variable [DecidableEq ι] (O : Object Op Obs Ret S)

/-- A call, a look, an effect or a return, with what the outside sees of it. -/
inductive Object.Step (a : Atomic ι Op Obs Ret S) :
    List (Event ι Op Ret) → Atomic ι Op Obs Ret S → Prop
  | call {i : ι} (op : Op) (idle : a.pending i = .idle) : Step a [.call i op] (a.set i (.called op))
  | look {i : ι} {op : Op} (called : a.pending i = .called op) :
      Step a [] (a.set i (.looked op (O.look a.state op)))
  | effect {i : ι} {op : Op} {obs : Obs} (looked : a.pending i = .looked op obs) :
      Step a []
        { a.set i (.done (O.effect a.state op obs).1) with state := (O.effect a.state op obs).2 }
  | ret {i : ι} {r : Ret} (done : a.pending i = .done r) : Step a [.ret i r] (a.set i .idle)

/-- A run of the atomic object, with its history. -/
inductive Object.Run : Atomic ι Op Obs Ret S → List (Event ι Op Ret) → Atomic ι Op Obs Ret S → Prop
  | refl (a : Atomic ι Op Obs Ret S) : Run a [] a
  | step {a b c : Atomic ι Op Obs Ret S} {es es' : List (Event ι Op Ret)} (first : O.Step a es b)
      (rest : Run b es' c) : Run a (es ++ es') c

variable {O} {a b c : Atomic ι Op Obs Ret S} {es es' : List (Event ι Op Ret)}

theorem Object.Step.run (h : O.Step a es b) : O.Run a es b := by
  have := Object.Run.step h (.refl b)
  rwa [List.append_nil] at this

theorem Object.Run.trans (h : O.Run a es b) (h' : O.Run b es' c) : O.Run a (es ++ es') c := by
  induction h with
  | refl => exact h'
  | step first _ ih =>
    rw [List.append_assoc]
    exact .step first (ih h')

@[simp] theorem Atomic.set_state (a : Atomic ι Op Obs Ret S) (i : ι) (p : Pending Op Obs Ret) :
    (a.set i p).state = a.state := rfl

@[simp] theorem Atomic.set_self (a : Atomic ι Op Obs Ret S) (i : ι) (p : Pending Op Obs Ret) :
    (a.set i p).pending i = p := Function.update_self _ _ _

theorem Atomic.set_set (a : Atomic ι Op Obs Ret S) (i : ι) (p p' : Pending Op Obs Ret) :
    (a.set i p).set i p' = a.set i p' := by
  simp only [Atomic.set, Function.update_idem]

/-- The look and, at the same moment, the effect. -/
theorem Object.run_at_once {i : ι} {op : Op} (h : a.pending i = .called op) :
    O.Run a []
      { a.set i (.done (O.effect a.state op (O.look a.state op)).1) with
        state := (O.effect a.state op (O.look a.state op)).2 } := by
  have hlook := (Object.Step.look (O := O) h).run
  have heffect := (Object.Step.effect (O := O)
    (a.set_self i (.looked op (O.look a.state op)))).run
  rw [Atomic.set_set] at heffect
  exact hlook.trans heffect

end

/-! ## Systems -/

section

variable {step : T → L → Option T}

/-- What the outside sees of the run `ls` from `s`, if it sees `view` of each step. -/
def history (step : T → L → Option T) (view : T → L → List (Event ι Op Ret)) :
    T → List L → List (Event ι Op Ret)
  | _, [] => []
  | s, l :: ls =>
    match step s l with
    | none => []
    | some t => view s l ++ history step view t ls

/-- If every step of the system goes along with a run of the atomic object that shows the same,
so does every run. -/
theorem run_of_simulation [DecidableEq ι] {O : Object Op Obs Ret S}
    {view : T → L → List (Event ι Op Ret)} {R : T → Atomic ι Op Obs Ret S → Prop}
    (hstep : ∀ s a l t, R s a → step s l = some t → ∃ b, O.Run a (view s l) b ∧ R t b)
    {s u : T} {a : Atomic ι Op Obs Ret S} {ls : List L} (h0 : R s a)
    (h : Runs.run step s ls = some u) : ∃ b, O.Run a (history step view s ls) b ∧ R u b := by
  induction ls generalizing s a with
  | nil =>
    cases h
    exact ⟨a, .refl a, h0⟩
  | cons l ls ih =>
    obtain ⟨t, hs, ht⟩ := Runs.run_cons h
    obtain ⟨b, hb, hr⟩ := hstep s a l t h0 hs
    obtain ⟨c, hc, hr'⟩ := ih hr ht
    refine ⟨c, ?_, hr'⟩
    rw [history, hs]
    exact hb.trans hc

end

end Linearize

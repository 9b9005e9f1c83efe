import FastRing.Shutdown
import FastRing.WorkerProgress

/-! # The program comes to its end

Once `main` has left its loop, the process ends after a bounded number of steps of `main` and of
the wrapper threads, whatever their interleaving, the answers of the network and the ADC capture
thread, which goes on meanwhile: each wrapper thread is over with the iteration it is in, or one
more, then finds `running` cleared and returns, and `main` joins them one after the other. -/

namespace FastRing

/-! ## The thread manager -/

/-- `main` is in `thread_manager_destroy`, in a join loop that goes on to the release, or behind
it. -/
def Controller.isDestroying : Controller → Bool
  | .join _ destroying | .setStopped _ _ destroying => destroying
  | .free => true
  | _ => false

/-- At most so many steps until `thread_manager_destroy` has released the manager. -/
def Controller.left : Controller → Nat
  | .join todo _ => 2 * todo.length + 2
  | .setStopped _ todo _ => 2 * todo.length + 3
  | .free => 1
  | _ => 0

/-- At most so many steps until a wrapper thread has returned, once `running` is cleared; `work`
tells how long its worker goes on, and `longest` how long an iteration takes. -/
def Wrapper.left (work longest : ThreadType → Nat) (w : Wrapper) : Nat :=
  match w.pos with
  | .done => 0
  | .exit => 1
  | .readRunning => 2
  | .work _ => work w.type + 3
  | .readState => longest w.type + 4
  | .readPaused => longest w.type + 5

namespace Manager

variable {m t : Manager} {work work' longest : ThreadType → Nat}

/-- The manager is being destroyed or is released. -/
structure Ending (m : Manager) : Prop where
  running : m.running = false
  destroying : m.released = true ∨ m.controller.isDestroying = true

/-- At most so many steps until the thread of a type has returned. -/
def threadLeft (work longest : ThreadType → Nat) (m : Manager) (type : ThreadType) : Nat :=
  match (m.handles type).bind m.threads with
  | none => 0
  | some w => if w.type = type then w.left work longest else 0

theorem destroy_ending (h : m.step (.call .destroy) = some t) : Ending t := by
  simp only [step] at h
  split at h
  · cases h
    simp only [enter]
    split
    · exact ⟨rfl, .inr rfl⟩
    · rename_i hrun
      exact ⟨by simpa using hrun, .inr rfl⟩
  · cases h

/-- `main` goes on in `thread_manager_destroy`, and leaves the threads as far as they are. -/
theorem controllerStep_ending (work longest : ThreadType → Nat) (h : Ending m)
    (hr : m.released = false) {created : Bool} (hs : m.controllerStep created = some t) :
    Ending t ∧ (t.released = true ∧ 0 < m.controller.left ∨
        t.released = false ∧ t.controller.left < m.controller.left) ∧
      ∀ type, t.threadLeft work longest type = m.threadLeft work longest type := by
  have hd := h.destroying.resolve_left (by simp [hr])
  cases controllerStep_move hs with
  | unpause hc | started hc | setRunning hc | create hc | fail hc => rw [hc] at hd; cases hd
  | stopped hc =>
    rw [hc] at hd
    obtain rfl : _ = true := hd
    exact ⟨⟨h.running, .inr rfl⟩, .inr ⟨hr, by simp [hc, Controller.left]⟩, fun _ => rfl⟩
  | noHandle hc =>
    rw [hc] at hd
    refine ⟨⟨h.running, .inr hd⟩, .inr ⟨hr, ?_⟩, fun _ => rfl⟩
    simp only [hc, Controller.left, List.length_cons]
    omega
  | @join _ _ _ id w hc _ hw =>
    rw [hc] at hd
    refine ⟨⟨h.running, .inr hd⟩, .inr ⟨hr, ?_⟩, fun type => ?_⟩
    · simp only [hc, Controller.left, List.length_cons]
      omega
    · unfold threadLeft
      cases hh : m.handles type with
      | none => rfl
      | some id' =>
        by_cases hid : id' = id
        · subst hid
          simp only [Option.bind_some, Function.update_self, hw, Wrapper.left]
        · simp only [Option.bind_some, Function.update_of_ne hid]
  | setStopped hc =>
    rw [hc] at hd
    refine ⟨⟨h.running, .inr hd⟩, .inr ⟨hr, ?_⟩, fun _ => rfl⟩
    simp only [hc, Controller.left]
    omega
  | free hc =>
    exact ⟨⟨h.running, .inl rfl⟩, .inl ⟨rfl, by simp [hc, Controller.left]⟩, fun _ => rfl⟩

theorem wrapperStep_ending (h : Ending m) {id : Nat} {more : Bool}
    (hs : m.wrapperStep id more = some t) : Ending t := by
  obtain ⟨w, states, pos, _, _, _, rfl⟩ := wrapperStep_frame hs
  exact ⟨h.running, h.destroying⟩

/-- A wrapper thread is nearer to its return, and no other one is farther from its own. -/
theorem threadLeft_lt (h : Owned m) {id : Nat} {w w' : Wrapper} (hw : m.threads id = some w)
    (ht : t.threads = Function.update m.threads id (some w')) (hh : t.handles = m.handles)
    (hty : w'.type = w.type) (hwork : ∀ type, type ≠ w.type → work' type = work type)
    (hlt : w'.left work' longest < w.left work longest) (type : ThreadType) :
    t.threadLeft work' longest type ≤ m.threadLeft work longest type ∧
      (type = w.type → t.threadLeft work' longest type < m.threadLeft work longest type) := by
  unfold threadLeft
  rw [hh, ht]
  cases hht : m.handles type with
  | none =>
    refine ⟨Nat.le_refl _, fun htype => ?_⟩
    rw [htype, h.owner id w hw] at hht
    cases hht
  | some id' =>
    simp only [Option.bind_some]
    by_cases hid : id' = id
    · simp only [hid, Function.update_self, hw, hty]
      split
      · exact ⟨Nat.le_of_lt hlt, fun _ => hlt⟩
      · rename_i hne
        exact ⟨Nat.le_refl _, fun htype => absurd htype.symm hne⟩
    · rw [Function.update_of_ne hid]
      refine ⟨?_, fun htype => ?_⟩
      · cases hw' : m.threads id' with
        | none => exact Nat.le_refl _
        | some v =>
          have hv : v.type ≠ w.type := fun heq => hid (h.single hw' hw heq)
          simp only [Wrapper.left, hwork v.type hv]
          exact Nat.le_refl _
      · rw [htype, h.owner id w hw] at hht
        cases hht
        exact absurd rfl hid

/-- Outside its worker, a wrapper thread gets nearer to its return with every step. -/
theorem wrapperNext_left (hrun : m.running = false) (w : Wrapper) (hdone : w.pos ≠ .done)
    (hpos : ∀ k, w.pos ≠ .work k) (hle : ∀ type, work type ≤ longest type) :
    Wrapper.left work longest { w with pos := m.wrapperNext w false } < w.left work longest := by
  have hw := hle w.type
  cases hp : w.pos with
  | readRunning => simp [wrapperNext, hp, hrun, Wrapper.left]
  | readPaused =>
    cases hpaused : m.paused with
    | true => simp [wrapperNext, hp, hpaused, Wrapper.left]
    | false => simp [wrapperNext, hp, hpaused, Wrapper.left]
  | readState =>
    simp only [Wrapper.left, hp, wrapperNext]
    by_cases hstate : m.states w.type = .running
    · rw [if_pos hstate]
      exact Nat.lt_succ_of_le (Nat.add_le_add_right hw 3)
    · rw [if_neg hstate]
      exact Nat.lt_of_lt_of_le (show 2 < 4 by decide) (Nat.le_add_left 4 _)
  | work k => exact absurd hp (hpos k)
  | exit => simp [wrapperNext, hp, Wrapper.left]
  | done => exact absurd hp hdone

end Manager

/-! ## The capture worker -/

/-- At most so many steps until the iteration of the capture worker is over. -/
def CapturePos.todo : CapturePos → Nat
  | .getAdc => 8
  | .createAdc => 7
  | .setCallback => 6
  | .start false => 5
  | .createThread false => 4
  | .checkRunning => 3
  | .start true => 2
  | .createThread true => 1

namespace Application

variable {s t u : Application} {p₁ p₂ : Nat}

theorem captureStep_left {env : WorkerEnv} (hs : s.captureStep env = some t) :
    t.capture = .getAdc ∨ t.capture.todo < s.capture.todo := by
  cases captureStep_move hs with
  | getAdc pos =>
    right
    simp only [pos]
    split <;> simp [CapturePos.todo]
  | noMemory => exact .inl rfl
  | create pos | setCallback pos =>
    right
    simp [pos, CapturePos.todo]
  | @running restart _ pos | @createThread restart pos | @noThread restart pos =>
    cases restart with
    | true => exact .inl rfl
    | false =>
      right
      simp [pos, CapturePos.todo]
  | @start restart _ pos =>
    right
    cases restart <;> simp [pos, CapturePos.todo]
  | checkRunning pos =>
    simp only [pos]
    split
    · exact .inl rfl
    · right; simp [CapturePos.todo]

/-! ## The program -/

/-- At most so many steps until the worker of a type returns. -/
def workLeft (p₁ p₂ : Nat) (s : Application) : ThreadType → Nat
  | .capture => s.capture.todo
  | .process => s.pipeline.processLeft p₁ p₂
  | .network => s.pipeline.networkLeft p₂

/-- The length of a whole iteration. -/
def iteration (p₁ p₂ : Nat) : ThreadType → Nat
  | .capture => 8
  | .process => min 256 p₁ + min 256 p₂ + 11
  | .network => min 256 p₂ + 10

/-- At most so many steps of `main` once it has left its loop. -/
def mainLeft (s : Application) : Nat :=
  match s.main with
  | .destroying => if s.tm.released then 2 else s.tm.controller.left + 2
  | .closing => 1
  | _ => 0

/-- At most so many steps of `main` and the wrapper threads. -/
def left (p₁ p₂ : Nat) (s : Application) : Nat :=
  s.mainLeft + (s.tm.threadLeft (s.workLeft p₁ p₂) (iteration p₁ p₂) .capture +
    s.tm.threadLeft (s.workLeft p₁ p₂) (iteration p₁ p₂) .process +
    s.tm.threadLeft (s.workLeft p₁ p₂) (iteration p₁ p₂) .network)

/-- `main` is past its loop. -/
def leaving (s : Application) : Prop :=
  s.main = .destroying ∨ s.main = .closing ∨ s.main = .exit

structure Live (p₁ p₂ : Nat) (s : Application) : Prop where
  inv : Inv s
  steady : s.pipeline.Steady p₁ p₂
  adc : s.capture ≠ .getAdc → s.capture ≠ .createAdc → s.adc ≠ none
  ending : s.leaving → s.tm.Ending

theorem init_live {c2p p2n : RingBuffer AdcSample} (h : c2p.Fresh) (h' : p2n.Fresh)
    (allocated : Nat → Bool) :
    Live (c2p.capacity.toNat - 1) (p2n.capacity.toNat - 1) (init c2p p2n allocated) :=
  ⟨init_invariant c2p p2n allocated, Pipeline.init_steady h h' 0 allocated,
    fun h => absurd rfl h, fun h => by rcases h with h | h | h <;> cases h⟩

theorem Live.workLeft_le (h : Live p₁ p₂ s) (type : ThreadType) :
    s.workLeft p₁ p₂ type ≤ iteration p₁ p₂ type := by
  cases type with
  | capture =>
    simp only [workLeft, iteration]
    cases s.capture with
    | start restart | createThread restart => cases restart <;> decide
    | _ => decide
  | process => exact h.steady.processLeft_le
  | network => exact h.steady.networkLeft_le

/-! ## The workers -/

theorem captureStep_adc {env : WorkerEnv} (h : Live p₁ p₂ s) (hs : s.captureStep env = some t) :
    t.capture ≠ .getAdc → t.capture ≠ .createAdc → t.adc ≠ none := by
  have hadc := h.adc
  intro hget hcreate
  cases captureStep_move hs with
  | getAdc pos =>
    simp only at hget hcreate ⊢
    split at hcreate
    · rename_i hsome
      intro hnone
      simp [hnone] at hsome
    · exact absurd rfl hcreate
  | noMemory => exact absurd rfl hget
  | create | start => nofun
  | setCallback pos | noThread pos =>
    rw [pos] at hadc
    simpa using hadc nofun nofun
  | running pos | createThread pos | checkRunning pos =>
    rw [pos] at hadc
    exact hadc nofun nofun

/-- What a worker's step keeps, and how far it gets. -/
theorem workerStep_live (h : Live p₁ p₂ s) {type : ThreadType} {env : WorkerEnv}
    (hs : s.workerStep type env = some u) :
    u.pipeline.Steady p₁ p₂ ∧ (u.capture ≠ .getAdc → u.capture ≠ .createAdc → u.adc ≠ none) ∧
      (u.working type = false ∨ u.workLeft p₁ p₂ type < s.workLeft p₁ p₂ type) ∧
      ∀ type', type' ≠ type → u.workLeft p₁ p₂ type' = s.workLeft p₁ p₂ type' := by
  cases type with
  | capture =>
    obtain ⟨startTime, sequence, hp⟩ := captureStep_pipeline hs
    refine ⟨?_, captureStep_adc h hs, ?_, fun type' hne => ?_⟩
    · rw [hp]
      exact h.steady.frame (Application.session_inv h.steady.inv startTime sequence) rfl rfl rfl rfl
        rfl
    · rcases captureStep_left hs with hget | hless
      · exact .inl (by simp [working, hget])
      · exact .inr hless
    · cases type' with
      | capture => exact absurd rfl hne
      | process | network =>
        simp only [workLeft, hp]
        rfl
  | process =>
    obtain ⟨pipeline, hp, rfl⟩ := Option.map_eq_some_iff.mp hs
    obtain ⟨hsteady, hleft⟩ := Pipeline.processStep_left h.steady hp
    refine ⟨hsteady, h.adc, ?_, fun type' hne => ?_⟩
    · rcases hleft with ⟨hprod, hcons⟩ | hless
      · exact .inl (by simp [working, hprod, hcons, Producer.isIdle, Consumer.isIdle])
      · exact .inr hless
    · cases type' with
      | capture => rfl
      | process => exact absurd rfl hne
      | network => exact Pipeline.processStep_network hp
  | network =>
    obtain ⟨pipeline, hp, rfl⟩ := Option.map_eq_some_iff.mp hs
    obtain ⟨hsteady, hleft⟩ := Pipeline.networkStep_left h.steady hp
    refine ⟨hsteady, h.adc, ?_, fun type' hne => ?_⟩
    · rcases hleft with hidle | hless
      · exact .inl (by simp [working, hidle, NetworkPos.isIdle])
      · exact .inr hless
    · cases type' with
      | capture => rfl
      | process => exact Pipeline.networkStep_process hp
      | network => exact absurd rfl hne

theorem captureStep_isSome (h : Live p₁ p₂ s) (env : WorkerEnv) : ∃ t, s.captureStep env = some t := by
  have hadc := h.adc
  cases pos : s.capture with
  | getAdc | setCallback => exact ⟨_, by simp only [captureStep, pos]; rfl⟩
  | createAdc =>
    simp only [captureStep, pos]
    split <;> exact ⟨_, rfl⟩
  | start restart | checkRunning =>
    obtain ⟨adc, ha⟩ := Option.ne_none_iff_exists'.mp
      (hadc (by rw [pos]; rintro ⟨⟩) (by rw [pos]; rintro ⟨⟩))
    exact ⟨_, by simp only [captureStep, pos, ha]; rfl⟩
  | createThread restart => exact createThread_enabled h.inv pos env

theorem workerStep_isSome (h : Live p₁ p₂ s) (type : ThreadType) (env : WorkerEnv) :
    ∃ t, s.workerStep type env = some t := by
  cases type with
  | capture => exact captureStep_isSome h env
  | process =>
    obtain ⟨pipeline, hp⟩ := Pipeline.processStep_isSome s.pipeline
    exact ⟨_, by rw [workerStep, hp]; rfl⟩
  | network =>
    obtain ⟨pipeline, hp⟩ := Pipeline.networkStep_isSome h.steady env.network
    exact ⟨_, by rw [workerStep, hp]; rfl⟩

/-! ## The threads -/

theorem wrapperStep_live (h : Live p₁ p₂ s) {id : Nat} {env : WorkerEnv}
    (hs : s.wrapperStep id env = some t) : Live p₁ p₂ t := by
  have hinv := wrapperStep_inv h.inv hs
  obtain ⟨u, tm, more, hu, htm, rfl⟩ := wrapperStep_cases hs
  rcases hu with rfl | ⟨type, hu⟩
  · exact ⟨hinv, h.steady, h.adc, fun hl => Manager.wrapperStep_ending (h.ending hl) htm⟩
  · obtain ⟨hsteady, hadc, _⟩ := workerStep_live h hu
    refine ⟨hinv, hsteady, hadc, fun hl => Manager.wrapperStep_ending (h.ending ?_) htm⟩
    simp only [leaving, (workerStep_frame hu).2] at hl
    exact hl

/-- A wrapper thread gets nearer to its return. -/
theorem wrapperStep_left (h : Live p₁ p₂ s) (hl : s.leaving) {id : Nat} {env : WorkerEnv}
    (hs : s.wrapperStep id env = some t) : t.left p₁ p₂ < s.left p₁ p₂ := by
  have hrun := (h.ending hl).running
  have howned := h.inv.managed.owned
  suffices hmove : ∃ w w', s.tm.threads id = some w ∧
      t.tm.threads = Function.update s.tm.threads id (some w') ∧ t.tm.handles = s.tm.handles ∧
      w'.type = w.type ∧
      (∀ type, type ≠ w.type → t.workLeft p₁ p₂ type = s.workLeft p₁ p₂ type) ∧
      w'.left (t.workLeft p₁ p₂) (iteration p₁ p₂) < w.left (s.workLeft p₁ p₂) (iteration p₁ p₂) ∧
      t.mainLeft = s.mainLeft by
    obtain ⟨w, w', hw, ht, hh, hty, hwork, hlt, hmain⟩ := hmove
    have hless := Manager.threadLeft_lt howned hw ht hh hty hwork hlt
    have hc := (hless .capture).1
    have hp := (hless .process).1
    have hn := (hless .network).1
    have hown := (hless w.type).2 rfl
    unfold left
    rw [hmain]
    cases htype : w.type with
    | capture => rw [htype] at hown; omega
    | process => rw [htype] at hown; omega
    | network => rw [htype] at hown; omega
  unfold wrapperStep at hs
  split at hs
  · cases hs
  · rename_i w hw
    split at hs
    · rename_i k hpos
      obtain ⟨u, hu, hs⟩ := Option.bind_eq_some_iff.mp hs
      obtain ⟨tm, htm, rfl⟩ := Option.map_eq_some_iff.mp hs
      obtain ⟨htmu, hmainu⟩ := workerStep_frame hu
      obtain ⟨_, _, hleft, hother⟩ := workerStep_live h hu
      rw [htmu] at htm
      have hstep : s.tm.wrapperStep id (u.working w.type) = some { s.tm with
          threads := Function.update s.tm.threads id
            (some { w with pos := if u.working w.type then .work (k + 1) else .readRunning }) } := by
        simp [Manager.wrapperStep, Manager.wrapperNext, hw, hpos]
      rw [hstep] at htm
      cases htm
      refine ⟨w, _, hw, rfl, rfl, rfl, hother, ?_, ?_⟩
      · rcases hleft with hno | hless
        · simp [hno, Wrapper.left, hpos]
        · simp only [Wrapper.left, hpos]
          cases hwork : u.working w.type with
          | true =>
            simp only [if_true]
            exact Nat.add_lt_add_right hless 3
          | false => simp
      · simp only [mainLeft, hmainu]
    · rename_i hpos
      obtain ⟨tm, htm, rfl⟩ := Option.map_eq_some_iff.mp hs
      simp only [Manager.wrapperStep, hw] at htm
      split at htm
      · cases htm
      · rename_i hdone
        cases htm
        exact ⟨w, _, hw, rfl, rfl, rfl, fun _ _ => rfl,
          Manager.wrapperNext_left hrun w hdone hpos h.workLeft_le, rfl⟩

/-- `main` leaves the workers where they are. -/
theorem mainStep_frame {created leave : Bool} (hs : s.mainStep created leave = some t) :
    t.pipeline = s.pipeline ∧ t.adc = s.adc ∧ t.capture = s.capture := by
  unfold mainStep at hs
  split at hs
  · obtain ⟨tm, _, rfl⟩ := Option.map_eq_some_iff.mp hs
    exact ⟨rfl, rfl, rfl⟩
  · split at hs
    · obtain ⟨tm, _, rfl⟩ := Option.map_eq_some_iff.mp hs
      exact ⟨rfl, rfl, rfl⟩
    · split at hs
      · cases hs; exact ⟨rfl, rfl, rfl⟩
      · obtain ⟨tm, _, rfl⟩ := Option.map_eq_some_iff.mp hs
        exact ⟨rfl, rfl, rfl⟩
  · split at hs
    · obtain ⟨tm, _, rfl⟩ := Option.map_eq_some_iff.mp hs
      exact ⟨rfl, rfl, rfl⟩
    · cases hs; exact ⟨rfl, rfl, rfl⟩
  · split at hs
    · cases hs; exact ⟨rfl, rfl, rfl⟩
    · obtain ⟨tm, _, rfl⟩ := Option.map_eq_some_iff.mp hs
      exact ⟨rfl, rfl, rfl⟩
  · cases hs; exact ⟨rfl, rfl, rfl⟩
  · cases hs

theorem mainStep_ending (h : Live p₁ p₂ s) {created leave : Bool}
    (hs : s.mainStep created leave = some t) (hl : t.leaving) : t.tm.Ending := by
  have hend := h.ending
  unfold mainStep at hs
  split at hs
  · obtain ⟨tm, _, rfl⟩ := Option.map_eq_some_iff.mp hs
    rcases hl with hl | hl | hl <;> cases hl
  · rename_i hm
    split at hs
    · obtain ⟨tm, _, rfl⟩ := Option.map_eq_some_iff.mp hs
      simp [leaving, hm] at hl
    · split at hs
      · cases hs
        rcases hl with hl | hl | hl <;> cases hl
      · obtain ⟨tm, htm, rfl⟩ := Option.map_eq_some_iff.mp hs
        exact Manager.destroy_ending htm
  · rename_i hm
    split at hs
    · obtain ⟨tm, htm, rfl⟩ := Option.map_eq_some_iff.mp hs
      exact Manager.destroy_ending htm
    · cases hs
      exact hend hl
  · rename_i hm
    have hend := hend (.inl hm)
    split at hs
    · cases hs
      exact hend
    · rename_i hr
      obtain ⟨tm, htm, rfl⟩ := Option.map_eq_some_iff.mp hs
      exact (Manager.controllerStep_ending (fun _ => 0) (fun _ => 0) hend
        (by simpa using hr) htm).1
  · rename_i hm
    cases hs
    exact hend (.inr (.inl hm))
  · cases hs

theorem captureThreadStep_live (h : Live p₁ p₂ s) {due : Option (UInt64 × Int32)}
    (hs : s.captureThreadStep due = some t) :
    Live p₁ p₂ t ∧ t.tm = s.tm ∧ t.main = s.main ∧ t.workLeft p₁ p₂ = s.workLeft p₁ p₂ := by
  have hinv := captureThreadStep_inv h.inv hs
  cases captureThreadStep_move hs with
  | readRunning | early => exact ⟨⟨hinv, h.steady, h.adc, h.ending⟩, rfl, rfl, rfl⟩
  | discard =>
    exact ⟨⟨hinv, h.steady.frame (session_inv h.steady.inv s.pipeline.startTime _) rfl rfl rfl rfl rfl,
      h.adc, h.ending⟩, rfl, rfl, rfl⟩
  | sample _ _ _ _ made =>
    refine ⟨⟨hinv, Pipeline.capture_steady h.steady made, h.adc, h.ending⟩, rfl, rfl, ?_⟩
    unfold Pipeline.capture at made
    split at made
    · cases made
      funext type
      cases type <;> rfl
    · cases made
  | callback _ moved =>
    refine ⟨⟨hinv, Pipeline.callbackStep_steady h.steady moved, h.adc, h.ending⟩, rfl, rfl, ?_⟩
    cases Pipeline.callbackStep_move moved with
    | push _ access =>
      funext type
      cases type with
      | process =>
        simp only [workLeft, Pipeline.processLeft, (Spsc.producerStep_move access).consumer]
      | capture | network => rfl
    | count =>
      funext type
      cases type <;> rfl

theorem step_live {l : Label} (h : Live p₁ p₂ s) (hs : s.step l = some t) : Live p₁ p₂ t := by
  have hinv := step_inv h.inv hs
  unfold step at hs
  split at hs
  · cases hs
  · cases l with
    | main created leave =>
      obtain ⟨hp, ha, hc⟩ := mainStep_frame hs
      exact ⟨hinv, hp ▸ h.steady, by rw [ha, hc]; exact h.adc, mainStep_ending h hs⟩
    | wrapper id env => exact wrapperStep_live h hs
    | captureThread due => exact (captureThreadStep_live h hs).1

/-! ## The measure -/

/-- The thread whose step a label is, if it is not the ADC capture thread: `none` is `main`. -/
def Label.owner : Label → Option (Option Nat)
  | .main _ _ => some none
  | .wrapper id _ => some (some id)
  | .captureThread _ => none

theorem mainStep_left (h : Live p₁ p₂ s) (hl : s.leaving) {created leave : Bool}
    (hs : s.mainStep created leave = some t) : t.leaving ∧ t.left p₁ p₂ < s.left p₁ p₂ := by
  have hend := h.ending hl
  rcases hl with hm | hm | hm
  · simp only [mainStep, hm] at hs
    split at hs
    · rename_i hr
      cases hs
      refine ⟨.inr (.inl rfl), ?_⟩
      simp only [left, mainLeft, hm, hr, if_true]
      exact Nat.add_lt_add_right (Nat.lt_succ_self 1) _
    · rename_i hr
      have hr : s.tm.released = false := by simpa using hr
      obtain ⟨tm, htm, rfl⟩ := Option.map_eq_some_iff.mp hs
      obtain ⟨_, hmain, hthreads⟩ := Manager.controllerStep_ending (s.workLeft p₁ p₂)
        (iteration p₁ p₂) hend hr htm
      refine ⟨.inl rfl, ?_⟩
      have hwork : workLeft p₁ p₂ { s with tm := tm, main := .destroying } = s.workLeft p₁ p₂ := by
        funext type
        cases type <;> rfl
      simp only [left]
      rw [hwork, hthreads, hthreads, hthreads]
      refine Nat.add_lt_add_right ?_ _
      simp only [mainLeft, hm, hr, Bool.false_eq_true, if_false]
      rcases hmain with ⟨hr', hpos⟩ | ⟨hr', hless⟩
      · simp only [hr', if_true]
        omega
      · simp only [hr', Bool.false_eq_true, if_false]
        omega
  · simp only [mainStep, hm] at hs
    cases hs
    refine ⟨.inr (.inr rfl), ?_⟩
    simp only [left, mainLeft, hm]
    exact Nat.add_lt_add_right Nat.zero_lt_one _
  · simp only [mainStep, hm] at hs
    cases hs

theorem step_leaving {l : Label} (h : Live p₁ p₂ s) (hl : s.leaving) (hs : s.step l = some t) :
    t.leaving ∧ (l.owner = none → t.left p₁ p₂ ≤ s.left p₁ p₂) ∧
      ∀ i, l.owner = some i → t.left p₁ p₂ < s.left p₁ p₂ := by
  unfold step at hs
  split at hs
  · cases hs
  · cases l with
    | main created leave =>
      obtain ⟨hleaving, hless⟩ := mainStep_left h hl hs
      exact ⟨hleaving, nofun, fun _ _ => hless⟩
    | wrapper id env =>
      refine ⟨?_, nofun, fun _ _ => wrapperStep_left h hl hs⟩
      obtain ⟨u, tm, more, hu, _, rfl⟩ := wrapperStep_cases hs
      rcases hu with rfl | ⟨type, hu⟩
      · exact hl
      · simp only [leaving, (workerStep_frame hu).2]
        exact hl
    | captureThread due =>
      obtain ⟨_, htm, hmain, hwork⟩ := captureThreadStep_live h hs
      refine ⟨by simp only [leaving, hmain]; exact hl, fun _ => ?_, nofun⟩
      simp only [left, mainLeft, htm, hmain, hwork]
      exact Nat.le_refl _

theorem leaving_ranked (p₁ p₂ : Nat) :
    Progress.Ranked step (fun _ => True) Label.owner (fun s => Live p₁ p₂ s ∧ s.leaving)
      (left p₁ p₂) :=
  { keep := fun _ _ _ h _ hs => ⟨step_live h.1 hs, (step_leaving h.1 h.2 hs).1⟩
    level := fun _ _ _ h _ hs hown => (step_leaving h.1 h.2 hs).2.1 hown
    down := fun _ _ _ i h _ hs hown => (step_leaving h.1 h.2 hs).2.2 i hown }

/-! ## Nobody is stuck -/

theorem main_enabled (hm : s.main ≠ .exit)
    (h : ∀ created leave, ∃ t, s.mainStep created leave = some t) :
    Progress.Enabled step (fun _ => True) Label.owner s none := by
  refine ⟨⟨.main true true, trivial, rfl⟩, fun l _ hl => ?_⟩
  cases l with
  | main created leave =>
    rw [step, if_neg hm]
    exact h created leave
  | wrapper => cases hl
  | captureThread => cases hl

theorem wrapperStep_isSome (h : Live p₁ p₂ s) {id : Nat} {w : Wrapper}
    (hw : s.tm.threads id = some w) (hd : w.pos ≠ .done) (env : WorkerEnv) :
    ∃ t, s.wrapperStep id env = some t := by
  unfold wrapperStep
  simp only [hw]
  split
  · obtain ⟨u, hu⟩ := workerStep_isSome h w.type env
    rw [hu, Option.bind_some, (workerStep_frame hu).1, Manager.wrapperStep]
    simp only [hw, if_neg hd]
    exact ⟨_, rfl⟩
  · rw [Manager.wrapperStep]
    simp only [hw, if_neg hd]
    exact ⟨_, rfl⟩

theorem wrapper_enabled (h : Live p₁ p₂ s) (hm : s.main ≠ .exit) {id : Nat} {w : Wrapper}
    (hw : s.tm.threads id = some w) (hd : w.pos ≠ .done) :
    Progress.Enabled step (fun _ => True) Label.owner s (some id) := by
  refine ⟨⟨.wrapper id grantingEnv, trivial, rfl⟩, fun l _ hl => ?_⟩
  cases l with
  | main | captureThread => cases hl
  | wrapper id' env =>
    cases hl
    rw [step, if_neg hm]
    exact wrapperStep_isSome h hw hd env

/-- `main` can go on, unless it waits for a thread that can. -/
theorem leaving_enabled (h : Live p₁ p₂ s) (hl : s.leaving) :
    s.main = .exit ∨ ∃ i, Progress.Enabled step (fun _ => True) Label.owner s i := by
  have hend := h.ending hl
  have hmanaged := h.inv.managed
  rcases hl with hm | hm | hm
  · right
    have hne : s.main ≠ .exit := by rw [hm]; rintro ⟨⟩
    have hmain : ∀ (hstep : ∀ created, ∃ tm, s.tm.controllerStep created = some tm) (created leave),
        ∃ t, s.mainStep created leave = some t := by
      intro hstep created leave
      simp only [mainStep, hm]
      split
      · exact ⟨_, rfl⟩
      · obtain ⟨tm, htm⟩ := hstep created
        exact ⟨_, by rw [show s.tm.step (.controller created) = _ from htm]; rfl⟩
    rcases hend.destroying with hr | hd
    · refine ⟨none, main_enabled hne fun created leave => ?_⟩
      exact ⟨_, by simp only [mainStep, hm, hr]; rfl⟩
    · cases hc : s.tm.controller with
      | idle | unpause | setRunning | create => rw [hc] at hd; cases hd
      | setStopped | free =>
        exact ⟨none, main_enabled hne (hmain fun _ =>
          ⟨_, by simp only [Manager.controllerStep, hc]; rfl⟩)⟩
      | join todo destroying =>
        cases todo with
        | nil =>
          exact ⟨none,
            main_enabled hne (hmain fun _ => ⟨_, by simp only [Manager.controllerStep, hc]; rfl⟩)⟩
        | cons type todo =>
          have hinv := hmanaged.inv fun hf => by
            rcases (hmanaged.failed hf).2.2 with hc' | hc'
            · cases hc.symm.trans hc'
            · cases hc.symm.trans hc'
          obtain ⟨id, w, hh, hw, _⟩ := hinv.to_join hc
          by_cases hdone : w.pos = .done
          · exact ⟨none, main_enabled hne (hmain fun _ =>
              ⟨_, by simp only [Manager.controllerStep, hc, hh, hw, if_pos hdone]; rfl⟩)⟩
          · exact ⟨some id, wrapper_enabled h hne hw hdone⟩
  · right
    refine ⟨none, main_enabled (by rw [hm]; rintro ⟨⟩) fun created leave => ?_⟩
    exact ⟨_, by simp only [mainStep, hm]; rfl⟩
  · exact .inl hm

/-! ## The end -/

theorem Live.threadLeft_le (h : Live p₁ p₂ s) (type : ThreadType) :
    s.tm.threadLeft (s.workLeft p₁ p₂) (iteration p₁ p₂) type ≤ iteration p₁ p₂ type + 5 := by
  unfold Manager.threadLeft
  split
  · exact Nat.zero_le _
  · rename_i w _
    split
    · rename_i hty
      have hle := h.workLeft_le w.type
      rw [hty] at hle
      unfold Wrapper.left
      rw [hty]
      split <;> omega
    · exact Nat.zero_le _

/-- Where `main` is when it has just left its loop. -/
theorem mainLeft_le (hs : s.main ≠ .destroying) {created leave : Bool}
    (h : s.mainStep created leave = some t) (hm : t.main = .destroying) : t.mainLeft ≤ 10 := by
  have hdestroy : ∀ m tm : Manager, m.step (.call .destroy) = some tm →
      (if tm.released then 2 else tm.controller.left + 2) ≤ 10 := by
    intro m tm htm
    simp only [Manager.step] at htm
    split at htm
    · cases htm
      simp only [Manager.enter]
      split <;> simp only [] <;> split <;> simp [Controller.left, ThreadType.all]
    · cases htm
  unfold mainStep at h
  split at h
  · obtain ⟨tm, _, rfl⟩ := Option.map_eq_some_iff.mp h
    cases hm
  · split at h
    · rename_i hstarting _ _
      obtain ⟨tm, _, rfl⟩ := Option.map_eq_some_iff.mp h
      cases hstarting.symm.trans hm
    · split at h
      · cases h
        cases hm
      · obtain ⟨tm, htm, rfl⟩ := Option.map_eq_some_iff.mp h
        exact hdestroy _ _ htm
  · split at h
    · obtain ⟨tm, htm, rfl⟩ := Option.map_eq_some_iff.mp h
      exact hdestroy _ _ htm
    · cases h
      exact absurd hm hs
  · rename_i hd
    exact absurd hd hs
  · cases h
    cases hm
  · cases h

/-- From the step with which `main` leaves its loop, or gives up after a failed start, the process
ends after a bounded number of steps of `main` and the wrapper threads, and until then one of them
can always go on. -/
theorem main_terminates (c2p p2n : RingBuffer AdcSample) (h : c2p.Fresh) (h' : p2n.Fresh)
    (allocated : Nat → Bool) (ls : List Label) (s t : Application) (created leave : Bool)
    (hr : Runs.run step (init c2p p2n allocated) ls = some s) (hs : s.main ≠ .destroying)
    (ht : s.step (.main created leave) = some t) (hm : t.main = .destroying) :
    Progress.Within step (fun _ => True) Label.owner (fun u => u.main = .exit)
      (min 256 (c2p.capacity.toNat - 1) + 2 * min 256 (p2n.capacity.toNat - 1) + 54) t := by
  have hlive : Live (c2p.capacity.toNat - 1) (p2n.capacity.toNat - 1) t :=
    step_live (Runs.invariant (fun _ _ _ hi hs => step_live hi hs) (init_live h h' allocated) hr) ht
  refine (leaving_ranked _ _).within (fun u hu => leaving_enabled hu.1 hu.2) ⟨hlive, .inl hm⟩ ?_
  have hc := hlive.threadLeft_le .capture
  have hp := hlive.threadLeft_le .process
  have hn := hlive.threadLeft_le .network
  have hmain : t.mainLeft ≤ 10 := by
    unfold step at ht
    split at ht
    · cases ht
    · exact mainLeft_le hs ht hm
  unfold left
  simp only [iteration] at hc hp hn
  omega

/-- `main` leaves its loop right after the start of the threads. -/
theorem main_terminates_early : ∃ s t : Application,
    Runs.run step (init pipelineRing pipelineRing fun _ => true) (mainRun 10) = some s ∧
      s.step (.main true true) = some t ∧
      Progress.Within step (fun _ => True) Label.owner (fun u => u.main = .exit) 822 t := by
  refine ⟨_, _, rfl, rfl, ?_⟩
  exact main_terminates pipelineRing pipelineRing pipelineRing_fresh pipelineRing_fresh
    (fun _ => true) (mainRun 10) _ _ true true rfl nofun rfl rfl

end Application

end FastRing

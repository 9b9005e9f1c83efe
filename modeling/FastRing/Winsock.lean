import FastRing.Lib.Tally
import FastRing.Lib.Runs

/-! # Counting the users of Winsock

On Windows `tcp_client_create` acquires Winsock and `tcp_client_destroy` releases it.
`g_wsa_refcount` counts the clients; whoever counts it up to 1 starts Winsock, whoever
counts it down to 0 cleans it up. Every `Interlocked` operation, every `WSAStartup` and
every `WSACleanup` is a step of its own here, and the threads take their steps in any
order. -/

namespace FastRing

namespace Winsock

/-- Where a thread is: between two calls, or inside one with the operation named still
to come. -/
inductive Phase where
  | idle
  | startup
  | undo
  | cleanup
  | reset
  deriving DecidableEq, Repr

/-- A thread, with the number of its acquisitions that returned `true` and that it has
not begun to release. -/
structure Thread where
  phase : Phase
  held : Nat
  deriving DecidableEq, Repr

/-- The shared state. `startups` is Winsock's own count: the successful `WSAStartup`
calls that no `WSACleanup` has undone. -/
structure State (ι : Type) where
  refcount : Int32
  startups : Nat
  threads : ι → Thread

inductive Act (ι : Type) where
  | acquire (i : ι)
  | startup (i : ι) (ok : Bool)
  | undo (i : ι)
  | release (i : ι)
  | cleanup (i : ι)
  | reset (i : ι)
  deriving DecidableEq, Repr

variable {ι : Type} [DecidableEq ι]

def State.init : State ι := { refcount := 0, startups := 0, threads := fun _ => ⟨.idle, 0⟩ }

/-- Thread `i` goes on as `thread`. -/
def State.set (s : State ι) (i : ι) (thread : Thread) : State ι :=
  { s with threads := Function.update s.threads i thread }

/-- `winsock_acquire` up to its `InterlockedIncrement`; the first user goes on to
`WSAStartup`, any other one has Winsock at once. -/
def winsockAcquire (s : State ι) (i : ι) : State ι :=
  let held := (s.threads i).held
  let refcount := s.refcount + 1
  let s := { s with refcount := refcount }
  if refcount = 1 then s.set i ⟨.startup, held⟩ else s.set i ⟨.idle, held + 1⟩

/-- `winsock_release` up to its `InterlockedDecrement`. -/
def winsockRelease (s : State ι) (i : ι) : State ι :=
  let held := (s.threads i).held - 1
  let refcount := s.refcount - 1
  let s := { s with refcount := refcount }
  if refcount = 0 then s.set i ⟨.cleanup, held⟩
  else if refcount < 0 then s.set i ⟨.reset, held⟩
  else s.set i ⟨.idle, held⟩

/-- A thread releases only what it has acquired. -/
def step (s : State ι) : Act ι → Option (State ι)
  | .acquire i => if (s.threads i).phase = .idle then some (winsockAcquire s i) else none
  | .startup i ok =>
    if (s.threads i).phase = .startup then
      if ok then some ({ s with startups := s.startups + 1 }.set i ⟨.idle, (s.threads i).held + 1⟩)
      else some (s.set i ⟨.undo, (s.threads i).held⟩)
    else none
  | .undo i =>
    if (s.threads i).phase = .undo then
      some ({ s with refcount := s.refcount - 1 }.set i ⟨.idle, (s.threads i).held⟩)
    else none
  | .release i =>
    if (s.threads i).phase = .idle ∧ 0 < (s.threads i).held then some (winsockRelease s i) else none
  | .cleanup i =>
    if (s.threads i).phase = .cleanup then
      some ({ s with startups := s.startups - 1 }.set i ⟨.idle, (s.threads i).held⟩)
    else none
  | .reset i =>
    if (s.threads i).phase = .reset then
      some ({ s with refcount := 0 }.set i ⟨.idle, (s.threads i).held⟩)
    else none

/-- Whoever has acquired Winsock finds it started. -/
def Started (s : State ι) : Prop := ∀ i, 0 < (s.threads i).held → 0 < s.startups

/-- Nobody acquires Winsock while another thread is still busy starting it or giving up
on it, and the counter has not reached its last value. -/
def Settled (s : State ι) : Act ι → Prop
  | .acquire _ =>
    (∀ j, (s.threads j).phase ≠ .startup ∧ (s.threads j).phase ≠ .undo) ∧ s.refcount.toInt < 2 ^ 31 - 1
  | _ => True

instance [Fintype ι] (s : State ι) : (a : Act ι) → Decidable (Settled s a)
  | .acquire _ => inferInstanceAs (Decidable (_ ∧ _))
  | .startup .. => isTrue trivial
  | .undo _ => isTrue trivial
  | .release _ => isTrue trivial
  | .cleanup _ => isTrue trivial
  | .reset _ => isTrue trivial

/-! ## Runs without overlapping starts -/

/-- A count was taken for a start that is not over. -/
def Phase.pending : Phase → Nat
  | .startup | .undo => 1
  | _ => 0

def Phase.cleaning : Phase → Nat
  | .cleanup => 1
  | _ => 0

def Phase.resetting : Phase → Nat
  | .reset => 1
  | _ => 0

section Totals

variable {ι : Type} [Fintype ι] (s : State ι)

def State.held : Nat := Tally.total Thread.held s.threads

def State.pending : Nat := Tally.total (fun t => t.phase.pending) s.threads

def State.cleaning : Nat := Tally.total (fun t => t.phase.cleaning) s.threads

def State.resetting : Nat := Tally.total (fun t => t.phase.resetting) s.threads

/-- The counter is the number of references, or 1 for the thread that is starting
Winsock; Winsock is started once for all references and once for each cleanup to come. -/
structure Inv : Prop where
  refcount : s.refcount.toInt = s.held + s.pending
  alone : s.pending = 0 ∨ s.pending = 1 ∧ s.held = 0
  startups : s.startups = s.cleaning + min 1 s.held
  noReset : s.resetting = 0

theorem init_inv : Inv (State.init : State ι) := by
  have hzero : ∀ f : Thread → Nat, f ⟨.idle, 0⟩ = 0 →
      Tally.total f (State.init : State ι).threads = 0 :=
    fun f hf => Tally.total_eq_zero fun _ => hf
  have hheld : (State.init : State ι).held = 0 := hzero _ rfl
  have hpending : (State.init : State ι).pending = 0 := hzero _ rfl
  have hcleaning : (State.init : State ι).cleaning = 0 := hzero _ rfl
  refine ⟨?_, .inl hpending, ?_, hzero _ rfl⟩
  · rw [hheld, hpending]; rfl
  · rw [hheld, hcleaning]; rfl

variable {s}

theorem Inv.started (hi : Inv s) : Started s := by
  intro i hheld
  have hle : (s.threads i).held ≤ s.held := Tally.le_total Thread.held s.threads i
  have hstart := hi.startups
  omega

end Totals

theorem toInt_succ {n : Int32} (h : n.toInt < 2 ^ 31 - 1) : (n + 1).toInt = n.toInt + 1 := by
  have hlow := n.le_toInt
  rw [Int32.toInt_add, Int32.toInt_one, Int.bmod_eq_of_le]
  · omega
  · omega

theorem toInt_pred {n : Int32} (h : 0 < n.toInt) : (n - 1).toInt = n.toInt - 1 := by
  have hhigh := n.toInt_lt
  rw [Int32.toInt_sub, Int32.toInt_one, Int.bmod_eq_of_le]
  · omega
  · omega

variable [Fintype ι] {s t : State ι}

/-- A step of thread `i` changes the totals by what it changes there. -/
theorem Inv.of_set (s : State ι) {refcount : Int32} {startups : Nat} (i : ι) (x : Thread)
    (h : ∀ held pending cleaning resetting : Nat,
      held + (s.threads i).held = s.held + x.held →
      pending + (s.threads i).phase.pending = s.pending + x.phase.pending →
      cleaning + (s.threads i).phase.cleaning = s.cleaning + x.phase.cleaning →
      resetting + (s.threads i).phase.resetting = s.resetting + x.phase.resetting →
      refcount.toInt = held + pending ∧ (pending = 0 ∨ pending = 1 ∧ held = 0) ∧
        startups = cleaning + min 1 held ∧ resetting = 0) :
    Inv ({ s with refcount := refcount, startups := startups }.set i x) := by
  have hupdate : ∀ f : Thread → Nat, Tally.total f (Function.update s.threads i x) +
      f (s.threads i) = Tally.total f s.threads + f x :=
    fun f => Tally.total_update f s.threads i x
  obtain ⟨h₁, h₂, h₃, h₄⟩ := h _ _ _ _ (hupdate _) (hupdate fun t => t.phase.pending)
    (hupdate fun t => t.phase.cleaning) (hupdate fun t => t.phase.resetting)
  exact ⟨h₁, h₂, h₃, h₄⟩

theorem acquire_inv (hi : Inv s) {i : ι} (hphase : (s.threads i).phase = .idle)
    (hok : Settled s (.acquire i)) : Inv (winsockAcquire s i) := by
  have hnone : s.pending = 0 := by
    refine Tally.total_eq_zero fun j => ?_
    have hj := hok.1 j
    revert hj
    cases (s.threads j).phase <;> simp [Phase.pending]
  obtain ⟨hcount, _, hstart, hreset⟩ := hi
  have hsucc := toInt_succ hok.2
  unfold winsockAcquire
  by_cases hone : s.refcount + 1 = 1
  · rw [hone, Int32.toInt_one] at hsucc
    simp only [if_pos hone]
    refine Inv.of_set s i _ ?_
    intro held pending cleaning resetting hH hP hC hR
    simp only [hphase, Phase.pending, Phase.cleaning, Phase.resetting] at hH hP hC hR
    rw [hone, Int32.toInt_one]
    omega
  · have hne : (s.refcount + 1).toInt ≠ 1 := fun h => hone (Int32.toInt_inj.mp h)
    simp only [if_neg hone]
    refine Inv.of_set s i _ ?_
    intro held pending cleaning resetting hH hP hC hR
    simp only [hphase, Phase.pending, Phase.cleaning, Phase.resetting] at hH hP hC hR
    omega

theorem release_inv (hi : Inv s) {i : ι} (hphase : (s.threads i).phase = .idle)
    (hheld : 0 < (s.threads i).held) : Inv (winsockRelease s i) := by
  have hle : (s.threads i).held ≤ s.held := Tally.le_total Thread.held s.threads i
  obtain ⟨hcount, halone, hstart, hreset⟩ := hi
  have hpred := toInt_pred (n := s.refcount) (by omega)
  unfold winsockRelease
  by_cases hzero : s.refcount - 1 = 0
  · rw [hzero, Int32.toInt_zero] at hpred
    simp only [if_pos hzero]
    refine Inv.of_set s i _ ?_
    intro held pending cleaning resetting hH hP hC hR
    simp only [hphase, Phase.pending, Phase.cleaning, Phase.resetting] at hH hP hC hR
    rw [hzero, Int32.toInt_zero]
    omega
  · have hne : (s.refcount - 1).toInt ≠ 0 := fun h => hzero (Int32.toInt_inj.mp h)
    have hpos : ¬ s.refcount - 1 < 0 := by
      rw [Int32.lt_iff_toInt_lt, Int32.toInt_zero]
      omega
    simp only [if_neg hzero, if_neg hpos]
    refine Inv.of_set s i _ ?_
    intro held pending cleaning resetting hH hP hC hR
    simp only [hphase, Phase.pending, Phase.cleaning, Phase.resetting] at hH hP hC hR
    omega

/-- Every step keeps the totals in balance, as long as nobody acquires Winsock while
it is being started. -/
theorem step_inv {a : Act ι} (hi : Inv s) (hok : Settled s a) (h : step s a = some t) : Inv t := by
  have hpending : ∀ i, (s.threads i).phase.pending ≤ s.pending :=
    Tally.le_total (fun t => t.phase.pending) s.threads
  cases a with
  | acquire i =>
    simp only [step, Option.ite_none_right_eq_some, Option.some.injEq] at h
    obtain ⟨hphase, rfl⟩ := h
    exact acquire_inv hi hphase hok
  | release i =>
    simp only [step, Option.ite_none_right_eq_some, Option.some.injEq] at h
    obtain ⟨⟨hphase, hheld⟩, rfl⟩ := h
    exact release_inv hi hphase hheld
  | startup i ok =>
    simp only [step, Option.ite_none_right_eq_some] at h
    obtain ⟨hphase, h⟩ := h
    obtain ⟨hcount, halone, hstart, hreset⟩ := hi
    have hbusy := hpending i
    rw [hphase] at hbusy
    cases ok with
    | true =>
      cases h
      refine Inv.of_set s i _ ?_
      intro held pending cleaning resetting hH hP hC hR
      simp only [hphase, Phase.pending, Phase.cleaning, Phase.resetting] at hbusy hH hP hC hR
      omega
    | false =>
      cases h
      refine Inv.of_set s i _ ?_
      intro held pending cleaning resetting hH hP hC hR
      simp only [hphase, Phase.pending, Phase.cleaning, Phase.resetting] at hH hP hC hR
      omega
  | undo i =>
    simp only [step, Option.ite_none_right_eq_some, Option.some.injEq] at h
    obtain ⟨hphase, rfl⟩ := h
    obtain ⟨hcount, halone, hstart, hreset⟩ := hi
    have hbusy := hpending i
    rw [hphase, Phase.pending] at hbusy
    have hpred := toInt_pred (n := s.refcount) (by omega)
    refine Inv.of_set s i _ ?_
    intro held pending cleaning resetting hH hP hC hR
    simp only [hphase, Phase.pending, Phase.cleaning, Phase.resetting] at hH hP hC hR
    omega
  | cleanup i =>
    simp only [step, Option.ite_none_right_eq_some, Option.some.injEq] at h
    obtain ⟨hphase, rfl⟩ := h
    obtain ⟨hcount, halone, hstart, hreset⟩ := hi
    refine Inv.of_set s i _ ?_
    intro held pending cleaning resetting hH hP hC hR
    simp only [hphase, Phase.pending, Phase.cleaning, Phase.resetting] at hH hP hC hR
    omega
  | reset i =>
    -- no thread ever gets here: a release never finds the counter at 0
    simp only [step, Option.ite_none_right_eq_some, Option.some.injEq] at h
    obtain ⟨hphase, rfl⟩ := h
    have hnone : (s.threads i).phase.resetting ≤ s.resetting :=
      Tally.le_total (fun t => t.phase.resetting) s.threads i
    rw [hphase, Phase.resetting, hi.noReset] at hnone
    cases hnone

/-- In every run in which nobody acquires Winsock while it is being started, whoever has
acquired it finds it started, in every state. -/
theorem started_of_settled {acts : List (Act ι)} (hok : Runs.AllSteps step Settled State.init acts)
    {s : State ι} (h : Runs.run step State.init acts = some s) : Started s :=
  (Runs.invariant_of_steps (fun _ _ _ hi hok hs => step_inv hi hok hs) (init_inv (ι := ι)) hok h).started

/-- One thread starts Winsock, a second one shares it, and the first lets it go. -/
theorem started_shared : ∃ s : State Bool,
    Runs.run step State.init [.acquire false, .startup false true, .acquire true, .release false] =
      some s ∧ (s.threads true).held = 1 ∧ Started s :=
  ⟨_, rfl, rfl, started_of_settled (by decide : Runs.AllSteps step Settled State.init
    [.acquire false, .startup false true, .acquire true, .release false]) rfl⟩

/-- A second thread has acquired Winsock before the first one has started it. -/
theorem acquired_before_start : ∃ s : State Bool,
    Runs.run step State.init [.acquire false, .acquire true] = some s ∧
      (s.threads true).held = 1 ∧ ¬ Started s := by
  refine ⟨_, rfl, rfl, ?_⟩
  intro h
  exact absurd (h true (Nat.zero_lt_one)) (Nat.lt_irrefl 0)

end Winsock

end FastRing

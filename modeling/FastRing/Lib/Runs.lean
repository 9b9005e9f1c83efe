import Mathlib.Logic.Basic

/-! Runs of a transition system whose nondeterminism is in its labels: `step s l`
is the state after taking the step `l` in `s`, and `none` when that step is not
enabled there. An invariant of every step is an invariant of every run, and so is
one that only the steps meeting a side condition keep, for the runs whose steps
all meet it. -/

namespace Runs

variable {S L : Type}

/-- The state after the steps `ls`, in order, from `s`. -/
def run (step : S → L → Option S) : S → List L → Option S
  | s, [] => some s
  | s, l :: ls => (step s l).bind fun t => run step t ls

/-- What the steps of the run `ls` from `s` show, if a step shows `view`. -/
def trace {B : Type} (step : S → L → Option S) (view : S → L → List B) : S → List L → List B
  | _, [] => []
  | s, l :: ls => view s l ++ (step s l).elim [] fun t => trace step view t ls

/-- Every step of the run `ls` from `s` meets `ok`, which may look at the state
before the step. -/
def AllSteps (step : S → L → Option S) (ok : S → L → Prop) : S → List L → Prop
  | _, [] => True
  | s, l :: ls => ok s l ∧ ∀ t, step s l = some t → AllSteps step ok t ls

/-- Every state along the run `ls` from `s`, `s` included, satisfies `P`. -/
def AllStates (step : S → L → Option S) (P : S → Prop) : S → List L → Prop
  | s, [] => P s
  | s, l :: ls => P s ∧ ∀ t, step s l = some t → AllStates step P t ls

variable {step : S → L → Option S}

instance decidableAllSteps {ok : S → L → Prop} [∀ s l, Decidable (ok s l)] :
    (s : S) → (ls : List L) → Decidable (AllSteps step ok s ls)
  | _, [] => isTrue trivial
  | s, l :: ls =>
    match h : step s l with
    | none =>
      decidable_of_iff (ok s l) ⟨fun h1 => ⟨h1, fun t ht => nomatch h.symm.trans ht⟩, And.left⟩
    | some t =>
      have : Decidable (AllSteps step ok t ls) := decidableAllSteps t ls
      decidable_of_iff (ok s l ∧ AllSteps step ok t ls)
        ⟨fun h1 => ⟨h1.1, fun u hu => by rw [h] at hu; cases hu; exact h1.2⟩,
          fun h1 => ⟨h1.1, h1.2 t h⟩⟩

theorem run_cons {s u : S} {l : L} {ls : List L} (h : run step s (l :: ls) = some u) :
    ∃ t, step s l = some t ∧ run step t ls = some u := by
  cases hs : step s l with
  | none => simp [run, hs] at h
  | some t => exact ⟨t, rfl, by simpa [run, hs] using h⟩

theorem trace_cons {B : Type} {view : S → L → List B} {s t : S} {l : L} (h : step s l = some t)
    (ls : List L) : trace step view s (l :: ls) = view s l ++ trace step view t ls := by
  rw [trace, h]
  rfl

theorem run_append {s t u : S} {ls ls' : List L} (h : run step s ls = some t)
    (h' : run step t ls' = some u) : run step s (ls ++ ls') = some u := by
  induction ls generalizing s with
  | nil => cases h; exact h'
  | cons l ls ih =>
    obtain ⟨m, hs, hm⟩ := run_cons h
    simpa [run, hs] using ih hm

theorem AllSteps.append_left {ok : S → L → Prop} {s : S} {ls ls' : List L}
    (h : AllSteps step ok s (ls ++ ls')) : AllSteps step ok s ls := by
  induction ls generalizing s with
  | nil => trivial
  | cons l ls ih => exact ⟨h.1, fun t ht => ih (h.2 t ht)⟩

theorem AllSteps.append_right {ok : S → L → Prop} {s t : S} {ls ls' : List L}
    (h : AllSteps step ok s (ls ++ ls')) (hr : run step s ls = some t) :
    AllSteps step ok t ls' := by
  induction ls generalizing s with
  | nil => cases hr; exact h
  | cons l ls ih =>
    obtain ⟨m, hs, hm⟩ := run_cons hr
    exact ih (h.2 m hs) hm

theorem AllSteps.and {ok ok' : S → L → Prop} {s : S} {ls : List L} (h : AllSteps step ok s ls)
    (h' : AllSteps step ok' s ls) : AllSteps step (fun s l => ok s l ∧ ok' s l) s ls := by
  induction ls generalizing s with
  | nil => trivial
  | cons l ls ih => exact ⟨⟨h.1, h'.1⟩, fun t ht => ih (h.2 t ht) (h'.2 t ht)⟩

/-- The invariant rule under a side condition on the steps taken. -/
theorem invariant_of_steps {ok : S → L → Prop} {I : S → Prop}
    (hstep : ∀ s l t, I s → ok s l → step s l = some t → I t) {s u : S} {ls : List L}
    (h0 : I s) (hok : AllSteps step ok s ls) (h : run step s ls = some u) : I u := by
  induction ls generalizing s with
  | nil => cases h; exact h0
  | cons l ls ih =>
    obtain ⟨t, hs, ht⟩ := run_cons h
    exact ih (hstep s l t h0 hok.1 hs) (hok.2 t hs) ht

/-- A condition on the labels alone. -/
theorem allSteps_of_labels {ok : S → L → Prop} {s : S} {ls : List L}
    (h : ∀ l ∈ ls, ∀ s, ok s l) : AllSteps step ok s ls := by
  induction ls generalizing s with
  | nil => trivial
  | cons l ls ih =>
    exact ⟨h l List.mem_cons_self s, fun _ _ => ih fun l' hl' => h l' (List.mem_cons_of_mem _ hl')⟩

theorem allSteps_true {s : S} {ls : List L} : AllSteps step (fun _ _ => True) s ls :=
  allSteps_of_labels fun _ _ _ => trivial

/-- The invariant rule: what every step keeps, every run keeps. -/
theorem invariant {I : S → Prop} (hstep : ∀ s l t, I s → step s l = some t → I t)
    {s u : S} {ls : List L} (h0 : I s) (h : run step s ls = some u) : I u :=
  invariant_of_steps (fun s l t hi _ hs => hstep s l t hi hs) h0 allSteps_true h

/-- The steps of a run that meet `ok` meet `ok'` too, if an invariant that they keep
gives it. -/
theorem allSteps_of_steps {ok ok' : S → L → Prop} {I : S → Prop}
    (hstep : ∀ s l t, I s → ok s l → step s l = some t → I t)
    (himp : ∀ s l, I s → ok s l → ok' s l) {s : S} {ls : List L} (h0 : I s)
    (hok : AllSteps step ok s ls) : AllSteps step ok' s ls := by
  induction ls generalizing s with
  | nil => trivial
  | cons l ls ih =>
    exact ⟨himp s l h0 hok.1, fun t ht => ih (hstep s l t h0 hok.1 ht) (hok.2 t ht)⟩

/-- A condition that an invariant gives is met by every step of every run. -/
theorem allSteps_of_invariant {ok : S → L → Prop} {I : S → Prop}
    (hstep : ∀ s l t, I s → step s l = some t → I t) (hok : ∀ s l, I s → ok s l) {s : S}
    (h0 : I s) (ls : List L) : AllSteps step ok s ls :=
  allSteps_of_steps (fun s l t hi _ hs => hstep s l t hi hs) (fun s l hi _ => hok s l hi) h0
    allSteps_true

theorem AllStates.head {P : S → Prop} {s : S} {ls : List L} (h : AllStates step P s ls) : P s := by
  cases ls with
  | nil => exact h
  | cons l ls => exact h.1

theorem AllStates.last {P : S → Prop} {s u : S} {ls : List L} (h : AllStates step P s ls)
    (hr : run step s ls = some u) : P u := by
  induction ls generalizing s with
  | nil => cases hr; exact h
  | cons l ls ih =>
    obtain ⟨t, hs, ht⟩ := run_cons hr
    exact ih (h.2 t hs) ht

/-- When, where `I` holds, exactly the steps that meet `ok` lead from `P` to `P`: the
runs with `P` in every state are those whose steps all meet `ok`. Only these steps
have to keep `I`. -/
theorem allStates_iff {ok : S → L → Prop} {I P : S → Prop}
    (hI : ∀ s l t, I s → ok s l → step s l = some t → I t)
    (hP : ∀ s l, I s → P s → ((∀ t, step s l = some t → P t) ↔ ok s l))
    {s : S} (ls : List L) (hs : I s) (h0 : P s) :
    AllStates step P s ls ↔ AllSteps step ok s ls := by
  induction ls generalizing s with
  | nil => exact ⟨fun _ => trivial, fun _ => h0⟩
  | cons l ls ih =>
    constructor
    · rintro ⟨_, h⟩
      have hok := (hP s l hs h0).mp fun t ht => (h t ht).head
      refine ⟨hok, fun t ht => ?_⟩
      exact (ih (hI s l t hs hok ht) (h t ht).head).mp (h t ht)
    · rintro ⟨hok, h⟩
      refine ⟨h0, fun t ht => ?_⟩
      have hpt := (hP s l hs h0).mpr hok t ht
      exact (ih (hI s l t hs hok ht) hpt).mpr (h t ht)

/-! ## One component alone -/

/-- `t` is reached from `s` by steps of the component `f`, each from a state that
satisfies `P`. -/
inductive Path (f : S → Option S) (P : S → Prop) : S → S → Prop
  | refl (s : S) : Path f P s s
  | step {s t u : S} (hp : P s) (hs : f s = some t) (ht : Path f P t u) : Path f P s u

theorem Path.trans {f : S → Option S} {P : S → Prop} {s t u : S} (h : Path f P s t)
    (h' : Path f P t u) : Path f P s u := by
  induction h with
  | refl => exact h'
  | step hp hs _ ih => exact .step hp hs (ih h')

/-- Some run leads from `s` to `t`. -/
def Reaches (step : S → L → Option S) (s t : S) : Prop := ∃ ls, run step s ls = some t

theorem Reaches.refl (s : S) : Reaches step s s := ⟨[], rfl⟩

theorem Reaches.single {s t : S} {l : L} (h : step s l = some t) : Reaches step s t :=
  ⟨[l], by rw [run, h]; rfl⟩

theorem Reaches.trans {s t u : S} (h : Reaches step s t) (h' : Reaches step t u) :
    Reaches step s u := by
  obtain ⟨ls, hls⟩ := h
  obtain ⟨ls', hls'⟩ := h'
  exact ⟨ls ++ ls', run_append hls hls'⟩

theorem Reaches.invariant {I : S → Prop} (hstep : ∀ s l t, I s → step s l = some t → I t) {s t : S}
    (h : Reaches step s t) (hs : I s) : I t := by
  obtain ⟨ls, hls⟩ := h
  exact Runs.invariant hstep hs hls

/-- The component's steps are a run of a system that goes along with them, one step with the
label `l` for each of the component's. -/
theorem Path.simulate {C : Type} {f : C → Option C} {P : C → Prop} {R : C → S → Prop} {l : L}
    (hf : ∀ c d s, P c → f c = some d → R c s → ∃ t, step s l = some t ∧ R d t) {c d : C}
    (h : Path f P c d) {s : S} (hs : R c s) :
    ∃ n t, run step s (List.replicate n l) = some t ∧ R d t := by
  induction h generalizing s with
  | refl => exact ⟨0, s, rfl, hs⟩
  | step hp hc _ ih =>
    obtain ⟨m, hm, hrm⟩ := hf _ _ s hp hc hs
    obtain ⟨n, t, ht, hrt⟩ := ih hrm
    refine ⟨n + 1, t, ?_, hrt⟩
    rw [List.replicate_succ, run, hm]
    exact ht

/-- The component's steps are a run of the system `g` puts it into, if the system takes
the same steps there under the label `l`. -/
theorem Path.reaches {C : Type} {f : C → Option C} {P : C → Prop} {g : C → S} {l : L}
    (hf : ∀ s t, P s → f s = some t → step (g s) l = some (g t)) {s t : C} (h : Path f P s t) :
    Reaches step (g s) (g t) := by
  have hsim : ∀ c d u, P c → f c = some d → g c = u → ∃ v, step u l = some v ∧ g d = v := by
    intro c d u hp hc hu
    rw [← hu]
    exact ⟨g d, hf c d hp hc, rfl⟩
  obtain ⟨n, u, hu, rfl⟩ := h.simulate hsim rfl
  exact ⟨_, hu⟩

end Runs

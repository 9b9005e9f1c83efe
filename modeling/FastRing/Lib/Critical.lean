import Mathlib.Logic.Function.Basic
import FastRing.Lib.Runs

/-! Critical sections. The threads `ι` call operations that work on shared data, access by access,
between the taking and the release of one lock. `Replays` says what the same operations make of the
data one at a time; `run_serial` is the rule: in every interleaving the data and the results are those
of the operations in the order in which they released the lock, and of the beginning of one more. -/

namespace Critical

variable {ι Op S L : Type}

/-- For each operation the first values of its locals, and its accesses to the shared data. -/
structure Sections (Op S L : Type) where
  locals : Op → L
  accesses : Op → List (S × L → S × L)

/-- Accesses one after the other. -/
def perform (accesses : List (S × L → S × L)) (x : S × L) : S × L :=
  accesses.foldl (fun x access => access x) x

theorem perform_concat (accesses : List (S × L → S × L)) (access : S × L → S × L) (x : S × L) :
    perform (accesses ++ [access]) x = access (perform accesses x) := by
  rw [perform, List.foldl_append]
  rfl

/-- The whole operation, with nobody else there. -/
def Sections.effect (P : Sections Op S L) (op : Op) (s : S) : S × L :=
  perform (P.accesses op) (s, P.locals op)

inductive Position (Op S L : Type) where
  | outside
  | waiting (op : Op)
  | inside (op : Op) (rest : List (S × L → S × L)) (locals : L)

/-- The calls that have returned, with the locals they ended with, are `finished`. -/
structure State (ι Op S L : Type) where
  shared : S
  owner : Option ι
  threads : ι → Position Op S L
  finished : List (ι × Op × L)

def State.init (s : S) : State ι Op S L :=
  { shared := s, owner := none, threads := fun _ => .outside, finished := [] }

/-! ## One at a time -/

variable {P : Sections Op S L} {s t : State ι Op S L} {s₀ base : S}

/-- The calls, one at a time, with their results, lead from `s₀` to `s`. -/
inductive Replays (P : Sections Op S L) (s₀ : S) : List (ι × Op × L) → S → Prop
  | nil : Replays P s₀ [] s₀
  | snoc {calls : List (ι × Op × L)} {s : S} (before : Replays P s₀ calls s) (i : ι) (op : Op) :
      Replays P s₀ (calls ++ [(i, op, (P.effect op s).2)]) (P.effect op s).1

/-- The result of a call is that of its operation on what the earlier calls have made. -/
theorem Replays.result {calls before after : List (ι × Op × L)} {s : S} (h : Replays P s₀ calls s)
    {i : ι} {op : Op} {l : L} (hc : calls = before ++ (i, op, l) :: after) :
    ∃ s', Replays P s₀ before s' ∧ l = (P.effect op s').2 := by
  induction h generalizing after with
  | nil => exact absurd hc (by simp)
  | @snoc calls s hbefore j op' ih =>
    rcases List.eq_nil_or_concat after with rfl | ⟨after', x, rfl⟩
    · obtain ⟨rfl, hlast⟩ := List.append_inj' hc rfl
      cases hlast
      exact ⟨s, hbefore, rfl⟩
    · rw [List.concat_eq_append, ← List.cons_append, ← List.append_assoc] at hc
      exact ih (List.append_inj' hc rfl).1

/-- An invariant that every operation keeps by itself. -/
theorem Replays.invariant {I : List (ι × Op × L) → S → Prop} (hinit : I [] s₀)
    (heffect : ∀ calls s i op, I calls s →
      I (calls ++ [(i, op, (P.effect op s).2)]) (P.effect op s).1)
    {calls : List (ι × Op × L)} {s : S} (h : Replays P s₀ calls s) : I calls s := by
  induction h with
  | nil => exact hinit
  | snoc _ i op ih => exact heffect _ _ i op ih

/-- With `base` made by the calls that have returned: the lock is free and the data are `base`, or
one thread has done a part of its accesses to it. -/
inductive Held (P : Sections Op S L) (s : State ι Op S L) (base : S) : Prop
  | free (owner : s.owner = none) (shared : s.shared = base)
      (nobody : ∀ i op rest l, s.threads i ≠ .inside op rest l)
  | taken (i : ι) (op : Op) (ran rest : List (S × L → S × L)) (l : L) (owner : s.owner = some i)
      (here : s.threads i = .inside op rest l) (all : P.accesses op = ran ++ rest)
      (shared : (s.shared, l) = perform ran (base, P.locals op))
      (alone : ∀ j op rest l, s.threads j = .inside op rest l → j = i)

def Serial (P : Sections Op S L) (s₀ : S) (s : State ι Op S L) : Prop :=
  ∃ base, Replays P s₀ s.finished base ∧ Held P s base

theorem init_serial (P : Sections Op S L) (s₀ : S) : Serial P s₀ (State.init s₀ : State ι Op S L) :=
  ⟨s₀, .nil, .free rfl rfl fun _ _ _ _ h => by cases h⟩

/-- A thread that is inside is the owner. -/
theorem Held.inside (h : Held P s base) {i : ι} {op : Op} {rest : List (S × L → S × L)} {l : L}
    (hi : s.threads i = .inside op rest l) :
    ∃ ran, s.owner = some i ∧ P.accesses op = ran ++ rest ∧
      (s.shared, l) = perform ran (base, P.locals op) ∧
      ∀ j op rest l, s.threads j = .inside op rest l → j = i := by
  cases h with
  | free _ _ nobody => exact absurd hi (nobody i op rest l)
  | taken j op' ran rest' l' owner here all shared alone =>
    obtain rfl := alone i op rest l hi
    rw [hi] at here
    cases here
    exact ⟨ran, owner, all, shared, alone⟩

/-! ## All interleavings -/

/-- The one in progress. -/
def Position.current : Position Op S L → List Op
  | .outside => []
  | .waiting op => [op]
  | .inside op _ _ => [op]

inductive Label (ι Op : Type) where
  | call (i : ι) (op : Op)
  | lock (i : ι)
  | access (i : ι)
  | unlock (i : ι)
  deriving DecidableEq

section

variable [DecidableEq ι]

def State.put (s : State ι Op S L) (i : ι) (p : Position Op S L) : State ι Op S L :=
  { s with threads := Function.update s.threads i p }

def State.enter (P : Sections Op S L) (s : State ι Op S L) (i : ι) (op : Op) : State ι Op S L :=
  { s.put i (.inside op (P.accesses op) (P.locals op)) with owner := some i }

def State.use (s : State ι Op S L) (i : ι) (op : Op) (access : S × L → S × L)
    (rest : List (S × L → S × L)) (l : L) : State ι Op S L :=
  { s.put i (.inside op rest (access (s.shared, l)).2) with shared := (access (s.shared, l)).1 }

def State.leave (s : State ι Op S L) (i : ι) (op : Op) (l : L) : State ι Op S L :=
  { s.put i .outside with owner := none, finished := s.finished ++ [(i, op, l)] }

def step (P : Sections Op S L) (s : State ι Op S L) : Label ι Op → Option (State ι Op S L)
  | .call i op =>
    match s.threads i with
    | .outside => some (s.put i (.waiting op))
    | _ => none
  | .lock i =>
    match s.threads i, s.owner with
    | .waiting op, none => some (s.enter P i op)
    | _, _ => none
  | .access i =>
    match s.threads i with
    | .inside op (access :: rest) l => some (s.use i op access rest l)
    | _ => none
  | .unlock i =>
    match s.threads i with
    | .inside op [] l => some (s.leave i op l)
    | _ => none

/-- The four kinds of steps, each with what it needs and what it does. -/
inductive Steps (P : Sections Op S L) (s : State ι Op S L) : Label ι Op → State ι Op S L → Prop
  | call {i : ι} {op : Op} (here : s.threads i = .outside) :
      Steps P s (.call i op) (s.put i (.waiting op))
  | lock {i : ι} {op : Op} (here : s.threads i = .waiting op) (free : s.owner = none) :
      Steps P s (.lock i) (s.enter P i op)
  | access {i : ι} {op : Op} {access : S × L → S × L} {rest : List (S × L → S × L)} {l : L}
      (here : s.threads i = .inside op (access :: rest) l) :
      Steps P s (.access i) (s.use i op access rest l)
  | unlock {i : ι} {op : Op} {l : L} (here : s.threads i = .inside op [] l) :
      Steps P s (.unlock i) (s.leave i op l)

theorem step_cases {l : Label ι Op} (h : step P s l = some t) : Steps P s l t := by
  cases l with
  | call i op =>
    rw [step] at h
    split at h
    · cases h
      exact .call ‹_›
    · cases h
  | lock i =>
    rw [step] at h
    split at h
    · cases h
      exact .lock ‹_› ‹_›
    · cases h
  | access i =>
    rw [step] at h
    split at h
    · cases h
      exact .access ‹_›
    · cases h
  | unlock i =>
    rw [step] at h
    split at h
    · cases h
      exact .unlock ‹_›
    · cases h

@[simp] theorem State.leave_threads (s : State ι Op S L) (i : ι) (op : Op) (l : L) :
    (s.leave i op l).threads = (s.put i .outside).threads := rfl

@[simp] theorem State.put_self (s : State ι Op S L) (i : ι) (p : Position Op S L) :
    (s.put i p).threads i = p := Function.update_self _ _ _

theorem State.put_ne (s : State ι Op S L) {i j : ι} (p : Position Op S L) (h : j ≠ i) :
    (s.put i p).threads j = s.threads j := Function.update_of_ne h _ _

/-- A thread that only comes to wait changes nothing for the others. -/
theorem Held.put {i : ι} {op : Op} (h : Held P s base) (hi : s.threads i = .outside) :
    Held P (s.put i (.waiting op)) base := by
  have hinside : ∀ {j op' rest l}, (s.put i (.waiting op)).threads j = .inside op' rest l →
      s.threads j = .inside op' rest l := by
    intro j op' rest l hj
    by_cases hji : j = i
    · rw [hji, State.put_self] at hj
      cases hj
    · rwa [State.put_ne s _ hji] at hj
  cases h with
  | free owner shared nobody =>
    exact .free owner shared fun j op rest l hj => nobody j op rest l (hinside hj)
  | taken j op' ran rest l owner here all shared alone =>
    refine .taken j op' ran rest l owner ?_ all shared fun k op rest l hk =>
      alone k op rest l (hinside hk)
    rw [State.put_ne, here]
    rintro rfl
    rw [hi] at here
    cases here

theorem step_serial {l : Label ι Op} (h : Serial P s₀ s) (hs : step P s l = some t) :
    Serial P s₀ t := by
  obtain ⟨base, hr, hh⟩ := h
  cases step_cases hs with
  | call here => exact ⟨base, hr, hh.put here⟩
  | @lock i op here free =>
    refine ⟨base, hr, ?_⟩
    cases hh with
    | taken _ _ _ _ _ owner => rw [free] at owner; cases owner
    | free _ shared nobody =>
      refine .taken i op [] (P.accesses op) (P.locals op) rfl (s.put_self i _) rfl ?_ ?_
      · rw [← shared]
        rfl
      · intro j op' rest l hj
        by_contra hji
        exact nobody j op' rest l ((s.put_ne _ hji).symm.trans hj)
  | @access i op access rest l here =>
    obtain ⟨ran, owner, all, shared, alone⟩ := hh.inside here
    refine ⟨base, hr, .taken i op (ran ++ [access]) rest _ owner (s.put_self i _) ?_ ?_ ?_⟩
    · rw [all, List.append_assoc, List.singleton_append]
    · rw [perform_concat, ← shared]
      rfl
    · intro j op' rest' l' hj
      by_contra hji
      exact hji (alone j op' rest' l' ((s.put_ne _ hji).symm.trans hj))
  | @unlock i op l here =>
    obtain ⟨ran, _, all, shared, alone⟩ := hh.inside here
    rw [List.append_nil] at all
    have heffect : P.effect op base = (s.shared, l) := by rw [Sections.effect, all, shared]
    refine ⟨s.shared, ?_, .free rfl rfl ?_⟩
    · have := hr.snoc i op
      rwa [heffect] at this
    · intro j op' rest' l' hj
      by_cases hji : j = i
      · rw [hji] at hj
        cases (s.put_self i _).symm.trans hj
      · exact hji (alone j op' rest' l' ((s.put_ne _ hji).symm.trans hj))

/-- The rule: whatever the interleaving, the operations follow one another. -/
theorem run_serial {ls : List (Label ι Op)} (h : Runs.run (step P) (State.init s₀) ls = some s) :
    Serial P s₀ s :=
  Runs.invariant (fun _ _ _ hi hs => step_serial hi hs) (init_serial P s₀) h

/-! ## Each thread's calls -/

/-- The operations that thread `i` calls. -/
def calledBy (i : ι) : List (Label ι Op) → List Op :=
  List.filterMap fun l => match l with
    | .call j op => if j = i then some op else none
    | _ => none

/-- Those that have returned. -/
def finishedBy (i : ι) (calls : List (ι × Op × L)) : List Op :=
  calls.filterMap fun c => if c.1 = i then some c.2.1 else none

theorem put_current (i j : ι) {p : Position Op S L} (h : p.current = (s.threads i).current) :
    ((s.put i p).threads j).current = (s.threads j).current := by
  by_cases hji : j = i
  · rw [hji, State.put_self, h]
  · rw [State.put_ne s p hji]

theorem step_calls {l : Label ι Op} (i : ι) (hs : step P s l = some t) :
    finishedBy i t.finished ++ (t.threads i).current =
      finishedBy i s.finished ++ (s.threads i).current ++ calledBy i [l] := by
  cases step_cases hs with
  | @call j op here =>
    rw [List.append_assoc]
    congr 1
    by_cases hij : i = j
    · subst hij
      rw [State.put_self, here]
      simp [Position.current, calledBy]
    · rw [State.put_ne s _ hij]
      simp [calledBy, Ne.symm hij]
  | @lock j op here free =>
    rw [show calledBy i [Label.lock j] = ([] : List Op) from rfl, List.append_nil]
    exact congrArg _ (put_current j i (by rw [here]; rfl))
  | @access j op access rest l here =>
    rw [show calledBy i [Label.access j] = ([] : List Op) from rfl, List.append_nil]
    exact congrArg _ (put_current j i (by rw [here]; rfl))
  | @unlock j op l here =>
    rw [show calledBy i [Label.unlock j] = ([] : List Op) from rfl, List.append_nil]
    by_cases hij : i = j
    · subst hij
      rw [State.leave_threads, State.put_self, here]
      simp [finishedBy, Position.current, State.leave]
    · rw [State.leave_threads, State.put_ne s _ hij]
      simp [finishedBy, State.leave, Ne.symm hij]

/-- What a thread has called, has returned in this order or is in progress. -/
theorem run_calls (i : ι) {ls : List (Label ι Op)} (h : Runs.run (step P) s ls = some t) :
    finishedBy i t.finished ++ (t.threads i).current =
      finishedBy i s.finished ++ (s.threads i).current ++ calledBy i ls := by
  induction ls generalizing s with
  | nil =>
    cases h
    exact (List.append_nil _).symm
  | cons l ls ih =>
    obtain ⟨u, hu, hr⟩ := Runs.run_cons h
    rw [ih hr, step_calls i hu, List.append_assoc, calledBy, ← List.filterMap_append,
      List.singleton_append, ← calledBy]

/-- As long as some call is in progress, one of them can go on. -/
theorem Serial.exists_step (h : Serial P s₀ s) {i : ι} (hi : s.threads i ≠ .outside) :
    ∃ l t, (∀ j op, l ≠ .call j op) ∧ step P s l = some t := by
  obtain ⟨base, _, hh⟩ := h
  cases hh with
  | free owner _ nobody =>
    cases hp : s.threads i with
    | outside => exact absurd hp hi
    | inside op rest l => exact absurd hp (nobody i op rest l)
    | waiting op => exact ⟨.lock i, _, fun _ _ => by rintro ⟨⟩, by rw [step, hp, owner]⟩
  | taken j op ran rest l _ here =>
    cases rest with
    | nil => exact ⟨.unlock j, _, fun _ _ => by rintro ⟨⟩, by rw [step, here]⟩
    | cons access rest => exact ⟨.access j, _, fun _ _ => by rintro ⟨⟩, by rw [step, here]⟩

/-! ## A call on top of a thread

A thread may be interrupted by a handler that itself calls an operation. Until the handler has
returned, the thread takes no step. -/

/-- A step of another thread than `i`. -/
def NotBy (i : ι) : Label ι Op → Prop
  | .call j _ => j ≠ i
  | .lock j => j ≠ i
  | .access j => j ≠ i
  | .unlock j => j ≠ i

/-- A thread that is inside can go through to its end. -/
theorem exists_finish {i : ι} {op : Op} {rest : List (S × L → S × L)} {l : L}
    (hi : s.threads i = .inside op rest l) :
    ∃ ls t, (∀ j, j ≠ i → ∀ l ∈ ls, NotBy j l) ∧ Runs.run (step P) s ls = some t ∧ t.owner = none ∧
      t.threads i = .outside ∧ ∀ j, j ≠ i → t.threads j = s.threads j := by
  induction rest generalizing s l with
  | nil =>
    have hs : step P s (.unlock i) = some (s.leave i op l) := by rw [step, hi]
    refine ⟨[.unlock i], s.leave i op l, fun j hj l' hl => ?_, by rw [Runs.run, hs]; rfl, rfl,
      s.put_self i _, fun j hj => s.put_ne _ hj⟩
    rw [List.mem_singleton.mp hl]
    exact Ne.symm hj
  | cons access rest ih =>
    have hs : step P s (.access i) = some (s.use i op access rest l) := by rw [step, hi]
    obtain ⟨ls, t, hby, hr, howner, hout, hsame⟩ :=
      ih (s := s.use i op access rest l) (s.put_self i _)
    refine ⟨.access i :: ls, t, fun j hj l' hl => ?_, by rw [Runs.run, hs]; exact hr, howner, hout,
      fun j hj => (hsame j hj).trans (s.put_ne _ hj)⟩
    rcases List.mem_cons.mp hl with rfl | hl
    · exact Ne.symm hj
    · exact hby j hj l' hl

/-- A thread that waits for the free lock can go through to its end. -/
theorem exists_through {i : ι} {op : Op} (hi : s.threads i = .waiting op) (hfree : s.owner = none) :
    ∃ ls t, (∀ j, j ≠ i → ∀ l ∈ ls, NotBy j l) ∧ Runs.run (step P) s ls = some t ∧
      t.threads i = .outside := by
  have hs : step P s (.lock i) = some (s.enter P i op) := by rw [step, hi, hfree]
  obtain ⟨ls, t, hby, hr, _, hout, _⟩ :=
    exists_finish (P := P) (s := s.enter P i op) (s.put_self i _)
  refine ⟨.lock i :: ls, t, fun j hj l hl => ?_, by rw [Runs.run, hs]; exact hr, hout⟩
  rcases List.mem_cons.mp hl with rfl | hl
  · exact Ne.symm hj
  · exact hby j hj l hl

/-- While the owner takes no step, it stays inside and who waits goes on waiting. -/
theorem step_blocked {m i : ι} {op op' : Op} {rest : List (S × L → S × L)} {l : L}
    {label : Label ι Op} (hby : NotBy m label) (hs : step P s label = some t) (h : Serial P s₀ s)
    (hm : s.threads m = .inside op' rest l) (hi : s.threads i = .waiting op) :
    t.threads m = .inside op' rest l ∧ t.threads i = .waiting op := by
  obtain ⟨base, _, hh⟩ := h
  obtain ⟨_, howner, _, _, halone⟩ := hh.inside hm
  cases step_cases hs with
  | @call j op'' here =>
    have hij : i ≠ j := by
      rintro rfl
      rw [hi] at here
      cases here
    exact ⟨(s.put_ne _ (Ne.symm hby)).trans hm, (s.put_ne _ hij).trans hi⟩
  | lock here free =>
    rw [howner] at free
    cases free
  | access here => exact absurd (halone _ _ _ _ here) hby
  | unlock here => exact absurd (halone _ _ _ _ here) hby

theorem run_blocked {m i : ι} {op op' : Op} {rest : List (S × L → S × L)} {l : L}
    {ls : List (Label ι Op)} (hby : ∀ l ∈ ls, NotBy m l) (h : Runs.run (step P) s ls = some t)
    (hs : Serial P s₀ s) (hm : s.threads m = .inside op' rest l) (hi : s.threads i = .waiting op) :
    t.threads i = .waiting op := by
  induction ls generalizing s with
  | nil =>
    cases h
    exact hi
  | cons label ls ih =>
    obtain ⟨u, hu, hr⟩ := Runs.run_cons h
    obtain ⟨hm', hi'⟩ := step_blocked (hby label List.mem_cons_self) hu hs hm hi
    exact ih (fun l' hl' => hby l' (List.mem_cons_of_mem _ hl')) hr (step_serial hs hu) hm' hi'

/-- The handler of thread `m` can return if and only if `m` was not inside. -/
theorem handler_returns_iff {m handler : ι} {op : Op} (hne : handler ≠ m) (hs : Serial P s₀ s)
    (hw : s.threads handler = .waiting op) :
    (∃ ls t, (∀ l ∈ ls, NotBy m l) ∧ Runs.run (step P) s ls = some t ∧
        t.threads handler = .outside) ↔
      ∀ op rest l, s.threads m ≠ .inside op rest l := by
  constructor
  · rintro ⟨ls, t, hby, hr, hout⟩ op' rest l hm
    rw [run_blocked hby hr hs hm hw] at hout
    cases hout
  · intro hm
    obtain ⟨base, _, hh⟩ := hs
    cases hh with
    | free owner =>
      obtain ⟨ls, t, hby, hr, hout⟩ := exists_through (P := P) hw owner
      exact ⟨ls, t, hby m (Ne.symm hne), hr, hout⟩
    | taken j op' ran rest l owner here =>
      have hjm : m ≠ j := by
        rintro rfl
        exact hm op' rest l here
      have hjh : handler ≠ j := by
        rintro rfl
        rw [hw] at here
        cases here
      obtain ⟨ls, u, hby, hr, hfree, _, hsame⟩ := exists_finish (P := P) here
      obtain ⟨ls', t, hby', hr', hout⟩ :=
        exists_through (P := P) ((hsame handler hjh).trans hw) hfree
      refine ⟨ls ++ ls', t, fun l hl => ?_, Runs.run_append hr hr', hout⟩
      rcases List.mem_append.mp hl with hl | hl
      · exact hby m hjm l hl
      · exact hby' m (Ne.symm hne) l hl

end

end Critical

import FastRing.Lib.Runs

/-! Progress of some of the threads of a transition system, whatever the other threads do. `owner`
tells which of them takes a step, if it is one of them. `Within` says that they reach their goal
in at most so many steps of their own and that, until then, one of them can take its next step,
however the step turns out; what the others do in between is not counted. A measure proves it
that goes down with every own step and never up. -/

namespace Progress

variable {S L ι : Type}

/-- Thread `i` can take its next step in `s`, and none of its steps is refused. -/
def Enabled (step : S → L → Option S) (ok : L → Prop) (owner : L → Option ι) (s : S) (i : ι) : Prop :=
  (∃ l, ok l ∧ owner l = some i) ∧ ∀ l, ok l → owner l = some i → ∃ t, step s l = some t

/-- Along steps whose labels satisfy `ok`, the goal `P` is reached in at most `n` own steps, and in
no state before it are all threads stuck. -/
def Within (step : S → L → Option S) (ok : L → Prop) (owner : L → Option ι) (P : S → Prop) (n : Nat)
    (s : S) : Prop :=
  ∀ ls t, (∀ l ∈ ls, ok l) → Runs.run step s ls = some t →
    (n ≤ ls.countP (fun l => (owner l).isSome) → P t) ∧ (P t ∨ ∃ i, Enabled step ok owner t i)

/-- Steps whose labels satisfy `ok` keep the invariant `I` and never take the measure `μ` up; own
ones take it down. -/
structure Ranked (step : S → L → Option S) (ok : L → Prop) (owner : L → Option ι) (I : S → Prop)
    (μ : S → Nat) : Prop where
  keep : ∀ s l t, I s → ok l → step s l = some t → I t
  level : ∀ s l t, I s → ok l → step s l = some t → owner l = none → μ t ≤ μ s
  down : ∀ s l t i, I s → ok l → step s l = some t → owner l = some i → μ t < μ s

variable {step : S → L → Option S} {ok : L → Prop} {owner : L → Option ι} {I P : S → Prop}
  {μ : S → Nat} {s t : S} {ls : List L}

/-- The measure pays for the own steps of a run. -/
theorem Ranked.run (h : Ranked step ok owner I μ) (hs : I s) (hok : ∀ l ∈ ls, ok l)
    (hr : Runs.run step s ls = some t) :
    I t ∧ ls.countP (fun l => (owner l).isSome) + μ t ≤ μ s := by
  induction ls generalizing s with
  | nil =>
    cases hr
    exact ⟨hs, by simp⟩
  | cons l ls ih =>
    obtain ⟨m, hm, hrest⟩ := Runs.run_cons hr
    have hl := hok l List.mem_cons_self
    obtain ⟨ht, hcount⟩ := ih (h.keep s l m hs hl hm)
      (fun l' hl' => hok l' (List.mem_cons_of_mem _ hl')) hrest
    refine ⟨ht, ?_⟩
    cases hown : owner l with
    | some i =>
      have hdown := h.down s l m i hs hl hm hown
      rw [List.countP_cons_of_pos (by simp [hown])]
      omega
    | none =>
      have hlevel := h.level s l m hs hl hm hown
      rw [List.countP_cons_of_neg (by simp [hown])]
      omega

/-- The rule: where the goal is not reached, some thread can go on. -/
theorem Ranked.within (h : Ranked step ok owner I μ)
    (henabled : ∀ s, I s → P s ∨ ∃ i, Enabled step ok owner s i) (hs : I s) {n : Nat}
    (hn : μ s ≤ n) : Within step ok owner P n s := by
  intro ls t hok hr
  obtain ⟨ht, hcount⟩ := h.run hs hok hr
  refine ⟨fun hle => ?_, henabled t ht⟩
  rcases henabled t ht with hp | ⟨i, ⟨l, hl, hown⟩, hall⟩
  · exact hp
  · obtain ⟨u, hu⟩ := hall l hl hown
    have := h.down t l u i ht hl hu hown
    omega

end Progress

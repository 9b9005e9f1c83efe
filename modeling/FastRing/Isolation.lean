import FastRing.ApplicationInvariant
import FastRing.Instances

/-! # Pipelines that keep apart

The managers are isolated from each other as long as a capture worker sets `cb_data` up
only when no other manager has. The second manager that sets it up takes the samples of
the first one over: from then on both ADC capture threads push into its ring. -/

namespace FastRing

/-- Before one of the writes to `cb_data`. -/
def SetupPos.writing : SetupPos → Bool
  | .writeBuffer => true
  | .writeStats => true
  | _ => false

/-- The manager has set its ADC simulator up, and `cb_data` for it. -/
def Instance.Bound {ι : Type} (m : Instance ι) : Prop :=
  m.adc.isSome = true ∧ m.capture.writing = false

/-- The ring and the statistics the thread works on. -/
def SamplerPos.target? {ι : Type} : SamplerPos ι → Option ι
  | .push target _ => some target
  | .count target _ => some target
  | _ => none

/-- The samples the thread has and has not pushed yet. -/
def SamplerPos.samples {ι : Type} : SamplerPos ι → List AdcSample
  | .checkBuffer sample => [sample]
  | .loadBuffer sample => [sample]
  | .push _ producer => producer.held
  | _ => []

namespace World

variable {ι : Type}

/-- What one manager looks like: its ADC capture thread works for itself and has samples
of its own only. -/
structure Separate (i : ι) (m : Instance ι) : Prop where
  absent : m.capture = .createAdc → m.adc = none
  creating : ∀ restart, m.capture = .createThread restart → m.adc.isSome = true
  sampler : ∀ p, m.sampler = some p → m.Bound
  target : ∀ p, m.sampler = some p → ∀ j, p.target? = some j → j = i
  samples : ∀ p, m.sampler = some p → ∀ x ∈ p.samples, x ∈ m.pipeline.generated
  published : ∀ x ∈ m.pipeline.captureToProcess.published, x ∈ m.pipeline.generated

structure Inv (s : World ι) : Prop where
  separate : ∀ i, Separate i (s.instances i)
  buffer : ∀ i, (s.instances i).Bound ∨ (s.instances i).capture = .writeStats →
    s.cbData.buffer = some i
  stats : ∀ i, (s.instances i).Bound → s.cbData.stats = some i

theorem init_inv (c2p p2n : ι → RingBuffer AdcSample) (allocated : ι → Nat → Bool) :
    Inv (init c2p p2n allocated) := by
  have hbound : ∀ i, ¬ ((init c2p p2n allocated).instances i).Bound := by
    intro i h
    cases h.1
  refine ⟨?_, ?_, ?_⟩
  · intro i
    exact ⟨fun _ => rfl, nofun, nofun, nofun, nofun, nofun⟩
  · rintro i (h | h)
    · exact absurd h (hbound i)
    · cases h
  · intro i h
    exact absurd h (hbound i)

/-! ## One manager changes -/

variable {s t : World ι} {i : ι}

section Modify

variable [DecidableEq ι]

theorem modify_self (s : World ι) (i : ι) (f : Instance ι → Instance ι) :
    (s.modify i f).instances i = f (s.instances i) :=
  Function.update_self _ _ _

theorem modify_ne (s : World ι) {i j : ι} (h : j ≠ i) (f : Instance ι → Instance ι) :
    (s.modify i f).instances j = s.instances j :=
  Function.update_of_ne h _ _

theorem modify_modify (s : World ι) (i : ι) (f g : Instance ι → Instance ι) :
    (s.modify i f).modify i g = s.modify i fun m => g (f m) := by
  simp only [modify, Function.update_self, Function.update_idem]

/-- A step of manager `i` that leaves `cb_data` alone. -/
theorem Inv.modify (hi : Inv s) {f : Instance ι → Instance ι}
    (hsep : Separate i (f (s.instances i)))
    (hbound : (f (s.instances i)).Bound → (s.instances i).Bound)
    (hwrite : (f (s.instances i)).capture = .writeStats → (s.instances i).capture = .writeStats) :
    Inv (s.modify i f) := by
  refine ⟨?_, ?_, ?_⟩
  · intro j
    by_cases hj : j = i
    · rw [hj, modify_self]
      exact hsep
    · rw [modify_ne s hj]
      exact hi.separate j
  · intro j
    by_cases hj : j = i
    · rw [hj, modify_self]
      rintro (hb | hw)
      · exact hi.buffer i (.inl (hbound hb))
      · exact hi.buffer i (.inr (hwrite hw))
    · rw [modify_ne s hj]
      exact hi.buffer j
  · intro j
    by_cases hj : j = i
    · rw [hj, modify_self]
      exact fun hb => hi.stats i (hbound hb)
    · rw [modify_ne s hj]
      exact hi.stats j

end Modify

/-- A step of the capture worker, which leaves the samples and the thread alone. -/
theorem Separate.setup {m m' : Instance ι} (h : Separate i m) (hsampler : m'.sampler = m.sampler)
    (hgen : m'.pipeline.generated = m.pipeline.generated)
    (hring : m'.pipeline.captureToProcess = m.pipeline.captureToProcess)
    (habsent : m'.capture = .createAdc → m'.adc = none)
    (hcreating : ∀ restart, m'.capture = .createThread restart → m'.adc.isSome = true)
    (hbound : m.Bound → m'.Bound) : Separate i m' := by
  refine ⟨habsent, hcreating, ?_, ?_, ?_, ?_⟩
  · rw [hsampler]
    exact fun p hp => hbound (h.sampler p hp)
  · rw [hsampler]
    exact h.target
  · rw [hsampler, hgen]
    exact h.samples
  · rw [hring, hgen]
    exact h.published

/-- A capture worker sets `cb_data` up only when no other manager has. -/
def Exclusive (s : World ι) : Label ι → Prop
  | .capture i _ _ =>
    (s.instances i).capture = .writeBuffer → s.cbData.buffer = none ∨ s.cbData.buffer = some i
  | _ => True

instance [DecidableEq ι] (s : World ι) : (l : Label ι) → Decidable (Exclusive s l)
  | .capture _ _ _ => inferInstanceAs (Decidable (_ → _))
  | .sampler _ _ => isTrue trivial
  | .process _ => isTrue trivial

/-- Only manager `i` is changed. -/
def Only (s : World ι) (i : ι) (t : World ι) : Prop := ∀ j, j ≠ i → t.instances j = s.instances j

/-- Behind `adc_simulator_start` the worker is at neither of the special positions. -/
theorem afterStart (restart : Bool) :
    (if restart then SetupPos.getAdc else .checkRunning).writing = false ∧
      (if restart then SetupPos.getAdc else .checkRunning) ≠ .createAdc ∧
      ∀ r, (if restart then SetupPos.getAdc else .checkRunning) ≠ .createThread r := by
  cases restart with
  | true => exact ⟨rfl, nofun, nofun⟩
  | false => exact ⟨rfl, nofun, nofun⟩

/-- While manager `i` is the only one that may have set `cb_data` up, no other one has
its ADC simulator. -/
theorem Inv.unbound (hi : Inv s) (hb : s.cbData.buffer = none ∨ s.cbData.buffer = some i) {j : ι}
    (hj : j ≠ i) : ¬ ((s.instances j).Bound ∨ (s.instances j).capture = .writeStats) := by
  intro h
  have hbuffer := hi.buffer j h
  rcases hb with hb | hb
  · rw [hb] at hbuffer
    cases hbuffer
  · rw [hb] at hbuffer
    cases hbuffer
    exact hj rfl

variable [DecidableEq ι]

/-- A step of the capture worker away from `cb_data`, with the ADC simulator there as
before. -/
theorem Inv.plain (hi : Inv s) {f : Instance ι → Instance ι}
    (hold : (s.instances i).capture.writing = false)
    (hnew : (f (s.instances i)).capture.writing = false)
    (hadc : (f (s.instances i)).adc.isSome = (s.instances i).adc.isSome)
    (hsampler : (f (s.instances i)).sampler = (s.instances i).sampler)
    (hgen : (f (s.instances i)).pipeline.generated = (s.instances i).pipeline.generated)
    (hring : (f (s.instances i)).pipeline.captureToProcess =
      (s.instances i).pipeline.captureToProcess)
    (habsent : (f (s.instances i)).capture = .createAdc → (f (s.instances i)).adc = none)
    (hcreating : ∀ restart, (f (s.instances i)).capture = .createThread restart →
      (f (s.instances i)).adc.isSome = true) :
    Inv (s.modify i f) ∧ Only s i (s.modify i f) := by
  refine ⟨hi.modify ?_ ?_ ?_, fun j hj => modify_ne s hj f⟩
  · refine (hi.separate i).setup hsampler hgen hring habsent hcreating ?_
    rintro ⟨hsome, _⟩
    exact ⟨hadc.trans hsome, hnew⟩
  · rintro ⟨hsome, _⟩
    exact ⟨hadc.symm.trans hsome, hold⟩
  · intro hw
    rw [hw] at hnew
    cases hnew

/-- Manager `i` writes to `cb_data`, and no other one has set it up. -/
theorem Inv.write (hi : Inv s) (hb : s.cbData.buffer = none ∨ s.cbData.buffer = some i)
    {f : Instance ι → Instance ι} {cbData : CallbackData ι}
    (hsep : Separate i (f (s.instances i))) (hbuffer : cbData.buffer = some i)
    (hstats : (f (s.instances i)).Bound → cbData.stats = some i) :
    Inv { s.modify i f with cbData := cbData } ∧ Only s i { s.modify i f with cbData := cbData } := by
  refine ⟨⟨?_, ?_, ?_⟩, fun j hj => modify_ne s hj f⟩
  · intro j
    by_cases hj : j = i
    · rw [hj]
      show Separate i ((s.modify i f).instances i)
      rw [modify_self]
      exact hsep
    · show Separate j ((s.modify i f).instances j)
      rw [modify_ne s hj]
      exact hi.separate j
  · intro j hbound
    by_cases hj : j = i
    · rw [hj]
      exact hbuffer
    · rw [show ({ s.modify i f with cbData := cbData } : World ι).instances j = s.instances j from
        modify_ne s hj f] at hbound
      exact absurd hbound (hi.unbound hb hj)
  · intro j hbound
    by_cases hj : j = i
    · subst hj
      rw [show ({ s.modify j f with cbData := cbData } : World ι).instances j = f (s.instances j) from
        modify_self s j f] at hbound
      exact hstats hbound
    · rw [show ({ s.modify i f with cbData := cbData } : World ι).instances j = s.instances j from
        modify_ne s hj f] at hbound
      exact absurd (.inl hbound) (hi.unbound hb hj)

/-- `adc_simulator_create` succeeds; before it the manager was not set up. -/
theorem Inv.create (hi : Inv s) (hc : (s.instances i).capture = .createAdc) (adc : AdcSimulator) :
    Inv (s.modify i fun m => { m with adc := some adc, capture := .writeBuffer }) := by
  have hsep := hi.separate i
  have hnone : ¬ (s.instances i).Bound := by
    intro hb
    have hsome := hb.1
    rw [hsep.absent hc] at hsome
    cases hsome
  refine hi.modify ?_ ?_ nofun
  · exact hsep.setup rfl rfl rfl nofun nofun fun hb => absurd hb hnone
  · intro hb
    cases hb.2

/-- The ADC capture thread of manager `i` comes into being, without a sample. -/
theorem Inv.spawn (hi : Inv s) (hbound : (s.instances i).Bound) {capture : SetupPos}
    (hw : capture.writing = false) (habsent : capture ≠ .createAdc)
    (hcreating : ∀ restart, capture ≠ .createThread restart) :
    Inv (s.modify i fun m => { m with sampler := some .readRunning, capture := capture }) := by
  have hsep := hi.separate i
  refine hi.modify ⟨?_, ?_, ?_, ?_, ?_, hsep.published⟩ (fun _ => hbound) ?_
  · exact fun h => absurd h habsent
  · exact fun restart h => absurd h (hcreating restart)
  · exact fun _ _ => ⟨hbound.1, hw⟩
  · intro p hp j hj
    cases hp
    cases hj
  · intro p hp x hx
    cases hp
    cases hx
  · intro h
    have h : capture = .writeStats := h
    rw [h] at hw
    cases hw

theorem captureStep_inv (hi : Inv s) {granted : Bool} {clock : UInt64}
    (hok : Exclusive s (.capture i granted clock)) (h : s.captureStep i granted clock = some t) :
    Inv t ∧ Only s i t := by
  have hsep := hi.separate i
  have hold : ∀ {c : SetupPos}, (s.instances i).capture = c → c.writing = false →
      (s.instances i).capture.writing = false := by
    intro c hc hw
    rw [hc]
    exact hw
  unfold captureStep at h
  split at h
  · rename_i hc
    cases h
    cases hadc : (s.instances i).adc with
    | none =>
      refine hi.plain (hold hc rfl) ?_ rfl rfl rfl rfl ?_ ?_ <;> simp [hadc, SetupPos.writing]
    | some adc =>
      refine hi.plain (hold hc rfl) ?_ rfl rfl rfl rfl ?_ ?_ <;> simp [hadc, SetupPos.writing]
  · rename_i hc
    split at h
    · cases h
      exact hi.plain (hold hc rfl) rfl rfl rfl rfl rfl nofun nofun
    · cases h
      exact ⟨hi.create hc _, fun j hj => modify_ne s hj _⟩
  · rename_i hc
    cases h
    have hnone : ¬ (s.instances i).Bound := by
      rintro ⟨_, hw⟩
      rw [hc] at hw
      cases hw
    refine hi.write (hok hc) ?_ rfl ?_
    · exact hsep.setup rfl rfl rfl nofun nofun fun hb => absurd hb hnone
    · rintro ⟨_, hw⟩
      cases hw
  · rename_i hc
    cases h
    have hbuffer := hi.buffer i (.inr hc)
    refine hi.write (.inr hbuffer) ?_ hbuffer fun _ => rfl
    refine hsep.setup rfl rfl rfl nofun nofun ?_
    rintro ⟨hsome, _⟩
    exact ⟨hsome, rfl⟩
  · rename_i hc
    cases h
    refine hi.plain (hold hc rfl) rfl ?_ rfl rfl rfl nofun nofun
    exact Option.isSome_map
  · rename_i restart hc
    obtain ⟨adc, hadc, rfl⟩ := Option.map_eq_some_iff.mp h
    obtain ⟨hw, habs, hcre⟩ := afterStart restart
    split
    · exact hi.plain (hold hc rfl) hw rfl rfl rfl rfl (fun h => absurd h habs)
        fun r h => absurd h (hcre r)
    · refine hi.plain (hold hc rfl) rfl ?_ rfl rfl rfl nofun fun _ _ => rfl
      rw [hadc]
      rfl
  · rename_i restart hc
    obtain ⟨hw, habs, hcre⟩ := afterStart restart
    have hbound : (s.instances i).Bound := ⟨hsep.creating restart hc, hold hc rfl⟩
    simp only at h
    split at h
    · split at h
      · cases h
        exact ⟨hi.spawn hbound hw habs hcre, fun j hj => modify_ne s hj _⟩
      · cases h
    · cases h
      refine hi.plain (hold hc rfl) hw ?_ rfl rfl rfl (fun h => absurd h habs)
        fun r h => absurd h (hcre r)
      exact Option.isSome_map
  · rename_i hc
    obtain ⟨adc, hadc, rfl⟩ := Option.map_eq_some_iff.mp h
    cases hrun : adc.running with
    | true => exact hi.plain (hold hc rfl) rfl rfl rfl rfl rfl nofun nofun
    | false => exact hi.plain (hold hc rfl) rfl rfl rfl rfl rfl nofun nofun

/-! ## The ADC capture thread -/

/-- A step of the thread of manager `i` that works on manager `i`. -/
theorem Inv.sample (hi : Inv s) {p : SamplerPos ι} (hp : (s.instances i).sampler = some p)
    {f : Instance ι → Instance ι} {pos : SamplerPos ι}
    (hcapture : (f (s.instances i)).capture = (s.instances i).capture)
    (hadc : (f (s.instances i)).adc = (s.instances i).adc)
    (hsampler : (f (s.instances i)).sampler = some pos)
    (htarget : ∀ j, pos.target? = some j → j = i)
    (hsamples : ∀ x ∈ pos.samples, x ∈ (f (s.instances i)).pipeline.generated)
    (hpub : ∀ x ∈ (f (s.instances i)).pipeline.captureToProcess.published,
      x ∈ (f (s.instances i)).pipeline.generated) :
    Inv (s.modify i f) ∧ Only s i (s.modify i f) := by
  have hsep := hi.separate i
  have hbound := hsep.sampler p hp
  refine ⟨hi.modify ⟨?_, ?_, ?_, ?_, ?_, hpub⟩ (fun _ => hbound) ?_, fun j hj => modify_ne s hj f⟩
  · rw [hcapture, hadc]
    exact hsep.absent
  · rw [hcapture, hadc]
    exact hsep.creating
  · intro _ _
    unfold Instance.Bound
    rw [hcapture, hadc]
    exact hbound
  · rw [hsampler]
    intro p' hp'
    cases hp'
    exact htarget
  · rw [hsampler]
    intro p' hp'
    cases hp'
    exact hsamples
  · rw [hcapture]
    exact id

/-- The thread moves to a position without a ring of its own, with the samples it has. -/
theorem Inv.moveSampler (hi : Inv s) {p pos : SamplerPos ι}
    (hp : (s.instances i).sampler = some p) (htarget : ∀ j, pos.target? = some j → j = i)
    (hsamples : ∀ x ∈ pos.samples, x ∈ p.samples) :
    Inv (s.moveSampler i pos) ∧ Only s i (s.moveSampler i pos) := by
  have hsep := hi.separate i
  refine hi.sample hp rfl rfl rfl htarget ?_ hsep.published
  intro x hx
  exact hsep.samples p hp x (hsamples x hx)

/-- The thread moves to a position where it has neither a ring nor a sample. -/
theorem Inv.releaseSampler (hi : Inv s) {p pos : SamplerPos ι}
    (hp : (s.instances i).sampler = some p) (htarget : pos.target? = none)
    (hsamples : pos.samples = []) :
    Inv (s.moveSampler i pos) ∧ Only s i (s.moveSampler i pos) := by
  refine hi.moveSampler hp ?_ ?_
  · intro j hj
    rw [htarget] at hj
    cases hj
  · intro x hx
    rw [hsamples] at hx
    cases hx

/-- `generate_sample`: the thread has a new sample, or none when there is no callback. -/
theorem Inv.generate (hi : Inv s) {p pos : SamplerPos ι} (hp : (s.instances i).sampler = some p)
    (sample : AdcSample) (sequence : UInt32) (htarget : pos.target? = none)
    (hsamples : ∀ x ∈ pos.samples, x = sample) :
    let t := (s.modify i fun m =>
      { m with pipeline := { m.pipeline with
          sequence := sequence
          generated := m.pipeline.generated ++ [sample] } }).moveSampler i pos
    Inv t ∧ Only s i t := by
  have hsep := hi.separate i
  simp only [World.moveSampler, modify_modify]
  refine hi.sample hp rfl rfl rfl ?_ ?_ ?_
  · intro j hj
    rw [htarget] at hj
    cases hj
  · intro x hx
    rw [hsamples x hx]
    exact List.mem_append_right _ (List.mem_singleton_self sample)
  · intro x hx
    exact List.mem_append_left _ (hsep.published x hx)

theorem pushStep_inv (hi : Inv s) {producer : Producer AdcSample}
    (hp : (s.instances i).sampler = some (.push i producer)) (h : s.pushStep i i producer = some t) :
    Inv t ∧ Only s i t := by
  have hsep := hi.separate i
  obtain ⟨ring, hring, rfl⟩ := Option.map_eq_some_iff.mp h
  obtain ⟨a, r, hpub, _, hheld, _, _⟩ := Spsc.producerStep_flow hring
  have hmem : ∀ x ∈ a ++ r ++ ring.producer.held, x ∈ (s.instances i).pipeline.generated := by
    intro x hx
    refine hsep.samples _ hp x ?_
    rw [← hheld] at hx
    exact hx
  rw [World.moveSampler, modify_modify]
  refine hi.sample hp rfl rfl rfl ?_ ?_ ?_
  · intro j hj
    cases hj
    rfl
  · intro x hx
    exact hmem x (List.mem_append_right _ hx)
  · intro x hx
    have hx : x ∈ ring.published := hx
    rw [hpub] at hx
    rcases List.mem_append.mp hx with hx | hx
    · exact hsep.published x hx
    · exact hmem x (List.mem_append_left _ (List.mem_append_left _ hx))

theorem samplerStep_inv (hi : Inv s) {due : Option (UInt64 × Int32)}
    (h : s.samplerStep i due = some t) : Inv t ∧ Only s i t := by
  have hsep := hi.separate i
  unfold samplerStep at h
  split at h
  · rename_i adc hp _
    cases h
    split
    · exact hi.releaseSampler hp rfl rfl
    · exact hi.releaseSampler hp rfl rfl
  · rename_i adc hp _
    split at h
    · cases h
      exact hi.releaseSampler hp rfl rfl
    · cases h
      refine hi.generate hp _ _ ?_ ?_
      · split <;> rfl
      · intro x hx
        split at hx
        · exact List.mem_singleton.mp hx
        · cases hx
  · rename_i sample hp
    cases h
    split
    · exact hi.moveSampler hp (fun j hj => by cases hj) fun x hx => hx
    · exact hi.releaseSampler hp rfl rfl
  · rename_i sample hp
    obtain ⟨target, htarget, rfl⟩ := Option.map_eq_some_iff.mp h
    rw [hi.buffer i (.inl (hsep.sampler _ hp))] at htarget
    cases htarget
    refine hi.moveSampler hp ?_ fun x hx => hx
    intro j hj
    cases hj
    rfl
  · rename_i hp
    cases h
    exact hi.releaseSampler hp rfl rfl
  · rename_i target producer _ hp
    obtain rfl := hsep.target _ hp target rfl
    exact pushStep_inv hi hp h
  · rename_i accepted hp
    cases h
    split
    · exact hi.releaseSampler hp rfl rfl
    · exact hi.releaseSampler hp rfl rfl
  · rename_i accepted hp
    obtain ⟨target, htarget, rfl⟩ := Option.map_eq_some_iff.mp h
    rw [hi.stats i (hsep.sampler _ hp)] at htarget
    cases htarget
    refine hi.moveSampler hp ?_ ?_
    · intro j hj
      cases hj
      rfl
    · intro x hx
      cases hx
  · rename_i target accepted hp
    cases h
    obtain rfl := hsep.target _ hp target rfl
    rw [World.moveSampler, modify_modify]
    refine hi.sample hp rfl rfl rfl ?_ ?_ hsep.published
    · intro j hj
      cases hj
    · intro x hx
      cases hx
  · cases h

/-! ## Isolation -/

theorem processStep_inv (hi : Inv s) {pipeline : Pipeline}
    (h : (s.instances i).pipeline.processStep = some pipeline) :
    Inv (s.modify i fun m => { m with pipeline := pipeline }) ∧
      Only s i (s.modify i fun m => { m with pipeline := pipeline }) := by
  have hsep := hi.separate i
  obtain ⟨c2p, p2n, stats, rfl, _, hpub⟩ := Pipeline.processStep_frame h
  refine ⟨hi.modify ?_ id id, fun j hj => modify_ne s hj _⟩
  refine ⟨hsep.absent, hsep.creating, hsep.sampler, hsep.target, hsep.samples, ?_⟩
  intro x hx
  have hx : x ∈ c2p.published := hx
  rw [hpub] at hx
  exact hsep.published x hx

theorem step_inv {l : Label ι} (hi : Inv s) (hok : Exclusive s l) (h : s.step l = some t) :
    Inv t ∧ Only s l.owner t := by
  cases l with
  | capture i granted clock => exact captureStep_inv hi hok h
  | sampler i due => exact samplerStep_inv hi h
  | process i =>
    obtain ⟨pipeline, hp, rfl⟩ := Option.map_eq_some_iff.mp h
    exact processStep_inv hi hp

/-- The rings and the counters of a manager are as before. -/
structure Untouched (m m' : Instance ι) : Prop where
  captureToProcess : m'.pipeline.captureToProcess.rb = m.pipeline.captureToProcess.rb
  processToNetwork : m'.pipeline.processToNetwork.rb = m.pipeline.processToNetwork.rb
  totalSamples : m'.pipeline.stats.totalSamples = m.pipeline.stats.totalSamples
  droppedSamples : m'.pipeline.stats.droppedSamples = m.pipeline.stats.droppedSamples

/-- The step does not touch another manager's rings and counters, and leaves only
samples of their own in the first rings. -/
def Isolated (s : World ι) (l : Label ι) : Prop :=
  ∀ t, s.step l = some t →
    (∀ j, j ≠ l.owner → Untouched (s.instances j) (t.instances j)) ∧
      ∀ j, ∀ x ∈ (t.instances j).pipeline.captureToProcess.published,
        x ∈ (t.instances j).pipeline.generated

/-- In every run in which `cb_data` is set up for one manager only, every step keeps to
its own manager. -/
theorem isolated_of_exclusive (c2p p2n : ι → RingBuffer AdcSample) (allocated : ι → Nat → Bool)
    (ls : List (Label ι)) (hok : Runs.AllSteps step Exclusive (init c2p p2n allocated) ls) :
    Runs.AllSteps step Isolated (init c2p p2n allocated) ls := by
  refine Runs.allSteps_of_steps (fun s l t hi hok hs => (step_inv hi hok hs).1) ?_
    (init_inv c2p p2n allocated) hok
  intro s l hi hok t hs
  obtain ⟨hi', honly⟩ := step_inv hi hok hs
  refine ⟨?_, fun j => (hi'.separate j).published⟩
  intro j hj
  rw [honly j hj]
  exact ⟨rfl, rfl, rfl, rfl⟩

/-- The capture worker of manager `i` sets its ADC simulator up. -/
def setUp (i : ι) : List (Label ι) := List.replicate 7 (.capture i true 0)

/-- The ADC capture thread of manager `i` delivers a sample. -/
def deliver (i : ι) : List (Label ι) :=
  .sampler i none :: .sampler i (some (0, 0)) :: List.replicate 10 (.sampler i none)

/-- The state before any manager has done anything, with full-size rings. -/
def atRest : World Bool := init (fun _ => pipelineRing) (fun _ => pipelineRing) fun _ _ => true

/-- One manager delivers a sample while the other one forwards nothing. -/
theorem isolated_one_manager :
    Runs.AllSteps step Isolated atRest (setUp false ++ deliver false ++ [.process true]) :=
  isolated_of_exclusive _ _ _ _ (by decide)

/-- Two managers set their ADC simulators up, and a sample of the first one ends up in
the ring of the second one and is counted there. -/
theorem sample_astray :
    (∃ s x, Runs.run step atRest (setUp false ++ setUp true ++ deliver false) = some s ∧
      (s.instances false).pipeline.generated = [x] ∧
      (s.instances false).pipeline.captureToProcess.published = [] ∧
      (s.instances true).pipeline.generated = [] ∧
      (s.instances true).pipeline.captureToProcess.published = [x] ∧
      (s.instances true).pipeline.stats.totalSamples = 1) ∧
    ¬ Runs.AllSteps step Isolated atRest (setUp false ++ setUp true ++ deliver false) := by
  refine ⟨⟨_, _, rfl, rfl, rfl, rfl, rfl, rfl⟩, ?_⟩
  intro hall
  -- the eighth step of the thread publishes the sample
  have hsplit : setUp false ++ setUp true ++ deliver false =
      (setUp false ++ setUp true ++ (deliver false).take 7) ++ (deliver false).drop 7 := rfl
  rw [hsplit] at hall
  have hlast := hall.append_right rfl
  have hhead := congrArg RingBuffer.head ((hlast.1 _ rfl).1 true nofun).captureToProcess
  exact absurd hhead (by decide)

end World

end FastRing

import FastRing.WaitFree
import FastRing.PipelineInvariant

/-! # The workers come back

Each iteration of the process and the network worker is over after a bounded number of steps,
and none of these steps has to wait for another thread: their ring operations are wait-free, and
they ask for batches of at most 256 samples. -/

namespace FastRing

variable {σ : Type}

/-- The batches the consumer asks for have `n` samples. -/
def Consumer.Asks (n : UInt32) : Consumer σ → Prop
  | .batch count | .batchHead count _ | .batchTail count _ | .batchCopy count _ _ _
  | .batchDone count _ => count = n
  | _ => True

/-- The batches the producer offers have at most `n` samples. -/
def Producer.Offers (n : Nat) : Producer σ → Prop
  | .batch b | .batchHead b _ | .batchFree b _ | .batchCopy b _ _ _ _ | .batchDone b _ =>
    b.count.toNat ≤ n
  | _ => True

namespace Spsc

variable {s t : Spsc σ} {q : List σ}

theorem consumerStep_asks {n : UInt32} (h : s.consumerStep = some t) (ha : s.consumer.Asks n) :
    t.consumer.Asks n := by
  cases consumerStep_access h with
  | pop pos | popEmpty pos | popHead pos | popTail pos | popSlot pos | popRelease pos | popDone pos
  | batchDone pos => exact trivial
  | batchZero pos | batch pos | batchEmpty pos | batchHead pos | batchTail pos | batchCopy pos
  | batchRelease pos =>
    rw [pos] at ha
    exact ha

theorem producerStep_offers {n : Nat} (h : s.producerStep = some t) (ho : s.producer.Offers n) :
    t.producer.Offers n := by
  cases producerStep_access h with
  | push pos | pushFull pos | pushRoom pos | pushSlot pos | pushPublish pos | pushDone pos
  | batchDone pos => exact trivial
  | batchZero pos | batch pos | batchFull pos | batchRoom pos | batchFree pos | batchCopy pos
  | batchPublish pos =>
    rw [pos] at ho
    exact ho

/-- A batch pop ends in `batchDone`. -/
theorem consumerStep_not_idle (h : s.consumerStep = some t) (hb : s.consumer.isBatch = true)
    (hd : ∀ count out, s.consumer ≠ .batchDone count out) : t.consumer ≠ .idle := by
  cases consumerStep_access h with
  | popDone pos => rw [pos] at hb; cases hb
  | batchDone pos => exact absurd pos (hd _ _)
  | _ => nofun

/-- A batch push of at most `n` samples takes at most so long. -/
theorem Inv.producer_todo_le (hi : Inv s q) {n : Nat} (hb : s.producer.isBatch = true)
    (ho : s.producer.Offers n) : s.producer.todo s.places ≤ min n s.places + 5 := by
  have hp := hi.producer
  cases pos : s.producer with
  | push | pushHead | pushSlot | pushPublish | pushDone => rw [pos] at hb; cases hb
  | idle | batchDone => simp only [Producer.todo]; omega
  | batch b | batchHead b head =>
    rw [pos] at ho
    have ho : b.count.toNat ≤ n := ho
    simp only [Producer.todo]
    omega
  | batchFree b k =>
    rw [pos] at hp ho
    have ho : b.count.toNat ≤ n := ho
    have hroom := hp.room
    have hle := hp.le
    simp only [Producer.todo, places]
    omega
  | batchCopy b k head i todo =>
    rw [pos] at hp ho
    have ho : b.count.toNat ≤ n := ho
    obtain ⟨_, hfits, done, hdone, _⟩ := hp
    have hroom := hfits.room
    have hle := hfits.le
    have hlen := congrArg List.length hdone
    rw [List.length_append, List.length_take] at hlen
    simp only [Producer.todo, places]
    omega

/-- A batch pop of `n` samples takes at most so long. -/
theorem Inv.consumer_todo_le (hi : Inv s q) {n : UInt32} (hb : s.consumer.isBatch = true)
    (ha : s.consumer.Asks n) : s.consumer.todo s.places ≤ min n.toNat s.places + 5 := by
  have hroom := hi.holds.room
  have hc := hi.consumer
  cases pos : s.consumer with
  | pop | popHead | popTail | popSlot | popRelease | popDone => rw [pos] at hb; cases hb
  | idle | batchDone => simp only [Consumer.todo]; omega
  | batch count | batchHead count head =>
    rw [pos] at ha
    obtain rfl : count = n := ha
    simp only [Consumer.todo]
    omega
  | batchTail count k =>
    rw [pos] at hc ha
    obtain rfl : count = n := ha
    have hle := hc.le
    have hasked := hc.asked
    simp only [Consumer.todo, places]
    omega
  | batchCopy count k tail out =>
    rw [pos] at hc ha
    obtain rfl : count = n := ha
    have hle := hc.2.1.le
    have hasked := hc.2.1.asked
    simp only [Consumer.todo, places]
    omega

end Spsc

namespace Pipeline

variable {s t : Pipeline} {p₁ p₂ : Nat}

/-- What the process and the network worker are doing, on rings with `p₁` and `p₂` places. -/
structure Steady (p₁ p₂ : Nat) (s : Pipeline) : Prop where
  inv : Inv s
  first : s.captureToProcess.places = p₁
  second : s.processToNetwork.places = p₂
  asks : s.captureToProcess.consumer.Asks 256
  offers : s.processToNetwork.producer.Offers 256
  asks' : s.processToNetwork.consumer.Asks samplesPerBlock
  turn : s.processToNetwork.producer = .idle ∨ s.captureToProcess.consumer = .idle
  popping : s.network = .popping → s.processToNetwork.consumer ≠ .idle
  client : s.network ≠ .idle → s.tcpClient ≠ none

theorem init_steady {c2p p2n : RingBuffer AdcSample} (h : c2p.Fresh) (h' : p2n.Fresh)
    (startTime : UInt64) (allocated : Nat → Bool) :
    Steady (c2p.capacity.toNat - 1) (p2n.capacity.toNat - 1) (init c2p p2n startTime allocated) :=
  ⟨init_inv h h' startTime allocated, rfl, rfl, trivial, trivial, trivial, .inl rfl, nofun,
    fun h => absurd rfl h⟩

/-- The steps that leave the two workers and the sizes of the rings alone. -/
theorem Steady.frame (h : Steady p₁ p₂ s) (hi : Inv t)
    (hcap : t.captureToProcess.rb.capacity = s.captureToProcess.rb.capacity)
    (hcons : t.captureToProcess.consumer = s.captureToProcess.consumer)
    (hring : t.processToNetwork = s.processToNetwork) (hnet : t.network = s.network)
    (hclient : t.tcpClient = s.tcpClient) : Steady p₁ p₂ t := by
  refine ⟨hi, ?_, hring ▸ h.second, hcons ▸ h.asks, hring ▸ h.offers, hring ▸ h.asks', ?_, ?_, ?_⟩
  · rw [Spsc.places, hcap]
    exact h.first
  · rw [hring, hcons]
    exact h.turn
  · rw [hnet, hring]
    exact h.popping
  · rw [hnet, hclient]
    exact h.client

theorem capture_steady (h : Steady p₁ p₂ s) {currentTime : UInt64} {value : Int32}
    (hs : s.capture currentTime value = some t) : Steady p₁ p₂ t := by
  have hi := capture_inv h.inv hs
  unfold capture at hs
  split at hs
  · cases hs
    exact h.frame hi rfl rfl rfl rfl rfl
  · cases hs

theorem callbackStep_steady (h : Steady p₁ p₂ s) (hs : s.callbackStep = some t) :
    Steady p₁ p₂ t := by
  have hi := callbackStep_inv h.inv hs
  cases callbackStep_move hs with
  | push _ access =>
    have hm := Spsc.producerStep_move access
    exact h.frame hi hm.capacity hm.consumer rfl rfl rfl
  | count => exact h.frame hi rfl rfl rfl rfl rfl

/-! ## The process worker -/

/-- At most so many steps until the iteration of the process worker is over; between two
iterations it is the length of a whole one. -/
def processLeft (p₁ p₂ : Nat) (s : Pipeline) : Nat :=
  match s.processToNetwork.producer, s.captureToProcess.consumer with
  | .idle, .idle => min 256 p₁ + min 256 p₂ + 11
  | .idle, c => c.todo p₁ + (min 256 p₂ + 5)
  | p, _ => p.todo p₂

theorem processLeft_idle (p₁ p₂ : Nat) (hp : s.processToNetwork.producer = .idle)
    (hc : s.captureToProcess.consumer ≠ .idle) :
    s.processLeft p₁ p₂ = s.captureToProcess.consumer.todo p₁ + (min 256 p₂ + 5) := by
  unfold processLeft
  rw [hp]
  split
  · exact absurd (by assumption) hc
  · rfl
  · exact absurd rfl (by assumption)

theorem processLeft_push (p₁ p₂ : Nat) (hp : s.processToNetwork.producer ≠ .idle) :
    s.processLeft p₁ p₂ = s.processToNetwork.producer.todo p₂ := by
  unfold processLeft
  split
  · exact absurd (by assumption) hp
  · exact absurd (by assumption) hp
  · rfl

/-- Between two iterations of the process worker. -/
def processIdle (s : Pipeline) : Prop :=
  s.processToNetwork.producer = .idle ∧ s.captureToProcess.consumer = .idle

theorem Steady.processLeft_le (h : Steady p₁ p₂ s) :
    s.processLeft p₁ p₂ ≤ min 256 p₁ + min 256 p₂ + 11 := by
  obtain ⟨q, hq⟩ := h.inv.first
  obtain ⟨q', hq'⟩ := h.inv.second
  have hcons := hq.consumer_todo_le h.inv.popBatch h.asks
  have hprod := hq'.producer_todo_le h.inv.pushBatch h.offers
  rw [h.first] at hcons
  rw [h.second] at hprod
  have h256 : (256 : UInt32).toNat = 256 := rfl
  by_cases hp : s.processToNetwork.producer = .idle
  · by_cases hc : s.captureToProcess.consumer = .idle
    · exact Nat.le_of_eq (by simp only [processLeft, hp, hc])
    · rw [processLeft_idle p₁ p₂ hp hc]
      omega
  · rw [processLeft_push p₁ p₂ hp]
    omega

/-- A step of the process worker ends the iteration or leaves fewer. -/
theorem processStep_left (h : Steady p₁ p₂ s) (hs : s.processStep = some t) :
    Steady p₁ p₂ t ∧ (t.processIdle ∨ t.processLeft p₁ p₂ < s.processLeft p₁ p₂) := by
  have hi := processStep_inv h.inv hs
  obtain ⟨q, hq⟩ := h.inv.first
  obtain ⟨q', hq'⟩ := h.inv.second
  obtain ⟨hinv, hfirst, hsecond, hasks, hoffers, hasks', hturn, hpopping, hclient⟩ := h
  cases processStep_move hs with
  | start idle pos =>
    refine ⟨⟨hi, hfirst, hsecond, rfl, hoffers, hasks', .inl idle, hpopping, hclient⟩, .inr ?_⟩
    have hafter : processLeft p₁ p₂ { s with
        captureToProcess := { s.captureToProcess with consumer := .batch 256 } } =
        min 256 p₁ + 5 + (min 256 p₂ + 5) := processLeft_idle p₁ p₂ idle (by rintro ⟨⟩)
    rw [hafter]
    simp only [processLeft, idle, pos]
    omega
  | @pop ring idle running access =>
    have hm := Spsc.consumerStep_move access
    have hc : s.captureToProcess.consumer ≠ .idle := by
      intro hidle
      simp [Spsc.consumerStep, hidle] at access
    have hc' := Spsc.consumerStep_not_idle access hinv.popBatch running
    refine ⟨⟨hi, ?_, hsecond, Spsc.consumerStep_asks access hasks, hoffers, hasks', .inl idle,
      hpopping, hclient⟩, .inr ?_⟩
    · rw [Spsc.places, hm.capacity]
      exact hfirst
    · have hless := Spsc.consumerStep_todo hq access
      rw [hfirst] at hless
      have hafter : processLeft p₁ p₂ { s with captureToProcess := ring } =
          ring.consumer.todo p₁ + (min 256 p₂ + 5) := processLeft_idle p₁ p₂ idle hc'
      rw [hafter, processLeft_idle p₁ p₂ idle hc]
      exact Nat.add_lt_add_right hless _
  | noData idle pos =>
    exact ⟨⟨hi, hfirst, hsecond, trivial, hoffers, hasks', .inl idle, hpopping, hclient⟩,
      .inl ⟨idle, rfl⟩⟩
  | @forward count samples idle pos data =>
    rw [pos] at hasks
    have hcons := hq.consumer
    rw [pos] at hcons
    have hlen : samples.length ≤ 256 := by
      rw [show count = 256 from hasks] at hcons
      exact hcons.1
    have hcount : (Batch.ofList samples).count.toNat = samples.length := by
      rw [Batch.ofList, UInt32.toNat_ofNat', Nat.mod_eq_of_lt (by omega)]
    refine ⟨⟨hi, hfirst, hsecond, trivial, hcount.trans_le hlen, hasks', .inr rfl, hpopping,
      hclient⟩, .inr ?_⟩
    have hafter : processLeft p₁ p₂ { s with
        captureToProcess := { s.captureToProcess with consumer := .idle }
        processToNetwork := { s.processToNetwork with producer := .batch (Batch.ofList samples) } } =
        min (Batch.ofList samples).count.toNat p₂ + 5 := processLeft_push p₁ p₂ (by rintro ⟨⟩)
    have hbefore : s.captureToProcess.consumer ≠ .idle := by
      rw [pos]
      rintro ⟨⟩
    rw [hafter, processLeft_idle p₁ p₂ idle hbefore, pos, hcount]
    simp only [Consumer.todo]
    omega
  | @push ring running access =>
    have hm := Spsc.producerStep_move access
    have hp : s.processToNetwork.producer ≠ .idle := by
      intro hidle
      simp [Spsc.producerStep, hidle] at access
    have hc := hturn.resolve_left hp
    refine ⟨⟨hi, hfirst, ?_, hasks, Spsc.producerStep_offers access hoffers, ?_, .inr hc, ?_, hclient⟩,
      ?_⟩
    · rw [Spsc.places, hm.capacity]
      exact hsecond
    · rw [hm.consumer]
      exact hasks'
    · rw [hm.consumer]
      exact hpopping
    · by_cases hp' : ring.producer = .idle
      · exact .inl ⟨hp', hc⟩
      · have hless := Spsc.producerStep_todo hq' access
        rw [hsecond] at hless
        have hafter : processLeft p₁ p₂ { s with processToNetwork := ring } =
            ring.producer.todo p₂ := processLeft_push p₁ p₂ hp'
        rw [hafter, processLeft_push p₁ p₂ hp]
        exact .inr hless
  | count pos =>
    have hc := hturn.resolve_left (by rw [pos]; rintro ⟨⟩)
    exact ⟨⟨hi, hfirst, hsecond, hasks, trivial, hasks', .inl rfl, hpopping, hclient⟩, .inl ⟨rfl, hc⟩⟩

theorem processStep_isSome (s : Pipeline) : ∃ t, s.processStep = some t := by
  unfold processStep
  split
  · split
    · exact ⟨_, rfl⟩
    · simp only
      split <;> exact ⟨_, rfl⟩
    · rename_i hidle _
      obtain ⟨ring, hring⟩ := Spsc.consumerStep_isSome hidle
      exact ⟨_, by rw [hring]; rfl⟩
  · exact ⟨_, rfl⟩
  · rename_i hidle _
    obtain ⟨ring, hring⟩ := Spsc.producerStep_isSome hidle
    exact ⟨_, by rw [hring]; rfl⟩

/-! ## The network worker -/

/-- At most so many steps until the iteration of the network worker is over. -/
def networkLeft (p₂ : Nat) (s : Pipeline) : Nat :=
  match s.network with
  | .idle => min 256 p₂ + 10
  | .ready => min 256 p₂ + 9
  | .popping => s.processToNetwork.consumer.todo p₂ + 3
  | .popped _ => 3
  | .filled _ => 2
  | .sent _ _ => 1

theorem Steady.networkLeft_le (h : Steady p₁ p₂ s) : s.networkLeft p₂ ≤ min 256 p₂ + 10 := by
  obtain ⟨q', hq'⟩ := h.inv.second
  have hcons := hq'.consumer_todo_le h.inv.popBatch' h.asks'
  rw [h.second] at hcons
  have h256 : samplesPerBlock.toNat = 256 := rfl
  unfold networkLeft
  split <;> omega

/-- A step of the network worker ends the iteration or leaves fewer. -/
theorem networkStep_left {env : NetworkEnv} (h : Steady p₁ p₂ s) (hs : s.networkStep env = some t) :
    Steady p₁ p₂ t ∧ (t.network = .idle ∨ t.networkLeft p₂ < s.networkLeft p₂) := by
  have hi := networkStep_inv h.inv hs
  obtain ⟨q', hq'⟩ := h.inv.second
  obtain ⟨hinv, hfirst, hsecond, hasks, hoffers, hasks', hturn, hpopping, hclient⟩ := h
  cases networkStep_move hs with
  | noClient pos _ =>
    exact ⟨⟨hi, hfirst, hsecond, hasks, hoffers, hasks', hturn, hpopping, hclient⟩, .inl pos⟩
  | @connect client pos _ =>
    refine ⟨⟨hi, hfirst, hsecond, hasks, hoffers, hasks', hturn, ?_,
      fun _ => Option.some_ne_none _⟩, ?_⟩
    · simp only
      split <;> rintro ⟨⟩
    · simp only [networkLeft, pos]
      split
      · right; simp
      · exact .inl rfl
  | start pos =>
    refine ⟨⟨hi, hfirst, hsecond, hasks, hoffers, rfl, hturn, by rintro _ ⟨⟩, ?_⟩, .inr ?_⟩
    · exact fun _ => hclient (by rw [pos]; rintro ⟨⟩)
    · simp only [networkLeft, pos, Consumer.todo, samplesPerBlock, UInt32.reduceToNat]
      omega
  | @pop ring pos running access =>
    have hm := Spsc.consumerStep_move access
    refine ⟨⟨hi, hfirst, ?_, hasks, ?_, Spsc.consumerStep_asks access hasks', ?_,
      fun _ => Spsc.consumerStep_not_idle access hinv.popBatch' running, hclient⟩, .inr ?_⟩
    · rw [Spsc.places, hm.capacity]
      exact hsecond
    · rw [hm.producer]
      exact hoffers
    · rw [hm.producer]
      exact hturn
    · have hless := Spsc.consumerStep_todo hq' access
      rw [hsecond] at hless
      simp only [networkLeft, pos]
      exact Nat.add_lt_add_right hless _
  | @takeOver count samples pos done =>
    have hsome := hclient (by rw [pos]; rintro ⟨⟩)
    refine ⟨⟨hi, hfirst, hsecond, hasks, hoffers, trivial, hturn, ?_, fun _ => hsome⟩, ?_⟩
    · simp only
      split <;> rintro ⟨⟩
    · simp only [networkLeft, pos, done, Consumer.todo]
      split
      · exact .inl rfl
      · right; simp
  | fill pos _ =>
    refine ⟨⟨hi, hfirst, hsecond, hasks, hoffers, hasks', hturn, by rintro ⟨⟩, ?_⟩, .inr ?_⟩
    · exact fun _ => hclient (by rw [pos]; rintro ⟨⟩)
    · simp [networkLeft, pos]
  | lose pos _ =>
    exact ⟨⟨hi, hfirst, hsecond, hasks, hoffers, hasks', hturn, by rintro ⟨⟩, fun h => absurd rfl h⟩,
      .inl rfl⟩
  | send pos _ =>
    refine ⟨⟨hi, hfirst, hsecond, hasks, hoffers, hasks', hturn, by rintro ⟨⟩,
      fun _ => Option.some_ne_none _⟩, .inr ?_⟩
    simp [networkLeft, pos]
  | count pos =>
    exact ⟨⟨hi, hfirst, hsecond, hasks, hoffers, hasks', hturn, by rintro ⟨⟩, fun h => absurd rfl h⟩,
      .inl rfl⟩

theorem networkStep_isSome (h : Steady p₁ p₂ s) (env : NetworkEnv) :
    ∃ t, s.networkStep env = some t := by
  have hclient := h.client
  have hpopping := h.popping
  unfold networkStep
  cases pos : s.network with
  | idle =>
    simp only
    split <;> exact ⟨_, rfl⟩
  | ready | sent => exact ⟨_, rfl⟩
  | popping =>
    simp only
    split
    · exact ⟨_, rfl⟩
    · obtain ⟨ring, hring⟩ := Spsc.consumerStep_isSome (hpopping pos)
      exact ⟨_, by rw [hring]; rfl⟩
  | popped samples =>
    simp only
    split <;> exact ⟨_, rfl⟩
  | filled block =>
    obtain ⟨client, hc⟩ := Option.ne_none_iff_exists'.mp (hclient (by rw [pos]; nofun))
    exact ⟨_, by rw [hc]; rfl⟩

/-- What one worker does leaves the other where it is. -/
theorem processStep_network (hs : s.processStep = some t) :
    t.networkLeft p₂ = s.networkLeft p₂ := by
  cases processStep_move hs with
  | push _ access =>
    simp only [networkLeft, (Spsc.producerStep_move access).consumer]
  | _ => rfl

theorem networkStep_process {env : NetworkEnv} (hs : s.networkStep env = some t) :
    t.processLeft p₁ p₂ = s.processLeft p₁ p₂ := by
  obtain ⟨hfirst, hprod⟩ := networkStep_rings hs
  simp only [processLeft, hfirst, hprod]

end Pipeline

end FastRing

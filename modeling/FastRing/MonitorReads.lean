import FastRing.OwnerQueries

/-! # What a third thread reads

A thread that owns neither index loads `head` first and `tail` later, and both can move in
between. When the consumer takes samples and then the producer adds some, the answer is the
number there was between the two; when the producer adds samples and then the consumer takes
some, it need not have been true at any moment, and can be off by a whole turn. -/

namespace FastRing

variable {σ : Type}

namespace Spsc

variable {s t : Spsc σ} {q : List σ}

/-- The consumer's next access is the store of `tail`. -/
def storesTail (s : Spsc σ) : Bool :=
  match s.consumer with
  | .popRelease _ _ => true
  | .batchCopy _ toPop _ out => toPop.toNat ≤ out.length
  | _ => false

theorem returned_of_not_stored (hs : s.storesTail = false) (h : s.consumerStep = some t) :
    t.returned = s.returned := by
  unfold storesTail at hs
  cases consumerStep_access h with
  | pop | popEmpty | popHead | popTail | popSlot | popDone | batchZero | batch | batchEmpty
  | batchHead | batchTail | batchCopy | batchDone => rfl
  | popRelease pos =>
    rw [pos] at hs
    cases hs
  | batchRelease pos all =>
    rw [pos] at hs
    exact absurd (Nat.lt_of_not_le (of_decide_eq_false hs)) all

/-- The tail is where the samples returned so far leave it, whatever turns it has taken. -/
def Aligned (s : Spsc σ) : Prop := s.rb.tail.toNat = s.returned.length % s.rb.capacity.toNat

theorem consumerStep_aligned (hi : Inv s q) (ha : s.Aligned) (h : s.consumerStep = some t) :
    t.Aligned := by
  have hwf := hi.holds.wf
  have hc := hi.consumer
  cases consumerStep_access h with
  | pop | popEmpty | popHead | popTail | popSlot | popDone | batchZero | batch | batchEmpty
  | batchHead | batchTail | batchCopy | batchDone => exact ha
  | @popRelease tail x pos =>
    rw [pos] at hc
    obtain ⟨rfl, _⟩ := hc
    change ((s.rb.tail + 1) &&& s.rb.mask).toNat = (s.returned ++ [x]).length % s.rb.capacity.toNat
    rw [hwf.advance_one, ha, Nat.mod_add_mod, List.length_append, List.length_singleton]
  | @batchRelease count n tail out pos all =>
    rw [pos] at hc
    obtain ⟨rfl, _, hlen, _⟩ := hc
    have hn : out.length = n.toNat := by omega
    change ((s.rb.tail + n) &&& s.rb.mask).toNat = (s.returned ++ out).length % s.rb.capacity.toNat
    rw [hwf.advance, ha, Nat.mod_add_mod, List.length_append, hn]

theorem step_aligned (hi : Inv s q) (ha : s.Aligned) {l : Label σ} (h : s.step l = some t) :
    t.Aligned := by
  have hproducer : ProducerMove s t → t.Aligned := by
    intro hm
    rw [Aligned, hm.tail, hm.returned, hm.capacity]
    exact ha
  cases l with
  | callPush => exact hproducer (step_producerMove rfl h)
  | callPushBatch => exact hproducer (step_producerMove rfl h)
  | producer => exact hproducer (producerStep_move h)
  | consumer => exact consumerStep_aligned hi ha h
  | callPop | callPopBatch =>
    simp only [step] at h
    split at h
    · cases h
      exact ha
    · cases h

theorem Inv.head_aligned (hi : Inv s q) (ha : s.Aligned) :
    s.rb.head.toNat = s.published.length % s.rb.capacity.toNat := by
  rw [hi.holds.head, ha, Nat.mod_add_mod, hi.history, List.length_append]

end Spsc

/-- Between the two loads of a query. -/
def Asking.isLoaded : Asking → Bool
  | .loaded _ _ => true
  | _ => false

namespace Observed

open Runs

variable {s t : Observed σ}

/-- What the third thread is told was true at some moment of its call. -/
structure Linearized (s : Observed σ) : Prop where
  count : ∀ n, s.asks .monitor = .done .count (.number n) → n.toNat ∈ s.moments
  available : ∀ n, s.asks .monitor = .done .available (.number n) →
    ∃ m ∈ s.moments, n.toNat = s.ring.rb.capacity.toNat - 1 - m

/-- Between the two loads of the third thread, the consumer does not store `tail` after the
producer has stored `head`. -/
def Orderly (s : Observed σ) : Label σ → Prop
  | .ring .consumer => (s.asks .monitor).isLoaded = true →
      s.publishedAtLoad < s.ring.published.length → s.ring.storesTail = false
  | _ => True

instance (s : Observed σ) : (l : Label σ) → Decidable (s.Orderly l)
  | .ring .consumer => inferInstanceAs (Decidable (_ → _ → _))
  | .ring (.callPush _) | .ring (.callPushBatch _) | .ring .producer => isTrue trivial
  | .ring .callPop | .ring (.callPopBatch _) | .ask _ _ | .query _ => isTrue trivial

/-- Between the loads: `head` is what it was, and the samples that were there then and have
not been taken since were all there was at some moment. -/
structure Loaded (s : Observed σ) (head : UInt32) : Prop where
  head : head.toNat = s.publishedAtLoad % s.ring.rb.capacity.toNat
  taken : s.ring.returned.length ≤ s.publishedAtLoad
  published : s.publishedAtLoad ≤ s.ring.published.length
  moment : s.publishedAtLoad - s.ring.returned.length ∈ s.moments

/-- What the third thread's position promises. -/
structure MonitorOk (s : Observed σ) : Prop where
  loaded : ∀ query head, s.asks .monitor = .loaded query head → s.Loaded head
  answered : s.Linearized

/-! ## The history of a call -/

theorem mem_record (ht : t.moments = s.moments) {m : Nat} (hm : m ∈ s.moments) :
    m ∈ (s.record t).moments := by
  unfold record
  split
  · exact List.mem_append_left _ hm
  · rw [ht]
    exact hm

theorem occupancy_mem_record (h : (s.asks .monitor).inCall = true) :
    t.ring.occupancy ∈ (s.record t).moments := by
  rw [record, if_pos h]
  exact List.mem_append_right _ (List.mem_singleton.mpr rfl)

/-- Answers stay true, so that a step of the others has to keep `Loaded` only. -/
theorem MonitorOk.others (h : MonitorOk s) (hasks : t.asks .monitor = s.asks .monitor)
    (hmoments : t.moments = s.moments) (hcapacity : t.ring.rb.capacity = s.ring.rb.capacity)
    (hloaded : ∀ query head, s.asks .monitor = .loaded query head → s.Loaded head →
      (s.record t).Loaded head) : MonitorOk (s.record t) := by
  refine ⟨?_, ⟨?_, ?_⟩⟩
  · intro query head ha
    rw [record_asks, hasks] at ha
    exact hloaded query head ha (h.loaded query head ha)
  · intro n ha
    rw [record_asks, hasks] at ha
    exact mem_record hmoments (h.answered.count n ha)
  · intro n ha
    rw [record_asks, hasks] at ha
    obtain ⟨m, hm, hn⟩ := h.answered.available n ha
    rw [record_ring, hcapacity]
    exact ⟨m, mem_record hmoments hm, hn⟩

/-- The pair of counts that the answer comes from does not change, nor does the ring's size. -/
theorem Loaded.keep {head : UInt32} (h : s.Loaded head) (hload : t.publishedAtLoad = s.publishedAtLoad)
    (hcapacity : t.ring.rb.capacity = s.ring.rb.capacity) (hret : t.ring.returned = s.ring.returned)
    (hpub : s.ring.published <+: t.ring.published) (hmoments : t.moments = s.moments) :
    (s.record t).Loaded head := by
  refine ⟨?_, ?_, ?_, ?_⟩ <;> rw [record_ring, record_publishedAtLoad, hload]
  · rw [hcapacity]
    exact h.head
  · rw [hret]
    exact h.taken
  · exact Nat.le_trans h.published hpub.length_le
  · rw [hret]
    exact mem_record hmoments h.moment

/-- The consumer takes samples while none was added: the number left is what it has just
become. -/
theorem Loaded.take {head : UInt32} (h : s.Loaded head) (hin : (s.asks .monitor).inCall = true)
    {r : Spsc σ} {q : List σ} (hr : r.Inv q) (hm : s.ring.ConsumerMove r)
    (hnone : s.publishedAtLoad = s.ring.published.length) :
    (s.record { s with ring := r }).Loaded head := by
  have hle : r.returned.length ≤ s.publishedAtLoad := by
    rw [hnone, ← hm.published, hr.history, List.length_append]
    exact Nat.le_add_right _ _
  refine ⟨?_, ?_, ?_, ?_⟩ <;> rw [record_ring, record_publishedAtLoad]
  · rw [hm.capacity]
    exact h.head
  · exact hle
  · rw [hm.published]
    exact h.published
  · have hocc : s.publishedAtLoad - r.returned.length = r.occupancy := by
      rw [Spsc.occupancy, hm.published, hnone]
    rw [hocc]
    exact occupancy_mem_record hin

/-! ## One step -/

theorem ring_monitorOk (hi : Inv s.ring s.asks) (h : MonitorOk s) {l : Spsc.Label σ} {r : Spsc σ}
    (hr : s.ring.step l = some r) (hok : s.Orderly (.ring l)) :
    MonitorOk (s.record { s with ring := r }) := by
  obtain ⟨q, hq⟩ := hi.ring
  obtain ⟨q', hq'⟩ := Spsc.step_inv hq hr
  rcases Spsc.caller_cases l with hl | hl
  · have hm := Spsc.step_producerMove hl hr
    refine h.others rfl rfl hm.capacity ?_
    intro query head _ hload
    exact hload.keep rfl hm.capacity hm.returned hm.published rfl
  · have hm := Spsc.step_consumerMove hl hr
    refine h.others rfl rfl hm.capacity ?_
    intro query head ha hload
    rcases Nat.lt_or_eq_of_le hload.published with hlt | heq
    · -- the producer has stored `head`, so `tail` is not stored
      have hret : r.returned = s.ring.returned := by
        cases l with
        | callPush | callPushBatch | producer => cases hl
        | consumer => exact Spsc.returned_of_not_stored (hok (by rw [ha]; rfl) hlt) hr
        | callPop | callPopBatch =>
          simp only [Spsc.step] at hr
          split at hr
          · cases hr
            rfl
          · cases hr
      exact hload.keep rfl hm.capacity hret ⟨[], by rw [List.append_nil, hm.published]⟩ rfl
    · refine hload.take ?_ hq' hm heq
      rw [ha]
      rfl

/-- The second load gives the number of samples that were there at the first and have not
been taken since. -/
theorem Loaded.count {q : List σ} (hq : s.ring.Inv q) (ha : s.ring.Aligned) {head : UInt32}
    (h : s.Loaded head) :
    ((head - s.ring.rb.tail) &&& s.ring.rb.mask).toNat =
      s.publishedAtLoad - s.ring.returned.length := by
  have hroom := hq.holds.room
  have htaken := h.taken
  have hpub := h.published
  rw [hq.history, List.length_append] at hpub
  refine hq.holds.wf.distance (by omega) ?_
  rw [h.head, ha, Nat.mod_add_mod]
  congr 1
  omega

theorem Loaded.answer {q : List σ} (hq : s.ring.Inv q) (ha : s.ring.Aligned) {head : UInt32}
    (h : s.Loaded head) :
    (ringBufferAvailable { s.ring.rb with head := head, tail := s.ring.rb.tail }).toNat =
      s.ring.rb.capacity.toNat - 1 - (s.publishedAtLoad - s.ring.returned.length) := by
  have hwf : { s.ring.rb with head := head, tail := s.ring.rb.tail }.WF := by
    refine ⟨hq.holds.wf.pow, hq.holds.wf.mask, ?_, hq.holds.wf.tail⟩
    change head.toNat < s.ring.rb.capacity.toNat
    rw [h.head]
    exact Nat.mod_lt _ (Nat.lt_of_lt_of_le Nat.zero_lt_two hq.holds.wf.two_le)
  rw [hwf.available_toNat]
  congr 1
  exact h.count hq ha

theorem queryStep_other {who : Caller} (hw : who ≠ .monitor) (hs : s.queryStep who = some t) :
    t.asks .monitor = s.asks .monitor ∧ t.moments = s.moments ∧
      t.publishedAtLoad = s.publishedAtLoad := by
  unfold queryStep at hs
  split at hs <;> cases hs
  · exact ⟨Function.update_of_ne (Ne.symm hw) _ _, rfl, if_neg hw⟩
  · exact ⟨Function.update_of_ne (Ne.symm hw) _ _, rfl, rfl⟩
  · exact ⟨Function.update_of_ne (Ne.symm hw) _ _, rfl, rfl⟩

/-- Outside a call, and before its first load, there is nothing to keep. -/
theorem MonitorOk.quiet (hload : ∀ query head, s.asks .monitor ≠ .loaded query head)
    (hdone : ∀ query answer, s.asks .monitor ≠ .done query answer) : MonitorOk s :=
  ⟨fun query head ha => absurd ha (hload query head),
    ⟨fun _ ha => absurd ha (hdone _ _), fun _ ha => absurd ha (hdone _ _)⟩⟩

/-- The load of `head`: all samples in the ring are there at this moment. -/
theorem monitorOk_load {q : List σ} (hq : s.ring.Inv q) (ha : s.ring.Aligned)
    (hin : (s.asks .monitor).inCall = true) {query : Query} (hring : t.ring = s.ring)
    (hasks : t.asks .monitor = .loaded query s.ring.rb.head)
    (hload : t.publishedAtLoad = s.ring.published.length) : MonitorOk (s.record t) := by
  refine ⟨?_, ⟨?_, ?_⟩⟩
  · intro query' head heq
    rw [record_asks, hasks] at heq
    cases heq
    have hle : s.ring.returned.length ≤ s.ring.published.length := by
      rw [hq.history, List.length_append]
      exact Nat.le_add_right _ _
    refine ⟨?_, ?_, ?_, ?_⟩ <;> rw [record_ring, record_publishedAtLoad, hring, hload]
    · exact hq.head_aligned ha
    · exact hle
    · rw [← Spsc.occupancy, ← hring]
      exact occupancy_mem_record hin
  · intro n heq
    rw [record_asks, hasks] at heq
    cases heq
  · intro n heq
    rw [record_asks, hasks] at heq
    cases heq

/-- The load of `tail`: the answer is the number that `Loaded` speaks of. -/
theorem monitorOk_answer {q : List σ} (hq : s.ring.Inv q) (ha : s.ring.Aligned) {query : Query}
    {head : UInt32} (hload : s.Loaded head) (hring : t.ring = s.ring)
    (hasks : t.asks .monitor = .done query (query.answer s.ring.rb head s.ring.rb.tail))
    (hmoments : t.moments = s.moments) : MonitorOk (s.record t) := by
  refine ⟨?_, ⟨?_, ?_⟩⟩
  · intro query' head' heq
    rw [record_asks, hasks] at heq
    cases heq
  · intro n heq
    rw [record_asks, hasks] at heq
    cases query with
    | available | isEmpty | isFull => cases heq
    | count =>
      cases heq
      rw [ringBufferCount, hload.count hq ha]
      exact mem_record hmoments hload.moment
  · intro n heq
    rw [record_asks, hasks] at heq
    cases query with
    | count | isEmpty | isFull => cases heq
    | available =>
      cases heq
      refine ⟨_, mem_record hmoments hload.moment, ?_⟩
      rw [record_ring, hring]
      exact hload.answer hq ha

theorem query_monitorOk (hi : Inv s.ring s.asks) (ha : s.ring.Aligned) (h : MonitorOk s)
    {who : Caller} (hs : s.queryStep who = some t) : MonitorOk (s.record t) := by
  obtain ⟨q, hq⟩ := hi.ring
  by_cases hw : who = .monitor
  · subst hw
    unfold queryStep at hs
    cases hask : s.asks .monitor with
    | idle => simp [hask] at hs
    | call query =>
      simp only [hask, Option.some.injEq] at hs
      subst hs
      have hnow := Function.update_self Caller.monitor (.loaded query s.ring.rb.head) s.asks
      exact monitorOk_load hq ha (by rw [hask]; rfl) rfl hnow rfl
    | loaded query head =>
      simp only [hask, Option.some.injEq] at hs
      subst hs
      have hnow := Function.update_self Caller.monitor
        (.done query (query.answer s.ring.rb head s.ring.rb.tail)) s.asks
      exact monitorOk_answer hq ha (h.loaded query head hask) rfl hnow rfl
    | done query answer =>
      simp only [hask, Option.some.injEq] at hs
      subst hs
      refine .quiet ?_ ?_ <;> intro query' x <;> rw [record_asks] <;> simp
  · obtain ⟨hasks, hmoments, hload⟩ := queryStep_other hw hs
    have hring := queryStep_ring hs
    refine h.others hasks hmoments (by rw [hring]) ?_
    intro query head _ hl
    exact hl.keep hload (by rw [hring]) (by rw [hring]) ⟨[], by rw [List.append_nil, hring]⟩ hmoments

/-- Every orderly step keeps the promise. -/
theorem step_monitorOk (hi : Inv s.ring s.asks) (ha : s.ring.Aligned) (h : MonitorOk s) {l : Label σ}
    (hs : s.step l = some t) (hok : s.Orderly l) : t.ring.Aligned ∧ MonitorOk t := by
  rcases step_cases hs with ⟨l', r, rfl, _, hr, rfl⟩ | ⟨who, query, rfl, _, _, rfl⟩ |
    ⟨who, u, rfl, hu, rfl⟩
  · obtain ⟨q, hq⟩ := hi.ring
    refine ⟨?_, ring_monitorOk hi h hr hok⟩
    rw [record_ring]
    exact Spsc.step_aligned hq ha hr
  · refine ⟨by rw [record_ring]; exact ha, ?_⟩
    by_cases hw : who = .monitor
    · subst hw
      refine .quiet ?_ ?_ <;> intro query' x <;> rw [record_asks] <;> simp
    · refine h.others (Function.update_of_ne (Ne.symm hw) _ _) (if_neg hw) rfl ?_
      intro query' head _ hl
      exact hl.keep rfl rfl rfl List.prefix_rfl (if_neg hw)
  · refine ⟨?_, query_monitorOk hi ha h hu⟩
    rw [record_ring, queryStep_ring hu]
    exact ha

/-- In every run in which the consumer does not store `tail` after the producer has stored
`head` between two loads of the third thread, its answers are true at some moment of the
call. -/
theorem monitor_linearized {rb : RingBuffer σ} (h : rb.Fresh) {ls : List (Label σ)}
    (hok : AllSteps step Orderly (init rb) ls) (hr : run step (init rb) ls = some s) :
    s.Linearized := by
  have hinit : Inv (init rb).ring (init rb).asks ∧ (init rb).ring.Aligned ∧ MonitorOk (init rb) := by
    refine ⟨init_inv h, ?_, .quiet nofun nofun⟩
    rw [Spsc.Aligned]
    change rb.tail.toNat = 0 % _
    rw [h.tail, Nat.zero_mod]
    rfl
  have hstep : ∀ (s : Observed σ) l t,
      (Inv s.ring s.asks ∧ s.ring.Aligned ∧ MonitorOk s) → s.Orderly l → s.step l = some t →
        Inv t.ring t.asks ∧ t.ring.Aligned ∧ MonitorOk t := by
    intro s l t hi hok hs
    exact ⟨step_inv hi.1 hs, step_monitorOk hi.1 hi.2.1 hi.2.2 hs hok⟩
  exact (Runs.invariant_of_steps hstep hinit hok hr).2.2.answered

/-- A sample is pushed and popped again, from the call to the return of both. -/
def passOne : List (Label Nat) :=
  [.ring (.callPush 7), .ring .producer, .ring .producer, .ring .producer, .ring .producer,
    .ring .callPop, .ring .consumer, .ring .consumer, .ring .consumer, .ring .consumer,
    .ring .consumer]

/-- The third thread asks while the sample passes: it loads `head` before it and `tail`
after it. -/
def watchedRun (query : Query) : List (Label Nat) :=
  [.ask .monitor query, .query .monitor] ++ passOne ++ [.query .monitor]

/-- It asks when the sample has passed. -/
def calmRun : List (Label Nat) :=
  passOne ++ [.ask .monitor .count, .query .monitor, .query .monitor]

theorem monitor_linearized_calm : ∃ s : Observed Nat,
    run step (init watchedRing) calmRun = some s ∧ s.asks .monitor = .done .count (.number 0) ∧
      s.Linearized :=
  ⟨_, rfl, rfl, monitor_linearized watchedRing_fresh (by decide : AllSteps step Orderly _ calmRun) rfl⟩

/-- The answer is 3, though there was never more than one sample; and there is said to be no
space, though there was always space for two. -/
theorem monitor_misled :
    (∃ s : Observed Nat, run step (init watchedRing) (watchedRun .count) = some s ∧
        s.asks .monitor = .done .count (.number 3) ∧ (∀ m ∈ s.moments, m ≤ 1) ∧ ¬ s.Linearized) ∧
      ∃ s : Observed Nat, run step (init watchedRing) (watchedRun .available) = some s ∧
        s.asks .monitor = .done .available (.number 0) ∧ (∀ m ∈ s.moments, m ≤ 1) ∧
          ¬ s.Linearized := by
  refine ⟨⟨_, rfl, rfl, by decide, ?_⟩, ⟨_, rfl, rfl, by decide, ?_⟩⟩
  · intro h
    exact absurd (h.count 3 rfl) (by decide)
  · intro h
    exact absurd (h.available 0 rfl) (by decide)

end Observed

end FastRing

import FastRing.Queries
import FastRing.SpscSafety
import FastRing.SpscSolo

/-! # What an owner is told stays true

A producer that was told of room for `a` samples finds it until its next push, and a
consumer that was told of `k` samples finds them until its next pop: the other thread only
makes more of either. So the next call is served in full. The promise is carried from the
answer to the load that decides the call, as a bound on how full the ring is, and from there
on by what that load has seen. -/

namespace FastRing

variable {σ : Type}

/-- A call of the producer. -/
inductive PushCall (σ : Type) where
  | push (x : σ)
  | pushBatch (b : Batch σ)

namespace PushCall

def label : PushCall σ → Spsc.Label σ
  | .push x => .callPush x
  | .pushBatch b => .callPushBatch b

def items : PushCall σ → List σ
  | .push x => [x]
  | .pushBatch b => b.items

/-- The producer that enters the call. -/
def entry : PushCall σ → Producer σ
  | .push x => .push x
  | .pushBatch b => .batch b

/-- The producer whose call has accepted everything and returned `true`. -/
def succeeded : PushCall σ → Producer σ
  | .push x => .pushDone x true
  | .pushBatch b => .batchDone b b.count

end PushCall

/-- A call of the consumer. -/
inductive PopCall where
  | pop
  | popBatch (count : UInt32)

namespace PopCall

def label : PopCall → Spsc.Label σ
  | .pop => .callPop
  | .popBatch count => .callPopBatch count

/-- The number of samples asked for. -/
def asked : PopCall → Nat
  | .pop => 1
  | .popBatch count => count.toNat

def entry : PopCall → Consumer σ
  | .pop => .pop
  | .popBatch count => .batch count

/-- The call has returned with as many samples as asked for. -/
def Succeeded : PopCall → Consumer σ → Prop
  | .pop, c => ∃ x, c = .popDone (some x)
  | .popBatch count, c => ∃ out, c = .batchDone count out ∧ out.length = count.toNat

end PopCall

/-- The call the producer is in or has just left. -/
def Producer.call : Producer σ → Option (PushCall σ)
  | .idle => none
  | .push x | .pushHead x _ | .pushSlot x _ | .pushPublish x _ | .pushDone x _ => some (.push x)
  | .batch b | .batchHead b _ | .batchFree b _ | .batchCopy b _ _ _ _ | .batchDone b _ =>
    some (.pushBatch b)

/-- The call the consumer is in or has just left. -/
def Consumer.call : Consumer σ → Option PopCall
  | .idle => none
  | .pop | .popHead _ | .popTail | .popSlot _ | .popRelease _ _ | .popDone _ => some .pop
  | .batch count | .batchHead count _ | .batchTail count _ | .batchCopy count _ _ _ |
    .batchDone count _ => some (.popBatch count)

/-- A pop call that has returned its result. -/
def Consumer.isDone : Consumer σ → Bool
  | .popDone _ | .batchDone _ _ => true
  | _ => false

theorem Producer.inCall_of_done {p : Producer σ} (h : p.isDone = true) : p.inCall = false := by
  cases p with
  | pushDone | batchDone => rfl
  | _ => cases h

/-- The producer has loaded `tail` in its call. -/
def Producer.decided : Producer σ → Bool
  | .idle | .push _ | .pushHead _ _ | .batch _ | .batchHead _ _ => false
  | _ => true

/-- The consumer has loaded `head` in its call. -/
def Consumer.decided : Consumer σ → Bool
  | .idle | .pop | .batch _ => false
  | _ => true

namespace Spsc

def Label.isPush : Label σ → Bool
  | .callPush _ | .callPushBatch _ => true
  | _ => false

def Label.isPop : Label σ → Bool
  | .callPop | .callPopBatch _ => true
  | _ => false

variable {s t : Spsc σ} {q : List σ} {a k : Nat}

/-- There is room for `a` samples, or was when the producer's call loaded `tail`. -/
def Room (a : Nat) (s : Spsc σ) : Prop :=
  (if s.producer.decided then s.occAtTailLoad else s.occupancy) + a < s.rb.capacity.toNat

/-- There are `k` samples, or were when the consumer's call loaded `head`. -/
def Stock (k : Nat) (s : Spsc σ) : Prop :=
  k ≤ if s.consumer.decided then s.occAtHeadLoad else s.occupancy

/-! ## The producer's call -/

theorem Room.move (h : s.Room a) (hm : ConsumerMove s t) : t.Room a := by
  have hle := hm.occupancy_le
  unfold Room at h ⊢
  rw [hm.producer, hm.tailLoad, hm.capacity]
  split at h <;> rename_i hd
  · rw [if_pos hd]
    exact h
  · rw [if_neg hd]
    omega

/-- An access inside a call that is offered enough room: the call goes on with the promise,
or it has accepted everything. -/
theorem producerStep_granted (hi : Inv s q) (h : s.producerStep = some t) {c : PushCall σ}
    (hcall : s.producer.call = some c) (hin : s.producer.inCall = true) (hroom : s.Room a)
    (hpos : 0 < c.items.length) (hle : c.items.length ≤ a) :
    t.refused = s.refused ∧
      ((t.producer.inCall = true ∧ t.producer.call = some c ∧ t.Room a ∧ t.published = s.published) ∨
        (t.producer = c.succeeded ∧ t.published = s.published ++ c.items)) := by
  have hocc := hi.occupancy
  have hq := hi.holds
  have hp := hi.producer
  unfold Room at hroom
  cases producerStep_access h with
  | pushDone pos | batchDone pos =>
    rw [pos] at hin
    cases hin
  | push pos | pushRoom pos _ | pushSlot pos | batch pos _ | batchRoom pos _ | batchFree pos
  | batchCopy pos =>
    rw [pos] at hcall hroom
    exact ⟨rfl, .inl ⟨rfl, hcall, hroom, rfl⟩⟩
  | pushFull pos full =>
    rw [pos] at hp hroom
    obtain rfl : _ = s.rb.head := hp
    have hfree : s.occupancy + a < s.rb.capacity.toNat := hroom
    rw [hq.full_iff] at full
    omega
  | pushPublish pos =>
    rw [pos] at hcall
    cases hcall
    exact ⟨rfl, .inr ⟨rfl, rfl⟩⟩
  | @batchZero b pos zero =>
    rw [pos] at hcall
    cases hcall
    rw [PushCall.items, b.items_length, zero] at hpos
    exact absurd hpos (Nat.lt_irrefl 0)
  | @batchFull b head pos full =>
    -- nothing was to be pushed, so the ring would have been full
    rw [pos] at hp hcall hroom
    obtain rfl : head = s.rb.head := hp
    cases hcall
    rw [PushCall.items, b.items_length] at hpos hle
    have hfree : s.occupancy + a < s.rb.capacity.toNat := hroom
    have hpush := toPush_toNat hq b
    rw [full, UInt32.toNat_zero] at hpush
    omega
  | @batchPublish b n head i pos =>
    rw [pos] at hp hcall hroom
    cases hcall
    obtain ⟨_, hfits, _⟩ := hp
    rw [PushCall.items, b.items_length] at hle
    have hseen : s.occAtTailLoad + a < s.rb.capacity.toNat := hroom
    have hn : n = b.count := by
      refine UInt32.toNat_inj.mp (Nat.le_antisymm hfits.le (Nat.le_of_not_lt ?_))
      intro hlt
      have hfull : s.occAtTailLoad = s.rb.capacity.toNat - 1 - n.toNat := hfits.full hlt
      omega
    have hitems : b.items.length ≤ n.toNat := by rw [b.items_length, hn]
    refine ⟨?_, .inr ⟨?_, ?_⟩⟩
    · simp only [List.drop_eq_nil_of_le hitems, List.append_nil]
    · simp only [hn]
      rfl
    · simp only [List.take_of_length_le hitems]
      rfl

/-- The call `c` that was made in `before` with room for `a` is over, or it goes on, or it has
succeeded; nothing was refused. -/
def Granted (a : Nat) (c : PushCall σ) (before s : Spsc σ) : Prop :=
  s.producer = .idle ∨
    (s.refused = before.refused ∧
      ((s.producer.inCall = true ∧ s.producer.call = some c ∧ s.Room a ∧
          s.published = before.published) ∨
        (s.producer = c.succeeded ∧ s.published = before.published ++ c.items)))

theorem producerStep_succeeded {c : PushCall σ} (hs : s.producer = c.succeeded)
    (h : s.producerStep = some t) : t.producer = .idle := by
  cases c with
  | push x | pushBatch b =>
    simp only [producerStep, hs, PushCall.succeeded] at h
    cases h
    rfl

/-- A step that begins no push: the producer's next access, or a step of the consumer. -/
theorem step_of_not_push {l : Label σ} (hl : l.isPush = false) (h : s.step l = some t) :
    s.producerStep = some t ∨ ConsumerMove s t := by
  cases l with
  | callPush | callPushBatch => cases hl
  | producer => exact .inl h
  | callPop => exact .inr (step_consumerMove rfl h)
  | callPopBatch => exact .inr (step_consumerMove rfl h)
  | consumer => exact .inr (consumerStep_move h)

/-- Between its calls the producer does nothing to the ring. -/
theorem step_of_producer_idle {l : Label σ} (hl : l.isPush = false) (hs : s.producer = .idle)
    (h : s.step l = some t) : ConsumerMove s t := by
  rcases step_of_not_push hl h with hp | hm
  · simp [producerStep, hs] at hp
  · exact hm

theorem step_granted (hi : Inv s q) {l : Label σ} (hl : l.isPush = false) (h : s.step l = some t)
    {c : PushCall σ} (hpos : 0 < c.items.length) (hle : c.items.length ≤ a) {before : Spsc σ}
    (hg : Granted a c before s) : Granted a c before t := by
  rcases step_of_not_push hl h with hp | hm
  · rcases hg with hidle | ⟨hrefused, ⟨hin, hcall, hroom, hpub⟩ | ⟨hdone, _⟩⟩
    · simp [producerStep, hidle] at hp
    · obtain ⟨hsame, hnext⟩ := producerStep_granted hi hp hcall hin hroom hpos hle
      refine .inr ⟨hsame.trans hrefused, ?_⟩
      rw [← hpub]
      exact hnext
    · exact .inl (producerStep_succeeded hdone hp)
  · unfold Granted at hg ⊢
    rw [hm.producer, hm.refused, hm.published]
    rcases hg with hidle | ⟨hrefused, ⟨hin, hcall, hroom, hpub⟩ | hdone⟩
    · exact .inl hidle
    · exact .inr ⟨hrefused, .inl ⟨hin, hcall, hroom.move hm, hpub⟩⟩
    · exact .inr ⟨hrefused, .inr hdone⟩

/-- The producer alone comes to the end of its call. -/
theorem push_ends (h : s.rb.Holds q) (c : PushCall σ) :
    ∃ t, ProducerPath { s with producer := c.entry } t ∧ t.producer.isDone = true := by
  cases c with
  | push x =>
    obtain ⟨t, hpath, _, hdone, _⟩ := push_solo s x
    exact ⟨t, hpath, by rw [hdone]; rfl⟩
  | pushBatch b =>
    obtain ⟨t, hpath, _, hdone, _⟩ := pushBatch_solo h b
    exact ⟨t, hpath, by rw [hdone]; rfl⟩

/-! ## The consumer's call -/

theorem Stock.move (h : s.Stock k) (hm : ProducerMove s t) : t.Stock k := by
  have hle := hm.occupancy_le
  unfold Stock at h ⊢
  rw [hm.consumer, hm.headLoad]
  split at h <;> rename_i hd
  · rw [if_pos hd]
    exact h
  · rw [if_neg hd]
    omega

/-- An access of a call with enough samples to take: the call goes on with the promise, or
it is left. -/
theorem consumerStep_stock (h : s.consumerStep = some t) {c : PopCall} (hcall : s.consumer.call = some c)
    (hpos : 0 < c.asked) (hstock : s.Stock k) :
    t.consumer = .idle ∨ (t.consumer.call = some c ∧ t.Stock k) := by
  unfold Stock at hstock
  cases consumerStep_access h with
  | popDone | batchDone => exact .inl rfl
  | pop pos | popEmpty pos _ | popHead pos _ | popTail pos | popSlot pos | popRelease pos
  | batch pos _ | batchEmpty pos _ | batchHead pos _ | batchTail pos | batchCopy pos _
  | batchRelease pos _ =>
    rw [pos] at hcall hstock
    exact .inr ⟨hcall, hstock⟩
  | batchZero pos zero =>
    rw [pos] at hcall
    cases hcall
    rw [PopCall.asked, zero] at hpos
    exact absurd hpos (Nat.lt_irrefl 0)

/-- A finished call that was promised its samples has them. -/
theorem Inv.succeeded (hi : Inv s q) {c : PopCall} (hcall : s.consumer.call = some c)
    (hdone : s.consumer.isDone = true) (hpos : 0 < c.asked) (hle : c.asked ≤ k) (hstock : s.Stock k) :
    c.Succeeded s.consumer := by
  have hc := hi.consumer
  cases hs : s.consumer with
  | popDone x =>
    rw [hs] at hc hcall
    cases hcall
    have hseen : k ≤ s.occAtHeadLoad := by
      rw [Stock, hs] at hstock
      exact hstock
    cases x with
    | none =>
      have hempty : s.occAtHeadLoad = 0 := hc rfl
      omega
    | some x => exact ⟨x, rfl⟩
  | batchDone count out =>
    rw [hs] at hc hcall
    cases hcall
    have hseen : k ≤ s.occAtHeadLoad := by
      rw [Stock, hs] at hstock
      exact hstock
    refine ⟨out, rfl, Nat.le_antisymm hc.1 (Nat.le_of_not_lt ?_)⟩
    intro hlt
    have hshort : s.occAtHeadLoad = out.length := hc.2 hlt
    have hle : count.toNat ≤ k := hle
    omega
  | idle | pop | popHead | popTail | popSlot | popRelease | batch | batchHead | batchTail | batchCopy =>
    rw [hs] at hdone
    cases hdone

/-- The call `c` that was made in `before` with `k` samples to take is over, or it goes on with
the promise; what it returns is what it took. -/
def Stocked (k : Nat) (c : PopCall) (before s : Spsc σ) : Prop :=
  s.consumer = .idle ∨
    (s.consumer.call = some c ∧ s.Stock k ∧ s.returned = before.returned ++ s.consumer.taken)

theorem consumerStep_done (hs : s.consumer.isDone = true) (h : s.consumerStep = some t) :
    t.consumer = .idle := by
  cases consumerStep_access h with
  | popDone | batchDone => rfl
  | pop pos | popEmpty pos _ | popHead pos _ | popTail pos | popSlot pos | popRelease pos
  | batchZero pos _ | batch pos _ | batchEmpty pos _ | batchHead pos _ | batchTail pos
  | batchCopy pos _ | batchRelease pos _ =>
    rw [pos] at hs
    cases hs

theorem taken_eq_nil {c : Consumer σ} (h : c.isDone = false) : c.taken = [] := by
  cases c with
  | popDone | batchDone => cases h
  | _ => rfl

/-- A step that begins no pop: the consumer's next access, or a step of the producer. -/
theorem step_of_not_pop {l : Label σ} (hl : l.isPop = false) (h : s.step l = some t) :
    s.consumerStep = some t ∨ ProducerMove s t := by
  cases l with
  | callPop | callPopBatch => cases hl
  | consumer => exact .inl h
  | callPush => exact .inr (step_producerMove rfl h)
  | callPushBatch => exact .inr (step_producerMove rfl h)
  | producer => exact .inr (producerStep_move h)

/-- Between its calls the consumer does nothing to the ring. -/
theorem step_of_consumer_idle {l : Label σ} (hl : l.isPop = false) (hs : s.consumer = .idle)
    (h : s.step l = some t) : ProducerMove s t := by
  rcases step_of_not_pop hl h with hc | hm
  · simp [consumerStep, hs] at hc
  · exact hm

theorem step_stocked {l : Label σ} (hl : l.isPop = false) (h : s.step l = some t) {c : PopCall}
    (hpos : 0 < c.asked) {before : Spsc σ} (hs : Stocked k c before s) : Stocked k c before t := by
  rcases step_of_not_pop hl h with hc | hm
  · rcases hs with hidle | ⟨hcall, hstock, hret⟩
    · simp [consumerStep, hidle] at hc
    · cases hd : s.consumer.isDone with
      | true => exact .inl (consumerStep_done hd hc)
      | false =>
        rcases consumerStep_stock hc hcall hpos hstock with hidle | ⟨hcall', hstock'⟩
        · exact .inl hidle
        · refine .inr ⟨hcall', hstock', ?_⟩
          rw [(consumerStep_flow hc).1, hret, taken_eq_nil hd, List.append_nil]
  · unfold Stocked at hs ⊢
    rw [hm.consumer, hm.returned]
    rcases hs with hidle | ⟨hcall, hstock, hret⟩
    · exact .inl hidle
    · exact .inr ⟨hcall, hstock.move hm, hret⟩

/-- The consumer alone comes to the end of its call. -/
theorem pop_ends (h : s.rb.Holds q) (c : PopCall) :
    ∃ t, ConsumerPath { s with consumer := c.entry } t ∧ t.consumer.isDone = true := by
  cases c with
  | pop =>
    obtain ⟨t, hpath, _, hdone, _⟩ := pop_solo s
    exact ⟨t, hpath, by rw [hdone]; rfl⟩
  | popBatch count =>
    obtain ⟨t, hpath, _, hdone, _⟩ := popBatch_solo h count
    exact ⟨t, hpath, by rw [hdone]; rfl⟩

end Spsc

namespace Observed

open Runs

variable {s t u v : Observed σ} {q : List σ} {a k : Nat}

def Label.isPush : Label σ → Bool
  | .ring l => l.isPush
  | _ => false

def Label.isPop : Label σ → Bool
  | .ring l => l.isPop
  | _ => false

/-- The call `c` made in `s` has returned in `t`: it has taken everything, and no sample was
refused or counted as dropped. -/
structure Pushed (c : PushCall σ) (s t : Observed σ) : Prop where
  result : t.ring.producer = c.succeeded
  published : t.ring.published = s.ring.published ++ c.items
  refused : t.ring.refused = s.ring.refused
  dropped : t.ring.rb.dropped = s.ring.rb.dropped

/-- Whatever happens before its next push, a push of up to `a` samples takes them all; and
the producer alone brings it to its end. -/
def PushesUpTo (a : Nat) (s : Observed σ) : Prop :=
  ∀ ls t (c : PushCall σ) u, run step s ls = some t → (∀ l ∈ ls, l.isPush = false) →
    0 < c.items.length → c.items.length ≤ a → t.step (.ring c.label) = some u →
      (∀ ls' v, run step u ls' = some v → (∀ l ∈ ls', l.isPush = false) →
        v.ring.producer.isDone = true → Pushed c t v) ∧
      ∃ n v, run step u (List.replicate n (.ring .producer)) = some v ∧ v.ring.producer.isDone = true

/-- The call `c` made in `s` has returned in `t` with all the samples asked for. -/
structure Popped (c : PopCall) (s t : Observed σ) : Prop where
  result : c.Succeeded t.ring.consumer
  returned : t.ring.returned = s.ring.returned ++ t.ring.consumer.taken

/-- Whatever happens before its next pop, a pop of up to `k` samples returns as many as asked
for; and the consumer alone brings it to its end. -/
def PopsUpTo (k : Nat) (s : Observed σ) : Prop :=
  ∀ ls t (c : PopCall) u, run step s ls = some t → (∀ l ∈ ls, l.isPop = false) →
    0 < c.asked → c.asked ≤ k → t.step (.ring c.label) = some u →
      (∀ ls' v, run step u ls' = some v → (∀ l ∈ ls', l.isPop = false) →
        v.ring.consumer.isDone = true → Popped c t v) ∧
      ∃ n v, run step u (List.replicate n (.ring .consumer)) = some v ∧ v.ring.consumer.isDone = true

theorem queryStep_ring {who : Caller} (h : s.queryStep who = some t) : t.ring = s.ring := by
  unfold queryStep at h
  split at h <;> cases h <;> rfl

theorem step_ring {l : Spsc.Label σ} (h : s.step (.ring l) = some t) :
    s.asks l.caller = .idle ∧ s.ring.step l = some t.ring ∧ t.asks = s.asks := by
  simp only [step] at h
  split at h
  · rename_i hidle
    obtain ⟨r, hr, rfl⟩ := Option.map_eq_some_iff.mp h
    rw [record_ring, record_asks]
    exact ⟨hidle, hr, rfl⟩
  · cases h

/-- A step leaves the ring as it is, or is a step of the ring. -/
theorem step_ring_cases {l : Label σ} (h : s.step l = some t) :
    t.ring = s.ring ∨ ∃ l', l = .ring l' ∧ s.ring.step l' = some t.ring := by
  rcases step_cases h with ⟨l', r, rfl, _, hr, rfl⟩ | ⟨who, query, _, _, _, rfl⟩ | ⟨who, w, _, hw, rfl⟩
  · refine .inr ⟨l', rfl, ?_⟩
    rw [record_ring]
    exact hr
  · exact .inl (by rw [record_ring])
  · exact .inl (by rw [record_ring, queryStep_ring hw])

/-- What the steps of the ring keep, the whole system keeps, for steps that are not excluded. -/
theorem run_ring {bad : Label σ → Bool} {I : Spsc σ → Prop}
    (hstep : ∀ r l r' q, bad (.ring l) = false → r.Inv q → I r → r.step l = some r' → I r')
    (h0 : Inv s.ring s.asks ∧ I s.ring) {ls : List (Label σ)} (hls : ∀ l ∈ ls, bad l = false)
    (hr : run step s ls = some t) : Inv t.ring t.asks ∧ I t.ring := by
  have hok : AllSteps step (fun _ l => bad l = false) s ls :=
    Runs.allSteps_of_labels fun l hl _ => hls l hl
  refine Runs.invariant_of_steps (I := fun s => Inv s.ring s.asks ∧ I s.ring) ?_ h0 hok hr
  intro s l t hi hok hs
  refine ⟨step_inv hi.1 hs, ?_⟩
  rcases step_ring_cases hs with hsame | ⟨l', rfl, hring⟩
  · rw [hsame]
    exact hi.2
  · obtain ⟨q, hq⟩ := hi.1.ring
    exact hstep _ _ _ q hok hq hi.2 hring

/-- The steps of one thread alone, seen in the whole system. -/
theorem path_run {f : Spsc σ → Option (Spsc σ)} {P : Spsc σ → Prop} {l : Spsc.Label σ}
    (hf : ∀ r, r.step l = f r) {r r' : Spsc σ} (h : Path f P r r') (hs : s.ring = r)
    (hidle : s.asks l.caller = .idle) :
    ∃ n t, run step s (List.replicate n (.ring l)) = some t ∧ t.ring = r' := by
  have hsim : ∀ (c d : Spsc σ) (m : Observed σ), P c → f c = some d →
      (m.ring = c ∧ m.asks l.caller = .idle) →
        ∃ m', m.step (.ring l) = some m' ∧ m'.ring = d ∧ m'.asks l.caller = .idle := by
    intro c d m _ hd hm
    refine ⟨m.record { m with ring := d }, ?_, record_ring _ _, ?_⟩
    · have hring : m.ring.step l = some d := by
        rw [hm.1, hf]
        exact hd
      simp only [step, hm.2, if_true, hring, Option.map_some]
    · rw [record_asks]
      exact hm.2
  obtain ⟨n, t, hrun, hring, _⟩ := Path.simulate hsim h ⟨hs, hidle⟩
  exact ⟨n, t, hrun, hring⟩

theorem pushesUpTo_of_room (hi : Inv s.ring s.asks) (hidle : s.ring.producer = .idle)
    (hroom : s.ring.occupancy + a < s.ring.rb.capacity.toNat) : PushesUpTo a s := by
  intro ls t c u hrun hls hpos hle hcall
  -- until the call the producer is idle, and the room stays
  have hbefore : Inv t.ring t.asks ∧ t.ring.producer = .idle ∧ t.ring.Room a := by
    refine run_ring (I := fun r => r.producer = .idle ∧ r.Room a) ?_ ⟨hi, hidle, ?_⟩ hls hrun
    · intro r l r' q hl _ hr hstep
      have hm := Spsc.step_of_producer_idle hl hr.1 hstep
      exact ⟨hm.producer.trans hr.1, hr.2.move hm⟩
    · rw [Spsc.Room, hidle]
      exact hroom
  obtain ⟨hit, hidlet, hroomt⟩ := hbefore
  have hentry : t.ring.step c.label = some { t.ring with producer := c.entry } := by
    cases c with
    | push | pushBatch => simp only [Spsc.step, PushCall.label, hidlet, PushCall.entry]
  have hcaller : (c.label).caller = .producer := by
    cases c with
    | push | pushBatch => rfl
  obtain ⟨hasks, hring, hsame⟩ := step_ring hcall
  rw [hentry, Option.some.injEq] at hring
  rw [hcaller] at hasks
  refine ⟨?_, ?_⟩
  · intro ls' v hrun' hls' hdone
    have hgranted : Spsc.Granted a c t.ring u.ring := by
      refine .inr ⟨by rw [← hring], .inl ?_⟩
      rw [← hring]
      cases c with
      | push | pushBatch =>
        refine ⟨rfl, rfl, ?_, rfl⟩
        rw [Spsc.Room, hidlet] at hroomt
        exact hroomt
    obtain ⟨hiv, hv⟩ := run_ring (fun r l r' q hl hq hg hstep =>
      Spsc.step_granted hq hl hstep hpos hle hg) ⟨step_inv hit hcall, hgranted⟩ hls' hrun'
    rcases hv with hidle' | ⟨hrefused, ⟨hin, _⟩ | ⟨hresult, hpub⟩⟩
    · rw [hidle'] at hdone
      cases hdone
    · rw [Producer.inCall_of_done hdone] at hin
      cases hin
    · refine ⟨hresult, hpub, hrefused, ?_⟩
      obtain ⟨_, hqv⟩ := hiv.ring
      obtain ⟨_, hqt⟩ := hit.ring
      rw [hqv.dropped, hqt.dropped, hrefused]
  · obtain ⟨q, hq⟩ := hit.ring
    obtain ⟨r, hpath, hdone⟩ := Spsc.push_ends hq.holds c
    have hasks' : u.asks .producer = .idle := by rw [hsame]; exact hasks
    obtain ⟨n, v, hrun', rfl⟩ := path_run (f := Spsc.producerStep) (l := .producer) (fun _ => rfl) hpath
      hring.symm hasks'
    exact ⟨n, v, hrun', hdone⟩

theorem popsUpTo_of_stock (hi : Inv s.ring s.asks) (hidle : s.ring.consumer = .idle)
    (hstock : k ≤ s.ring.occupancy) : PopsUpTo k s := by
  intro ls t c u hrun hls hpos hle hcall
  -- until the call the consumer is idle, and the samples stay
  have hbefore : Inv t.ring t.asks ∧ t.ring.consumer = .idle ∧ t.ring.Stock k := by
    refine run_ring (I := fun r => r.consumer = .idle ∧ r.Stock k) ?_ ⟨hi, hidle, ?_⟩ hls hrun
    · intro r l r' q hl _ hr hstep
      have hm := Spsc.step_of_consumer_idle hl hr.1 hstep
      exact ⟨hm.consumer.trans hr.1, hr.2.move hm⟩
    · rw [Spsc.Stock, hidle]
      exact hstock
  obtain ⟨hit, hidlet, hstockt⟩ := hbefore
  have hentry : t.ring.step c.label = some { t.ring with consumer := c.entry } := by
    cases c with
    | pop | popBatch => simp only [Spsc.step, PopCall.label, hidlet, PopCall.entry]
  have hcaller : (c.label : Spsc.Label σ).caller = .consumer := by
    cases c with
    | pop | popBatch => rfl
  obtain ⟨hasks, hring, hsame⟩ := step_ring hcall
  rw [hentry, Option.some.injEq] at hring
  rw [hcaller] at hasks
  refine ⟨?_, ?_⟩
  · intro ls' v hrun' hls' hdone
    have hstocked : Spsc.Stocked k c t.ring u.ring := by
      refine .inr ?_
      rw [← hring]
      cases c with
      | pop | popBatch =>
        refine ⟨rfl, ?_, (List.append_nil _).symm⟩
        rw [Spsc.Stock, hidlet] at hstockt
        exact hstockt
    obtain ⟨hiv, hv⟩ := run_ring (fun r l r' q hl _ hs hstep =>
      Spsc.step_stocked hl hstep hpos hs) ⟨step_inv hit hcall, hstocked⟩ hls' hrun'
    rcases hv with hidle' | ⟨hcallv, hstockv, hret⟩
    · rw [hidle'] at hdone
      cases hdone
    · obtain ⟨_, hqv⟩ := hiv.ring
      exact ⟨hqv.succeeded hcallv hdone hpos hle hstockv, hret⟩
  · obtain ⟨q, hq⟩ := hit.ring
    obtain ⟨r, hpath, hdone⟩ := Spsc.pop_ends hq.holds c
    have hasks' : u.asks .consumer = .idle := by rw [hsame]; exact hasks
    obtain ⟨n, v, hrun', rfl⟩ := path_run (f := Spsc.consumerStep) (l := .consumer) (fun _ => rfl) hpath
      hring.symm hasks'
    exact ⟨n, v, hrun', hdone⟩

/-- What the owners are told holds until their next call, in every interleaving. -/
theorem owner_answers_hold {rb : RingBuffer σ} (h : rb.Fresh) {ls : List (Label σ)}
    (hr : run step (init rb) ls = some s) :
    (∀ a, s.asks .producer = .done .available (.number a) → PushesUpTo a.toNat s) ∧
      (s.asks .producer = .done .isFull (.truth false) → PushesUpTo 1 s) ∧
      (∀ k, s.asks .consumer = .done .count (.number k) → PopsUpTo k.toNat s) ∧
      (s.asks .consumer = .done .isEmpty (.truth false) → PopsUpTo 1 s) := by
  have hi : Inv s.ring s.asks :=
    Runs.invariant (I := fun s => Inv s.ring s.asks) (fun _ _ _ hi hs => step_inv hi hs) (init_inv h) hr
  have hpush : ∀ query answer, s.asks .producer = .done query answer →
      PushesUpTo (Asking.done query answer).room s := by
    intro query answer ha
    refine pushesUpTo_of_room hi (hi.producer.idle (by rw [ha]; nofun)) ?_
    rw [← ha]
    exact hi.producer.room
  have hpop : ∀ query answer, s.asks .consumer = .done query answer →
      PopsUpTo (Asking.done query answer).ready s := by
    intro query answer ha
    refine popsUpTo_of_stock hi (hi.consumer.idle (by rw [ha]; nofun)) ?_
    rw [← ha]
    exact hi.consumer.ready
  exact ⟨fun a ha => hpush _ _ ha, hpush _ _, fun k hk => hpop _ _ hk, hpop _ _⟩

/-- A ring of capacity 4, as created. -/
def watchedRing : RingBuffer Nat :=
  { head := 0, tail := 0, capacity := 4, mask := 3, buffer := fun _ => 0, dropped := 0 }

theorem watchedRing_fresh : watchedRing.Fresh :=
  ⟨⟨⟨2, by decide, by decide, by decide⟩, by decide, by decide, by decide⟩, rfl, rfl, rfl⟩

/-- A push, from its call to its return. -/
def pushRun (x : Nat) : List (Label Nat) :=
  .ring (.callPush x) :: List.replicate 5 (.ring .producer)

/-- A pop. -/
def popRun : List (Label Nat) := .ring .callPop :: List.replicate 6 (.ring .consumer)

/-- The producer asks for the space there is, and a sample is popped between its two loads. -/
def producerAsks : List (Label Nat) :=
  pushRun 7 ++ pushRun 8 ++ [.ask .producer .available, .query .producer] ++ popRun ++
    [.query .producer]

/-- The consumer asks for the samples there are, and one is pushed between its two loads. -/
def consumerAsks : List (Label Nat) :=
  pushRun 7 ++ [.ask .consumer .count, .query .consumer] ++ pushRun 8 ++ [.query .consumer]

/-- The producer is told of room for two samples; the consumer of one, and there are two. -/
theorem owner_answers_hold_small :
    (∃ s : Observed Nat, run step (init watchedRing) producerAsks = some s ∧
      s.asks .producer = .done .available (.number 2) ∧ s.ring.occupancy = 1 ∧ PushesUpTo 2 s) ∧
    ∃ s : Observed Nat, run step (init watchedRing) consumerAsks = some s ∧
      s.asks .consumer = .done .count (.number 1) ∧ s.ring.occupancy = 2 ∧ PopsUpTo 1 s :=
  ⟨⟨_, rfl, rfl, rfl,
      (@owner_answers_hold Nat _ watchedRing watchedRing_fresh producerAsks rfl).1 2 rfl⟩,
    ⟨_, rfl, rfl, rfl,
      (@owner_answers_hold Nat _ watchedRing watchedRing_fresh consumerAsks rfl).2.2.1 1 rfl⟩⟩

end Observed

end FastRing

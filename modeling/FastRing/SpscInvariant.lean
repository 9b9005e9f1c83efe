import FastRing.SpscAccess
import FastRing.RingOps

/-! # The invariant of the two-thread ring

`Inv s q` is what holds in every reachable state: `q` is what was published and
not yet consumed, the ring holds it, and each thread's snapshot of the other
thread's index is off on the safe side only. The producer's position promises room
(`ProducerOk`), which the consumer can only make more of; the consumer's position
promises samples (`ConsumerOk`), which the producer can only add to. -/

namespace FastRing.Spsc

open Cyclic

variable {σ : Type} {rb rb' : RingBuffer σ} {q q' : List σ} {s t : Spsc σ}

/-- `n` samples of the batch are to be pushed into a ring of capacity `N`: there is
room for them, and when they are not all, the ring was that full when `tail` was
loaded. -/
structure Fits (N len seen : Nat) (b : Batch σ) (n : UInt32) : Prop where
  room : len + n.toNat < N
  le : n.toNat ≤ b.count.toNat
  full : n.toNat < b.count.toNat → seen = N - 1 - n.toNat

/-- What the producer's position promises, for a ring holding `len` samples that
held `seen` when `tail` was loaded. -/
def ProducerOk (rb : RingBuffer σ) (len seen : Nat) : Producer σ → Prop
  | .idle | .push _ | .batch _ => True
  | .pushHead _ head => head = rb.head
  | .pushSlot _ head => head = rb.head ∧ len + 1 < rb.capacity.toNat
  | .pushPublish x head => head = rb.head ∧ len + 1 < rb.capacity.toNat ∧
      Window rb.capacity.toNat rb.buffer rb.head.toNat [x]
  | .pushDone _ accepted => accepted = false → seen = rb.capacity.toNat - 1
  | .batchHead _ head => head = rb.head
  | .batchFree b n => Fits rb.capacity.toNat len seen b n
  | .batchCopy b n head i todo => head = rb.head ∧ Fits rb.capacity.toNat len seen b n ∧
      ∃ done, done ++ todo = b.items.take n.toNat ∧ done.length = i ∧
        Window rb.capacity.toNat rb.buffer rb.head.toNat done
  | .batchDone b n => n.toNat < b.count.toNat → seen = rb.capacity.toNat - 1 - n.toNat

/-- `n` samples are to be popped: they are there, and when fewer than asked for,
the ring held no more when `head` was loaded. -/
structure Ready (q : List σ) (seen : Nat) (count n : UInt32) : Prop where
  le : n.toNat ≤ q.length
  asked : n.toNat ≤ count.toNat
  short : n.toNat < count.toNat → seen = n.toNat

/-- What the consumer's position promises, for a ring holding `q` that held `seen`
samples when `head` was loaded. -/
def ConsumerOk (rb : RingBuffer σ) (q : List σ) (seen : Nat) : Consumer σ → Prop
  | .idle | .pop | .batch _ => True
  | .popHead head => head.toNat = (rb.tail.toNat + seen) % rb.capacity.toNat ∧ seen ≤ q.length
  | .popTail => 1 ≤ q.length
  | .popSlot tail => tail = rb.tail ∧ 1 ≤ q.length
  | .popRelease tail x => tail = rb.tail ∧ q.take 1 = [x]
  | .popDone x => x = none → seen = 0
  | .batchHead _ head => head.toNat = (rb.tail.toNat + seen) % rb.capacity.toNat ∧ seen ≤ q.length
  | .batchTail count n => Ready q seen count n
  | .batchCopy count n tail out => tail = rb.tail ∧ Ready q seen count n ∧
      out.length ≤ n.toNat ∧ q.take out.length = out
  | .batchDone count out => out.length ≤ count.toNat ∧ (out.length < count.toNat → seen = out.length)

/-- The invariant; `q` is what was published and not yet consumed. -/
structure Inv (s : Spsc σ) (q : List σ) : Prop where
  history : s.published = s.returned ++ q
  holds : s.rb.Holds q
  producer : ProducerOk s.rb q.length s.occAtTailLoad s.producer
  consumer : ConsumerOk s.rb q s.occAtHeadLoad s.consumer
  dropped : s.rb.dropped = UInt64.ofNat s.refused.length

theorem Inv.occupancy (h : Inv s q) : s.occupancy = q.length := by
  rw [Spsc.occupancy, h.history, List.length_append]; omega

/-! ## Each side is stable under the other -/

/-- The consumer takes samples away: the producer's promises stay. -/
theorem ProducerOk.mono {len len' seen : Nat} {p : Producer σ} (h : ProducerOk rb len seen p)
    (hh : rb'.head = rb.head) (hc : rb'.capacity = rb.capacity) (hb : rb'.buffer = rb.buffer)
    (hl : len' ≤ len) : ProducerOk rb' len' seen p := by
  cases p with
  | idle | push _ | batch _ => trivial
  | pushHead | pushDone | batchHead | batchDone => simpa only [ProducerOk, hh, hc] using h
  | pushSlot x head =>
    obtain ⟨h1, h2⟩ := h
    exact ⟨h1.trans hh.symm, by rw [hc]; omega⟩
  | pushPublish x head =>
    obtain ⟨h1, h2, h3⟩ := h
    refine ⟨h1.trans hh.symm, by rw [hc]; omega, ?_⟩
    rw [hc, hb, hh]; exact h3
  | batchFree b n =>
    obtain ⟨h1, h2, h3⟩ := h
    exact ⟨by rw [hc]; omega, h2, by rw [hc]; exact h3⟩
  | batchCopy b n head i todo =>
    obtain ⟨h0, ⟨h1, h2, h3⟩, h4⟩ := h
    refine ⟨h0.trans hh.symm, ⟨by rw [hc]; omega, h2, by rw [hc]; exact h3⟩, ?_⟩
    rw [hc, hb, hh]; exact h4

/-- The producer adds samples: the consumer's promises stay. -/
theorem ConsumerOk.mono {seen : Nat} {c : Consumer σ} (h : ConsumerOk rb q seen c)
    (ht : rb'.tail = rb.tail) (hc : rb'.capacity = rb.capacity) (xs : List σ) :
    ConsumerOk rb' (q ++ xs) seen c := by
  have htake : ∀ {n : Nat} {out : List σ}, q.take n = out → n = out.length →
      (q ++ xs).take n = out := by
    intro n out h1 h2
    have : n ≤ q.length := by rw [← h1, List.length_take] at h2; omega
    rw [List.take_append_of_le_length this, h1]
  have hle : q.length ≤ (q ++ xs).length := by simp
  cases c with
  | idle | pop | batch _ => trivial
  | popDone | batchDone => exact h
  | popHead head | batchHead count head =>
    obtain ⟨h1, h2⟩ := h
    exact ⟨by rw [ht, hc]; exact h1, by omega⟩
  | popTail => exact Nat.le_trans h hle
  | popSlot tail => exact ⟨h.1.trans ht.symm, Nat.le_trans h.2 hle⟩
  | popRelease tail x => exact ⟨h.1.trans ht.symm, htake h.2 rfl⟩
  | batchTail count n => exact ⟨Nat.le_trans h.le hle, h.asked, h.short⟩
  | batchCopy count n tail out =>
    obtain ⟨h1, h2, h3, h4⟩ := h
    exact ⟨h1.trans ht.symm, ⟨Nat.le_trans h2.le hle, h2.asked, h2.short⟩, h3, htake h4 rfl⟩

theorem ConsumerOk.frame {seen : Nat} {c : Consumer σ} (h : ConsumerOk rb q seen c)
    (ht : rb'.tail = rb.tail) (hc : rb'.capacity = rb.capacity) : ConsumerOk rb' q seen c := by
  have := h.mono ht hc []
  rwa [List.append_nil] at this

/-! ## One step -/

/-- The number of samples the producer's call will push, when it has loaded its own `head`. -/
theorem toPush_toNat (hq : s.rb.Holds q) (b : Batch σ) :
    (s.toPush b s.rb.head).toNat = min b.count.toNat (s.rb.capacity.toNat - 1 - q.length) :=
  hq.toPush_toNat b.count

/-- The number of samples the consumer's call will pop, when it has loaded a `head` that is
`k` slots past the tail. -/
theorem toPop_toNat (hq : s.rb.Holds q) {k : Nat} (count : UInt32) {head : UInt32} (hk : k ≤ q.length)
    (hhead : head.toNat = (s.rb.tail.toNat + k) % s.rb.capacity.toNat) :
    (s.toPop count head).toNat = min count.toNat k := by
  have hroom := hq.room
  have hdist := hq.wf.distance (by omega) hhead
  unfold toPop
  simp only [UInt32.lt_iff_toNat_lt, hdist]
  split <;> omega

/-- Every access of the producer keeps the invariant. -/
theorem producerStep_inv (hi : Inv s q) (h : s.producerStep = some t) : ∃ q', Inv t q' := by
  have hocc := hi.occupancy
  obtain ⟨hist, hq, hp, hc, hd⟩ := hi
  have hroom := hq.room
  have hhead := hq.wf.head
  cases producerStep_access h with
  | push pos => exact ⟨q, hist, hq, rfl, hc, hd⟩
  | pushFull pos full =>
    rw [pos] at hp
    obtain rfl : _ = s.rb.head := hp
    refine ⟨q, hist, hq.setDropped _, fun _ => hocc.trans (hq.full_iff.mp full), hc.frame rfl rfl, ?_⟩
    simp [hd, UInt64.ofNat_add]
  | pushRoom pos room =>
    rw [pos] at hp
    obtain rfl : _ = s.rb.head := hp
    rw [Ne, hq.full_iff] at room
    exact ⟨q, hist, hq, ⟨rfl, by simp only; omega⟩, hc, hd⟩
  | @pushSlot x head pos =>
    rw [pos] at hp
    obtain ⟨rfl, hfree⟩ := hp
    have hcell : (s.rb.head.toNat + 0) % s.rb.capacity.toNat = s.rb.head.toNat :=
      Nat.mod_eq_of_lt hhead
    have hw := hq.write (j := 0) (by omega) x
    have hx := (Window.nil s.rb.capacity.toNat s.rb.buffer s.rb.head.toNat).concat (by simp; omega) x
    rw [hcell] at hw
    rw [List.length_nil, hcell] at hx
    exact ⟨q, hist, hw, ⟨rfl, hfree, hx⟩, hc.frame rfl rfl, hd⟩
  | @pushPublish x head pos =>
    rw [pos] at hp
    obtain ⟨rfl, hfree, hx⟩ := hp
    refine ⟨q ++ [x], ?_, hq.publish (n := 1) rfl hx (by simpa using hfree), nofun,
      hc.mono rfl rfl [x], hd⟩
    simp only
    rw [hist, List.append_assoc]
  | pushDone pos => exact ⟨q, hist, hq, trivial, hc, hd⟩
  | batchZero pos zero => exact ⟨q, hist, hq, fun hlt => by simp [zero] at hlt, hc, hd⟩
  | batch pos some => exact ⟨q, hist, hq, rfl, hc, hd⟩
  | @batchFull b head pos full =>
    rw [pos] at hp
    obtain rfl : head = s.rb.head := hp
    have hpush := toPush_toNat hq b
    rw [full, UInt32.toNat_zero] at hpush
    refine ⟨q, hist, hq.setDropped _, fun hlt => ?_, hc.frame rfl rfl, ?_⟩
    · simp only [UInt32.toNat_zero] at hlt ⊢
      omega
    · simp [hd, UInt64.ofNat_add, b.items_length]
  | @batchRoom b head pos room =>
    rw [pos] at hp
    obtain rfl : head = s.rb.head := hp
    have hpush := toPush_toNat hq b
    exact ⟨q, hist, hq, ⟨by simp only; omega, by omega, fun hlt => by simp only; omega⟩, hc, hd⟩
  | @batchFree b n pos =>
    rw [pos] at hp
    refine ⟨q, hist, hq, ⟨rfl, hp, [], ?_, rfl, Window.nil _ _ _⟩, hc, hd⟩
    rw [List.nil_append, Batch.items, List.take_take, Nat.min_eq_left hp.le]
  | @batchCopy b n head i x todo pos =>
    rw [pos] at hp
    obtain ⟨rfl, hfits, done, hdone, rfl, hw⟩ := hp
    have hfree := hfits.room
    have hlen : done.length < n.toNat := by
      have := congrArg List.length hdone
      rw [List.length_append, List.length_cons, List.length_take] at this
      omega
    have hslot := slotAt_eq hhead (show done.length < s.rb.capacity.toNat by omega) hlen
    refine ⟨q, hist, ?_, ⟨rfl, hfits, done ++ [x], ?_, ?_, ?_⟩, hc.frame rfl rfl, hd⟩
    · rw [hslot]
      exact hq.write (by omega) x
    · rw [List.append_assoc]
      exact hdone
    · rw [List.length_append]
      rfl
    · simp only [hslot]
      exact hw.concat (by omega) x
  | @batchPublish b n head i pos =>
    rw [pos] at hp
    obtain ⟨rfl, hfits, done, hdone, rfl, hw⟩ := hp
    have hfree := hfits.room
    have hitems : (b.items.take n.toNat).length = n.toNat := by
      rw [List.length_take, b.items_length, Nat.min_eq_left hfits.le]
    rw [List.append_nil] at hdone
    subst hdone
    refine ⟨q ++ b.items.take n.toNat, ?_, ?_, fun hlt => hfits.full hlt, hc.mono rfl rfl _, ?_⟩
    · simp only
      rw [hist, List.append_assoc]
    · exact (hq.publish (n := n) hitems.symm hw (by rw [hitems]; omega)).setDropped _
    · have hrest : (b.items.drop n.toNat).length = b.count.toNat - n.toNat := by
        rw [List.length_drop, b.items_length]
      have hle : n ≤ b.count := by
        rw [UInt32.le_iff_toNat_le]
        exact hfits.le
      simp only [List.length_append, hrest, UInt64.ofNat_add, ← hd,
        ← UInt32.toNat_sub_of_le _ _ hle, UInt64.ofNat_uInt32ToNat]
      split
      · rfl
      · rename_i hge
        rw [UInt32.le_antisymm hle (UInt32.not_lt.mp hge)]
        simp
  | batchDone pos => exact ⟨q, hist, hq, trivial, hc, hd⟩

/-- Every access of the consumer keeps the invariant. -/
theorem consumerStep_inv (hi : Inv s q) (h : s.consumerStep = some t) : ∃ q', Inv t q' := by
  have hocc := hi.occupancy
  obtain ⟨hist, hq, hp, hc, hd⟩ := hi
  have hroom := hq.room
  cases consumerStep_access h with
  | pop pos =>
    refine ⟨q, hist, hq, hp, ⟨?_, ?_⟩, hd⟩
    · rw [hocc]
      exact hq.head
    · exact Nat.le_of_eq hocc
  | popEmpty pos empty =>
    rw [pos] at hc
    obtain ⟨hhead, hle⟩ := hc
    rw [empty] at hhead
    refine ⟨q, hist, hq, hp, fun _ => ?_, hd⟩
    rcases (hq.tail_eq_iff (by omega)).mp hhead.symm with hzero | hturn
    · exact hzero
    · omega
  | popHead pos some =>
    rw [pos] at hc
    obtain ⟨hhead, hle⟩ := hc
    refine ⟨q, hist, hq, hp, ?_, hd⟩
    have hne : s.occAtHeadLoad ≠ 0 := by
      intro hzero
      rw [hzero, Nat.add_zero, Nat.mod_eq_of_lt hq.wf.tail] at hhead
      exact some (UInt32.toNat_inj.mp hhead)
    exact Nat.le_trans (Nat.pos_of_ne_zero hne) hle
  | popTail pos =>
    rw [pos] at hc
    exact ⟨q, hist, hq, hp, ⟨rfl, hc⟩, hd⟩
  | popSlot pos =>
    rw [pos] at hc
    obtain ⟨rfl, hone⟩ := hc
    have hread := hq.read (n := 1) hone
    rw [List.range_one, List.map_singleton, Nat.add_zero, Nat.mod_eq_of_lt hq.wf.tail] at hread
    exact ⟨q, hist, hq, hp, ⟨rfl, hread.symm⟩, hd⟩
  | popRelease pos =>
    rw [pos] at hc
    obtain ⟨rfl, hx⟩ := hc
    have hone : 1 ≤ q.length := by
      have := congrArg List.length hx
      rw [List.length_take, List.length_singleton] at this
      omega
    refine ⟨q.drop 1, ?_, hq.consume (n := 1) hone, hp.mono rfl rfl rfl (by simp), nofun, hd⟩
    simp only
    rw [hist, List.append_assoc, ← hx, List.take_append_drop]
  | popDone pos => exact ⟨q, hist, hq, hp, trivial, hd⟩
  | batchZero pos zero =>
    exact ⟨q, hist, hq, hp, ⟨Nat.zero_le _, fun hlt => by simp [zero] at hlt⟩, hd⟩
  | batch pos some =>
    refine ⟨q, hist, hq, hp, ⟨?_, ?_⟩, hd⟩
    · rw [hocc]
      exact hq.head
    · exact Nat.le_of_eq hocc
  | @batchEmpty count head pos empty =>
    rw [pos] at hc
    obtain ⟨hhead, hle⟩ := hc
    have hpop := toPop_toNat hq count hle hhead
    rw [empty, UInt32.toNat_zero] at hpop
    refine ⟨q, hist, hq, hp, ⟨Nat.zero_le _, fun hlt => ?_⟩, hd⟩
    simp only [List.length_nil] at hlt ⊢
    omega
  | @batchHead count head pos some =>
    rw [pos] at hc
    obtain ⟨hhead, hle⟩ := hc
    have hpop := toPop_toNat hq count hle hhead
    exact ⟨q, hist, hq, hp, ⟨by omega, by omega, fun hlt => by simp only; omega⟩, hd⟩
  | batchTail pos =>
    rw [pos] at hc
    exact ⟨q, hist, hq, hp, ⟨rfl, hc, Nat.zero_le _, rfl⟩, hd⟩
  | @batchCopy count n tail out pos more =>
    rw [pos] at hc
    obtain ⟨rfl, hready, hlen, hout⟩ := hc
    have hle := hready.le
    have hslot := slotAt_eq hq.wf.tail (show out.length < s.rb.capacity.toNat by omega) more
    have hval := hq.slots out.length (by omega)
    refine ⟨q, hist, hq, hp, ⟨rfl, hready, ?_, ?_⟩, hd⟩
    · rw [List.length_append]
      exact more
    · simp only [hslot, hval, List.length_append, List.length_singleton]
      rw [List.take_add_one, hout, List.getElem?_eq_getElem (by omega)]
      rfl
  | @batchRelease count n tail out pos all =>
    rw [pos] at hc
    obtain ⟨rfl, hready, hlen, hout⟩ := hc
    have hle := hready.le
    have hn : out.length = n.toNat := by omega
    refine ⟨q.drop n.toNat, ?_, hq.consume hle, hp.mono rfl rfl rfl (by simp), ?_, hd⟩
    · simp only
      rw [hist, List.append_assoc, ← hn]
      nth_rewrite 1 [← hout]
      rw [List.take_append_drop]
    · refine ⟨by rw [hn]; exact hready.asked, ?_⟩
      intro hlt
      simp only at hlt ⊢
      rw [hn] at hlt ⊢
      exact hready.short hlt
  | batchDone pos => exact ⟨q, hist, hq, hp, trivial, hd⟩

theorem step_inv (hi : Inv s q) {l : Label σ} (h : s.step l = some t) : ∃ q', Inv t q' := by
  cases l with
  | producer => exact producerStep_inv hi h
  | consumer => exact consumerStep_inv hi h
  | callPush x | callPushBatch b =>
    simp only [step] at h
    split at h
    · cases h; exact ⟨q, hi.history, hi.holds, trivial, hi.consumer, hi.dropped⟩
    · cases h
  | callPop | callPopBatch count =>
    simp only [step] at h
    split at h
    · cases h; exact ⟨q, hi.history, hi.holds, hi.producer, trivial, hi.dropped⟩
    · cases h

theorem init_inv (h : rb.Fresh) : Inv (init rb) [] :=
  ⟨rfl, h.holds, trivial, trivial, h.dropped⟩

/-- Every state of every interleaving meets the invariant. -/
theorem run_inv (h : rb.Fresh) {ls : List (Label σ)} (hr : Runs.run step (init rb) ls = some s) :
    ∃ q, Inv s q :=
  Runs.invariant (I := fun s => ∃ q, Inv s q) (fun _ _ _ ⟨_, hi⟩ hs => step_inv hi hs)
    ⟨[], init_inv h⟩ hr

end FastRing.Spsc

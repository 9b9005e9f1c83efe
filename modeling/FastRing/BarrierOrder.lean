import FastRing.Barriers
import FastRing.SpscSafety

/-! # What the barriers of the ring order

The producer is safe under every reordering: its `WRITE_BARRIER` stands between
the slot stores and the store of `head`. In `ring_buffer_pop` and
`ring_buffer_pop_batch` the `READ_BARRIER` stands after the slot loads and not
before them, so a slot load may take effect before the load of `head` that is to
justify it and return what the slot held before. That is the only way to go wrong:
in a run whose slot loads find `head` loaded or the sample published already, the
samples returned are the samples published. -/

namespace FastRing.Relaxed

open Cyclic Reorder

variable {σ : Type} {rb rb' : RingBuffer σ} {q : List σ} {s t : State σ}

/-! ## The shape of an operation -/

theorem mayPass_writeBarrier (a : Access) :
    mayPass .writeBarrier a = false ∧ mayPass a .writeBarrier = false := by
  cases a <;> exact ⟨rfl, rfl⟩

theorem mayPass_readBarrier (a : Access) :
    mayPass .readBarrier a = false ∧ mayPass a .readBarrier = false := by
  cases a <;> exact ⟨rfl, rfl⟩

namespace PushCall

variable {call : PushCall σ} {n : UInt32} {i : Nat} {a : Access}

/-- A call that moves samples is a copy. -/
theorem accesses_copy (h : n ≠ 0) : call.accesses n =
    copy call.loads (fun j => .store (.slot j)) n.toNat .writeBarrier (.store .head) :=
  if_neg h

/-- A call that moves nothing stops among the loads. -/
theorem accesses_zero (call : PushCall σ) : ∃ k, call.accesses 0 = call.loads.take k := by
  cases call with
  | push x => exact ⟨2, rfl⟩
  | batch b =>
    by_cases h : b.count = 0
    · exact ⟨0, if_pos h⟩
    · exact ⟨3, if_neg h⟩

theorem loads_get (h : call.loads[i]? = some a) :
    a = .load .head ∨ a = .load .tail ∨ a = .readBarrier := by
  have hm := List.mem_of_getElem? h
  cases call <;> simp only [loads, List.mem_cons, List.not_mem_nil, or_false] at hm
  · rcases hm with rfl | rfl <;> simp
  · rcases hm with rfl | rfl | rfl | rfl <;> simp

/-- What stands at a position of a call. -/
theorem accesses_get (h : (call.accesses n)[i]? = some a) :
    call.loads[i]? = some a ∨ n ≠ 0 ∧
      ((∃ j, j < n.toNat ∧ i = call.loads.length + j ∧ a = .store (.slot j)) ∨
        a = .writeBarrier ∨ (i = call.loads.length + n.toNat + 1 ∧ a = .store .head)) := by
  by_cases hn : n = 0
  · subst hn
    obtain ⟨k, hk⟩ := accesses_zero call
    rw [hk, List.getElem?_take] at h
    split at h
    · exact .inl h
    · cases h
  · rw [accesses_copy hn] at h
    rcases copy_get h with h | h | h | h
    · exact .inl h
    · exact .inr ⟨hn, .inl h⟩
    · exact .inr ⟨hn, .inr (.inl h.2)⟩
    · exact .inr ⟨hn, .inr (.inr h)⟩

theorem slot_pos {j : Nat} (h : (call.accesses n)[i]? = some (.store (.slot j))) :
    n ≠ 0 ∧ j < n.toNat ∧ i = call.loads.length + j := by
  rcases accesses_get h with hl | ⟨hn, ⟨j', hj, hi, ha⟩ | ha | ⟨_, ha⟩⟩
  · rcases loads_get hl with ha | ha | ha <;> cases ha
  · cases ha; exact ⟨hn, hj, hi⟩
  · cases ha
  · cases ha

theorem head_pos (h : (call.accesses n)[i]? = some (.store .head)) :
    n ≠ 0 ∧ i = call.loads.length + n.toNat + 1 := by
  rcases accesses_get h with hl | ⟨hn, ⟨_, _, _, ha⟩ | ha | ⟨hi, _⟩⟩
  · rcases loads_get hl with ha | ha | ha <;> cases ha
  · cases ha
  · cases ha
  · exact ⟨hn, hi⟩

/-- The loads a call bases its stores on. -/
theorem positions (call : PushCall σ) :
    (call.headPos < call.loads.length ∧ call.loads[call.headPos]? = some (.load .head)) ∧
    (call.tailPos < call.loads.length ∧ call.loads[call.tailPos]? = some (.load .tail)) ∧
    (call.indexPos < call.loads.length ∧ call.loads[call.indexPos]? = some (.load .head)) := by
  cases call <;> simp [headPos, tailPos, indexPos, loads]

end PushCall

namespace PopCall

variable {call : PopCall} {n : UInt32} {i : Nat} {a : Access}

theorem accesses_copy (h : n ≠ 0) : call.accesses n =
    copy call.loads (fun j => .load (.slot j)) n.toNat .readBarrier (.store .tail) :=
  if_neg h

theorem accesses_zero (call : PopCall) : ∃ k, call.accesses 0 = call.loads.take k := by
  cases call with
  | pop => exact ⟨2, rfl⟩
  | batch count =>
    by_cases h : count = 0
    · exact ⟨0, if_pos h⟩
    · exact ⟨3, if_neg h⟩

/-- Before the slot loads, `head` is loaded once. -/
theorem loads_get (h : call.loads[i]? = some a) :
    (i = call.headPos ∧ a = .load .head) ∨ a = .load .tail ∨ a = .readBarrier := by
  cases call <;> rcases i with _ | _ | _ | _ | i <;>
    simp only [loads, List.getElem?_cons_zero, List.getElem?_cons_succ, List.getElem?_nil,
      Option.some.injEq, reduceCtorEq] at h <;>
    subst h <;> simp [headPos]

theorem accesses_get (h : (call.accesses n)[i]? = some a) :
    call.loads[i]? = some a ∨ n ≠ 0 ∧
      ((∃ j, j < n.toNat ∧ i = call.loads.length + j ∧ a = .load (.slot j)) ∨
        a = .readBarrier ∨ (i = call.loads.length + n.toNat + 1 ∧ a = .store .tail)) := by
  by_cases hn : n = 0
  · subst hn
    obtain ⟨k, hk⟩ := accesses_zero call
    rw [hk, List.getElem?_take] at h
    split at h
    · exact .inl h
    · cases h
  · rw [accesses_copy hn] at h
    rcases copy_get h with h | h | h | h
    · exact .inl h
    · exact .inr ⟨hn, .inl h⟩
    · exact .inr ⟨hn, .inr (.inl h.2)⟩
    · exact .inr ⟨hn, .inr (.inr h)⟩

theorem slot_pos {j : Nat} (h : (call.accesses n)[i]? = some (.load (.slot j))) :
    n ≠ 0 ∧ j < n.toNat ∧ i = call.loads.length + j := by
  rcases accesses_get h with hl | ⟨hn, ⟨j', hj, hi, ha⟩ | ha | ⟨_, ha⟩⟩
  · rcases loads_get hl with ⟨_, ha⟩ | ha | ha <;> cases ha
  · cases ha; exact ⟨hn, hj, hi⟩
  · cases ha
  · cases ha

theorem tail_pos (h : (call.accesses n)[i]? = some (.store .tail)) :
    n ≠ 0 ∧ i = call.loads.length + n.toNat + 1 := by
  rcases accesses_get h with hl | ⟨hn, ⟨_, _, _, ha⟩ | ha | ⟨hi, _⟩⟩
  · rcases loads_get hl with ⟨_, ha⟩ | ha | ha <;> cases ha
  · cases ha
  · cases ha
  · exact ⟨hn, hi⟩

theorem head_load_pos (h : (call.accesses n)[i]? = some (.load .head)) : i = call.headPos := by
  rcases accesses_get h with hl | ⟨_, ⟨_, _, _, ha⟩ | ha | ⟨_, ha⟩⟩
  · rcases loads_get hl with ⟨hi, _⟩ | ha | ha
    · exact hi
    · cases ha
    · cases ha
  · cases ha
  · cases ha
  · cases ha

theorem positions (call : PopCall) :
    (call.headPos < call.loads.length ∧ call.loads[call.headPos]? = some (.load .head)) ∧
    (call.tailPos < call.loads.length ∧ call.loads[call.tailPos]? = some (.load .tail)) ∧
    (call.indexPos < call.loads.length ∧ call.loads[call.indexPos]? = some (.load .tail)) := by
  cases call <;> simp [headPos, tailPos, indexPos, loads]

end PopCall

/-! ## What the loaded values justify -/

/-- A `tail` that was `m` slots behind `head` leaves room for what is accepted. -/
theorem PushCall.decision_room {call : PushCall σ} {head tail n : UInt32} {m : Nat} (h : rb.WF)
    (hm : m < rb.capacity.toNat) (ht : tail.toNat < rb.capacity.toNat)
    (hh : head.toNat = (tail.toNat + m) % rb.capacity.toNat)
    (hd : call.decision rb head tail = n) :
    m + n.toNat < rb.capacity.toNat ∧ n.toNat ≤ call.items.length := by
  have hdist := h.distance hm hh
  cases call with
  | push x =>
    simp only [PushCall.decision] at hd
    split at hd
    · subst hd; exact ⟨hm, Nat.zero_le _⟩
    · rename_i hne
      subst hd
      refine ⟨?_, Nat.le_refl _⟩
      by_contra hfull
      have hm : m + 1 = rb.capacity.toNat := by
        have : m + 1 ≥ rb.capacity.toNat := by simpa using hfull
        omega
      refine hne (UInt32.toNat_inj.mp ?_)
      rw [h.advance_one, hh, Nat.mod_add_mod, Nat.add_assoc, hm, Nat.add_mod_right,
        Nat.mod_eq_of_lt ht]
  | batch b =>
    simp only [PushCall.decision] at hd
    split at hd
    · subst hd; exact ⟨hm, Nat.zero_le _⟩
    · have hwf : RingBuffer.WF { rb with head := head, tail := tail } :=
        ⟨h.pow, h.mask, by rw [hh]; exact Nat.mod_lt _ (by omega), ht⟩
      have hav := hwf.available_toNat
      simp only [ringBufferAvailable, ringBufferCount, hdist] at hav
      rw [PushCall.items, Batch.items_length]
      split at hd
      · rename_i hlt
        rw [UInt32.lt_iff_toNat_lt, hav] at hlt
        subst hd
        exact ⟨by omega, Nat.le_refl _⟩
      · rename_i hge
        rw [UInt32.lt_iff_toNat_lt] at hge
        subst hd
        omega

/-- A `head` that was `m` slots past `tail` stands for that many samples. -/
theorem PopCall.decision_le {call : PopCall} {head tail n : UInt32} {m : Nat} (h : rb.WF)
    (hm : m < rb.capacity.toNat) (ht : tail.toNat < rb.capacity.toNat)
    (hh : head.toNat = (tail.toNat + m) % rb.capacity.toNat)
    (hd : call.decision rb head tail = n) : n.toNat ≤ m := by
  have hdist := h.distance hm hh
  cases call with
  | pop =>
    simp only [PopCall.decision] at hd
    split at hd
    · subst hd; exact Nat.zero_le _
    · rename_i hne
      subst hd
      by_contra h0
      obtain rfl : m = 0 := by simpa using h0
      refine hne (UInt32.toNat_inj.mp ?_)
      rw [hh, Nat.add_zero, Nat.mod_eq_of_lt ht]
  | batch count =>
    simp only [PopCall.decision] at hd
    split at hd
    · subst hd; exact Nat.zero_le _
    · split at hd
      · rename_i hlt
        rw [UInt32.lt_iff_toNat_lt, hdist] at hlt
        subst hd
        omega
      · subst hd
        exact Nat.le_of_eq hdist

/-! ## The invariant -/

/-- What a producer call knows before it stores `head`, in a ring holding `len`
samples: its loads of `head` are current, its load of `tail` is off on the safe
side, and the slots it stored stand past the contents. -/
structure PushPending (rb : RingBuffer σ) (len : Nat) (op : PushOp σ) : Prop where
  head : ∀ i ∈ op.done, op.accesses[i]? = some (.load .head) → op.vals i = rb.head
  tail : ∀ i ∈ op.done, op.accesses[i]? = some (.load .tail) →
    (op.vals i).toNat < rb.capacity.toNat ∧ ∃ m, len ≤ m ∧ m < rb.capacity.toNat ∧
      rb.head.toNat = ((op.vals i).toNat + m) % rb.capacity.toNat
  slots : ∀ i ∈ op.done, ∀ j, op.accesses[i]? = some (.store (.slot j)) →
    op.call.items[j]? = some (rb.buffer ((rb.head.toNat + j) % rb.capacity.toNat))

/-- What a consumer call knows before it stores `tail`, in a ring holding `q`: its
loads of `tail` are current, and there is a number `m` of samples that its load of
`head`, once done, has seen; a slot it loaded gave the sample at its place, or lies
beyond what `head` showed. -/
structure PopPending (rb : RingBuffer σ) (q : List σ) (m : Nat) (op : PopOp σ) : Prop where
  le : m ≤ q.length
  tail : ∀ i ∈ op.done, op.accesses[i]? = some (.load .tail) → op.vals i = rb.tail
  head : ∀ i ∈ op.done, op.accesses[i]? = some (.load .head) →
    (op.vals i).toNat = (rb.tail.toNat + m) % rb.capacity.toNat
  slots : ∀ i ∈ op.done, ∀ j, op.accesses[i]? = some (.load (.slot j)) →
    q[j]? = some (op.out j) ∨ (op.call.headPos ∈ op.done ∧ m ≤ j)

structure PushOk (rb : RingBuffer σ) (len : Nat) (op : PushOp σ) : Prop where
  ordered : Ordered mayPass op.accesses op.done
  progress : (∃ i ∈ op.done, op.accesses[i]? = some (.store .head)) ∨ PushPending rb len op

structure PopOk (rb : RingBuffer σ) (q : List σ) (op : PopOp σ) : Prop where
  ordered : Ordered mayPass op.accesses op.done
  progress : (∃ i ∈ op.done, op.accesses[i]? = some (.store .tail)) ∨ ∃ m, PopPending rb q m op

/-- The invariant; `q` is what was published and not yet consumed. -/
structure Inv (s : State σ) (q : List σ) : Prop where
  history : s.published = s.returned ++ q
  holds : s.rb.Holds q
  producer : ∀ op, s.producer = some op → PushOk s.rb q.length op
  consumer : ∀ op, s.consumer = some op → PopOk s.rb q op

/-- The consumer takes samples away: what the producer's call knows stays. -/
theorem PushOk.mono {len len' : Nat} {op : PushOp σ} (h : PushOk rb len op)
    (hh : rb'.head = rb.head) (hc : rb'.capacity = rb.capacity) (hb : rb'.buffer = rb.buffer)
    (hl : len' ≤ len) : PushOk rb' len' op := by
  refine ⟨h.ordered, h.progress.imp_right fun hp => ⟨?_, ?_, ?_⟩⟩
  · rw [hh]; exact hp.head
  · intro i hi ha
    obtain ⟨ht, m, hm, hN, he⟩ := hp.tail i hi ha
    rw [hc, hh]
    exact ⟨ht, m, Nat.le_trans hl hm, hN, he⟩
  · rw [hh, hc, hb]; exact hp.slots

/-- The producer adds samples: what the consumer's call knows stays. -/
theorem PopOk.mono {op : PopOp σ} (h : PopOk rb q op) (ht : rb'.tail = rb.tail)
    (hc : rb'.capacity = rb.capacity) (xs : List σ) : PopOk rb' (q ++ xs) op := by
  refine ⟨h.ordered, h.progress.imp_right fun ⟨m, hp⟩ => ⟨m, ?_, ?_, ?_, ?_⟩⟩
  · rw [List.length_append]; exact Nat.le_trans hp.le (Nat.le_add_right _ _)
  · rw [ht]; exact hp.tail
  · rw [ht, hc]; exact hp.head
  · intro i hi j ha
    refine (hp.slots i hi j ha).imp_left fun he => ?_
    rw [List.getElem?_append_left (List.getElem?_eq_some_iff.mp he).1]
    exact he

theorem PopOk.frame {op : PopOp σ} (h : PopOk rb q op) (ht : rb'.tail = rb.tail)
    (hc : rb'.capacity = rb.capacity) : PopOk rb' q op := by
  have := h.mono ht hc []
  rwa [List.append_nil] at this

theorem Inv.setProducer {op : PushOp σ} (hi : Inv s q) (h : PushOk s.rb q.length op) :
    Inv { s with producer := some op } q := by
  refine ⟨hi.history, hi.holds, fun op' h' => ?_, hi.consumer⟩
  cases h'
  exact h

theorem Inv.setConsumer {op : PopOp σ} (hi : Inv s q) (h : PopOk s.rb q op) :
    Inv { s with consumer := some op } q := by
  refine ⟨hi.history, hi.holds, hi.producer, fun op' h' => ?_⟩
  cases h'
  exact h

/-! ## A step of the producer -/

section Producer

variable {op : PushOp σ} {i : Nat}

/-- A call that stored `head` has no access left. -/
theorem PushOk.pending (h : PushOk rb q.length op)
    (he : enabled mayPass op.accesses op.done i = true) : PushPending rb q.length op := by
  rcases h.progress with ⟨k, hk, ha⟩ | hp
  · obtain ⟨hn, rfl⟩ := PushCall.head_pos ha
    have ho := h.ordered
    rw [PushOp.accesses, PushCall.accesses_copy hn] at ho he
    rw [ho.copy_finished (fun a => (mayPass_writeBarrier a).1)
      (fun a => (mayPass_writeBarrier a).2) hk] at he
    cases he
  · exact hp

/-- Every load of a call took effect before any store of it. -/
theorem PushOp.loaded {l l' : Loc} (he : enabled mayPass op.accesses op.done i = true)
    (ha : op.accesses[i]? = some (.store l)) {k : Nat} (hk : k < op.call.loads.length)
    (hl : op.call.loads[k]? = some (.load l')) :
    k ∈ op.done ∧ op.accesses[k]? = some (.load l') := by
  have hcopy : op.n ≠ 0 ∧ op.call.loads.length ≤ i := by
    rcases PushCall.accesses_get ha with hl | ⟨hn, ⟨j, _, rfl, _⟩ | hc | ⟨rfl, _⟩⟩
    · rcases PushCall.loads_get hl with hc | hc | hc <;> cases hc
    · exact ⟨hn, Nat.le_add_right _ _⟩
    · cases hc
    · exact ⟨hn, by omega⟩
  have hget : op.accesses[k]? = some (.load l') := by
    rw [PushOp.accesses, PushCall.accesses_copy hcopy.1, copy_first hk]
    exact hl
  exact ⟨enabled_after he (Nat.lt_of_lt_of_le hk hcopy.2) ha hget rfl, hget⟩

/-- A call about to store copies at the current head and has room for its samples. -/
theorem PushPending.store (hq : rb.Holds q) (hp : PushPending rb q.length op) {l : Loc}
    (he : enabled mayPass op.accesses op.done i = true)
    (ha : op.accesses[i]? = some (.store l)) (hj : op.justified rb) :
    op.vals op.call.indexPos = rb.head ∧ q.length + op.n.toNat < rb.capacity.toNat ∧
      op.n.toNat ≤ op.call.items.length := by
  obtain ⟨⟨hk1, hl1⟩, ⟨hk2, hl2⟩, ⟨hk3, hl3⟩⟩ := op.call.positions
  obtain ⟨hd1, ha1⟩ := PushOp.loaded he ha hk1 hl1
  obtain ⟨hd2, ha2⟩ := PushOp.loaded he ha hk2 hl2
  obtain ⟨hd3, ha3⟩ := PushOp.loaded he ha hk3 hl3
  obtain ⟨ht, m, hm, hN, hh⟩ := hp.tail _ hd2 ha2
  rw [← hp.head _ hd1 ha1] at hh
  obtain ⟨hroom, hle⟩ := PushCall.decision_room hq.wf hN ht hh hj
  exact ⟨hp.head _ hd3 ha3, by omega, hle⟩

/-- A load of the producer. -/
theorem PushPending.load {len : Nat} (hp : PushPending rb len op) (hn : i ∉ op.done) (v : UInt32)
    (hh : op.accesses[i]? = some (.load .head) → v = rb.head)
    (ht : op.accesses[i]? = some (.load .tail) →
      v.toNat < rb.capacity.toNat ∧ ∃ m, len ≤ m ∧ m < rb.capacity.toNat ∧
        rb.head.toNat = (v.toNat + m) % rb.capacity.toNat)
    (hs : ∀ j, op.accesses[i]? ≠ some (.store (.slot j))) :
    PushPending rb len { op with done := i :: op.done, vals := Function.update op.vals i v } := by
  have hold : ∀ k ∈ op.done, Function.update op.vals i v k = op.vals k := by
    intro k hk
    rw [Function.update_of_ne]
    rintro rfl
    exact hn hk
  refine ⟨?_, ?_, ?_⟩
  · intro k hk ha
    rcases List.mem_cons.mp hk with rfl | hk
    · rw [← hh ha]; exact Function.update_self _ _ _
    · rw [← hp.head k hk ha]; exact hold k hk
  · intro k hk ha
    rcases List.mem_cons.mp hk with rfl | hk
    · simp only [Function.update_self]; exact ht ha
    · simp only [hold k hk]; exact hp.tail k hk ha
  · intro k hk j ha
    rcases List.mem_cons.mp hk with rfl | hk
    · exact absurd ha (hs j)
    · exact hp.slots k hk j ha

theorem PushPending.barrier {len : Nat} (hp : PushPending rb len op) (hn : i ∉ op.done)
    (ha : ∀ l, op.accesses[i]? ≠ some (.load l) ∧ op.accesses[i]? ≠ some (.store l)) :
    PushPending rb len { op with done := i :: op.done } := by
  have h := hp.load hn (op.vals i) (fun h => absurd h (ha _).1) (fun h => absurd h (ha _).1)
    (fun j => (ha (.slot j)).2)
  rw [Function.update_eq_self] at h
  exact h

/-- The store of a slot of the producer. -/
theorem PushPending.storeSlot {len j : Nat} {x : σ} (hp : PushPending rb len op)
    (hx : op.call.items[j]? = some x) (hN : op.n.toNat < rb.capacity.toNat) (hj : j < op.n.toNat)
    (ha : op.accesses[i]? = some (.store (.slot j))) :
    PushPending
      { rb with buffer := Function.update rb.buffer ((rb.head.toNat + j) % rb.capacity.toNat) x }
      len { op with done := i :: op.done } := by
  refine ⟨?_, ?_, ?_⟩
  · intro k hk hl
    rcases List.mem_cons.mp hk with rfl | hk
    · exact absurd (ha.symm.trans hl) (by simp)
    · exact hp.head k hk hl
  · intro k hk hl
    rcases List.mem_cons.mp hk with rfl | hk
    · exact absurd (ha.symm.trans hl) (by simp)
    · exact hp.tail k hk hl
  · intro k hk j' hl
    simp only
    by_cases hjj : j' = j
    · subst hjj
      rw [Function.update_self]; exact hx
    · rcases List.mem_cons.mp hk with rfl | hk
      · rw [PushOp.accesses] at hl ha
        rw [hl] at ha
        exact absurd (by simpa using ha) hjj
      · have hj' : j' < op.n.toNat := (PushCall.slot_pos hl).2.1
        rw [Function.update_of_ne fun he => hjj (cell_inj (by omega) (by omega) he)]
        exact hp.slots k hk j' hl

/-- The slots of a call that is about to store `head` hold its samples. -/
theorem PushPending.window {len : Nat} (hp : PushPending rb len op)
    (ho : Ordered mayPass op.accesses op.done) (hn : op.n ≠ 0)
    (he : enabled mayPass op.accesses op.done (op.call.loads.length + op.n.toNat + 1) = true) :
    Window rb.capacity.toNat rb.buffer rb.head.toNat (op.call.items.take op.n.toNat) := by
  intro j hj
  rw [List.length_take] at hj
  have hget : op.accesses[op.call.loads.length + j]? = some (.store (.slot j)) := by
    rw [PushOp.accesses, PushCall.accesses_copy hn, copy_element (by omega)]
  have hdone : op.call.loads.length + j ∈ op.done := by
    rw [PushOp.accesses, PushCall.accesses_copy hn] at ho he
    exact ho.copy_before (fun a => (mayPass_writeBarrier a).1)
      (fun a => (mayPass_writeBarrier a).2) he (by omega)
  have hslot := hp.slots _ hdone j hget
  rw [List.getElem_take]
  exact ((List.getElem?_eq_some_iff.mp hslot).2).symm

/-- Every access of the producer keeps the invariant. -/
theorem producerAccess_inv (hi : Inv s q) (hp : s.producer = some op)
    (h : producerAccess s op i = some t) : ∃ q', Inv t q' := by
  have hok := hi.producer op hp
  have hq := hi.holds
  simp only [producerAccess] at h
  split at h
  case isFalse => cases h
  rename_i he
  have hpend := hok.pending he
  have hnew := (enabled_spec he).1
  have hord := hok.ordered.cons he
  split at h
  · rename_i ha
    cases h
    refine ⟨q, hi.setProducer ⟨hord, .inr (hpend.load hnew _ (fun _ => rfl) ?_ ?_)⟩⟩
    · rw [ha]; exact nofun
    · rw [ha]; exact nofun
  · rename_i ha
    cases h
    refine ⟨q, hi.setProducer ⟨hord, .inr (hpend.load hnew _ ?_ (fun _ => ⟨hq.wf.tail, q.length,
      Nat.le_refl _, hq.room, hq.head⟩) ?_)⟩⟩
    · rw [ha]; exact nofun
    · rw [ha]; exact nofun
  · rename_i j ha
    split at h
    case isFalse => cases h
    rename_i hj
    obtain ⟨hidx, hroom, hlen⟩ := hpend.store hq he ha hj
    obtain ⟨_, hjn, _⟩ := PushCall.slot_pos ha
    obtain ⟨x, hx⟩ : ∃ x, op.call.items[j]? = some x :=
      ⟨_, List.getElem?_eq_getElem (by omega)⟩
    rw [hx, hidx, slotAt_eq hq.wf.head (by omega) hjn] at h
    cases h
    refine ⟨q, hi.history, hq.write (by omega) x, ?_, fun op' h' => ?_⟩
    · rintro _ ⟨⟩
      exact ⟨hord, .inr (hpend.storeSlot hx (by omega) hjn ha)⟩
    · exact (hi.consumer op' h').frame rfl rfl
  · rename_i ha
    split at h
    case isFalse => cases h
    rename_i hj
    cases h
    obtain ⟨hidx, hroom, hlen⟩ := hpend.store hq he ha hj
    obtain ⟨hn, rfl⟩ := PushCall.head_pos ha
    have hlen' : (op.call.items.take op.n.toNat).length = op.n.toNat := by
      rw [List.length_take, Nat.min_eq_left hlen]
    refine ⟨q ++ op.call.items.take op.n.toNat, ?_, ?_, ?_, fun op' h' => ?_⟩
    · simp only [hi.history, List.append_assoc]
    · rw [hidx]
      exact hq.publish hlen'.symm (hpend.window hok.ordered hn he) (by omega)
    · rintro _ ⟨⟩
      exact ⟨hord, .inl ⟨_, List.mem_cons_self, ha⟩⟩
    · refine (hi.consumer op' h').mono ?_ ?_ _ <;> rfl
  · rename_i ha
    cases h
    exact ⟨q, hi.setProducer ⟨hord, .inr (hpend.barrier hnew fun l => by rw [ha]; exact ⟨nofun, nofun⟩)⟩⟩
  · rename_i ha
    cases h
    exact ⟨q, hi.setProducer ⟨hord, .inr (hpend.barrier hnew fun l => by rw [ha]; exact ⟨nofun, nofun⟩)⟩⟩
  · cases h

end Producer

/-! ## A step of the consumer -/

/-- A slot load finds `head` loaded by its call already, or its sample published. -/
def inOrder (s : State σ) : Label σ → Bool
  | .consumer i =>
    match s.consumer with
    | some op =>
      match op.accesses[i]? with
      | some (.load (.slot j)) =>
        op.done.contains op.call.headPos || decide (j < (ringBufferCount s.rb).toNat)
      | _ => true
    | none => true
  | _ => true

section Consumer

variable {op : PopOp σ} {i m : Nat}

theorem PopOk.pending (h : PopOk rb q op)
    (he : enabled mayPass op.accesses op.done i = true) : ∃ m, PopPending rb q m op := by
  rcases h.progress with ⟨k, hk, ha⟩ | hp
  · obtain ⟨hn, rfl⟩ := PopCall.tail_pos ha
    have ho := h.ordered
    rw [PopOp.accesses, PopCall.accesses_copy hn] at ho he
    rw [ho.copy_finished (fun a => (mayPass_readBarrier a).1)
      (fun a => (mayPass_readBarrier a).2) hk] at he
    cases he
  · exact hp

/-- A load of `tail` of the consumer. -/
theorem PopPending.load (hp : PopPending rb q m op) (hn : i ∉ op.done) (v : UInt32)
    (ht : op.accesses[i]? = some (.load .tail) → v = rb.tail)
    (hh : op.accesses[i]? ≠ some (.load .head))
    (hs : ∀ j, op.accesses[i]? ≠ some (.load (.slot j))) :
    PopPending rb q m { op with done := i :: op.done, vals := Function.update op.vals i v } := by
  have hold : ∀ k ∈ op.done, Function.update op.vals i v k = op.vals k := by
    intro k hk
    rw [Function.update_of_ne]
    rintro rfl
    exact hn hk
  refine ⟨hp.le, ?_, ?_, ?_⟩
  · intro k hk ha
    rcases List.mem_cons.mp hk with rfl | hk
    · rw [← ht ha]; exact Function.update_self _ _ _
    · rw [← hp.tail k hk ha]; exact hold k hk
  · intro k hk ha
    rcases List.mem_cons.mp hk with rfl | hk
    · exact absurd ha hh
    · simp only [hold k hk]; exact hp.head k hk ha
  · intro k hk j ha
    rcases List.mem_cons.mp hk with rfl | hk
    · exact absurd ha (hs j)
    · exact (hp.slots k hk j ha).imp_right fun h => ⟨List.mem_cons_of_mem _ h.1, h.2⟩

theorem PopPending.barrier (hp : PopPending rb q m op) (hn : i ∉ op.done)
    (ha : ∀ l, op.accesses[i]? ≠ some (.load l)) :
    PopPending rb q m { op with done := i :: op.done } := by
  have h := hp.load hn (op.vals i) (fun h => absurd h (ha _)) (ha _) (fun j => ha (.slot j))
  rw [Function.update_eq_self] at h
  exact h

/-- The load of `head`: what was loaded before it had been published by then. -/
theorem PopPending.loadHead (hq : rb.Holds q) (hp : PopPending rb q m op) (hn : i ∉ op.done)
    (ha : op.accesses[i]? = some (.load .head)) :
    PopPending rb q q.length
      { op with done := i :: op.done, vals := Function.update op.vals i rb.head } := by
  have hpos := PopCall.head_load_pos ha
  refine ⟨Nat.le_refl _, ?_, ?_, ?_⟩
  · intro k hk hl
    rcases List.mem_cons.mp hk with rfl | hkd
    · exact absurd (ha.symm.trans hl) (by simp)
    · have hne : k ≠ i := fun he => hn (he ▸ hkd)
      simp only
      rw [Function.update_of_ne hne]
      exact hp.tail k hkd hl
  · intro k hk hl
    obtain rfl : k = i := (PopCall.head_load_pos hl).trans hpos.symm
    simp only [Function.update_self]
    exact hq.head
  · intro k hk j hl
    rcases List.mem_cons.mp hk with rfl | hk
    · exact absurd (ha.symm.trans hl) (by simp)
    · rcases hp.slots k hk j hl with h | ⟨h, _⟩
      · exact .inl h
      · rw [← hpos] at h
        exact absurd h hn

/-- The load of a slot that is in order. -/
theorem PopPending.loadSlot {j : Nat} {x : σ} (hp : PopPending rb q m op) (hn : i ∉ op.done)
    (ha : op.accesses[i]? = some (.load (.slot j)))
    (hx : q[j]? = some x ∨ (op.call.headPos ∈ op.done ∧ q.length ≤ j)) :
    PopPending rb q m { op with done := i :: op.done, out := Function.update op.out j x } := by
  refine ⟨hp.le, ?_, ?_, ?_⟩
  · intro k hk hl
    rcases List.mem_cons.mp hk with rfl | hk
    · exact absurd (ha.symm.trans hl) (by simp)
    · exact hp.tail k hk hl
  · intro k hk hl
    rcases List.mem_cons.mp hk with rfl | hk
    · exact absurd (ha.symm.trans hl) (by simp)
    · exact hp.head k hk hl
  · intro k hk j' hl
    have hi := (PopCall.slot_pos ha).2.2
    have hk' : k = op.call.loads.length + j' := (PopCall.slot_pos hl).2.2
    simp only
    by_cases hjj : j' = j
    · subst hjj
      rw [Function.update_self]
      exact hx.imp_right fun h => ⟨List.mem_cons_of_mem _ h.1, Nat.le_trans hp.le h.2⟩
    · rcases List.mem_cons.mp hk with rfl | hk
      · omega
      · rw [Function.update_of_ne hjj]
        exact (hp.slots k hk j' hl).imp_right fun h => ⟨List.mem_cons_of_mem _ h.1, h.2⟩

/-- A call about to store `tail` releases the slots from the current tail on, and
loaded the oldest samples from them. -/
theorem PopPending.store (hq : rb.Holds q) (hp : PopPending rb q m op)
    (ho : Ordered mayPass op.accesses op.done) (hn : op.n ≠ 0)
    (he : enabled mayPass op.accesses op.done (op.call.loads.length + op.n.toNat + 1) = true)
    (hj : op.justified rb) :
    op.vals op.call.indexPos = rb.tail ∧ op.n.toNat ≤ q.length ∧
      (List.range op.n.toNat).map op.out = q.take op.n.toNat := by
  have hget : ∀ {k : Nat} {a : Access}, k < op.call.loads.length → op.call.loads[k]? = some a →
      op.accesses[k]? = some a := by
    intro k a hk hl
    rw [PopOp.accesses, PopCall.accesses_copy hn, copy_first hk, hl]
  have hslot : ∀ j, j < op.n.toNat →
      op.accesses[op.call.loads.length + j]? = some (.load (.slot j)) := by
    intro j hj
    rw [PopOp.accesses, PopCall.accesses_copy hn, copy_element hj]
  have hdone : ∀ k, k < op.call.loads.length + op.n.toNat + 1 → k ∈ op.done := by
    intro k hk
    rw [PopOp.accesses, PopCall.accesses_copy hn] at ho he
    exact ho.copy_before (fun a => (mayPass_readBarrier a).1)
      (fun a => (mayPass_readBarrier a).2) he hk
  obtain ⟨⟨hk1, hl1⟩, ⟨hk2, hl2⟩, ⟨hk3, hl3⟩⟩ := op.call.positions
  have hhead := hp.head _ (hdone _ (by omega)) (hget hk1 hl1)
  have htail := hp.tail _ (hdone _ (by omega)) (hget hk2 hl2)
  have hle := hp.le
  have hr := hq.room
  rw [PopOp.justified, htail] at hj
  have hnm := PopCall.decision_le hq.wf (by omega) hq.wf.tail hhead hj
  refine ⟨hp.tail _ (hdone _ (by omega)) (hget hk3 hl3), by omega, ?_⟩
  refine List.ext_getElem (by simp; omega) fun j hj1 hj2 => ?_
  have hjn : j < op.n.toNat := by simpa using hj1
  rcases hp.slots _ (hdone _ (by omega)) j (hslot j hjn) with h | ⟨_, h⟩
  · rw [List.getElem_map, List.getElem_range, List.getElem_take]
    exact ((List.getElem?_eq_some_iff.mp h).2).symm
  · omega

/-- Every access of the consumer that is in order keeps the invariant. -/
theorem consumerAccess_inv (hi : Inv s q) (hc : s.consumer = some op)
    (hio : inOrder s (.consumer i) = true) (h : consumerAccess s op i = some t) : ∃ q', Inv t q' := by
  have hok := hi.consumer op hc
  have hq := hi.holds
  simp only [consumerAccess] at h
  split at h
  case isFalse => cases h
  rename_i he
  obtain ⟨m, hpend⟩ := hok.pending he
  have hnew := (enabled_spec he).1
  have hord := hok.ordered.cons he
  split at h
  · rename_i ha
    cases h
    exact ⟨q, hi.setConsumer ⟨hord, .inr ⟨_, hpend.loadHead hq hnew ha⟩⟩⟩
  · rename_i ha
    cases h
    refine ⟨q, hi.setConsumer ⟨hord, .inr ⟨_, hpend.load hnew _ (fun _ => rfl) ?_ ?_⟩⟩⟩
    · rw [ha]; exact nofun
    · rw [ha]; exact nofun
  · rename_i j ha
    cases h
    refine ⟨q, hi.setConsumer ⟨hord, .inr ⟨_, hpend.loadSlot hnew ha ?_⟩⟩⟩
    rcases Nat.lt_or_ge j q.length with hlt | hge
    · have hr := hq.room
      rw [slotAt_eq hq.wf.tail (by omega) (PopCall.slot_pos ha).2.1, hq.slots j hlt]
      exact .inl (List.getElem?_eq_getElem hlt)
    · simp only [inOrder, hc, ha, hq.count, Bool.or_eq_true, List.contains_iff_mem,
        decide_eq_true_eq] at hio
      exact .inr ⟨hio.resolve_right (by omega), hge⟩
  · rename_i ha
    split at h
    case isFalse => cases h
    rename_i hj
    cases h
    obtain ⟨hn, rfl⟩ := PopCall.tail_pos ha
    obtain ⟨hidx, hle, hout⟩ := hpend.store hq hok.ordered hn he hj
    refine ⟨q.drop op.n.toNat, ?_, ?_, fun op' h' => ?_, ?_⟩
    · simp only [hi.history, hout, List.append_assoc, List.take_append_drop]
    · rw [hidx]
      exact hq.consume hle
    · refine (hi.producer op' h').mono ?_ ?_ ?_ (by simp) <;> rfl
    · rintro _ ⟨⟩
      exact ⟨hord, .inl ⟨_, List.mem_cons_self, ha⟩⟩
  · rename_i ha
    cases h
    exact ⟨q, hi.setConsumer ⟨hord, .inr ⟨_, hpend.barrier hnew fun l => by rw [ha]; exact nofun⟩⟩⟩
  · rename_i ha
    cases h
    exact ⟨q, hi.setConsumer ⟨hord, .inr ⟨_, hpend.barrier hnew fun l => by rw [ha]; exact nofun⟩⟩⟩
  · cases h

end Consumer

/-! ## Runs -/

theorem step_inv (hi : Inv s q) {l : Label σ} (hio : inOrder s l = true) (h : step s l = some t) :
    ∃ q', Inv t q' := by
  cases l with
  | callPush call n =>
    simp only [step] at h
    split at h
    · cases h
      exact ⟨q, hi.setProducer ⟨ordered_nil, .inr ⟨nofun, nofun, nofun⟩⟩⟩
    · cases h
  | producer i =>
    obtain ⟨op, hp, h⟩ := Option.bind_eq_some_iff.mp h
    exact producerAccess_inv hi hp h
  | returnPush =>
    obtain ⟨op, hp, h⟩ := Option.bind_eq_some_iff.mp h
    split at h
    · cases h
      exact ⟨q, hi.history, hi.holds.setDropped _, nofun, fun op' h' =>
        (hi.consumer op' h').frame rfl rfl⟩
    · cases h
  | callPop call n out =>
    simp only [step] at h
    split at h
    · cases h
      exact ⟨q, hi.setConsumer ⟨ordered_nil, .inr ⟨0, Nat.zero_le _, nofun, nofun, nofun⟩⟩⟩
    · cases h
  | consumer i =>
    obtain ⟨op, hc, h⟩ := Option.bind_eq_some_iff.mp h
    exact consumerAccess_inv hi hc hio h
  | returnPop =>
    obtain ⟨op, hc, h⟩ := Option.bind_eq_some_iff.mp h
    split at h
    · cases h
      exact ⟨q, hi.history, hi.holds, hi.producer, nofun⟩
    · cases h

theorem init_inv (h : rb.Fresh) : Inv (init rb) [] :=
  ⟨rfl, h.holds, nofun, nofun⟩

/-- Whatever the reordering within the operations and the interleaving of the two
threads: as long as slot loads are in order, every sample returned is the one
published at its position of the stream. -/
theorem returned_published_inOrder (rb : RingBuffer σ) (h : rb.Fresh) (ls : List (Label σ))
    (s : State σ) (hio : Runs.AllSteps step (inOrder · · = true) (init rb) ls)
    (hr : Runs.run step (init rb) ls = some s) : s.returned <+: s.published := by
  obtain ⟨q, hi⟩ := Runs.invariant_of_steps (I := fun s => ∃ q, Inv s q)
    (fun _ _ _ ⟨_, hi⟩ hio hs => step_inv hi hio hs) ⟨[], init_inv h⟩ hio hr
  exact ⟨q, hi.history.symm⟩

/-- A pop that reads its slot after the producer published, with both loads of
`tail` and the slot load ahead of the load of `head`. -/
def earlyRun : List (Label Nat) :=
  [.callPush (.push 7) 1, .producer 1, .producer 0, .producer 2, .producer 3, .producer 4,
    .returnPush, .callPop .pop 1 (fun _ => 0), .consumer 1, .consumer 3, .consumer 2, .consumer 0,
    .consumer 4, .consumer 5, .returnPop]

theorem returned_published_early : ∃ s : State Nat,
    Runs.AllSteps step (inOrder · · = true) (init Spsc.smallRing) earlyRun ∧
      Runs.run step (init Spsc.smallRing) earlyRun = some s ∧ s.returned <+: s.published ∧
      s.returned = [7] := by
  refine ⟨_, by decide, rfl, ?_, rfl⟩
  exact returned_published_inOrder Spsc.smallRing Spsc.smallRing_fresh earlyRun _ (by decide) rfl

/-- A pop whose slot load takes effect first, the push of a sample, and the rest of
the pop. -/
def staleRun : List (Label Nat) :=
  [.callPop .pop 1 (fun _ => 0), .consumer 3, .callPush (.push 7) 1, .producer 0, .producer 1,
    .producer 2, .producer 3, .producer 4, .returnPush, .consumer 0, .consumer 1, .consumer 2,
    .consumer 4, .consumer 5, .returnPop]

/-- The barriers do not suffice: the pop returns what the slot held before. -/
theorem returned_stale : Spsc.smallRing.Fresh ∧ ∃ s : State Nat,
    Runs.run step (init Spsc.smallRing) staleRun = some s ∧ s.published = [7] ∧
      s.returned = [0] ∧ ¬ s.returned <+: s.published :=
  ⟨Spsc.smallRing_fresh, _, rfl, rfl, rfl, by decide⟩

end FastRing.Relaxed

import FastRing.RingOps

/-! # Batch operations are iterated single operations

`ring_buffer_push_batch` computes the free space once, copies in at most two
chunks and moves the head once. It leaves the same ring, slot for slot, as pushing
its samples one after the other; `ring_buffer_pop_batch` likewise. -/

namespace FastRing

variable {σ : Type} {rb : RingBuffer σ} {q : List σ}

/-- Push the samples one at a time; the results in order. -/
def pushEach (rb : RingBuffer σ) : List σ → List Bool × RingBuffer σ
  | [] => ([], rb)
  | x :: xs =>
    let r := ringBufferPush rb x
    let rest := pushEach r.2 xs
    (r.1 :: rest.1, rest.2)

/-- Pop up to `n` times, stopping at the first pop that returns false. -/
def popEach : Nat → RingBuffer σ → List σ × RingBuffer σ
  | 0, rb => ([], rb)
  | n + 1, rb =>
    match ringBufferPop rb with
    | (none, rb') => ([], rb')
    | (some x, rb') =>
      let rest := popEach n rb'
      (x :: rest.1, rest.2)

theorem pushEach_eq (h : rb.Holds q) (xs : List σ) {k : Nat}
    (hk : k = min xs.length (rb.capacity.toNat - 1 - q.length)) :
    pushEach rb xs = (List.replicate k true ++ List.replicate (xs.length - k) false,
      rb.accept (xs.take k) (xs.length - k)) := by
  induction xs generalizing rb q k with
  | nil =>
    have : k = 0 := by simpa using hk
    subst this
    simp [pushEach, h.wf.accept_nil]
  | cons x xs ih =>
    have hr := h.room
    simp only [pushEach, h.push_eq, List.length_cons] at hk ⊢
    split
    · -- room left: the rest is pushed into the ring with `x` in it
      rename_i hlt
      obtain ⟨j, rfl⟩ : ∃ j, k = j + 1 := ⟨k - 1, by omega⟩
      have h' := h.accept [x] 0 (by simp; omega)
      rw [ih h' (k := j) (by simp; omega), h.wf.accept_accept]
      simp [List.replicate_succ]
    · -- full: `x` and everything after it is refused
      have : k = 0 := by omega
      subst this
      have h' := h.accept [] 1 (by simpa using hr)
      rw [List.append_nil] at h'
      rw [ih h' (k := 0) (by simp; omega), h.wf.accept_accept]
      simp [List.replicate_succ, Nat.add_comm]

theorem popEach_eq (h : rb.Holds q) (n : Nat) :
    popEach n rb = (q.take n, rb.release (min n q.length)) := by
  induction n generalizing rb q with
  | zero => simp [popEach, h.wf.release_zero]
  | succ n ih =>
    rw [popEach, h.pop_eq]
    cases q with
    | nil => simp [h.wf.release_zero]
    | cons x xs =>
      have h' := h.release (n := 1) (by simp)
      simp only [List.drop_succ_cons, List.drop_zero] at h'
      simp only [ih h', h.wf.release_release, List.take_succ_cons, List.length_cons]
      rw [Nat.add_comm 1, Nat.succ_min_succ]

/-- On every well-formed ring, whatever its dead slots hold, a batch push of a
non-empty list leaves the ring that pushing its elements in order leaves, and a
batch pop the one that popping until the first failure leaves; counts, results and
samples agree too. -/
theorem batch_eq_iterated (rb : RingBuffer σ) (h : rb.WF) :
    (∀ xs : List σ, xs.length < 2 ^ 32 → 0 < xs.length →
      (ringBufferPushBatch rb (.ofList xs)).2 = (pushEach rb xs).2 ∧
      (ringBufferPushBatch rb (.ofList xs)).1.2.toNat = (pushEach rb xs).1.count true ∧
      ((ringBufferPushBatch rb (.ofList xs)).1.1 = true ↔
        ∀ r ∈ (pushEach rb xs).1, r = true)) ∧
    (∀ count : UInt32, 0 < count →
      (ringBufferPopBatch rb count).2 = (popEach count.toNat rb).2 ∧
      (ringBufferPopBatch rb count).1.2.2 = (popEach count.toNat rb).1 ∧
      (ringBufferPopBatch rb count).1.2.1.toNat = (popEach count.toNat rb).1.length ∧
      ((ringBufferPopBatch rb count).1.1 = true ↔ 0 < (popEach count.toNat rb).1.length)) := by
  have hq := h.holds
  generalize (List.range (ringBufferCount rb).toNat).map
    (fun i => rb.buffer ((rb.tail.toNat + i) % rb.capacity.toNat)) = q at hq
  have hlt := hq.length_lt_word
  constructor
  · intro xs hw hpos
    have hc := Batch.ofList_count hw
    have h0 : (Batch.ofList xs).count ≠ 0 := fun he => by
      rw [he] at hc; simp only [UInt32.toNat_zero] at hc; omega
    obtain ⟨k, hk⟩ : ∃ k, k = min xs.length (rb.capacity.toNat - 1 - q.length) := ⟨_, rfl⟩
    rw [hq.pushBatch_eq _ (k := k) (by rw [hc]; exact hk), hc, Batch.ofList_items hw,
      pushEach_eq hq xs hk]
    refine ⟨rfl, ?_, ?_⟩
    · simp [List.count_replicate, UInt32.toNat_ofNat']; omega
    · have hall : (∀ r ∈ List.replicate k true ++ List.replicate (xs.length - k) false,
          r = true) ↔ k = xs.length := by
        constructor
        · intro hall
          by_contra hne
          exact Bool.false_ne_true (hall false (by simp; omega))
        · rintro rfl; simp
      rw [hall]
      simp [h0]
  · intro count _
    rw [hq.popBatch_eq count rfl, popEach_eq hq]
    refine ⟨rfl, ?_, ?_, ?_⟩
    · simp only
      rw [← List.take_eq_take_min]
    · simp [UInt32.toNat_ofNat', Nat.mod_eq_of_lt (show min count.toNat q.length < 4294967296 by omega)]
    · simp

/-- A ring of capacity 4 with two samples, and one free slot before the wrap. -/
def wrappingRing : RingBuffer Nat :=
  { head := 3, tail := 1, capacity := 4, mask := 3, buffer := fun i => 10 * i, dropped := 0 }

theorem wrappingRing_wf : wrappingRing.WF :=
  ⟨⟨2, by decide, by decide, by decide⟩, by decide, by decide, by decide⟩

theorem batch_eq_iterated_wrapping :
    (ringBufferPushBatch wrappingRing (.ofList [7, 8])).2 =
        (pushEach wrappingRing [7, 8]).2 ∧
      (pushEach wrappingRing [7, 8]).1 = [true, false] ∧
      (ringBufferPopBatch wrappingRing 3).1.2.2 = (popEach 3 wrappingRing).1 ∧
      (popEach 3 wrappingRing).1 = [10, 20] :=
  have h := batch_eq_iterated wrappingRing wrappingRing_wf
  ⟨(h.1 [7, 8] (by decide) (by decide)).1, by decide, (h.2 3 (by decide)).2.1, by decide⟩

end FastRing

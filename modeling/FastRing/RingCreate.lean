import FastRing.RingContents

/-! # Creating a ring

For a request of at most `2^31` the rounding loop ends, in at most 32 tests, at
the least power of two that is not below the request (and not below 2), and the
ring created with it is well formed and empty. For a greater one it never ends: the
shift after `2^31` gives 0, which stays 0. -/

namespace FastRing

variable {σ : Type}

theorem shiftLeft_one_toNat {p : UInt32} {i : Nat} (hp : p.toNat = 2 ^ i) (hi : i < 31) :
    (p <<< 1).toNat = 2 ^ (i + 1) := by
  have hlt : 2 ^ (i + 1) < 2 ^ 32 := Nat.pow_lt_pow_right (by decide) (by omega)
  rw [UInt32.toNat_shiftLeft, hp]
  simpa [Nat.shiftLeft_eq, ← Nat.pow_succ] using Nat.mod_eq_of_lt hlt

/-- The loop, from `power = 2^i`, ends at the first power of two not below the
request. -/
theorem roundUpLoop_eq {c : UInt32} (hc : c.toNat ≤ 2 ^ 31) (fuel i : Nat) (p : UInt32)
    (hi : i ≤ 31) (hf : 32 - i ≤ fuel) (hp : p.toNat = 2 ^ i) :
    ∃ j r, roundUpLoop fuel p c = some r ∧ i ≤ j ∧ j ≤ 31 ∧ r.toNat = 2 ^ j ∧
      c.toNat ≤ 2 ^ j ∧ ∀ m, i ≤ m → c.toNat ≤ 2 ^ m → j ≤ m := by
  induction fuel generalizing i p with
  | zero => omega
  | succ fuel ih =>
    rw [roundUpLoop]
    split
    · rename_i hlt
      rw [UInt32.lt_iff_toNat_lt, hp] at hlt
      have hi' : i < 31 := by
        rcases Nat.lt_or_ge i 31 with h | h
        · exact h
        · have := Nat.pow_le_pow_right (n := 2) (by decide) h; omega
      obtain ⟨j, r, hr, hij, hj, hrj, hcj, hmin⟩ :=
        ih (i + 1) (p <<< 1) (by omega) (by omega) (shiftLeft_one_toNat hp hi')
      refine ⟨j, r, hr, by omega, hj, hrj, hcj, fun m him hm => ?_⟩
      rcases Nat.lt_or_ge i m with h | h
      · exact hmin m h hm
      · have : m = i := by omega
        subst this; omega
    · rename_i hge
      rw [UInt32.lt_iff_toNat_lt, hp] at hge
      exact ⟨i, p, rfl, Nat.le_refl _, hi, hp, by omega, fun m him _ => him⟩

/-- The normalised capacity: the least power of two not below the request, nor
below 2. -/
theorem normalizeCapacity_eq {c : UInt32} (hc : c.toNat ≤ 2 ^ 31) {fuel : Nat} (hf : 32 ≤ fuel) :
    ∃ k N, normalizeCapacity fuel c = some N ∧ 1 ≤ k ∧ k ≤ 31 ∧ N.toNat = 2 ^ k ∧
      max c.toNat 2 ≤ 2 ^ k ∧ ∀ m, max c.toNat 2 ≤ 2 ^ m → k ≤ m := by
  unfold normalizeCapacity
  obtain ⟨d, hd, hdm⟩ : ∃ d : UInt32, (if c < 2 then 2 else c) = d ∧ d.toNat = max c.toNat 2 := by
    refine ⟨_, rfl, ?_⟩
    simp only [UInt32.lt_iff_toNat_lt, UInt32.toNat_ofNat]
    split <;> simp <;> omega
  have hd31 : d.toNat ≤ 2 ^ 31 := by omega
  have one_le : ∀ m, d.toNat ≤ 2 ^ m → 1 ≤ m := by
    intro m hm
    cases m with
    | zero => simp at hm; omega
    | succ m => omega
  simp only [hd, ← hdm]
  split
  · obtain ⟨j, r, hr, _, hj, hrj, hcj, hmin⟩ :=
      roundUpLoop_eq hd31 fuel 0 1 (by decide) (by omega) rfl
    exact ⟨j, r, hr, one_le j hcj, hj, hrj, hcj, fun m hm => hmin m (Nat.zero_le _) hm⟩
  · -- the request is a power of two already
    rename_i hpow
    have hand : d.toNat &&& (d.toNat - 1) = 0 := by
      have h1 : (1 : UInt32) ≤ d := by
        rw [UInt32.le_iff_toNat_le]; simpa using by omega
      have := congrArg UInt32.toNat (show d &&& (d - 1) = 0 by simpa using hpow)
      rwa [UInt32.toNat_and, UInt32.toNat_sub_of_le _ _ h1] at this
    obtain ⟨k, hk⟩ := (Nat.and_sub_one_eq_zero_iff_isPowerOfTwo (by omega)).mp hand
    refine ⟨k, d, rfl, one_le k (by omega), ?_, hk, by omega, fun m hm => ?_⟩
    · exact (Nat.pow_le_pow_iff_right (by decide)).mp (hk ▸ hd31)
    · exact (Nat.pow_le_pow_iff_right (by decide)).mp (hk ▸ hm)

/-- A ring as `ring_buffer_create` returns it; the slots hold anything. -/
structure RingBuffer.Fresh (rb : RingBuffer σ) : Prop where
  wf : rb.WF
  head : rb.head = 0
  tail : rb.tail = 0
  dropped : rb.dropped = 0

theorem RingBuffer.Fresh.holds {rb : RingBuffer σ} (h : rb.Fresh) : rb.Holds [] :=
  .empty h.wf (h.head.trans h.tail.symm)

theorem ringBufferCreate_fresh {fuel : Nat} {c N : UInt32} {data : UInt32 → Option (Nat → σ)}
    {control : Bool} {rb : RingBuffer σ} {k : Nat} (hN : normalizeCapacity fuel c = some N)
    (hk1 : 1 ≤ k) (hk : k ≤ 31) (hNk : N.toNat = 2 ^ k)
    (h : ringBufferCreate fuel c control data = some (some rb)) :
    rb.Fresh ∧ rb.capacity = N := by
  have hN0 : 0 < N.toNat := by rw [hNk]; exact Nat.two_pow_pos k
  unfold ringBufferCreate at h
  rw [hN] at h
  simp only [Option.map_some, Option.some.injEq] at h
  split at h
  · cases h
  · obtain ⟨buffer, _, rfl⟩ := Option.map_eq_some_iff.mp h
    exact ⟨⟨⟨⟨k, hk1, hk, hNk⟩, rfl, hN0, hN0⟩, rfl, rfl, rfl⟩, rfl⟩

/-! ## Requests above `2^31` -/

/-- Past `2^31` the shift leaves nothing: from 0 on the loop turns in place. -/
theorem roundUpLoop_none {c : UInt32} (hc : 2 ^ 31 < c.toNat) (fuel : Nat) (p : UInt32)
    (hp : p = 0 ∨ ∃ i, i ≤ 31 ∧ p.toNat = 2 ^ i) : roundUpLoop fuel p c = none := by
  induction fuel generalizing p with
  | zero => rfl
  | succ fuel ih =>
    have hle : p.toNat ≤ 2 ^ 31 := by
      rcases hp with rfl | ⟨i, hi, hp⟩
      · exact Nat.zero_le _
      · rw [hp]
        exact Nat.pow_le_pow_right (by decide) hi
    rw [roundUpLoop, if_pos (by rw [UInt32.lt_iff_toNat_lt]; omega)]
    refine ih (p <<< 1) ?_
    rcases hp with rfl | ⟨i, hi, hp⟩
    · exact .inl rfl
    · rcases Nat.lt_or_ge i 31 with hlt | hge
      · exact .inr ⟨i + 1, hlt, shiftLeft_one_toNat hp hlt⟩
      · obtain rfl : i = 31 := by omega
        obtain rfl : p = 0x80000000 := UInt32.toNat_inj.mp hp
        exact .inl rfl

theorem normalizeCapacity_none {c : UInt32} (hc : 2 ^ 31 < c.toNat) (fuel : Nat) :
    normalizeCapacity fuel c = none := by
  have h1 : (1 : UInt32) ≤ c := by
    rw [UInt32.le_iff_toNat_le, UInt32.toNat_one]
    omega
  have hlow : ¬ c < 2 := by
    rw [UInt32.lt_iff_toNat_lt]
    exact fun h => absurd h (by simp; omega)
  have hpow : c &&& (c - 1) ≠ 0 := by
    intro h
    have hand := congrArg UInt32.toNat h
    rw [UInt32.toNat_and, UInt32.toNat_sub_of_le _ _ h1] at hand
    obtain ⟨k, hk⟩ := (Nat.and_sub_one_eq_zero_iff_isPowerOfTwo (by omega)).mp hand
    -- there is no power of two above `2^31` in 32 bits
    have hlt := c.toNat_lt
    rw [hk] at hc hlt
    have hlow := (Nat.pow_lt_pow_iff_right (by decide)).mp hc
    have hhigh := (Nat.pow_lt_pow_iff_right (by decide)).mp hlt
    omega
  unfold normalizeCapacity
  simp only [if_neg hlow]
  rw [if_pos (by simpa using hpow)]
  exact roundUpLoop_none hc fuel 1 (.inr ⟨0, by decide, rfl⟩)

/-- Creation comes to an end, in a NULL or in a ring with a power-of-two capacity that
is not below the request, whatever the allocations do. -/
def Delivers (σ : Type) (c : UInt32) : Prop :=
  ∃ fuel, ∀ (control : Bool) (data : UInt32 → Option (Nat → σ)),
    ∃ r, ringBufferCreate fuel c control data = some r ∧
      ∀ rb, r = some rb → (∃ k, rb.capacity.toNat = 2 ^ k) ∧ c.toNat ≤ rb.capacity.toNat

theorem not_delivers {c : UInt32} (hc : 2 ^ 31 < c.toNat) : ¬ Delivers σ c := by
  intro h
  obtain ⟨fuel, h⟩ := h
  obtain ⟨r, hr, _⟩ := h false fun _ => none
  rw [ringBufferCreate, normalizeCapacity_none hc] at hr
  cases hr

/-- The rounding loop ends, and with it creation, exactly for the requests up to `2^31`. -/
theorem delivers_iff (c : UInt32) : Delivers σ c ↔ c.toNat ≤ 2 ^ 31 := by
  constructor
  · intro h
    by_contra hc
    exact not_delivers (Nat.lt_of_not_le hc) h
  · intro hc
    obtain ⟨k, N, hN, hk1, hk, hNk, hle, _⟩ := normalizeCapacity_eq hc (Nat.le_refl 32)
    refine ⟨32, ?_⟩
    intro control data
    have hsome : ∃ r, ringBufferCreate 32 c control data = some r := by
      rw [ringBufferCreate, hN]
      exact ⟨_, rfl⟩
    obtain ⟨r, hr⟩ := hsome
    refine ⟨r, hr, ?_⟩
    intro rb hrb
    subst hrb
    obtain ⟨_, hcap⟩ := ringBufferCreate_fresh hN hk1 hk hNk hr
    rw [hcap, hNk]
    exact ⟨⟨k, rfl⟩, by omega⟩

/-- For a request of `2^31 + 1` the loop is still running after any number of rounds. -/
theorem rounding_never_ends :
    (∀ fuel, normalizeCapacity fuel 0x80000001 = none) ∧ ¬ Delivers AdcSample 0x80000001 :=
  ⟨fun fuel => normalizeCapacity_none (by decide) fuel, not_delivers (by decide)⟩

/-! ## The rings of the pipeline -/

/-- A ring of the size `buffer_manager_init` asks for, as created. -/
def pipelineRing : RingBuffer AdcSample :=
  { head := 0, tail := 0, capacity := ringBufferSize, mask := ringBufferSize - 1
    buffer := fun _ => default, dropped := 0 }

theorem pipelineRing_fresh : pipelineRing.Fresh :=
  ⟨⟨⟨14, by decide, by decide, by decide⟩, by decide, by decide, by decide⟩, rfl, rfl, rfl⟩

end FastRing

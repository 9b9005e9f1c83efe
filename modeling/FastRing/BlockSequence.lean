import FastRing.Framing

/-! # The sequence numbers of the blocks

The worker leaves the sequence number of a block to the client, and the client, which
has a counter for it, sends the block as it is. Every header says 0. A receiver finds
the numbers 0, 1, 2, ... only as long as there is no second block.

A block can count as transmitted once it is given to the client, or only when the OS
took it as a whole; the results are for both readings. -/

namespace FastRing

variable {s t : System}

/-- The blocks transmitted, in order: all that the client was given, or only those the
OS took as a `whole`. -/
def transmitted (whole : Bool) (handed : List (DataBlock × AdcError)) : List DataBlock :=
  (handed.filter fun p => !whole || p.2 = .ok).map Prod.fst

/-- The `k`-th block carries the number `k`. -/
def Numbered (blocks : List DataBlock) : Prop :=
  ∀ k b, blocks[k]? = some b → b.sequence.toNat = k % 2 ^ 32

/-- The iteration transmits a block: it has a connection, finds samples, gets a block
from the pool and, for a whole block, the OS takes all of it. -/
def transmits (whole : Bool) (s : System) (env : NetworkEnv) : Prop :=
  canSend s.tcpClient env = true ∧ 0 < (ringBufferCount s.processToNetwork).toNat ∧
    (getBlockFromPool s.pool).1 = true ∧
    (whole = true → TakesAll
      (dataBlockSize + min 256 (ringBufferCount s.processToNetwork).toNat * adcSampleSize) env.send)

/-- No block is transmitted behind another one. -/
def singleBlock (whole : Bool) (s : System) : WorkerStep → Prop
  | .network env => transmits whole s env → transmitted whole s.handed = []
  | _ => True

theorem numbered_nil : Numbered [] := by
  intro k b hb
  cases hb

/-- A list is numbered if it is without its last block, which has the next number. -/
theorem numbered_append {blocks : List DataBlock} (h : Numbered blocks) (b : DataBlock) :
    Numbered (blocks ++ [b]) ↔ b.sequence.toNat = blocks.length % 2 ^ 32 := by
  constructor
  · intro hn
    exact hn blocks.length b List.getElem?_concat_length
  · intro hb k b' hk
    rcases Nat.lt_trichotomy k blocks.length with hlt | heq | hgt
    · rw [List.getElem?_append_left hlt] at hk
      exact h k b' hk
    · rw [heq, List.getElem?_concat_length] at hk
      cases hk
      rw [heq]
      exact hb
    · rw [List.getElem?_eq_none (by simp; omega)] at hk
      cases hk

theorem transmitted_append (whole : Bool) (handed : List (DataBlock × AdcError)) (block : DataBlock)
    (err : AdcError) : transmitted whole (handed ++ [(block, err)]) =
      if whole = true ∧ err ≠ .ok then transmitted whole handed
      else transmitted whole handed ++ [block] := by
  unfold transmitted
  rw [List.filter_append, List.map_append]
  cases whole <;> by_cases he : err = .ok <;> simp [he]

/-- An iteration of the network worker adds one block numbered 0, or none. -/
theorem networkThreadWorker_transmitted (whole : Bool) (hf : s.Filled) (env : NetworkEnv) :
    (transmits whole s env ∧ ∃ b : DataBlock, b.sequence = 0 ∧
        transmitted whole (networkThreadWorker s env).handed = transmitted whole s.handed ++ [b]) ∨
      ¬ transmits whole s env ∧
        transmitted whole (networkThreadWorker s env).handed = transmitted whole s.handed := by
  obtain ⟨q, q', _, hq'⟩ := hf
  unfold transmits
  rw [hq'.count]
  have hcase := networkThreadWorker_cases hq' env
  generalize networkThreadWorker s env = t at hcase
  cases hcase with
  | noClient none =>
    refine .inr ⟨?_, rfl⟩
    rintro ⟨can, _⟩
    rw [none] at can
    cases can
  | refused none =>
    refine .inr ⟨?_, rfl⟩
    rintro ⟨can, _⟩
    rw [none] at can
    cases can
  | empty can ready nil =>
    refine .inr ⟨?_, rfl⟩
    rintro ⟨_, hpos, _⟩
    rw [nil] at hpos
    cases hpos
  | noBlock can ready ne missing =>
    refine .inr ⟨?_, rfl⟩
    rintro ⟨_, _, present, _⟩
    rw [missing] at present
    cases present
  | @sent can client log ready ne present block hb r ends on =>
    have hpos := List.length_pos_iff.mpr ne
    have hlen : block.samples.length = min 256 q'.length := by rw [hb]; simp [fillBlock]
    have hok := ends.ok_iff
    rw [block.bytes_length, hlen] at hok
    rw [transmitted_append]
    by_cases hlost : whole = true ∧ r.err ≠ .ok
    · rw [if_pos hlost]
      exact .inr ⟨fun h => hlost.2 (hok.mpr (h.2.2.2 hlost.1)), rfl⟩
    · rw [if_neg hlost]
      refine .inl ⟨⟨can, hpos, present, fun hw => ?_⟩, block, by rw [hb]; rfl, rfl⟩
      by_contra hno
      exact hlost ⟨hw, mt hok.mp hno⟩

/-- What the steps of a run with at most one block keep. -/
structure AtMostOne (whole : Bool) (s : System) : Prop where
  filled : s.Filled
  le_one : (transmitted whole s.handed).length ≤ 1

theorem AtMostOne.step {whole : Bool} {l : WorkerStep} (h : AtMostOne whole s)
    (hok : singleBlock whole s l) (hs : s.step l = some t) : AtMostOne whole t := by
  refine ⟨step_filled h.filled hs, ?_⟩
  cases l with
  | sample x => cases hs; exact h.le_one
  | process =>
    cases hs
    obtain ⟨q, q', hq, hq'⟩ := h.filled
    rw [processThreadWorker_eq hq hq' rfl rfl]
    exact h.le_one
  | network env =>
    cases hs
    rcases networkThreadWorker_transmitted whole h.filled env with ⟨hsends, b, _, heq⟩ | ⟨_, heq⟩
    · rw [heq, hok hsends]
      exact Nat.le_refl 1
    · rw [heq]
      exact h.le_one

/-- From a state with at most one block, all of them numbered, exactly the steps that
transmit no second one lead to such states. -/
theorem numbered_step_iff {whole : Bool} (h : AtMostOne whole s)
    (hn : Numbered (transmitted whole s.handed)) (l : WorkerStep) :
    (∀ t, s.step l = some t → Numbered (transmitted whole t.handed)) ↔ singleBlock whole s l := by
  cases l with
  | sample x =>
    refine ⟨fun _ => trivial, fun _ t ht => ?_⟩
    cases ht
    exact hn
  | process =>
    refine ⟨fun _ => trivial, fun _ t ht => ?_⟩
    cases ht
    obtain ⟨q, q', hq, hq'⟩ := h.filled
    rw [processThreadWorker_eq hq hq' rfl rfl]
    exact hn
  | network env =>
    simp only [System.step, Option.some.injEq, forall_eq', singleBlock]
    rcases networkThreadWorker_transmitted whole h.filled env with ⟨hsends, b, hb, heq⟩ | ⟨hno, heq⟩
    · rw [heq, numbered_append hn, hb, ← List.length_eq_zero_iff]
      have hle := h.le_one
      rw [Nat.mod_eq_of_lt (by omega)]
      exact ⟨fun hzero _ => hzero.symm, fun hzero => (hzero hsends).symm⟩
    · rw [heq]
      exact ⟨fun _ hsends => absurd hsends hno, fun _ => hn⟩

/-- The blocks are numbered 0, 1, 2, ... in every state of a run exactly when no block
of it is transmitted behind another one. -/
theorem numbered_iff_single (whole : Bool) (c2p p2n : RingBuffer AdcSample) (h : c2p.Fresh)
    (h' : p2n.Fresh) (allocated : Nat → Bool) (ls : List WorkerStep) :
    Runs.AllStates System.step (fun s => Numbered (transmitted whole s.handed))
        (System.init c2p p2n allocated) ls ↔
      Runs.AllSteps System.step (singleBlock whole) (System.init c2p p2n allocated) ls :=
  Runs.allStates_iff (I := AtMostOne whole) (fun _ _ _ hi hok hs => hi.step hok hs)
    (fun _ l hi hn => numbered_step_iff hi hn l) ls
    ⟨⟨[], [], h.holds, h'.holds⟩, Nat.zero_le 1⟩ numbered_nil

/-- One block, which is numbered as it should be. -/
theorem numbered_one_block :
    Runs.AllStates System.step (fun s => Numbered (transmitted true s.handed))
      (System.init pipelineRing pipelineRing fun _ => true) (oneSample fun _ => .accepted 100) := by
  refine (numbered_iff_single true _ _ pipelineRing_fresh pipelineRing_fresh _ _).mpr ?_
  refine ⟨trivial, ?_⟩
  rintro _ ⟨⟩
  refine ⟨trivial, ?_⟩
  rintro _ ⟨⟩
  exact ⟨fun _ => rfl, fun _ _ => trivial⟩

/-- Two blocks go out whole, and the second carries the number of the first. -/
theorem second_block_unnumbered : ∃ s : System,
    Runs.run System.step (System.init pipelineRing pipelineRing fun _ => true)
      (oneSample (fun _ => .accepted 100) ++ oneSample fun _ => .accepted 100) = some s ∧
    ∀ whole, ¬ Numbered (transmitted whole s.handed) := by
  have hrun : ∃ s : System, Runs.run System.step (System.init pipelineRing pipelineRing fun _ => true)
      (oneSample (fun _ => .accepted 100) ++ oneSample fun _ => .accepted 100) = some s ∧
      ∀ whole, (transmitted whole s.handed)[1]?.map DataBlock.sequence = some 0 := by
    refine ⟨_, rfl, ?_⟩
    intro whole
    cases whole <;> rfl
  obtain ⟨s, hs, hblock⟩ := hrun
  refine ⟨s, hs, ?_⟩
  intro whole hn
  obtain ⟨b, hb, hseq⟩ := Option.map_eq_some_iff.mp (hblock whole)
  have := hn 1 b hb
  rw [hseq] at this
  cases this

end FastRing

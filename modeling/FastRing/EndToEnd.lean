import FastRing.PipelineInvariant
import FastRing.Pools
import FastRing.SampleLoss

/-! # Order and loss across the pipeline

The blocks handed to `tcp_client_send_data_block` carry the generated samples in
order, each at most once and unchanged, and the sequence numbers tell how many
samples were refused between two of them. -/

namespace FastRing.Pipeline

variable {s t : Pipeline}

/-- The network thread loses samples only when the pool lacks a block. -/
theorem networkStep_frame {env : NetworkEnv} (h : s.networkStep env = some t) :
    t.generated = s.generated ∧ t.sequence = s.sequence ∧
      t.pool.allocated = s.pool.allocated ∧
      ((∀ i, i < 16 → s.pool.allocated i = true) → t.unsent = s.unsent) := by
  cases networkStep_move h with
  | noClient | connect | start | pop | takeOver | fill | send | count =>
    exact ⟨rfl, rfl, rfl, fun _ => rfl⟩
  | lose _ absent =>
    rw [getBlockFromPool_eq] at absent
    exact ⟨rfl, rfl, rfl, fun hall => absurd (hall _ (nextBlock_lt s.pool.index)) absent⟩

/-! ## Sequence numbers -/

/-- The samples of a session are numbered from 0 on, and none is lost for want of a
block. -/
structure Numbered (s : Pipeline) : Prop where
  next : s.sequence = UInt32.ofNat s.generated.length
  numbers : s.generated.map AdcSample.sequence = (List.range s.generated.length).map UInt32.ofNat
  allocated : ∀ i, i < 16 → s.pool.allocated i = true
  unsent : s.unsent = []

theorem step_numbered (hn : Numbered s) {l : Label} (h : s.step l = some t) : Numbered t := by
  cases l with
  | capture currentTime value =>
    have h : s.capture currentTime value = some t := h
    unfold capture at h
    split at h
    case h_2 => cases h
    cases h
    refine ⟨?_, ?_, hn.allocated, hn.unsent⟩
    · simp [hn.next, UInt32.ofNat_add]
    · simp [List.range_succ, hn.numbers, makeSample, hn.next]
  | callback =>
    obtain ⟨c2p, stats, rfl⟩ := callbackStep_frame h
    exact ⟨hn.next, hn.numbers, hn.allocated, hn.unsent⟩
  | process =>
    obtain ⟨c2p, p2n, stats, rfl, _⟩ := processStep_frame h
    exact ⟨hn.next, hn.numbers, hn.allocated, hn.unsent⟩
  | network env =>
    obtain ⟨hg, hs, hp, hu⟩ := networkStep_frame h
    exact ⟨by rw [hg, hs]; exact hn.next, by rw [hg]; exact hn.numbers,
      by rw [hp]; exact hn.allocated, (hu hn.allocated).trans hn.unsent⟩

/-- In a session of at most `2 ^ 32` samples the numbers do not wrap. -/
theorem Numbered.toNat (hn : Numbered s) (hlen : s.generated.length < 2 ^ 32) :
    s.generated.map (fun x => x.sequence.toNat) = List.range s.generated.length := by
  have h := congrArg (List.map UInt32.toNat) hn.numbers
  rw [List.map_map, List.map_map] at h
  refine Eq.trans h ?_
  refine (List.map_congr_left fun i hi => ?_).trans (List.map_id _)
  have hi := List.mem_range.mp hi
  simp only [Function.comp_apply, UInt32.toNat_ofNat', id_eq]
  exact Nat.mod_eq_of_lt (by omega)

/-- End to end: for any interleaving of the three threads, any clock and any network,
the samples handed over are generated samples in order, unchanged and none twice;
their sequence numbers increase, and the numbers missing between two samples that
follow each other are those of samples refused by the rings. -/
theorem output_order (c2p p2n : RingBuffer AdcSample) (h : c2p.Fresh) (h' : p2n.Fresh)
    (startTime : UInt64) (allocated : Nat → Bool) (hall : ∀ i, i < 16 → allocated i = true)
    (ls : List Label) (s : Pipeline)
    (hr : Runs.run step (init c2p p2n startTime allocated) ls = some s)
    (hlen : s.generated.length < 2 ^ 32) :
    s.output.Sublist s.generated ∧ s.output.Nodup ∧
      (s.output.map fun x => x.sequence.toNat).Pairwise (· < ·) ∧
      ∀ u x y v, s.output = u ++ x :: y :: v →
        y.sequence.toNat - x.sequence.toNat - 1 =
          (s.captureToProcess.refused ++ s.processToNetwork.refused).countP fun z =>
            decide (x.sequence.toNat < z.sequence.toNat ∧ z.sequence.toNat < y.sequence.toNat) := by
  have hinv : Inv s ∧ Numbered s :=
    Runs.invariant (I := fun s => Inv s ∧ Numbered s)
      (fun _ _ _ hi hs => ⟨step_inv hi.1 hs, step_numbered hi.2 hs⟩)
      ⟨init_inv h h' startTime allocated, rfl, rfl, hall, rfl⟩ hr
  obtain ⟨hi, hn⟩ := hinv
  have hnum := hn.toNat hlen
  have hk : s.kept = s.output ++ (s.network.holding ++ s.processToNetwork.line ++
      s.captureToProcess.line) := by
    simp [kept]
  have hmono := hi.ledger.strictMono hnum
  rw [hk, List.map_append] at hmono
  have hout := (List.pairwise_append.mp hmono).1
  refine ⟨?_, ?_, hout, ?_⟩
  · refine List.Sublist.trans ?_ hi.ledger.sub
    rw [hk]
    exact List.sublist_append_left _ _
  · have hne : (s.output.map fun x => x.sequence.toNat).Nodup :=
      hout.imp fun hlt => Nat.ne_of_lt hlt
    exact hne.of_map
  · intro u x y v he
    have hgap := (hi.ledger.gap hnum (u := u) (x := x) (y := y)
      (v := v ++ (s.network.holding ++ s.processToNetwork.line ++ s.captureToProcess.line))
      (by rw [hk, he]; simp)).2
    rw [hgap, dropped, hn.unsent, List.append_nil]

/-- A ring of capacity 2. -/
def tinyRing : RingBuffer AdcSample :=
  { head := 0, tail := 0, capacity := 2, mask := 1, buffer := fun _ => default, dropped := 0 }

theorem tinyRing_fresh : tinyRing.Fresh :=
  ⟨⟨⟨1, by decide, by decide, by decide⟩, by decide, by decide, by decide⟩, rfl, rfl, rfl⟩

/-- A sample through the callback. -/
def sampleRun (k : Nat) : List Label := .capture 0 0 :: List.replicate k .callback

/-- An iteration of the process thread and one of the network thread, for one sample. -/
def moveRun : List Label :=
  List.replicate 13 .process ++ List.replicate 11 (.network (connectingEnv fun _ => .wouldBlock))

/-- Three samples, the second of which the full first ring refuses. -/
def gapRun : List Label := sampleRun 5 ++ sampleRun 3 ++ moveRun ++ sampleRun 5 ++ moveRun

theorem output_order_gap : ∃ s : Pipeline,
    Runs.run step (init tinyRing tinyRing 0 fun _ => true) gapRun = some s ∧
      s.output.Sublist s.generated ∧ s.output.map AdcSample.sequence = [0, 2] ∧
      s.captureToProcess.refused.map AdcSample.sequence = [1] := by
  refine ⟨_, rfl, ?_, rfl, rfl⟩
  exact (output_order tinyRing tinyRing tinyRing_fresh tinyRing_fresh 0 (fun _ => true)
    (fun _ _ => rfl) gapRun _ rfl (by decide)).1

end FastRing.Pipeline

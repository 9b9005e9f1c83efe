import FastRing.Memory

/-! # Nothing is released twice

For every function what it owns before and after, whatever allocations fail. `main` never releases
a block that is not live, a setup that fails leaves nothing behind, and in the end exactly the
blocks of the workers are left: the ADC simulator, the TCP client with its send buffer and the block
pool, however long the program ran. -/

namespace FastRing.Memory

open Ownership

/-! ## What the structures own -/

def RingBlocks.owned (rb : RingBlocks) : Multiset Nat := rb.self ::ₘ (rb.buffer.toList : Multiset Nat)

def ringOwned (rb : Option RingBlocks) : Multiset Nat := rb.elim 0 RingBlocks.owned

def BufferManager.owned (bm : BufferManager) : Multiset Nat :=
  bm.self ::ₘ (ringOwned bm.captureToProcess + (ringOwned bm.processToNetwork + ringOwned bm.networkPool))

def ClientBlocks.owned (client : ClientBlocks) : Multiset Nat :=
  client.self ::ₘ (client.sendBuffer.toList : Multiset Nat)

def clientOwned (client : Option ClientBlocks) : Multiset Nat := client.elim 0 ClientBlocks.owned

def poolOwned (pool : List (Option Nat)) : Multiset Nat := (pool.filterMap id : Multiset Nat)

def adcOwned (adc : Option Nat) : Multiset Nat := (adc.toList : Multiset Nat)

def Held.owned (held : Held) : Multiset Nat :=
  adcOwned held.adc + (clientOwned held.tcpClient + poolOwned (held.pool.getD []))

/-! ## The ring buffers -/

theorem ringBufferCreate_triple : Triple 0 ringBufferCreate fun rb owned => owned = ringOwned rb := by
  refine Triple.alloc_bind (.pure rfl) fun rb => ?_
  refine Triple.alloc_bind ?_ fun buffer => ?_
  · exact Triple.free_bind (.pure rfl)
  · refine .pure ?_
    exact Multiset.cons_swap buffer rb 0

theorem ringBufferDestroy_triple (rb : Option RingBlocks) :
    Triple (ringOwned rb) (ringBufferDestroy rb) fun _ owned => owned = 0 := by
  cases rb with
  | none => exact .pure rfl
  | some rb =>
    obtain ⟨self, buffer⟩ := rb
    cases buffer with
    | none => exact free_triple self
    | some buffer =>
      have hswap : ringOwned (some { self := self, buffer := some buffer }) = buffer ::ₘ {self} :=
        Multiset.cons_swap self buffer 0
      rw [hswap]
      exact Triple.free_bind (free_triple self)

theorem bufferManagerDestroy_triple (bm : BufferManager) :
    Triple bm.owned (bufferManagerDestroy bm) fun _ owned => owned = 0 := by
  have hself : bm.owned = ringOwned bm.captureToProcess +
      (ringOwned bm.processToNetwork + (ringOwned bm.networkPool + {bm.self})) := by
    rw [BufferManager.owned, ← Multiset.singleton_add, add_comm, add_assoc, add_assoc]
  refine (ringBufferDestroy_triple _).frame_bind hself fun _ own ho => ?_
  rw [ho, zero_add]
  refine (ringBufferDestroy_triple _).frame_bind rfl fun _ own ho => ?_
  rw [ho, zero_add]
  refine (ringBufferDestroy_triple _).frame_bind rfl fun _ own ho => ?_
  rw [ho, zero_add]
  exact free_triple bm.self

/-- A manager that comes from `buffer_manager_create`. -/
def BufferManager.fresh (self : Nat) : BufferManager :=
  { self := self, captureToProcess := none, processToNetwork := none, networkPool := none }

theorem bufferManagerCreate_triple :
    Triple 0 bufferManagerCreate fun bm owned =>
      (bm = none ∧ owned = 0) ∨ ∃ self, bm = some (.fresh self) ∧ owned = {self} :=
  Triple.alloc_bind (.pure (.inl ⟨rfl, rfl⟩)) fun self => .pure (.inr ⟨self, rfl, rfl⟩)

/-- From a fresh buffer manager: it owns its rings, those of a failed call included. -/
theorem bufferManagerInit_triple (self : Nat) :
    Triple {self} (bufferManagerInit (.fresh self)) fun r owned => owned = r.2.owned := by
  refine ringBufferCreate_triple.frame_bind (zero_add _).symm fun c2p own ho => ?_
  subst ho
  cases c2p with
  | none => exact .pure (add_comm _ _)
  | some c2p =>
    refine ringBufferCreate_triple.frame_bind (zero_add _).symm fun p2n own ho => ?_
    subst ho
    cases p2n with
    | none =>
      rw [show ringOwned none = 0 from rfl, zero_add]
      refine (ringBufferDestroy_triple _).frame_bind rfl fun _ own ho => ?_
      rw [ho, zero_add]
      exact .pure rfl
    | some p2n =>
      refine ringBufferCreate_triple.frame_bind (zero_add _).symm fun pool own ho => ?_
      subst ho
      cases pool with
      | none =>
        rw [show ringOwned none = 0 from rfl, zero_add, add_left_comm]
        refine (ringBufferDestroy_triple _).frame_bind rfl fun _ own ho => ?_
        rw [ho, zero_add]
        refine (ringBufferDestroy_triple _).frame_bind rfl fun _ own ho => ?_
        rw [ho, zero_add]
        exact .pure rfl
      | some pool =>
        have hall : ringOwned (some pool) + (ringOwned (some p2n) + (ringOwned (some c2p) + {self})) =
            BufferManager.owned { self := self, captureToProcess := some c2p
                                  processToNetwork := some p2n, networkPool := some pool } := by
          simp only [BufferManager.owned, ← Multiset.singleton_add]
          ac_rfl
        exact .pure hall

/-! ## The workers -/

theorem adcSimulatorCreate_triple :
    Triple 0 adcSimulatorCreate fun adc owned => owned = adcOwned adc :=
  Triple.alloc_bind (.pure rfl) fun _ => .pure rfl

theorem adcSimulatorDestroy_triple (adc : Option Nat) :
    Triple (adcOwned adc) (adcSimulatorDestroy adc) fun _ owned => owned = 0 := by
  cases adc with
  | none => exact .pure rfl
  | some adc => exact free_triple adc

theorem tcpClientCreate_triple (acquired : Bool) :
    Triple 0 (tcpClientCreate acquired) fun client owned => owned = clientOwned client := by
  refine Triple.alloc_bind (.pure rfl) fun client => ?_
  refine Triple.alloc_bind ?_ fun sendBuffer => ?_
  · exact Triple.free_bind (.pure rfl)
  · cases acquired with
    | true => exact .pure (Multiset.cons_swap sendBuffer client 0)
    | false => exact Triple.free_bind (Triple.free_bind (.pure rfl))

theorem tcpClientDestroy_triple (client : Option ClientBlocks) :
    Triple (clientOwned client) (tcpClientDestroy client) fun _ owned => owned = 0 := by
  cases client with
  | none => exact .pure rfl
  | some client =>
    obtain ⟨self, sendBuffer⟩ := client
    cases sendBuffer with
    | none => exact free_triple self
    | some sendBuffer =>
      have hswap : clientOwned (some { self := self, sendBuffer := some sendBuffer }) =
          sendBuffer ::ₘ {self} := Multiset.cons_swap self sendBuffer 0
      rw [hswap]
      exact Triple.free_bind (free_triple self)

theorem allocBlocks_triple (n : Nat) :
    Triple 0 (allocBlocks n) fun pool owned => owned = poolOwned pool ∧ pool.length = n := by
  induction n with
  | zero => exact .pure ⟨rfl, rfl⟩
  | succ n ih =>
    refine ih.bind fun pool owned ho => ?_
    refine Triple.alloc_bind (.pure ⟨?_, ?_⟩) fun block => .pure ⟨?_, ?_⟩
    · simp [ho.1, poolOwned]
    · simp [ho.2]
    · rw [ho.1, poolOwned, poolOwned, List.filterMap_append, ← Multiset.coe_add, add_comm,
        ← Multiset.singleton_add]
      rfl
    · simp [ho.2]

/-- The blocks owned are those the workers hold, and a pool has its 16 entries. -/
def Held.Keeps (held : Held) (owned : Multiset Nat) : Prop :=
  owned = held.owned ∧ ∀ pool, held.pool = some pool → pool.length = blockPoolCount

theorem Held.Keeps.card_le {held : Held} {owned : Multiset Nat} (h : held.Keeps owned) :
    owned.card ≤ 3 + blockPoolCount := by
  obtain ⟨adc, client, pool⟩ := held
  have hadc : (adcOwned adc).card ≤ 1 := by cases adc <;> simp [adcOwned]
  have hclient : (clientOwned client).card ≤ 2 := by
    cases client with
    | none => exact Nat.zero_le _
    | some client =>
      obtain ⟨self, sendBuffer⟩ := client
      cases sendBuffer <;> simp [clientOwned, ClientBlocks.owned]
  have hpool : (poolOwned (pool.getD [])).card ≤ blockPoolCount := by
    cases pool with
    | none => exact Nat.zero_le _
    | some pool =>
      rw [← h.2 pool rfl]
      exact List.length_filterMap_le id pool
  rw [h.1, Held.owned, Multiset.card_add, Multiset.card_add]
  dsimp only
  omega

theorem captureThreadWorker_triple {held : Held} {owned : Multiset Nat} (h : held.Keeps owned) :
    Triple owned (captureThreadWorker held) Held.Keeps := by
  obtain ⟨rfl, hpool⟩ := h
  obtain ⟨adc, client, pool⟩ := held
  cases adc with
  | some adc => exact .pure ⟨rfl, hpool⟩
  | none =>
    refine adcSimulatorCreate_triple.frame_bind rfl fun adc own ho => ?_
    rw [ho]
    exact .pure ⟨rfl, hpool⟩

theorem getBlockFromPool_triple {held : Held} {owned : Multiset Nat} (h : held.Keeps owned) :
    Triple owned (getBlockFromPool held) Held.Keeps := by
  obtain ⟨rfl, hpool⟩ := h
  obtain ⟨adc, client, pool⟩ := held
  cases pool with
  | some pool => exact .pure ⟨rfl, hpool⟩
  | none =>
    refine (allocBlocks_triple blockPoolCount).frame_bind (zero_add _).symm fun pool own ho => ?_
    refine .pure ⟨?_, fun _ he => Option.some.inj he ▸ ho.2⟩
    rw [ho.1]
    simp only [Held.owned, Option.getD_none, Option.getD_some]
    rw [show poolOwned [] = 0 from rfl, add_zero]
    ac_rfl

theorem getOrCreateClient_triple {held : Held} {owned : Multiset Nat} (h : held.Keeps owned)
    (acquired : Bool) : Triple owned (getOrCreateClient held acquired) Held.Keeps := by
  obtain ⟨rfl, hpool⟩ := h
  obtain ⟨adc, client, pool⟩ := held
  cases client with
  | some client => exact .pure ⟨rfl, hpool⟩
  | none =>
    refine (tcpClientCreate_triple acquired).frame_bind (zero_add _).symm fun client own ho => ?_
    refine .pure ⟨?_, hpool⟩
    rw [ho]
    simp only [Held.owned]
    rw [show clientOwned none = 0 from rfl, zero_add]
    ac_rfl

theorem networkThreadWorker_triple {held : Held} {owned : Multiset Nat} (h : held.Keeps owned)
    (acquired toPool : Bool) : Triple owned (networkThreadWorker held acquired toPool) Held.Keeps := by
  refine (getOrCreateClient_triple h acquired).bind fun t owned ht => ?_
  by_cases hpool : (t.tcpClient.isSome && toPool) = true
  · simp only [hpool, if_true]
    exact getBlockFromPool_triple ht
  · simp only [hpool]
    exact .pure ht

theorem iterate_triple (held : Held) (i : Iteration) (owned : Multiset Nat) (h : held.Keeps owned) :
    Triple owned (iterate held i) Held.Keeps := by
  cases i with
  | capture => exact captureThreadWorker_triple h
  | network acquired toPool => exact networkThreadWorker_triple h acquired toPool

/-! ## The program -/

/-- What is left when `main` returns. -/
structure Exit.Leaves (e : Exit) (owned : Multiset Nat) : Prop where
  held : e.held.Keeps owned
  setup : e.started = false → e.code = 1 ∧ owned = 0

theorem failedSetup_leaves : Exit.failedSetup.Leaves 0 :=
  ⟨⟨rfl, by rintro _ ⟨⟩⟩, fun _ => ⟨rfl, rfl⟩⟩

theorem threadManagerCreate_triple :
    Triple 0 threadManagerCreate fun tm owned => owned = (tm.toList : Multiset Nat) :=
  Triple.alloc_bind (.pure rfl) fun _ => .pure rfl

theorem main_triple (startOk : Bool) (iterations between after : List Iteration) :
    Triple 0 (main startOk iterations between after) Exit.Leaves := by
  refine bufferManagerCreate_triple.bind fun created owned ho => ?_
  obtain ⟨rfl, rfl⟩ | ⟨self, rfl, rfl⟩ := ho
  · exact .pure failedSetup_leaves
  refine (bufferManagerInit_triple self).bind fun r owned ho => ?_
  obtain ⟨err, bm⟩ := r
  rw [ho]
  by_cases herr : err = .ok
  · simp only [herr, ne_eq, not_true_eq_false, if_false]
    refine threadManagerCreate_triple.frame_bind (zero_add _).symm fun tm own ho => ?_
    rw [ho]
    cases tm with
    | none =>
      refine (bufferManagerDestroy_triple bm).frame_bind (add_comm _ _) fun _ own ho => ?_
      rw [ho]
      exact .pure failedSetup_leaves
    | some tm =>
      have hruns : ∀ (ls : List Iteration) held owned, held.Keeps owned →
          Triple owned (ls.foldlM iterate held) Held.Keeps :=
        fun ls _ _ hheld => Triple.foldlM iterate_triple ls hheld
      have hnothing : Held.nothing.Keeps 0 := ⟨rfl, by rintro _ ⟨⟩⟩
      refine (hruns iterations _ _ hnothing).frame_bind (zero_add _).symm fun held own hheld => ?_
      refine (free_triple tm).frame_bind (add_left_comm _ _ _) fun _ none ho => ?_
      rw [ho, zero_add]
      refine (hruns _ held own hheld).frame_bind rfl fun held own hheld => ?_
      refine (bufferManagerDestroy_triple bm).frame_bind (add_comm _ _) fun _ none ho => ?_
      rw [ho, zero_add]
      refine (hruns _ held own hheld).bind fun held own hheld => ?_
      exact .pure ⟨hheld, by rintro ⟨⟩⟩
  · simp only [herr, ne_eq, not_false_eq_true, if_true]
    exact (bufferManagerDestroy_triple bm).bind fun _ owned ho => ho ▸ .pure failedSetup_leaves

/-- Whatever allocations are refused, `main` comes to its end without releasing a block that is not
live. What is left are the blocks of the workers, at most 19, and none if the setup fails. Had the
ADC simulator and the TCP client been destroyed, only the block pool would be left. -/
theorem main_leaves_workers_blocks (grants : Nat → Bool) (startOk : Bool)
    (iterations between after : List Iteration) :
    ∃ e h, main startOk iterations between after grants .empty = some (e, h) ∧ h.live = e.held.owned ∧
      h.live.card ≤ 19 ∧ (e.started = false → e.code = 1 ∧ h.live = 0) ∧
      ∃ h', (do adcSimulatorDestroy e.held.adc; tcpClientDestroy e.held.tcpClient : Prog Unit)
          grants h = some ((), h') ∧ h'.live = poolOwned (e.held.pool.getD []) := by
  obtain ⟨e, h, hrun, hleaves⟩ := (main_triple startOk iterations between after).run grants
  refine ⟨e, h, hrun, hleaves.held.1, hleaves.held.card_le, hleaves.setup, ?_⟩
  have hdestroy : Triple e.held.owned
      (do adcSimulatorDestroy e.held.adc; tcpClientDestroy e.held.tcpClient)
      fun _ owned => owned = poolOwned (e.held.pool.getD []) := by
    refine (adcSimulatorDestroy_triple _).frame_bind rfl fun _ own ho => ?_
    rw [ho, zero_add]
    refine ((tcpClientDestroy_triple _).frame _).mono fun _ owned ho => ?_
    obtain ⟨own, rfl, rfl⟩ := ho
    exact zero_add _
  obtain ⟨_, h', owned, hrun', ho, hl⟩ := hdestroy grants h 0 (by rw [add_zero]; exact hleaves.held.1)
  rw [add_zero, ho] at hl
  exact ⟨h', hrun', hl⟩

end FastRing.Memory

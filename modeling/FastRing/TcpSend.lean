import FastRing.TcpClient
import Mathlib.Data.List.Basic

/-! # How sending ends

`tcp_client_send_all` ends in one of three ways, and which one depends on the
outcomes of the OS calls alone: all bytes were taken, a call timed out, or a call
failed or took nothing. What was taken is always a beginning of the data, in order;
only the third way marks the client as disconnected. -/

namespace FastRing

open LittleEndian

/-- The bytes the OS took in one `send`, as far as the outcome offers. -/
def SendOutcome.count : SendOutcome → Nat
  | .accepted n => n
  | .wouldBlock => 0
  | .failed => 0

/-- The bytes offered to be taken by the first `k` calls together. -/
def taken (o : Nat → SendOutcome) (k : Nat) : Nat := ((List.range k).map fun i => (o i).count).sum

/-- The first `k` calls all take something. -/
def Flows (o : Nat → SendOutcome) (k : Nat) : Prop := ∀ i, i < k → 0 < (o i).count

/-- The OS takes `len` bytes. -/
def TakesAll (len : Nat) (o : Nat → SendOutcome) : Prop := ∃ k, Flows o k ∧ len ≤ taken o k

/-- The OS takes `m` bytes, fewer than `len`, and then a call ends with `out`. -/
def StopsAt (len m : Nat) (o : Nat → SendOutcome) (out : SendOutcome) : Prop :=
  m < len ∧ ∃ k, Flows o k ∧ taken o k = m ∧ o k = out

theorem taken_succ (o : Nat → SendOutcome) (k : Nat) :
    taken o (k + 1) = (o 0).count + taken (fun i => o (i + 1)) k := by
  simp only [taken, List.range_succ_eq_map, List.map_cons, List.map_map, List.sum_cons]
  rfl

theorem Flows.succ {o : Nat → SendOutcome} {k : Nat} (h0 : 0 < (o 0).count)
    (h : Flows (fun i => o (i + 1)) k) : Flows o (k + 1) := by
  intro i hi
  cases i with
  | zero => exact h0
  | succ i => exact h i (by omega)

theorem TakesAll.succ {o : Nat → SendOutcome} {len : Nat} (h0 : 0 < (o 0).count)
    (h : TakesAll (len - (o 0).count) fun i => o (i + 1)) : TakesAll len o := by
  obtain ⟨k, hf, ht⟩ := h
  exact ⟨k + 1, hf.succ h0, by rw [taken_succ]; omega⟩

theorem StopsAt.succ {o : Nat → SendOutcome} {len m : Nat} {out : SendOutcome}
    (h0 : 0 < (o 0).count) (hle : (o 0).count ≤ len)
    (h : StopsAt (len - (o 0).count) m (fun i => o (i + 1)) out) :
    StopsAt len ((o 0).count + m) o out := by
  obtain ⟨hm, k, hf, ht, ho⟩ := h
  exact ⟨by omega, k + 1, hf.succ h0, by rw [taken_succ, ht], ho⟩

theorem takesAll_zero (o : Nat → SendOutcome) : TakesAll 0 o :=
  ⟨0, fun _ hi => absurd hi (Nat.not_lt_zero _), Nat.le_refl _⟩

theorem taken_mono (o : Nat → SendOutcome) {j k : Nat} (h : j ≤ k) : taken o j ≤ taken o k := by
  induction h with
  | refl => exact Nat.le_refl _
  | step _ ih => exact Nat.le_trans ih (by simp [taken, List.range_succ])

/-- Taking all bytes and stopping before exclude each other. -/
theorem TakesAll.not_stopsAt {o : Nat → SendOutcome} {len m : Nat} {out : SendOutcome}
    (h : TakesAll len o) (hs : StopsAt len m o out) (h0 : out.count = 0) : False := by
  obtain ⟨k, hf, ht⟩ := h
  obtain ⟨hm, j, _, hj, ho⟩ := hs
  rcases Nat.lt_or_ge j k with hlt | hge
  · have := hf j hlt
    rw [ho, h0] at this
    exact Nat.lt_irrefl _ this
  · have := taken_mono o hge
    omega

/-! ## One call -/

/-- The conversions of the length argument keep its last 32 bits and extend their sign. -/
theorem sendLength_eq (len : Nat) :
    (sendLength len).toNat =
      if len % 2 ^ 32 < 2 ^ 31 then len % 2 ^ 32 else 2 ^ 64 - 2 ^ 32 + len % 2 ^ 32 := by
  have h1 : (UInt64.ofNat len).toUInt32.toInt32.toInt = (len : Int).bmod (2 ^ 32) := by simp
  have h2 : (sendLength len).toInt64.toInt = (len : Int).bmod (2 ^ 32) := by
    simp only [sendLength, Int64.toInt64_toUInt64, Int32.toInt_toInt64, h1]
  have h3 : (sendLength len).toInt64.toInt = (sendLength len).toBitVec.toInt := rfl
  have h4 : (sendLength len).toBitVec.toNat = (sendLength len).toNat := rfl
  have hlt := (sendLength len).toNat_lt
  rw [h3, BitVec.toInt_eq_toNat_cond, h4, Int.bmod_def] at h2
  split at h2 <;> split at h2 <;> split <;> omega

/-- Below `2 ^ 31` they change nothing. -/
theorem sendLength_toNat {len : Nat} (h : len < 2 ^ 31) : (sendLength len).toNat = len := by
  have hmod : len % 2 ^ 32 = len := Nat.mod_eq_of_lt (by omega)
  rw [sendLength_eq, hmod, if_pos h]

theorem sendCount_eq {n len : Nat} (h : len < 2 ^ 31) : sendCount n len = min n len := by
  rw [sendCount, sendLength_toNat h]
  omega

/-- The bytes a system call put on its connection. -/
def Syscall.payload : Syscall → List UInt8
  | .send _ _ bytes => bytes
  | _ => []

/-- Only sends on the descriptor `fd`. -/
def SendsOn (fd : Int) (log : List Syscall) : Prop := ∀ c ∈ log, ∃ len bytes, c = .send fd len bytes

theorem SendsOn.append {fd : Int} {log log' : List Syscall} (h : SendsOn fd log)
    (h' : SendsOn fd log') : SendsOn fd (log ++ log') := by
  intro c hc
  rcases List.mem_append.mp hc with hc | hc
  · exact h c hc
  · exact h' c hc

theorem sendsOn_singleton (fd : Int) (len : UInt64) (bytes : List UInt8) :
    SendsOn fd [.send fd len bytes] := by
  intro c hc
  exact ⟨len, bytes, List.mem_singleton.mp hc⟩

/-- How a call that sends `data` on a connected client ended. -/
inductive SendEnd (client : TcpClient) (data : List UInt8) (o : Nat → SendOutcome)
    (r : CallResult) : Prop
  | all (takes : TakesAll data.length o) (err : r.err = .ok) (same : r.client = client)
      (bytes : r.log.flatMap Syscall.payload = data)
  | timeout (m : Nat) (stops : StopsAt data.length m o .wouldBlock) (err : r.err = .errorTimeout)
      (same : r.client = client) (bytes : r.log.flatMap Syscall.payload = data.take m)
  | broken (m : Nat) (out : SendOutcome) (out_eq : out = .failed ∨ out = .accepted 0)
      (stops : StopsAt data.length m o out) (err : r.err = .errorNetwork)
      (client_eq : r.client = { client with connected := false })
      (bytes : r.log.flatMap Syscall.payload = data.take m)

theorem stopsAt_zero {o : Nat → SendOutcome} {len : Nat} (h : 0 < len) : StopsAt len 0 o (o 0) :=
  ⟨h, 0, fun _ hi => absurd hi (Nat.not_lt_zero _), rfl, rfl⟩

/-- A round that takes `k` bytes, followed by the rest. -/
theorem SendEnd.cons {client : TcpClient} {data : List UInt8} {o : Nat → SendOutcome}
    {r : CallResult} {n : Nat} {len : UInt64} (ho : o 0 = .accepted n) (hn : 0 < n)
    (h : SendEnd client (data.drop (min n data.length)) (fun k => o (k + 1)) r) :
    SendEnd client data o { r with
      log := .send client.socketFd len (data.take (min n data.length)) :: r.log } := by
  have hc : (o 0).count = n := by rw [ho]; rfl
  have h0 : 0 < (o 0).count := by rw [hc]; exact hn
  have hlen : (data.drop (min n data.length)).length = data.length - (o 0).count := by
    rw [List.length_drop, hc]; omega
  cases h with
  | all takes err same bytes =>
    rw [hlen] at takes
    refine .all (takes.succ h0) err same ?_
    rw [List.flatMap_cons, bytes]
    exact List.take_append_drop _ _
  | timeout m stops err same bytes =>
    rw [hlen] at stops
    have hle : n ≤ data.length := by have := stops.1; omega
    refine .timeout _ (stops.succ h0 (by omega)) err same ?_
    rw [List.flatMap_cons, bytes, hc, Nat.min_eq_left hle]
    exact (List.take_add).symm
  | broken m out out_eq stops err client_eq bytes =>
    rw [hlen] at stops
    have hle : n ≤ data.length := by have := stops.1; omega
    refine .broken _ out out_eq (stops.succ h0 (by omega)) err client_eq ?_
    rw [List.flatMap_cons, bytes, hc, Nat.min_eq_left hle]
    exact (List.take_add).symm

/-! ## The loop -/

/-- What one round of the loop does: it ends with nothing left, or with a call that
takes nothing, or goes on with what the call left. -/
inductive SendRound (fuel : Nat) (client : TcpClient) (data : List UInt8) (o : Nat → SendOutcome) :
    CallResult → Prop
  | finished (nil : data = []) : SendRound fuel client data o ⟨.ok, client, []⟩
  | timeout (some : data ≠ []) (out : o 0 = .wouldBlock) :
      SendRound fuel client data o
        ⟨.errorTimeout, client, [.send client.socketFd (sendLength data.length) []]⟩
  | broken (some : data ≠ [])
      (out : o 0 = .failed ∨ ∃ n, o 0 = .accepted n ∧ sendCount n data.length = 0) :
      SendRound fuel client data o ⟨.errorNetwork, { client with connected := false },
        [.send client.socketFd (sendLength data.length) []]⟩
  | more (some : data ≠ []) (n : Nat) (out : o 0 = .accepted n) (pos : 0 < sendCount n data.length)
      (rest : CallResult) (rest_eq : rest = sendAllLoop fuel client
        (data.drop (sendCount n data.length)) fun k => o (k + 1)) :
      SendRound fuel client data o { rest with
        log := .send client.socketFd (sendLength data.length)
          (data.take (sendCount n data.length)) :: rest.log }

theorem sendAllLoop_round {client : TcpClient} (hc : client.connected = true) (fuel : Nat)
    (data : List UInt8) (o : Nat → SendOutcome) :
    SendRound fuel client data o (sendAllLoop (fuel + 1) client data o) := by
  by_cases hd : data = []
  · subst hd
    exact .finished rfl
  · have hemp : data.isEmpty = false := by simpa using hd
    cases ho : o 0 with
    | wouldBlock =>
      simp only [sendAllLoop, tcpClientSend, hemp, hc, ho]
      exact .timeout hd ho
    | failed =>
      simp only [sendAllLoop, tcpClientSend, hemp, hc, ho]
      exact .broken hd (.inl ho)
    | accepted n =>
      by_cases hn : sendCount n data.length = 0
      · simp only [sendAllLoop, tcpClientSend, hemp, hc, ho, hn]
        exact .broken hd (.inr ⟨n, ho, hn⟩)
      · have hround : sendAllLoop (fuel + 1) client data o =
            { sendAllLoop fuel client (data.drop (sendCount n data.length)) fun k => o (k + 1) with
              log := .send client.socketFd (sendLength data.length)
                (data.take (sendCount n data.length)) ::
                (sendAllLoop fuel client (data.drop (sendCount n data.length))
                  fun k => o (k + 1)).log } := by
          simp [sendAllLoop, tcpClientSend, hemp, hc, ho, hn]
        rw [hround]
        exact .more hd n ho (Nat.pos_of_ne_zero hn) _ rfl

/-- The loop ends within as many rounds as there are bytes, in one of the three ways,
and uses the client's descriptor only. -/
theorem sendAllLoop_spec {client : TcpClient} (hc : client.connected = true) {fuel : Nat}
    {data : List UInt8} {o : Nat → SendOutcome} (hl : data.length < 2 ^ 31)
    (hf : data.length ≤ fuel) :
    SendEnd client data o (sendAllLoop fuel client data o) ∧
      SendsOn client.socketFd (sendAllLoop fuel client data o).log := by
  induction fuel generalizing data o with
  | zero =>
    obtain rfl : data = [] := List.length_eq_zero_iff.mp (by omega)
    exact ⟨.all (takesAll_zero o) rfl rfl rfl, nofun⟩
  | succ fuel ih =>
    have hround := sendAllLoop_round hc fuel data o
    generalize sendAllLoop (fuel + 1) client data o = r at hround
    cases hround with
    | finished nil =>
      subst nil
      exact ⟨.all (takesAll_zero o) rfl rfl rfl, nofun⟩
    | timeout some out =>
      have hstop := stopsAt_zero (o := o) (List.length_pos_iff.mpr some)
      rw [out] at hstop
      exact ⟨.timeout 0 hstop rfl rfl rfl, sendsOn_singleton _ _ _⟩
    | broken some out =>
      have hstop := stopsAt_zero (o := o) (List.length_pos_iff.mpr some)
      refine ⟨.broken 0 (o 0) ?_ hstop rfl rfl rfl, sendsOn_singleton _ _ _⟩
      rcases out with out | ⟨n, out, hn⟩
      · exact .inl out
      · have hpos := List.length_pos_iff.mpr some
        rw [sendCount_eq hl] at hn
        obtain rfl : n = 0 := by omega
        exact .inr out
    | more some n out pos rest rest_eq =>
      rw [sendCount_eq hl] at pos rest_eq ⊢
      have hlen := List.length_drop (i := min n data.length) (l := data)
      have hl' : (data.drop (min n data.length)).length < 2 ^ 31 := by omega
      obtain ⟨hend, hon⟩ := ih (o := fun k => o (k + 1)) hl' (by omega)
      rw [← rest_eq] at hend hon
      exact ⟨hend.cons out (by omega), (sendsOn_singleton _ _ _).append hon⟩

/-- `tcp_client_send_all` of some bytes on a connected client. -/
theorem tcpClientSendAll_spec {client : TcpClient} (hc : client.connected = true)
    {data : List UInt8} (o : Nat → SendOutcome) (h0 : data ≠ []) (hl : data.length < 2 ^ 31) :
    SendEnd client data o (tcpClientSendAll client data o) ∧
      SendsOn client.socketFd (tcpClientSendAll client data o).log := by
  have hemp : data.isEmpty = false := by simpa using h0
  simp only [tcpClientSendAll, hemp, hc]
  exact sendAllLoop_spec hc hl (Nat.le_refl _)

/-- A connected client. -/
def connectedClient : TcpClient :=
  { config := tcpConfigGetDefault, socketFd := 3, connected := true, blockSequence := 0 }

/-- The result tells whether the OS took all bytes. -/
theorem SendEnd.ok_iff {client : TcpClient} {data : List UInt8} {o : Nat → SendOutcome}
    {r : CallResult} (h : SendEnd client data o r) : r.err = .ok ↔ TakesAll data.length o := by
  cases h with
  | all takes err => exact ⟨fun _ => takes, fun _ => err⟩
  | timeout m stops err =>
    rw [err]
    exact ⟨nofun, fun ht => (ht.not_stopsAt stops rfl).elim⟩
  | broken m out out_eq stops err =>
    rw [err]
    refine ⟨nofun, fun ht => (ht.not_stopsAt stops ?_).elim⟩
    rcases out_eq with rfl | rfl <;> rfl

/-! ## Blocks -/

theorem AdcSample.bytes_length (s : AdcSample) : s.bytes.length = adcSampleSize := by
  simp [AdcSample.bytes, leBytes_length, adcSampleSize]

theorem DataBlock.bytes_length (b : DataBlock) :
    b.bytes.length = dataBlockSize + b.samples.length * adcSampleSize := by
  have h : ∀ xs : List AdcSample, (xs.flatMap AdcSample.bytes).length = xs.length * adcSampleSize := by
    intro xs
    induction xs with
    | nil => rfl
    | cons x xs ih =>
      rw [List.flatMap_cons, List.length_append, ih, AdcSample.bytes_length, List.length_cons,
        Nat.succ_mul, Nat.add_comm]
  simp only [DataBlock.bytes, List.length_append, leBytes_length, h, dataBlockSize]

/-- Sending a block whose header tells the number of its samples. -/
theorem tcpClientSendDataBlock_spec {client : TcpClient} (hc : client.connected = true)
    {block : DataBlock} (o : Nat → SendOutcome) (hn : block.samples.length = block.sampleCount.toNat)
    (hl : block.samples.length ≤ 256) :
    SendEnd client block.bytes o (tcpClientSendDataBlock client block o) ∧
      SendsOn client.socketFd (tcpClientSendDataBlock client block o).log := by
  have hlen := block.bytes_length
  have hpos : block.bytes ≠ [] := by
    intro h0
    rw [h0, dataBlockSize, List.length_nil] at hlen
    omega
  have htake : block.bytes.take (dataBlockSize + block.sampleCount.toNat * adcSampleSize) =
      block.bytes := by
    rw [← hn, ← hlen]; exact List.take_length
  simp only [tcpClientSendDataBlock, htake]
  refine tcpClientSendAll_spec hc o hpos ?_
  rw [hlen, dataBlockSize, adcSampleSize]
  omega

end FastRing

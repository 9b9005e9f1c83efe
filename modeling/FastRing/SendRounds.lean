import FastRing.TcpSend

/-! # What the OS is asked for

Every round of `tcp_client_send_all` offers the OS all that is left of the data, and
goes on where the OS stopped taking. Below `2 ^ 31` bytes this makes the call exact: the
OS gets a beginning of the data, each byte once, and the result says whether that is all
of it. From `2 ^ 31` bytes on the length is cut to an `int` on its way to the OS, and
the OS is asked for nothing at all or for more than there is. -/

namespace FastRing

/-- The calls are sends on `fd`, and each offers what the ones before it left of the
data. -/
inductive Offers (fd : Int) : List UInt8 → List Syscall → Prop
  | done (data : List UInt8) : Offers fd data []
  | send {data : List UInt8} {log : List Syscall} (n : Nat) (some : data ≠ [])
      (rest : Offers fd (data.drop n) log) :
      Offers fd data (.send fd (sendLength data.length) (data.take n) :: log)

namespace Offers

variable {fd : Int} {data : List UInt8} {log : List Syscall}

theorem last (fd : Int) (some : data ≠ []) :
    Offers fd data [.send fd (sendLength data.length) []] :=
  .send 0 some (.done _)

/-- Whatever was taken so far is a beginning of the data. -/
theorem payload (h : Offers fd data log) : log.flatMap Syscall.payload <+: data := by
  induction h with
  | done data => exact List.nil_prefix
  | @send data log n some rest ih =>
    have hsplit := (List.prefix_append_right_inj (data.take n)).mpr ih
    rw [List.take_append_drop] at hsplit
    exact hsplit

theorem take (h : Offers fd data log) (k : Nat) : Offers fd data (log.take k) := by
  induction h generalizing k with
  | done data =>
    rw [List.take_nil]
    exact .done data
  | @send data log n some rest ih =>
    cases k with
    | zero => exact .done data
    | succ k => exact .send n some (ih k)

end Offers

/-- Another round makes no difference once there is one for every byte. -/
theorem sendAllLoop_more (fuel : Nat) (client : TcpClient) {data : List UInt8}
    (o : Nat → SendOutcome) (hf : data.length ≤ fuel) :
    sendAllLoop (fuel + 1) client data o = sendAllLoop fuel client data o := by
  induction fuel generalizing client data o with
  | zero =>
    obtain rfl : data = [] := List.length_eq_zero_iff.mp (by omega)
    rfl
  | succ fuel ih =>
    rw [sendAllLoop.eq_2 _ _ _ (fuel + 1), sendAllLoop.eq_2 _ _ _ fuel]
    generalize tcpClientSend client data (o 0) = call
    obtain ⟨r, sent⟩ := call
    by_cases hsent : sent = 0
    · simp only [hsent, if_true]
    · have hlen := List.length_drop (i := sent) (l := data)
      by_cases hd : data = []
      · simp [hd]
      · have hpos := List.length_pos_iff.mpr hd
        simp only [ih r.client (fun k => o (k + 1)) (show (data.drop sent).length ≤ fuel by omega)]

section Loop

variable {client : TcpClient} (hc : client.connected = true)

include hc

theorem sendAllLoop_offers (fuel : Nat) (data : List UInt8) (o : Nat → SendOutcome) :
    Offers client.socketFd data (sendAllLoop fuel client data o).log := by
  induction fuel generalizing data o with
  | zero => exact .done data
  | succ fuel ih =>
    have hround := sendAllLoop_round hc fuel data o
    generalize sendAllLoop (fuel + 1) client data o = r at hround
    cases hround with
    | finished nil => exact .done data
    | timeout some out => exact .last _ some
    | broken some out => exact .last _ some
    | more some n out pos rest rest_eq =>
      have hrest := ih (data.drop (sendCount n data.length)) fun k => o (k + 1)
      rw [← rest_eq] at hrest
      exact .send _ some hrest

theorem sendAllLoop_log_length {fuel : Nat} {data : List UInt8} (o : Nat → SendOutcome)
    (hf : data.length ≤ fuel) : (sendAllLoop fuel client data o).log.length ≤ data.length := by
  induction fuel generalizing data o with
  | zero => exact Nat.zero_le _
  | succ fuel ih =>
    have hround := sendAllLoop_round hc fuel data o
    generalize sendAllLoop (fuel + 1) client data o = r at hround
    cases hround with
    | finished nil => exact Nat.zero_le _
    | timeout some out => exact List.length_pos_iff.mpr some
    | broken some out => exact List.length_pos_iff.mpr some
    | more some n out pos rest rest_eq =>
      have hlen := List.length_drop (i := sendCount n data.length) (l := data)
      have hpos := List.length_pos_iff.mpr some
      have hf' : (data.drop (sendCount n data.length)).length ≤ fuel := by omega
      have hrest := ih (fun k => o (k + 1)) hf'
      rw [← rest_eq] at hrest
      simp only [List.length_cons]
      omega

end Loop

/-! ## Below `2 ^ 31` bytes -/

/-- What `tcp_client_send_all` of `data` on a connected client makes of the outcomes `o`: in which
way it ends is decided by them, and what else its callers may rely on. -/
structure SendsExactly (client : TcpClient) (data : List UInt8) (o : Nat → SendOutcome)
    (r : CallResult) : Prop where
  outcome : SendEnd client data o r
  ends : ∀ fuel, data.length ≤ fuel → sendAllLoop fuel client data o = r
  calls : r.log.length ≤ data.length
  offers : Offers client.socketFd data r.log
  inOrder : ∀ k, (r.log.take k).flatMap Syscall.payload <+: data
  ok_iff : r.err = .ok ↔ r.log.flatMap Syscall.payload = data
  proper : r.err ≠ .ok → (r.log.flatMap Syscall.payload).length < data.length
  connected_iff : r.client.connected = true ↔ r.err = .ok ∨ r.err = .errorTimeout
  others : r.client = { client with connected := r.client.connected }

theorem SendEnd.exact {client : TcpClient} (hc : client.connected = true) {data : List UInt8}
    {o : Nat → SendOutcome} {r : CallResult} (h : SendEnd client data o r) :
    (r.err = .ok ↔ r.log.flatMap Syscall.payload = data) ∧
      (r.err ≠ .ok → (r.log.flatMap Syscall.payload).length < data.length) ∧
      (r.client.connected = true ↔ r.err = .ok ∨ r.err = .errorTimeout) ∧
      r.client = { client with connected := r.client.connected } := by
  -- a beginning that ends before the data does is not all of it
  have hshort : ∀ m, m < data.length → (data.take m).length < data.length ∧ data.take m ≠ data := by
    intro m hm
    have hlen : (data.take m).length = m := List.length_take_of_le (by omega)
    refine ⟨by omega, ?_⟩
    intro he
    rw [he] at hlen
    omega
  cases h with
  | all takes err same bytes =>
    rw [err, same, hc, bytes]
    exact ⟨by simp, fun h => absurd rfl h, by simp, by rw [← hc]⟩
  | timeout m stops err same bytes =>
    obtain ⟨hlt, hne⟩ := hshort m stops.1
    rw [err, same, hc, bytes]
    exact ⟨by simp [hne], fun _ => hlt, by simp, by rw [← hc]⟩
  | broken m out out_eq stops err client_eq bytes =>
    obtain ⟨hlt, hne⟩ := hshort m stops.1
    rw [err, client_eq, bytes]
    exact ⟨by simp [hne], fun _ => hlt, by simp, rfl⟩

/-- Whatever the OS reports, `tcp_client_send_all` of less than `2 ^ 31` bytes ends, has
put a beginning of the data on the connection, each byte once and in order, and tells
whether that is all of it; it marks the client as disconnected unless all went well or a
call timed out, and changes nothing else of it. -/
theorem send_all_exact {client : TcpClient} (hc : client.connected = true) {data : List UInt8}
    (h0 : data ≠ []) (hl : data.length ≤ 2 ^ 31 - 1) (o : Nat → SendOutcome) :
    SendsExactly client data o (tcpClientSendAll client data o) := by
  have hemp : data.isEmpty = false := by simpa using h0
  have hcall : tcpClientSendAll client data o = sendAllLoop data.length client data o := by
    simp [tcpClientSendAll, hemp, hc]
  have hends : ∀ fuel, data.length ≤ fuel →
      sendAllLoop fuel client data o = sendAllLoop data.length client data o := by
    intro fuel hf
    induction hf with
    | refl => rfl
    | step hf ih => rw [sendAllLoop_more _ client o hf, ih]
  have hoffers := sendAllLoop_offers hc data.length data o
  have hl' : data.length < 2 ^ 31 := by omega
  have hend := (sendAllLoop_spec (o := o) hc hl' (Nat.le_refl _)).1
  obtain ⟨hok, hproper, hconn, hothers⟩ := hend.exact hc
  rw [hcall]
  exact ⟨hend, hends, sendAllLoop_log_length hc o (Nat.le_refl _), hoffers,
    fun k => (hoffers.take k).payload, hok, hproper, hconn, hothers⟩

/-- Five bytes, of which the OS takes three and then none. -/
theorem send_all_exact_cut :
    SendsExactly connectedClient [1, 2, 3, 4, 5] (fun k => .accepted (3 * (1 - k)))
      ⟨.errorNetwork, { connectedClient with connected := false },
        [.send 3 5 [1, 2, 3], .send 3 2 []]⟩ := by
  have hcall : (tcpClientSendAll connectedClient [1, 2, 3, 4, 5] fun k => .accepted (3 * (1 - k))) =
      ⟨.errorNetwork, { connectedClient with connected := false },
        [.send 3 5 [1, 2, 3], .send 3 2 []]⟩ := rfl
  rw [← hcall]
  exact send_all_exact rfl (List.cons_ne_nil _ _) (by decide) _

/-! ## From `2 ^ 31` bytes on -/

/-- Every length the OS is asked for is at least 1 and at most what is left of a buffer
of `n` bytes, of which a call uses up what it moves. -/
def LengthsBounded : Nat → List Syscall → Prop
  | _, [] => True
  | n, .send _ len bytes :: log =>
    (1 ≤ len.toNat ∧ len.toNat ≤ n) ∧ LengthsBounded (n - bytes.length) log
  | n, .recv _ len bytes :: log =>
    (1 ≤ len.toNat ∧ len.toNat ≤ n) ∧ LengthsBounded (n - bytes.length) log
  | n, _ :: log => LengthsBounded n log

/-- The last 32 bits of the length are a positive `int`, or the length is among the last
`2 ^ 31` ones that a `size_t` can hold. -/
def FitsInt (len : Nat) : Prop :=
  0 < len % 2 ^ 32 ∧ len % 2 ^ 32 < 2 ^ 31 ∨ 2 ^ 64 - 2 ^ 31 ≤ len

theorem sendLength_bounded_iff {len : Nat} (h0 : 0 < len) (hl : len < 2 ^ 64) :
    1 ≤ (sendLength len).toNat ∧ (sendLength len).toNat ≤ len ↔ FitsInt len := by
  rw [sendLength_eq, FitsInt]
  have hmod := Nat.div_add_mod len (2 ^ 32)
  have hlt := Nat.mod_lt len (Nat.two_pow_pos 32)
  split
  · omega
  · omega

/-- As long as less than `2 ^ 31` bytes are left, all lengths are right. -/
theorem Offers.bounded {fd : Int} {data : List UInt8} {log : List Syscall} (h : Offers fd data log)
    (hl : data.length < 2 ^ 31) : LengthsBounded data.length log := by
  induction h with
  | done data => trivial
  | @send data log n some rest ih =>
    have hpos := List.length_pos_iff.mpr some
    have hrest := ih (by rw [List.length_drop]; omega)
    refine ⟨?_, ?_⟩
    · rw [sendLength_toNat hl]
      exact ⟨hpos, Nat.le_refl _⟩
    · have hleft : data.length - (data.take n).length = (data.drop n).length := by
        rw [List.length_take, List.length_drop]
        omega
      rw [hleft]
      exact hrest

/-- An OS that takes one byte at a time sees every number of bytes left, `2 ^ 31` among
them. -/
theorem lt_of_bounded {client : TcpClient} (hc : client.connected = true) {fuel : Nat}
    {data : List UInt8} (hf : data.length ≤ fuel)
    (h : LengthsBounded data.length (sendAllLoop fuel client data fun _ => .accepted 1).log) :
    data.length < 2 ^ 31 := by
  induction fuel generalizing data with
  | zero => omega
  | succ fuel ih =>
    have hround := sendAllLoop_round hc fuel data fun _ => .accepted 1
    generalize sendAllLoop (fuel + 1) client data (fun _ => .accepted 1) = r at h hround
    cases hround with
    | finished nil =>
      rw [nil]
      exact Nat.two_pow_pos 31
    | timeout some out => cases out
    | broken some out =>
      exfalso
      rcases out with out | ⟨n, out, hn⟩
      · cases out
      · cases out
        have hpos := List.length_pos_iff.mpr some
        have hlen := h.1.1
        rw [sendCount] at hn
        omega
    | more some n out pos rest rest_eq =>
      cases out
      have hpos := List.length_pos_iff.mpr some
      have hone : sendCount 1 data.length = 1 := by
        unfold sendCount at pos ⊢
        omega
      rw [hone] at h rest_eq
      obtain ⟨hlen, hbound⟩ := h
      have htake : (data.take 1).length = 1 := List.length_take_of_le (by omega)
      have hdrop := List.length_drop (i := 1) (l := data)
      rw [htake, ← hdrop, rest_eq] at hbound
      have hless := ih (by omega) hbound
      -- only `2 ^ 31` itself is left to exclude
      by_contra hge
      have hdata : data.length = 2 ^ 31 := by omega
      rw [hdata, sendLength_eq, if_neg (by decide)] at hlen
      omega

theorem sendAll_bounded_iff {client : TcpClient} (hc : client.connected = true) {data : List UInt8}
    (h0 : data ≠ []) :
    (∀ o, LengthsBounded data.length (tcpClientSendAll client data o).log) ↔
      data.length < 2 ^ 31 := by
  have hemp : data.isEmpty = false := by simpa using h0
  have hcall : ∀ o, tcpClientSendAll client data o = sendAllLoop data.length client data o := by
    intro o
    simp [tcpClientSendAll, hemp, hc]
  constructor
  · intro h
    have hone := h fun _ => .accepted 1
    rw [hcall] at hone
    exact lt_of_bounded hc (Nat.le_refl _) hone
  · intro hl o
    rw [hcall]
    exact (sendAllLoop_offers hc data.length data o).bounded hl

/-- Exactly when the lengths that reach the OS are right, on a connected client: for a
single call, when the length fits an `int`; for a call that goes on until all is sent,
whatever the OS takes on the way, when it is below `2 ^ 31`, which a block is with up to
`2 ^ 27 - 2` samples. -/
theorem lengths_bounded_iff {client : TcpClient} (hc : client.connected = true) :
    (∀ (data : List UInt8) (o : SendOutcome), data ≠ [] → data.length < 2 ^ 64 →
      (LengthsBounded data.length (tcpClientSend client data o).1.log ↔ FitsInt data.length)) ∧
    (∀ (len : Nat) (o : RecvOutcome), 0 < len → len < 2 ^ 64 →
      (LengthsBounded len (tcpClientReceive client len o).1.log ↔ FitsInt len)) ∧
    (∀ data : List UInt8, data ≠ [] →
      ((∀ o, LengthsBounded data.length (tcpClientSendAll client data o).log) ↔
        data.length < 2 ^ 31)) ∧
    ∀ block : DataBlock, block.samples.length = block.sampleCount.toNat →
      ((∀ o, LengthsBounded block.bytes.length (tcpClientSendDataBlock client block o).log) ↔
        block.sampleCount.toNat ≤ 2 ^ 27 - 2) := by
  refine ⟨?_, ?_, fun data h0 => sendAll_bounded_iff hc h0, ?_⟩
  · intro data o h0 hl
    rw [← sendLength_bounded_iff (List.length_pos_iff.mpr h0) hl]
    have hemp : data.isEmpty = false := by simpa using h0
    cases o <;> simp [tcpClientSend, hemp, hc, LengthsBounded]
  · intro len o h0 hl
    rw [← sendLength_bounded_iff h0 hl]
    have hlog : ∃ bytes, (tcpClientReceive client len o).1.log =
        [.recv client.socketFd (sendLength len) bytes] := by
      unfold tcpClientReceive
      rw [if_neg (by omega), hc, if_neg (by decide)]
      cases o with
      | wouldBlock | closed | failed => exact ⟨_, rfl⟩
      | data bytes =>
        simp only
        split
        · exact ⟨_, rfl⟩
        · exact ⟨_, rfl⟩
    obtain ⟨bytes, hlog⟩ := hlog
    rw [hlog]
    simp [LengthsBounded]
  · intro block hn
    have hlen := block.bytes_length
    have hpos : block.bytes ≠ [] := by
      intro h0
      rw [h0, dataBlockSize, List.length_nil] at hlen
      omega
    have htake : block.bytes.take (dataBlockSize + block.sampleCount.toNat * adcSampleSize) =
        block.bytes := by
      rw [← hn, ← hlen]
      exact List.take_length
    simp only [tcpClientSendDataBlock, htake]
    rw [sendAll_bounded_iff hc hpos, hlen, hn, dataBlockSize, adcSampleSize]
    omega

/-- Three bytes, whatever the OS takes at a time. -/
theorem lengths_bounded_three :
    connectedClient.connected = true ∧
      ∀ o, LengthsBounded 3 (tcpClientSendAll connectedClient [1, 2, 3] o).log :=
  ⟨rfl, ((@lengths_bounded_iff connectedClient rfl).2.2.1 [1, 2, 3]
    (List.cons_ne_nil _ _)).mpr (by decide)⟩

/-- `tcp_client_receive` into a buffer of `2 ^ 31` bytes asks the OS for
`2 ^ 64 - 2 ^ 31` bytes, and into one of `2 ^ 32` bytes for none. -/
theorem length_wraps :
    (tcpClientReceive connectedClient (2 ^ 31) .wouldBlock).1.log =
        [.recv 3 18446744071562067968 []] ∧
      ¬ LengthsBounded (2 ^ 31) (tcpClientReceive connectedClient (2 ^ 31) .wouldBlock).1.log ∧
      (tcpClientReceive connectedClient (2 ^ 32) .wouldBlock).1.log = [.recv 3 0 []] ∧
      ¬ LengthsBounded (2 ^ 32) (tcpClientReceive connectedClient (2 ^ 32) .wouldBlock).1.log := by
  have hfirst : (tcpClientReceive connectedClient (2 ^ 31) .wouldBlock).1.log =
      [.recv 3 18446744071562067968 []] := by decide
  have hsecond : (tcpClientReceive connectedClient (2 ^ 32) .wouldBlock).1.log = [.recv 3 0 []] := by
    decide
  refine ⟨hfirst, ?_, hsecond, ?_⟩
  · rw [hfirst]
    intro h
    exact absurd h.1.2 (by decide)
  · rw [hsecond]
    intro h
    exact absurd h.1.1 (by decide)

end FastRing

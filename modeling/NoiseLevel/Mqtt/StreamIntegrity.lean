import NoiseLevel.Core.Pipe
import NoiseLevel.Mqtt.ByteStream
import NoiseLevel.Mqtt.ReadBack

/-!
# The stream is a pipe

Writer, socket and uIP together are a pipe of bytes. The shared buffer is safe because the
writer only touches it when nothing is left to send, and the socket takes away from its
front as much as was outstanding. That takes two conditions: a segment is repeated with the
size that it had, and `memcpy` is right when it copies towards the front of the buffer.
-/

namespace NoiseLevel.Mqtt

open NoiseLevel.Core

/-- How far a write may have come. -/
def WriteOp.Within : WriteOp → ℕ → Prop
  | byte _, _ => True
  | bytes _ len _, pos => pos ≤ len.toNat

namespace Sender

/-- The bytes that the writer has put into the buffer. -/
def accepted (c : Sender) : List UInt8 := c.outBuffer.take c.outBufferPtr

/-- A connection as a pipe. -/
def pipe (c : Sender) : Pipe UInt8 := ⟨c.received, c.outBuffer.take c.outputDataLen ++ c.pending⟩

/-- The invariant between events. -/
structure Sound (c : Sender) : Prop where
  length_outBuffer : c.outBuffer.length = outputBuffSize
  dataLen_le : c.outputDataLen ≤ outputBuffSize
  senddataLen : c.outputSenddataLen = c.outputDataLen
  sendNxt : c.outputDataSendNxt = c.len
  len_le : c.len ≤ c.outputDataLen
  copies : ∀ copy ∈ c.copies, copy = c.outBuffer.take c.len
  copies_eq_nil_iff : c.copies = [] ↔ c.len = 0
  ptr_eq : c.outBufferSent = true → c.outBufferPtr = 0
  sent_iff : c.outBufferSent = true ↔ c.outputDataLen = 0
  within : ∀ op ∈ c.ops.head?, op.Within c.outWritePos

/-- The invariant while a protothread writes. -/
structure Writing (c : Sender) : Prop where
  length_outBuffer : c.outBuffer.length = outputBuffSize
  ptr_le : c.outBufferPtr ≤ outputBuffSize
  dataLen : c.outputDataLen = 0
  senddataLen : c.outputSenddataLen = 0
  sendNxt : c.outputDataSendNxt = 0
  len : c.len = 0
  copies : c.copies = []

variable {c : Sender} {memcpy : Memcpy UInt8}

/-- A protothread writes when everything was sent. -/
theorem Sound.writing (h : c.Sound) (hsent : c.outBufferSent = true) : c.Writing where
  length_outBuffer := h.length_outBuffer
  ptr_le := (h.ptr_eq hsent).trans_le (Nat.zero_le _)
  dataLen := h.sent_iff.mp hsent
  senddataLen := h.senddataLen.trans (h.sent_iff.mp hsent)
  sendNxt := h.sendNxt.trans (Nat.le_zero.mp (h.len_le.trans_eq (h.sent_iff.mp hsent)))
  len := Nat.le_zero.mp (h.len_le.trans_eq (h.sent_iff.mp hsent))
  copies := h.copies_eq_nil_iff.mpr (Nat.le_zero.mp (h.len_le.trans_eq (h.sent_iff.mp hsent)))

/-- `send_out_buffer` hands over what is in the buffer and copies it onto itself. -/
theorem Writing.sendOutBuffer_eq (h : c.Writing) (hmemcpy : memcpy.CopiesDown) :
    c.sendOutBuffer memcpy =
    { c with
      outBufferSent := decide (c.outBufferPtr = 0)
      outputDataLen := c.outBufferPtr
      outputSenddataLen := c.outBufferPtr } := by
  unfold sendOutBuffer
  split_ifs with hptr
  · simp [hptr, ← h.dataLen, h.senddataLen.trans h.dataLen.symm]
  · have hmin : min c.outBufferPtr (outputBuffSize - 0) = c.outBufferPtr := min_eq_left h.ptr_le
    have hcopy : memcpy c.outBuffer 0 0 c.outBufferPtr = c.outBuffer := by
      rw [hmemcpy _ _ _ _ le_rfl (by rw [Nat.zero_add, h.length_outBuffer]; exact h.ptr_le),
        List.drop_zero, overwrite_take]
    simp only [tcpSocketSend, h.dataLen, h.senddataLen, hmin, hcopy, hptr, if_true, Nat.zero_add,
      decide_false]

/-- What is handed over is sound, whatever is left to write. -/
theorem Writing.sound_sendOutBuffer (h : c.Writing) (hmemcpy : memcpy.CopiesDown)
    (ops : List WriteOp) (hwithin : ∀ op ∈ ops.head?, op.Within c.outWritePos) :
    Sound { c.sendOutBuffer memcpy with ops := ops } := by
  rw [h.sendOutBuffer_eq hmemcpy]
  exact {
    length_outBuffer := h.length_outBuffer
    dataLen_le := h.ptr_le
    senddataLen := rfl
    sendNxt := h.sendNxt.trans h.len.symm
    len_le := h.len.trans_le (Nat.zero_le _)
    copies := by simp [h.copies]
    copies_eq_nil_iff := iff_of_true h.copies h.len
    ptr_eq := of_decide_eq_true
    sent_iff := decide_eq_true_iff
    within := hwithin }

/-- What is written next is put into the buffer behind what is there. -/
theorem Writing.write (h : c.Writing) (data : List UInt8)
    (hfits : data.length ≤ outputBuffSize - c.outBufferPtr) (pos : ℕ) :
    Writing { c with
      outBuffer := overwrite c.outBuffer c.outBufferPtr data
      outWritePos := pos
      outBufferPtr := c.outBufferPtr + data.length } ∧
    (overwrite c.outBuffer c.outBufferPtr data).take (c.outBufferPtr + data.length) =
      c.accepted ++ data := by
  have hle := h.ptr_le
  have hlength := h.length_outBuffer
  refine ⟨{ h with length_outBuffer := ?_, ptr_le := ?_ }, take_overwrite (by omega)⟩
  · exact (length_overwrite (by omega)).trans hlength
  · change c.outBufferPtr + data.length ≤ outputBuffSize
    omega

/-- A write that comes to its end. -/
structure Finished (c : Sender) (op : WriteOp) (d : Sender) : Prop where
  writing : d.Writing
  accepted_eq : d.accepted = c.accepted ++ op.rest c.outWritePos
  received_eq : d.received = c.received

/-- A write that fills the buffer and has to go on after it was sent. -/
structure Blocked (c : Sender) (op : WriteOp) (d : Sender) : Prop where
  writing : d.Writing
  ptr_eq : d.outBufferPtr = outputBuffSize
  within : op.Within d.outWritePos
  accepted_eq : d.accepted ++ op.rest d.outWritePos = c.accepted ++ op.rest c.outWritePos
  received_eq : d.received = c.received

/-- A write comes to its end or fills the buffer and hands it over. -/
theorem Writing.attempt (h : c.Writing) {op : WriteOp} (hop : op.Within c.outWritePos) :
    (∃ d, c.attempt memcpy op = (false, d) ∧ Finished c op d) ∨
      ∃ d, c.attempt memcpy op = (true, d.sendOutBuffer memcpy) ∧ Blocked c op d := by
  have hle := h.ptr_le
  cases op with
  | byte data =>
    rw [Sender.attempt, writeByte]
    split_ifs with hfull
    · exact Or.inr ⟨c, rfl, h, by omega, hop, rfl, rfl⟩
    · obtain ⟨hwriting, htake⟩ := h.write [data] (by
        rw [List.length_singleton]
        omega) c.outWritePos
      exact Or.inl ⟨_, rfl, hwriting, htake, rfl⟩
  | bytes data len hlen =>
    have hpos : c.outWritePos ≤ len.toNat := hop
    set n := min (outputBuffSize - c.outBufferPtr) (len.toNat - c.outWritePos) with hn
    have hlength : ((data.drop c.outWritePos).take n).length = n := by
      rw [List.length_take, List.length_drop]
      omega
    have hrest : (data.drop c.outWritePos).take n =
        ((data.take len.toNat).drop c.outWritePos).take n := by
      rw [List.drop_take, List.take_take, min_eq_left (by omega)]
    have hwrite := h.write _ (hlength.trans_le (by omega)) (c.outWritePos + n)
    rw [hlength] at hwrite
    obtain ⟨hwriting, htake⟩ := hwrite
    rw [Sender.attempt, writeBytes, ← hn]
    dsimp only
    split_ifs with hdone
    · refine Or.inl ⟨_, rfl, { hwriting with }, htake.trans ?_, rfl⟩
      rw [hrest, WriteOp.rest, List.take_of_length_le]
      rw [List.length_drop, List.length_take]
      omega
    · refine Or.inr ⟨_, rfl, hwriting, ?_, ?_, ?_, rfl⟩
      · dsimp only
        omega
      · change c.outWritePos + n ≤ len.toNat
        omega
      · change (overwrite _ _ _).take _ ++ (data.take len.toNat).drop (c.outWritePos + n) = _
        rw [htake, hrest, List.append_assoc, ← List.drop_drop, List.take_append_drop]
        rfl

/-- A write that begins has everything to write. -/
theorem Writing.enter (h : c.Writing) (op : WriteOp) : (c.enter op).Writing ∧
    (c.enter op).accepted = c.accepted ∧ (c.enter op).received = c.received ∧
      op.Within (c.enter op).outWritePos ∧ op.rest (c.enter op).outWritePos = op.content := by
  cases op with
  | byte data => exact ⟨h, rfl, rfl, trivial, rfl⟩
  | bytes data len hlen => exact ⟨{ h with }, rfl, rfl, Nat.zero_le _, rfl⟩

/-- A protothread that stops has everything it was given in the buffer or still to write, and
has nothing to write or a full buffer. -/
structure Stopped (received bytes : List UInt8) (d : Sender) : Prop where
  sound : d.Sound
  pipe_eq : d.pipe = ⟨received, bytes⟩
  progress : d.ops = [] ∨ 0 < d.outputDataLen

theorem Blocked.stopped {op : WriteOp} {d : Sender} (h : Blocked c op d)
    (hmemcpy : memcpy.CopiesDown) (ops : List WriteOp) :
    Stopped c.received (c.accepted ++ op.rest c.outWritePos ++ written ops)
      { d.sendOutBuffer memcpy with ops := op :: ops } where
  sound := h.writing.sound_sendOutBuffer hmemcpy _ (by
    intro o ho
    obtain rfl := Option.some.inj ho
    exact h.within)
  pipe_eq := by
    rw [← h.accepted_eq, ← h.received_eq, h.writing.sendOutBuffer_eq hmemcpy,
      List.append_assoc]
    rfl
  progress := by
    rw [h.writing.sendOutBuffer_eq hmemcpy]
    exact Or.inr (h.ptr_eq.trans_gt (Nat.succ_pos _))

/-- A protothread that runs through its writes. -/
theorem Writing.runWrites (h : c.Writing) (hmemcpy : memcpy.CopiesDown) (ops : List WriteOp) :
    Stopped c.received (c.accepted ++ written ops) (runWrites memcpy ops c) := by
  induction ops generalizing c with
  | nil =>
    have hwriting : Writing { c with ops := [] } := { h with }
    have hsound := hwriting.sound_sendOutBuffer hmemcpy [] (by simp)
    rw [hwriting.sendOutBuffer_eq hmemcpy] at hsound
    rw [Sender.runWrites, hwriting.sendOutBuffer_eq hmemcpy]
    exact ⟨hsound, by simp [pipe, pending, accepted], Or.inl rfl⟩
  | cons op ops ih =>
    obtain ⟨henter, haccepted, hreceived, hwithin, hrest⟩ := h.enter op
    rw [Sender.runWrites, written_cons, ← haccepted, ← hreceived, ← hrest, ← List.append_assoc]
    rcases henter.attempt hwithin with ⟨d, hattempt, hd⟩ | ⟨d, hattempt, hd⟩
    · have hstop := ih hd.writing
      rw [hd.accepted_eq, hd.received_eq] at hstop
      rw [hattempt]
      exact hstop
    · rw [hattempt]
      exact hd.stopped hmemcpy ops

/-- A protothread that is run again when everything was sent. -/
theorem Sound.resume (h : c.Sound) (hmemcpy : memcpy.CopiesDown)
    (hsent : c.outBufferSent = true) :
    Stopped c.received c.pending (c.resume memcpy) := by
  have hwriting := h.writing hsent
  have haccepted : c.accepted = [] := by
    rw [accepted, h.ptr_eq hsent, List.take_zero]
  unfold Sender.resume
  cases hops : c.ops with
  | nil =>
    refine ⟨h, ?_, Or.inl hops⟩
    rw [pipe, h.sent_iff.mp hsent, List.take_zero, List.nil_append]
  | cons op ops =>
    have hwithin : op.Within c.outWritePos := h.within op (by rw [hops]; rfl)
    have hpending : c.pending = op.rest c.outWritePos ++ written ops := by
      rw [pending, hops]
    rw [hpending]
    dsimp only
    rw [if_pos hsent]
    rcases hwriting.attempt hwithin with ⟨d, hattempt, hd⟩ | ⟨d, hattempt, hd⟩
    · have hrest := hd.writing.runWrites hmemcpy ops
      rw [hd.accepted_eq, hd.received_eq, haccepted, List.nil_append] at hrest
      rw [hattempt]
      exact hrest
    · have hstop := hd.stopped hmemcpy ops
      rw [haccepted, List.nil_append] at hstop
      rw [hattempt]
      exact hstop

/-- The size of the next segment. -/
def segmentSize (c : Sender) : ℕ := min c.outputDataLen (min c.outputDataMaxSeg c.mss)

/-- `senddata` gives the size of the next segment, also when there is nothing to send. -/
theorem Sound.senddata_eq (h : c.Sound) :
    c.senddata = (c.segmentSize, { c with outputDataSendNxt := c.segmentSize }) := by
  unfold senddata
  split_ifs with hdata
  · rw [h.senddataLen, ← segmentSize]
  · have hzero : c.outputDataLen = 0 := by
      rw [← h.senddataLen]
      omega
    have hsize : c.segmentSize = 0 := Nat.le_zero.mp ((min_le_left _ _).trans_eq hzero)
    have hnxt : c.outputDataSendNxt = 0 :=
      h.sendNxt.trans (Nat.le_zero.mp (h.len_le.trans_eq hzero))
    rw [hsize]
    exact congrArg (fun n => (0, { c with outputDataSendNxt := n })) hnxt

theorem Sound.segmentSize_le (h : c.Sound) : c.segmentSize ≤ c.outBuffer.length := by
  rw [h.length_outBuffer]
  exact (min_le_left _ _).trans h.dataLen_le

/-- Nothing is outstanding, and the next segment leaves. -/
theorem Sound.send_eq (h : c.Sound) (hlen : c.len = 0) (stale : List UInt8) : c.send stale =
    { c with
      outputDataSendNxt := c.segmentSize
      len := c.segmentSize
      copies := if c.segmentSize = 0 then [] else [c.outBuffer.take c.segmentSize] } := by
  have hcopies : c.copies = [] := h.copies_eq_nil_iff.mpr hlen
  rw [send, h.senddata_eq]
  by_cases hsize : c.segmentSize = 0
  · simp [hsize, appsend, transmit, hlen, hcopies]
  · have hpos := Nat.pos_of_ne_zero hsize
    have hmin : min c.segmentSize c.mss = c.segmentSize :=
      min_eq_left ((min_le_right _ _).trans (min_le_right _ _))
    have htake : (c.outBuffer.take c.segmentSize ++ stale).take c.segmentSize =
        c.outBuffer.take c.segmentSize := by
      rw [List.take_append_of_le_length (by rw [List.length_take, min_eq_left h.segmentSize_le]),
        List.take_take, min_self]
    simp [appsend, transmit, hlen, hcopies, hmin, hpos, hsize, htake]

/-- What the next segment changes. -/
theorem Sound.send (h : c.Sound) (hlen : c.len = 0) (stale : List UInt8) :
    (c.send stale).Sound ∧ (c.send stale).pipe = c.pipe := by
  rw [h.send_eq hlen stale]
  refine ⟨{ h with
    sendNxt := rfl
    len_le := min_le_left _ _
    copies := ?_
    copies_eq_nil_iff := ?_ }, rfl⟩
  · intro copy hcopy
    dsimp only at hcopy ⊢
    split_ifs at hcopy
    · exact absurd hcopy List.not_mem_nil
    · exact List.mem_singleton.mp hcopy
  · dsimp only
    split_ifs with hsize
    · exact iff_of_true rfl hsize
    · exact iff_of_false (by simp) hsize

/-- A segment is repeated with the size that it had. -/
def Steady (c : Sender) : Event → Prop
  | .rexmit _ => c.senddata.1 = c.len
  | .segment none true mss _ => c.len = 0 ∨ { c with mss := mss }.senddata.1 = c.len
  | _ => True

instance (c : Sender) : DecidablePred c.Steady
  | .rexmit _ => inferInstanceAs (Decidable (c.senddata.1 = c.len))
  | .segment none true mss _ =>
    inferInstanceAs (Decidable (c.len = 0 ∨ { c with mss := mss }.senddata.1 = c.len))
  | .start _ | .resume | .leave _ | .poll | .segment none false _ _ | .segment (some _) _ _ _ =>
    inferInstanceAs (Decidable True)

/-- A segment that is repeated with its size is repeated as it was. -/
theorem Sound.transmit_eq (h : c.Sound) (hlen : c.len ≠ 0) (hsteady : c.senddata.1 = c.len)
    (stale : List UInt8) : c.senddata.2.transmit c.senddata.1 stale =
      { c with copies := c.copies ++ [c.outBuffer.take c.len] } := by
  have hsame : c.senddata.2 = c := by
    rw [h.senddata_eq] at hsteady ⊢
    exact congrArg (fun n => { c with outputDataSendNxt := n }) (hsteady.trans h.sendNxt.symm)
  have hle : c.len ≤ c.outBuffer.length := by
    rw [h.length_outBuffer]
    exact h.len_le.trans h.dataLen_le
  rw [hsame, hsteady, transmit, if_pos ⟨Nat.pos_of_ne_zero hlen, Nat.pos_of_ne_zero hlen⟩,
    List.take_append_of_le_length (by rw [List.length_take, min_eq_left hle]), List.take_take,
    min_self]

theorem Sound.transmit (h : c.Sound) (hlen : c.len ≠ 0) (hsteady : c.senddata.1 = c.len)
    (stale : List UInt8) : (c.senddata.2.transmit c.senddata.1 stale).Sound ∧
      (c.senddata.2.transmit c.senddata.1 stale).pipe = c.pipe := by
  rw [h.transmit_eq hlen hsteady stale]
  refine ⟨{ h with copies := ?_, copies_eq_nil_iff := ?_ }, rfl⟩
  · intro copy hcopy
    rcases List.mem_append.mp hcopy with hold | hnew
    · exact h.copies copy hold
    · exact List.mem_singleton.mp hnew
  · exact iff_of_false (List.append_ne_nil_of_right_ne_nil _ (List.cons_ne_nil _ _)) hlen

/-- While a segment is outstanding it is sent again. -/
theorem Sound.send_of_outstanding (h : c.Sound) (hlen : c.len ≠ 0) (stale : List UInt8) :
    c.send stale = c.senddata.2.transmit c.senddata.1 stale := by
  rw [Sender.send, appsend, if_neg]
  rw [h.senddata_eq]
  exact fun hboth => hlen hboth.2

/-- As much leaves the front of the buffer as `output_data_send_nxt` tells, and `acked` does not
abort. -/
theorem Sound.acked_of_le (h : c.Sound) (hmemcpy : memcpy.CopiesDown) (hlen : c.len = 0)
    (hpos : 0 < c.outputDataLen) {n : ℕ} (hn : n ≤ c.outputDataLen) :
    ∃ d, Sender.acked memcpy { c with outputDataSendNxt := n } = some d ∧
      d.Sound ∧ d.len = 0 ∧
      d.pipe = ⟨c.received, (c.outBuffer.take c.outputDataLen).drop n ++ c.pending⟩ := by
  have hlength := h.length_outBuffer
  have hmax := h.dataLen_le
  have hshifted : (memcpy c.outBuffer 0 n (outputBuffSize - n)).length = outputBuffSize := by
    rw [← hlength, hmemcpy.length_move_front (by omega)]
  have hfront : (memcpy c.outBuffer 0 n (outputBuffSize - n)).take (c.outputDataLen - n) =
      (c.outBuffer.take c.outputDataLen).drop n := by
    rw [← hlength, hmemcpy.move_front (by omega),
      List.take_append_of_le_length (by rw [List.length_drop]; omega), List.drop_take]
  have hmove : (if 0 < n then { c with
        outputDataSendNxt := n, outBuffer := memcpy c.outBuffer 0 n (outputBuffSize - n) }
      else { c with outputDataSendNxt := n }) = { c with
        outputDataSendNxt := n, outBuffer := memcpy c.outBuffer 0 n (outputBuffSize - n) } := by
    split_ifs with hzero
    · rfl
    · rw [Nat.eq_zero_of_not_pos hzero, ← hlength, hmemcpy.move_front_zero]
  have hrest : c.outputDataLen - n ≤ outputBuffSize := by omega
  have hcopies : c.copies = [] := h.copies_eq_nil_iff.mpr hlen
  rw [Sender.acked, if_pos (h.senddataLen.symm ▸ hpos)]
  dsimp only
  rw [hmove]
  dsimp only
  rw [if_neg (by omega)]
  refine ⟨_, rfl, ?_⟩
  unfold dataSent
  split_ifs with hall
  · exact ⟨{ h with
      length_outBuffer := hshifted
      dataLen_le := hrest
      senddataLen := rfl
      sendNxt := hlen.symm
      len_le := hlen.trans_le (Nat.zero_le _)
      copies := by simp [hcopies]
      copies_eq_nil_iff := iff_of_true hcopies hlen
      ptr_eq := fun _ => rfl
      sent_iff := iff_of_true rfl hall }, hlen,
      congrArg (fun front => Pipe.mk _ (front ++ _)) hfront⟩
  · have hbusy : c.outBufferSent = false := by
      rw [← Bool.not_eq_true, h.sent_iff]
      omega
    exact ⟨{ h with
      length_outBuffer := hshifted
      dataLen_le := hrest
      senddataLen := rfl
      sendNxt := hlen.symm
      len_le := hlen.trans_le (Nat.zero_le _)
      copies := by simp [hcopies]
      copies_eq_nil_iff := iff_of_true hcopies hlen
      sent_iff := iff_of_false (by simp [hbusy]) hall }, hlen,
      congrArg (fun front => Pipe.mk _ (front ++ _)) hfront⟩

/-- A connection whose outstanding segment was just acknowledged. -/
theorem Sound.acknowledge (h : c.Sound) (mss : ℕ) (received : List UInt8) : Sound { c with
    mss := mss, len := 0, outputDataSendNxt := 0, copies := [], received := received } :=
  { h with
    sendNxt := rfl
    len_le := Nat.zero_le _
    copies := by simp
    copies_eq_nil_iff := iff_of_true rfl rfl }

/-- The acknowledged segment leaves the front of the buffer. -/
theorem Sound.acked (h : c.Sound) (hmemcpy : memcpy.CopiesDown) (hlen : c.len ≠ 0)
    {copy : List UInt8} (hcopy : copy ∈ c.copies) (mss : ℕ) : ∃ d, Sender.acked memcpy { c with
        mss := mss, len := 0, copies := [], received := c.received ++ copy } = some d ∧
      d.Sound ∧ d.len = 0 ∧ Pipe.Step c.pipe (.deliver copy) d.pipe := by
  have hle := h.len_le
  obtain rfl := h.copies copy hcopy
  obtain ⟨d, hacked, hsound, hdlen, hpipe⟩ :=
    (h.acknowledge mss (c.received ++ c.outBuffer.take c.len)).acked_of_le hmemcpy rfl
      (show 0 < c.outputDataLen by omega) (h.sendNxt.trans_le hle)
  refine ⟨d, hacked, hsound, hdlen, ?_⟩
  have hwaiting : c.outBuffer.take c.outputDataLen ++ c.pending = c.outBuffer.take c.len ++
      ((c.outBuffer.take c.outputDataLen).drop c.len ++ c.pending) := by
    rw [← List.append_assoc, ← min_eq_left hle, ← List.take_take, min_eq_left hle,
      List.take_append_drop]
  rw [hpipe, pipe, hwaiting, h.sendNxt]
  exact Pipe.Step.deliver _ _ _

/-- What an event is for the pipe. -/
def Event.pipeStep : Event → Option (PipeStep UInt8)
  | .start o => some (.put o.bytes)
  | .leave unwritten => some (.withdraw unwritten)
  | .segment (some copy) _ _ _ => some (.deliver copy)
  | _ => none

/-- An event is a step of the pipe, or nothing to it. -/
def Simulates (c : Sender) (e : Event) (d : Sender) : Prop :=
  match e.pipeStep with
  | some a => Pipe.Step c.pipe a d.pipe
  | none => d.pipe = c.pipe

/-- A protothread that waits for what was sent. -/
theorem Sound.resume_of_not_sent (hsent : ¬ c.outBufferSent = true) : c.resume memcpy = c := by
  unfold Sender.resume
  cases hops : c.ops with
  | nil => rfl
  | cons op ops => exact if_neg hsent

theorem Sound.setMss (h : c.Sound) (mss : ℕ) : Sound { c with mss := mss } := { h with }

/-- The writer gives up what it has not written. -/
theorem Sound.leave (h : c.Sound) : Sound { c with ops := [] } ∧
    Pipe.Step c.pipe (.withdraw c.pending) (pipe { c with ops := [] }) := by
  refine ⟨{ h with within := by simp }, ?_⟩
  have hpipe : pipe { c with ops := [] } = ⟨c.received, c.outBuffer.take c.outputDataLen⟩ :=
    congrArg (Pipe.mk c.received) (List.append_nil _)
  rw [hpipe]
  exact Pipe.Step.withdraw _ _ _

/-- Every event has an effect, which keeps the invariant and is what the pipe does. -/
theorem Sound.next (h : c.Sound) (hmemcpy : memcpy.CopiesDown) {e : Event} (he : c.Enabled e)
    (hsteady : c.Steady e) : ∃ d, c.next memcpy e = some d ∧ d.Sound ∧ c.Simulates e d := by
  cases e with
  | start o =>
    obtain ⟨hsent, hops, hsome⟩ := he
    obtain ⟨ops, ho⟩ := Option.isSome_iff_exists.mp hsome
    obtain ⟨hsound, hpipe, -⟩ := (h.writing hsent).runWrites hmemcpy ops
    refine ⟨_, congrArg (Option.map fun ops => Sender.runWrites memcpy ops c) ho, hsound, ?_⟩
    have hempty : c.pipe = ⟨c.received, []⟩ := by
      rw [pipe, pending, hops, h.sent_iff.mp hsent]
      simp
    rw [Simulates, Event.pipeStep, Outgoing.bytes, ho, hempty]
    rw [accepted, h.ptr_eq hsent, List.take_zero] at hpipe
    dsimp only
    rw [hpipe]
    exact Pipe.Step.put _ _
  | resume =>
    refine ⟨_, rfl, ?_⟩
    by_cases hsent : c.outBufferSent = true
    · obtain ⟨hsound, hpipe, -⟩ := h.resume hmemcpy hsent
      refine ⟨hsound, hpipe.trans ?_⟩
      rw [pipe, h.sent_iff.mp hsent, List.take_zero, List.nil_append]
    · rw [Sound.resume_of_not_sent hsent]
      exact ⟨h, rfl⟩
  | leave unwritten =>
    obtain rfl : unwritten = c.pending := he
    exact ⟨_, rfl, h.leave⟩
  | poll => exact ⟨_, rfl, h.send he []⟩
  | rexmit stale => exact ⟨_, rfl, h.transmit he hsteady stale⟩
  | segment acks newData mss stale =>
    cases acks with
    | none =>
      cases newData with
      | false => exact ⟨_, rfl, h.setMss mss, rfl⟩
      | true =>
        refine ⟨_, rfl, ?_⟩
        by_cases hlen : c.len = 0
        · exact (h.setMss mss).send hlen stale
        · rw [(h.setMss mss).send_of_outstanding hlen stale]
          exact (h.setMss mss).transmit hlen (hsteady.resolve_left hlen) stale
    | some copy =>
      obtain ⟨hlen, hcopy⟩ := he
      obtain ⟨d, hacked, hsound, hdlen, hstep⟩ := h.acked hmemcpy hlen hcopy mss
      obtain ⟨hsend, hpipe⟩ := hsound.send hdlen stale
      refine ⟨_, congrArg (Option.map fun d : Sender => d.send stale) hacked, hsend, ?_⟩
      rw [Simulates, Event.pipeStep]
      dsimp only
      rw [hpipe]
      exact hstep

/-- The sending side as a pipe of bytes. -/
theorem refines (hmemcpy : memcpy.CopiesDown) :
    ((system memcpy).restrict Steady).Refines Pipe.system Sound pipe Event.pipeStep where
  inv_step c e d hc hs := by
    obtain ⟨d', hnext, hsound, -⟩ := hc.next hmemcpy hs.1.1 hs.2
    rw [hs.1.2] at hnext
    exact Option.some.inj hnext ▸ hsound
  visible c e d a hc hs ha := by
    obtain ⟨d', hnext, -, hsim⟩ := hc.next hmemcpy hs.1.1 hs.2
    rw [hs.1.2] at hnext
    rw [← Option.some.inj hnext, Simulates, ha] at hsim
    exact hsim
  silent c e d hc hs hnone := by
    obtain ⟨d', hnext, -, hsim⟩ := hc.next hmemcpy hs.1.1 hs.2
    rw [hs.1.2] at hnext
    rw [← Option.some.inj hnext, Simulates, hnone] at hsim
    exact hsim

/-- While a segment is outstanding the window changes, and the socket gives the segment again
with the size that it has now. -/
theorem Sound.resize (h : c.Sound) (hlen : c.len ≠ 0) (mss : ℕ) (stale : List UInt8) :
    ∃ copies, Sender.send { c with mss := mss } stale = { c with
        mss := mss
        outputDataSendNxt := segmentSize { c with mss := mss }
        copies := copies } ∧
      ∀ copy ∈ copies, copy = c.outBuffer.take c.len ∨
        copy = (c.outBuffer.take (segmentSize { c with mss := mss }) ++ stale).take c.len := by
  rw [(h.setMss mss).send_of_outstanding hlen, (h.setMss mss).senddata_eq, Sender.transmit]
  split_ifs
  · refine ⟨_, rfl, fun copy hcopy => ?_⟩
    rcases List.mem_append.mp hcopy with hold | hnew
    · exact Or.inl (h.copies copy hold)
    · exact Or.inr (List.mem_singleton.mp hnew)
  · exact ⟨_, rfl, fun copy hcopy => Or.inl (h.copies copy hcopy)⟩

/-- When a copy of the segment is acknowledged after that, the size that it has now is taken out
of the buffer. -/
theorem Sound.acked_resized (h : c.Sound) (hmemcpy : memcpy.CopiesDown) (hlen : c.len ≠ 0)
    (mss : ℕ) (copy : List UInt8) (mss' : ℕ) :
    ∃ d, Sender.acked memcpy { c with
        mss := mss'
        len := 0
        outputDataSendNxt := segmentSize { c with mss := mss }
        copies := []
        received := c.received ++ copy } = some d ∧ d.Sound ∧ d.len = 0 ∧
      d.pipe.sent = c.received ++ copy ++
        c.pipe.waiting.drop (segmentSize { c with mss := mss }) := by
  have hnle : segmentSize { c with mss := mss } ≤ c.outputDataLen := min_le_left _ _
  have hfront : (c.outBuffer.take c.outputDataLen).length = c.outputDataLen := by
    rw [List.length_take, h.length_outBuffer]
    exact min_eq_left h.dataLen_le
  have hpos : 0 < c.outputDataLen := by
    have := h.len_le
    omega
  obtain ⟨d, hacked, hsound, hdlen, hpipe⟩ :=
    (h.acknowledge mss' (c.received ++ copy)).acked_of_le hmemcpy rfl hpos hnle
  refine ⟨d, hacked, hsound, hdlen, ?_⟩
  rw [hpipe, pipe, List.drop_append_of_le_length (hnle.trans_eq hfront.symm)]
  rfl

end Sender

end NoiseLevel.Mqtt

import NoiseLevel.Mqtt.StreamIntegrity

/-!
# What a broker has read

However segments are lost, repeated and acknowledged, a broker has read a first part of
the packets that were started, and all of them when the writer has nothing to do. From
every state the acknowledgements that are missing lead there. Only a packet that does not
fit into the buffer of the writer can be given up half written.
-/

namespace NoiseLevel.Mqtt

open NoiseLevel.Core

namespace Sender

/-- A connection that was just opened; what is in the buffer and where a write of an earlier
connection stopped does not matter. -/
def opened (outBuffer : List UInt8) (outWritePos maxSeg mss : ℕ) : Sender where
  outBuffer := outBuffer
  outBufferPtr := 0
  outBufferSent := true
  outWritePos := outWritePos
  ops := []
  outputDataLen := 0
  outputSenddataLen := 0
  outputDataSendNxt := 0
  outputDataMaxSeg := maxSeg
  len := 0
  mss := mss
  copies := []
  received := []

/-- A connection begins in order. -/
theorem sound_opened {outBuffer : List UInt8} (h : outBuffer.length = outputBuffSize)
    (outWritePos maxSeg mss : ℕ) : (opened outBuffer outWritePos maxSeg mss).Sound where
  length_outBuffer := h
  dataLen_le := Nat.zero_le _
  senddataLen := rfl
  sendNxt := rfl
  len_le := le_rfl
  copies := by simp [opened]
  copies_eq_nil_iff := iff_of_true rfl rfl
  ptr_eq := fun _ => rfl
  sent_iff := iff_of_true rfl rfl
  within := by simp [opened]

/-- Everything was written, sent and acknowledged. -/
def Idle (c : Sender) : Prop := c.outBufferSent = true ∧ c.ops = []

variable {c d : Sender} {memcpy : Memcpy UInt8}

/-- At rest nothing waits. -/
theorem Sound.waiting_of_idle (h : c.Sound) (hidle : c.Idle) : c.pipe.waiting = [] := by
  rw [pipe, pending, hidle.2, h.sent_iff.mp hidle.1]
  simp

section Net

/-- What the writer leaves alone: the bounds on the size of a segment and what is outstanding. -/
def net (c : Sender) : ℕ × ℕ × ℕ := (c.outputDataMaxSeg, c.mss, c.len)

/-- Handing the buffer over does not touch what TCP holds. -/
@[simp] theorem net_sendOutBuffer (memcpy : Memcpy UInt8) (c : Sender) :
    (c.sendOutBuffer memcpy).net = c.net := by
  unfold sendOutBuffer
  split_ifs <;> rfl

/-- A macro does not touch what TCP holds. -/
@[simp] theorem net_attempt (memcpy : Memcpy UInt8) (c : Sender) (op : WriteOp) :
    (c.attempt memcpy op).2.net = c.net := by
  cases op with
  | byte data =>
    rw [attempt, writeByte]
    split_ifs
    · exact c.net_sendOutBuffer memcpy
    · rfl
  | bytes data len h =>
    rw [attempt, writeBytes]
    dsimp only
    split_ifs
    · rfl
    · exact net_sendOutBuffer memcpy _

/-- A protothread does not touch what TCP holds. -/
theorem net_runWrites (memcpy : Memcpy UInt8) (c : Sender) (ops : List WriteOp) :
    (runWrites memcpy ops c).net = c.net := by
  induction ops generalizing c with
  | nil => exact net_sendOutBuffer memcpy _
  | cons op ops ih =>
    have henter : (c.enter op).net = c.net := by cases op <;> rfl
    rw [runWrites]
    dsimp only
    split_ifs
    · exact (net_attempt memcpy _ op).trans henter
    · exact (ih _).trans ((net_attempt memcpy _ op).trans henter)

/-- Going on with a packet does not touch what TCP holds. -/
theorem net_resume (memcpy : Memcpy UInt8) (c : Sender) : (c.resume memcpy).net = c.net := by
  unfold resume
  split
  · rfl
  · dsimp only
    split_ifs
    · exact net_attempt memcpy c _
    · exact (net_runWrites memcpy _ _).trans (net_attempt memcpy c _)
    · rfl

/-- What the network leaves alone: the bound on the size of a segment and what is not written. -/
def kept (c : Sender) : ℕ × List WriteOp := (c.outputDataMaxSeg, c.ops)

/-- Sending a segment keeps what the writer has. -/
theorem kept_transmit (c : Sender) (slen : ℕ) (stale : List UInt8) :
    (c.transmit slen stale).kept = c.kept := by
  unfold transmit
  split_ifs <;> rfl

/-- `senddata` keeps what the writer has. -/
theorem kept_senddata (c : Sender) : c.senddata.2.kept = c.kept := by
  unfold senddata
  split_ifs <;> rfl

/-- Sending keeps what the writer has. -/
theorem kept_send (c : Sender) (stale : List UInt8) : (c.send stale).kept = c.kept := by
  rw [send, appsend]
  split_ifs <;> rw [kept_transmit] <;> exact kept_senddata c

/-- `acked` keeps what the writer has. -/
theorem kept_acked (h : c.acked memcpy = some d) : d.kept = c.kept := by
  unfold acked dataSent at h
  dsimp only at h
  split_ifs at h <;> (obtain rfl := Option.some.inj h) <;> rfl

/-- An event of the network. -/
def Event.Network : Event → Prop
  | .start _ | .resume | .leave _ => False
  | .poll | .rexmit _ | .segment _ _ _ _ => True

/-- Events of the network keep what the writer has. -/
theorem kept_next {e : Event} (he : e.Network) (h : c.next memcpy e = some d) :
    d.kept = c.kept := by
  cases e with
  | start | resume | leave => exact he.elim
  | poll => exact Option.some.inj h ▸ kept_send c []
  | rexmit stale =>
    obtain rfl := Option.some.inj h
    exact (kept_transmit _ _ _).trans (kept_senddata c)
  | segment acks newData mss stale =>
    cases acks with
    | none =>
      cases newData with
      | false => exact Option.some.inj h ▸ rfl
      | true => exact Option.some.inj h ▸ kept_send _ stale
    | some copy =>
      obtain ⟨b, hb, rfl⟩ := Option.map_eq_some_iff.mp h
      have hacked := kept_acked hb
      exact (kept_send b stale).trans hacked

/-- `acked` keeps the sizes of the connection. -/
theorem net_acked (h : c.acked memcpy = some d) : d.net = c.net := by
  unfold acked dataSent at h
  dsimp only at h
  split_ifs at h <;> (obtain rfl := Option.some.inj h) <;> rfl

/-- The bound on the size of a segment stays as it is. -/
theorem maxSeg_next {e : Event} (h : c.next memcpy e = some d) :
    d.outputDataMaxSeg = c.outputDataMaxSeg := by
  cases e with
  | start o =>
    obtain ⟨ops, -, rfl⟩ := Option.map_eq_some_iff.mp h
    exact congrArg Prod.fst (net_runWrites memcpy c ops)
  | resume => exact Option.some.inj h ▸ congrArg Prod.fst (net_resume memcpy c)
  | leave unwritten => exact Option.some.inj h ▸ rfl
  | poll => exact congrArg Prod.fst (kept_next (e := .poll) trivial h)
  | rexmit stale => exact congrArg Prod.fst (kept_next (e := .rexmit stale) trivial h)
  | segment acks newData mss stale =>
    exact congrArg Prod.fst (kept_next (e := .segment acks newData mss stale) trivial h)

end Net

/-- The other side never offers less room than a segment may have. -/
def Roomy (c : Sender) : Event → Prop
  | .segment _ _ mss _ => c.outputDataMaxSeg ≤ mss
  | _ => True

instance (c : Sender) : DecidablePred c.Roomy
  | .segment _ _ mss _ => inferInstanceAs (Decidable (c.outputDataMaxSeg ≤ mss))
  | .start _ | .resume | .leave _ | .poll | .rexmit _ => inferInstanceAs (Decidable True)

/-- What is outstanding is as long as what is left to send and the bound allow. -/
structure Full (c : Sender) : Prop where
  maxSeg_le : c.outputDataMaxSeg ≤ c.mss
  len_eq : c.len ≠ 0 → c.len = min c.outputDataLen c.outputDataMaxSeg

/-- Then the window does not count. -/
theorem Full.segmentSize_eq (h : c.Full) :
    c.segmentSize = min c.outputDataLen c.outputDataMaxSeg := by
  rw [segmentSize, min_eq_left h.maxSeg_le]

/-- With enough room a segment is repeated with its size. -/
theorem Full.steady (h : c.Full) (hsound : c.Sound) {e : Event} (he : c.Enabled e)
    (hroom : c.Roomy e) : c.Steady e := by
  cases e with
  | start | resume | leave | poll => exact trivial
  | rexmit stale =>
    change c.senddata.1 = c.len
    rw [hsound.senddata_eq, h.len_eq he]
    exact h.segmentSize_eq
  | segment acks newData mss stale =>
    cases acks with
    | some copy => exact trivial
    | none =>
      cases newData with
      | false => exact trivial
      | true =>
        refine or_iff_not_imp_left.mpr fun hlen => ?_
        have hfull : Full { c with mss := mss } := ⟨hroom, h.len_eq⟩
        rw [(hsound.setMss mss).senddata_eq, h.len_eq hlen]
        exact hfull.segmentSize_eq

/-- A first segment is full. -/
theorem Full.send (h : c.Full) (hsound : c.Sound) (hlen : c.len = 0) (stale : List UInt8) :
    (c.send stale).Full := by
  rw [hsound.send_eq hlen stale]
  exact ⟨h.maxSeg_le, fun _ => h.segmentSize_eq⟩

/-- A repeated segment is full. -/
theorem Full.transmit (h : c.Full) (hsound : c.Sound) (hlen : c.len ≠ 0)
    (hsteady : c.senddata.1 = c.len) (stale : List UInt8) :
    (c.senddata.2.transmit c.senddata.1 stale).Full := by
  rw [hsound.transmit_eq hlen hsteady stale]
  exact ⟨h.maxSeg_le, h.len_eq⟩

/-- Nothing is outstanding after the writer has written. -/
theorem full_of_net (hnet : d.net = c.net) (h : c.Full) (hlen : c.len = 0) : d.Full := by
  obtain ⟨hmax, hrest⟩ := Prod.mk.inj hnet
  obtain ⟨hmss, hdlen⟩ := Prod.mk.inj hrest
  exact ⟨by rw [hmax, hmss]; exact h.maxSeg_le, fun hne => absurd (hdlen.trans hlen) hne⟩

/-- Every event keeps segments at their full size. -/
theorem Full.next (h : c.Full) (hsound : c.Sound) {e : Event} (he : c.Enabled e)
    (hroom : c.Roomy e) (hmemcpy : memcpy.CopiesDown) (hnext : c.next memcpy e = some d) :
    d.Full := by
  have hsteady := h.steady hsound he hroom
  cases e with
  | start o =>
    obtain ⟨ops, -, rfl⟩ := Option.map_eq_some_iff.mp hnext
    exact full_of_net (net_runWrites memcpy c ops) h (hsound.writing he.1).len
  | resume =>
    obtain rfl := Option.some.inj hnext
    by_cases hsent : c.outBufferSent = true
    · exact full_of_net (net_resume memcpy c) h (hsound.writing hsent).len
    · rwa [Sound.resume_of_not_sent hsent]
  | leave unwritten => exact Option.some.inj hnext ▸ ⟨h.maxSeg_le, h.len_eq⟩
  | poll => exact Option.some.inj hnext ▸ h.send hsound he []
  | rexmit stale => exact Option.some.inj hnext ▸ h.transmit hsound he hsteady stale
  | segment acks newData mss stale =>
    have hfull : Full { c with mss := mss } := ⟨hroom, h.len_eq⟩
    cases acks with
    | none =>
      cases newData with
      | false => exact Option.some.inj hnext ▸ hfull
      | true =>
        obtain rfl := Option.some.inj hnext
        by_cases hlen : c.len = 0
        · exact hfull.send (hsound.setMss mss) hlen stale
        · rw [(hsound.setMss mss).send_of_outstanding hlen stale]
          exact hfull.transmit (hsound.setMss mss) hlen (hsteady.resolve_left hlen) stale
    | some copy =>
      obtain ⟨hlen, hcopy⟩ := he
      obtain ⟨b, hacked, hbsound, hblen, -⟩ := hsound.acked hmemcpy hlen hcopy mss
      have hnet := net_acked hacked
      have hbfull : b.Full := full_of_net hnet ⟨hroom, fun hne => absurd rfl hne⟩ rfl
      have heq : b.send stale = d := by
        have := congrArg (Option.map fun b : Sender => b.send stale) hacked
        exact Option.some.inj (this.symm.trans hnext)
      exact heq ▸ hbfull.send hbsound hblen stale

/-- A run with enough room repeats every segment with its size. -/
theorem steady_of_roomy (hmemcpy : memcpy.CopiesDown) {es : List Event} (h : c.Full)
    (hsound : c.Sound) (hrun : ((system memcpy).restrict Roomy).Run c es d) :
    ((system memcpy).restrict Steady).Run c es d ∧ d.Full ∧ d.Sound := by
  induction hrun with
  | nil => exact ⟨System.Run.nil c, h, hsound⟩
  | snoc _ hs ih =>
    obtain ⟨hrun, hfull, hmid⟩ := ih
    have hsteady := hfull.steady hmid hs.1.1 hs.2
    obtain ⟨b, hnext, hb, -⟩ := hmid.next hmemcpy hs.1.1 hsteady
    obtain rfl := Option.some.inj (hnext.symm.trans hs.1.2)
    exact ⟨hrun.snoc ⟨hs.1, hsteady⟩, hfull.next hmid hs.1.1 hs.2 hmemcpy hnext, hb⟩

/-- The packets that an event starts. -/
def Event.started : Event → List Outgoing
  | .start o => [o]
  | _ => []

/-- What an event makes of the stream that was offered before it. -/
def Event.offer (sent : List UInt8) : Event → List UInt8
  | .start o => sent ++ o.bytes
  | .leave unwritten => sent.take (sent.length - unwritten.length)
  | _ => sent

/-- The stream that some events offer: the packets as they were started, without what was never
written of them. -/
def offered (es : List Event) : List UInt8 := es.foldl Event.offer []

/-- No packet was left half written. -/
def Whole (es : List Event) : Prop := ∀ unwritten, Event.leave unwritten ∈ es → unwritten = []

/-- Two parts of a run without a half written packet. -/
theorem Whole.append {es fs : List Event} (h : Whole es) (k : Whole fs) : Whole (es ++ fs) := by
  intro unwritten hmem
  rcases List.mem_append.mp hmem with hes | hfs
  · exact h unwritten hes
  · exact k unwritten hfs

/-- Whole packets are offered as they are. -/
theorem Whole.foldl_offer {es : List Event} (h : Whole es) (sent : List UInt8) :
    es.foldl Event.offer sent = sent ++ (es.flatMap Event.started).flatMap Outgoing.bytes := by
  induction es generalizing sent with
  | nil => exact (List.append_nil sent).symm
  | cons e es ih =>
    have hrest : Whole es := fun unwritten hmem => h unwritten (List.mem_cons_of_mem e hmem)
    rw [List.foldl_cons, ih hrest, List.flatMap_cons, List.flatMap_append, ← List.append_assoc]
    congr 1
    cases e with
    | start o => exact congrArg (sent ++ ·) (List.flatMap_singleton _ o).symm
    | leave unwritten =>
      obtain rfl := h unwritten List.mem_cons_self
      rw [Event.offer, List.length_nil, Nat.sub_zero, List.take_length]
      exact (List.append_nil sent).symm
    | resume | poll | rexmit | segment => exact (List.append_nil sent).symm

/-- A run that starts the given packets and leaves none half written, with enough room and
segments repeated as they were. -/
structure Leads (memcpy : Memcpy UInt8) (c : Sender) (os : List Outgoing) (d : Sender) : Prop where
  run : ∃ es, ((system memcpy).restrict fun c e => c.Steady e ∧ c.Roomy e).Run c es d ∧
    es.flatMap Event.started = os ∧ Whole es
  sound : d.Sound
  maxSeg_eq : d.outputDataMaxSeg = c.outputDataMaxSeg

/-- Every state leads to itself. -/
theorem Sound.leads (h : c.Sound) : Leads memcpy c [] c :=
  ⟨⟨[], System.Run.nil c, rfl, by simp [Whole]⟩, h, rfl⟩

/-- Packets are brought over one group after the other. -/
theorem Leads.trans {b : Sender} {os ps : List Outgoing} (h : Leads memcpy c os d)
    (k : Leads memcpy d ps b) : Leads memcpy c (os ++ ps) b := by
  obtain ⟨es, hrun, rfl, hes⟩ := h.run
  obtain ⟨fs, krun, rfl, hfs⟩ := k.run
  exact ⟨⟨es ++ fs, hrun.append krun, List.flatMap_append, hes.append hfs⟩, k.sound,
    k.maxSeg_eq.trans h.maxSeg_eq⟩

/-- One event that is possible leads on. -/
theorem Sound.leads_next (h : c.Sound) (hmemcpy : memcpy.CopiesDown) {e : Event}
    (he : c.Enabled e) (hsteady : c.Steady e) (hroom : c.Roomy e) (hwhole : Whole [e]) :
    ∃ d, Leads memcpy c e.started d ∧ c.Simulates e d ∧ c.next memcpy e = some d := by
  obtain ⟨d, hnext, hsound, hsim⟩ := h.next hmemcpy he hsteady
  refine ⟨d, ⟨⟨[e], ?_, List.flatMap_singleton _ _, hwhole⟩, hsound, maxSeg_next hnext⟩, hsim,
    hnext⟩
  exact System.Run.snoc (System.Run.nil c) ⟨⟨he, hnext⟩, hsteady, hroom⟩

section Leads

variable (hmemcpy : memcpy.CopiesDown)
include hmemcpy

/-- An acknowledgement takes something out of the pipe. -/
theorem Sound.leads_ack (h : c.Sound) (hlen : c.len ≠ 0) :
    ∃ d, Leads memcpy c [] d ∧ d.pipe.waiting.length < c.pipe.waiting.length := by
  obtain ⟨copy, hcopy⟩ := List.exists_mem_of_ne_nil _ (mt h.copies_eq_nil_iff.mp hlen)
  have hpos : 0 < copy.length := by
    have := h.len_le
    have := h.dataLen_le
    rw [h.copies copy hcopy, List.length_take, h.length_outBuffer]
    omega
  obtain ⟨d, hd, hsim, -⟩ := h.leads_next hmemcpy
    (e := .segment (some copy) false c.outputDataMaxSeg []) ⟨hlen, hcopy⟩ trivial le_rfl
    (by simp [Whole])
  refine ⟨d, hd, ?_⟩
  rw [Pipe.Step.waiting_eq hsim, List.length_append]
  omega

/-- What was handed to the socket can be brought to the other side. -/
theorem Sound.leads_data (h : c.Sound) (hmax : 0 < c.outputDataMaxSeg)
    (hdata : 0 < c.outputDataLen) :
    ∃ d, Leads memcpy c [] d ∧ d.pipe.waiting.length < c.pipe.waiting.length := by
  by_cases hlen : c.len = 0
  · obtain ⟨b, hb, hsim, hnext⟩ := h.leads_next hmemcpy
      (e := .segment none true c.outputDataMaxSeg []) trivial (Or.inl hlen) le_rfl
      (by simp [Whole])
    have hsize : segmentSize { c with mss := c.outputDataMaxSeg } ≠ 0 := by
      dsimp only [segmentSize]
      omega
    have hout : b.len ≠ 0 := by
      rw [← Option.some.inj hnext, (h.setMss c.outputDataMaxSeg).send_eq hlen]
      exact hsize
    obtain ⟨d, hd, hlt⟩ := hb.sound.leads_ack hmemcpy hout
    have hpipe : b.pipe = c.pipe := hsim
    exact ⟨d, hb.trans hd, hpipe ▸ hlt⟩
  · exact h.leads_ack hmemcpy hlen

/-- From every state the connection can come to rest. -/
theorem Sound.leads_idle (h : c.Sound) (hmax : 0 < c.outputDataMaxSeg) :
    ∃ d, Leads memcpy c [] d ∧ d.Idle := by
  induction hn : c.pipe.waiting.length using Nat.strong_induction_on generalizing c with
  | _ n ih =>
    have hdrain {b : Sender} (hb : Leads memcpy c [] b) (hwait : b.pipe.waiting.length = n)
        (hdata : 0 < b.outputDataLen) : ∃ d, Leads memcpy c [] d ∧ d.Idle := by
      obtain ⟨a, ha, hlt⟩ := hb.sound.leads_data hmemcpy (hb.maxSeg_eq ▸ hmax) hdata
      have hmaxa : 0 < a.outputDataMaxSeg := by rwa [ha.maxSeg_eq, hb.maxSeg_eq]
      obtain ⟨d, hd, hidle⟩ := ih _ (hwait ▸ hlt) ha.sound hmaxa rfl
      exact ⟨d, (hb.trans ha).trans hd, hidle⟩
    by_cases hdata : 0 < c.outputDataLen
    · exact hdrain h.leads hn hdata
    · have hsent : c.outBufferSent = true := h.sent_iff.mpr (by omega)
      obtain ⟨b, hb, hsim, hnext⟩ := h.leads_next hmemcpy (e := .resume) trivial trivial trivial
        (by simp [Whole])
      have hpipe : b.pipe = c.pipe := hsim
      obtain rfl := Option.some.inj hnext
      by_cases hmore : 0 < (c.resume memcpy).outputDataLen
      · exact hdrain hb (hpipe ▸ hn) hmore
      · have hops := (h.resume hmemcpy hsent).progress.resolve_right hmore
        exact ⟨_, hb, hb.sound.sent_iff.mpr (by omega), hops⟩

/-- From every state any further packets can be sent. -/
theorem Sound.leads_packets (h : c.Sound) (hmax : 0 < c.outputDataMaxSeg) {os : List Outgoing}
    (hos : ∀ o ∈ os, o.ops.isSome = true) : ∃ d, Leads memcpy c os d ∧ d.Idle := by
  induction os generalizing c with
  | nil => exact h.leads_idle hmemcpy hmax
  | cons o os ih =>
    obtain ⟨ho, hos⟩ := List.forall_mem_cons.mp hos
    obtain ⟨b, hb, hidle⟩ := h.leads_idle hmemcpy hmax
    obtain ⟨a, ha, -⟩ := hb.sound.leads_next hmemcpy (e := .start o) ⟨hidle.1, hidle.2, ho⟩ trivial
      trivial (by simp [Whole])
    have hmaxa : 0 < a.outputDataMaxSeg := by rwa [ha.maxSeg_eq, hb.maxSeg_eq]
    obtain ⟨d, hd, hdone⟩ := ih ha.sound hmaxa hos
    exact ⟨d, (hb.trans ha).trans hd, hdone⟩

end Leads

/-- The pipe takes the events for what they offer. -/
theorem foldl_enter (es : List Event) (sent : List UInt8) :
    (es.filterMap Event.pipeStep).foldl Pipe.enter sent = es.foldl Event.offer sent := by
  induction es generalizing sent with
  | nil => rfl
  | cons e es ih =>
    rw [List.foldl_cons, ← ih, List.filterMap_cons]
    cases e with
    | start | resume | leave | poll | rexmit => rfl
    | segment acks newData mss stale => cases acks <;> rfl

/-- The bytes that are given up with an event. -/
def Event.unwritten : Event → List UInt8
  | .leave unwritten => unwritten
  | _ => []

/-- Packets are whole when nothing was left unwritten. -/
theorem whole_iff {es : List Event} : Whole es ↔ es.flatMap Event.unwritten = [] := by
  rw [List.flatMap_eq_nil_iff]
  constructor
  · intro h e he
    cases e with
    | leave unwritten => exact h unwritten he
    | start | resume | poll | rexmit | segment => rfl
  · exact fun h unwritten hmem => h _ hmem

/-- A packet that fits into the buffer is written at once. -/
theorem ops_runWrites {ops : List WriteOp}
    (hroom : c.outBufferPtr + (written ops).length ≤ outputBuffSize) :
    (runWrites memcpy ops c).ops = [] := by
  induction ops generalizing c with
  | nil =>
    rw [runWrites, sendOutBuffer]
    split_ifs <;> rfl
  | cons op ops ih =>
    rw [written_cons, List.length_append] at hroom
    cases op with
    | byte data =>
      have hone : (WriteOp.byte data).content.length = 1 := rfl
      have hfree : ¬outputBuffSize - c.outBufferPtr = 0 := by omega
      rw [runWrites, enter, attempt, writeByte, if_neg hfree]
      exact ih (by dsimp only; omega)
    | bytes data len hlen =>
      have hcount : (WriteOp.bytes data len hlen).content.length = len.toNat := by
        rw [WriteOp.content, List.length_take, min_eq_left hlen]
      rw [hcount] at hroom
      have hall : min (outputBuffSize - c.outBufferPtr) (len.toNat - 0) = len.toNat := by
        omega
      rw [runWrites, enter, attempt, writeBytes]
      dsimp only
      rw [hall, Nat.zero_add, Nat.sub_self, if_pos rfl]
      exact ih (by rw [Nat.add_assoc]; exact hroom)

section Runs

variable {outBuffer : List UInt8} {outWritePos maxSeg mss : ℕ} {es : List Event}
  (hmemcpy : memcpy.CopiesDown) (hbuffer : outBuffer.length = outputBuffSize)
  (hrun : ((system memcpy).restrict Steady).Run (opened outBuffer outWritePos maxSeg mss) es c)

include hmemcpy hbuffer hrun

/-- Along a run the pipe has what was offered. -/
theorem run_opened : c.Sound ∧ c.pipe.sent = offered es := by
  obtain ⟨hsound, hpipe⟩ := (refines hmemcpy).run hrun (sound_opened hbuffer outWritePos maxSeg mss)
  refine ⟨hsound, (Pipe.sent_eq_of_run hpipe).trans ?_⟩
  have hempty : (opened outBuffer outWritePos maxSeg mss).pipe.sent = [] := by
    simp [opened, pipe, Pipe.sent, pending]
  rw [hempty, foldl_enter, offered]

/-- Nothing is offered that was neither started nor, when it was given up, missing at the end. -/
theorem length_offered : (offered es).length + (es.flatMap Event.unwritten).length =
    ((es.flatMap Event.started).flatMap Outgoing.bytes).length := by
  induction hrun with
  | nil => rfl
  | @snoc b d as e hmid hs ih =>
    have hsent := (run_opened hmemcpy hbuffer hmid).2
    have hrest : ∀ unwritten, e = .leave unwritten → unwritten.length ≤ (offered as).length := by
      rintro unwritten rfl
      obtain rfl : unwritten = b.pending := hs.1.1
      rw [← hsent, Pipe.sent, pipe, List.length_append, List.length_append]
      omega
    rw [offered, List.foldl_append, List.foldl_cons, List.foldl_nil, ← offered]
    simp only [List.flatMap_append, List.flatMap_singleton, List.length_append, ← ih]
    cases e with
    | start o =>
      simp only [Event.offer, Event.unwritten, Event.started, List.length_append,
        List.flatMap_singleton, List.length_nil]
      omega
    | leave unwritten =>
      have := hrest unwritten rfl
      simp only [Event.offer, Event.unwritten, Event.started, List.length_take, List.flatMap_nil,
        List.length_nil]
      omega
    | resume | poll | rexmit | segment => rfl

/-- Whole packets are offered exactly when none was left half written. -/
theorem offered_eq_iff :
    offered es = (es.flatMap Event.started).flatMap Outgoing.bytes ↔ Whole es := by
  constructor
  · intro heq
    have hcount := length_offered hmemcpy hbuffer hrun
    rw [heq] at hcount
    rw [whole_iff, ← List.length_eq_zero_iff]
    omega
  · exact fun h => h.foldl_offer []

/-- Packets that fit into the buffer are not left half written. -/
theorem whole_of_fits
    (hfits : ∀ o ∈ es.flatMap Event.started, o.bytes.length ≤ outputBuffSize) :
    c.ops = [] ∧ Whole es := by
  induction hrun with
  | nil => exact ⟨rfl, by simp [Whole]⟩
  | @snoc b d as e hmid hs ih =>
    rw [List.flatMap_append, List.flatMap_singleton] at hfits
    obtain ⟨hops, hwhole⟩ := ih fun o ho => hfits o (List.mem_append_left _ ho)
    obtain ⟨⟨he, hnext⟩, -⟩ := hs
    have hsound := (run_opened hmemcpy hbuffer hmid).1
    have hpending : b.pending = [] := by rw [pending, hops]
    refine ⟨?_, hwhole.append fun unwritten hmem => ?_⟩
    · cases e with
      | start o =>
        obtain ⟨ops, ho, rfl⟩ := Option.map_eq_some_iff.mp hnext
        apply ops_runWrites
        have hfit := hfits o (List.mem_append_right _ (List.mem_singleton.mpr rfl))
        rw [Outgoing.bytes, ho] at hfit
        rwa [hsound.ptr_eq he.1, Nat.zero_add]
      | resume =>
        obtain rfl := Option.some.inj hnext
        rw [resume, hops]
        exact hops
      | leave unwritten => exact Option.some.inj hnext ▸ rfl
      | poll =>
        exact (congrArg Prod.snd (kept_next (e := .poll) trivial hnext)).trans hops
      | rexmit stale =>
        exact (congrArg Prod.snd (kept_next (e := .rexmit stale) trivial hnext)).trans hops
      | segment acks newData mss stale =>
        have hkept := kept_next (e := .segment acks newData mss stale) trivial hnext
        exact (congrArg Prod.snd hkept).trans hops
    · obtain rfl := List.mem_singleton.mp hmem
      exact he.trans hpending

/-- The packets that were started are read from what was offered. -/
theorem reads_sent (hwhole : Whole es)
    (hpackets : ∀ o ∈ es.flatMap Event.started, o.onWire.Representable) :
    packetReader.Reads c.pipe.sent
      ((es.flatMap Event.started).map fun o => o.onWire.meaning) [] := by
  have hread : ∀ o ∈ es.flatMap Event.started, ∀ rest,
      packetReader.read (o.bytes ++ rest) = some (o.onWire.meaning, rest) := by
    intro o ho rest
    obtain ⟨ops, hops, hback⟩ := Outgoing.readBack_onWire (hpackets o ho)
    rw [Outgoing.bytes, hops]
    exact hback rest
  have hall := Reader.reads_flatMap hread []
  rwa [List.append_nil, ← (offered_eq_iff hmemcpy hbuffer hrun).mpr hwhole,
    ← (run_opened hmemcpy hbuffer hrun).2] at hall

/-- A broker that reads along has read a first part of the packets that were started, as they
are on the wire, and all of them when the writer is at rest. -/
theorem broker_reads (hwhole : Whole es)
    (hpackets : ∀ o ∈ es.flatMap Event.started, o.onWire.Representable) :
    (∀ packets rest, packetReader.Reads c.received packets rest →
      packets <+: (es.flatMap Event.started).map fun o => o.onWire.meaning) ∧
    (c.Idle → packetReader.Reads c.received
      ((es.flatMap Event.started).map fun o => o.onWire.meaning) []) := by
  have hall := reads_sent hmemcpy hbuffer hrun hwhole hpackets
  constructor
  · intro packets rest hpart
    exact hall.isPrefix_of_append hpart
  · intro hidle
    rwa [Pipe.sent, (run_opened hmemcpy hbuffer hrun).1.waiting_of_idle hidle,
      List.append_nil] at hall

/-- When the window changes while a segment is outstanding and the socket gives it again with
another size, whichever copy of it is acknowledged takes that size out of the buffer, and the
stream is right only if the size is the same. The copies from before the change have the bytes
that were outstanding, the one that leaves with it has those of the new size and behind them
what uIP had in its buffer. -/
theorem resized_segment (hlen : c.len ≠ 0) (window : ℕ) (stale : List UInt8)
    (hstale : c.len ≤ segmentSize { c with mss := window } + stale.length) :
    ∃ d, c.next memcpy (.segment none true window stale) = some d ∧ ∀ copy ∈ d.copies,
      (copy = c.pipe.waiting.take c.len ∨
        copy = (c.pipe.waiting.take (segmentSize { c with mss := window }) ++ stale).take c.len) ∧
      ∀ newData window' stale', d.Enabled (.segment (some copy) newData window' stale') ∧
        ∃ e, d.next memcpy (.segment (some copy) newData window' stale') = some e ∧
          e.pipe.sent = c.received ++ copy ++
            c.pipe.waiting.drop (segmentSize { c with mss := window }) ∧
          (e.pipe.sent = offered es ↔ segmentSize { c with mss := window } = c.len) := by
  obtain ⟨hsound, hsent⟩ := run_opened hmemcpy hbuffer hrun
  obtain ⟨copies, hsend, hcopies⟩ := hsound.resize hlen window stale
  rw [← hsent]
  set n := segmentSize { c with mss := window }
  have hn : n ≤ c.outputDataLen := min_le_left _ _
  have hfront : (c.outBuffer.take c.outputDataLen).length = c.outputDataLen := by
    rw [List.length_take, hsound.length_outBuffer]
    exact min_eq_left hsound.dataLen_le
  have htake {k : ℕ} (hk : k ≤ c.outputDataLen) : c.pipe.waiting.take k = c.outBuffer.take k := by
    rw [pipe, List.take_append_of_le_length (hk.trans_eq hfront.symm), List.take_take,
      min_eq_left hk]
  have hwaiting : c.outputDataLen ≤ c.pipe.waiting.length := by
    rw [pipe, List.length_append, hfront]
    exact Nat.le_add_right _ _
  have hle := hsound.len_le
  refine ⟨_, congrArg some hsend, fun copy hcopy => ?_⟩
  have hform : copy = c.pipe.waiting.take c.len ∨
      copy = (c.pipe.waiting.take n ++ stale).take c.len := by
    rw [htake hle, htake hn]
    exact hcopies copy hcopy
  have hsize : copy.length = c.len := by
    rcases hform with rfl | rfl
    · rw [List.length_take]
      omega
    · rw [List.length_take, List.length_append, List.length_take]
      omega
  refine ⟨hform, fun newData window' stale' => ⟨⟨hlen, hcopy⟩, ?_⟩⟩
  obtain ⟨b, hacked, hb, hblen, hpipe⟩ := hsound.acked_resized hmemcpy hlen window copy window'
  obtain ⟨-, hkeep⟩ := hb.send hblen stale'
  refine ⟨b.send stale', congrArg (Option.map fun b : Sender => b.send stale') hacked, ?_⟩
  rw [hkeep, hpipe]
  refine ⟨rfl, fun heq => ?_, fun heq => ?_⟩
  · have hcount := congrArg List.length heq
    rw [Pipe.sent, List.length_append, List.length_append, List.length_append, List.length_drop,
      hsize] at hcount
    have : c.pipe.received.length = c.received.length := rfl
    omega
  · have hsame : copy = c.pipe.waiting.take n := by
      rcases hform with rfl | rfl
      · rw [heq]
      · rw [← heq, List.take_append_of_le_length, List.take_take, min_self]
        rw [List.length_take]
        omega
    rw [hsame, List.append_assoc, List.take_append_drop]
    rfl

end Runs

/-- Events one after the other, as long as they can happen. -/
def replay (c : Sender) (es : List Event) : Option Sender :=
  es.foldlM (fun c e => if c.Enabled e ∧ c.Steady e then c.next copyForward e else none) c

/-- A replay is a run. -/
theorem run_of_replay {es : List Event} (h : c.replay es = some d) :
    ((system copyForward).restrict Steady).Run c es d := by
  induction es using List.reverseRecOn generalizing d with
  | nil => exact Option.some.inj h ▸ System.Run.nil c
  | append_singleton es e ih =>
    rw [replay, List.foldlM_append] at h
    obtain ⟨b, hb, hlast⟩ := Option.bind_eq_some_iff.mp h
    rw [List.foldlM_cons] at hlast
    obtain ⟨d', hd, hsame⟩ := Option.bind_eq_some_iff.mp hlast
    obtain rfl := Option.some.inj hsame
    split_ifs at hd with hcan
    exact (ih hb).snoc ⟨⟨hcan.1, hd⟩, hcan.2⟩

/-- A ping that is repeated and then acknowledged, and a message of which half has arrived. -/
def pinging : List Event :=
  [.start .pingreq, .poll, .rexmit [], .segment (some [0xC0, 0]) false 512 [],
    .start (.publish ⟨3, [0x6E, 0x31], [0x37, 0x35], .level1, false⟩), .poll,
    .segment (some [0x32, 0x08, 0, 2]) true 512 []]

/-- The connection of a mote whose segments have at most four bytes. -/
def shortSegments : Sender := opened (List.replicate outputBuffSize 0) 0 4 1220

/-- The events of the example are possible. -/
theorem isSome_pinging : (shortSegments.replay pinging).isSome = true := by decide +kernel

/-- A broker reads the ping and the message while they arrive, and in the end both. -/
theorem broker_reads_pinging : (∃ c, shortSegments.replay pinging = some c ∧
    ∀ packets rest, packetReader.Reads c.received packets rest →
      packets <+: [.pingreq, .publish false 1 [0x6E, 0x31] (some 3) [0x37, 0x35]]) ∧
    ∃ es d, ((system copyForward).restrict Steady).Run shortSegments es d ∧ d.Idle ∧
      packetReader.Reads d.received
        [.pingreq, .publish false 1 [0x6E, 0x31] (some 3) [0x37, 0x35]] [] := by
  have hpackets : ∀ o ∈ pinging.flatMap Event.started, o.onWire.Representable := by
    simp only [pinging, Event.started, List.flatMap_cons, List.flatMap_nil, List.append_nil,
      List.nil_append, List.cons_append, List.mem_cons, List.not_mem_nil, or_false]
    rintro o (rfl | rfl)
    · exact trivial
    · exact ⟨by simp, by simp, Or.inr (by decide)⟩
  have hops : ∀ o ∈ pinging.flatMap Event.started, o.ops.isSome = true := by
    intro o ho
    obtain ⟨ops, hsome, -⟩ := Outgoing.readBack_onWire (hpackets o ho)
    rw [hsome]
    rfl
  obtain ⟨c, hc⟩ := Option.isSome_iff_exists.mp isSome_pinging
  obtain ⟨d, hd, hidle⟩ := (sound_opened List.length_replicate 0 4 1220).leads_packets
    copiesDown_copyForward (Nat.succ_pos 3) hops
  obtain ⟨es, hrun, hstarted, hwhole⟩ := hd.run
  have hsteady := hrun.restrict_mono fun _ _ h => h.1
  have hall := (broker_reads copiesDown_copyForward List.length_replicate hsteady hwhole
    (hstarted ▸ hpackets)).2 hidle
  rw [hstarted] at hall
  exact ⟨⟨c, hc, (broker_reads copiesDown_copyForward List.length_replicate (run_of_replay hc)
    (by simp [Whole, pinging]) hpackets).1⟩, es, d, hsteady, hidle, hall⟩

/-- A ping of which a segment is outstanding. -/
def outstanding : List Event := [.start .pingreq, .poll]

/-- The window falls to one byte: the second byte of the ping goes out twice when the older copy
is acknowledged, and a stale byte goes out before it when the newer one is. -/
theorem resized_segment_outstanding : ∃ c d, shortSegments.replay outstanding = some c ∧
    c.next copyForward (.segment none true 1 [0xAA]) = some d ∧
    (∃ e, d.next copyForward (.segment (some [0xC0, 0]) false 1 []) = some e ∧
      e.pipe.sent = [0xC0, 0, 0]) ∧
    ∃ e, d.next copyForward (.segment (some [0xC0, 0xAA]) false 1 []) = some e ∧
      e.pipe.sent = [0xC0, 0xAA, 0] := by
  have hreplay : ((shortSegments.replay outstanding).any fun c => decide (c.len = 2 ∧
      c.outputDataLen = 2 ∧ c.outputDataMaxSeg = 4 ∧ c.received = [] ∧
      c.pipe.waiting = [0xC0, 0] ∧ (c.next copyForward (.segment none true 1 [0xAA])).map copies =
        some [[0xC0, 0], [0xC0, 0xAA]])) = true := by decide +kernel
  obtain ⟨c, hc, hstate⟩ := (Option.any_eq_true _ _).mp hreplay
  obtain ⟨hlen, hdata, hseg, hreceived, hwaiting, hcopies⟩ := of_decide_eq_true hstate
  have hsize : segmentSize { c with mss := 1 } = 1 := by
    rw [segmentSize, hdata, hseg]
    rfl
  obtain ⟨d, hd, hacks⟩ := resized_segment copiesDown_copyForward List.length_replicate
    (run_of_replay hc) (hlen.trans_ne (Nat.succ_ne_zero 1)) 1 [0xAA]
    (by rw [hsize, hlen]; exact le_rfl)
  rw [hsize, hreceived, hwaiting] at hacks
  have hmem : d.copies = [[0xC0, 0], [0xC0, 0xAA]] := by
    rw [hd] at hcopies
    exact Option.some.inj hcopies
  obtain ⟨-, hold⟩ := hacks [0xC0, 0] (by simp [hmem])
  obtain ⟨-, hnew⟩ := hacks [0xC0, 0xAA] (by simp [hmem])
  obtain ⟨-, e, he, hsent, -⟩ := hold false 1 []
  obtain ⟨-, e', he', hsent', -⟩ := hnew false 1 []
  exact ⟨c, d, hc, hd, ⟨e, he, hsent⟩, e', he', hsent'⟩

end Sender

end NoiseLevel.Mqtt

import NoiseLevel.Core.Transition
import NoiseLevel.Sensor.Dataset

/-!
# What a call finds in its buffer

The calls of `noise_processing` read one chunk of the file after the other, each as long as
the buffer for a row, and begin again at the end of the file. Only the last chunk may be
shorter; behind it stands what the call before has left, with a NUL for the comma behind
each of the first three pieces.
-/

namespace NoiseLevel.Sensor

open NoiseLevel.Core

/-- The bytes that `cfs_read` gives, none when the file is not open for reading. -/
def Cfs.bytes (c : Cfs) : List Char := if c.Readable then c.content else []

section Chunks

variable (file : List Char) (start : ℕ)

/-- The place in the file where the call with the given number reads. -/
def readFrom : ℕ → ℕ
  | 0 => if start < file.length then start else 0
  | n + 1 => if readFrom n + parseBufferSize < file.length then readFrom n + parseBufferSize else 0

/-- The bytes that the call reads. -/
def chunk (n : ℕ) : List Char := (file.drop (readFrom file start n)).take parseBufferSize

/-- What the call before it has left. -/
def stale : ℕ → List Char
  | 0 => []
  | n + 1 => cutBehind nulChar delim 3 false (chunk file start n)

/-- The chunk over what was left. -/
def found (n : ℕ) : List Char :=
  chunk file start n ++ (stale file start n).drop (chunk file start n).length

/-- A chunk is short only at the end of the file. -/
theorem length_chunk (n : ℕ) :
    (chunk file start n).length = min parseBufferSize (file.length - readFrom file start n) := by
  rw [chunk, List.length_take, List.length_drop]

/-- A short chunk is the last one before the file begins again. -/
theorem length_chunk_succ {n : ℕ} (h : (chunk file start n).length < parseBufferSize) :
    (chunk file start (n + 1)).length = min file.length parseBufferSize := by
  have hlast : ¬readFrom file start n + parseBufferSize < file.length := by
    rw [length_chunk] at h
    omega
  rw [length_chunk, readFrom, if_neg hlast]
  omega

end Chunks

/-- In an empty file nothing is found. -/
theorem found_nil (start n : ℕ) : found [] start n = [] := by
  have hchunk (n : ℕ) : chunk [] start n = [] := by rw [chunk, List.drop_nil, List.take_nil]
  cases n with
  | zero => rw [found, hchunk, stale, List.drop_nil, List.nil_append]
  | succ n => rw [found, hchunk, stale, hchunk, cutBehind, List.drop_nil, List.nil_append]

namespace VirtualSensor

variable {s t : VirtualSensor}

/-- Publishing does not touch the buffer. -/
theorem publish_buf {value : List Char} {mode : ℕ} (h : s.publish value mode = some t) :
    t.buf = s.buf := by
  obtain ⟨x, -, h⟩ := Option.bind_eq_some_iff.mp h
  obtain ⟨y, -, h⟩ := Option.bind_eq_some_iff.mp h
  dsimp only at h
  split_ifs at h <;> (obtain rfl := Option.some.inj h) <;> rfl

/-- Publishing does not touch the buffer. -/
theorem publishNoise_buf (h : s.publishNoise = some t) : t.buf = s.buf := by
  unfold publishNoise at h
  split_ifs at h <;> exact publish_buf h

/-- The three calls of `strtok` cut behind the first three pieces. -/
theorem cutRecord_buf {text : List Char} (htext : stringAt nulChar s.buf 0 = some text)
    (h : s.cutRecord = some t) : t.buf = cutBehind nulChar delim 3 false s.buf := by
  have hnul : nulChar ∉ delim := by decide
  obtain ⟨token, cut, next, text', heq, htext', hcut⟩ := strtok_cutBehind hnul htext
  obtain ⟨token', cut', next', text'', heq', htext'', hcut'⟩ := strtok_cutBehind hnul htext'
  obtain ⟨token'', cut'', next'', -, heq'', -, hcut''⟩ := strtok_cutBehind hnul htext''
  have hbuf : t.buf = cut'' := by
    rw [cutRecord, heq] at h
    obtain ⟨noise, -, h⟩ := Option.bind_eq_some_iff.mp h
    rw [heq'] at h
    dsimp only at h
    rw [heq''] at h
    exact Option.some.inj h ▸ rfl
  calc t.buf = cut''.take next'' ++ cutBehind nulChar delim 0 false (cut''.drop next'') := by
        rw [hbuf, cutBehind, List.take_append_drop]
    _ = cutBehind nulChar delim 3 false s.buf := by
        rw [hcut'', hcut', hcut, List.take_zero, List.drop_zero, List.nil_append]

/-- What a call leaves in the buffer. -/
theorem noiseProcessing_buf (hz : Zeroed s.buf) (h : s.noiseProcessing = some t) :
    t.buf = cutBehind nulChar delim 3 false s.record := by
  obtain ⟨a, ha, h⟩ := Option.bind_eq_some_iff.mp h
  obtain ⟨b, hb, h⟩ := Option.bind_eq_some_iff.mp h
  obtain rfl := Option.some.inj h
  have hpublish := publishNoise_buf hb
  rw [← s.readRecord_buf, ← cutRecord_buf (s.stringAt_readRecord hz) ha]
  exact hpublish

/-- Reading does not change the file. -/
theorem readRecord_bytes (s : VirtualSensor) : s.readRecord.cfs.bytes = s.cfs.bytes := by
  by_cases h : s.cfs.Readable
  · by_cases hend : s.cfs.content.drop s.cfs.fileptr = []
    · rw [s.readRecord_rewind h hend]
      rfl
    · rw [s.readRecord_next h hend]
      rfl
  · rw [s.readRecord_of_not_readable h]

/-- The state before the call with the given number. -/
structure AtCall (file : List Char) (start n : ℕ) (s : VirtualSensor) : Prop where
  bytes : s.cfs.bytes = file
  next : (if s.cfs.fileptr < file.length then s.cfs.fileptr else 0) = readFrom file start n
  length_buf : s.buf.length = bufSize
  /-- No call has reached the bytes behind the file. -/
  blank : ∀ c ∈ s.buf.drop (min file.length parseBufferSize), c = nulChar
  left : ∃ m, s.buf.drop (chunk file start n).length =
    (stale file start n).drop (chunk file start n).length ++ List.replicate m nulChar

variable {file : List Char} {start n : ℕ}

/-- The end of the buffer is never written. -/
theorem AtCall.zeroed (h : AtCall file start n s) : Zeroed s.buf := by
  refine ⟨h.length_buf, fun c hc => h.blank c ?_⟩
  exact List.mem_of_mem_drop (i := parseBufferSize - min file.length parseBufferSize)
    (by rw [List.drop_drop, Nat.add_sub_cancel' (min_le_right _ _)]; exact hc)

/-- What is found comes from the file. -/
theorem AtCall.content_eq (h : AtCall file start n s) (hfound : found file start n ≠ []) :
    s.cfs.content = file := by
  have hbytes := h.bytes
  unfold Cfs.bytes at hbytes
  split_ifs at hbytes with hread
  · exact hbytes
  · rw [← hbytes, found_nil] at hfound
    exact absurd rfl hfound

/-- The call reads its chunk. -/
theorem AtCall.incoming_eq (h : AtCall file start n s) : s.incoming = chunk file start n := by
  have hnext := h.next
  have hbytes := h.bytes
  rw [incoming, chunk, ← hnext]
  unfold Cfs.bytes at hbytes
  split_ifs at hbytes ⊢ with hread hend hlt hlt
  · rw [hbytes, List.drop_eq_nil_iff] at hend
    omega
  · rw [hbytes, List.drop_zero]
  · rw [hbytes]
  · rw [hbytes, List.drop_eq_nil_iff] at hend
    omega
  · rw [← hbytes, List.drop_nil, List.take_nil]
  · rw [← hbytes, List.drop_nil, List.take_nil]

/-- What the buffer holds after the read is what is found. -/
theorem AtCall.record_eq (h : AtCall file start n s) :
    ∃ m, s.record = found file start n ++ List.replicate m nulChar := by
  obtain ⟨m, hleft⟩ := h.left
  exact ⟨m, by rw [record, h.incoming_eq, hleft, found, List.append_assoc]⟩

/-- The string that the call finds. -/
theorem AtCall.seen_eq (h : AtCall file start n s) :
    s.seen = (found file start n).takeWhile fun c => c ≠ nulChar := by
  obtain ⟨m, hrecord⟩ := h.record_eq
  have hzeros : (List.replicate m nulChar).takeWhile (fun c => c ≠ nulChar) = [] := by
    cases m <;> simp [List.replicate_succ]
  rw [seen, hrecord, List.takeWhile_append]
  split_ifs with hall
  · rw [hzeros, List.append_nil]
    exact ((List.takeWhile_prefix _).eq_of_length hall).symm
  · rfl

/-- The place where the next call reads. -/
theorem AtCall.fileptr_eq (h : AtCall file start n s) (hread : s.cfs.Readable) :
    s.readRecord.cfs.fileptr = readFrom file start n + (chunk file start n).length := by
  have hnext := h.next
  have hfile : s.cfs.content = file := by
    have := h.bytes
    rwa [Cfs.bytes, if_pos hread] at this
  by_cases hend : s.cfs.content.drop s.cfs.fileptr = []
  · have hlength := s.cfs.rewound.length_take_content parseBufferSize
    have hplace : ¬s.cfs.fileptr < file.length := by
      rw [hfile, List.drop_eq_nil_iff] at hend
      omega
    rw [if_neg hplace] at hnext
    rw [s.readRecord_rewind hread hend, chunk, ← hnext, List.drop_zero, ← hfile]
    have hzero : s.cfs.rewound.content.drop s.cfs.rewound.fileptr = s.cfs.content := List.drop_zero
    rw [hzero] at hlength
    exact congrArg (0 + ·) hlength.symm
  · have hlength := s.cfs.length_take_content parseBufferSize
    have hplace : s.cfs.fileptr < file.length := by
      rw [hfile, List.drop_eq_nil_iff] at hend
      omega
    rw [if_pos hplace] at hnext
    rw [s.readRecord_next hread hend, chunk, ← hnext, ← hfile, hlength]
    rfl

/-- The state before the first call. -/
theorem atCall_boot (cfs : Cfs) : AtCall (initFileReading cfs).bytes (initFileReading cfs).fileptr 0
    (boot cfs) where
  bytes := rfl
  next := rfl
  length_buf := List.length_replicate
  blank _ hc := List.eq_of_mem_replicate (List.mem_of_mem_drop hc)
  left := ⟨_, by rw [stale, List.drop_nil, List.nil_append]; exact List.drop_replicate ..⟩

/-- Every call finds the next chunk. -/
theorem AtCall.step (h : AtCall file start n s) (ht : s.noiseProcessing = some t)
    (hcfs : t.cfs = s.readRecord.cfs) : AtCall file start (n + 1) t := by
  have hbuf := noiseProcessing_buf h.zeroed ht
  have hlen := length_chunk file start n
  have hincoming : s.incoming.length = (chunk file start n).length := by rw [h.incoming_eq]
  have hbehind (k : ℕ) (hk : (chunk file start n).length ≤ k) :
      s.record.drop k = s.buf.drop k := by
    rw [record, h.incoming_eq, List.drop_append, List.drop_of_length_le hk, List.nil_append,
      List.drop_drop, Nat.add_sub_cancel' hk]
  have hblank : ∀ c ∈ t.buf.drop (min file.length parseBufferSize), c = nulChar := by
    rw [hbuf]
    apply eq_nul_of_mem_drop_cutBehind
    rw [hbehind _ (by omega)]
    exact h.blank
  have hlength : t.buf.length = bufSize := by
    rw [hbuf, length_cutBehind]
    exact (s.zeroed_record h.zeroed).1
  refine ⟨?_, ?_, hlength, hblank, ?_⟩
  · rw [hcfs, readRecord_bytes, h.bytes]
  · rw [readFrom, hcfs]
    by_cases hread : s.cfs.Readable
    · rw [h.fileptr_eq hread, hlen]
      split_ifs <;> omega
    · have hnone : file = [] := by
        rw [← h.bytes, Cfs.bytes, if_neg hread]
      subst hnone
      rw [List.length_nil, if_neg (Nat.not_lt_zero _), if_neg (Nat.not_lt_zero _)]
  · rcases (show (chunk file start n).length ≤ parseBufferSize by omega).lt_or_eq with hlt | hfull
    · have hstale : (stale file start (n + 1)).drop (chunk file start (n + 1)).length = [] := by
        apply List.drop_of_length_le
        rw [stale, length_cutBehind, length_chunk_succ file start hlt]
        omega
      rw [hstale, length_chunk_succ file start hlt]
      exact ⟨_, List.eq_replicate_iff.mpr ⟨rfl, hblank⟩⟩
    · obtain ⟨m, hzeros⟩ : ∃ m, s.buf.drop parseBufferSize = List.replicate (m + 1) nulChar := by
        refine ⟨bufSize - parseBufferSize - 1, List.eq_replicate_iff.mpr ⟨?_, h.zeroed.2⟩⟩
        rw [List.length_drop, h.length_buf]
        rfl
      have hrecord : s.record = chunk file start n ++ List.replicate (m + 1) nulChar := by
        rw [record, h.incoming_eq, hfull, hzeros]
      refine ⟨m + 1, ?_⟩
      rw [hbuf, hrecord, List.replicate_succ, cutBehind_append_nul, ← List.replicate_succ,
        List.drop_append_of_le_length]
      · rfl
      · rw [length_cutBehind, hfull, length_chunk]
        exact min_le_left _ _

end VirtualSensor

end NoiseLevel.Sensor

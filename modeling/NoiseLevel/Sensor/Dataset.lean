import NoiseLevel.Backend.JsonText
import NoiseLevel.Core.Decimal
import NoiseLevel.Core.Strtok
import NoiseLevel.Sensor.Window

/-!
# The sensor that reads a dataset

`noise_processing` of the simulated sensor takes its readings from a file: it reads as many
bytes as a row is expected to have into a buffer that keeps what was there before, cuts
three tokens off the string in the buffer, and prints the coordinates as they are. A call
that hands a null token to `atoi` or prints one has no result.
-/

namespace NoiseLevel.Sensor

open NoiseLevel.Core Backend

/-- `CFS_BUF_SIZE`. -/
def cfsBufSize : ℕ := 4000

/-- `CFS_READ`, `CFS_WRITE` and `CFS_APPEND`. -/
def cfsReadFlag : ℕ := 1

def cfsWriteFlag : ℕ := 2

def cfsAppendFlag : ℕ := 4

/-- `file` and the loaded part of `simCFSData`. -/
structure Cfs where
  isOpen : Bool
  access : ℕ
  fileptr : ℕ
  endptr : ℕ
  simCFSData : List Char
  fileptr_le : fileptr ≤ endptr
  endptr_le : endptr ≤ simCFSData.length
  length_le : simCFSData.length ≤ cfsBufSize

namespace Cfs

variable (c : Cfs)

/-- `cfs_open`. -/
def cfsOpen (flags : ℕ) : ℤ × Cfs :=
  if c.isOpen then (-1, c)
  else if flags &&& cfsWriteFlag = 0 then
    (0, { c with
      isOpen := true
      access := flags
      fileptr := 0
      endptr := c.simCFSData.length
      fileptr_le := Nat.zero_le _
      endptr_le := le_rfl })
  else if flags &&& cfsAppendFlag = 0 then
    (0, { c with
      isOpen := true
      access := flags
      fileptr := 0
      endptr := 0
      fileptr_le := le_rfl
      endptr_le := Nat.zero_le _ })
  else
    (0, { c with
      isOpen := true
      access := flags
      fileptr := c.simCFSData.length
      endptr := c.simCFSData.length
      fileptr_le := le_rfl
      endptr_le := le_rfl })

/-- `cfs_seek` to the start of the file. -/
def cfsSeek : ℤ × Cfs :=
  if c.isOpen then (0, { c with fileptr := 0, fileptr_le := Nat.zero_le _ }) else (-1, c)

/-- The number of bytes that `cfs_read` copies. -/
def readLength (len : ℕ) : ℕ :=
  if c.endptr ≤ c.fileptr + len then c.endptr - c.fileptr else len

/-- A read stays inside the file. -/
theorem fileptr_add_readLength (len : ℕ) : c.fileptr + c.readLength len ≤ c.endptr := by
  have := c.fileptr_le
  unfold readLength
  split <;> omega

/-- `cfs_read`: the return value, and the buffer with the bytes copied to its start. -/
def cfsRead (buf : List Char) (len : ℕ) : ℤ × Cfs × List Char :=
  if c.isOpen ∧ c.access &&& cfsReadFlag ≠ 0 then
    (c.readLength len,
      { c with
        fileptr := c.fileptr + c.readLength len
        fileptr_le := c.fileptr_add_readLength len },
      (c.simCFSData.drop c.fileptr).take (c.readLength len) ++ buf.drop (c.readLength len))
  else (-1, c, buf)

end Cfs

/-- `PARSE_BUFFER_SIZE`, which is also the size of `message`. -/
def parseBufferSize : ℕ := 15

/-- The size of `buf`. -/
def bufSize : ℕ := 64

/-- `PUBLISH_BUFFER_SIZE`. -/
def publishBufferSize : ℕ := 512

/-- The delimiters of a row. -/
def delim : List Char := [',']

/-- The file and the variables of the simulated sensor. The pointers `x` and `y` are positions
in `buf`. The payloads of `mqtt_publish` are recorded, oldest first. -/
structure VirtualSensor where
  cfs : Cfs
  buf : List Char
  window : Window
  x : Option ℕ
  y : Option ℕ
  published : List (List Char)

/-- The text of the average. -/
def avgString (window : Window) : List Char :=
  (snprintf parseBufferSize (fixedTwo (Program.average window))).2

/-- The text of the raw array, whose last comma is replaced. -/
def finalString (window : Window) : List Char :=
  ((List.ofFn window.slots).foldl (fun text value =>
    text ++ (snprintf parseBufferSize (natText value ++ [','])).2) ['[']).dropLast ++ [']']

/-- `mode_str`. -/
def modeString (mode : ℕ) : List Char :=
  if mode = publishModeAvg then "avg".toList
  else if mode = publishModeRaw then "raw".toList
  else "unknown".toList

namespace VirtualSensor

variable (s : VirtualSensor)

/-- The string that a pointer into `buf` points to. -/
def string (p : Option ℕ) : Option (List Char) := p.bind fun pos => stringAt nulChar s.buf pos

/-- `publish`. -/
def publish (value : List Char) (mode : ℕ) : Option VirtualSensor := do
  let x ← s.string s.x
  let y ← s.string s.y
  let (len, pubBuffer) := snprintf publishBufferSize (measureText value (modeString mode) x y)
  if publishBufferSize ≤ len then some s
  else some { s with published := s.published ++ [pubBuffer.take len] }

/-- `publish_noise`. -/
def publishNoise : Option VirtualSensor :=
  if Program.average s.window < avgThresholdDb then s.publish (avgString s.window) publishModeAvg
  else s.publish (finalString s.window) publishModeRaw

/-- The two calls of `cfs_read` and the rewinding between them. -/
def readRecord : VirtualSensor :=
  let (rc, cfs, buf) := s.cfs.cfsRead s.buf parseBufferSize
  if rc = 0 then
    let (_, cfs, buf) := cfs.cfsSeek.2.cfsRead buf parseBufferSize
    { s with cfs, buf }
  else { s with cfs, buf }

/-- The three calls of `strtok`: the first token is stored as a number, the others are kept as
pointers. -/
def cutRecord : Option VirtualSensor := do
  let (token, buf, save) := strtok nulChar delim s.buf 0
  let noise ← token.bind fun pos => stringAt nulChar buf pos
  let (x, buf, save) := strtok nulChar delim buf save
  let (y, buf, _) := strtok nulChar delim buf save
  some { s with buf, x, y, window := s.window.store (toUint16 (atoi noise)) }

/-- `noise_processing`. -/
def noiseProcessing : Option VirtualSensor := do
  let s ← s.readRecord.cutRecord
  let s ← s.publishNoise
  some { s with window := s.window.advance }

end VirtualSensor

/-- `init_file_reading`. -/
def initFileReading (cfs : Cfs) : Cfs :=
  let (fd, cfs) := cfs.cfsOpen cfsReadFlag
  if fd < 0 then cfs else cfs.cfsSeek.2

/-- The sensor before its first call. -/
def VirtualSensor.boot (cfs : Cfs) : VirtualSensor where
  cfs := initFileReading cfs
  buf := List.replicate bufSize nulChar
  window := initNoiseValues
  x := none
  y := none
  published := []

namespace Cfs

variable (c : Cfs)

/-- The bytes that can be read. -/
def content : List Char := c.simCFSData.take c.endptr

/-- The file is open for reading. -/
def Readable : Prop := c.isOpen = true ∧ c.access &&& cfsReadFlag ≠ 0

instance : Decidable c.Readable :=
  inferInstanceAs (Decidable (c.isOpen = true ∧ c.access &&& cfsReadFlag ≠ 0))

/-- The content is as long as the file. -/
theorem length_content : c.content.length = c.endptr := by
  have := c.endptr_le
  rw [content, List.length_take]
  omega

/-- The bytes that `cfs_read` copies are the next ones of the file. -/
theorem take_readLength (len : ℕ) :
    (c.simCFSData.drop c.fileptr).take (c.readLength len) =
      (c.content.drop c.fileptr).take len := by
  rw [content, List.drop_take, List.take_take, readLength]
  congr 1
  split <;> omega

/-- As many bytes are read as there are. -/
theorem length_take_content (len : ℕ) :
    ((c.content.drop c.fileptr).take len).length = c.readLength len := by
  have := c.fileptr_le
  rw [List.length_take, List.length_drop, length_content, readLength]
  split <;> omega

/-- What a read from the end of the file returns. -/
theorem readLength_eq_zero_iff (len : ℕ) (hlen : 0 < len) :
    c.readLength len = 0 ↔ c.content.drop c.fileptr = [] := by
  rw [← c.length_take_content, List.length_eq_zero_iff, List.take_eq_nil_iff]
  simp [hlen.ne']

/-- The file after a read. -/
def advanced (len : ℕ) : Cfs :=
  { c with
    fileptr := c.fileptr + c.readLength len
    fileptr_le := c.fileptr_add_readLength len }

/-- The file after rewinding. -/
def rewound : Cfs := { c with fileptr := 0, fileptr_le := Nat.zero_le _ }

variable {c}

/-- A read of an open file. -/
theorem cfsRead_of_readable (h : c.Readable) (buf : List Char) (len : ℕ) :
    c.cfsRead buf len = ((c.readLength len : ℤ), c.advanced len,
      (c.content.drop c.fileptr).take len ++ buf.drop (c.readLength len)) := by
  rw [← take_readLength]
  exact if_pos h

/-- A read of a file that is not open fails. -/
theorem cfsRead_of_not_readable (h : ¬c.Readable) (buf : List Char) (len : ℕ) :
    c.cfsRead buf len = ((-1 : ℤ), c, buf) := if_neg h

/-- An open file can be read from its start again. -/
theorem cfsSeek_of_readable (h : c.Readable) : c.cfsSeek = ((0 : ℤ), c.rewound) := if_pos h.1

end Cfs

/-- The bytes behind the record are those that the buffer had at the start. -/
def Zeroed (buf : List Char) : Prop :=
  buf.length = bufSize ∧ ∀ c ∈ buf.drop parseBufferSize, c = nulChar

/-- Behind the row there is a NUL. -/
theorem Zeroed.drop_eq {buf : List Char} (h : Zeroed buf) :
    ∃ rest, buf.drop parseBufferSize = nulChar :: rest := by
  obtain ⟨c, rest, hrest⟩ : ∃ c rest, buf.drop parseBufferSize = c :: rest := by
    refine List.exists_cons_of_ne_nil fun hnil => ?_
    have hlength := congrArg List.length hnil
    rw [List.length_drop, h.1] at hlength
    exact absurd hlength (by decide)
  have hc := h.2 c (by rw [hrest]; exact List.mem_cons_self)
  exact ⟨rest, by rw [hrest, hc]⟩

/-- The buffer holds a string. -/
theorem Zeroed.exists_nul {buf : List Char} (h : Zeroed buf) : nulChar ∈ buf := by
  obtain ⟨rest, hrest⟩ := h.drop_eq
  exact List.mem_of_mem_drop (by rw [hrest]; exact List.mem_cons_self)

namespace VirtualSensor

variable (s : VirtualSensor)

/-- The bytes that the next call takes from the file, from its start at the end of file. -/
def incoming : List Char :=
  if s.cfs.Readable then
    (if s.cfs.content.drop s.cfs.fileptr = [] then s.cfs.content
      else s.cfs.content.drop s.cfs.fileptr).take parseBufferSize
  else []

/-- The incoming bytes over those that are still in the buffer. -/
def record : List Char := s.incoming ++ s.buf.drop s.incoming.length

/-- The string at the start of the record. -/
def seen : List Char := s.record.takeWhile fun c => c ≠ nulChar

/-- A read is no longer than a row. -/
theorem length_incoming_le : s.incoming.length ≤ parseBufferSize := by
  unfold incoming
  split
  · exact List.length_take_le _ _
  · exact Nat.zero_le _

/-- A file that is not open leaves the buffer. -/
theorem readRecord_of_not_readable (h : ¬s.cfs.Readable) : s.readRecord = s := by
  rw [readRecord, Cfs.cfsRead_of_not_readable h]
  rfl

/-- Before the end of the file the next bytes are read. -/
theorem readRecord_next (h : s.cfs.Readable) (hmore : s.cfs.content.drop s.cfs.fileptr ≠ []) :
    s.readRecord = { s with cfs := s.cfs.advanced parseBufferSize, buf := s.record } := by
  have hlength := s.cfs.length_take_content parseBufferSize
  have hrc : ¬(s.cfs.readLength parseBufferSize : ℤ) = 0 := by
    rw [Int.natCast_eq_zero, Cfs.readLength_eq_zero_iff _ _ (by decide)]
    exact hmore
  rw [readRecord, Cfs.cfsRead_of_readable h]
  dsimp only
  rw [if_neg hrc, record, incoming, if_pos h, if_neg hmore, hlength]

/-- At the end of the file the first bytes are read. -/
theorem readRecord_rewind (h : s.cfs.Readable) (hend : s.cfs.content.drop s.cfs.fileptr = []) :
    s.readRecord = { s with cfs := s.cfs.rewound.advanced parseBufferSize, buf := s.record } := by
  have hlength := s.cfs.rewound.length_take_content parseBufferSize
  have hrc := (s.cfs.readLength_eq_zero_iff parseBufferSize (by decide)).mpr hend
  have hread : (s.cfs.advanced parseBufferSize).Readable := h
  have hrewound : s.cfs.rewound.Readable := h
  have hcontent : s.cfs.rewound.content.drop s.cfs.rewound.fileptr = s.cfs.content := List.drop_zero
  rw [hcontent] at hlength
  have hsame : (s.cfs.advanced parseBufferSize).rewound = s.cfs.rewound := rfl
  rw [readRecord, Cfs.cfsRead_of_readable h]
  dsimp only
  rw [if_pos (by rw [hrc]; rfl), Cfs.cfsSeek_of_readable hread, hsame]
  dsimp only
  rw [Cfs.cfsRead_of_readable hrewound, hcontent, hend, hrc, record, incoming, if_pos h,
    if_pos hend,
    hlength]
  rfl

/-- What the buffer holds after the read. -/
theorem readRecord_buf : s.readRecord.buf = s.record := by
  by_cases h : s.cfs.Readable
  · by_cases hend : s.cfs.content.drop s.cfs.fileptr = []
    · rw [s.readRecord_rewind h hend]
    · rw [s.readRecord_next h hend]
  · rw [s.readRecord_of_not_readable h, record, incoming, if_neg h]
    rfl

/-- Reading does not touch the window. -/
theorem readRecord_window : s.readRecord.window = s.window := by
  unfold readRecord
  dsimp only
  split <;> rfl

/-- Reading publishes nothing. -/
theorem readRecord_published : s.readRecord.published = s.published := by
  unfold readRecord
  dsimp only
  split <;> rfl

/-- The end of the buffer is never written. -/
theorem zeroed_record (h : Zeroed s.buf) : Zeroed s.record := by
  have hle := s.length_incoming_le
  obtain ⟨hlength, htail⟩ := h
  have hsize : parseBufferSize ≤ bufSize := by decide
  refine ⟨?_, ?_⟩
  · rw [record, List.length_append, List.length_drop]
    omega
  · have hdrop : s.record.drop parseBufferSize = s.buf.drop parseBufferSize := by
      rw [record, List.drop_append, List.drop_of_length_le hle, List.nil_append, List.drop_drop,
        Nat.add_sub_cancel' hle]
    rwa [hdrop]

/-- The string that the first call of `strtok` finds. -/
theorem stringAt_readRecord (h : Zeroed s.buf) :
    stringAt nulChar s.readRecord.buf 0 = some s.seen := by
  rw [readRecord_buf, stringAt, List.drop_zero]
  exact if_pos (s.zeroed_record h).exists_nul

end VirtualSensor

/-- A NUL in the buffer keeps its end. -/
theorem Zeroed.set {buf : List Char} (h : Zeroed buf) (i : ℕ) : Zeroed (buf.set i nulChar) := by
  refine ⟨by rw [List.length_set, h.1], fun c hc => ?_⟩
  rw [List.drop_set] at hc
  split at hc
  · exact h.2 c hc
  · exact (List.mem_or_eq_of_mem_set hc).elim (h.2 c) id

/-- `strtok` keeps the end of the buffer. -/
theorem Zeroed.strtok {buf : List Char} (h : Zeroed buf) (pos : ℕ) :
    Zeroed (strtok nulChar delim buf pos).2.1 := by
  unfold Core.strtok
  dsimp only
  split
  · exact h
  · split
    · exact h
    · exact h.set _

namespace VirtualSensor

variable {s : VirtualSensor}

/-- The sensor behind the calls of `strtok`. -/
def cutTo (s : VirtualSensor) (noise buf : List Char) (x y : Option ℕ) : VirtualSensor :=
  { s with buf, x, y, window := s.window.store (toUint16 (atoi noise)) }

/-- What the calls of `strtok` leave, given the tokens of the string in the buffer. -/
structure CutInto (s : VirtualSensor) (noise : List Char) (more : List (List Char))
    (t : VirtualSensor) : Prop where
  cfs : t.cfs = s.cfs
  window : t.window = s.window.store (toUint16 (atoi noise))
  published : t.published = s.published
  zeroed : Zeroed s.buf → Zeroed t.buf
  x : t.string t.x = more[0]?
  y : t.string t.y = more[1]?

/-- The tokens of the record are cut off in their order. -/
theorem cutRecord_of_tokens {text noise : List Char} {more : List (List Char)}
    (h : stringAt nulChar s.buf 0 = some text) (ht : tokens delim text = noise :: more) :
    ∃ t, s.cutRecord = some t ∧ CutInto s noise more t := by
  have hnul : nulChar ∉ delim := by decide
  obtain ⟨start, cut, next, heq, hcut⟩ := strtok_of_tokens_eq_cons hnul h ht
  obtain ⟨text', htext', ht'⟩ := hcut.rest
  have hzero : Zeroed s.buf → Zeroed cut := fun hz => by simpa only [heq] using hz.strtok 0
  cases more with
  | nil =>
    have hx := strtok_of_tokens_eq_nil hnul htext' ht'
    have hy := strtok_of_tokens_eq_nil hnul (stringAt_length htext') tokens_nil
    refine ⟨s.cutTo noise cut none none, ?_, ⟨rfl, rfl, rfl, hzero, rfl, rfl⟩⟩
    simp only [cutRecord, heq, hcut.token_eq, hx, hy, Option.bind_some, Option.bind_eq_bind, cutTo]
  | cons b more =>
    obtain ⟨start', cut', next', heq', hcut'⟩ := strtok_of_tokens_eq_cons hnul htext' ht'
    obtain ⟨text'', htext'', ht''⟩ := hcut'.rest
    have hzero' : Zeroed s.buf → Zeroed cut' := fun hz => by
      simpa only [heq'] using (hzero hz).strtok next
    cases more with
    | nil =>
      have hy := strtok_of_tokens_eq_nil hnul htext'' ht''
      refine ⟨s.cutTo noise cut' (some start') none, ?_,
        ⟨rfl, rfl, rfl, hzero', hcut'.token_eq, rfl⟩⟩
      simp only [cutRecord, heq, hcut.token_eq, heq', hy, Option.bind_some, Option.bind_eq_bind,
        cutTo]
    | cons c more =>
      obtain ⟨start'', cut'', next'', heq'', hcut''⟩ := strtok_of_tokens_eq_cons hnul htext'' ht''
      have hlt := hcut'.token_lt (List.cons_ne_nil _ _)
      refine ⟨s.cutTo noise cut'' (some start') (some start''), ?_,
        ⟨rfl, rfl, rfl, fun hz => ?_, ?_, hcut''.token_eq⟩⟩
      · simp only [cutRecord, heq, hcut.token_eq, heq', heq'', Option.bind_some,
          Option.bind_eq_bind, cutTo]
      · simpa only [heq'', cutTo] using (hzero' hz).strtok next'
      · exact stringAt_congr hcut'.token_eq hlt hcut''.frame

/-- Without a token `atoi` is called with a null pointer. -/
theorem cutRecord_eq_none {text : List Char} (h : stringAt nulChar s.buf 0 = some text)
    (ht : tokens delim text = []) : s.cutRecord = none := by
  rw [cutRecord, strtok_of_tokens_eq_nil (by decide) h ht]
  rfl

/-- The message that a window and the coordinates of a call make. -/
def noiseMessage (window : Window) (x y : List Char) : List Char :=
  if Program.average window < avgThresholdDb then
    measureText (avgString window) (modeString publishModeAvg) x y
  else measureText (finalString window) (modeString publishModeRaw) x y

/-- A printed text fits its buffer. -/
theorem length_snprintf_le (text : List Char) :
    (snprintf parseBufferSize text).2.length ≤ 14 := List.length_take_le _ _

/-- The readings fit their buffer. -/
theorem length_finalString_le (window : Window) : (finalString window).length ≤ 86 := by
  have hfold : ∀ (values : List ℕ) (text : List Char), (values.foldl (fun text value =>
      text ++ (snprintf parseBufferSize (natText value ++ [','])).2) text).length ≤
        text.length + 14 * values.length := by
    intro values
    induction values with
    | nil => exact fun text => by simp
    | cons v values ih =>
      intro text
      have hv := length_snprintf_le (natText v ++ [','])
      refine (ih _).trans ?_
      rw [List.length_append, List.length_cons]
      omega
  have h := hfold (List.ofFn window.slots) ['[']
  rw [List.length_ofFn] at h
  have hsize : maxWindowSize = 6 := rfl
  rw [finalString, List.length_append, List.length_dropLast]
  simp only [List.length_singleton] at h ⊢
  omega

/-- The texts of a message are short enough for the buffer. -/
theorem length_measureText_lt {value mode x y : List Char} (hvalue : value.length ≤ 86)
    (hmode : mode.length ≤ 7) (hx : x.length ≤ bufSize) (hy : y.length ≤ bufSize) :
    (measureText value mode x y).length < publishBufferSize := by
  rw [length_measureText]
  simp only [bufSize, publishBufferSize] at *
  omega

/-- What `publish` adds when both coordinates are strings. -/
theorem publish_of_strings {x y value : List Char} {mode : ℕ} (hx : s.string s.x = some x)
    (hy : s.string s.y = some y)
    (hlt : (measureText value (modeString mode) x y).length < publishBufferSize) :
    s.publish value mode = some { s with
      published := s.published ++ [measureText value (modeString mode) x y] } := by
  rw [publish, hx, hy]
  dsimp only [Option.bind_eq_bind, Option.bind_some]
  rw [snprintf_of_lt hlt]
  dsimp only
  rw [if_neg (not_le.mpr hlt), List.take_length]

/-- With both coordinates the message is always sent. -/
theorem publishNoise_of_strings {x y : List Char} (hx : s.string s.x = some x)
    (hy : s.string s.y = some y) (hlx : x.length ≤ bufSize) (hly : y.length ≤ bufSize) :
    s.publishNoise = some { s with published := s.published ++ [noiseMessage s.window x y] } := by
  have havg : (avgString s.window).length ≤ 86 := (length_snprintf_le _).trans (by decide)
  unfold publishNoise noiseMessage
  split
  · exact publish_of_strings hx hy (length_measureText_lt havg (by decide) hlx hly)
  · exact publish_of_strings hx hy
      (length_measureText_lt (length_finalString_le _) (by decide) hlx hly)

/-- A null coordinate is printed in no case. -/
theorem publishNoise_eq_none (h : s.string s.y = none) : s.publishNoise = none := by
  have hpublish : ∀ value mode, s.publish value mode = none := by
    intro value mode
    rw [publish, h]
    cases s.string s.x <;> rfl
  unfold publishNoise
  split <;> exact hpublish _ _

/-- What a call leaves, given the three tokens that it has seen. -/
structure Stored (s : VirtualSensor) (noise x y : List Char) (t : VirtualSensor) : Prop where
  cfs : t.cfs = s.readRecord.cfs
  window : t.window = s.window.push (toUint16 (atoi noise))
  published : t.published = s.published ++ [noiseMessage t.window x y]
  zeroed : Zeroed t.buf
  x : t.string t.x = some x
  y : t.string t.y = some y

/-- A string of the buffer is no longer than the buffer. -/
theorem length_le_of_string {text : List Char} {p : Option ℕ} (hz : Zeroed s.buf)
    (h : s.string p = some text) : text.length ≤ bufSize := by
  obtain ⟨pos, -, hpos⟩ := Option.bind_eq_some_iff.mp h
  have hlt := length_lt_of_cString hpos
  rw [List.length_drop, hz.1] at hlt
  omega

/-- A record with three tokens is stored and published. -/
theorem noiseProcessing_of_tokens {noise x y : List Char} {more : List (List Char)}
    (hz : Zeroed s.buf) (ht : tokens delim s.seen = noise :: x :: y :: more) :
    ∃ t, s.noiseProcessing = some t ∧ Stored s noise x y t := by
  have hrecord : Zeroed s.readRecord.buf := by
    rw [readRecord_buf]
    exact s.zeroed_record hz
  obtain ⟨t, hcut, h⟩ := cutRecord_of_tokens (s.stringAt_readRecord hz) ht
  have hzt := h.zeroed hrecord
  have hx : t.string t.x = some x := h.x
  have hy : t.string t.y = some y := h.y
  have hpublish := publishNoise_of_strings hx hy (length_le_of_string hzt hx)
    (length_le_of_string hzt hy)
  have hwindow : t.window = s.window.store (toUint16 (atoi noise)) := by
    rw [h.window]
    exact congrArg (RingWindow.store · _) s.readRecord_window
  refine ⟨{ t with
    window := t.window.advance
    published := t.published ++ [noiseMessage t.window x y] }, ?_, ?_⟩
  · rw [noiseProcessing, hcut]
    dsimp only [Option.bind_eq_bind, Option.bind_some]
    rw [hpublish]
    rfl
  · refine ⟨h.cfs, ?_, ?_, hzt, hx, hy⟩
    · exact congrArg RingWindow.advance hwindow
    · exact congrArg (· ++ [noiseMessage t.window x y]) (h.published.trans s.readRecord_published)

/-- A record with fewer tokens hands a null token on. -/
theorem noiseProcessing_eq_none (hz : Zeroed s.buf) (ht : (tokens delim s.seen).length < 3) :
    s.noiseProcessing = none := by
  have htext := s.stringAt_readRecord hz
  cases hmore : tokens delim s.seen with
  | nil =>
    rw [noiseProcessing, cutRecord_eq_none htext hmore]
    rfl
  | cons noise more =>
    obtain ⟨t, hcut, h⟩ := cutRecord_of_tokens htext hmore
    have hy : t.string t.y = none := by
      rw [h.y]
      rw [hmore, List.length_cons] at ht
      exact List.getElem?_eq_none (by omega)
    rw [noiseProcessing, hcut]
    dsimp only [Option.bind_eq_bind, Option.bind_some]
    rw [publishNoise_eq_none hy]
    rfl

/-- Static storage is zero. -/
theorem zeroed_boot (cfs : Cfs) : Zeroed (boot cfs).buf :=
  ⟨List.length_replicate, fun _ hc => List.eq_of_mem_replicate (List.mem_of_mem_drop hc)⟩

end VirtualSensor

end NoiseLevel.Sensor

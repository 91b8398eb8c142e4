import NoiseLevel.Sensor.Robustness

/-!
# The generated dataset

The generator walks at random inside its bounds: a step that would leave them is taken in
the other direction, and the position is rounded to two decimals. Every row then has the
width of a record, so that the sensor reads the rows in turn for ever.
-/

namespace NoiseLevel.Sensor

open NoiseLevel.Core Backend

def minX : ℚ := 10

def minY : ℚ := 10

def maxX : ℚ := 99

def maxY : ℚ := 99

def minNoise : ℤ := 10

def maxNoise : ℤ := 99

def maxDeltaX : ℚ := 10

def maxDeltaY : ℚ := 10

def maxDeltaNoise : ℤ := 20

/-- `actual_x`, `actual_y` and `actual_noise`. -/
structure Walk where
  x : ℚ
  y : ℚ
  noise : ℤ

/-- `delta_x`, `delta_y` and `delta_noise`. -/
structure Delta where
  x : ℚ
  y : ℚ
  noise : ℤ

/-- The values that `np.random` may return. -/
structure Delta.Drawn (d : Delta) : Prop where
  x : -(maxDeltaX / 2) ≤ d.x ∧ d.x ≤ maxDeltaX / 2
  y : -(maxDeltaY / 2) ≤ d.y ∧ d.y ≤ maxDeltaY / 2
  noise : -(maxDeltaNoise / 2) ≤ d.noise ∧ d.noise < maxDeltaNoise / 2 + 1

section Turned

variable {α : Type*} [CommRing α] [LinearOrder α]

/-- A step that would leave the bounds is taken in the other direction. -/
def turned (lo hi actual delta : α) : α :=
  if actual + delta > hi ∨ actual + delta < lo then -delta else delta

/-- Steps of at most half the width of the bounds stay inside them. -/
theorem add_turned_mem [IsStrictOrderedRing α] {lo hi actual delta bound : α}
    (ha : lo ≤ actual ∧ actual ≤ hi) (hd : -bound ≤ delta ∧ delta ≤ bound)
    (hb : bound + bound ≤ hi - lo) :
    lo ≤ actual + turned lo hi actual delta ∧ actual + turned lo hi actual delta ≤ hi := by
  obtain ⟨halo, hahi⟩ := ha
  obtain ⟨hdlo, hdhi⟩ := hd
  unfold turned
  split
  · next hout =>
    rcases hout with hout | hout
    · constructor <;> linarith
    · constructor <;> linarith
  · next hin =>
    rw [not_or, not_lt, not_lt] at hin
    exact ⟨hin.2, hin.1⟩

end Turned

/-- A coordinate between ten and ninety-nine, in hundredths. -/
def OnGrid (q : ℚ) : Prop := ∃ h : ℕ, 1000 ≤ h ∧ h ≤ 9900 ∧ q = (h : ℚ) / 100

/-- A coordinate of the grid is in bounds. -/
theorem OnGrid.bounds {q : ℚ} (h : OnGrid q) : 10 ≤ q ∧ q ≤ 99 := by
  obtain ⟨n, hlo, hhi, rfl⟩ := h
  have hlo : (1000 : ℚ) ≤ n := by exact_mod_cast hlo
  have hhi : (n : ℚ) ≤ 9900 := by exact_mod_cast hhi
  constructor <;> linarith

/-- Rounding puts a coordinate on the grid and keeps it inside the bounds. -/
theorem onGrid_roundTwo {q : ℚ} (h : 10 ≤ q ∧ q ≤ 99) : OnGrid (roundTwo q) := by
  have hlo : (1000 : ℤ) ≤ roundEven (100 * q) := le_roundEven (by push_cast; linarith)
  have hhi : roundEven (100 * q) ≤ (9900 : ℤ) := roundEven_le (by push_cast; linarith)
  refine ⟨(roundEven (100 * q)).toNat, by omega, by omega, ?_⟩
  have hcast : (((roundEven (100 * q)).toNat : ℤ) : ℚ) = roundEven (100 * q) := by
    rw [Int.toNat_of_nonneg (by omega)]
  rw [roundTwo, ← hcast, Int.cast_natCast]

namespace Walk

/-- One iteration of the loop, up to the row. -/
def step (w : Walk) (d : Delta) : Walk where
  x := roundTwo (w.x + turned minX maxX w.x d.x)
  y := roundTwo (w.y + turned minY maxY w.y d.y)
  noise := w.noise + turned minNoise maxNoise w.noise d.noise

/-- The values of the rows that the loop writes. -/
def rows : Walk → List Delta → List Walk
  | _, [] => []
  | w, d :: deltas => w.step d :: rows (w.step d) deltas

/-- The row that `writerow` writes. -/
def rowText (w : Walk) : List Char :=
  intText w.noise ++ ',' :: (fixedTwo w.x ++ ',' :: (fixedTwo w.y ++ ['\n']))

/-- The file that the generator writes. -/
def dataset (w : Walk) (deltas : List Delta) : List Char := ((w.rows deltas).map rowText).flatten

/-- The walk is inside its bounds. -/
structure InBounds (w : Walk) : Prop where
  x : minX ≤ w.x ∧ w.x ≤ maxX
  y : minY ≤ w.y ∧ w.y ≤ maxY
  noise : minNoise ≤ w.noise ∧ w.noise ≤ maxNoise

/-- The walk is at a place that the generator can write. -/
structure Written (w : Walk) : Prop where
  x : OnGrid w.x
  y : OnGrid w.y
  noise : minNoise ≤ w.noise ∧ w.noise ≤ maxNoise

variable {w : Walk} {d : Delta}

/-- A row that was written is in bounds. -/
theorem Written.inBounds (h : w.Written) : w.InBounds := ⟨h.x.bounds, h.y.bounds, h.noise⟩

/-- Every step leads to such a place. -/
theorem InBounds.step (h : w.InBounds) (hd : d.Drawn) : (w.step d).Written where
  x := onGrid_roundTwo (add_turned_mem h.x hd.x (by norm_num [maxDeltaX, minX, maxX]))
  y := onGrid_roundTwo (add_turned_mem h.y hd.y (by norm_num [maxDeltaY, minY, maxY]))
  noise := add_turned_mem h.noise ⟨hd.noise.1, Int.lt_add_one_iff.mp hd.noise.2⟩ (by decide)

/-- The walk stays inside its bounds for ever. -/
theorem written_rows {deltas : List Delta} (h : w.InBounds) (hd : ∀ d ∈ deltas, d.Drawn) :
    ∀ v ∈ w.rows deltas, v.Written := by
  induction deltas generalizing w with
  | nil => exact fun v hv => absurd hv List.not_mem_nil
  | cons d deltas ih =>
    have hstep := h.step (hd d List.mem_cons_self)
    intro v hv
    rcases List.mem_cons.mp hv with rfl | hv
    · exact hstep
    · exact ih hstep.inBounds (fun d hmem => hd d (List.mem_cons_of_mem _ hmem)) v hv

/-- Every delta makes a row. -/
theorem length_rows (w : Walk) (deltas : List Delta) : (w.rows deltas).length = deltas.length := by
  induction deltas generalizing w with
  | nil => rfl
  | cons d deltas ih => rw [rows, List.length_cons, List.length_cons, ih]

end Walk

/-- A text of digits and points. -/
def Digits (text : List Char) : Prop := text ≠ [] ∧ ∀ c ∈ text, c.isDigit = true ∨ c = '.'

/-- Digits are a field. -/
theorem Digits.isField {text : List Char} (h : Digits text) : IsField text := by
  have hnot : ∀ c, c.isDigit = false → c ≠ '.' → c ∉ text := by
    intro c hc hpoint hmem
    rcases h.2 c hmem with hd | hd
    · rw [hc] at hd
      cases hd
    · exact hpoint hd
  exact ⟨h.1, hnot _ rfl (by decide), hnot _ rfl (by decide), hnot _ rfl (by decide)⟩

/-- A coordinate is written with five characters. -/
theorem OnGrid.fixedTwo {q : ℚ} (h : OnGrid q) : (fixedTwo q).length = 5 ∧ Digits (fixedTwo q) := by
  obtain ⟨n, hlo, hhi, rfl⟩ := h
  have h1 := isDigit_digitChar (n := n / 1000) (by omega)
  have h2 := isDigit_digitChar (n := n / 100 % 10) (by omega)
  have h3 := isDigit_digitChar (n := n / 10 % 10) (by omega)
  have h4 := isDigit_digitChar (n := n % 10) (by omega)
  rw [fixedTwo_hundredths hlo (by omega)]
  refine ⟨rfl, List.cons_ne_nil _ _, ?_⟩
  simp [h1, h2, h3, h4]

/-- A noise is written with two characters. -/
theorem intText_noise {n : ℤ} (hlo : 10 ≤ n) (hhi : n ≤ 99) :
    (intText n).length = 2 ∧ Digits (intText n) ∧ atoi (intText n) = n := by
  obtain ⟨k, rfl⟩ := Int.eq_ofNat_of_zero_le (show 0 ≤ n by omega)
  have htext : intText (k : ℤ) = natText k := by
    rw [intText, if_neg (by omega)]
    rfl
  rw [htext]
  refine ⟨?_, ⟨natText_ne_nil k, fun c hc => Or.inl (isDigit_of_mem_natText hc)⟩, ?_⟩
  · rw [natText_two (by omega) (by omega)]
    rfl
  · have hatoi : atoi (natText k ++ []) = k := atoi_natText (by simp [NoDigit])
    rwa [List.append_nil] at hatoi

namespace Walk.Written

variable {w : Walk} (h : w.Written)
include h

/-- Every row has the width of a record. -/
theorem length_rowText : w.rowText.length = parseBufferSize := by
  have hnoise := intText_noise h.noise.1 h.noise.2
  have hx := h.x.fixedTwo
  have hy := h.y.fixedTwo
  simp only [rowText, List.length_append, List.length_cons, List.length_nil, hnoise.1, hx.1, hy.1]
  rfl

/-- No row has a NUL. -/
theorem nul_not_mem_rowText : nulChar ∉ w.rowText := by
  have hnoise := (intText_noise h.noise.1 h.noise.2).2.1.isField.no_nul
  have hx := h.x.fixedTwo.2.isField.no_nul
  have hy := h.y.fixedTwo.2.isField.no_nul
  have hcomma : nulChar ≠ ',' := by decide
  have hnewline : nulChar ≠ '\n' := by decide
  simp [rowText, hnoise, hx, hy, hcomma, hnewline]

/-- The tokens of a row are its fields, the last one with the end of the line. -/
theorem tokens_rowText :
    tokens delim w.rowText = [intText w.noise, fixedTwo w.x, fixedTwo w.y ++ ['\n']] := by
  have hpiece : ∀ {text : List Char}, ',' ∉ text → ∀ c ∈ text, c ∉ delim := by
    intro text htext c hc hmem
    exact htext (List.mem_singleton.mp hmem ▸ hc)
  have hnoise := (intText_noise h.noise.1 h.noise.2).2.1.isField
  have hx := h.x.fixedTwo.2.isField
  have hy := h.y.fixedTwo.2.isField
  have hlast : ',' ∉ fixedTwo w.y ++ ['\n'] := by simp [hy.no_comma]
  have htail : tokens delim (fixedTwo w.y ++ ['\n'] ++ []) =
      (fixedTwo w.y ++ ['\n']) :: tokens delim ([] : List Char).tail :=
    tokens_piece (hpiece hlast) (by simp) (by simp)
  rw [List.append_nil] at htail
  rw [rowText, tokens_piece (hpiece hnoise.no_comma) hnoise.ne_nil (by simp [delim]),
    List.tail_cons, tokens_piece (hpiece hx.no_comma) hx.ne_nil (by simp [delim]),
    List.tail_cons, htail]
  rfl

end Walk.Written

/-- Blocks of one width. -/
theorem length_flatten_blocks {α : Type*} {blocks : List (List α)} {width : ℕ}
    (h : ∀ b ∈ blocks, b.length = width) : blocks.flatten.length = width * blocks.length := by
  induction blocks with
  | nil => rfl
  | cons a blocks ih =>
    rw [List.flatten_cons, List.length_append, h a List.mem_cons_self,
      ih fun b hb => h b (List.mem_cons_of_mem a hb), List.length_cons, Nat.mul_succ, Nat.add_comm]

/-- Blocks of one width are found at its multiples. -/
theorem take_drop_flatten {α : Type*} {blocks : List (List α)} {width : ℕ}
    (h : ∀ b ∈ blocks, b.length = width) {r : ℕ} {b : List α} (hb : blocks[r]? = some b) :
    (blocks.flatten.drop (width * r)).take width = b := by
  induction blocks generalizing r with
  | nil => cases hb
  | cons a blocks ih =>
    have ha := h a List.mem_cons_self
    cases r with
    | zero =>
      obtain rfl := Option.some.inj hb
      rw [Nat.mul_zero, List.drop_zero, List.flatten_cons, ← ha, List.take_left]
    | succ r =>
      have hdrop :
          (a :: blocks).flatten.drop (width * (r + 1)) = blocks.flatten.drop (width * r) := by
        rw [Nat.mul_succ, Nat.add_comm, ← List.drop_drop, List.flatten_cons, ← ha, List.drop_left]
      rw [hdrop]
      exact ih (fun b hmem => h b (List.mem_cons_of_mem a hmem)) hb

/-- All rows have the width of the buffer. -/
theorem width_rowText {rows : List Walk} (h : ∀ w ∈ rows, w.Written) :
    ∀ b ∈ rows.map Walk.rowText, b.length = parseBufferSize := by
  intro b hb
  obtain ⟨w, hw, rfl⟩ := List.mem_map.mp hb
  exact (h w hw).length_rowText

namespace VirtualSensor

/-- The sensor is about to read the row that comes after some calls. -/
structure AtRow (rows : List Walk) (k : ℕ) (s : VirtualSensor) : Prop where
  readable : s.cfs.Readable
  content : s.cfs.content = (rows.map Walk.rowText).flatten
  zeroed : Zeroed s.buf
  fileptr : ∃ p, s.cfs.fileptr = parseBufferSize * p ∧ p ≤ rows.length ∧
    p % rows.length = k % rows.length

variable {rows : List Walk} {k : ℕ} {s : VirtualSensor}

section Rows

variable (h : AtRow rows k s) (hrows : ∀ w ∈ rows, w.Written) {w : Walk}
include h hrows

/-- The file is a whole number of rows. -/
theorem AtRow.length_content : s.cfs.content.length = parseBufferSize * rows.length := by
  rw [h.content, length_flatten_blocks (width_rowText hrows), List.length_map]

/-- A row is a block of the file. -/
theorem AtRow.block_eq {r : ℕ} (hr : rows[r]? = some w) :
    (s.cfs.content.drop (parseBufferSize * r)).take parseBufferSize = w.rowText := by
  rw [h.content]
  exact take_drop_flatten (width_rowText hrows) (by rw [List.getElem?_map, hr]; rfl)

/-- Before the end of the file the row at the pointer comes in. -/
theorem AtRow.incoming_next {p : ℕ} (hp : s.cfs.fileptr = parseBufferSize * p)
    (hw : rows[p]? = some w) : s.incoming = w.rowText ∧
      s.readRecord.cfs.content = s.cfs.content ∧ s.readRecord.cfs.Readable ∧
        s.readRecord.cfs.fileptr = parseBufferSize * (p + 1) := by
  have hlt := (List.getElem?_eq_some_iff.mp hw).1
  have hmore : s.cfs.content.drop s.cfs.fileptr ≠ [] := by
    rw [Ne, List.drop_eq_nil_iff, h.length_content hrows, hp]
    exact not_le.mpr (Nat.mul_lt_mul_of_pos_left hlt (by decide))
  have hread := s.cfs.length_take_content parseBufferSize
  rw [hp, h.block_eq hrows hw, (hrows w (List.mem_of_getElem? hw)).length_rowText] at hread
  constructor
  · rw [incoming, if_pos h.readable, if_neg hmore, hp, h.block_eq hrows hw]
  · rw [s.readRecord_next h.readable hmore]
    refine ⟨rfl, h.readable, ?_⟩
    simp only [Cfs.advanced]
    rw [← hread, hp, Nat.mul_succ]

/-- At the end of the file the first row comes next. -/
theorem AtRow.incoming_rewind (hp : s.cfs.fileptr = parseBufferSize * rows.length)
    (hw : rows[0]? = some w) : s.incoming = w.rowText ∧
      s.readRecord.cfs.content = s.cfs.content ∧ s.readRecord.cfs.Readable ∧
        s.readRecord.cfs.fileptr = parseBufferSize := by
  have hend : s.cfs.content.drop s.cfs.fileptr = [] := by
    rw [List.drop_eq_nil_iff, h.length_content hrows, hp]
  have hfirst := h.block_eq hrows hw
  rw [Nat.mul_zero, List.drop_zero] at hfirst
  have hread := s.cfs.rewound.length_take_content parseBufferSize
  have hcontent : s.cfs.rewound.content.drop s.cfs.rewound.fileptr = s.cfs.content := List.drop_zero
  rw [hcontent, hfirst, (hrows w (List.mem_of_getElem? hw)).length_rowText] at hread
  constructor
  · rw [incoming, if_pos h.readable, if_pos hend, hfirst]
  · rw [s.readRecord_rewind h.readable hend]
    refine ⟨rfl, h.readable, ?_⟩
    simp only [Cfs.advanced]
    rw [← hread]
    exact Nat.zero_add _

/-- The row comes in whole, and the pointer moves behind it. -/
theorem AtRow.incoming_eq (hw : rows[k % rows.length]? = some w) : s.incoming = w.rowText ∧
    s.readRecord.cfs.content = s.cfs.content ∧ s.readRecord.cfs.Readable ∧
      s.readRecord.cfs.fileptr = parseBufferSize * (k % rows.length + 1) := by
  obtain ⟨p, hp, hle, hmod⟩ := h.fileptr
  rcases Nat.lt_or_eq_of_le hle with hlt | rfl
  · rw [Nat.mod_eq_of_lt hlt] at hmod
    subst hmod
    exact h.incoming_next hrows hp hw
  · rw [Nat.mod_self] at hmod
    rw [← hmod] at hw ⊢
    exact h.incoming_rewind hrows hp hw

end Rows

/-- Each call stores the next row. -/
theorem AtRow.next (h : AtRow rows k s) (hrows : ∀ w ∈ rows, w.Written) (hne : rows ≠ []) :
    ∃ t w, s.noiseProcessing = some t ∧ rows[k % rows.length]? = some w ∧
      Stored s (intText w.noise) (fixedTwo w.x) (fixedTwo w.y ++ ['\n']) t ∧
        AtRow rows (k + 1) t := by
  have hlt := Nat.mod_lt k (List.length_pos_iff.mpr hne)
  obtain ⟨w, hw⟩ : ∃ w, rows[k % rows.length]? = some w := ⟨_, List.getElem?_eq_getElem hlt⟩
  have hwritten := hrows w (List.mem_of_getElem? hw)
  obtain ⟨hincoming, hcontent, hreadable, hfileptr⟩ := h.incoming_eq hrows hw
  have hseen : s.seen = w.rowText := by
    obtain ⟨rest, hrest⟩ := h.zeroed.drop_eq
    have hno : ∀ c ∈ w.rowText, decide (c ≠ nulChar) = true := fun c hc => by
      simpa using ne_of_mem_of_not_mem hc hwritten.nul_not_mem_rowText
    rw [seen, record, hincoming, hwritten.length_rowText, hrest, List.takeWhile_append_of_pos hno]
    simp
  obtain ⟨t, ht, hstored⟩ := noiseProcessing_of_tokens h.zeroed
    (hseen ▸ hwritten.tokens_rowText)
  refine ⟨t, w, ht, hw, hstored, ?_, ?_, hstored.zeroed, k % rows.length + 1, ?_, hlt, ?_⟩
  · rw [hstored.cfs]
    exact hreadable
  · rw [hstored.cfs, hcontent, h.content]
  · rw [hstored.cfs, hfileptr]
  · rw [Nat.mod_add_mod]

/-- The state after some calls, unless one of them fails. -/
def calls : ℕ → VirtualSensor → Option VirtualSensor
  | 0, s => some s
  | k + 1, s => (calls k s).bind noiseProcessing

/-- The rows are read in turn for ever. -/
theorem AtRow.calls (h : AtRow rows 0 s) (hrows : ∀ w ∈ rows, w.Written) (hne : rows ≠ []) (k : ℕ) :
    ∃ t, VirtualSensor.calls k s = some t ∧ AtRow rows k t := by
  induction k with
  | zero => exact ⟨s, rfl, h⟩
  | succ k ih =>
    obtain ⟨t, ht, hrow⟩ := ih
    obtain ⟨u, -, hu, -, -, hnext⟩ := hrow.next hrows hne
    exact ⟨u, by rw [VirtualSensor.calls, ht, Option.bind_some, hu], hnext⟩

/-- The sensor starts at the first row of a file that it could open. -/
theorem atRow_boot {cfs : Cfs} (hclosed : cfs.isOpen = false)
    (hdata : cfs.simCFSData = (rows.map Walk.rowText).flatten) : AtRow rows 0 (boot cfs) := by
  have hopen : cfs.cfsOpen cfsReadFlag = ((0 : ℤ), { cfs with
      isOpen := true
      access := cfsReadFlag
      fileptr := 0
      endptr := cfs.simCFSData.length
      fileptr_le := Nat.zero_le _
      endptr_le := le_rfl }) := by
    rw [Cfs.cfsOpen, if_neg (by rw [hclosed]; exact Bool.false_ne_true), if_pos (by decide)]
  have hcfs : (boot cfs).cfs = { cfs with
      isOpen := true
      access := cfsReadFlag
      fileptr := 0
      endptr := cfs.simCFSData.length
      fileptr_le := Nat.zero_le _
      endptr_le := le_rfl } := by
    change initFileReading cfs = _
    rw [initFileReading, hopen]
    rfl
  refine ⟨?_, ?_, zeroed_boot cfs, 0, ?_, Nat.zero_le _, rfl⟩
  · rw [hcfs]
    exact ⟨rfl, show cfsReadFlag &&& cfsReadFlag ≠ 0 by decide⟩
  · rw [hcfs, Cfs.content, List.take_length, hdata]
  · rw [hcfs]
    rfl

end VirtualSensor

/-- The call has taken the noise and the coordinates of a row, the last one with the end of
the line. -/
def Yields (s t : VirtualSensor) (w : Walk) : Prop :=
  (∃ level : ℕ, (level : ℤ) = w.noise ∧ t.window = s.window.push level) ∧
    t.string t.x = some (fixedTwo w.x) ∧ t.string t.y = some (fixedTwo w.y ++ ['\n'])

/-- The file is one block of a record's width for each sample, and the calls of the sensor take
the rows in turn for ever. -/
structure RowsAgree (start : Walk) (deltas : List Delta) (cfs : Cfs) : Prop where
  length_rows : (start.rows deltas).length = deltas.length
  length_dataset : (start.dataset deltas).length = 15 * deltas.length
  row : ∀ w ∈ start.rows deltas, w.rowText.length = 15 ∧ (10 ≤ w.noise ∧ w.noise ≤ 99) ∧
    (10 ≤ w.x ∧ w.x ≤ 99) ∧ 10 ≤ w.y ∧ w.y ≤ 99
  yields : ∀ k, ∃ s t w, VirtualSensor.calls k (.boot cfs) = some s ∧ s.noiseProcessing = some t ∧
    (start.rows deltas)[k % deltas.length]? = some w ∧ Yields s t w

/-- The generator and the sensor agree on the rows. -/
theorem rowsAgree {start : Walk} {deltas : List Delta} (hstart : start.InBounds)
    (hdeltas : ∀ d ∈ deltas, d.Drawn) (hpos : 1 ≤ deltas.length) {cfs : Cfs}
    (hclosed : cfs.isOpen = false) (hdata : cfs.simCFSData = start.dataset deltas) :
    RowsAgree start deltas cfs := by
  have hlength := start.length_rows deltas
  have hrows := Walk.written_rows hstart hdeltas
  have hne : start.rows deltas ≠ [] := List.length_pos_iff.mp (by omega)
  refine ⟨hlength, ?_, fun w hw => ?_, fun k => ?_⟩
  · rw [Walk.dataset, length_flatten_blocks (width_rowText hrows), List.length_map, hlength]
    rfl
  · have hwritten := hrows w hw
    exact ⟨hwritten.length_rowText, hwritten.noise, hwritten.x.bounds, hwritten.y.bounds⟩
  · obtain ⟨s, hs, hrow⟩ := (VirtualSensor.atRow_boot hclosed hdata).calls hrows hne k
    obtain ⟨t, w, ht, hw, hstored, -⟩ := hrow.next hrows hne
    rw [hlength] at hw
    refine ⟨s, t, w, hs, ht, hw, ⟨_, ?_, hstored.window⟩, hstored.x, hstored.y⟩
    have hnoise := (hrows w (List.mem_of_getElem? hw)).noise
    rw [(intText_noise hnoise.1 hnoise.2).2.2, toUint16]
    simp only [minNoise, maxNoise] at hnoise
    omega

/-- `starting_x`, `starting_y` and `starting_noise`. -/
def starting : Walk := ⟨83, 23, 33⟩

/-- Two deltas that are taken as they are drawn. -/
def shortWalk : List Delta := [⟨1 / 3, -5, 4⟩, ⟨-2, 1 / 8, -10⟩]

/-- The file of two rows. -/
def shortFile : Cfs := loaded "37,83.33,18.00\n27,81.33,18.12\n" (by decide)

theorem rowsAgree_short : RowsAgree starting shortWalk shortFile :=
  rowsAgree ⟨by norm_num [starting, minX, maxX], by norm_num [starting, minY, maxY], by decide⟩
    (by
      intro d hd
      simp only [shortWalk, List.mem_cons, List.not_mem_nil, or_false] at hd
      rcases hd with rfl | rfl <;>
        exact ⟨by norm_num [maxDeltaX], by norm_num [maxDeltaY], by decide⟩)
    (by decide) rfl (by decide +kernel)

end NoiseLevel.Sensor

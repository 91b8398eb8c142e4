import NoiseLevel.Sensor.Chunks

/-!
# Which datasets the sensor survives

A call takes whatever stands in its buffer for a row. It stores and publishes the fields of
a line of the file exactly when the chunk that it reads, over what was left of the one
before, starts with such fields between commas, and it never leaves a bad chunk out: with
fewer pieces it hands on a null pointer.
-/

namespace NoiseLevel.Sensor

open NoiseLevel.Core Backend

/-- A field of a line. -/
structure IsField (text : List Char) : Prop where
  ne_nil : text ≠ []
  no_comma : ',' ∉ text
  no_newline : '\n' ∉ text
  no_nul : nulChar ∉ text

/-- A line of three fields, between ends of lines or of the file. -/
structure CompleteLine (file noise x y : List Char) : Prop where
  isField_noise : IsField noise
  isField_x : IsField x
  isField_y : IsField y
  stands : ∃ before after, file = before ++ (noise ++ ',' :: (x ++ ',' :: (y ++ after))) ∧
    (before = [] ∨ before.getLast? = some '\n') ∧ (after = [] ∨ after.head? = some '\n')

/-- A text between commas, as `strtok` cuts it off. -/
structure IsPiece (text : List Char) : Prop where
  ne_nil : text ≠ []
  no_comma : ',' ∉ text
  no_nul : nulChar ∉ text

/-- What stands in a buffer begins with three pieces: commas may stand before the first one, there
is at least one behind each of the first two, and a comma, a NUL or the end behind the third. -/
structure BeginsWith (buffer text x y : List Char) : Prop where
  isPiece_text : IsPiece text
  isPiece_x : IsPiece x
  isPiece_y : IsPiece y
  stands : ∃ gap gap' gap'' after,
    buffer = gap ++ (text ++ (gap' ++ (x ++ (gap'' ++ (y ++ after))))) ∧
      (∀ c ∈ gap ++ gap' ++ gap'', c = ',') ∧ gap' ≠ [] ∧ gap'' ≠ [] ∧
      ∀ c ∈ after.head?, c = ',' ∨ c = nulChar

theorem mem_delim {c : Char} : c ∈ delim ↔ c = ',' := List.mem_singleton

theorem IsPiece.not_mem_delim {text : List Char} (h : IsPiece text) : ∀ c ∈ text, c ∉ delim :=
  fun _ hc hdelim => h.no_comma (mem_delim.mp hdelim ▸ hc)

/-- The first piece in a buffer, and what stands around it. -/
theorem tokens_takeWhile_eq_cons_iff {buffer text : List Char} {more : List (List Char)} :
    tokens delim (buffer.takeWhile fun c => c ≠ nulChar) = text :: more ↔
      ∃ gap tail, buffer = gap ++ (text ++ tail) ∧ (∀ c ∈ gap, c = ',') ∧ IsPiece text ∧
        (∀ c ∈ tail.head?, c = ',' ∨ c = nulChar) ∧
        tokens delim (tail.takeWhile fun c => c ≠ nulChar) = more := by
  constructor
  · intro h
    obtain ⟨gap, tail, hseen, hgap, hpiece, hne, hhead, hmore⟩ := tokens_eq_cons_iff.mp h
    have hnul : nulChar ∉ gap ++ (text ++ tail) := by
      rw [← hseen]
      exact fun hmem => by simpa using List.mem_takeWhile_imp hmem
    have hstop := List.head?_dropWhile_not (fun c => decide (c ≠ nulChar)) buffer
    -- behind the last piece the string goes on or has its end
    refine ⟨gap, tail ++ buffer.dropWhile fun c => c ≠ nulChar, ?_,
      fun c hc => mem_delim.mp (hgap c hc),
      ⟨hne, fun hc => hpiece ',' hc (mem_delim.mpr rfl), fun hc => hnul (by simp [hc])⟩, ?_, ?_⟩
    · rw [← List.append_assoc text, ← List.append_assoc gap, ← hseen,
        List.takeWhile_append_dropWhile]
    · intro c hc
      cases tail with
      | nil =>
        rw [List.nil_append] at hc
        rw [Option.mem_def.mp hc] at hstop
        exact Or.inr (by simpa using hstop)
      | cons e tail =>
        obtain rfl := Option.some.inj hc
        exact Or.inl (mem_delim.mp (hhead e rfl))
    · rw [takeWhile_append_of_stop, hmore]
      · exact fun c hc => decide_eq_true (ne_of_mem_of_not_mem hc fun h => hnul (by simp [h]))
      · intro c hc
        rwa [Option.mem_def.mp hc] at hstop
  · rintro ⟨gap, tail, rfl, hgap, hpiece, hhead, rfl⟩
    have hskip {l : List Char} (hl : nulChar ∉ l) (rest : List Char) :
        (l ++ rest).takeWhile (fun c => c ≠ nulChar) =
          l ++ rest.takeWhile fun c => c ≠ nulChar :=
      List.takeWhile_append_of_pos fun c hc => decide_eq_true (ne_of_mem_of_not_mem hc hl)
    have hnul : nulChar ∉ gap := fun hc => absurd (hgap _ hc) (by decide)
    rw [hskip hnul, hskip hpiece.no_nul]
    refine tokens_eq_cons_iff.mpr ⟨gap, _, rfl, fun c hc => mem_delim.mpr (hgap c hc),
      hpiece.not_mem_delim, hpiece.ne_nil, ?_, rfl⟩
    cases tail with
    | nil => simp
    | cons c tail =>
      rcases hhead c rfl with rfl | rfl
      · exact fun c hc => Option.some.inj hc ▸ mem_delim.mpr rfl
      · simp

/-- A piece behind the end of another one has a comma before it. -/
theorem IsPiece.ne_nil_of_stop {gap text rest : List Char} (h : IsPiece text)
    (hstop : ∀ c ∈ (gap ++ (text ++ rest)).head?, c = ',' ∨ c = nulChar) : gap ≠ [] := by
  rintro rfl
  obtain ⟨c, text, rfl⟩ := List.exists_cons_of_ne_nil h.ne_nil
  rcases hstop c rfl with rfl | rfl
  · exact h.no_comma List.mem_cons_self
  · exact h.no_nul List.mem_cons_self

/-- The tokens that `strtok` cuts off are the pieces. -/
theorem beginsWith_iff {buffer text x y : List Char} : BeginsWith buffer text x y ↔
    ∃ more, tokens delim (buffer.takeWhile fun c => c ≠ nulChar) = text :: x :: y :: more := by
  constructor
  · rintro ⟨htext, hx, hy, gap, gap', gap'', after, rfl, hgaps, hne', hne'', hafter⟩
    have hstop {gap rest : List Char} (hne : gap ≠ []) (hgap : ∀ c ∈ gap, c = ',') :
        ∀ c ∈ (gap ++ rest).head?, c = ',' ∨ c = nulChar := by
      obtain ⟨d, gap, rfl⟩ := List.exists_cons_of_ne_nil hne
      exact fun c hc => Or.inl (Option.some.inj hc ▸ hgap d List.mem_cons_self)
    obtain ⟨hgaps, hgap''⟩ := List.forall_mem_append.mp hgaps
    obtain ⟨hgap, hgap'⟩ := List.forall_mem_append.mp hgaps
    exact ⟨_, tokens_takeWhile_eq_cons_iff.mpr ⟨gap, _, rfl, hgap, htext, hstop hne' hgap',
      tokens_takeWhile_eq_cons_iff.mpr ⟨gap', _, rfl, hgap', hx, hstop hne'' hgap'',
        tokens_takeWhile_eq_cons_iff.mpr ⟨gap'', after, rfl, hgap'', hy, hafter, rfl⟩⟩⟩⟩
  · rintro ⟨more, h⟩
    obtain ⟨gap, _, rfl, hgap, htext, hstop, h⟩ := tokens_takeWhile_eq_cons_iff.mp h
    obtain ⟨gap', _, rfl, hgap', hx, hstop', h⟩ := tokens_takeWhile_eq_cons_iff.mp h
    obtain ⟨gap'', after, rfl, hgap'', hy, hafter, -⟩ := tokens_takeWhile_eq_cons_iff.mp h
    exact ⟨htext, hx, hy, gap, gap', gap'', after, rfl,
      List.forall_mem_append.mpr ⟨List.forall_mem_append.mpr ⟨hgap, hgap'⟩, hgap''⟩,
      hx.ne_nil_of_stop hstop, hy.ne_nil_of_stop hstop', hafter⟩

theorem BeginsWith.ne_nil {buffer text x y : List Char} (h : BeginsWith buffer text x y) :
    buffer ≠ [] := by
  obtain ⟨gap, gap', gap'', after, rfl, -⟩ := h.stands
  have hne := h.isPiece_text.ne_nil
  simp [hne]

/-- A line and its last field as it is printed, with or without the end of the line. -/
def IsLine (file noise x y : List Char) : Prop :=
  ∃ field, CompleteLine file noise x field ∧ (y = field ∨ y = field ++ ['\n'])

/-- What the call with the given number finds of a file begins with the fields of a line of the
file: its coordinates, and a number that is its noise modulo `2 ^ 16`. -/
def Legible (file : List Char) (start n : ℕ) : Prop :=
  ∃ noise x y text, IsLine file noise x y ∧ BeginsWith (found file start n) text x y ∧
    atoi text % 2 ^ 16 = atoi noise

theorem IsField.isPiece {text : List Char} (h : IsField text) : IsPiece text :=
  ⟨h.ne_nil, h.no_comma, h.no_nul⟩

/-- A row of the file that is found alone is legible. -/
theorem CompleteLine.legible {file noise x y : List Char} {start n : ℕ}
    (h : CompleteLine file noise x y)
    (hfound : found file start n = noise ++ ',' :: (x ++ ',' :: y) ∨
      found file start n = noise ++ ',' :: (x ++ ',' :: (y ++ ['\n'])))
    (hnoise : atoi noise % 2 ^ 16 = atoi noise) : Legible file start n := by
  have hlegible {field : List Char} (hy : field = y ∨ field = y ++ ['\n'])
      (hpiece : IsPiece field) (hfound : found file start n = noise ++ ',' :: (x ++ ',' :: field)) :
      Legible file start n :=
    ⟨noise, x, field, noise, ⟨y, h, hy⟩, ⟨h.isField_noise.isPiece, h.isField_x.isPiece, hpiece,
      [], [','], [','], [], by simp [hfound], by simp, List.cons_ne_nil _ _,
      List.cons_ne_nil _ _, by simp⟩, hnoise⟩
  rcases hfound with hfound | hfound
  · exact hlegible (Or.inl rfl) h.isField_y.isPiece hfound
  · obtain ⟨-, hcomma, -, hnul⟩ := h.isField_y
    have hbreak : nulChar ≠ '\n' := by decide
    exact hlegible (Or.inr rfl) ⟨by simp, by simp [hcomma], by simp [hnul, hbreak]⟩ hfound

namespace VirtualSensor

/-- The call has stored the noise of a line, published its coordinates and moved on. -/
def CarriesLine (s t : VirtualSensor) : Prop :=
  ∃ noise x y, IsLine s.cfs.content noise x y ∧
    (∃ level : ℕ, (level : ℤ) = atoi noise ∧ t.window = s.window.push level) ∧
    t.published = s.published ++ [noiseMessage t.window x y]

/-- The call has changed neither the window nor what is published. -/
def Unchanged (s t : VirtualSensor) : Prop := t.window = s.window ∧ t.published = s.published

/-- The next call carries a line or changes nothing, and does not fail on a null token. -/
def Robust (s : VirtualSensor) : Prop :=
  ∃ t, s.noiseProcessing = some t ∧ (s.CarriesLine t ∨ s.Unchanged t)

/-- The calls of `noise_processing`. -/
def system : System VirtualSensor Unit where
  step s _ t := s.noiseProcessing = some t

variable {s t : VirtualSensor}

theorem length_tokens_of_noiseProcessing (hz : Zeroed s.buf) (h : s.noiseProcessing = some t) :
    ∃ text x y more, tokens delim s.seen = text :: x :: y :: more ∧ Stored s text x y t := by
  have hlong : 3 ≤ (tokens delim s.seen).length := by
    by_contra hshort
    rw [noiseProcessing_eq_none hz (not_le.mp hshort)] at h
    cases h
  obtain ⟨text, x, y, more, htokens⟩ :
      ∃ text x y more, tokens delim s.seen = text :: x :: y :: more := by
    match htokens : tokens delim s.seen with
    | text :: x :: y :: more => exact ⟨text, x, y, more, rfl⟩
    | [] | [_] | [_, _] =>
      rw [htokens] at hlong
      exact absurd hlong (by simp)
  obtain ⟨t', ht', hstored⟩ := noiseProcessing_of_tokens hz htokens
  obtain rfl := Option.some.inj (h.symm.trans ht')
  exact ⟨text, x, y, more, htokens, hstored⟩

/-- Every call of a run finds the chunk with its number. -/
theorem atCall_of_run {cfs : Cfs} {calls : List Unit} (h : system.Run (boot cfs) calls s) :
    AtCall (initFileReading cfs).bytes (initFileReading cfs).fileptr calls.length s := by
  refine h.invariant (fun calls s => AtCall _ _ calls.length s) (atCall_boot cfs)
    fun calls _ _ _ _ hcall hs => ?_
  obtain ⟨_, _, _, _, -, hstored⟩ := length_tokens_of_noiseProcessing hcall.zeroed hs
  rw [List.length_append]
  exact hcall.step hs hstored.cfs

theorem noiseMessage_inj {window : Window} {x y x' y' : List Char} (hx : ',' ∉ x) (hx' : ',' ∉ x')
    (h : noiseMessage window x y = noiseMessage window x' y') : x = x' ∧ y = y' := by
  unfold noiseMessage at h
  split at h <;> exact measureText_inj hx hx' h

theorem toUint16_eq_iff {n m : ℤ} : (toUint16 n : ℤ) = m ↔ n % 2 ^ 16 = m := by
  rw [toUint16, Int.toNat_of_nonneg (Int.emod_nonneg n (by norm_num))]

section Legible

variable {file : List Char} {start n : ℕ}

/-- A legible chunk is carried. -/
theorem AtCall.robust (h : AtCall file start n s) (hlegible : Legible file start n) :
    s.Robust := by
  obtain ⟨noise, x, y, text, hline, hbegins, hnoise⟩ := hlegible
  obtain ⟨more, htokens⟩ := beginsWith_iff.mp hbegins
  rw [← h.seen_eq] at htokens
  obtain ⟨t, ht, hstored⟩ := noiseProcessing_of_tokens h.zeroed htokens
  have hcontent := h.content_eq hbegins.ne_nil
  exact ⟨t, ht, Or.inl ⟨noise, x, y, hcontent ▸ hline,
    ⟨_, toUint16_eq_iff.mpr hnoise, hstored.window⟩, hstored.published⟩⟩

/-- What a call carries was legible. -/
theorem AtCall.legible (h : AtCall file start n s) (hrobust : s.Robust) :
    Legible file start n := by
  obtain ⟨t, ht, hcase⟩ := hrobust
  obtain ⟨text, x, y, more, htokens, hstored⟩ := length_tokens_of_noiseProcessing h.zeroed ht
  rcases hcase with ⟨noise, x', y', hline, ⟨level, hlevel, hwindow⟩, hpublished⟩ | ⟨-, hpublished⟩
  · have hcomma : ∀ piece ∈ tokens delim s.seen, ',' ∉ piece := fun piece hp hc =>
      not_mem_of_mem_tokens hp ',' hc List.mem_cons_self
    have hx : ',' ∉ x := hcomma x (by simp [htokens])
    have hx' : ',' ∉ x' := by
      obtain ⟨_, hcomplete, -⟩ := hline
      exact hcomplete.isField_x.no_comma
    have hmessage := List.append_cancel_left (hstored.published.symm.trans hpublished)
    obtain ⟨rfl, rfl⟩ := noiseMessage_inj hx hx' (List.cons.inj hmessage).1
    have hslot := congrFun (congrArg RingWindow.slots (hstored.window.symm.trans hwindow))
      s.window.position
    simp only [RingWindow.slots_push, Function.update_self] at hslot
    rw [h.seen_eq] at htokens
    have hbegins := beginsWith_iff.mpr ⟨more, htokens⟩
    have hnoise : (toUint16 (atoi text) : ℤ) = atoi noise := by rw [hslot, hlevel]
    exact ⟨noise, x, y, text, h.content_eq hbegins.ne_nil ▸ hline, hbegins,
      toUint16_eq_iff.mp hnoise⟩
  · rw [hstored.published] at hpublished
    have hlength := congrArg List.length hpublished
    rw [List.length_append, List.length_singleton] at hlength
    omega

end Legible

/-- In every state of a run the next call is robust exactly when the chunk that it reads, over
what the call before it has left of its own, is legible. -/
theorem robust_iff {cfs : Cfs} {calls : List Unit} (h : system.Run (boot cfs) calls s) :
    s.Robust ↔
      Legible (initFileReading cfs).bytes (initFileReading cfs).fileptr calls.length :=
  ⟨(atCall_of_run h).legible, (atCall_of_run h).robust⟩

end VirtualSensor

/-- A file that has been loaded and is not open yet. -/
def loaded (text : String) (h : text.toList.length ≤ cfsBufSize) : Cfs where
  isOpen := false
  access := 0
  fileptr := 0
  endptr := 0
  simCFSData := text.toList
  fileptr_le := Nat.le_refl 0
  endptr_le := Nat.zero_le _
  length_le := h

namespace VirtualSensor

/-- The calls go on as long as they find legible chunks. -/
theorem exists_run {cfs : Cfs} {n : ℕ}
    (h : ∀ m < n, Legible (initFileReading cfs).bytes (initFileReading cfs).fileptr m) :
    ∃ calls s, system.Run (boot cfs) calls s ∧ calls.length = n := by
  induction n with
  | zero => exact ⟨[], _, System.Run.nil _, rfl⟩
  | succ n ih =>
    obtain ⟨calls, s, hrun, rfl⟩ := ih fun m hm => h m (Nat.lt_succ_of_lt hm)
    obtain ⟨t, ht, -⟩ := (atCall_of_run hrun).robust (h _ (Nat.lt_succ_self _))
    exact ⟨calls ++ [()], t, hrun.snoc ht, List.length_append⟩

/-- Two rows, the last one without the end of its line: the chunk for it is one byte short. -/
def twoRows : Cfs := loaded "33,83.00,23.00\n40,81.05,22.10" (by decide)

/-- A row that is one byte short, so that the first chunk ends in the next one. -/
def narrowRow : Cfs := loaded "9,83.00,23.00\n40,81.05,22.10\n" (by decide)

theorem legible_twoRows_first {n : ℕ}
    (hfound : found twoRows.simCFSData 0 n = "33,83.00,23.00\n".toList) :
    Legible (initFileReading twoRows).bytes (initFileReading twoRows).fileptr n := by
  have hline : CompleteLine twoRows.simCFSData "33".toList "83.00".toList "23.00".toList :=
    ⟨⟨by decide, by decide, by decide, by decide⟩, ⟨by decide, by decide, by decide, by decide⟩,
      ⟨by decide, by decide, by decide, by decide⟩,
      [], "\n40,81.05,22.10".toList, by decide, Or.inl rfl, Or.inr rfl⟩
  exact hline.legible (Or.inr hfound) (by decide)

/-- The end of the first line is still in the buffer behind the second one. -/
theorem legible_twoRows_second {n : ℕ}
    (hfound : found twoRows.simCFSData 0 n = "40,81.05,22.10\n".toList) :
    Legible (initFileReading twoRows).bytes (initFileReading twoRows).fileptr n := by
  have hline : CompleteLine twoRows.simCFSData "40".toList "81.05".toList "22.10".toList :=
    ⟨⟨by decide, by decide, by decide, by decide⟩, ⟨by decide, by decide, by decide, by decide⟩,
      ⟨by decide, by decide, by decide, by decide⟩,
      "33,83.00,23.00\n".toList, [], by decide, Or.inr (by decide), Or.inl rfl⟩
  exact hline.legible (Or.inr hfound) (by decide)

/-- The fourth call, after the file has begun again, carries the second row with the byte that is
left behind it; the first call on the narrow row takes a piece of the next one along. -/
theorem robust_iff_two_rows :
    (∃ calls s, system.Run (boot twoRows) calls s ∧ calls.length = 3 ∧ s.Robust) ∧
      ¬(boot narrowRow).Robust := by
  constructor
  · have hfirst : ∀ m < 3,
        Legible (initFileReading twoRows).bytes (initFileReading twoRows).fileptr m := by
      intro m hm
      interval_cases m
      · exact legible_twoRows_first (by decide)
      · exact legible_twoRows_second (by decide)
      · exact legible_twoRows_first (by decide)
    obtain ⟨calls, s, hrun, hlen⟩ := exists_run hfirst
    exact ⟨calls, s, hrun, hlen, (robust_iff hrun).mpr (hlen ▸ legible_twoRows_second (by decide))⟩
  · apply mt (robust_iff (System.Run.nil _)).mp
    rintro ⟨noise, x, y, text, ⟨field, hline, hy⟩, hbegins, -⟩
    obtain ⟨more, htokens⟩ := beginsWith_iff.mp hbegins
    have hthree : tokens delim ((found (initFileReading narrowRow).bytes
        (initFileReading narrowRow).fileptr 0).takeWhile fun c => c ≠ nulChar) =
          ["9".toList, "83.00".toList, "23.00\n4".toList] := by decide
    have hlast : y = "23.00\n4".toList := by
      have htail := htokens.symm.trans hthree
      simp only [List.cons.injEq] at htail
      exact htail.2.2.1
    rcases hy with rfl | rfl
    · exact hline.isField_y.no_newline (hlast ▸ by decide)
    · have hend := congrArg List.getLast? hlast
      rw [List.getLast?_concat] at hend
      exact absurd hend (by decide)

/-- Without a byte to read, the first call hands a null token to `atoi`. -/
theorem noiseProcessing_boot {cfs : Cfs} (h : (boot cfs).incoming = []) :
    (boot cfs).noiseProcessing = none := by
  apply noiseProcessing_eq_none (zeroed_boot cfs)
  have hseen : (boot cfs).seen = [] := by
    have hbuf : (boot cfs).buf = List.replicate bufSize nulChar := rfl
    rw [seen, record, h, hbuf]
    decide
  rw [hseen]
  decide

/-- An empty file makes the first call fail. -/
theorem not_robust_empty : ¬∀ (cfs : Cfs) (calls : List Unit) (s : VirtualSensor),
    system.Run (boot cfs) calls s → s.Robust := by
  intro hall
  obtain ⟨t, ht, -⟩ := hall (loaded "" (by decide)) [] _ (System.Run.nil _)
  rw [noiseProcessing_boot (by decide)] at ht
  cases ht

end VirtualSensor

end NoiseLevel.Sensor

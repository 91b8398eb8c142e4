import NoiseLevel.Core.CString

/-!
# Cutting strings in place

`strtok` walks over the string in a buffer and cuts one token after the other off it. What
the calls return are the pieces between delimiters that are not empty, and a token that has
been cut off stays where it is. What the calls leave in the buffer is the string with a
terminator for the delimiter behind each token.
-/

namespace NoiseLevel.Core

variable {α : Type*} [DecidableEq α] (nul : α) (delim : List α)

/-- The string at a position of a buffer. -/
def stringAt (buffer : List α) (pos : ℕ) : Option (List α) := cString nul (buffer.drop pos)

/-- `strtok` from a position: the position of the token, the buffer with the delimiter behind
it overwritten, and the position where the next call goes on. -/
def strtok (buffer : List α) (pos : ℕ) : Option ℕ × List α × ℕ :=
  let start := pos + ((buffer.drop pos).takeWhile fun c => c ∈ delim).length
  let stop := start + ((buffer.drop start).takeWhile fun c => c ∉ delim ∧ c ≠ nul).length
  if stop = start then (none, buffer, start)
  else if buffer[stop]? = some nul then (some start, buffer, stop)
  else (some start, buffer.set stop nul, stop + 1)

/-- The pieces of a text between delimiters that are not empty. -/
def tokens (text : List α) : List (List α) :=
  (text.splitOnP fun c => c ∈ delim).filter fun piece => piece ≠ []

/-- A text in which the delimiters behind the first pieces are overwritten, as far as its
terminator, inside a piece or not. -/
def cutBehind : ℕ → Bool → List α → List α
  | 0, _, text => text
  | _ + 1, _, [] => []
  | n + 1, inside, c :: text =>
    if c = nul then c :: text
    else if c ∈ delim then
      if inside then nul :: cutBehind n false text else c :: cutBehind (n + 1) false text
    else c :: cutBehind (n + 1) true text

variable {nul delim}

theorem cString_eq_some_iff {buffer s : List α} :
    cString nul buffer = some s ↔ nul ∉ s ∧ ∃ rest, buffer = s ++ nul :: rest := by
  constructor
  · intro h
    rw [cString] at h
    split_ifs at h with hmem
    obtain rfl := Option.some.inj h
    refine ⟨fun hm => by simpa using List.mem_takeWhile_imp hm, ?_⟩
    obtain ⟨c, rest, hrest⟩ : ∃ c rest, buffer.dropWhile (fun c => c ≠ nul) = c :: rest := by
      refine List.exists_cons_of_ne_nil fun hnil => ?_
      have hall := List.dropWhile_eq_nil_iff.mp hnil nul hmem
      simp at hall
    have hc : c = nul := by
      have hhead := List.head?_dropWhile_not (fun c => decide (c ≠ nul)) buffer
      rw [hrest] at hhead
      simpa using hhead
    rw [hc] at hrest
    exact ⟨rest, by rw [← hrest, List.takeWhile_append_dropWhile]⟩
  · rintro ⟨hs, rest, rfl⟩
    exact cString_append hs rest

theorem stringAt_eq_some_iff {buffer s : List α} {pos : ℕ} :
    stringAt nul buffer pos = some s ↔ nul ∉ s ∧ ∃ rest, buffer.drop pos = s ++ nul :: rest :=
  cString_eq_some_iff

/-- A string depends on the buffer up to its terminator only. -/
theorem stringAt_congr {buffer buffer' s : List α} {pos n : ℕ}
    (h : stringAt nul buffer pos = some s)
    (hn : pos + s.length < n) (htake : buffer'.take n = buffer.take n) :
    stringAt nul buffer' pos = some s := by
  obtain ⟨hs, rest, hrest⟩ := stringAt_eq_some_iff.mp h
  obtain ⟨k, rfl⟩ : ∃ k, n = pos + (s.length + (k + 1)) := ⟨n - pos - s.length - 1, by omega⟩
  have hsame : (buffer'.drop pos).take (s.length + (k + 1)) = s ++ nul :: rest.take k := by
    have hdrop := congrArg (List.drop pos) htake
    rw [List.drop_take, List.drop_take, Nat.add_sub_cancel_left, hrest, List.take_length_add_append,
      List.take_succ_cons] at hdrop
    exact hdrop
  refine stringAt_eq_some_iff.mpr
    ⟨hs, rest.take k ++ (buffer'.drop pos).drop (s.length + (k + 1)), ?_⟩
  rw [← List.cons_append, ← List.append_assoc, ← hsame, List.take_append_drop]

section Tokens

variable {skipped token tail : List α}

@[simp] theorem tokens_nil : tokens delim ([] : List α) = [] := rfl

/-- Leading delimiters do not count. -/
theorem tokens_append_of_delim (h : ∀ c ∈ skipped, c ∈ delim) (text : List α) :
    tokens delim (skipped ++ text) = tokens delim text := by
  induction skipped with
  | nil => rfl
  | cons c skipped ih =>
    rw [← ih fun c hc => h c (List.mem_cons_of_mem _ hc), tokens, tokens, List.cons_append,
      List.splitOnP_cons_eq_if_modifyHead, if_pos (by simpa using h c List.mem_cons_self),
      List.filter_cons_of_neg (by simp)]

/-- The first piece of a text, and the pieces behind the delimiter that ends it. -/
theorem tokens_piece (h : ∀ c ∈ token, c ∉ delim) (hne : token ≠ [])
    (htail : ∀ c ∈ tail.head?, c ∈ delim) :
    tokens delim (token ++ tail) = token :: tokens delim tail.tail := by
  have hno : ∀ c ∈ token, decide (c ∈ delim) = false := fun c hc => by simpa using h c hc
  cases tail with
  | nil =>
    rw [List.append_nil, tokens, List.splitOnP_eq_singleton hno,
      List.filter_cons_of_pos (by simpa using hne)]
    rfl
  | cons d tail =>
    have hd : decide (d ∈ delim) = true := by simpa using htail d rfl
    rw [tokens, List.splitOnP_append_cons_of_forall_mem hno d hd,
      List.filter_cons_of_pos (by simpa using hne)]
    rfl

/-- The first piece of a text and the delimiters around it. -/
theorem exists_pieces (delim text : List α) : ∃ skipped token tail,
    text = skipped ++ (token ++ tail) ∧ (∀ c ∈ skipped, c ∈ delim) ∧ (∀ c ∈ token, c ∉ delim) ∧
      ((token = [] ∧ tail = []) ∨ (token ≠ [] ∧ ∀ c ∈ tail.head?, c ∈ delim)) := by
  set rest := text.dropWhile fun c => c ∈ delim with hrest
  refine ⟨text.takeWhile fun c => c ∈ delim, rest.takeWhile fun c => c ∉ delim,
    rest.dropWhile fun c => c ∉ delim, ?_, ?_, ?_, ?_⟩
  · rw [List.takeWhile_append_dropWhile, hrest, List.takeWhile_append_dropWhile]
  · exact fun c hc => by simpa using List.mem_takeWhile_imp hc
  · exact fun c hc => by simpa using List.mem_takeWhile_imp hc
  · have hhead : ∀ c ∈ rest.head?, c ∉ delim := by
      intro c hc
      have hnot := List.head?_dropWhile_not (fun c => decide (c ∈ delim)) text
      rw [← hrest, Option.mem_def.mp hc] at hnot
      simpa using hnot
    cases hcases : rest with
    | nil => exact Or.inl ⟨rfl, rfl⟩
    | cons c text' =>
      have hc := hhead c (by rw [hcases]; rfl)
      rw [List.takeWhile_cons_of_pos (by simpa using hc)]
      refine Or.inr ⟨List.cons_ne_nil _ _, fun d hd => ?_⟩
      have hnot := List.head?_dropWhile_not (fun c => decide (c ∉ delim)) (c :: text')
      rw [Option.mem_def.mp hd] at hnot
      simpa using hnot

/-- A token contains no delimiter. -/
theorem not_mem_of_mem_tokens {delim text : List α} (h : token ∈ tokens delim text) :
    ∀ c ∈ token, c ∉ delim := by
  induction hn : text.length using Nat.strong_induction_on generalizing text with
  | _ n ih =>
    obtain ⟨skipped, piece, tail, rfl, hskipped, hpiece, hcases⟩ := exists_pieces delim text
    rw [tokens_append_of_delim hskipped] at h
    rcases hcases with ⟨rfl, rfl⟩ | ⟨hne, hdelim⟩
    · cases h
    · rw [tokens_piece hpiece hne hdelim] at h
      rcases List.mem_cons.mp h with rfl | hmore
      · exact hpiece
      · have hpos := List.length_pos_iff.mpr hne
        refine ih tail.tail.length ?_ hmore rfl
        rw [← hn, List.length_append, List.length_append, List.length_tail]
        omega

/-- The delimiter that ends a piece does not count. -/
theorem tokens_tail (h : ∀ c ∈ tail.head?, c ∈ delim) :
    tokens delim tail.tail = tokens delim tail := by
  cases tail with
  | nil => rfl
  | cons c tail => exact (tokens_append_of_delim (List.forall_mem_singleton.mpr (h c rfl)) tail).symm

/-- What stands around the first token of a text. -/
theorem tokens_eq_cons_iff {text : List α} {more : List (List α)} :
    tokens delim text = token :: more ↔ ∃ skipped tail, text = skipped ++ (token ++ tail) ∧
      (∀ c ∈ skipped, c ∈ delim) ∧ (∀ c ∈ token, c ∉ delim) ∧ token ≠ [] ∧
        (∀ c ∈ tail.head?, c ∈ delim) ∧ tokens delim tail = more := by
  constructor
  · intro h
    obtain ⟨skipped, piece, tail, rfl, hskipped, hpiece, hcases⟩ := exists_pieces delim text
    rw [tokens_append_of_delim hskipped] at h
    rcases hcases with ⟨rfl, rfl⟩ | ⟨hne, hdelim⟩
    · cases h
    · rw [tokens_piece hpiece hne hdelim, tokens_tail hdelim] at h
      obtain ⟨rfl, hmore⟩ := List.cons.inj h
      exact ⟨skipped, tail, rfl, hskipped, hpiece, hne, hdelim, hmore⟩
  · rintro ⟨skipped, tail, rfl, hskipped, hpiece, hne, hdelim, rfl⟩
    rw [tokens_append_of_delim hskipped, tokens_piece hpiece hne hdelim, tokens_tail hdelim]

end Tokens

omit [DecidableEq α] in
theorem takeWhile_append_of_stop {p : α → Bool} {l r : List α} (hl : ∀ c ∈ l, p c = true)
    (hr : ∀ c ∈ r.head?, p c = false) : (l ++ r).takeWhile p = l := by
  rw [List.takeWhile_append_of_pos hl]
  cases r with
  | nil => rw [List.takeWhile_nil, List.append_nil]
  | cons c r => rw [List.takeWhile_cons_of_neg (by simpa using hr c rfl), List.append_nil]

omit [DecidableEq α] in
/-- What stands behind a part of a buffer. -/
theorem drop_add_length {buffer l r : List α} {pos : ℕ} (h : buffer.drop pos = l ++ r) :
    buffer.drop (pos + l.length) = r := by
  rw [← List.drop_drop, h, List.drop_left]

/-- The token of a string in its pieces ends at a delimiter or at the terminator. -/
theorem takeWhile_token {token tail rest : List α} (htoken : nul ∉ token)
    (hpiece : ∀ c ∈ token, c ∉ delim)
    (hcases : (token = [] ∧ tail = []) ∨ (token ≠ [] ∧ ∀ c ∈ tail.head?, c ∈ delim)) :
    (token ++ (tail ++ nul :: rest)).takeWhile (fun c => c ∉ delim ∧ c ≠ nul) = token := by
  refine takeWhile_append_of_stop (fun c hc => ?_) fun c hc => ?_
  · simpa using ⟨hpiece c hc, ne_of_mem_of_not_mem hc htoken⟩
  · cases tail with
    | nil =>
      obtain rfl := Option.some.inj hc
      simp
    | cons d tail =>
      obtain rfl := Option.some.inj hc
      rcases hcases with ⟨-, hnil⟩ | ⟨-, hdelim⟩
      · cases hnil
      · simpa using fun hnot => absurd (hdelim d rfl) hnot

/-- What `strtok` does on a string in its pieces. -/
theorem strtok_eq {buffer skipped token tail rest : List α} {pos : ℕ} (hnul : nul ∉ delim)
    (hbuffer : buffer.drop pos = skipped ++ (token ++ (tail ++ nul :: rest))) (htoken : nul ∉ token)
    (htail : nul ∉ tail) (hskipped : ∀ c ∈ skipped, c ∈ delim) (hpiece : ∀ c ∈ token, c ∉ delim)
    (hcases : (token = [] ∧ tail = []) ∨ (token ≠ [] ∧ ∀ c ∈ tail.head?, c ∈ delim)) :
    strtok nul delim buffer pos =
      if token = [] then (none, buffer, pos + skipped.length)
      else if tail = [] then
        (some (pos + skipped.length), buffer, pos + skipped.length + token.length)
      else (some (pos + skipped.length), buffer.set (pos + skipped.length + token.length) nul,
        pos + skipped.length + token.length + 1) := by
  have hstart : (buffer.drop pos).takeWhile (fun c => c ∈ delim) = skipped := by
    rw [hbuffer]
    refine takeWhile_append_of_stop (fun c hc => by simpa using hskipped c hc) fun c hc => ?_
    rcases hcases with ⟨rfl, rfl⟩ | ⟨hne, -⟩
    · obtain rfl := Option.some.inj hc
      simpa using hnul
    · obtain ⟨d, token', rfl⟩ := List.exists_cons_of_ne_nil hne
      obtain rfl := Option.some.inj hc
      simpa using hpiece d List.mem_cons_self
  have hdrop := drop_add_length hbuffer
  have hstop : (buffer.drop (pos + skipped.length)).takeWhile (fun c => c ∉ delim ∧ c ≠ nul) =
      token := by
    rw [hdrop]
    exact takeWhile_token htoken hpiece hcases
  have hend : buffer[pos + skipped.length + token.length]? = some nul ↔ tail = [] := by
    rw [← List.head?_drop, drop_add_length hdrop]
    cases tail with
    | nil => simp
    | cons d tail =>
      have hd : d ≠ nul := ne_of_mem_of_not_mem List.mem_cons_self htail
      simp [hd]
  simp only [strtok, hstart, hstop, hend, Nat.add_eq_left, List.length_eq_zero_iff]

section Cut

variable {buffer text : List α} {pos : ℕ} (hnul : nul ∉ delim)
variable (h : stringAt nul buffer pos = some text)
include hnul h

/-- Without a token the string is passed over. -/
theorem strtok_of_tokens_eq_nil (ht : tokens delim text = []) :
    strtok nul delim buffer pos = (none, buffer, pos + text.length) := by
  obtain ⟨htext, rest, hbuffer⟩ := stringAt_eq_some_iff.mp h
  obtain ⟨skipped, token, tail, rfl, hskipped, hpiece, hcases⟩ := exists_pieces delim text
  simp only [List.mem_append, not_or] at htext
  simp only [List.append_assoc] at hbuffer
  rw [strtok_eq hnul hbuffer htext.2.1 htext.2.2 hskipped hpiece hcases]
  rcases hcases with ⟨rfl, rfl⟩ | ⟨hne, hdelim⟩
  · rw [if_pos rfl, List.append_nil, List.append_nil]
  · rw [tokens_append_of_delim hskipped, tokens_piece hpiece hne hdelim] at ht
    cases ht

omit hnul in
/-- Behind its last character a string is empty. -/
theorem stringAt_length : stringAt nul buffer (pos + text.length) = some [] := by
  obtain ⟨-, rest, hbuffer⟩ := stringAt_eq_some_iff.mp h
  exact stringAt_eq_some_iff.mpr ⟨List.not_mem_nil, rest, drop_add_length hbuffer⟩

/-- A token is cut off the string at its position, and the string behind it has the tokens
that remain. -/
structure Cut (nul : α) (delim buffer token : List α) (more : List (List α)) (pos start : ℕ)
    (cut : List α) (next : ℕ) : Prop where
  token_eq : stringAt nul cut start = some token
  rest : ∃ text, stringAt nul cut next = some text ∧ tokens delim text = more
  /-- A token that others follow ends before them. -/
  token_lt : more ≠ [] → start + token.length < next
  frame : cut.take pos = buffer.take pos
  pos_le : pos ≤ next

theorem strtok_of_tokens_eq_cons {token : List α} {more : List (List α)}
    (ht : tokens delim text = token :: more) : ∃ start cut next,
      strtok nul delim buffer pos = (some start, cut, next) ∧
        Cut nul delim buffer token more pos start cut next := by
  obtain ⟨htext, rest, hbuffer⟩ := stringAt_eq_some_iff.mp h
  obtain ⟨skipped, piece, tail, rfl, hskipped, hpiece, hcases⟩ := exists_pieces delim text
  simp only [List.mem_append, not_or] at htext
  simp only [List.append_assoc] at hbuffer
  have heq := strtok_eq hnul hbuffer htext.2.1 htext.2.2 hskipped hpiece hcases
  have hdrop := drop_add_length hbuffer
  rw [tokens_append_of_delim hskipped] at ht
  rcases hcases with ⟨rfl, rfl⟩ | ⟨hne, hdelim⟩
  · cases ht
  rw [tokens_piece hpiece hne hdelim] at ht
  obtain ⟨rfl, rfl⟩ := List.cons.inj ht
  rw [if_neg hne] at heq
  cases tail with
  | nil =>
    rw [if_pos rfl] at heq
    refine ⟨_, _, _, heq, ?_, ⟨[], ?_, rfl⟩, fun hmore => absurd rfl hmore, rfl, by omega⟩
    · exact stringAt_eq_some_iff.mpr ⟨htext.2.1, rest, hdrop⟩
    · exact stringAt_eq_some_iff.mpr ⟨List.not_mem_nil, rest, drop_add_length hdrop⟩
  | cons d tail =>
    rw [if_neg (List.cons_ne_nil _ _)] at heq
    refine ⟨_, _, _, heq, ?_, ⟨tail, ?_, rfl⟩, fun _ => by omega, ?_, by omega⟩
    · refine stringAt_eq_some_iff.mpr ⟨htext.2.1, tail ++ nul :: rest, ?_⟩
      rw [List.drop_set, if_neg (by omega), Nat.add_sub_cancel_left, hdrop]
      simp
    · refine stringAt_eq_some_iff.mpr
        ⟨fun hmem => htext.2.2 (List.mem_cons_of_mem _ hmem), rest, ?_⟩
      rw [List.drop_set, if_pos (by omega), Nat.add_assoc, ← List.drop_drop, hdrop,
        ← List.drop_drop, List.drop_left]
      rfl
    · exact List.take_set_of_le (by omega)

end Cut

section CutBehind

/-- Behind the terminator nothing changes. -/
theorem cutBehind_append_nul (n : ℕ) (inside : Bool) (text rest : List α) :
    cutBehind nul delim n inside (text ++ nul :: rest) =
      cutBehind nul delim n inside text ++ nul :: rest := by
  induction text generalizing n inside with
  | nil => cases n <;> simp [cutBehind]
  | cons c text ih =>
    cases n with
    | zero => rfl
    | succ n =>
      simp only [List.cons_append, cutBehind]
      split_ifs <;> simp [ih]

@[simp] theorem cutBehind_nul (n : ℕ) (inside : Bool) (rest : List α) :
    cutBehind nul delim n inside (nul :: rest) = nul :: rest := by
  cases n <;> simp [cutBehind]

theorem length_cutBehind (n : ℕ) (inside : Bool) (text : List α) :
    (cutBehind nul delim n inside text).length = text.length := by
  induction text generalizing n inside with
  | nil => cases n <;> rfl
  | cons c text ih =>
    cases n with
    | zero => rfl
    | succ n =>
      simp only [cutBehind]
      split_ifs <;> simp [ih]

/-- Where there were only terminators, there are only terminators. -/
theorem eq_nul_of_mem_drop_cutBehind {n k : ℕ} {inside : Bool} {text : List α}
    (h : ∀ c ∈ text.drop k, c = nul) :
    ∀ c ∈ (cutBehind nul delim n inside text).drop k, c = nul := by
  induction text generalizing n k inside with
  | nil => cases n <;> simp [cutBehind]
  | cons d text ih =>
    cases n with
    | zero => exact h
    | succ n =>
      cases k with
      | zero =>
        have hd : d = nul := h d List.mem_cons_self
        rw [hd, cutBehind_nul]
        rwa [hd] at h
      | succ k =>
        simp only [cutBehind]
        split_ifs <;> simp only [List.drop_succ_cons] at h ⊢
        · exact h
        · exact ih h
        · exact ih h
        · exact ih h

/-- Delimiters in front of a piece stay. -/
theorem cutBehind_skipped {skipped : List α} (hnul : nul ∉ delim)
    (h : ∀ c ∈ skipped, c ∈ delim) (n : ℕ) (rest : List α) :
    cutBehind nul delim (n + 1) false (skipped ++ rest) =
      skipped ++ cutBehind nul delim (n + 1) false rest := by
  induction skipped with
  | nil => rfl
  | cons c skipped ih =>
    obtain ⟨hc, hrest⟩ := List.forall_mem_cons.mp h
    rw [List.cons_append, cutBehind, if_neg (ne_of_mem_of_not_mem hc hnul), if_pos hc, ih hrest]
    rfl

/-- A piece stays, and the text goes on inside it. -/
theorem cutBehind_token {token : List α} (htoken : nul ∉ token) (hpiece : ∀ c ∈ token, c ∉ delim)
    (hne : token ≠ []) (n : ℕ) (inside : Bool) (rest : List α) :
    cutBehind nul delim (n + 1) inside (token ++ rest) =
      token ++ cutBehind nul delim (n + 1) true rest := by
  induction token generalizing inside with
  | nil => exact absurd rfl hne
  | cons c token ih =>
    obtain ⟨hc, hrest⟩ := List.forall_mem_cons.mp hpiece
    have hnc : c ≠ nul := ne_of_mem_of_not_mem List.mem_cons_self htoken
    have hntoken : nul ∉ token := fun hmem => htoken (List.mem_cons_of_mem c hmem)
    rw [List.cons_append, cutBehind, if_neg hnc, if_neg hc]
    rcases eq_or_ne token [] with rfl | htail
    · rfl
    · rw [ih hntoken hrest htail, List.cons_append]

/-- One call cuts behind the first piece, and the next ones go on behind it. -/
theorem strtok_cutBehind (hnul : nul ∉ delim) {buffer text : List α} {pos : ℕ}
    (h : stringAt nul buffer pos = some text) : ∃ token cut next text',
      strtok nul delim buffer pos = (token, cut, next) ∧ stringAt nul cut next = some text' ∧
      ∀ n, cut.take next ++ cutBehind nul delim n false (cut.drop next) =
        buffer.take pos ++ cutBehind nul delim (n + 1) false (buffer.drop pos) := by
  obtain ⟨htext, rest, hbuffer⟩ := stringAt_eq_some_iff.mp h
  obtain ⟨skipped, token, tail, rfl, hskipped, hpiece, hcases⟩ := exists_pieces delim text
  simp only [List.mem_append, not_or] at htext
  simp only [List.append_assoc] at hbuffer
  have heq := strtok_eq hnul hbuffer htext.2.1 htext.2.2 hskipped hpiece hcases
  have hdrop := drop_add_length hbuffer
  -- Without a delimiter behind the first piece the buffer stays as it is.
  have hsame (l : List α) (next : ℕ) (hnext : buffer.drop next = nul :: rest)
      (hl : buffer.drop pos = l ++ nul :: rest) (n : ℕ)
      (hcut : cutBehind nul delim (n + 1) false (l ++ nul :: rest) = l ++ nul :: rest) :
      buffer.take next ++ cutBehind nul delim n false (buffer.drop next) =
        buffer.take pos ++ cutBehind nul delim (n + 1) false (buffer.drop pos) := by
    rw [hnext, cutBehind_nul, ← hnext, hl, hcut, ← hl, List.take_append_drop,
      List.take_append_drop]
  rcases hcases with ⟨rfl, rfl⟩ | ⟨hne, hdelim⟩
  · rw [if_pos rfl] at heq
    refine ⟨_, _, _, [], heq, stringAt_eq_some_iff.mpr ⟨List.not_mem_nil, rest, hdrop⟩, fun n => ?_⟩
    exact hsame skipped _ hdrop hbuffer n (by rw [cutBehind_skipped hnul hskipped, cutBehind_nul])
  rw [if_neg hne] at heq
  have hdrop' := drop_add_length hdrop
  cases tail with
  | nil =>
    rw [if_pos rfl] at heq
    refine ⟨_, _, _, [], heq, stringAt_eq_some_iff.mpr ⟨List.not_mem_nil, rest, hdrop'⟩,
      fun n => ?_⟩
    apply hsame (skipped ++ token) _ hdrop' (by rw [hbuffer, List.append_assoc]; rfl) n
    rw [List.append_assoc, cutBehind_skipped hnul hskipped, cutBehind_token htext.2.1 hpiece hne,
      cutBehind_nul]
  | cons d tail =>
    rw [if_neg (List.cons_ne_nil _ _)] at heq
    have hd : d ∈ delim := hdelim d rfl
    have hlen : pos + skipped.length + token.length < buffer.length := by
      have := congrArg List.length hdrop'
      rw [List.length_drop, List.cons_append, List.length_cons] at this
      omega
    have hbehind : (buffer.set (pos + skipped.length + token.length) nul).drop
        (pos + skipped.length + token.length + 1) = tail ++ nul :: rest := by
      rw [List.drop_set_of_lt (Nat.lt_succ_self _)]
      exact (List.drop_drop ..).symm.trans (congrArg (List.drop 1) hdrop')
    have hfront : (buffer.set (pos + skipped.length + token.length) nul).take
        (pos + skipped.length + token.length + 1) =
        buffer.take pos ++ (skipped ++ (token ++ [nul])) := by
      rw [List.take_succ_eq_append_getElem (by rwa [List.length_set]), List.getElem_set_self,
        List.take_set_of_le le_rfl, List.take_add, List.take_add, hdrop, hbuffer, List.take_left,
        List.take_left]
      simp
    refine ⟨_, _, _, tail, heq, stringAt_eq_some_iff.mpr
      ⟨fun hmem => htext.2.2 (List.mem_cons_of_mem _ hmem), rest, hbehind⟩, fun n => ?_⟩
    rw [hbehind, hfront, hbuffer, cutBehind_skipped hnul hskipped,
      cutBehind_token htext.2.1 hpiece hne, List.cons_append, cutBehind,
      if_neg (ne_of_mem_of_not_mem hd hnul), if_pos hd, if_pos rfl]
    simp

end CutBehind

end NoiseLevel.Core

import NoiseLevel.Core.ExchangeSchedule

/-!
# How far the parties drift apart

The party that nobody is ahead of has taken as many tokens as the others can have posted
for it, so all others have passed the slots that it collected at. If every party owns a
slot in each window of some length, this bounds the distance between any two parties and
the number of tokens in flight. A party that owns nothing is held back by nobody.
-/

namespace NoiseLevel.Core.Exchange

variable {E : Exchange}

/-- Every party owns one of any `g` consecutive slots. -/
def Covering (E : Exchange) (g : ℕ) : Prop :=
  ∀ d < E.parties, ∀ n, ∃ t, n ≤ t ∧ t < n + g ∧ E.owner t = d

/-- The tokens in flight to one party. -/
def pending (E : Exchange) (st : State) (d : ℕ) : ℕ :=
  ∑ s ∈ Finset.range E.parties, (st.chan s d).length

/-- A party that is nowhere behind has been served by everyone at all its slots, and collects
nothing more. -/
theorem History.foremost {as : List Label} {st : State} (h : E.History as st) {d : ℕ}
    (hd : d < E.parties) (hmax : ∀ q < E.parties, st.pos q ≤ st.pos d) :
    st.got d = 0 ∧ ∀ s < E.parties, E.owned d (st.pos s) = E.owned d (st.pos d) := by
  have hposted : ∀ s ∈ (Finset.range E.parties).erase d,
      (taken as s d).length ≤ E.owned d (st.pos s) := fun s hs =>
    h.taken_le (Finset.mem_erase.mp hs).1
  have hbehind : ∀ s ∈ (Finset.range E.parties).erase d,
      E.owned d (st.pos s) ≤ E.owned d (st.pos d) := fun s hs =>
    E.owned_mono d (hmax s (Finset.mem_range.mp (Finset.mem_erase.mp hs).2))
  have hsum := Finset.sum_le_sum hposted
  have hcap := Finset.sum_le_card_nsmul _ _ _ hbehind
  rw [h.balance_erase hd] at hsum
  rw [card_erase hd, smul_eq_mul] at hcap
  refine ⟨by omega, fun s hs => ?_⟩
  rcases eq_or_ne s d with rfl | hsd
  · rfl
  · refine (Finset.sum_eq_sum_iff_of_le hbehind).mp ?_ s
      (Finset.mem_erase.mpr ⟨hsd, Finset.mem_range.mpr hs⟩)
    rw [Finset.sum_const, card_erase hd, smul_eq_mul]
    omega

/-- No party is a whole window ahead of another. -/
theorem History.pos_lt {as : List Label} {st : State} (h : E.History as st) {g r s : ℕ}
    (hcov : E.Covering g) (hr : r < E.parties) (hs : s < E.parties) :
    st.pos r < st.pos s + g := by
  obtain ⟨d, hd, hmax⟩ := Finset.exists_max_image (Finset.range E.parties) st.pos
    ⟨r, Finset.mem_range.mpr hr⟩
  have hd := Finset.mem_range.mp hd
  refine lt_of_le_of_lt (hmax r (Finset.mem_range.mpr hr)) (not_le.mp fun hfar => ?_)
  -- the foremost party has collected at a slot of this window, which the other has not passed
  obtain ⟨t, ht, htg, ho⟩ := hcov d hd (st.pos s)
  have heq := (h.foremost hd fun q hq => hmax q (Finset.mem_range.mpr hq)).2 s hs
  have hslot := E.owned_succ d t
  rw [if_pos ho] at hslot
  have hbefore := E.owned_mono d ht
  have hafter := E.owned_mono d (show t + 1 ≤ st.pos d by omega)
  omega

theorem owned_add_le (d n k : ℕ) : E.owned d (n + k) ≤ E.owned d n + k := by
  induction k with
  | zero => exact le_rfl
  | succ k ih =>
    rw [← Nat.add_assoc, owned_succ]
    split <;> omega

/-- The slots that a party owns between the hindmost and the foremost bound what is in flight
to it. -/
theorem History.pending_le {as : List Label} {st : State} (h : E.History as st) {g k d : ℕ}
    (hcov : E.Covering g) (hd : d < E.parties)
    (hk : ∀ n, E.owned d (n + (g - 1)) ≤ E.owned d n + k) :
    E.pending st d ≤ (E.parties - 1) * k := by
  have hchan : ∀ s ∈ (Finset.range E.parties).erase d,
      (taken as s d).length + (st.chan s d).length ≤ E.owned d (st.pos d) + k := by
    intro s hs
    obtain ⟨hsd, hsp⟩ := Finset.mem_erase.mp hs
    have hf := congrArg List.length (h.fifo s d hsd)
    rw [List.length_append] at hf
    have hclose := h.pos_lt hcov (Finset.mem_range.mp hsp) hd
    have hmono := E.owned_mono d (show st.pos s ≤ st.pos d + (g - 1) by omega)
    have := hk (st.pos d)
    rw [hf]
    exact hmono.trans this
  have hsum := Finset.sum_le_card_nsmul _ _ _ hchan
  rw [Finset.sum_add_distrib, h.balance_erase hd, card_erase hd, smul_eq_mul, Nat.mul_add] at hsum
  have hself : E.pending st d = ∑ s ∈ (Finset.range E.parties).erase d, (st.chan s d).length :=
    (Finset.sum_erase _ (by rw [h.self_chan d, List.length_nil])).symm
  omega

/-- Every slot has one owner. -/
theorem sum_owned (n : ℕ) : ∑ d ∈ Finset.range E.parties, E.owned d n = n := by
  induction n with
  | zero => exact Finset.sum_eq_zero fun d _ => rfl
  | succ n ih =>
    have hone : ∑ d ∈ Finset.range E.parties, (if E.owner n = d then 1 else 0) = 1 := by
      rw [Finset.sum_ite_eq, if_pos (Finset.mem_range.mpr (E.owner_lt n))]
    simp only [owned_succ, Finset.sum_add_distrib, ih, hone]

/-- A party that owns nothing can post any number of tokens before anybody else moves. -/
theorem exists_ahead {s : ℕ} (hs : s < E.parties) (hidle : ∀ t, E.owner t ≠ s) (k : ℕ) :
    ∃ as st, E.system.Run start as st ∧ st.pos s = k ∧ (∀ q, q ≠ s → st.pos q = 0) ∧
      ∑ d ∈ Finset.range E.parties, E.pending st d = k := by
  obtain ⟨as, st, hr, hpos, hother, -, hnone⟩ :=
    exists_posts (E := E) hs k start fun u _ _ => hidle u
  have hk : st.pos s = k := by rw [hpos, start, Nat.zero_add]
  have h := history_of_run hr
  refine ⟨as, st, hr, hk, hother, ?_⟩
  have hchan : ∀ d, ∀ q ∈ Finset.range E.parties, q ≠ s → (st.chan q d).length = 0 := by
    intro d q _ hqs
    rcases eq_or_ne q d with rfl | hqd
    · rw [h.self_chan q, List.length_nil]
    · have hf := h.fifo q d hqd
      rw [hnone, List.nil_append, hother q hqs] at hf
      rw [hf]
      rfl
  have hown : ∀ d, (st.chan s d).length = E.owned d k := by
    intro d
    rcases eq_or_ne s d with rfl | hsd
    · rw [h.self_chan s, owned, slots, List.filter_eq_nil_iff.mpr]
      · exact fun t _ => by simpa using hidle t
    · have hf := h.fifo s d hsd
      rw [hnone, List.nil_append, hk] at hf
      rw [hf, owned]
  rw [← sum_owned (E := E) k]
  refine Finset.sum_congr rfl fun d _ => ?_
  rw [pending, Finset.sum_eq_single s (hchan d) fun hns =>
    absurd (Finset.mem_range.mpr hs) hns, hown d]

end NoiseLevel.Core.Exchange

import NoiseLevel.Core.ExchangeOrder

/-!
# Schedules of the exchange

Moving only the parties that are furthest behind brings everybody to the same slot.
From there a party without slots of its own can post twice to one owner, and the
owner, if it waits for a third party as well, takes the second token at the first
slot.
-/

namespace NoiseLevel.Core.Exchange

variable {E : Exchange}

/-- Slots passed and tokens taken, weighted so that every move adds to it. -/
def work (E : Exchange) (st : State) (q : ℕ) : ℕ := st.pos q * E.parties + st.got q

/-- A step is the work of its party alone. -/
theorem work_of_ne (st : State) (l : Label) {q : ℕ} (hq : q ≠ l.party) :
    E.work (E.next st l) q = E.work st q := by
  cases l <;> simp only [Label.party] at hq <;> simp [work, next, hq]

/-- Every step is work of its party. -/
theorem History.work_lt {as : List Label} {st : State} (h : E.History as st) {l : Label}
    (he : E.Enabled st l) : E.work st l.party < E.work (E.next st l) l.party := by
  cases l with
  | post s =>
    have hp : 0 < E.parties := lt_of_le_of_lt (Nat.zero_le _) he.1
    simp only [work, Label.party, next, Function.update_self, Nat.add_mul, Nat.one_mul]
    omega
  | take d s slot tag => simp [work, Label.party, next]
  | pass d =>
    have hg := h.got_lt d he.1
    simp only [work, Label.party, next, Function.update_self, Nat.add_mul, Nat.one_mul]
    omega

/-- A step moves nobody but its party, and that by one slot at most. -/
theorem pos_next_le (st : State) (l : Label) (q : ℕ) :
    (E.next st l).pos q ≤ st.pos q + if q = l.party then 1 else 0 := by
  by_cases hq : q = l.party
  · subst hq
    cases l <;> simp [next, Label.party]
  · cases l <;> simp only [Label.party] at hq <;> simp [next, hq]

/-- Work still missing before all parties stand at a slot. -/
def lag (E : Exchange) (t : ℕ) (st : State) : ℕ :=
  ∑ q ∈ Finset.range E.parties, (t * E.parties - E.work st q)

/-- Only parties take steps. -/
theorem party_lt {st : State} {l : Label} (he : E.Enabled st l) : l.party < E.parties := by
  cases l with
  | post => exact he.1
  | take => exact he.1
  | pass => exact he.1

/-- A step of a party that has not reached a slot lowers the distance to it. -/
theorem History.lag_lt {as : List Label} {st : State} (h : E.History as st) {l : Label} {t : ℕ}
    (he : E.Enabled st l) (ht : st.pos l.party < t) : E.lag t (E.next st l) < E.lag t st := by
  apply Finset.sum_lt_sum
  · intro q _
    by_cases hq : q = l.party
    · subst hq
      have := h.work_lt he
      omega
    · rw [work_of_ne st l hq]
  · refine ⟨l.party, Finset.mem_range.mpr (party_lt he), ?_⟩
    have hw := h.work_lt he
    have hg := h.got_lt l.party (party_lt he)
    have hm := Nat.mul_le_mul_right E.parties (show st.pos l.party + 1 ≤ t from ht)
    rw [Nat.add_mul, Nat.one_mul] at hm
    have hroom : E.work st l.party < t * E.parties := by unfold work; omega
    omega

/-- From any reachable state all parties can be brought to a common later slot. -/
theorem exists_sync (t : ℕ) {as : List Label} {st : State} (hr : E.system.Run start as st)
    (hle : ∀ q, q < E.parties → st.pos q ≤ t) :
    ∃ bs st', E.system.Run st bs st' ∧ ∀ q, q < E.parties → st'.pos q = t := by
  induction hn : E.lag t st using Nat.strong_induction_on generalizing as st with
  | _ n ih =>
    by_cases hall : ∀ q, q < E.parties → st.pos q = t
    · exact ⟨[], st, System.Run.nil st, hall⟩
    · push Not at hall
      obtain ⟨q, hq, hqt⟩ := hall
      have hi := history_of_run hr
      obtain ⟨l, he, hmin⟩ := hi.exists_enabled
      have hbehind : st.pos l.party < t := by
        have := hmin q hq
        have := hle q hq
        omega
      have hle' : ∀ r, r < E.parties → (E.next st l).pos r ≤ t := by
        intro r hrp
        have hstep := pos_next_le (E := E) st l r
        by_cases hrl : r = l.party
        · rw [if_pos hrl] at hstep
          rw [hrl] at hstep ⊢
          omega
        · rw [if_neg hrl] at hstep
          exact hstep.trans (hle r hrp)
      obtain ⟨bs, st', hb, hsync⟩ := ih _ (hn ▸ hi.lag_lt he hbehind)
        (hr.snoc ⟨he, rfl⟩) hle' rfl
      exact ⟨[l] ++ bs, st', System.Run.append ((System.Run.nil st).snoc ⟨he, rfl⟩) hb, hsync⟩

/-- A party posts through a stretch of slots that it does not own. -/
theorem exists_posts {s : ℕ} (hs : s < E.parties) (k : ℕ) (st : State)
    (hfree : ∀ u, st.pos s ≤ u → u < st.pos s + k → E.owner u ≠ s) :
    ∃ bs st', E.system.Run st bs st' ∧ st'.pos s = st.pos s + k ∧
      (∀ q, q ≠ s → st'.pos q = st.pos q) ∧ st'.got = st.got ∧ ∀ a b, taken bs a b = [] := by
  induction k with
  | zero => exact ⟨[], st, System.Run.nil st, rfl, fun _ _ => rfl, rfl, fun _ _ => rfl⟩
  | succ k ih =>
    obtain ⟨bs, st', hb, hp, hq, hg, ht⟩ := ih fun u hu hlt => hfree u hu (by omega)
    have he : E.Enabled st' (.post s) := ⟨hs, hfree _ (by omega) (by omega)⟩
    refine ⟨bs ++ [.post s], E.next st' (.post s), hb.snoc ⟨he, rfl⟩, ?_, ?_, hg, ?_⟩
    · simp [next, hp, Nat.add_assoc]
    · intro q hqs; simp [next, hqs, hq q hqs]
    · intro a b; simp [taken_snoc, ht]

/-- Between two slots of an owner without another of its own, one slot is added. -/
theorem slots_consecutive {d t t' : ℕ} (ho : E.owner t = d) (hlt : t < t')
    (hnone : ∀ u, t < u → u < t' → E.owner u ≠ d) : E.slots d t' = E.slots d t ++ [t] := by
  induction t' with
  | zero => omega
  | succ n ih =>
    rcases Nat.lt_succ_iff_lt_or_eq.mp hlt with h | rfl
    · rw [slots_succ, if_neg (hnone n h (Nat.lt_succ_self n)),
        ih h fun u hu hun => hnone u hu (by omega)]
    · rw [slots_succ, if_pos ho]

/-- What was taken in two parts of a run. -/
theorem taken_append (as bs : List Label) (s d : ℕ) :
    taken (as ++ bs) s d = taken as s d ++ taken bs s d := by
  simp only [taken, List.filterMap_append]

/-- If some party owns nothing between two consecutive slots of an owner, and a
third party exists, the owner can take the later token at the earlier slot. -/
theorem exists_overtake (hp : 3 ≤ E.parties) {t t' d s : ℕ} (hlt : t < t') (ho : E.owner t = d)
    (ho' : E.owner t' = d) (hnone : ∀ u, t < u → u < t' → E.owner u ≠ d) (hs : s < E.parties)
    (hsd : s ≠ d) (hfree : ∀ u, t ≤ u → u ≤ t' → E.owner u ≠ s) :
    ∃ as st, E.system.Run start as st ∧ E.Enabled st (.take d s t t') := by
  have hd : d < E.parties := ho ▸ E.owner_lt t
  obtain ⟨as, sync, hrun, hsync⟩ := exists_sync (E := E) t (System.Run.nil start)
    fun _ _ => Nat.zero_le t
  have hi := history_of_run hrun
  obtain ⟨bs, st, hb, hpos, hother, hgot, htaken⟩ := exists_posts hs (t' + 1 - t) sync
    fun u hu hut => hfree u (by rw [← hsync s hs]; exact hu) (by have := hsync s hs; omega)
  have hrun' := hrun.append hb
  have hi' := history_of_run hrun'
  -- the two posts are in flight together
  have hchan : st.chan s d = [t, t'] := by
    have hbefore := hi.fifo s d hsd
    rw [(hi.drained hsync hs hd).1, List.append_nil, hsync s hs] at hbefore
    have hafter := hi'.fifo s d hsd
    rw [taken_append, htaken, List.append_nil, hbefore, hpos, hsync s hs,
      show t + (t' + 1 - t) = t' + 1 by omega, slots_succ, if_pos ho',
      slots_consecutive ho hlt hnone, List.append_assoc] at hafter
    exact List.append_cancel_left hafter
  have hgd : st.got d = 0 := by rw [hgot]; exact (hi.drained hsync hs hd).2
  have hpd : st.pos d = t := by rw [hother d (Ne.symm hsd), hsync d hd]
  have hfirst : E.Enabled st (.take d s t t) := by
    refine ⟨hd, hs, by rw [hpd, ho], by omega, hpd.symm, by rw [hchan]; rfl⟩
  refine ⟨_, _, hrun'.snoc ⟨hfirst, rfl⟩, hd, hs, ?_, ?_, ?_, ?_⟩
  · rw [next, hpd, ho]
  · simp only [next, Function.update_self, hgd]
    omega
  · rw [next, hpd]
  · simp [next, pop, hchan]

end NoiseLevel.Core.Exchange

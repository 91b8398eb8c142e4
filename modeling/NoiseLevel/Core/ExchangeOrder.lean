import NoiseLevel.Core.Exchange

/-!
# When anonymous tokens arrive at the right slot

Two owned slots are separated when every other party owns a slot between them.
Separation (or having only two parties) bounds how far anyone runs ahead, so every
token is taken at the slot it was posted for. Where it fails and a third party
exists, some run takes a token one owned slot too early.
-/

namespace NoiseLevel.Core.Exchange

variable (E : Exchange)

/-- Between two slots of one owner every other party owns a slot. -/
def Separated : Prop :=
  ∀ t t' s, t < t' → E.owner t = E.owner t' → s < E.parties → s ≠ E.owner t →
    ∃ u, t < u ∧ u < t' ∧ E.owner u = s

/-- Slots at which one party has taken the tokens of another, in order. -/
def takenAt (as : List Label) (s d : ℕ) : List ℕ :=
  as.filterMap fun
    | .take d' s' slot _ => if s' = s ∧ d' = d then some slot else none
    | _ => none

/-- What was taken with one more step. -/
theorem takenAt_snoc (as : List Label) (a : Label) (s d : ℕ) :
    takenAt (as ++ [a]) s d = takenAt as s d ++ takenAt [a] s d := by
  simp only [takenAt, List.filterMap_append]

/-- Nothing is taken when a token is posted. -/
@[simp] theorem takenAt_post (p s d : ℕ) : takenAt [.post p] s d = [] := rfl

/-- Nothing is taken when a slot is passed. -/
@[simp] theorem takenAt_pass (p s d : ℕ) : takenAt [.pass p] s d = [] := rfl

/-- A step of taking adds the slot of the taker. -/
@[simp] theorem takenAt_take (d' s' slot tag s d : ℕ) :
    takenAt [.take d' s' slot tag] s d = if s' = s ∧ d' = d then [slot] else [] := by
  by_cases h : s' = s ∧ d' = d <;> simp [takenAt, h]

/-- Every source has been served once for each slot passed, and at most once more
at the current slot; every token was taken at its own slot. -/
structure Lockstep (as : List Label) (st : State) : Prop where
  lower : ∀ s d, s < E.parties → d < E.parties → s ≠ d →
    E.owned d (st.pos d) ≤ (taken as s d).length
  upper : ∀ s d, s < E.parties → d < E.parties → s ≠ d →
    (taken as s d).length ≤ E.owned d (st.pos d) + if E.owner (st.pos d) = d then 1 else 0
  aligned : ∀ s d, takenAt as s d = taken as s d

variable {E}

/-- Nobody who has been served at the current slot has another token in flight:
the sender would have to pass a slot of its own that the owner has not reached. -/
theorem Lockstep.no_overtake {as : List Label} {st : State} (h : E.History as st)
    (k : E.Lockstep as st) (hsep : E.parties ≤ 2 ∨ E.Separated) {s d : ℕ}
    (hs : s < E.parties) (hd : d < E.parties) (hsd : s ≠ d) (ho : E.owner (st.pos d) = d)
    (hg : st.got d + 1 < E.parties) (hc : st.chan s d ≠ []) :
    (taken as s d).length = E.owned d (st.pos d) := by
  have hlow := k.lower s d hs hd hsd
  have hup := k.upper s d hs hd hsd
  rw [if_pos ho] at hup
  by_contra hne
  have hserved : (taken as s d).length = E.owned d (st.pos d) + 1 := by omega
  rcases hsep with htwo | hsep
  · have hsum := h.balance d hd
    have hterm := Finset.single_le_sum (f := fun q => (taken as q d).length)
      (fun _ _ => Nat.zero_le _) (Finset.mem_range.mpr hs)
    have hp : E.parties - 1 = 1 := by omega
    rw [hp, Nat.one_mul] at hsum
    omega
  · have hpos : 0 < (st.chan s d).length := List.length_pos_of_ne_nil hc
    have hf := congrArg List.length (h.fifo s d hsd)
    rw [List.length_append] at hf
    have hmany : E.owned d (st.pos d + 1) < E.owned d (st.pos s) := by
      rw [owned_succ, if_pos ho]
      unfold owned at *
      omega
    obtain ⟨t', hge, hlt, ho'⟩ := E.exists_slot_of_owned_lt hmany
    obtain ⟨u, hu, hut, hou⟩ := hsep (st.pos d) t' s (by omega) (by rw [ho, ho']) hs
      (by rw [ho]; exact hsd)
    -- `s` has passed its slot `u`, so it holds a token that `d` posts only after `u`
    have hpassed := E.owned_mono s (show u + 1 ≤ st.pos s by omega)
    rw [owned_succ, if_pos hou] at hpassed
    have hback := k.lower d s hd hs (Ne.symm hsd)
    have hposted := h.taken_le (Ne.symm hsd)
    have hbehind := E.owned_mono s (show st.pos d ≤ u by omega)
    omega

/-- The oldest token in flight to a collecting owner belongs to its slot. -/
theorem Lockstep.head_tag {as : List Label} {st : State} (h : E.History as st)
    (k : E.Lockstep as st) (hsep : E.parties ≤ 2 ∨ E.Separated) {s d slot tag : ℕ}
    (he : E.Enabled st (.take d s slot tag)) :
    tag = st.pos d ∧ (taken as s d).length = E.owned d (st.pos d) := by
  obtain ⟨hd, hs, ho, hg, _, hc⟩ := he
  obtain ⟨rest, hrest⟩ : ∃ rest, st.chan s d = tag :: rest := List.head?_eq_some_iff.mp hc
  have hsd : s ≠ d := by
    rintro rfl
    rw [h.self_chan s] at hrest
    cases hrest
  have hlen := k.no_overtake h hsep hs hd hsd ho hg (by rw [hrest]; exact List.cons_ne_nil _ _)
  refine ⟨?_, hlen⟩
  have hf := h.fifo s d hsd
  have hlt : st.pos d < st.pos s := by
    by_contra hge
    have hm := E.owned_mono d (not_lt.mp hge)
    have hl := congrArg List.length hf
    rw [List.length_append, hrest, List.length_cons] at hl
    unfold owned at *
    omega
  obtain ⟨later, hsplit⟩ := E.slots_split ho hlt
  rw [hsplit, hrest] at hf
  exact (List.cons.inj (List.append_inj hf hlen).2).1

/-- Posting keeps the parties in step. -/
theorem Lockstep.post {as : List Label} {st : State} (k : E.Lockstep as st) {p : ℕ}
    (he : E.Enabled st (.post p)) : E.Lockstep (as ++ [.post p]) (E.next st (.post p)) := by
  have hown : ∀ d, E.owned d ((E.next st (.post p)).pos d) = E.owned d (st.pos d) := by
    intro d
    by_cases hd : d = p
    · subst d; simp [next, owned_succ, he.2]
    · simp [next, hd]
  constructor
  · intro s d hs hd hsd
    rw [hown, taken_snoc, taken_post, List.append_nil]
    exact k.lower s d hs hd hsd
  · intro s d hs hd hsd
    have hup := k.upper s d hs hd hsd
    rw [hown, taken_snoc, taken_post, List.append_nil]
    by_cases hdp : d = p
    · subst d
      rw [if_neg he.2] at hup
      omega
    · simpa [next, hdp] using hup
  · intro s d
    simpa [takenAt_snoc, taken_snoc] using k.aligned s d

/-- Taking keeps the parties in step. -/
theorem Lockstep.take {as : List Label} {st : State} (h : E.History as st)
    (k : E.Lockstep as st) (hsep : E.parties ≤ 2 ∨ E.Separated) {d s slot tag : ℕ}
    (he : E.Enabled st (.take d s slot tag)) :
    E.Lockstep (as ++ [.take d s slot tag]) (E.next st (.take d s slot tag)) := by
  obtain ⟨htag, hlen⟩ := k.head_tag h hsep he
  obtain ⟨_, _, ho, _, hslot, _⟩ := he
  constructor
  · intro a b ha hb hab
    have hlow := k.lower a b ha hb hab
    rw [taken_snoc, List.length_append]
    exact hlow.trans (Nat.le_add_right _ _)
  · intro a b ha hb hab
    rw [taken_snoc, taken_take, List.length_append]
    by_cases hm : s = a ∧ d = b
    · obtain ⟨rfl, rfl⟩ := hm
      simp [next, hlen, ho]
    · rw [if_neg hm, List.length_nil, Nat.add_zero]
      exact k.upper a b ha hb hab
  · intro a b
    rw [takenAt_snoc, taken_snoc, k.aligned a b, taken_take, takenAt_take, htag, hslot]

/-- Passing keeps the parties in step. -/
theorem Lockstep.pass {as : List Label} {st : State} (h : E.History as st)
    (k : E.Lockstep as st) {d : ℕ} (he : E.Enabled st (.pass d)) :
    E.Lockstep (as ++ [.pass d]) (E.next st (.pass d)) := by
  obtain ⟨hd, ho, hg⟩ := he
  have hle : ∀ q ∈ (Finset.range E.parties).erase d,
      (taken as q d).length ≤ E.owned d (st.pos d) + 1 := by
    intro q hq
    obtain ⟨hqd, hqp⟩ := Finset.mem_erase.mp hq
    simpa only [if_pos ho] using k.upper q d (Finset.mem_range.mp hqp) hd hqd
  -- the owner leaves with as many tokens as other parties, so nobody was skipped
  have heq : ∀ q ∈ (Finset.range E.parties).erase d,
      (taken as q d).length = E.owned d (st.pos d) + 1 := by
    apply (Finset.sum_eq_sum_iff_of_le hle).mp
    rw [h.balance_erase hd, Finset.sum_const, card_erase hd, smul_eq_mul, Nat.mul_add,
      Nat.mul_one]
    omega
  have hpos : (E.next st (.pass d)).pos d = st.pos d + 1 := by simp [next]
  have hother : ∀ b, b ≠ d → (E.next st (.pass d)).pos b = st.pos b := by
    intro b hb; simp [next, hb]
  constructor
  · intro a b ha hb hab
    rw [taken_snoc, taken_pass, List.append_nil]
    by_cases hbd : b = d
    · subst hbd
      rw [hpos, owned_succ, if_pos ho,
        heq a (Finset.mem_erase.mpr ⟨hab, Finset.mem_range.mpr ha⟩)]
    · rw [hother b hbd]
      exact k.lower a b ha hb hab
  · intro a b ha hb hab
    rw [taken_snoc, taken_pass, List.append_nil]
    by_cases hbd : b = d
    · subst hbd
      rw [hpos, owned_succ, if_pos ho,
        heq a (Finset.mem_erase.mpr ⟨hab, Finset.mem_range.mpr ha⟩)]
      omega
    · rw [hother b hbd]
      exact k.upper a b ha hb hab
  · intro a b
    simpa [takenAt_snoc, taken_snoc] using k.aligned a b

/-- At the start the parties are in step. -/
theorem lockstep_start : E.Lockstep [] start := by
  constructor
  · intro s d _ _ _; simp [start, owned, slots]
  · intro s d _ _ _; simp
  · intro s d; rfl

/-- Under separation every run stays in lockstep. -/
theorem lockstep_of_run (hsep : E.parties ≤ 2 ∨ E.Separated) {as : List Label} {st : State}
    (hr : E.system.Run start as st) : E.Lockstep as st := by
  apply hr.invariant E.Lockstep lockstep_start
  rintro as st a _ hrun hk ⟨he, rfl⟩
  have hi := history_of_run hrun
  cases a with
  | post => exact hk.post he
  | take => exact hk.take hi hsep he
  | pass => exact hk.pass hi he

/-- Under separation a token is only ever taken at the slot it was posted for. -/
theorem tag_eq_slot (hsep : E.parties ≤ 2 ∨ E.Separated) {as : List Label} {st : State}
    (hr : E.system.Run start as st) {d s slot tag : ℕ}
    (he : E.Enabled st (.take d s slot tag)) : tag = slot := by
  obtain ⟨_, _, _, _, hslot, _⟩ := id he
  rw [hslot, ((lockstep_of_run hsep hr).head_tag (history_of_run hr) hsep he).1]

/-- Sources of the tokens that one party has taken at one slot, in order. -/
def sources (as : List Label) (d slot : ℕ) : List ℕ :=
  as.filterMap fun
    | .take d' s slot' _ => if d' = d ∧ slot' = slot then some s else none
    | _ => none

/-- The senders in two parts of a run. -/
theorem sources_append (as bs : List Label) (d slot : ℕ) :
    sources (as ++ bs) d slot = sources as d slot ++ sources bs d slot := by
  simp only [sources, List.filterMap_append]

/-- A step of taking adds its sender. -/
theorem sources_take (d s slot tag d' slot' : ℕ) :
    sources [.take d s slot tag] d' slot' = if d = d' ∧ slot = slot' then [s] else [] := by
  by_cases h : d = d' ∧ slot = slot' <;> simp [sources, h]

/-- How often a sender was taken from for a slot, seen from both sides. -/
theorem count_sources (as : List Label) (s d slot : ℕ) :
    (sources as d slot).count s = (takenAt as s d).count slot := by
  induction as with
  | nil => rfl
  | cons a as ih =>
    cases a with
    | post => simpa [sources, takenAt] using ih
    | pass => simpa [sources, takenAt] using ih
    | take d' s' slot' tag =>
      by_cases hd : d' = d <;> by_cases hs : s' = s <;> by_cases ht : slot' = slot <;>
        simpa [sources, takenAt, List.filterMap_cons, hd, hs, ht] using ih

/-- No slot is listed twice. -/
theorem nodup_slots (d n : ℕ) : (E.slots d n).Nodup := List.nodup_range.filter _

/-- The tokens taken from a party are a prefix of its posts, so no slot occurs twice. -/
theorem History.nodup_taken {as : List Label} {st : State} (h : E.History as st) {s d : ℕ}
    (hsd : s ≠ d) : (taken as s d).Nodup := by
  have hn := E.nodup_slots d (st.pos s)
  rw [← h.fifo s d hsd] at hn
  exact (List.nodup_append.mp hn).1

/-- An owner that has taken more tokens than slots before `t` has taken the one of `t`. -/
theorem History.mem_taken {as : List Label} {st : State} (h : E.History as st) {s d t : ℕ}
    (hsd : s ≠ d) (ho : E.owner t = d) (hlen : E.owned d t < (taken as s d).length) :
    t ∈ taken as s d := by
  have hbeyond : t < st.pos s := by
    by_contra hge
    have := E.owned_mono d (not_lt.mp hge)
    have := h.taken_le hsd
    omega
  obtain ⟨later, hlater⟩ := E.slots_split ho hbeyond
  have hf := h.fifo s d hsd
  rw [hlater] at hf
  have hget : (taken as s d ++ st.chan s d)[E.owned d t]? = some t := by
    rw [hf]
    simp [owned]
  rw [List.getElem?_append_left hlen] at hget
  exact List.mem_of_getElem? hget

/-- At every slot it has passed, an owner has taken exactly one token from each
other party, in some order. -/
theorem sources_perm (hsep : E.parties ≤ 2 ∨ E.Separated) {as : List Label} {st : State}
    (hr : E.system.Run start as st) {d t : ℕ} (hd : d < E.parties) (ho : E.owner t = d)
    (ht : t < st.pos d) : (sources as d t).Perm ((List.range E.parties).erase d) := by
  have hi := history_of_run hr
  have hk := lockstep_of_run hsep hr
  rw [List.perm_iff_count]
  intro s
  rw [count_sources, hk.aligned]
  by_cases hs : s < E.parties ∧ s ≠ d
  · obtain ⟨hs, hsd⟩ := hs
    have hlow := hk.lower s d hs hd hsd
    have hlen : E.owned d t < (taken as s d).length := by
      obtain ⟨rest, hrest⟩ := E.slots_split ho ht
      have := congrArg List.length hrest
      rw [List.length_append, List.length_cons] at this
      unfold owned at *
      omega
    rw [List.count_eq_one_of_mem (hi.nodup_taken hsd) (hi.mem_taken hsd ho hlen)]
    exact (List.count_eq_one_of_mem (List.nodup_range.erase d)
      ((List.mem_erase_of_ne hsd).mpr (List.mem_range.mpr hs))).symm
  · have hout : s ∉ (List.range E.parties).erase d := by
      intro hm
      have hm' := (List.nodup_range.mem_erase_iff).mp hm
      exact hs ⟨List.mem_range.mp hm'.2, hm'.1⟩
    rw [List.count_eq_zero_of_not_mem hout]
    have hnone : taken as s d = [] := by
      by_cases hsd : s = d
      · rw [hsd]; exact hi.self_taken d
      · exact hi.outside_taken s d (by omega)
    rw [hnone, List.count_nil]

/-- Parties that own the slots in turn. -/
def roundRobin (parties : ℕ) (h : 0 < parties) : Exchange where
  parties := parties
  owner t := t % parties
  owner_lt _ := Nat.mod_lt _ h

/-- Taking turns separates the slots of every owner. -/
theorem separated_roundRobin {parties : ℕ} (h : 0 < parties) :
    (roundRobin parties h).Separated := by
  intro t t' s hlt howner hs hne
  simp only [roundRobin] at *
  have ht := Nat.div_add_mod t parties
  have ht' := Nat.div_add_mod t' parties
  have hmod := Nat.mod_lt t h
  have hdiv : t / parties < t' / parties := by
    by_contra hge
    have := Nat.mul_le_mul_left parties (not_lt.mp hge)
    omega
  have hround := Nat.mul_le_mul_left parties (show t / parties + 1 ≤ t' / parties from hdiv)
  rw [Nat.mul_add, Nat.mul_one] at hround
  rcases lt_or_gt_of_ne hne with hless | hmore
  · refine ⟨parties * (t / parties + 1) + s, ?_, ?_, ?_⟩
    · rw [Nat.mul_add, Nat.mul_one]
      omega
    · rw [Nat.mul_add, Nat.mul_one]
      omega
    · rw [Nat.mul_add_mod, Nat.mod_eq_of_lt hs]
  · refine ⟨parties * (t / parties) + s, by omega, by omega, ?_⟩
    rw [Nat.mul_add_mod, Nat.mod_eq_of_lt hs]

end NoiseLevel.Core.Exchange

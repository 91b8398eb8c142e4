import NoiseLevel.Core.Transition
import Mathlib.Algebra.BigOperators.Group.Finset.Piecewise
import Mathlib.Algebra.Order.BigOperators.Group.Finset
import Mathlib.Algebra.Group.Action.Defs
import Mathlib.Data.Finset.Max
import Mathlib.Tactic.Ring

/-!
# Anonymous exchange over owned slots

Finitely many parties walk the same infinite sequence of slots. A party that does
not own its current slot posts one token to the owner and moves on; the owner
takes one token for every other party, from whichever channel it likes, before it
moves on. Channels are FIFO and tokens carry the slot they were posted at, which
no step ever reads. Everything here holds for an arbitrary ownership function.
-/

namespace NoiseLevel.Core

/-- The number of parties and the owner of every slot. -/
structure Exchange where
  /-- Parties are the numbers below this bound. -/
  parties : ℕ
  /-- The party that collects at a slot. -/
  owner : ℕ → ℕ
  owner_lt : ∀ t, owner t < parties

namespace Exchange

/-- Current slots, tokens already taken there, and the tokens in flight. -/
structure State where
  pos : ℕ → ℕ
  got : ℕ → ℕ
  /-- `chan s d` holds the tokens from `s` to `d`, oldest first. -/
  chan : ℕ → ℕ → List ℕ

/-- The three moves of a party; a `take` names its slot and the slot of the token. -/
inductive Label where
  | post (s : ℕ)
  | take (d s slot tag : ℕ)
  | pass (d : ℕ)

/-- The party that moves. -/
def Label.party : Label → ℕ
  | .post s => s
  | .take d _ _ _ => d
  | .pass d => d

/-- Append one token to a single channel. -/
def push {α : Type*} (chan : ℕ → ℕ → List α) (s d : ℕ) (t : α) : ℕ → ℕ → List α :=
  fun a b => if a = s ∧ b = d then chan a b ++ [t] else chan a b

/-- Drop the oldest token of a single channel. -/
def pop {α : Type*} (chan : ℕ → ℕ → List α) (s d : ℕ) : ℕ → ℕ → List α :=
  fun a b => if a = s ∧ b = d then (chan a b).tail else chan a b

/-- Posting and mapping commute. -/
theorem map_push {α β : Type*} (f : α → β) (chan : ℕ → ℕ → List α) (s d : ℕ) (t : α) :
    (fun a b => (push chan s d t a b).map f) = push (fun a b => (chan a b).map f) s d (f t) := by
  ext a b : 2
  unfold push
  split
  · simp
  · rfl

/-- Taking and mapping commute. -/
theorem map_pop {α β : Type*} (f : α → β) (chan : ℕ → ℕ → List α) (s d : ℕ) :
    (fun a b => (pop chan s d a b).map f) = pop (fun a b => (chan a b).map f) s d := by
  ext a b : 2
  unfold pop
  split
  · exact List.map_tail
  · rfl

variable (E : Exchange)

/-- When a move is possible. Posting never waits. -/
def Enabled (st : State) : Label → Prop
  | .post s => s < E.parties ∧ E.owner (st.pos s) ≠ s
  | .take d s slot tag => d < E.parties ∧ s < E.parties ∧ E.owner (st.pos d) = d ∧
      st.got d + 1 < E.parties ∧ slot = st.pos d ∧ (st.chan s d).head? = some tag
  | .pass d => d < E.parties ∧ E.owner (st.pos d) = d ∧ st.got d + 1 = E.parties

/-- The effect of a move. -/
def next (st : State) : Label → State
  | .post s => ⟨Function.update st.pos s (st.pos s + 1), st.got,
      push st.chan s (E.owner (st.pos s)) (st.pos s)⟩
  | .take d s _ _ => ⟨st.pos, Function.update st.got d (st.got d + 1), pop st.chan s d⟩
  | .pass d => ⟨Function.update st.pos d (st.pos d + 1), Function.update st.got d 0, st.chan⟩

/-- The exchange as a transition system. -/
def system : System State Label where
  step st l st' := E.Enabled st l ∧ st' = E.next st l

/-- Nobody has moved. -/
def start : State := ⟨fun _ => 0, fun _ => 0, fun _ _ => []⟩

/-- The slots of one owner below a bound, in order. -/
def slots (d n : ℕ) : List ℕ := (List.range n).filter (E.owner · = d)

/-- How many slots below a bound one party owns. -/
def owned (d n : ℕ) : ℕ := (E.slots d n).length

/-- Tags of the tokens that one party has taken from another, in order. -/
def taken (as : List Label) (s d : ℕ) : List ℕ :=
  as.filterMap fun
    | .take d' s' _ tag => if s' = s ∧ d' = d then some tag else none
    | _ => none

/-- One more slot is listed for its owner. -/
theorem slots_succ (d n : ℕ) :
    E.slots d (n + 1) = if E.owner n = d then E.slots d n ++ [n] else E.slots d n := by
  by_cases h : E.owner n = d <;> simp [slots, List.range_succ, h]

/-- One more slot counts for its owner. -/
theorem owned_succ (d n : ℕ) :
    E.owned d (n + 1) = E.owned d n + if E.owner n = d then 1 else 0 := by
  by_cases h : E.owner n = d <;> simp [owned, slots_succ, h]

/-- A party owns no fewer of more slots. -/
theorem owned_mono (d : ℕ) : Monotone (E.owned d) :=
  monotone_nat_of_le_succ fun n => by rw [owned_succ]; omega

/-- A slot is the entry of its owner's list at the number of earlier owned slots. -/
theorem slots_split {d t n : ℕ} (ho : E.owner t = d) (ht : t < n) :
    ∃ rest, E.slots d n = E.slots d t ++ t :: rest := by
  induction n with
  | zero => omega
  | succ n ih =>
    rw [slots_succ]
    rcases Nat.lt_succ_iff_lt_or_eq.mp ht with h | rfl
    · obtain ⟨rest, hr⟩ := ih h
      split
      · exact ⟨rest ++ [n], by rw [hr]; simp⟩
      · exact ⟨rest, hr⟩
    · exact ⟨[], by rw [if_pos ho]⟩

/-- More owned slots below a larger bound means an owned slot between the bounds. -/
theorem exists_slot_of_owned_lt {d m n : ℕ} (h : E.owned d m < E.owned d n) :
    ∃ t, m ≤ t ∧ t < n ∧ E.owner t = d := by
  induction n with
  | zero => exact absurd h (not_lt_of_ge (E.owned_mono d (Nat.zero_le m)))
  | succ n ih =>
    by_cases hn : E.owned d m < E.owned d n
    · obtain ⟨t, hm, ht, ho⟩ := ih hn
      exact ⟨t, hm, by omega, ho⟩
    · rw [owned_succ] at h
      have ho : E.owner n = d := by
        by_contra hne
        rw [if_neg hne] at h
        omega
      rw [if_pos ho] at h
      refine ⟨n, ?_, Nat.lt_succ_self n, ho⟩
      by_contra hlt
      have hm := E.owned_mono d (show n + 1 ≤ m by omega)
      rw [owned_succ, if_pos ho] at hm
      omega

/-- Nothing is taken in an empty run. -/
@[simp] theorem taken_nil (s d : ℕ) : taken [] s d = [] := rfl

/-- What was taken with one more step. -/
theorem taken_snoc (as : List Label) (a : Label) (s d : ℕ) :
    taken (as ++ [a]) s d = taken as s d ++ taken [a] s d := by
  simp only [taken, List.filterMap_append]

/-- Nothing is taken when a token is posted. -/
@[simp] theorem taken_post (p s d : ℕ) : taken [.post p] s d = [] := rfl

/-- Nothing is taken when a slot is passed. -/
@[simp] theorem taken_pass (p s d : ℕ) : taken [.pass p] s d = [] := rfl

/-- A step of taking adds its token. -/
@[simp] theorem taken_take (d' s' slot tag s d : ℕ) :
    taken [.take d' s' slot tag] s d = if s' = s ∧ d' = d then [tag] else [] := by
  by_cases h : s' = s ∧ d' = d <;> simp [taken, h]

/-- What every run keeps: FIFO delivery of the posted tokens, and the balance
between tokens taken and slots passed. -/
structure History (as : List Label) (st : State) : Prop where
  /-- Tokens taken and tokens in flight together are the tokens posted. -/
  fifo : ∀ s d, s ≠ d → taken as s d ++ st.chan s d = E.slots d (st.pos s)
  self_taken : ∀ d, taken as d d = []
  outside_taken : ∀ s d, E.parties ≤ s → taken as s d = []
  self_chan : ∀ d, st.chan d d = []
  got_lt : ∀ d, d < E.parties → st.got d < E.parties
  /-- Only the owner of the current slot has started to collect. -/
  collecting : ∀ d, 0 < st.got d → E.owner (st.pos d) = d
  balance : ∀ d, d < E.parties →
    ∑ s ∈ Finset.range E.parties, (taken as s d).length =
      (E.parties - 1) * E.owned d (st.pos d) + st.got d

/-- The history of the start. -/
theorem history_start : E.History [] start := by
  constructor
  · intro s d _; rfl
  · intro d; rfl
  · intro s d _; rfl
  · intro d; rfl
  · intro d hd; exact lt_of_le_of_lt (Nat.zero_le _) hd
  · intro d hd; exact absurd hd (lt_irrefl 0)
  · intro d _; simp [start, owned, slots]

variable {E}

/-- Posting keeps the history. -/
theorem History.post {as : List Label} {st : State} (h : E.History as st) {s : ℕ}
    (he : E.Enabled st (.post s)) : E.History (as ++ [.post s]) (E.next st (.post s)) := by
  obtain ⟨_, ho⟩ := he
  constructor
  · intro a d had
    rw [taken_snoc, taken_post, List.append_nil]
    by_cases ha : a = s
    · subst a
      have hf := h.fifo s d had
      by_cases hd : d = E.owner (st.pos s)
      · subst d
        simp only [next, push, Function.update_self, and_self, ite_true, slots_succ]
        rw [← List.append_assoc, hf]
      · have hd' : E.owner (st.pos s) ≠ d := fun e => hd e.symm
        simpa [next, push, slots_succ, hd, hd'] using hf
    · simpa [next, push, ha] using h.fifo a d had
  · intro d; simpa [taken_snoc] using h.self_taken d
  · intro a d ha; simpa [taken_snoc] using h.outside_taken a d ha
  · intro d
    have hne : ¬(d = s ∧ d = E.owner (st.pos s)) := fun e => ho (e.2 ▸ e.1)
    simpa [next, push, hne] using h.self_chan d
  · exact h.got_lt
  · intro d hd
    have hc := h.collecting d hd
    by_cases hds : d = s
    · subst d; exact absurd hc ho
    · simpa [next, hds] using hc
  · intro d hd
    simp only [taken_snoc, taken_post, List.append_nil]
    rw [h.balance d hd]
    by_cases hds : d = s
    · subst d; simp [next, owned_succ, ho]
    · simp [next, hds]

/-- Taking keeps the history. -/
theorem History.take {as : List Label} {st : State} (h : E.History as st) {d s slot tag : ℕ}
    (he : E.Enabled st (.take d s slot tag)) :
    E.History (as ++ [.take d s slot tag]) (E.next st (.take d s slot tag)) := by
  obtain ⟨hd, hs, ho, hg, _, hc⟩ := he
  obtain ⟨rest, hrest⟩ : ∃ rest, st.chan s d = tag :: rest := List.head?_eq_some_iff.mp hc
  have hsd : s ≠ d := by
    rintro rfl
    rw [h.self_chan s] at hrest
    cases hrest
  constructor
  · intro a b hab
    have hf := h.fifo a b hab
    rw [taken_snoc, taken_take]
    by_cases hm : a = s ∧ b = d
    · obtain ⟨rfl, rfl⟩ := hm
      simpa [next, pop, hrest] using hf
    · have hm' : ¬(s = a ∧ d = b) := fun e => hm ⟨e.1.symm, e.2.symm⟩
      simpa [next, pop, hm, hm'] using hf
  · intro b
    have hm : ¬(s = b ∧ d = b) := fun e => hsd (e.1.trans e.2.symm)
    simpa [taken_snoc, hm] using h.self_taken b
  · intro a b ha
    have hm : ¬(s = a ∧ d = b) := fun e => absurd hs (by omega)
    simpa [taken_snoc, hm] using h.outside_taken a b ha
  · intro b
    have hm : ¬(b = s ∧ b = d) := fun e => hsd (e.1.symm.trans e.2)
    simpa [next, pop, hm] using h.self_chan b
  · intro b hb
    by_cases hbd : b = d
    · subst b; simpa [next] using hg
    · simpa [next, hbd] using h.got_lt b hb
  · intro b hb
    by_cases hbd : b = d
    · subst b; exact ho
    · exact h.collecting b (by simpa [next, hbd] using hb)
  · intro b hb
    have hsum := h.balance b hb
    have hone : ∀ a, (taken (as ++ [.take d s slot tag]) a b).length =
        (taken as a b).length + if a = s then (if b = d then 1 else 0) else 0 := by
      intro a
      rw [taken_snoc, taken_take, List.length_append]
      by_cases ha : a = s <;> by_cases hbd : b = d <;> simp [ha, hbd, Ne.symm]
    simp only [hone, Finset.sum_add_distrib, Finset.sum_ite_eq', Finset.mem_range, hs, ite_true,
      hsum]
    by_cases hbd : b = d
    · subst b; simp [next, Nat.add_assoc]
    · simp [next, hbd]

/-- Passing keeps the history. -/
theorem History.pass {as : List Label} {st : State} (h : E.History as st) {d : ℕ}
    (he : E.Enabled st (.pass d)) : E.History (as ++ [.pass d]) (E.next st (.pass d)) := by
  obtain ⟨hd, ho, hg⟩ := he
  constructor
  · intro a b hab
    rw [taken_snoc, taken_pass, List.append_nil]
    by_cases had : a = d
    · subst a
      have hb : E.owner (st.pos d) ≠ b := by rw [ho]; exact hab
      simpa [next, slots_succ, hb] using h.fifo d b hab
    · simpa [next, had] using h.fifo a b hab
  · intro b; simpa [taken_snoc] using h.self_taken b
  · intro a b ha; simpa [taken_snoc] using h.outside_taken a b ha
  · exact h.self_chan
  · intro b hb
    by_cases hbd : b = d
    · subst b; simpa [next] using lt_of_le_of_lt (Nat.zero_le _) hd
    · simpa [next, hbd] using h.got_lt b hb
  · intro b hb
    by_cases hbd : b = d
    · subst b; simp [next] at hb
    · simpa [next, hbd] using h.collecting b (by simpa [next, hbd] using hb)
  · intro b hb
    simp only [taken_snoc, taken_pass, List.append_nil]
    rw [h.balance b hb]
    by_cases hbd : b = d
    · subst b
      have hp : st.got d = E.parties - 1 := by omega
      simp only [next, Function.update_self, owned_succ, ho, ite_true, hp]
      ring
    · simp [next, hbd]

/-- Every run keeps the history invariant. -/
theorem history_of_run {as : List Label} {st : State} (h : E.system.Run start as st) :
    E.History as st := by
  apply h.invariant E.History E.history_start
  rintro as st a _ _ hi ⟨he, rfl⟩
  cases a with
  | post => exact hi.post he
  | take => exact hi.take he
  | pass => exact hi.pass he

/-- Tokens taken never exceed the tokens posted. -/
theorem History.taken_le {as : List Label} {st : State} (h : E.History as st) {s d : ℕ}
    (hsd : s ≠ d) : (taken as s d).length ≤ E.owned d (st.pos s) := by
  have hf := congrArg List.length (h.fifo s d hsd)
  rw [List.length_append] at hf
  unfold owned
  omega

/-- The tokens taken by one party come from the others. -/
theorem History.balance_erase {as : List Label} {st : State} (h : E.History as st) {d : ℕ}
    (hd : d < E.parties) :
    ∑ s ∈ (Finset.range E.parties).erase d, (taken as s d).length =
      (E.parties - 1) * E.owned d (st.pos d) + st.got d := by
  rw [← h.balance d hd]
  exact Finset.sum_erase _ (by rw [h.self_taken d, List.length_nil])

/-- The number of the other parties. -/
theorem card_erase {d : ℕ} (hd : d < E.parties) :
    ((Finset.range E.parties).erase d).card = E.parties - 1 := by
  rw [Finset.card_erase_of_mem (Finset.mem_range.mpr hd), Finset.card_range]

/-- If every other party is beyond the slot that an owner is collecting at, and
tokens are still missing there, one of them is in flight. -/
theorem History.exists_token {as : List Label} {st : State} (h : E.History as st) {d : ℕ}
    (hd : d < E.parties) (ho : E.owner (st.pos d) = d) (hg : st.got d + 1 < E.parties)
    (hahead : ∀ s, s < E.parties → s ≠ d → st.pos d < st.pos s) :
    ∃ s tag, s < E.parties ∧ (st.chan s d).head? = some tag := by
  by_contra hnone
  push Not at hnone
  have hbound : ∀ s ∈ (Finset.range E.parties).erase d,
      E.owned d (st.pos d) + 1 ≤ (taken as s d).length := by
    intro s hs
    obtain ⟨hsd, hsp⟩ := Finset.mem_erase.mp hs
    have hsp := Finset.mem_range.mp hsp
    have hempty : st.chan s d = [] := by
      rcases hc : st.chan s d with _ | ⟨tag, rest⟩
      · rfl
      · exact absurd (by rw [hc]; rfl) (hnone s tag hsp)
    have hf := h.fifo s d hsd
    rw [hempty, List.append_nil] at hf
    have hm := E.owned_mono d (show st.pos d + 1 ≤ st.pos s from hahead s hsp hsd)
    rw [owned_succ, if_pos ho] at hm
    rw [hf]
    exact hm
  have hsum := Finset.card_nsmul_le_sum _ _ _ hbound
  rw [h.balance_erase hd, card_erase hd, smul_eq_mul, Nat.mul_add, Nat.mul_one] at hsum
  omega

/-- Deadlock freedom, in a form that names who can move: a party that is furthest
behind always has an enabled move. -/
theorem History.exists_enabled {as : List Label} {st : State} (h : E.History as st) :
    ∃ l, E.Enabled st l ∧ ∀ q, q < E.parties → st.pos l.party ≤ st.pos q := by
  have hne : (Finset.range E.parties).Nonempty :=
    ⟨E.owner 0, Finset.mem_range.mpr (E.owner_lt 0)⟩
  obtain ⟨r, hr, hmin⟩ := Finset.exists_min_image _ st.pos hne
  have hr := Finset.mem_range.mp hr
  have hmin : ∀ q, q < E.parties → st.pos r ≤ st.pos q :=
    fun q hq => hmin q (Finset.mem_range.mpr hq)
  by_cases ho : E.owner (st.pos r) = r
  · by_cases hg : st.got r + 1 = E.parties
    · exact ⟨.pass r, ⟨hr, ho, hg⟩, hmin⟩
    · have hg' : st.got r + 1 < E.parties := by have := h.got_lt r hr; omega
      by_cases hq : ∃ q, q < E.parties ∧ q ≠ r ∧ st.pos q = st.pos r
      · obtain ⟨q, hqp, hqr, hpos⟩ := hq
        have hoq : E.owner (st.pos q) ≠ q := by rw [hpos, ho]; exact Ne.symm hqr
        refine ⟨.post q, ⟨hqp, hoq⟩, ?_⟩
        simpa only [Label.party, hpos] using hmin
      · push Not at hq
        obtain ⟨s, tag, hs, hc⟩ := h.exists_token hr ho hg' fun s hs hsr =>
          lt_of_le_of_ne (hmin s hs) (Ne.symm (hq s hs hsr))
        exact ⟨.take r s (st.pos r) tag, ⟨hr, hs, ho, hg', rfl, hc⟩, hmin⟩
  · exact ⟨.post r, ⟨hr, ho⟩, hmin⟩

/-- When all parties stand at the same slot, nothing is in flight and nobody has
started to collect. -/
theorem History.drained {as : List Label} {st : State} (h : E.History as st) {t : ℕ}
    (hpos : ∀ r, r < E.parties → st.pos r = t) {s d : ℕ} (hs : s < E.parties)
    (hd : d < E.parties) : st.chan s d = [] ∧ st.got d = 0 := by
  have hle : ∀ q ∈ (Finset.range E.parties).erase d, (taken as q d).length ≤ E.owned d t := by
    intro q hq
    obtain ⟨hqd, hqp⟩ := Finset.mem_erase.mp hq
    simpa only [hpos q (Finset.mem_range.mp hqp)] using h.taken_le hqd
  have hsum := h.balance_erase hd
  have hcap := Finset.sum_le_card_nsmul _ _ _ hle
  rw [card_erase hd, smul_eq_mul] at hcap
  rw [hpos d hd] at hsum
  refine ⟨?_, by omega⟩
  by_cases hsd : s = d
  · subst s; exact h.self_chan d
  · have heq : ∀ q ∈ (Finset.range E.parties).erase d, (taken as q d).length = E.owned d t := by
      apply (Finset.sum_eq_sum_iff_of_le hle).mp
      rw [Finset.sum_const, card_erase hd, smul_eq_mul]
      omega
    have hlen := heq s (Finset.mem_erase.mpr ⟨hsd, Finset.mem_range.mpr hs⟩)
    have hf := congrArg List.length (h.fifo s d hsd)
    rw [List.length_append, hpos s hs, hlen] at hf
    exact List.length_eq_zero_iff.mp (by unfold owned at hf; omega)

end Exchange

end NoiseLevel.Core

import Mathlib.Tactic

/-!
# Replicated logs with elected writers

An abstract protocol over arbitrary nodes and entries.  Every node has a term
and a full log; every term has at most one leader, whose log is kept for ever as
`llog`.  A node votes for a position, the leader of a term extends its own log,
and the other nodes adopt prefixes of it and acknowledge them.

The main result is `Inv.complete`: once a quorum acknowledged an entry of the
term it was written in, every later leader starts out with it.  From it,
committed prefixes are prefixes of each other (`Inv.committed_total`).
-/

namespace LogReplicator
namespace Library
namespace Consensus

variable {V E : Type}

/-- Terms, logs, and the history of votes, elections and acknowledgements. -/
structure State (V E : Type) where
  term : V → ℕ
  log : V → List E
  /-- The log the leader of a term was elected with. -/
  base : ℕ → Option (List E)
  /-- The log the leader of a term has built. -/
  llog : ℕ → List E
  /-- The node acknowledged that many entries of the leader log of a term. -/
  acks : V → ℕ → ℕ → Prop
  /-- The node voted in a term for a log with this last term and length. -/
  ballots : V → ℕ → ℕ × ℕ → Prop

def init : State V E where
  term := fun _ => 0
  log := fun _ => []
  base := fun _ => none
  llog := fun _ => []
  acks := fun _ _ _ => False
  ballots := fun _ _ _ => False

/-- Last term and length of a log. -/
def position (τ : E → ℕ) (l : List E) : ℕ × ℕ :=
  ((l.getLast?.map τ).getD 0, l.length)

/-- The first position is at least as complete as the second. -/
def UpToDate (p q : ℕ × ℕ) : Prop :=
  q.1 < p.1 ∨ (p.1 = q.1 ∧ q.2 ≤ p.2)

/-- The term of the entry at a position counted from 1; position 0 has term 0. -/
def termAt (τ : E → ℕ) (l : List E) (i : ℕ) : ℕ :=
  (position τ (l.take i)).1

section Positions

variable {τ : E → ℕ} {l l' : List E} {i : ℕ}

theorem position_append_singleton
    (p : List E) (e : E) :
    position τ (p ++ [e]) = (τ e, p.length + 1) := by
  simp [position]

@[simp] theorem termAt_zero
    (l : List E) :
    termAt τ l 0 = 0 := by
  simp [termAt, position]

theorem termAt_succ
    {e : E} (he : l[i]? = some e) :
    termAt τ l (i + 1) = τ e := by
  obtain ⟨hi, rfl⟩ := List.getElem?_eq_some_iff.mp he
  rw [termAt, ← List.take_concat_get' l i hi, position_append_singleton]

theorem position_eq
    (l : List E) :
    position τ l = (termAt τ l l.length, l.length) := by
  simp [termAt, position]

/-- A prefix has the terms of the whole. -/
theorem termAt_mono
    (h : l <+: l')
    (hi : i ≤ l.length) :
    termAt τ l i = termAt τ l' i := by
  obtain ⟨r, rfl⟩ := h
  rw [termAt, termAt, List.take_append_of_le_length hi]

/-- The entry at a position past 0. -/
theorem exists_last_take
    (hpos : 0 < i)
    (hi : i ≤ l.length) :
    ∃ p e, l.take i = p ++ [e] ∧ l[i - 1]? = some e ∧ τ e = termAt τ l i := by
  obtain ⟨j, rfl⟩ : ∃ j, i = j + 1 := ⟨i - 1, by omega⟩
  have he : l[j]? = some l[j] := List.getElem?_eq_getElem (by omega)
  exact ⟨l.take j, l[j], (List.take_concat_get' l j (by omega)).symm, he,
    (termAt_succ he).symm⟩

end Positions

section Protocol

variable [DecidableEq V]
variable (τ : E → ℕ)
variable (quorum : Finset V → Prop)

/-- One step, taken by the node in the first argument. -/
inductive Step (v : V) (s : State V E) : State V E → Prop
  | raise
      {t : ℕ}
      (hterm : s.term v ≤ t) :
      Step v s { s with term := Function.update s.term v t }
  | ballot
      {p : ℕ × ℕ}
      (hopen : s.base (s.term v) = none)
      (hp : UpToDate p (position τ (s.log v))) :
      Step v s
        { s with
          ballots := fun u t q =>
            s.ballots u t q ∨ (u = v ∧ t = s.term v ∧ q = p) }
  | elect
      {Q : Finset V}
      (hopen : s.base (s.term v) = none)
      (hquorum : quorum Q)
      (hballots : ∀ u ∈ Q, s.ballots u (s.term v) (position τ (s.log v))) :
      Step v s
        { s with
          base := Function.update s.base (s.term v) (some (s.log v))
          llog := Function.update s.llog (s.term v) (s.log v) }
  | propose
      {e : E}
      (hled : s.base (s.term v) ≠ none)
      (hlog : s.log v = s.llog (s.term v))
      (he : τ e = s.term v) :
      Step v s
        { s with
          log := Function.update s.log v (s.log v ++ [e])
          llog := Function.update s.llog (s.term v) (s.log v ++ [e])
          acks := fun u t m =>
            s.acks u t m ∨
              (u = v ∧ t = s.term v ∧ m = (s.log v).length + 1) }
  | adopt
      {j : ℕ}
      (hled : s.base (s.term v) ≠ none)
      (hkeep : ∀ l, l <+: s.log v → l <+: s.llog (s.term v) → l.length ≤ j) :
      Step v s
        { s with
          log := Function.update s.log v ((s.llog (s.term v)).take j) }
  | ack
      {m : ℕ}
      (hled : s.base (s.term v) ≠ none)
      (hm : m ≤ (s.llog (s.term v)).length)
      (hheld : (s.llog (s.term v)).take m <+: s.log v) :
      Step v s
        { s with
          acks := fun u t k =>
            s.acks u t k ∨ (u = v ∧ t = s.term v ∧ k = m) }

/-- Steps of one node. -/
def Steps (v : V) : State V E → State V E → Prop :=
  Relation.ReflTransGen (Step τ quorum v)

end Protocol

section History

variable (τ : E → ℕ)
variable (quorum : Finset V → Prop)

/-- Every entry stands behind what its term's leader had in front of it. -/
def Matches (s : State V E) (l : List E) : Prop :=
  ∀ p e, p ++ [e] <+: l → p ++ [e] <+: s.llog (τ e)

/-- The node voted for a position, unless its vote came too late to count. -/
def Voted (s : State V E) (v : V) (t : ℕ) (p : ℕ × ℕ) : Prop :=
  s.base t = none → s.ballots v t p

/-- A leader after `t` and up to `t'` that was elected without `l`. -/
def Lost (s : State V E) (t t' : ℕ) (l : List E) : Prop :=
  ∃ u b, t < u ∧ u ≤ t' ∧ s.base u = some b ∧ ¬ l <+: b

/-- `l` is a prefix of the leader log of `t` that ends with an entry of `t`. -/
def Own (s : State V E) (t : ℕ) (l : List E) : Prop :=
  l <+: s.llog t ∧ ∃ p e, l = p ++ [e] ∧ τ e = t

/-- What holds in every reachable state. -/
structure Inv (s : State V E) : Prop where
  log_elected : ∀ v, ∀ e ∈ s.log v, s.base (τ e) ≠ none
  log_term : ∀ v, ∀ e ∈ s.log v, τ e ≤ s.term v
  log_matches : ∀ v, Matches τ s (s.log v)
  llog_matches : ∀ t, Matches τ s (s.llog t)
  llog_elected : ∀ t, ∀ e ∈ s.llog t, s.base (τ e) ≠ none
  llog_le : ∀ t, ∀ e ∈ s.llog t, τ e ≤ t
  llog_open : ∀ t, s.base t = none → s.llog t = []
  base_llog : ∀ t b, s.base t = some b → b <+: s.llog t
  base_lt : ∀ t b, s.base t = some b → ∀ e ∈ b, τ e < t
  ack_term : ∀ v t m, s.acks v t m → t ≤ s.term v ∧ m ≤ (s.llog t).length
  ballot_term : ∀ v t p, s.ballots v t p → t ≤ s.term v
  /-- An acknowledged entry is kept, unless a later leader lacks it. -/
  held : ∀ v t m l, s.acks v t m → Own τ s t l → l.length ≤ m →
    l <+: s.log v ∨ Lost s t (s.term v) l
  /-- A vote is never for a log that lacks an acknowledged entry. -/
  cast : ∀ v t t' p m l, s.ballots v t' p → s.acks v t m → t < t' →
    Own τ s t l → l.length ≤ m →
    UpToDate p (t, l.length) ∨ Lost s t (t' - 1) l
  electors : ∀ t b, s.base t = some b →
    ∃ Q, quorum Q ∧ ∀ u ∈ Q, s.ballots u t (position τ b)

/-- A quorum acknowledged `l`, which ends with an entry of term `t`. -/
def Chosen (s : State V E) (t : ℕ) (l : List E) : Prop :=
  Own τ s t l ∧ ∃ Q, quorum Q ∧ ∀ u ∈ Q, ∃ m, l.length ≤ m ∧ s.acks u t m

/-- `l` was committed in a term up to `t`. -/
def CommittedBy (s : State V E) (t : ℕ) (l : List E) : Prop :=
  l = [] ∨ ∃ u ≤ t, ∃ k, Chosen τ quorum s u k ∧ l <+: k

end History

section Completeness

variable {τ : E → ℕ}
variable {quorum : Finset V → Prop}
variable {s : State V E}

/-- A log whose position is after `(t, k)` has a last entry, of term at least
`t`. -/
theorem exists_last_of_upToDate
    {b : List E} {t k : ℕ}
    (hk : 0 < k)
    (h : UpToDate (position τ b) (t, k)) :
    ∃ p e, b = p ++ [e] ∧ (t < τ e ∨ (τ e = t ∧ k ≤ b.length)) := by
  rcases List.eq_nil_or_concat' b with rfl | ⟨p, e, rfl⟩
  · rcases h with h | ⟨-, h⟩
    · simp [position] at h
    · simp [position] at h
      omega
  · refine ⟨p, e, rfl, ?_⟩
    rw [position_append_singleton] at h
    rcases h with h | ⟨h, hlen⟩
    · exact Or.inl h
    · exact Or.inr ⟨h, by simpa using hlen⟩

/-- An entry of a log stands at the same place of its leader log. -/
theorem Matches.entry
    {l : List E} {i : ℕ} {e : E}
    (h : Matches τ s l)
    (he : l[i]? = some e) :
    (s.llog (τ e))[i]? = some e := by
  obtain ⟨hi, rfl⟩ := List.getElem?_eq_some_iff.mp he
  obtain ⟨r, hr⟩ := h (l.take i) l[i] (by
    rw [List.take_concat_get' l i hi]
    exact List.take_prefix _ _)
  have hlen : (l.take i).length = i := by
    rw [List.length_take]
    omega
  rw [← hr, List.append_assoc, List.getElem?_append_right hlen.le, hlen]
  simp

/-- Logs with the same term at a position agree up to it. -/
theorem Matches.take_eq
    {l l' : List E} {i : ℕ}
    (h : Matches τ s l)
    (h' : Matches τ s l')
    (hi : i ≤ l.length)
    (hi' : i ≤ l'.length)
    (hterm : termAt τ l i = termAt τ l' i) :
    l.take i = l'.take i := by
  rcases Nat.eq_zero_or_pos i with rfl | hpos
  · simp
  obtain ⟨p, e, hp, -, he⟩ := exists_last_take (τ := τ) hpos hi
  obtain ⟨p', e', hp', -, he'⟩ := exists_last_take (τ := τ) hpos hi'
  have hl : l.take i <+: s.llog (τ e) := hp ▸ h p e (hp ▸ List.take_prefix _ _)
  have hl' : l'.take i <+: s.llog (τ e') := hp' ▸ h' p' e' (hp' ▸ List.take_prefix _ _)
  rw [he, hterm, ← he'] at hl
  refine (List.prefix_of_prefix_length_le hl hl' ?_).eq_of_length ?_
  all_goals simp [hi, hi']

theorem Own.length_pos
    {t : ℕ} {l : List E}
    (h : Own τ s t l) :
    0 < l.length := by
  obtain ⟨-, p, e, rfl, -⟩ := h
  simp

/-- Once an entry is chosen, every later leader is elected with it. -/
theorem Inv.complete
    (hI : Inv τ quorum s)
    (hinter : ∀ A B, quorum A → quorum B → ∃ v ∈ A, v ∈ B)
    {t : ℕ} {l : List E}
    (hl : Chosen τ quorum s t l)
    (u : ℕ) :
    ∀ b, t < u → s.base u = some b → l <+: b := by
  obtain ⟨hown, Q, hQ, hacks⟩ := hl
  induction u using Nat.strong_induction_on with
  | _ u ih =>
      intro b htu hb
      obtain ⟨R, hR, hballots⟩ := hI.electors u b hb
      obtain ⟨v, hvQ, hvR⟩ := hinter Q R hQ hR
      obtain ⟨m, hm, hack⟩ := hacks v hvQ
      rcases hI.cast v t u _ m l (hballots v hvR) hack htu hown hm with hpos | hlost
      · obtain ⟨p, e, rfl, hlast⟩ := exists_last_of_upToDate hown.length_pos hpos
        have hmatch : p ++ [e] <+: s.llog (τ e) :=
          hI.llog_matches u p e (hI.base_llog u _ hb)
        rcases hlast with hlt | ⟨heq, hlen⟩
        · -- the last leader before `u` that wrote to `b` had `l` already
          have heu : τ e < u := hI.base_lt u _ hb e (by simp)
          obtain ⟨b', hb'⟩ := Option.ne_none_iff_exists'.mp
            (hI.llog_elected u e ((hI.base_llog u _ hb).subset (by simp)))
          have hlb' : l <+: b' := ih (τ e) heu b' hlt hb'
          rcases List.prefix_or_prefix_of_prefix
            (hlb'.trans (hI.base_llog _ b' hb')) hmatch with h | h
          · exact h
          · have := hI.base_lt (τ e) b' hb' e ((h.trans hlb').subset (by simp))
            omega
        · rw [heq] at hmatch
          exact List.prefix_of_prefix_length_le hown.1 hmatch hlen
      · obtain ⟨w, b', htw, hwu, hb', hnot⟩ := hlost
        exact absurd (ih w (by omega) b' htw hb') hnot

theorem CommittedBy.mono
    {t t' : ℕ} {l l' : List E}
    (h : CommittedBy τ quorum s t l)
    (ht : t ≤ t')
    (hl : l' <+: l) :
    CommittedBy τ quorum s t' l' := by
  rcases h with rfl | ⟨u, hu, k, hk, hlk⟩
  · exact Or.inl (List.prefix_nil.mp hl)
  · exact Or.inr ⟨u, hu.trans ht, k, hk, hl.trans hlk⟩

/-- A leader has everything that was committed up to its own term. -/
theorem Inv.committed_llog
    (hI : Inv τ quorum s)
    (hinter : ∀ A B, quorum A → quorum B → ∃ v ∈ A, v ∈ B)
    {t : ℕ} {l : List E}
    (h : CommittedBy τ quorum s t l)
    (ht : s.base t ≠ none) :
    l <+: s.llog t := by
  rcases h with rfl | ⟨u, hu, k, hk, hlk⟩
  · exact List.nil_prefix
  obtain ⟨b, hb⟩ := Option.ne_none_iff_exists'.mp ht
  rcases hu.eq_or_lt with rfl | hlt
  · exact hlk.trans hk.1.1
  · exact hlk.trans ((hI.complete hinter hk t b hlt hb).trans (hI.base_llog t b hb))

/-- A quorum keeps what was committed. -/
theorem Inv.committed_logs
    (hI : Inv τ quorum s)
    (hinter : ∀ A B, quorum A → quorum B → ∃ v ∈ A, v ∈ B)
    {t : ℕ} {l : List E}
    (h : CommittedBy τ quorum s t l)
    (hne : l ≠ []) :
    ∃ Q, quorum Q ∧ ∀ v ∈ Q, l <+: s.log v := by
  rcases h with rfl | ⟨u, -, k, hk, hlk⟩
  · exact absurd rfl hne
  obtain ⟨hown, Q, hQ, hacks⟩ := id hk
  refine ⟨Q, hQ, fun v hv => ?_⟩
  obtain ⟨m, hm, hack⟩ := hacks v hv
  rcases hI.held v u m k hack hown hm with hheld | ⟨w, b, huw, -, hb, hnot⟩
  · exact hlk.trans hheld
  · exact absurd (hI.complete hinter hk w b huw hb) hnot

/-- Committed prefixes are prefixes of each other. -/
theorem Inv.committed_total
    (hI : Inv τ quorum s)
    (hinter : ∀ A B, quorum A → quorum B → ∃ v ∈ A, v ∈ B)
    {t t' : ℕ} {l l' : List E}
    (h : CommittedBy τ quorum s t l)
    (h' : CommittedBy τ quorum s t' l') :
    l <+: l' ∨ l' <+: l := by
  rcases h with rfl | ⟨u, -, k, hk, hlk⟩
  · exact Or.inl List.nil_prefix
  rcases h' with rfl | ⟨u', -, k', hk', hlk'⟩
  · exact Or.inr List.nil_prefix
  have helected : ∀ {w : ℕ} {q : List E}, Chosen τ quorum s w q → s.base w ≠ none := by
    rintro w q ⟨⟨hq, p, e, rfl, he⟩, -⟩
    have := hI.llog_elected w e (hq.subset (by simp))
    rwa [he] at this
  rcases le_total u u' with hu | hu
  · have := hI.committed_llog hinter (Or.inr ⟨u, hu, k, hk, hlk⟩) (helected hk')
    exact List.prefix_or_prefix_of_prefix this (hlk'.trans hk'.1.1)
  · have := hI.committed_llog hinter (Or.inr ⟨u', hu, k', hk', hlk'⟩) (helected hk)
    exact List.prefix_or_prefix_of_prefix (hlk.trans hk.1.1) this

/-- What two logs have committed is the same as far as both go. -/
theorem Inv.take_eq_of_committed
    (hI : Inv τ quorum s)
    (hinter : ∀ A B, quorum A → quorum B → ∃ v ∈ A, v ∈ B)
    {t t' i j k : ℕ} {l l' : List E}
    (h : CommittedBy τ quorum s t (l.take i))
    (h' : CommittedBy τ quorum s t' (l'.take j))
    (hi : k ≤ i) (hj : k ≤ j)
    (hl : k ≤ l.length) (hl' : k ≤ l'.length) :
    l.take k = l'.take k := by
  have hprefix : l.take k <+: l'.take k ∨ l'.take k <+: l.take k :=
    hI.committed_total hinter (h.mono le_rfl (List.take_prefix_take_left hi))
      (h'.mono le_rfl (List.take_prefix_take_left hj))
  have hlength : (l.take k).length = (l'.take k).length := by
    rw [List.length_take, List.length_take, min_eq_left hl, min_eq_left hl']
  rcases hprefix with hp | hp
  · exact hp.eq_of_length hlength
  · exact (hp.eq_of_length hlength.symm).symm

/-- Finitely many committed prefixes are prefixes of one of them. -/
theorem Inv.exists_committed
    (hI : Inv τ quorum s)
    (hinter : ∀ A B, quorum A → quorum B → ∃ v ∈ A, v ∈ B)
    (ls : List (List E))
    (h : ∀ l ∈ ls, ∃ t, CommittedBy τ quorum s t l) :
    ∃ t m, CommittedBy τ quorum s t m ∧ ∀ l ∈ ls, l <+: m := by
  induction ls with
  | nil =>
      exact ⟨0, [], Or.inl rfl, by simp⟩
  | cons l ls ih =>
      obtain ⟨t, m, hm, hls⟩ := ih fun k hk => h k (List.mem_cons_of_mem _ hk)
      obtain ⟨t', hl⟩ := h l List.mem_cons_self
      rcases hI.committed_total hinter hl hm with hle | hle
      · exact ⟨t, m, hm, List.forall_mem_cons.mpr ⟨hle, hls⟩⟩
      · exact ⟨t', l, hl, List.forall_mem_cons.mpr
          ⟨List.prefix_rfl, fun k hk => (hls k hk).trans hle⟩⟩

end Completeness

section Preservation

variable {τ : E → ℕ}
variable {quorum : Finset V → Prop}
variable {s s' : State V E}

/-- History is only added to. -/
structure Grows (s s' : State V E) : Prop where
  term : ∀ v, s.term v ≤ s'.term v
  base : ∀ t b, s.base t = some b → s'.base t = some b
  llog : ∀ t, s.llog t <+: s'.llog t
  acks : ∀ v t m, s.acks v t m → s'.acks v t m
  ballots : ∀ v t p, s.ballots v t p → s'.ballots v t p

theorem Grows.refl
    (s : State V E) :
    Grows s s where
  term := fun _ => le_rfl
  base := fun _ _ h => h
  llog := fun _ => List.prefix_rfl
  acks := fun _ _ _ h => h
  ballots := fun _ _ _ h => h

theorem Grows.trans
    {s'' : State V E}
    (h : Grows s s') (h' : Grows s' s'') :
    Grows s s'' where
  term := fun v => (h.term v).trans (h'.term v)
  base := fun t b hb => h'.base t b (h.base t b hb)
  llog := fun t => (h.llog t).trans (h'.llog t)
  acks := fun v t m ha => h'.acks v t m (h.acks v t m ha)
  ballots := fun v t p hp => h'.ballots v t p (h.ballots v t p hp)

theorem Grows.elected
    (h : Grows s s')
    {t : ℕ} (ht : s.base t ≠ none) :
    s'.base t ≠ none := by
  obtain ⟨b, hb⟩ := Option.ne_none_iff_exists'.mp ht
  simp [h.base t b hb]

theorem Grows.matches
    (h : Grows s s')
    {l : List E} (hl : Matches τ s l) :
    Matches τ s' l :=
  fun p e hp => (hl p e hp).trans (h.llog (τ e))

theorem Grows.voted
    (h : Grows s s')
    {v : V} {t : ℕ} {p : ℕ × ℕ} (hv : Voted s v t p) :
    Voted s' v t p := by
  intro hopen
  refine h.ballots v t p (hv ?_)
  cases hb : s.base t with
  | none => rfl
  | some b => simp [h.base t b hb] at hopen

theorem Grows.lost
    (h : Grows s s')
    {t w w' : ℕ} {l : List E}
    (hw : w ≤ w') (hl : Lost s t w l) :
    Lost s' t w' l := by
  obtain ⟨u, b, htu, huw, hb, hnot⟩ := hl
  exact ⟨u, b, htu, huw.trans hw, h.base u b hb, hnot⟩

theorem Grows.own
    (h : Grows s s')
    {t : ℕ} {l : List E} (hl : Own τ s t l) :
    Own τ s' t l :=
  ⟨hl.1.trans (h.llog t), hl.2⟩

/-- A prefix of a leader log that was there before is the same prefix. -/
theorem Grows.own_back
    (h : Grows s s')
    {t : ℕ} {l : List E}
    (hl : Own τ s' t l)
    (hlen : l.length ≤ (s.llog t).length) :
    Own τ s t l :=
  ⟨List.prefix_of_prefix_length_le hl.1 (h.llog t) hlen, hl.2⟩

theorem Grows.chosen
    (h : Grows s s')
    {t : ℕ} {l : List E} (hl : Chosen τ quorum s t l) :
    Chosen τ quorum s' t l := by
  obtain ⟨hown, Q, hQ, hacks⟩ := hl
  refine ⟨h.own hown, Q, hQ, fun u hu => ?_⟩
  obtain ⟨m, hm, hack⟩ := hacks u hu
  exact ⟨m, hm, h.acks u t m hack⟩

theorem Grows.committed
    (h : Grows s s')
    {t t' : ℕ} {l : List E}
    (ht : t ≤ t')
    (hl : CommittedBy τ quorum s t l) :
    CommittedBy τ quorum s' t' l := by
  rcases hl with rfl | ⟨u, hu, k, hk, hlk⟩
  · exact Or.inl rfl
  · exact Or.inr ⟨u, hu.trans ht, k, h.chosen hk, hlk⟩

/-- `held` for acknowledgements that are not new. -/
theorem Inv.held_of_grows
    (hI : Inv τ quorum s)
    (hg : Grows s s')
    {v : V} {t m : ℕ} {l : List E}
    (hack : s.acks v t m)
    (hown : Own τ s' t l)
    (hm : l.length ≤ m)
    (hlog : l <+: s.log v → l <+: s'.log v ∨ Lost s' t (s'.term v) l) :
    l <+: s'.log v ∨ Lost s' t (s'.term v) l := by
  have hlen := (hI.ack_term v t m hack).2
  rcases hI.held v t m l hack (hg.own_back hown (hm.trans hlen)) hm with h | h
  · exact hlog h
  · exact Or.inr (hg.lost (hg.term v) h)

/-- `cast` for votes and acknowledgements that are not new. -/
theorem Inv.cast_of_grows
    (hI : Inv τ quorum s)
    (hg : Grows s s')
    {v : V} {t t' m : ℕ} {p : ℕ × ℕ} {l : List E}
    (hballot : s.ballots v t' p)
    (hack : s.acks v t m)
    (ht : t < t')
    (hown : Own τ s' t l)
    (hm : l.length ≤ m) :
    UpToDate p (t, l.length) ∨ Lost s' t (t' - 1) l := by
  have hlen := (hI.ack_term v t m hack).2
  rcases hI.cast v t t' p m l hballot hack ht
    (hg.own_back hown (hm.trans hlen)) hm with h | h
  · exact Or.inl h
  · exact Or.inr (hg.lost le_rfl h)

/-- A voter that still holds an entry does not vote for a log without it. -/
theorem Inv.upToDate_of_held
    (hI : Inv τ quorum s)
    {v : V} {t : ℕ} {p : ℕ × ℕ} {l : List E}
    (hown : Own τ s t l)
    (hl : l <+: s.log v)
    (hp : UpToDate p (position τ (s.log v))) :
    UpToDate p (t, l.length) := by
  obtain ⟨hllog, q, e, rfl, he⟩ := hown
  have hlen := hl.length_le
  rcases List.eq_nil_or_concat' (s.log v) with hnil | ⟨q', e', hlog⟩
  · simp [hnil] at hl
  · -- the last entry of the log is from `t` or later
    have hle : t ≤ τ e' := by
      have hmatch := hI.log_matches v q' e' (hlog ▸ List.prefix_rfl)
      have := hI.llog_le (τ e') e ((hl.trans (hlog ▸ hmatch)).subset (by simp))
      omega
    rw [hlog, position_append_singleton] at hp
    rw [hlog] at hlen
    simp only [List.length_append, List.length_singleton] at hlen
    unfold UpToDate at hp ⊢
    simp only [List.length_append, List.length_singleton] at hp ⊢
    omega

theorem inv_init :
    Inv τ quorum (init : State V E) := by
  constructor <;> simp [init, Matches]

section Steps

variable [DecidableEq V] {v : V}

theorem Step.grows
    (hI : Inv τ quorum s)
    (h : Step τ quorum v s s') :
    Grows s s' := by
  cases h with
  | @raise t hterm =>
      refine { Grows.refl s with term := fun u => ?_ }
      by_cases hu : u = v
      · subst hu
        simpa using hterm
      · simp [hu]
  | ballot _ _ =>
      exact { Grows.refl s with ballots := fun _ _ _ h => Or.inl h }
  | elect hopen _ _ =>
      refine { Grows.refl s with base := fun t b hb => ?_, llog := fun t => ?_ }
      · have ht : t ≠ s.term v := by
          rintro rfl
          simp [hopen] at hb
        simpa [ht] using hb
      · by_cases ht : t = s.term v
        · subst ht
          simp [hI.llog_open _ hopen]
        · simp [ht]
  | propose hled hlog he =>
      refine
        { Grows.refl s with
          llog := fun t => ?_
          acks := fun _ _ _ h => Or.inl h }
      by_cases ht : t = s.term v
      · subst ht
        simp [hlog]
      · simp [ht]
  | adopt _ _ =>
      exact { Grows.refl s with }
  | ack _ _ _ =>
      exact { Grows.refl s with acks := fun _ _ _ h => Or.inl h }

theorem inv_raise
    (hI : Inv τ quorum s)
    {t : ℕ} (hterm : s.term v ≤ t) :
    Inv τ quorum { s with term := Function.update s.term v t } := by
  have hg := Step.grows hI (.raise hterm : Step τ quorum v s _)
  refine
    { hI with
      log_term := fun u e he => (hI.log_term u e he).trans (hg.term u)
      ack_term := fun u w m ha =>
        ⟨(hI.ack_term u w m ha).1.trans (hg.term u), (hI.ack_term u w m ha).2⟩
      ballot_term := fun u w p hp => (hI.ballot_term u w p hp).trans (hg.term u)
      held := ?_ }
  intro u w m l ha hown hm
  exact hI.held_of_grows hg ha hown hm Or.inl

theorem inv_ballot
    (hI : Inv τ quorum s)
    {p : ℕ × ℕ}
    (hopen : s.base (s.term v) = none)
    (hp : UpToDate p (position τ (s.log v))) :
    Inv τ quorum
      { s with
        ballots := fun u t q =>
          s.ballots u t q ∨ (u = v ∧ t = s.term v ∧ q = p) } := by
  have hg := Step.grows hI (.ballot hopen hp : Step τ quorum v s _)
  refine { hI with ballot_term := ?_, cast := ?_, electors := ?_ }
  · rintro u t q (hq | ⟨rfl, rfl, rfl⟩)
    · exact hI.ballot_term u t q hq
    · exact le_rfl
  · rintro u t t' q m l (hq | ⟨rfl, rfl, rfl⟩) ha ht hown hm
    · exact hI.cast_of_grows hg hq ha ht hown hm
    · rcases hI.held u t m l ha hown hm with hl | ⟨w, b, htw, hw, hb, hnot⟩
      · exact Or.inl (hI.upToDate_of_held hown hl hp)
      · -- the term of the vote has no leader yet
        have hne : w ≠ s.term u := by
          rintro rfl
          simp [hopen] at hb
        exact Or.inr ⟨w, b, htw, by omega, hb, hnot⟩
  · intro t b hb
    obtain ⟨Q, hQ, hballots⟩ := hI.electors t b hb
    exact ⟨Q, hQ, fun u hu => Or.inl (hballots u hu)⟩

theorem inv_elect
    (hI : Inv τ quorum s)
    {Q : Finset V}
    (hopen : s.base (s.term v) = none)
    (hquorum : quorum Q)
    (hballots : ∀ u ∈ Q, s.ballots u (s.term v) (position τ (s.log v))) :
    Inv τ quorum
      { s with
        base := Function.update s.base (s.term v) (some (s.log v))
        llog := Function.update s.llog (s.term v) (s.log v) } := by
  have hg := Step.grows hI (.elect hopen hquorum hballots : Step τ quorum v s _)
  have hlt : ∀ e ∈ s.log v, τ e < s.term v := by
    intro e he
    refine lt_of_le_of_ne (hI.log_term v e he) fun h => ?_
    exact hI.log_elected v e he (h ▸ hopen)
  refine
    { hI with
      log_elected := fun u e he => hg.elected (hI.log_elected u e he)
      log_matches := fun u => hg.matches (hI.log_matches u)
      llog_matches := fun t => ?_
      llog_elected := fun t e he => ?_
      llog_le := fun t e he => ?_
      llog_open := fun t ht => ?_
      base_llog := fun t b hb => ?_
      base_lt := fun t b hb => ?_
      ack_term := fun u t m ha =>
        ⟨(hI.ack_term u t m ha).1, (hI.ack_term u t m ha).2.trans (hg.llog t).length_le⟩
      held := fun u t m l ha hown hm => hI.held_of_grows hg ha hown hm Or.inl
      cast := fun u t t' p m l hp ha ht hown hm =>
        hI.cast_of_grows hg hp ha ht hown hm
      electors := fun t b hb => ?_ }
  all_goals by_cases htv : t = s.term v
  · subst htv
    simpa using hg.matches (hI.log_matches v)
  · simpa [htv] using hg.matches (hI.llog_matches t)
  · subst htv
    exact hg.elected (hI.log_elected v e (by simpa using he))
  · exact hg.elected (hI.llog_elected t e (by simpa [htv] using he))
  · subst htv
    exact (hlt e (by simpa using he)).le
  · exact hI.llog_le t e (by simpa [htv] using he)
  · subst htv
    simp at ht
  · simpa [htv] using hI.llog_open t (by simpa [htv] using ht)
  · subst htv
    simp at hb
    simp [hb]
  · simpa [htv] using hI.base_llog t b (by simpa [htv] using hb)
  · subst htv
    simp at hb
    exact hb ▸ hlt
  · exact hI.base_lt t b (by simpa [htv] using hb)
  · subst htv
    simp at hb
    exact ⟨Q, hquorum, hb ▸ hballots⟩
  · exact hI.electors t b (by simpa [htv] using hb)

theorem inv_propose
    (hI : Inv τ quorum s)
    {e : E}
    (hled : s.base (s.term v) ≠ none)
    (hlog : s.log v = s.llog (s.term v))
    (he : τ e = s.term v) :
    Inv τ quorum
      { s with
        log := Function.update s.log v (s.log v ++ [e])
        llog := Function.update s.llog (s.term v) (s.log v ++ [e])
        acks := fun u t m =>
          s.acks u t m ∨ (u = v ∧ t = s.term v ∧ m = (s.log v).length + 1) } := by
  have hg := Step.grows hI (.propose hled hlog he : Step τ quorum v s _)
  have hnew : ∀ d ∈ s.log v ++ [e], s.base (τ d) ≠ none ∧ τ d ≤ s.term v := by
    intro d hd
    rcases List.mem_append.mp hd with hd | hd
    · exact ⟨hI.log_elected v d hd, hI.log_term v d hd⟩
    · rw [List.mem_singleton.mp hd, he]
      exact ⟨hled, le_rfl⟩
  have hmatch : ∀ p d, p ++ [d] <+: s.log v ++ [e] →
      p ++ [d] <+: Function.update s.llog (s.term v) (s.log v ++ [e]) (τ d) := by
    intro p d hp
    rcases List.prefix_concat_iff.mp hp with h | h
    · obtain ⟨-, hd⟩ := List.append_inj' h rfl
      simp only [List.cons.injEq, and_true] at hd
      subst hd
      simp [he, h]
    · exact (hI.log_matches v p d h).trans (hg.llog (τ d))
  refine
    { hI with
      log_elected := fun u d hd => ?_
      log_term := fun u d hd => ?_
      log_matches := fun u => ?_
      llog_matches := fun t => ?_
      llog_elected := fun t d hd => ?_
      llog_le := fun t d hd => ?_
      llog_open := fun t ht => ?_
      base_llog := fun t b hb => (hI.base_llog t b hb).trans (hg.llog t)
      ack_term := ?_
      held := ?_
      cast := ?_ }
  · by_cases hu : u = v
    · subst hu
      exact (hnew d (by simpa using hd)).1
    · exact hI.log_elected u d (by simpa [hu] using hd)
  · by_cases hu : u = v
    · subst hu
      exact (hnew d (by simpa using hd)).2
    · exact hI.log_term u d (by simpa [hu] using hd)
  · by_cases hu : u = v
    · subst hu
      simpa [Matches] using hmatch
    · simpa [hu] using hg.matches (hI.log_matches u)
  · by_cases ht : t = s.term v
    · subst ht
      simpa [Matches] using hmatch
    · simpa [ht] using hg.matches (hI.llog_matches t)
  · by_cases ht : t = s.term v
    · subst ht
      exact (hnew d (by simpa using hd)).1
    · exact hI.llog_elected t d (by simpa [ht] using hd)
  · by_cases ht : t = s.term v
    · subst ht
      exact (hnew d (by simpa using hd)).2
    · exact hI.llog_le t d (by simpa [ht] using hd)
  · have htv : t ≠ s.term v := by
      rintro rfl
      exact hled ht
    simpa [htv] using hI.llog_open t ht
  · rintro u t m (ha | ⟨rfl, rfl, rfl⟩)
    · exact ⟨(hI.ack_term u t m ha).1,
        (hI.ack_term u t m ha).2.trans (hg.llog t).length_le⟩
    · simp
  · rintro u t m l (ha | ⟨rfl, rfl, rfl⟩) hown hm
    · refine hI.held_of_grows hg ha hown hm fun hl => Or.inl ?_
      by_cases hu : u = v
      · subst hu
        simpa using hl.trans (List.prefix_append _ _)
      · simpa [hu] using hl
    · exact Or.inl (by simpa using hown.1)
  · rintro u t t' p m l hp (ha | ⟨rfl, rfl, rfl⟩) ht hown hm
    · exact hI.cast_of_grows hg hp ha ht hown hm
    · have := hI.ballot_term u t' p hp
      omega

theorem inv_adopt
    (hI : Inv τ quorum s)
    {j : ℕ}
    (hled : s.base (s.term v) ≠ none)
    (hkeep : ∀ l, l <+: s.log v → l <+: s.llog (s.term v) → l.length ≤ j) :
    Inv τ quorum
      { s with log := Function.update s.log v ((s.llog (s.term v)).take j) } := by
  have hg := Step.grows hI (.adopt hled hkeep : Step τ quorum v s _)
  have hpre : (s.llog (s.term v)).take j <+: s.llog (s.term v) := List.take_prefix _ _
  refine
    { hI with
      log_elected := fun u e he => ?_
      log_term := fun u e he => ?_
      log_matches := fun u => ?_
      held := fun u t m l ha hown hm => ?_ }
  · by_cases hu : u = v
    · subst hu
      exact hI.llog_elected _ e (hpre.subset (by simpa using he))
    · exact hI.log_elected u e (by simpa [hu] using he)
  · by_cases hu : u = v
    · subst hu
      exact hI.llog_le _ e (hpre.subset (by simpa using he))
    · exact hI.log_term u e (by simpa [hu] using he)
  · by_cases hu : u = v
    · subst hu
      intro p e hp
      exact hI.llog_matches _ p e ((by simpa using hp : p ++ [e] <+: _).trans hpre)
    · intro p e hp
      exact hI.log_matches u p e (by simpa [hu] using hp)
  · refine hI.held_of_grows hg ha hown hm fun hl => ?_
    by_cases hu : u = v
    · subst hu
      -- the leader has `l`, so it is kept, or the leader is the one that lost it
      by_cases hllog : l <+: s.llog (s.term u)
      · refine Or.inl ?_
        have := List.prefix_take_iff.mpr ⟨hllog, hkeep l hl hllog⟩
        simpa using this
      · refine Or.inr ?_
        obtain ⟨b, hb⟩ := Option.ne_none_iff_exists'.mp hled
        have hne : t ≠ s.term u := by
          rintro rfl
          exact hllog hown.1
        exact ⟨s.term u, b, lt_of_le_of_ne (hI.ack_term u t m ha).1 hne, le_rfl, hb,
          fun h => hllog (h.trans (hI.base_llog _ b hb))⟩
    · exact Or.inl (by simpa [hu] using hl)

theorem inv_ack
    (hI : Inv τ quorum s)
    {m : ℕ}
    (hled : s.base (s.term v) ≠ none)
    (hm : m ≤ (s.llog (s.term v)).length)
    (hheld : (s.llog (s.term v)).take m <+: s.log v) :
    Inv τ quorum
      { s with
        acks := fun u t k => s.acks u t k ∨ (u = v ∧ t = s.term v ∧ k = m) } := by
  have hg := Step.grows hI (.ack hled hm hheld : Step τ quorum v s _)
  refine { hI with ack_term := ?_, held := ?_, cast := ?_ }
  · rintro u t k (ha | ⟨rfl, rfl, rfl⟩)
    · exact hI.ack_term u t k ha
    · exact ⟨le_rfl, hm⟩
  · rintro u t k l (ha | ⟨rfl, rfl, rfl⟩) hown hk
    · exact hI.held_of_grows hg ha hown hk Or.inl
    · exact Or.inl ((List.prefix_take_iff.mpr ⟨hown.1, hk⟩).trans hheld)
  · rintro u t t' p k l hp (ha | ⟨rfl, rfl, rfl⟩) ht hown hk
    · exact hI.cast_of_grows hg hp ha ht hown hk
    · have := hI.ballot_term u t' p hp
      omega

theorem Step.inv
    (hI : Inv τ quorum s)
    (h : Step τ quorum v s s') :
    Inv τ quorum s' := by
  cases h with
  | raise hterm =>
      exact inv_raise hI hterm
  | ballot hopen hp =>
      exact inv_ballot hI hopen hp
  | elect hopen hquorum hballots =>
      exact inv_elect hI hopen hquorum hballots
  | propose hled hlog he =>
      exact inv_propose hI hled hlog he
  | adopt hled hkeep =>
      exact inv_adopt hI hled hkeep
  | ack hled hm hheld =>
      exact inv_ack hI hled hm hheld

/-- A step changes the term and the log of the node that takes it only. -/
theorem Step.frame
    (h : Step τ quorum v s s')
    {u : V} (hu : u ≠ v) :
    s'.term u = s.term u ∧ s'.log u = s.log u := by
  cases h <;> simp [hu]

theorem Steps.inv
    (hI : Inv τ quorum s)
    (h : Steps τ quorum v s s') :
    Inv τ quorum s' := by
  induction h with
  | refl =>
      exact hI
  | tail _ hstep ih =>
      exact hstep.inv ih

theorem Steps.grows
    (hI : Inv τ quorum s)
    (h : Steps τ quorum v s s') :
    Grows s s' := by
  induction h with
  | refl =>
      exact Grows.refl s
  | tail hsteps hstep ih =>
      exact ih.trans (hstep.grows (Steps.inv hI hsteps))

theorem Steps.frame
    (h : Steps τ quorum v s s')
    {u : V} (hu : u ≠ v) :
    s'.term u = s.term u ∧ s'.log u = s.log u := by
  induction h with
  | refl =>
      exact ⟨rfl, rfl⟩
  | tail _ hstep ih =>
      exact ⟨(hstep.frame hu).1.trans ih.1, (hstep.frame hu).2.trans ih.2⟩

/-- A node votes, unless its term has a leader already. -/
theorem exists_voted
    {p : ℕ × ℕ}
    (hp : UpToDate p (position τ (s.log v))) :
    ∃ s', Steps τ quorum v s s' ∧ Voted s' v (s.term v) p ∧ s'.term = s.term ∧
      s'.log = s.log ∧ s'.base = s.base ∧ s'.llog = s.llog := by
  by_cases hopen : s.base (s.term v) = none
  · exact ⟨_, Relation.ReflTransGen.single (.ballot hopen hp), fun _ => Or.inr ⟨rfl, rfl, rfl⟩,
      rfl, rfl, rfl, rfl⟩
  · exact ⟨s, Relation.ReflTransGen.refl, fun h => absurd h hopen, rfl, rfl, rfl, rfl⟩

/-- A node with the votes of a quorum leads its term with its own log, which it
acknowledges at once. -/
theorem exists_elected
    {Q : Finset V}
    (hopen : s.base (s.term v) = none)
    (hquorum : quorum Q)
    (hballots : ∀ u ∈ Q, s.ballots u (s.term v) (position τ (s.log v))) :
    ∃ s', Steps τ quorum v s s' ∧ s'.acks v (s.term v) (s.log v).length ∧
      s'.term = s.term ∧ s'.log = s.log ∧
      s'.base = Function.update s.base (s.term v) (some (s.log v)) ∧
      s'.llog = Function.update s.llog (s.term v) (s.log v) := by
  have helect := Step.elect hopen hquorum hballots
  refine ⟨_, (Relation.ReflTransGen.single helect).tail (Step.ack ?_ ?_ ?_),
    Or.inr ⟨rfl, rfl, rfl⟩, rfl, rfl, rfl, rfl⟩
  all_goals simp

/-- The leader of a term writes an entry. -/
theorem exists_proposed
    {e : E}
    (hled : s.base (s.term v) ≠ none)
    (hlog : s.log v = s.llog (s.term v))
    (he : τ e = s.term v) :
    ∃ s', Step τ quorum v s s' ∧ s'.acks v (s.term v) ((s.log v).length + 1) ∧
      s'.term = s.term ∧ s'.log v = s.log v ++ [e] ∧ s'.base = s.base ∧
      s'.llog = Function.update s.llog (s.term v) (s.log v ++ [e]) :=
  ⟨_, Step.propose hled hlog he, Or.inr ⟨rfl, rfl, rfl⟩, rfl, Function.update_self _ _ _, rfl,
    rfl⟩

end Steps

end Preservation

end Consensus
end Library
end LogReplicator

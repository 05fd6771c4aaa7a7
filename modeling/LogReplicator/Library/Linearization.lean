import Mathlib.Tactic

/-!
# Linearizable histories

A history is a set of calls to an object: what they asked for, what they were
answered, and which of them had returned before another was invoked.  It is
linearizable if the calls that were answered, with some of those that were not, can
be put into one order that respects real time and in which every answer is right.

`Views.linearizes` is the rule for objects whose updates go through a log and whose
queries look at a prefix of it: the queries are woven into the log behind the last
update they saw.
-/

namespace LogReplicator
namespace Library
namespace Linearization

variable {ι S Q A : Type}

/-- What a request does to the state of an object, and which answers to it are right. -/
structure Object (S Q A : Type) where
  init : S
  next : S → Q → S
  Right : S → Q → A → Prop

/-- The calls of a run. -/
structure History (ι Q A : Type) where
  request : ι → Q
  Answered : ι → A → Prop
  /-- The first call was answered before the second was invoked. -/
  Before : ι → ι → Prop

/-- Every answer is right when the calls are made one after the other. -/
def Legal (obj : Object S Q A) (h : History ι Q A) : S → List ι → Prop
  | _, [] => True
  | s, i :: l =>
      (∀ a, h.Answered i a → obj.Right s (h.request i) a) ∧
        Legal obj h (obj.next s (h.request i)) l

/-- The calls in an order that explains their answers. -/
structure Linearizes (obj : Object S Q A) (h : History ι Q A) (l : List ι) : Prop where
  nodup : l.Nodup
  complete : ∀ i a, h.Answered i a → i ∈ l
  realTime : l.Pairwise fun i j => ¬ h.Before j i
  legal : Legal obj h obj.init l

section Weave

variable (queries : List ι) (view : ι → ℕ)

/-- The updates from number `k` on, each query behind the last update it saw. -/
def weave : ℕ → List ι → List ι
  | k, [] => queries.filter fun q => decide (view q = k)
  | k, u :: log => queries.filter (fun q => decide (view q = k)) ++ u :: weave (k + 1) log

variable {queries view}

theorem mem_weave
    {i : ι} {k : ℕ} {log : List ι} :
    i ∈ weave queries view k log ↔
      i ∈ log ∨ i ∈ queries ∧ k ≤ view i ∧ view i ≤ k + log.length := by
  induction log generalizing k with
  | nil =>
      simp only [weave, List.mem_filter, decide_eq_true_eq, List.not_mem_nil, false_or,
        List.length_nil]
      constructor
      · rintro ⟨hi, rfl⟩
        exact ⟨hi, le_rfl, by omega⟩
      · rintro ⟨hi, hle, hle'⟩
        exact ⟨hi, by omega⟩
  | cons u log ih =>
      simp only [weave, List.mem_append, List.mem_filter, decide_eq_true_eq, List.mem_cons, ih,
        List.length_cons]
      constructor
      · rintro (⟨hi, rfl⟩ | rfl | hlog | ⟨hi, hle, hle'⟩)
        · exact Or.inr ⟨hi, le_rfl, by omega⟩
        · exact Or.inl (Or.inl rfl)
        · exact Or.inl (Or.inr hlog)
        · exact Or.inr ⟨hi, by omega, by omega⟩
      · rintro ((rfl | hlog) | ⟨hi, hle, hle'⟩)
        · exact Or.inr (Or.inl rfl)
        · exact Or.inr (Or.inr (Or.inl hlog))
        · rcases hle.eq_or_lt with heq | hlt
          · exact Or.inl ⟨hi, heq.symm⟩
          · exact Or.inr (Or.inr (Or.inr ⟨hi, by omega, by omega⟩))

/-- A relation holds along the woven list if it holds along both lists and between a
query and the updates on either side of it. -/
theorem pairwise_weave
    {R : ι → ι → Prop} {k : ℕ} {log : List ι}
    (hqueries : queries.Pairwise R)
    (hviews : ∀ q ∈ queries, ∀ q' ∈ queries, view q < view q' → R q q')
    (hlog : log.Pairwise R)
    (hbefore : ∀ q ∈ queries, ∀ j u, log[j]? = some u → view q ≤ k + j → R q u)
    (hafter : ∀ q ∈ queries, ∀ j u, log[j]? = some u → k + j < view q → R u q) :
    (weave queries view k log).Pairwise R := by
  induction log generalizing k with
  | nil =>
      exact hqueries.filter _
  | cons u log ih =>
      rw [List.pairwise_cons] at hlog
      have hrest : (weave queries view (k + 1) log).Pairwise R :=
        ih hlog.2
          (fun q hq j u hu hle => hbefore q hq (j + 1) u hu (by omega))
          (fun q hq j u hu hlt => hafter q hq (j + 1) u hu (by omega))
      refine List.pairwise_append.mpr
        ⟨hqueries.filter _, List.pairwise_cons.mpr ⟨fun i hi => ?_, hrest⟩, fun q hq i hi => ?_⟩
      · rcases mem_weave.mp hi with hi | ⟨hi, hle, -⟩
        · exact hlog.1 i hi
        · exact hafter i hi 0 u rfl (by omega)
      · obtain ⟨hq, hview⟩ := List.mem_filter.mp hq
        have hview := of_decide_eq_true hview
        rcases List.mem_cons.mp hi with rfl | hi
        · exact hbefore q hq 0 i rfl (by omega)
        · rcases mem_weave.mp hi with hi | ⟨hi, hle, -⟩
          · obtain ⟨j, hj⟩ := List.mem_iff_getElem?.mp hi
            exact hbefore q hq (j + 1) i hj (by omega)
          · exact hviews q hq i hi (by omega)

end Weave

section Views

variable (obj : Object S Q A) (h : History ι Q A)

/-- The state after the first `k` updates of a log. -/
def stateAt (log : List ι) (k : ℕ) : S :=
  (log.take k).foldl (fun s u => obj.next s (h.request u)) obj.init

/-- A log of updates, and queries that each saw a prefix of it. -/
structure Views (log queries : List ι) (view : ι → ℕ) : Prop where
  log_nodup : log.Nodup
  queries_nodup : queries.Nodup
  apart : ∀ q ∈ queries, q ∉ log
  complete : ∀ i a, h.Answered i a → i ∈ log ∨ i ∈ queries
  view_le : ∀ q ∈ queries, view q ≤ log.length
  reads_only : ∀ q ∈ queries, ∀ s, obj.next s (h.request q) = s
  update_right : ∀ k u, log[k]? = some u → ∀ a, h.Answered u a →
    obj.Right (stateAt obj h log k) (h.request u) a
  query_right : ∀ q ∈ queries, ∀ a, h.Answered q a →
    obj.Right (stateAt obj h log (view q)) (h.request q) a
  update_update : log.Pairwise fun u u' => ¬ h.Before u' u
  listed : queries.Pairwise fun q q' => ¬ h.Before q' q
  query_query : ∀ q ∈ queries, ∀ q' ∈ queries, h.Before q q' → view q ≤ view q'
  update_query : ∀ k u, log[k]? = some u → ∀ q ∈ queries, h.Before u q → k < view q
  query_update : ∀ k u, log[k]? = some u → ∀ q ∈ queries, h.Before q u → view q ≤ k

variable {obj h}
variable {log queries : List ι} {view : ι → ℕ}

/-- Queries that see the state of the moment are answered rightly and change nothing. -/
theorem legal_append_queries
    {s : S} {qs l : List ι}
    (hright : ∀ q ∈ qs, ∀ a, h.Answered q a → obj.Right s (h.request q) a)
    (honly : ∀ q ∈ qs, obj.next s (h.request q) = s)
    (hl : Legal obj h s l) :
    Legal obj h s (qs ++ l) := by
  induction qs with
  | nil =>
      exact hl
  | cons q qs ih =>
      refine ⟨hright q List.mem_cons_self, ?_⟩
      rw [honly q List.mem_cons_self]
      exact ih (fun q hq => hright q (List.mem_cons_of_mem _ hq))
        fun q hq => honly q (List.mem_cons_of_mem _ hq)

theorem stateAt_succ
    {k : ℕ} {u : ι}
    (hu : log[k]? = some u) :
    stateAt obj h log (k + 1) = obj.next (stateAt obj h log k) (h.request u) := by
  unfold stateAt
  rw [List.take_add_one, hu, List.foldl_append]
  rfl

theorem stateAt_succ_of_none
    {k : ℕ}
    (hu : log[k]? = none) :
    stateAt obj h log (k + 1) = stateAt obj h log k := by
  unfold stateAt
  rw [List.take_add_one, hu, Option.toList_none, List.append_nil]

/-- The queries that saw `k` updates, right behind them. -/
theorem Views.legal_queries
    (hviews : Views obj h log queries view)
    {k : ℕ} {l : List ι}
    (hl : Legal obj h (stateAt obj h log k) l) :
    Legal obj h (stateAt obj h log k)
      (queries.filter (fun q => decide (view q = k)) ++ l) := by
  refine legal_append_queries (fun q hq => ?_)
    (fun q hq => hviews.reads_only q (List.mem_of_mem_filter hq) _) hl
  obtain ⟨hq, hview⟩ := List.mem_filter.mp hq
  rw [← of_decide_eq_true hview]
  exact hviews.query_right q hq

/-- The woven list from the state after some updates on. -/
theorem Views.legal
    (hviews : Views obj h log queries view)
    (pre rest : List ι)
    (hlog : log = pre ++ rest) :
    Legal obj h (stateAt obj h log pre.length) (weave queries view pre.length rest) := by
  induction rest generalizing pre with
  | nil =>
      have hlast := hviews.legal_queries (k := pre.length) (l := []) trivial
      rwa [List.append_nil] at hlast
  | cons u rest ih =>
      have hu : log[pre.length]? = some u := by
        rw [hlog, List.getElem?_append_right le_rfl, Nat.sub_self]
        rfl
      have hrest := ih (pre ++ [u]) (by rw [hlog, List.append_assoc, List.singleton_append])
      rw [List.length_append, List.length_singleton, stateAt_succ hu] at hrest
      exact hviews.legal_queries ⟨hviews.update_right _ u hu, hrest⟩

/-- Queries that saw a prefix of the log can be put right behind it. -/
theorem Views.linearizes
    (hviews : Views obj h log queries view) :
    Linearizes obj h (weave queries view 0 log) where
  nodup := by
    refine pairwise_weave hviews.queries_nodup (fun q _ q' _ hlt heq => ?_) hviews.log_nodup
      (fun q hq j u hu _ heq => ?_) fun q hq j u hu _ heq => ?_
    · rw [heq] at hlt
      exact lt_irrefl _ hlt
    · exact hviews.apart q hq (heq ▸ List.mem_of_getElem? hu)
    · exact hviews.apart q hq (heq ▸ List.mem_of_getElem? hu)
  complete := by
    intro i a ha
    refine mem_weave.mpr ((hviews.complete i a ha).imp_right fun hi => ⟨hi, Nat.zero_le _, ?_⟩)
    rw [Nat.zero_add]
    exact hviews.view_le i hi
  realTime := by
    refine pairwise_weave hviews.listed (fun q hq q' hq' hlt hbefore => ?_) hviews.update_update
      (fun q hq j u hu hle hbefore => ?_) fun q hq j u hu hlt hbefore => ?_
    · exact absurd (hviews.query_query q' hq' q hq hbefore) (not_le.mpr hlt)
    · have := hviews.update_query j u hu q hq hbefore
      omega
    · have := hviews.query_update j u hu q hq hbefore
      omega
  legal := hviews.legal [] log rfl

end Views

end Linearization
end Library
end LogReplicator

import Mathlib.Data.List.Sort
import Mathlib.Data.String.Basic
import Mathlib.Order.Basic
import Mathlib.Tactic

/-!
# Tables with a primary key

A table is a finite list of rows in strictly increasing key order.  The order
is a field of the structure, so a table with two rows under one key cannot be
built, and two tables with the same rows are equal.

The operations are the ones a keyed SQL table offers:

* `get` reads the row under a key;
* `put` is an insert that overwrites the row already under the key;
* `deleteWhere` drops every row whose key satisfies a test;
* `select` lists the rows whose keys satisfy a test, in key order;
* `last` is the row with the largest key.

Everything a client needs is stated through `get`: `get_put`,
`get_deleteWhere`, `ext_get`, `last_eq_some_iff` and `keys_eq_range'`.
-/

namespace LogReplicator
namespace Library

universe u v

variable {κ : Type u} {ν : Type v} [LinearOrder κ]

/-- Rows under distinct keys, listed in increasing key order. -/
structure Table (κ : Type u) (ν : Type v) [LinearOrder κ] where
  rows : List (κ × ν)
  sorted : rows.Pairwise (fun a b => a.1 < b.1)

namespace Table

/-- The value a row list holds under a key. -/
def lookupRow (k : κ) : List (κ × ν) → Option ν
  | [] => none
  | r :: rs => if r.1 = k then some r.2 else lookupRow k rs

/-- Insert a row in key order, replacing the row with the same key. -/
def putRow (k : κ) (v : ν) : List (κ × ν) → List (κ × ν)
  | [] => [(k, v)]
  | r :: rs =>
      if k < r.1 then (k, v) :: r :: rs
      else if r.1 = k then (k, v) :: rs
      else r :: putRow k v rs

theorem mem_putRow
    {k : κ} {v : ν} {r : κ × ν} :
    ∀ {rs : List (κ × ν)},
      r ∈ putRow k v rs → r = (k, v) ∨ r ∈ rs
  | [], h => by
      simpa [putRow] using h
  | a :: rs, h => by
      unfold putRow at h
      split_ifs at h with hlt heq
      · simpa using h
      · rcases List.mem_cons.mp h with h | h
        · exact Or.inl h
        · exact Or.inr (List.mem_cons_of_mem _ h)
      · rcases List.mem_cons.mp h with h | h
        · exact Or.inr (h ▸ List.mem_cons_self)
        · exact (mem_putRow h).imp id (List.mem_cons_of_mem _)

theorem putRow_sorted
    (k : κ) (v : ν) :
    ∀ {rs : List (κ × ν)},
      rs.Pairwise (fun a b => a.1 < b.1) →
      (putRow k v rs).Pairwise (fun a b => a.1 < b.1)
  | [], _ => by
      simp [putRow]
  | a :: rs, h => by
      obtain ⟨ha, hrs⟩ := List.pairwise_cons.mp h
      unfold putRow
      split_ifs with hlt heq
      · refine List.pairwise_cons.mpr ⟨?_, h⟩
        intro b hb
        rcases List.mem_cons.mp hb with rfl | hb
        · exact hlt
        · exact lt_trans hlt (ha b hb)
      · subst heq
        exact List.pairwise_cons.mpr ⟨ha, hrs⟩
      · refine List.pairwise_cons.mpr ⟨?_, putRow_sorted k v hrs⟩
        intro b hb
        rcases mem_putRow hb with rfl | hb
        · exact lt_of_le_of_ne (not_lt.mp hlt) heq
        · exact ha b hb

/-- The table without rows. -/
def empty : Table κ ν where
  rows := []
  sorted := List.Pairwise.nil

/-- The value under a key. -/
def get (t : Table κ ν) (k : κ) : Option ν :=
  lookupRow k t.rows

/-- Insert a row, overwriting the row that already occupies the key. -/
def put (t : Table κ ν) (k : κ) (v : ν) : Table κ ν where
  rows := putRow k v t.rows
  sorted := putRow_sorted k v t.sorted

/-- Drop every row whose key satisfies `p`. -/
def deleteWhere (t : Table κ ν) (p : κ → Bool) : Table κ ν where
  rows := t.rows.filter (fun r => !p r.1)
  sorted := t.sorted.filter _

/-- The rows whose keys satisfy `p`, in key order. -/
def select (t : Table κ ν) (p : κ → Bool) : List (κ × ν) :=
  t.rows.filter (fun r => p r.1)

/-- The row with the largest key. -/
def last (t : Table κ ν) : Option (κ × ν) :=
  t.rows.getLast?

/-- Insert the rows of a list one after the other. -/
def putAll (t : Table κ ν) (rs : List (κ × ν)) : Table κ ν :=
  rs.foldl (fun t r => t.put r.1 r.2) t

/-- The keys in use, in increasing order. -/
def keys (t : Table κ ν) : List κ :=
  t.rows.map Prod.fst

section Lookup

theorem lookupRow_eq_some_of_mem
    {k : κ} {v : ν} :
    ∀ {rs : List (κ × ν)},
      rs.Pairwise (fun a b => a.1 < b.1) →
      (k, v) ∈ rs → lookupRow k rs = some v
  | [], _, h => by
      cases h
  | a :: rs, hs, h => by
      obtain ⟨ha, hrs⟩ := List.pairwise_cons.mp hs
      rcases List.mem_cons.mp h with rfl | h
      · simp [lookupRow]
      · have hne : a.1 ≠ k := ne_of_lt (ha _ h)
        simp [lookupRow, hne, lookupRow_eq_some_of_mem hrs h]

theorem mem_of_lookupRow_eq_some
    {k : κ} {v : ν} :
    ∀ {rs : List (κ × ν)}, lookupRow k rs = some v → (k, v) ∈ rs
  | [], h => by
      cases h
  | a :: rs, h => by
      unfold lookupRow at h
      split_ifs at h with heq
      · cases h
        subst heq
        exact List.mem_cons_self
      · exact List.mem_cons_of_mem _ (mem_of_lookupRow_eq_some h)

theorem lookupRow_putRow
    (k : κ) (v : ν) (j : κ) :
    ∀ {rs : List (κ × ν)},
      rs.Pairwise (fun a b => a.1 < b.1) →
      lookupRow j (putRow k v rs) =
        if j = k then some v else lookupRow j rs
  | [], _ => by
      by_cases h : j = k
      · simp [putRow, lookupRow, h]
      · simp [putRow, lookupRow, h, Ne.symm h]
  | a :: rs, hs => by
      obtain ⟨_, hrs⟩ := List.pairwise_cons.mp hs
      have ih := lookupRow_putRow k v j hrs
      by_cases h : j = k
      · subst h
        rcases lt_trichotomy j a.1 with hlt | heq | hlt
        · simp [putRow, lookupRow, hlt]
        · simp [putRow, lookupRow, heq]
        · simp [putRow, lookupRow, hlt.not_gt, ne_of_lt hlt, ih]
      · rcases lt_trichotomy k a.1 with hlt | heq | hlt
        · simp [putRow, lookupRow, hlt, h, Ne.symm h]
        · simp [putRow, lookupRow, ← heq, h, Ne.symm h]
        · simp [putRow, lookupRow, hlt.not_gt, ne_of_lt hlt, ih, h]

theorem lookupRow_filter
    (p : κ → Bool) (j : κ) :
    ∀ rs : List (κ × ν),
      lookupRow j (rs.filter (fun r => p r.1)) =
        if p j then lookupRow j rs else none
  | [] => by
      simp [lookupRow]
  | a :: rs => by
      have ih := lookupRow_filter p j rs
      by_cases hp : p a.1
      · by_cases h : a.1 = j
        · subst h
          simp [lookupRow, hp]
        · simp [hp, lookupRow, h, ih]
      · by_cases h : a.1 = j
        · subst h
          simp [hp, ih]
        · simp [hp, lookupRow, h, ih]

end Lookup

@[simp] theorem get_empty
    (k : κ) :
    (empty : Table κ ν).get k = none := by
  rfl

@[simp] theorem rows_empty :
    (empty : Table κ ν).rows = [] := by
  rfl

theorem get_put
    (t : Table κ ν) (k : κ) (v : ν) (j : κ) :
    (t.put k v).get j = if j = k then some v else t.get j :=
  lookupRow_putRow k v j t.sorted

theorem get_deleteWhere
    (t : Table κ ν) (p : κ → Bool) (j : κ) :
    (t.deleteWhere p).get j = if p j then none else t.get j := by
  unfold get deleteWhere
  rw [lookupRow_filter (fun k => !p k) j t.rows]
  by_cases h : p j <;> simp [h]

/-- A row is listed exactly when `get` finds it. -/
theorem mem_rows_iff
    (t : Table κ ν) (k : κ) (v : ν) :
    (k, v) ∈ t.rows ↔ t.get k = some v :=
  ⟨lookupRow_eq_some_of_mem t.sorted, mem_of_lookupRow_eq_some⟩

theorem mem_select_iff
    (t : Table κ ν) (p : κ → Bool) (k : κ) (v : ν) :
    (k, v) ∈ t.select p ↔ p k = true ∧ t.get k = some v := by
  simp [select, mem_rows_iff, and_comm]

/-- Two row lists in key order with the same rows are equal. -/
theorem rows_eq_of_sorted
    {rs ss : List (κ × ν)}
    (hrs : rs.Pairwise (fun a b => a.1 < b.1))
    (hss : ss.Pairwise (fun a b => a.1 < b.1))
    (h : ∀ r, r ∈ rs ↔ r ∈ ss) :
    rs = ss := by
  have hasymm : Std.Antisymm (fun a b : κ × ν => a.1 < b.1) :=
    ⟨fun _ _ hab hba => absurd (lt_trans hab hba) (lt_irrefl _)⟩
  have hirrefl : Std.Irrefl (fun a b : κ × ν => a.1 < b.1) :=
    ⟨fun _ => lt_irrefl _⟩
  exact hrs.eq_of_mem_iff hss h

/-- A table is determined by what `get` returns. -/
theorem ext_get
    {s t : Table κ ν}
    (h : ∀ k, s.get k = t.get k) :
    s = t := by
  have hrows : s.rows = t.rows :=
    rows_eq_of_sorted s.sorted t.sorted fun r => by
      rw [mem_rows_iff s r.1 r.2, mem_rows_iff t r.1 r.2, h]
  cases s
  cases t
  simpa using hrows

/-- `last` returns a row, and no row has a larger key. -/
theorem last_eq_some
    {t : Table κ ν} {k : κ} {v : ν}
    (h : t.last = some (k, v)) :
    t.get k = some v ∧ ∀ j, k < j → t.get j = none := by
  unfold last at h
  obtain ⟨rs, hrs⟩ := List.getLast?_eq_some_iff.mp h
  have hs := t.sorted
  rw [hrs, List.pairwise_append] at hs
  refine ⟨(mem_rows_iff t k v).mp (by simp [hrs]), ?_⟩
  intro j hj
  cases hg : t.get j with
  | none => rfl
  | some w =>
      have hmem := (mem_rows_iff t j w).mpr hg
      rw [hrs, List.mem_append] at hmem
      rcases hmem with hmem | hmem
      · have hlt := hs.2.2 _ hmem (k, v) (by simp)
        exact absurd (lt_trans hj hlt) (lt_irrefl _)
      · simp only [List.mem_singleton, Prod.mk.injEq] at hmem
        exact absurd hj (by simp [hmem.1])

theorem last_eq_none_iff
    {t : Table κ ν} :
    t.last = none ↔ ∀ k, t.get k = none := by
  unfold last
  rw [List.getLast?_eq_none_iff]
  constructor
  · intro h k
    simp [get, h, lookupRow]
  · intro h
    refine List.eq_nil_iff_forall_not_mem.mpr fun r hr => ?_
    have := (mem_rows_iff t r.1 r.2).mp hr
    simp [h] at this

/-- The last row is the one `get` finds with nothing behind it. -/
theorem last_eq_some_iff
    {t : Table κ ν} {k : κ} {v : ν} :
    t.last = some (k, v) ↔
      t.get k = some v ∧ ∀ j, k < j → t.get j = none := by
  refine ⟨last_eq_some, ?_⟩
  rintro ⟨hk, hgt⟩
  cases hl : t.last with
  | none => simp [last_eq_none_iff.mp hl k] at hk
  | some r =>
      obtain ⟨hr, hrgt⟩ := last_eq_some (k := r.1) (v := r.2) hl
      have hkr : k = r.1 := by
        rcases lt_trichotomy k r.1 with hlt | heq | hlt
        · simp [hgt _ hlt] at hr
        · exact heq
        · simp [hrgt _ hlt] at hk
      subst hkr
      rw [hk] at hr
      cases hr
      rfl

theorem get_putAll_of_notMem
    {rs : List (κ × ν)} {k : κ} :
    ∀ {t : Table κ ν}, (∀ r ∈ rs, r.1 ≠ k) → (t.putAll rs).get k = t.get k := by
  induction rs with
  | nil => intro t _; rfl
  | cons r rs ih =>
      intro t h
      have hr : k ≠ r.1 := (h r List.mem_cons_self).symm
      have := ih (t := t.put r.1 r.2) fun s hs => h s (List.mem_cons_of_mem _ hs)
      simpa [putAll, get_put, hr] using this

/-- Writing rows under pairwise distinct keys stores each of them. -/
theorem get_putAll_of_mem
    {rs : List (κ × ν)} {k : κ} {v : ν}
    (hnd : (rs.map Prod.fst).Nodup) :
    ∀ {t : Table κ ν}, (k, v) ∈ rs → (t.putAll rs).get k = some v := by
  induction rs with
  | nil => intro t h; cases h
  | cons r rs ih =>
      intro t h
      rw [List.map_cons, List.nodup_cons] at hnd
      rcases List.mem_cons.mp h with rfl | h
      · have hk : ∀ s ∈ rs, s.1 ≠ k := fun s hs heq =>
          hnd.1 (List.mem_map.mpr ⟨s, hs, heq⟩)
        have := get_putAll_of_notMem (t := t.put k v) hk
        simpa [putAll, get_put] using this
      · simpa [putAll] using ih hnd.2 (t := t.put r.1 r.2) h

/-- What is found after writing rows was there before or is one of them. -/
theorem get_putAll_cases
    {rs : List (κ × ν)} {k : κ} {t : Table κ ν} :
    (t.putAll rs).get k = t.get k ∨
      ∃ r ∈ rs, r.1 = k ∧ (t.putAll rs).get k = some r.2 := by
  induction rs generalizing t with
  | nil => exact Or.inl rfl
  | cons r rs ih =>
      have hcons : t.putAll (r :: rs) = (t.put r.1 r.2).putAll rs := rfl
      rw [hcons]
      rcases ih (t := t.put r.1 r.2) with hold | ⟨r', hr', hk, hget⟩
      · by_cases hr : r.1 = k
        · exact Or.inr ⟨r, List.mem_cons_self, hr, by rw [hold, get_put, if_pos hr.symm]⟩
        · exact Or.inl (by rw [hold, get_put, if_neg (Ne.symm hr)])
      · exact Or.inr ⟨r', List.mem_cons_of_mem _ hr', hk, hget⟩

/-- Writing back all rows of a table rebuilds it, in whatever order. -/
theorem putAll_of_perm
    {t : Table κ ν} {rs : List (κ × ν)}
    (h : rs.Perm t.rows) :
    (empty : Table κ ν).putAll rs = t := by
  have hnd : (rs.map Prod.fst).Nodup := by
    rw [(h.map Prod.fst).nodup_iff, List.nodup_iff_pairwise_ne, List.pairwise_map]
    exact t.sorted.imp fun h => ne_of_lt h
  refine ext_get fun k => ?_
  cases hg : t.get k with
  | some v => exact get_putAll_of_mem hnd (h.mem_iff.mpr ((mem_rows_iff t k v).mpr hg))
  | none =>
      refine (get_putAll_of_notMem fun r hr heq => ?_).trans (get_empty k)
      have := (mem_rows_iff t r.1 r.2).mp (h.mem_iff.mp hr)
      simp [heq, hg] at this

theorem putAll_rows
    (t : Table κ ν) :
    (empty : Table κ ν).putAll t.rows = t :=
  putAll_of_perm (List.Perm.refl _)

section Numbered

variable {t : Table ℕ ν} {a n : ℕ}

/-- The keys are a range exactly when `get` finds the range and nothing else. -/
theorem keys_eq_range'_iff :
    t.keys = List.range' a n ↔
      ∀ k, (t.get k).isSome ↔ a ≤ k ∧ k < a + n := by
  have hmem : ∀ k, k ∈ t.keys ↔ (t.get k).isSome := by
    intro k
    rw [Option.isSome_iff_exists]
    simp only [keys, List.mem_map]
    constructor
    · rintro ⟨r, hr, rfl⟩
      exact ⟨r.2, (mem_rows_iff t r.1 r.2).mp hr⟩
    · rintro ⟨v, hv⟩
      exact ⟨(k, v), (mem_rows_iff t k v).mpr hv, rfl⟩
  constructor
  · intro h k
    rw [← hmem, h, List.mem_range'_1]
  · intro h
    have hs : t.keys.Pairwise (· < ·) := by
      unfold keys
      rw [List.pairwise_map]
      exact t.sorted
    refine List.Pairwise.eq_of_mem_iff (r := (· < ·)) hs (List.pairwise_lt_range' ..) fun k => ?_
    rw [hmem, h, List.mem_range'_1]

end Numbered

end Table

end Library
end LogReplicator

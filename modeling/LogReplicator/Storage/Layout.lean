import LogReplicator.Storage.Store

/-!
# The layout of the log

What the mutations of the store do to single rows, and the invariant that ties
`log_entries`, the snapshot row and the metadata together (`Store.Ordered`).
-/

namespace LogReplicator
namespace Store

open Library

variable {s : Store}

section Rows

@[simp] theorem get_deleteFrom
    (s : Store) (index i : Nat) :
    (s.deleteFrom index).logEntries.get i =
      if index ≤ i then none else s.logEntries.get i := by
  simp [deleteFrom, Table.get_deleteWhere]

@[simp] theorem get_compactLog
    (s : Store) (throughIndex i : Nat) :
    (s.compactLog throughIndex).logEntries.get i =
      if i ≤ throughIndex then none else s.logEntries.get i := by
  simp [compactLog, Table.get_deleteWhere]

@[simp] theorem get_createSnapshot
    (json : Json) (s : Store) (index term i : Nat) :
    (s.createSnapshot json index term).logEntries.get i =
      if i ≤ index then none else s.logEntries.get i :=
  get_compactLog _ _ _

@[simp] theorem get_installSnapshot
    (s : Store) (snapshot : Snapshot) (state : Table String String) (i : Nat) :
    (s.installSnapshot snapshot state).logEntries.get i =
      if i ≤ snapshot.lastIncludedIndex then none else s.logEntries.get i :=
  get_compactLog _ _ _

theorem get_appendEntries_of_notMem
    {es : List Entry} {i : Nat}
    (h : ∀ e ∈ es, e.index ≠ i) :
    (s.appendEntries es).logEntries.get i = s.logEntries.get i := by
  refine Table.get_putAll_of_notMem ?_
  intro r hr
  obtain ⟨e, he, rfl⟩ := List.mem_map.mp hr
  exact h e he

theorem get_appendEntries_of_mem
    {es : List Entry} {e : Entry}
    (hnodup : (es.map Entry.index).Nodup)
    (he : e ∈ es) :
    (s.appendEntries es).logEntries.get e.index = some ⟨e.term, e.command⟩ := by
  refine Table.get_putAll_of_mem ?_ (List.mem_map.mpr ⟨e, he, rfl⟩)
  simpa [List.map_map, Function.comp_def] using hnodup

/-- A row found after an append was there before or is one of the entries. -/
theorem get_appendEntries_cases
    (s : Store) (es : List Entry) (i : Nat) :
    (s.appendEntries es).logEntries.get i = s.logEntries.get i ∨
      ∃ e ∈ es, e.index = i ∧
        (s.appendEntries es).logEntries.get i = some ⟨e.term, e.command⟩ := by
  rcases @Table.get_putAll_cases _ _ _
    (es.map fun e => (e.index, (⟨e.term, e.command⟩ : LogRow))) i s.logEntries with h | h
  · exact Or.inl h
  · obtain ⟨r, hr, hk, hget⟩ := h
    obtain ⟨e, he, rfl⟩ := List.mem_map.mp hr
    exact Or.inr ⟨e, he, hk, hget⟩

theorem term_of_row
    {i : Nat} {row : LogRow}
    (hi : s.snapshotIndex < i)
    (hrow : s.logEntries.get i = some row) :
    s.term i = some row.term := by
  have h0 : i ≠ 0 := by omega
  have h1 : i ≠ s.snapshotIndex := by omega
  have h2 : ¬ i < s.snapshotIndex := by omega
  simp [term, h0, h1, h2, hrow]

theorem term_eq_map
    {i : Nat} (hi : s.snapshotIndex < i) :
    s.term i = (s.logEntries.get i).map LogRow.term := by
  have h0 : i ≠ 0 := by omega
  have h1 : i ≠ s.snapshotIndex := by omega
  have h2 : ¬ i < s.snapshotIndex := by omega
  simp [term, h0, h1, h2]

@[simp] theorem term_zero :
    s.term 0 = some 0 := by
  simp [term]

theorem term_snapshotIndex
    (h : s.snapshotIndex ≠ 0) :
    s.term s.snapshotIndex = some s.snapshotTerm := by
  simp [term, h]

/-- Dropping a suffix of the log leaves the terms before it alone. -/
theorem term_deleteFrom_of_lt
    {index i : Nat} (hi : i < index) :
    (s.deleteFrom index).term i = s.term i := by
  have hrow : (s.deleteFrom index).logEntries.get i = s.logEntries.get i := by
    simp [hi]
  unfold term
  rw [hrow]
  rfl

theorem term_deleteFrom_of_le
    {index i : Nat} (hi : index ≤ i) (hsnap : s.snapshotIndex < i) :
    (s.deleteFrom index).term i = none := by
  rw [term_eq_map (by exact hsnap)]
  simp [hi]

theorem term_appendEntries_of_notMem
    {es : List Entry} {i : Nat}
    (h : ∀ e ∈ es, e.index ≠ i) :
    (s.appendEntries es).term i = s.term i := by
  have hrow := get_appendEntries_of_notMem (s := s) h
  unfold term
  rw [hrow]
  rfl

theorem term_appendEntries_of_mem
    {es : List Entry} {e : Entry}
    (hnodup : (es.map Entry.index).Nodup)
    (he : e ∈ es)
    (hsnap : s.snapshotIndex < e.index) :
    (s.appendEntries es).term e.index = some e.term := by
  have hrow := get_appendEntries_of_mem (s := s) hnodup he
  exact term_of_row (by exact hsnap) hrow

end Rows

section Last

/-- No row lies above the last index. -/
theorem get_of_lastIndex_lt
    {i : Nat} (hi : s.lastIndex < i) :
    s.logEntries.get i = none := by
  cases hl : s.logEntries.last with
  | none =>
      exact Table.last_eq_none_iff.mp hl i
  | some r =>
      have hlast : s.lastIndex = r.1 := by simp [lastIndex, lastIndexAndTerm, hl]
      exact (Table.last_eq_some (k := r.1) (v := r.2) hl).2 i (by omega)

theorem le_lastIndex_of_row
    {i : Nat} {row : LogRow}
    (hrow : s.logEntries.get i = some row) :
    i ≤ s.lastIndex := by
  by_contra h
  simp [get_of_lastIndex_lt (not_le.mp h)] at hrow

/-- A snapshot never shortens the log. -/
theorem lastIndex_le_createSnapshot
    (json : Json) {index term : Nat}
    (hindex : s.snapshotIndex < index) :
    s.lastIndex ≤ (s.createSnapshot json index term).lastIndex := by
  have hposition : index ≤ (s.createSnapshot json index term).lastIndex := by
    cases hl : (s.createSnapshot json index term).logEntries.last with
    | none =>
        have hlast : (s.createSnapshot json index term).lastIndex = index := by
          simp only [lastIndex, lastIndexAndTerm, hl]
          rfl
        omega
    | some r =>
        have hrow := (Table.last_eq_some (k := r.1) (v := r.2) hl).1
        rw [get_createSnapshot] at hrow
        have hlast : (s.createSnapshot json index term).lastIndex = r.1 := by
          simp [lastIndex, lastIndexAndTerm, hl]
        split_ifs at hrow with hle
        omega
  cases hl : s.logEntries.last with
  | none =>
      have hlast : s.lastIndex = s.snapshotIndex := by simp [lastIndex, lastIndexAndTerm, hl]
      omega
  | some r =>
      have hlast : s.lastIndex = r.1 := by simp [lastIndex, lastIndexAndTerm, hl]
      have hrow := (Table.last_eq_some (k := r.1) (v := r.2) hl).1
      by_cases hle : r.1 ≤ index
      · omega
      · rw [hlast]
        exact le_lastIndex_of_row (by rw [get_createSnapshot, if_neg hle, hrow])

theorem lastIndex_appendEntries_singleton
    (e : Entry) :
    e.index ≤ (s.appendEntries [e]).lastIndex :=
  le_lastIndex_of_row (get_appendEntries_of_mem (by simp) (List.mem_singleton.mpr rfl))

/-- The last index is bounded by the snapshot position and the rows. -/
theorem lastIndex_le
    {b : Nat}
    (hsnap : s.snapshotIndex ≤ b)
    (hrows : ∀ i, b < i → s.logEntries.get i = none) :
    s.lastIndex ≤ b := by
  cases hl : s.logEntries.last with
  | none =>
      simpa [lastIndex, lastIndexAndTerm, hl] using hsnap
  | some r =>
      have hlast : s.lastIndex = r.1 := by simp [lastIndex, lastIndexAndTerm, hl]
      have hrow := (Table.last_eq_some (k := r.1) (v := r.2) hl).1
      by_contra h
      simp [hrows r.1 (by omega)] at hrow

end Last

/-- The representation invariant of the store. -/
structure Ordered (s : Store) : Prop where
  /-- The log is the gapless range after the snapshot position. -/
  rows : ∀ i, (s.logEntries.get i).isSome ↔ s.snapshotIndex < i ∧ i ≤ s.lastIndex
  /-- The snapshot row and the metadata name the same position. -/
  snapshot : ∀ snap, s.snapshot = some snap →
    snap.lastIncludedIndex = s.snapshotIndex ∧
      snap.lastIncludedTerm = s.snapshotTerm
  applied : s.snapshotIndex ≤ s.lastApplied

section Ordered

/-- A store whose rows are a gapless range ends where the range ends. -/
theorem lastIndex_eq_of_rows
    {b : Nat}
    (hsnap : s.snapshotIndex ≤ b)
    (hrows : ∀ i, (s.logEntries.get i).isSome ↔ s.snapshotIndex < i ∧ i ≤ b) :
    s.lastIndex = b := by
  refine le_antisymm (lastIndex_le hsnap ?_) ?_
  · intro i hi
    rw [← Option.not_isSome_iff_eq_none, hrows i]
    omega
  · cases hl : s.logEntries.last with
    | none =>
        have hnone := Table.last_eq_none_iff.mp hl b
        have hb := (hrows b).not.mp (by simp [hnone])
        have : s.lastIndex = s.snapshotIndex := by
          simp [lastIndex, lastIndexAndTerm, hl]
        omega
    | some r =>
        have hrow := (Table.last_eq_some (k := r.1) (v := r.2) hl).1
        have hr := (hrows r.1).mp (by simp [hrow])
        have hb := (hrows b).mpr ⟨by omega, le_rfl⟩
        obtain ⟨row, hrow'⟩ := Option.isSome_iff_exists.mp hb
        exact le_lastIndex_of_row hrow'

theorem Ordered.snapshotIndex_le
    (h : s.Ordered) :
    s.snapshotIndex ≤ s.lastIndex := by
  cases hl : s.logEntries.last with
  | none =>
      simp [lastIndex, lastIndexAndTerm, hl]
  | some r =>
      have hrow := (Table.last_eq_some (k := r.1) (v := r.2) hl).1
      have := (h.rows r.1).mp (by simp [hrow])
      omega

/-- A store is ordered once its rows are a range that starts after the snapshot. -/
theorem ordered_of_rows
    {b : Nat}
    (hsnap : s.snapshotIndex ≤ b)
    (hrows : ∀ i, (s.logEntries.get i).isSome ↔ s.snapshotIndex < i ∧ i ≤ b)
    (hsnapshot : ∀ snap, s.snapshot = some snap →
      snap.lastIncludedIndex = s.snapshotIndex ∧
        snap.lastIncludedTerm = s.snapshotTerm)
    (happlied : s.snapshotIndex ≤ s.lastApplied) :
    s.Ordered where
  rows := by
    rw [lastIndex_eq_of_rows hsnap hrows]
    exact hrows
  snapshot := hsnapshot
  applied := happlied

theorem ordered_init :
    Store.init.Ordered := by
  refine ordered_of_rows (b := 0) le_rfl ?_ (by simp [init]) le_rfl
  intro i
  simp only [init, Table.get_empty, Option.isSome_none, Bool.false_eq_true, false_iff]
  omega

theorem Ordered.saveTermVote
    (h : s.Ordered) (t : Nat) (v : String) :
    (s.saveTermVote t v).Ordered :=
  ⟨h.rows, h.snapshot, h.applied⟩

/-- Dropping a suffix of the log keeps the order. -/
theorem Ordered.deleteFrom
    (h : s.Ordered)
    {index : Nat} (hindex : s.snapshotIndex < index) :
    (s.deleteFrom index).Ordered := by
  refine ordered_of_rows (b := min s.lastIndex (index - 1)) ?_ ?_ h.snapshot h.applied
  · have := h.snapshotIndex_le
    show s.snapshotIndex ≤ _
    omega
  · intro i
    have hrow := h.rows i
    show _ ↔ s.snapshotIndex < i ∧ _
    rw [get_deleteFrom]
    split_ifs with hi
    · simp only [Option.isSome_none, Bool.false_eq_true, false_iff]
      omega
    · rw [hrow]
      omega

/-- Entries numbered from the next index on extend the log. -/
theorem Ordered.appendEntries
    (h : s.Ordered)
    {es : List Entry}
    (hes : es.map Entry.index = List.range' (s.lastIndex + 1) es.length) :
    (s.appendEntries es).Ordered := by
  have hmem : ∀ i, (∃ e ∈ es, e.index = i) ↔
      s.lastIndex < i ∧ i ≤ s.lastIndex + es.length := by
    intro i
    rw [← List.mem_map, hes, List.mem_range'_1]
    omega
  have hnodup : (es.map Entry.index).Nodup := by
    rw [hes]
    exact List.nodup_range'
  refine ordered_of_rows (b := s.lastIndex + es.length) ?_ ?_ h.snapshot h.applied
  · have := h.snapshotIndex_le
    show s.snapshotIndex ≤ _
    omega
  · intro i
    show _ ↔ s.snapshotIndex < i ∧ _
    have hsnap := h.snapshotIndex_le
    by_cases hi : ∃ e ∈ es, e.index = i
    · have hrange := (hmem i).mp hi
      obtain ⟨e, he, rfl⟩ := hi
      rw [get_appendEntries_of_mem hnodup he]
      simp only [Option.isSome_some, true_iff]
      omega
    · have hrange := (hmem i).not.mp hi
      push Not at hi
      rw [get_appendEntries_of_notMem hi, h.rows i]
      omega

/-- Moving the snapshot position up, together with the rows it covers. -/
theorem Ordered.advance
    (h : s.Ordered)
    {s' : Store} {index : Nat}
    (hindex : s.snapshotIndex < index)
    (hrows : ∀ i, s'.logEntries.get i =
      if i ≤ index then none else s.logEntries.get i)
    (hposition : s'.snapshotIndex = index)
    (hsnapshot : ∀ snap, s'.snapshot = some snap →
      snap.lastIncludedIndex = s'.snapshotIndex ∧
        snap.lastIncludedTerm = s'.snapshotTerm)
    (happlied : s'.snapshotIndex ≤ s'.lastApplied) :
    s'.Ordered := by
  refine ordered_of_rows (b := max s.lastIndex index) (by omega) ?_ hsnapshot happlied
  intro i
  rw [hrows i, hposition]
  split_ifs with hi
  · simp only [Option.isSome_none, Bool.false_eq_true, false_iff]
    omega
  · rw [h.rows i]
    omega

theorem Ordered.createSnapshot
    (h : s.Ordered)
    (json : Json) {index term : Nat}
    (hindex : s.snapshotIndex < index) :
    (s.createSnapshot json index term).Ordered := by
  refine h.advance hindex (get_createSnapshot json s index term) rfl ?_ le_rfl
  rintro snap ⟨⟩
  exact ⟨rfl, rfl⟩

theorem Ordered.installSnapshot
    (h : s.Ordered)
    {snapshot : Snapshot} {state : Table String String}
    (hindex : s.snapshotIndex < snapshot.lastIncludedIndex) :
    (s.installSnapshot snapshot state).Ordered := by
  refine h.advance hindex (get_installSnapshot s snapshot state) rfl ?_ le_rfl
  rintro snap ⟨⟩
  exact ⟨rfl, rfl⟩

end Ordered

section Consequences

/-- A term is known exactly from the snapshot position to the last index. -/
theorem Ordered.term_isSome_iff
    (h : s.Ordered)
    {i : Nat} (hi : 0 < i) :
    (s.term i).isSome ↔ s.snapshotIndex ≤ i ∧ i ≤ s.lastIndex := by
  have hsnap := h.snapshotIndex_le
  have h0 : i ≠ 0 := by omega
  rcases lt_trichotomy i s.snapshotIndex with hlt | heq | hgt
  · have h1 : i ≠ s.snapshotIndex := by omega
    simp only [term, h0, h1, hlt, if_true, if_false, Option.isSome_none,
      Bool.false_eq_true, false_iff]
    omega
  · rw [heq, term_snapshotIndex (by omega)]
    simp only [Option.isSome_some, true_iff]
    omega
  · rw [term_eq_map hgt, Option.isSome_map, h.rows i]
    omega

theorem Ordered.le_of_term
    (h : s.Ordered)
    {i t : Nat} (ht : s.term i = some t) :
    i ≤ s.lastIndex := by
  rcases Nat.eq_zero_or_pos i with rfl | hi
  · exact Nat.zero_le _
  · exact ((h.term_isSome_iff hi).mp (by simp [ht])).2

/-- The position the log ends at is known with its term. -/
theorem Ordered.term_lastIndex
    (h : s.Ordered)
    (horigin : s.snapshotIndex = 0 → s.snapshotTerm = 0) :
    s.term s.lastIndex = some s.lastIndexAndTerm.2 := by
  cases hl : s.logEntries.last with
  | none =>
      have hlast : s.lastIndexAndTerm = (s.snapshotIndex, s.snapshotTerm) := by
        simp [lastIndexAndTerm, hl]
      simp only [lastIndex, hlast]
      rcases Nat.eq_zero_or_pos s.snapshotIndex with hzero | hpos
      · rw [hzero, term_zero, horigin hzero]
      · exact term_snapshotIndex hpos.ne'
  | some r =>
      have hlast : s.lastIndexAndTerm = (r.1, r.2.term) := by
        simp [lastIndexAndTerm, hl]
      have hrow := (Table.last_eq_some (k := r.1) (v := r.2) hl).1
      have habove := ((h.rows r.1).mp (by simp [hrow])).1
      simp only [lastIndex, hlast]
      exact term_of_row habove hrow

/-- The keys of the log are the range between snapshot and last index. -/
theorem Ordered.keys_eq
    (h : s.Ordered) :
    s.logEntries.keys =
      List.range' (s.snapshotIndex + 1) (s.lastIndex - s.snapshotIndex) := by
  rw [Table.keys_eq_range'_iff]
  intro i
  rw [h.rows i]
  have := h.snapshotIndex_le
  omega

/-- The rows `EntriesFrom` looks at start after the snapshot position. -/
theorem entriesFrom_eq
    (s : Store) (start : Nat) (limit : Int) :
    s.entriesFrom start limit =
      (if limit ≤ 0 then
          s.logEntries.select fun i => decide (max start (s.snapshotIndex + 1) ≤ i)
        else
          (s.logEntries.select fun i =>
            decide (max start (s.snapshotIndex + 1) ≤ i)).take limit.toNat).map
        fun r => ⟨r.1, r.2.term, r.2.command⟩ := by
  have hstart : (if start ≤ s.snapshotIndex then s.snapshotIndex + 1 else start) =
      max start (s.snapshotIndex + 1) := by
    split_ifs <;> omega
  simp only [entriesFrom, hstart]

theorem Ordered.select_keys
    (h : s.Ordered)
    (first : Nat) (hfirst : s.snapshotIndex < first) :
    (s.logEntries.select fun i => decide (first ≤ i)).map Prod.fst =
      List.range' first (s.lastIndex + 1 - first) := by
  have hselect : (s.logEntries.select fun i => decide (first ≤ i)) =
      (s.logEntries.deleteWhere fun i => decide (i < first)).rows := by
    simp only [Table.select, Table.deleteWhere]
    refine List.filter_congr fun r _ => ?_
    rw [← decide_not]
    exact decide_eq_decide.mpr not_lt.symm
  have hkeys := Table.keys_eq_range'_iff (a := first) (n := s.lastIndex + 1 - first)
    (t := s.logEntries.deleteWhere fun i => decide (i < first))
  rw [hselect]
  refine hkeys.mpr fun i => ?_
  rw [Table.get_deleteWhere]
  by_cases hi : i < first
  · simp only [hi, decide_true, if_true, Option.isSome_none, Bool.false_eq_true,
      false_iff]
    omega
  · simp only [hi, decide_false, Bool.false_eq_true, if_false, h.rows i]
    omega

/-- `EntriesFrom` returns a consecutive run, cut off at the limit. -/
theorem Ordered.entriesFrom_indexes
    (h : s.Ordered)
    (start : Nat) {limit : Nat}
    (hlimit : 0 < limit) :
    (s.entriesFrom start limit).map Entry.index =
      List.range' (max start (s.snapshotIndex + 1))
        (min limit (s.lastIndex + 1 - max start (s.snapshotIndex + 1))) := by
  have hkeys := h.select_keys (max start (s.snapshotIndex + 1)) (by omega)
  have hpos : ¬ (limit : Int) ≤ 0 := by omega
  rw [entriesFrom_eq, if_neg hpos, Int.toNat_natCast, List.map_map]
  calc List.map (Entry.index ∘ fun r : Nat × LogRow => ⟨r.1, r.2.term, r.2.command⟩) _
      = ((s.logEntries.select fun i =>
          decide (max start (s.snapshotIndex + 1) ≤ i)).map Prod.fst).take limit := by
        rw [← List.map_take]
        rfl
    _ = _ := by
        rw [hkeys]
        rcases le_total limit (s.lastIndex + 1 - max start (s.snapshotIndex + 1)) with
          hle | hle
        · rw [List.take_range'_of_length_ge hle, min_eq_left hle]
        · rw [List.take_range'_of_length_le hle, min_eq_right hle]

/-- Without a limit, `EntriesFrom` returns everything after the snapshot. -/
theorem Ordered.entriesFrom_all_indexes
    (h : s.Ordered) :
    (s.entriesFrom 1 0).map Entry.index =
      List.range' (s.snapshotIndex + 1) (s.lastIndex - s.snapshotIndex) := by
  have hkeys := h.select_keys (s.snapshotIndex + 1) (Nat.lt_succ_self _)
  rw [entriesFrom_eq, if_pos le_rfl, List.map_map, max_eq_right (by omega)]
  rw [Nat.add_sub_add_right] at hkeys
  exact hkeys

/-- Every returned entry is the one the log holds at its index. -/
theorem entry_of_mem_entriesFrom
    {start : Nat} {limit : Int} {e : Entry}
    (he : e ∈ s.entriesFrom start limit) :
    s.entry e.index = some e := by
  rw [entriesFrom_eq] at he
  obtain ⟨r, hr, rfl⟩ := List.mem_map.mp he
  have hmem : r ∈ s.logEntries.select fun i =>
      decide (max start (s.snapshotIndex + 1) ≤ i) := by
    split_ifs at hr with hlimit
    · exact hr
    · exact List.mem_of_mem_take hr
  have hrow := ((Table.mem_select_iff _ _ r.1 r.2).mp hmem).2
  simp [entry, hrow]

end Consequences

end Store
end LogReplicator

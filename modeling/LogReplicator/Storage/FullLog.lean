import LogReplicator.Library.Consensus
import LogReplicator.Storage.Layout

/-!
# The log as if nothing had been compacted

`Store.Stores s l` says that the store holds the log `l`, compacted up to its
snapshot position.  Every mutation of the store is then an operation on the full
log: deleting is `take`, appending is `++`, and a snapshot leaves it alone.
-/

namespace LogReplicator

open Library Library.Consensus

/-- The entries are numbered from 1. -/
def Indexed (l : List Entry) : Prop :=
  l.map Entry.index = List.range' 1 l.length

instance : DecidablePred Indexed := fun l =>
  inferInstanceAs (Decidable (l.map Entry.index = List.range' 1 l.length))

namespace Store

/-- The store holds this log, compacted up to the snapshot position. -/
structure Stores (s : Store) (l : List Entry) : Prop where
  ordered : s.Ordered
  length : s.lastIndex = l.length
  rows : ∀ i, s.snapshotIndex ≤ i → s.entry (i + 1) = l[i]?
  snapshotTerm : s.snapshotTerm = termAt Entry.term l s.snapshotIndex

section Slices

/-- Consecutive entries of a log are a slice of it. -/
theorem eq_slice
    {es l : List Entry} {start : Nat}
    (hindexes : es.map Entry.index = List.range' (start + 1) es.length)
    (hmem : ∀ e ∈ es, l[e.index - 1]? = some e) :
    es = (l.drop start).take es.length := by
  refine List.ext_getElem? fun i => ?_
  by_cases hi : i < es.length
  · have hindex : es[i].index = start + 1 + i := by
      have hat := congrArg (fun k => k[i]?) hindexes
      simpa [hi] using hat
    have he := hmem es[i] (List.getElem_mem hi)
    rw [hindex, show start + 1 + i - 1 = start + i by omega] at he
    rw [List.getElem?_take_of_lt hi, List.getElem?_drop, he, List.getElem?_eq_getElem hi]
  · rw [List.getElem?_eq_none (by omega), List.getElem?_eq_none]
    rw [List.length_take]
    omega

end Slices

variable {s s' : Store} {l l' : List Entry}

section Reading

theorem Stores.snapshotIndex_le
    (h : s.Stores l) :
    s.snapshotIndex ≤ l.length :=
  h.length ▸ h.ordered.snapshotIndex_le

/-- The term at a position that is not compacted. -/
theorem Stores.term_eq
    (h : s.Stores l)
    {i : Nat}
    (hi : s.snapshotIndex ≤ i)
    (hlen : i ≤ l.length) :
    s.term i = some (termAt Entry.term l i) := by
  rcases hi.eq_or_lt with rfl | hlt
  · rcases Nat.eq_zero_or_pos s.snapshotIndex with hzero | hpos
    · rw [hzero, term_zero, termAt_zero]
    · rw [term_snapshotIndex hpos.ne', h.snapshotTerm]
  · obtain ⟨j, rfl⟩ : ∃ j, i = j + 1 := ⟨i - 1, by omega⟩
    have hentry := h.rows j (by omega)
    rw [List.getElem?_eq_getElem (by omega)] at hentry
    obtain ⟨row, hrow, heq⟩ := Option.map_eq_some_iff.mp hentry
    rw [term_of_row hlt hrow, termAt_succ (List.getElem?_eq_getElem (by omega)), ← heq]

/-- A known term is the term of the full log. -/
theorem Stores.of_term
    (h : s.Stores l)
    {i t : Nat}
    (ht : s.term i = some t) :
    i ≤ l.length ∧ termAt Entry.term l i = t := by
  rcases Nat.eq_zero_or_pos i with rfl | hpos
  · rw [term_zero, Option.some.injEq] at ht
    exact ⟨Nat.zero_le _, by rw [termAt_zero, ht]⟩
  · obtain ⟨hsnap, hlast⟩ := (h.ordered.term_isSome_iff hpos).mp (by simp [ht])
    rw [h.length] at hlast
    rw [h.term_eq hsnap hlast, Option.some.injEq] at ht
    exact ⟨hlast, ht⟩

theorem Stores.lastIndexAndTerm_eq
    (h : s.Stores l) :
    s.lastIndexAndTerm = (l.length, termAt Entry.term l l.length) := by
  have hterm := h.ordered.term_lastIndex fun hzero => by
    rw [h.snapshotTerm, hzero, termAt_zero]
  have hknown := (h.of_term hterm).2
  rw [h.length] at hknown
  exact Prod.ext h.length hknown.symm

/-- The position of the log, as a vote compares it. -/
theorem Stores.position_eq
    (h : s.Stores l) :
    position Entry.term l = (s.lastIndexAndTerm.2, s.lastIndexAndTerm.1) := by
  rw [h.lastIndexAndTerm_eq, Consensus.position_eq]

theorem Stores.entry_iff
    (h : s.Stores l)
    {i : Nat} {e : Entry} :
    s.entry (i + 1) = some e ↔ s.snapshotIndex ≤ i ∧ l[i]? = some e := by
  constructor
  · intro he
    obtain ⟨row, hrow, -⟩ := Option.map_eq_some_iff.mp he
    have habove := ((h.ordered.rows (i + 1)).mp (by simp [hrow])).1
    exact ⟨by omega, by rw [← h.rows i (by omega), he]⟩
  · rintro ⟨hi, he⟩
    rw [h.rows i hi, he]

theorem Stores.mem_entriesFrom
    (h : s.Stores l)
    {start : Nat} {limit : Int} {e : Entry}
    (he : e ∈ s.entriesFrom start limit) :
    l[e.index - 1]? = some e := by
  have hentry := entry_of_mem_entriesFrom he
  obtain ⟨row, hrow, -⟩ := Option.map_eq_some_iff.mp hentry
  have habove := ((h.ordered.rows e.index).mp (by simp [hrow])).1
  rw [show e.index = e.index - 1 + 1 by omega] at hentry
  exact (h.entry_iff.mp hentry).2

/-- A batch is a slice of the full log. -/
theorem Stores.entriesFrom_eq
    (h : s.Stores l)
    {start limit : Nat}
    (hstart : s.snapshotIndex ≤ start)
    (hlimit : 0 < limit) :
    s.entriesFrom (start + 1) limit =
        (l.drop start).take (s.entriesFrom (start + 1) limit).length ∧
      (start ≤ l.length →
        start + (s.entriesFrom (start + 1) limit).length ≤ l.length) := by
  have hindexes := h.ordered.entriesFrom_indexes (start + 1) hlimit
  rw [max_eq_left (by omega)] at hindexes
  have hlength := congrArg List.length hindexes
  rw [List.length_map, List.length_range'] at hlength
  rw [← hlength] at hindexes
  refine ⟨eq_slice hindexes fun e he => h.mem_entriesFrom he, fun hle => ?_⟩
  rw [hlength, h.length]
  omega

/-- All rows are the full log after the snapshot. -/
theorem Stores.entriesFrom_all
    (h : s.Stores l) :
    s.entriesFrom 1 0 = l.drop s.snapshotIndex := by
  have hindexes := h.ordered.entriesFrom_all_indexes
  have hlength := congrArg List.length hindexes
  rw [List.length_map, List.length_range', h.length] at hlength
  rw [h.length, ← hlength] at hindexes
  refine (eq_slice hindexes fun e he => h.mem_entriesFrom he).trans ?_
  rw [hlength]
  exact List.take_of_length_le (by simp)

end Reading

section Writing

/-- Rows that are those of a log make a store of it. -/
theorem stores_of_rows
    (hle : s.snapshotIndex ≤ l.length)
    (hbelow : ∀ i, i ≤ s.snapshotIndex → s.logEntries.get i = none)
    (hrows : ∀ i, s.snapshotIndex ≤ i → s.entry (i + 1) = l[i]?)
    (hsnapshot : ∀ snap, s.snapshot = some snap →
      snap.lastIncludedIndex = s.snapshotIndex ∧
        snap.lastIncludedTerm = s.snapshotTerm)
    (happlied : s.snapshotIndex ≤ s.lastApplied)
    (hterm : s.snapshotTerm = termAt Entry.term l s.snapshotIndex) :
    s.Stores l := by
  have hrange : ∀ i, (s.logEntries.get i).isSome ↔
      s.snapshotIndex < i ∧ i ≤ l.length := by
    intro i
    rcases Nat.lt_or_ge s.snapshotIndex i with hlt | hge
    · obtain ⟨j, rfl⟩ : ∃ j, i = j + 1 := ⟨i - 1, by omega⟩
      have hentry := congrArg Option.isSome (hrows j (by omega))
      rw [entry, Option.isSome_map] at hentry
      rw [hentry, isSome_getElem?]
      omega
    · rw [hbelow i hge]
      simp only [Option.isSome_none, Bool.false_eq_true, false_iff]
      omega
  exact ⟨ordered_of_rows hle hrange hsnapshot happlied,
    lastIndex_eq_of_rows hle hrange, hrows, hterm⟩

theorem stores_init :
    Store.init.Stores [] :=
  stores_of_rows le_rfl (fun _ _ => by simp [init]) (fun _ _ => by simp [entry, init])
    (by simp [init]) le_rfl (by simp [init])

/-- Changes beside the log. -/
theorem Stores.congr
    (h : s.Stores l)
    (hordered : s'.Ordered)
    (hlog : s'.logEntries = s.logEntries)
    (hindex : s'.snapshotIndex = s.snapshotIndex)
    (hterm : s'.snapshotTerm = s.snapshotTerm) :
    s'.Stores l where
  ordered := hordered
  length := by
    rw [← h.length]
    simp [lastIndex, lastIndexAndTerm, hlog, hindex, hterm]
  rows := fun i hi => by
    rw [← h.rows i (hindex ▸ hi), entry, entry, hlog]
  snapshotTerm := by
    rw [hterm, hindex, h.snapshotTerm]

theorem Stores.below
    (h : s.Stores l)
    {i : Nat} (hi : i ≤ s.snapshotIndex) :
    s.logEntries.get i = none := by
  rw [← Option.not_isSome_iff_eq_none, h.ordered.rows i]
  omega

theorem Stores.deleteFrom
    (h : s.Stores l)
    {index : Nat} (hindex : s.snapshotIndex < index) :
    (s.deleteFrom index).Stores (l.take (index - 1)) := by
  have hle := h.snapshotIndex_le
  refine stores_of_rows ?_ ?_ ?_ h.ordered.snapshot h.ordered.applied ?_
  · show s.snapshotIndex ≤ _
    rw [List.length_take]
    omega
  · intro i hi
    rw [get_deleteFrom, h.below hi, ite_self]
  · intro i hi
    have hrow := h.rows i hi
    rw [entry, get_deleteFrom, List.getElem?_take]
    by_cases hlt : i < index - 1
    · rw [if_neg (by omega), if_pos hlt, ← hrow, entry]
    · rw [if_pos (by omega), if_neg hlt, Option.map_none]
  · show s.snapshotTerm = termAt Entry.term _ s.snapshotIndex
    rw [h.snapshotTerm]
    refine (termAt_mono (List.take_prefix _ _) ?_).symm
    rw [List.length_take]
    omega

theorem Stores.appendEntries
    (h : s.Stores l)
    {es : List Entry}
    (hes : es.map Entry.index = List.range' (l.length + 1) es.length) :
    (s.appendEntries es).Stores (l ++ es) := by
  have hle := h.snapshotIndex_le
  have hnodup : (es.map Entry.index).Nodup := hes ▸ List.nodup_range'
  have hindex : ∀ k (hk : k < es.length), es[k].index = l.length + 1 + k := by
    intro k hk
    have hat := congrArg (fun r => r[k]?) hes
    simpa [hk] using hat
  have hbounds : ∀ e ∈ es, l.length < e.index ∧ e.index ≤ l.length + es.length := by
    intro e he
    obtain ⟨k, hk, rfl⟩ := List.getElem_of_mem he
    rw [hindex k hk]
    omega
  refine stores_of_rows ?_ ?_ ?_ h.ordered.snapshot h.ordered.applied ?_
  · show s.snapshotIndex ≤ _
    rw [List.length_append]
    omega
  · intro i (hi : i ≤ s.snapshotIndex)
    rw [get_appendEntries_of_notMem, h.below hi]
    intro e he
    have := hbounds e he
    omega
  · intro i (hi : s.snapshotIndex ≤ i)
    by_cases hnew : l.length ≤ i ∧ i < l.length + es.length
    · have hk : i - l.length < es.length := by omega
      have hat := hindex _ hk
      rw [List.getElem?_append_right hnew.1, List.getElem?_eq_getElem hk, entry,
        show i + 1 = es[i - l.length].index by omega,
        get_appendEntries_of_mem hnodup (List.getElem_mem hk)]
      rfl
    · have hnot : ∀ e ∈ es, e.index ≠ i + 1 := by
        intro e he
        have := hbounds e he
        omega
      have hrow := h.rows i hi
      rw [entry, get_appendEntries_of_notMem hnot, ← entry, hrow]
      by_cases hlt : i < l.length
      · rw [List.getElem?_append_left hlt]
      · rw [List.getElem?_eq_none (by omega), List.getElem?_eq_none]
        rw [List.length_append]
        omega
  · show s.snapshotTerm = termAt Entry.term _ s.snapshotIndex
    rw [h.snapshotTerm]
    exact termAt_mono (List.prefix_append _ _) hle

/-- Moving the snapshot position up.  The rows above it are those of `l'`. -/
theorem Stores.advance
    (h : s.Stores l)
    {index : Nat}
    (hindex : s.snapshotIndex < index)
    (hget : ∀ i, s'.logEntries.get i = if i ≤ index then none else s.logEntries.get i)
    (hposition : s'.snapshotIndex = index)
    (hterm : s'.snapshotTerm = termAt Entry.term l' index)
    (hsnapshot : ∀ snap, s'.snapshot = some snap →
      snap.lastIncludedIndex = s'.snapshotIndex ∧
        snap.lastIncludedTerm = s'.snapshotTerm)
    (happlied : s'.snapshotIndex ≤ s'.lastApplied)
    (hle : index ≤ l'.length)
    (hrest : ∀ i, index ≤ i → l'[i]? = l[i]?) :
    s'.Stores l' := by
  refine stores_of_rows (by omega) ?_ ?_ hsnapshot happlied (by rw [hterm, hposition])
  · intro i hi
    rw [hget, if_pos (by omega)]
  · intro i hi
    rw [hrest i (by omega), ← h.rows i (by omega), entry, entry, hget, if_neg (by omega)]

theorem Stores.createSnapshot
    (h : s.Stores l)
    (json : Json) {index term : Nat}
    (hindex : s.snapshotIndex < index)
    (hterm : s.term index = some term) :
    (s.createSnapshot json index term).Stores l := by
  obtain ⟨hle, hat⟩ := h.of_term hterm
  refine h.advance hindex (get_createSnapshot json s index term) rfl hat.symm ?_ le_rfl hle
    fun _ _ => rfl
  rintro snap ⟨⟩
  exact ⟨rfl, rfl⟩

/-- A snapshot replaces a log that does not reach beyond it, and leaves one alone
that knows its position. -/
theorem Stores.installSnapshot
    (h : s.Stores l)
    {snapshot : Snapshot} {state : Table String String}
    (hindex : s.snapshotIndex < snapshot.lastIncludedIndex)
    (hterm : snapshot.lastIncludedTerm = termAt Entry.term l' snapshot.lastIncludedIndex)
    (hle : snapshot.lastIncludedIndex ≤ l'.length)
    (hrest : ∀ i, snapshot.lastIncludedIndex ≤ i → l'[i]? = l[i]?) :
    (s.installSnapshot snapshot state).Stores l' := by
  refine h.advance hindex (get_installSnapshot s snapshot state) rfl hterm ?_ le_rfl hle
    hrest
  rintro snap ⟨⟩
  exact ⟨rfl, rfl⟩

/-- A log written to an empty store. -/
theorem stores_indexed
    (hl : Indexed l) :
    (Store.init.appendEntries l).Stores l := by
  have hstores : (Store.init.appendEntries l).Stores ([] ++ l) := stores_init.appendEntries hl
  rwa [List.nil_append] at hstores

end Writing

end Store
end LogReplicator

import LogReplicator.Storage.Database
import LogReplicator.Storage.Layout

/-!
# The database holds the store

`Represents` relates the tables of `raft.db` to the `Store` the rest of the development
works with.  Opening an empty file establishes it, however often that was interrupted
before; every operation keeps it; and under it every query answers what the store
answers.

SQLite orders the column `idx` as a signed number, so indexes have to stay below
`2 ^ 63`.  Terms only have to fit 64 bits: they are converted and converted back.
-/

namespace LogReplicator

open Library

/-- The value of a metadata key. -/
def Store.metaValue (s : Store) : MetaKey → Bytes
  | .currentTerm => Text.formatUint s.currentTerm
  | .votedFor => text s.votedFor
  | .lastApplied => Text.formatUint s.lastApplied
  | .snapshotIndex => Text.formatUint s.snapshotIndex
  | .snapshotTerm => Text.formatUint s.snapshotTerm

def LogRow.columns (row : LogRow) : EntryColumns :=
  ⟨int64 row.term, row.command⟩

def Snapshot.columns (snapshot : Snapshot) : SnapshotColumns :=
  ⟨int64 snapshot.lastIncludedIndex, int64 snapshot.lastIncludedTerm, snapshot.data⟩

/-- The four tables hold the store. -/
structure Shows (m : Table String Bytes) (l : Table Int EntryColumns)
    (k : Table String KvColumns) (p : Table Int SnapshotColumns) (s : Store) : Prop where
  metadata : ∀ key : MetaKey, m.get key.name = some (s.metaValue key)
  logEntries : Table.Image (fun i : Nat => (i : Int)) LogRow.columns s.logEntries l
  kv : Table.Image id KvColumns.value k s.kv
  snapshot : p.get 1 = s.snapshot.map Snapshot.columns

/-- The database has its tables, and they hold the store. -/
def Represents (db : Database) (s : Store) : Prop :=
  ∃ m l k p, db = ⟨some m, some l, some k, some p⟩ ∧ Shows m l k p s

/-- The values of the store fit the columns. -/
structure Store.Fits (s : Store) : Prop where
  currentTerm : s.currentTerm < 2 ^ 64
  lastApplied : s.lastApplied < 2 ^ 64
  snapshotIndex : s.snapshotIndex + 1 < 2 ^ 63
  snapshotTerm : s.snapshotTerm < 2 ^ 64
  rows : ∀ i row, s.logEntries.get i = some row → i < 2 ^ 63 ∧ row.term < 2 ^ 64
  snapshot : ∀ p, s.snapshot = some p →
    p.lastIncludedIndex < 2 ^ 64 ∧ p.lastIncludedTerm < 2 ^ 64

section Numbers

theorem uint64_int64
    {n : Nat} (hn : n < 2 ^ 64) :
    uint64 (int64 n) = n := by
  have hmod : Int.bmod n (2 ^ 64) % (2 ^ 64 : Nat) = n % (2 ^ 64 : Nat) := Int.bmod_emod
  unfold uint64 int64
  omega

theorem int64_of_lt
    {n : Nat} (hn : n < 2 ^ 63) :
    int64 n = n := by
  unfold int64
  exact Int.bmod_eq_of_le (by omega) (by omega)

theorem uint64_natCast
    {n : Nat} (hn : n < 2 ^ 64) :
    uint64 n = n := by
  unfold uint64
  omega

theorem parseUint_formatUint
    {n : Nat} (hn : n < 2 ^ 64) :
    Text.parseUint (Text.formatUint n) = some n := by
  rw [Text.parseUint, Text.parseDigits_formatUint, Option.filter_some,
    if_pos (decide_eq_true hn)]

theorem strictMono_natCast :
    StrictMono fun i : Nat => (i : Int) :=
  fun _ _ h => Int.ofNat_lt.mpr h

end Numbers

/-! ## Queries -/

section Queries

variable {db : Database} {s : Store}

theorem Represents.stringMeta
    (h : Represents db s) (key : MetaKey) :
    db.stringMeta key = .ok (s.metaValue key) := by
  obtain ⟨m, l, k, p, rfl, hshows⟩ := h
  simp [Database.stringMeta, hshows.metadata key]

theorem Represents.uintMeta
    (h : Represents db s)
    {key : MetaKey} {n : Nat}
    (hvalue : s.metaValue key = Text.formatUint n)
    (hn : n < 2 ^ 64) :
    db.uintMeta key = .ok n := by
  unfold Database.uintMeta
  rw [h.stringMeta, hvalue]
  simp [Except.bind, bind, parseUint_formatUint hn]

theorem Represents.snapshotIndexTerm
    (h : Represents db s) (hfits : s.Fits) :
    db.snapshotIndexTerm = .ok (s.snapshotIndex, s.snapshotTerm) := by
  have hindex : db.uintMeta .snapshotIndex = .ok s.snapshotIndex :=
    h.uintMeta rfl (by have := hfits.snapshotIndex; omega)
  have hterm : db.uintMeta .snapshotTerm = .ok s.snapshotTerm :=
    h.uintMeta rfl hfits.snapshotTerm
  unfold Database.snapshotIndexTerm
  rw [hindex, hterm]
  rfl

theorem Represents.currentTermVote
    (h : Represents db s) (hfits : s.Fits) :
    db.currentTermVote = .ok (s.currentTerm, text s.votedFor) := by
  have hterm : db.uintMeta .currentTerm = .ok s.currentTerm :=
    h.uintMeta rfl hfits.currentTerm
  unfold Database.currentTermVote
  rw [hterm, h.stringMeta]
  rfl

theorem Represents.lastIndexAndTerm
    (h : Represents db s) (hfits : s.Fits) :
    db.lastIndexAndTerm = .ok s.lastIndexAndTerm := by
  have hsnapshot := h.snapshotIndexTerm hfits
  obtain ⟨m, l, k, p, rfl, hshows⟩ := h
  have hlast := hshows.logEntries.last
  unfold Database.lastIndexAndTerm Store.lastIndexAndTerm
  rw [Option.map_some, hlast]
  cases hrow : s.logEntries.last with
  | none =>
      exact hsnapshot
  | some r =>
      obtain ⟨i, row⟩ := r
      obtain ⟨hi, hterm⟩ := hfits.rows i row (Table.last_eq_some hrow).1
      simp [LogRow.columns, uint64_int64 hterm, uint64_natCast (hi.trans (by decide))]

theorem Represents.loadSnapshot
    (h : Represents db s) (hfits : s.Fits) :
    db.loadSnapshot = .ok s.loadSnapshot := by
  obtain ⟨m, l, k, p, rfl, hshows⟩ := h
  unfold Database.loadSnapshot Store.loadSnapshot
  rw [Option.map_some, hshows.snapshot]
  cases hp : s.snapshot with
  | none =>
      rfl
  | some snapshot =>
      obtain ⟨hindex, hterm⟩ := hfits.snapshot snapshot hp
      simp [Snapshot.columns, uint64_int64 hindex, uint64_int64 hterm]

/-- The row of an index, as it is queried. -/
theorem Shows.row
    {m : Table String Bytes} {l : Table Int EntryColumns}
    {k : Table String KvColumns} {p : Table Int SnapshotColumns}
    (h : Shows m l k p s)
    {index : Nat} (hindex : index < 2 ^ 63) :
    l.get (int64 index) = (s.logEntries.get index).map LogRow.columns := by
  rw [int64_of_lt hindex]
  exact h.logEntries.get strictMono_natCast index

theorem Represents.entry
    (h : Represents db s) (hfits : s.Fits)
    {index : Nat} (hindex : index < 2 ^ 63) :
    db.entry index = .ok (s.entry index) := by
  obtain ⟨m, l, k, p, rfl, hshows⟩ := h
  unfold Database.entry Store.entry
  rw [Option.map_some, hshows.row hindex]
  cases hrow : s.logEntries.get index with
  | none =>
      rfl
  | some row =>
      simp [LogRow.columns, uint64_int64 (hfits.rows index row hrow).2]

theorem Represents.term
    (h : Represents db s) (hfits : s.Fits)
    {index : Nat} (hindex : index < 2 ^ 63) :
    db.term index = .ok (s.term index) := by
  have hsnapshot := h.snapshotIndexTerm hfits
  obtain ⟨m, l, k, p, rfl, hshows⟩ := h
  unfold Database.term Store.term
  rw [hsnapshot, Option.map_some, hshows.row hindex]
  show (if _ then _ else if _ then _ else if _ then _ else _) = _
  split_ifs
  · rfl
  · rfl
  · rfl
  · cases hrow : s.logEntries.get index with
    | none =>
        rfl
    | some row =>
        simp [LogRow.columns, uint64_int64 (hfits.rows index row hrow).2]

/-- Rows converted back are the rows of the store. -/
theorem entries_of_columns
    (hfits : s.Fits)
    (rows : List (Nat × LogRow))
    (hrows : ∀ r ∈ rows, r ∈ s.logEntries.rows) :
    (rows.map fun r => ((r.1 : Int), r.2.columns)).map
        (fun r => (⟨uint64 r.1, uint64 r.2.term, r.2.command⟩ : Entry)) =
      rows.map fun r => ⟨r.1, r.2.term, r.2.command⟩ := by
  rw [List.map_map]
  refine List.map_congr_left fun r hr => ?_
  obtain ⟨hi, hterm⟩ := hfits.rows r.1 r.2 ((Table.mem_rows_iff _ _ _).mp (hrows r hr))
  simp [LogRow.columns, uint64_int64 hterm, uint64_natCast (hi.trans (by decide))]

theorem Represents.entriesFrom
    (h : Represents db s) (hfits : s.Fits)
    {start : Nat} (hstart : start < 2 ^ 63) (limit : Int) :
    db.entriesFrom start limit = .ok (s.entriesFrom start limit) := by
  have hindexTerm := h.snapshotIndexTerm hfits
  have hsnapshot := hfits.snapshotIndex
  obtain ⟨m, l, k, p, rfl, hshows⟩ := h
  unfold Database.entriesFrom Store.entriesFrom
  rw [hindexTerm]
  have hmod : (s.snapshotIndex + 1) % 2 ^ 64 = s.snapshotIndex + 1 :=
    Nat.mod_eq_of_lt (hsnapshot.trans (by decide))
  simp only [bind, Except.bind, hmod, Option.map_some]
  generalize hfrom : (if start ≤ s.snapshotIndex then s.snapshotIndex + 1 else start) = n
  have hn : n < 2 ^ 63 := by
    subst hfrom
    split_ifs <;> assumption
  have hselect : l.select (fun idx => decide (int64 n ≤ idx)) =
      (s.logEntries.select fun i => decide (n ≤ i)).map fun r => ((r.1 : Int), r.2.columns) :=
    hshows.logEntries.select fun i => by simp [int64_of_lt hn]
  have hmem : ∀ r ∈ s.logEntries.select fun i => decide (n ≤ i), r ∈ s.logEntries.rows :=
    fun r hr => (List.mem_filter.mp hr).1
  rw [hselect]
  split_ifs
  · exact congrArg Except.ok (entries_of_columns hfits _ hmem)
  · rw [← List.map_take]
    exact congrArg Except.ok
      (entries_of_columns hfits _ fun r hr => hmem r (List.mem_of_mem_take hr))

theorem Represents.get
    (h : Represents db s) (key : String) :
    db.get key = .ok (s.get key) := by
  obtain ⟨m, l, k, p, rfl, hshows⟩ := h
  have hget : s.kv.get key = (k.get key).map KvColumns.value :=
    hshows.kv.get strictMono_id key
  unfold Database.get Store.get
  rw [hget]
  rfl

theorem Represents.all
    (h : Represents db s) :
    db.all = .ok s.all := by
  obtain ⟨m, l, k, p, rfl, hshows⟩ := h
  exact congrArg Except.ok hshows.kv.symm

/-- Everything that can be asked of the store, answered by the database. -/
structure Answers (db : Database) (s : Store) : Prop where
  currentTermVote : db.currentTermVote = .ok (s.currentTerm, text s.votedFor)
  lastApplied : db.lastApplied = .ok s.lastApplied
  snapshotIndexTerm : db.snapshotIndexTerm = .ok (s.snapshotIndex, s.snapshotTerm)
  lastIndexAndTerm : db.lastIndexAndTerm = .ok s.lastIndexAndTerm
  loadSnapshot : db.loadSnapshot = .ok s.loadSnapshot
  term : ∀ index < 2 ^ 63, db.term index = .ok (s.term index)
  entry : ∀ index < 2 ^ 63, db.entry index = .ok (s.entry index)
  entriesFrom : ∀ start < 2 ^ 63, ∀ limit,
    db.entriesFrom start limit = .ok (s.entriesFrom start limit)
  get : ∀ key, db.get key = .ok (s.get key)
  all : db.all = .ok s.all

theorem Represents.answers
    (h : Represents db s) (hfits : s.Fits) :
    Answers db s where
  currentTermVote := h.currentTermVote hfits
  lastApplied := h.uintMeta rfl hfits.lastApplied
  snapshotIndexTerm := h.snapshotIndexTerm hfits
  lastIndexAndTerm := h.lastIndexAndTerm hfits
  loadSnapshot := h.loadSnapshot hfits
  term _ hindex := h.term hfits hindex
  entry _ hindex := h.entry hfits hindex
  entriesFrom _ hstart limit := h.entriesFrom hfits hstart limit
  get := h.get
  all := h.all

end Queries

/-! ## Statements -/

section Statements

/-- On a database that holds `s`, the statements succeed and leave one that holds `s'`. -/
def Leads (s : Store) (qs : List Sql) (s' : Store) : Prop :=
  ∀ db, Represents db s → ∃ db', db.execAll qs = (db', none) ∧ Represents db' s'

variable {s s' s'' : Store} {qs qs' : List Sql}

theorem leads_nil :
    Leads s [] s :=
  fun db h => ⟨db, rfl, h⟩

theorem execAll_append
    {db db' : Database}
    (h : db.execAll qs = (db', none)) (qs' : List Sql) :
    db.execAll (qs ++ qs') = db'.execAll qs' := by
  induction qs generalizing db with
  | nil =>
      cases h
      rfl
  | cons q qs ih =>
      unfold Database.execAll at h
      simp only [List.cons_append, Database.execAll]
      cases hq : q.exec db with
      | none => simp [hq] at h
      | some next =>
          rw [hq] at h
          exact ih h

theorem Leads.append
    (h : Leads s qs s') (h' : Leads s' qs' s'') :
    Leads s (qs ++ qs') s'' := by
  intro db hdb
  obtain ⟨db', hrun, hdb'⟩ := h db hdb
  rw [execAll_append hrun]
  exact h' db' hdb'

/-- A statement is looked at on the tables it finds. -/
theorem leads_single
    {q : Sql}
    (h : ∀ m l k p, Shows m l k p s →
      ∃ m' l' k' p', q.exec ⟨some m, some l, some k, some p⟩ =
        some ⟨some m', some l', some k', some p'⟩ ∧ Shows m' l' k' p' s') :
    Leads s [q] s' := by
  rintro db ⟨m, l, k, p, rfl, hshows⟩
  obtain ⟨m', l', k', p', hexec, hshows'⟩ := h m l k p hshows
  refine ⟨⟨some m', some l', some k', some p'⟩, ?_, m', l', k', p', rfl, hshows'⟩
  simp [Database.execAll, hexec]

/-- A metadata key is written and the store has the new value there. -/
theorem leads_setMeta
    {key : MetaKey} {value : Bytes}
    (hvalue : s'.metaValue key = value)
    (hother : ∀ key', key' ≠ key → s'.metaValue key' = s.metaValue key')
    (hlog : s'.logEntries = s.logEntries)
    (hkv : s'.kv = s.kv)
    (hsnapshot : s'.snapshot = s.snapshot) :
    Leads s [.setMeta key value] s' := by
  refine leads_single fun m l k p h => ⟨m.put key.name value, l, k, p, rfl, ?_⟩
  refine ⟨fun key' => ?_, hlog ▸ h.logEntries, hkv ▸ h.kv, hsnapshot ▸ h.snapshot⟩
  rw [Table.get_put]
  by_cases hkey : key' = key
  · rw [hkey, if_pos rfl, hvalue]
  · rw [if_neg fun hname => hkey (MetaKey.name_injective hname), hother key' hkey]
    exact h.metadata key'

theorem leads_setCurrentTerm
    (term : Nat) :
    Leads s [.setMeta .currentTerm (Text.formatUint term)] { s with currentTerm := term } :=
  leads_setMeta rfl (fun key h => by cases key <;> first | rfl | exact absurd rfl h)
    rfl rfl rfl

theorem leads_setVotedFor
    (votedFor : String) :
    Leads s [.setMeta .votedFor (text votedFor)] { s with votedFor := votedFor } :=
  leads_setMeta rfl (fun key h => by cases key <;> first | rfl | exact absurd rfl h)
    rfl rfl rfl

theorem leads_setLastApplied
    (index : Nat) :
    Leads s [.setMeta .lastApplied (Text.formatUint index)] { s with lastApplied := index } :=
  leads_setMeta rfl (fun key h => by cases key <;> first | rfl | exact absurd rfl h)
    rfl rfl rfl

theorem leads_setSnapshotIndex
    (index : Nat) :
    Leads s [.setMeta .snapshotIndex (Text.formatUint index)]
      { s with snapshotIndex := index } :=
  leads_setMeta rfl (fun key h => by cases key <;> first | rfl | exact absurd rfl h)
    rfl rfl rfl

theorem leads_setSnapshotTerm
    (term : Nat) :
    Leads s [.setMeta .snapshotTerm (Text.formatUint term)] { s with snapshotTerm := term } :=
  leads_setMeta rfl (fun key h => by cases key <;> first | rfl | exact absurd rfl h)
    rfl rfl rfl

theorem leads_putSnapshot
    {snapshot : Snapshot} (hdata : snapshot.data ≠ []) :
    Leads s [.putSnapshot snapshot] { s with snapshot := some snapshot } := by
  refine leads_single fun m l k p h =>
    ⟨m, l, k, p.put 1 snapshot.columns, if_neg hdata, h.metadata, h.logEntries, h.kv, ?_⟩
  rw [Table.get_put, if_pos rfl]
  rfl

theorem leads_putEntry
    {e : Entry} (he : e.index < 2 ^ 63) (hcommand : e.command ≠ []) :
    Leads s [.putEntry e] (s.putEntry e) := by
  refine leads_single fun m l k p h =>
    ⟨m, l.put (int64 e.index) ⟨int64 e.term, e.command⟩, k, p, if_neg hcommand, h.metadata,
      ?_, h.kv, h.snapshot⟩
  rw [int64_of_lt he]
  exact h.logEntries.put strictMono_natCast e.index ⟨e.term, e.command⟩

theorem leads_deleteFrom
    {index : Nat} (hindex : index < 2 ^ 63) :
    Leads s [.deleteFrom index] (s.deleteFrom index) := by
  refine leads_single fun m l k p h => ⟨m, _, k, p, rfl, h.metadata, ?_, h.kv, h.snapshot⟩
  exact h.logEntries.deleteWhere fun i => by simp [int64_of_lt hindex]

theorem leads_compactLog
    {throughIndex : Nat} (hindex : throughIndex < 2 ^ 63) :
    Leads s [.compactLog throughIndex] (s.compactLog throughIndex) := by
  refine leads_single fun m l k p h => ⟨m, _, k, p, rfl, h.metadata, ?_, h.kv, h.snapshot⟩
  exact h.logEntries.deleteWhere fun i => by simp [int64_of_lt hindex]

theorem leads_putKv
    (key value : String) (index : Nat) :
    Leads s [.putKv key value index] { s with kv := s.kv.put key value } :=
  leads_single fun m l _ p h =>
    ⟨m, l, _, p, rfl, h.metadata, h.logEntries,
      h.kv.put strictMono_id key ⟨value, int64 index⟩, h.snapshot⟩

/-- A plain insert writes the row when no row has the key. -/
theorem leads_insertKv
    {key : String} (hkey : s.kv.get key = none) (value : String) (index : Nat) :
    Leads s [.insertKv key value index] { s with kv := s.kv.put key value } := by
  refine leads_single fun m l k p h =>
    ⟨m, l, k.put key ⟨value, int64 index⟩, p, ?_, h.metadata, h.logEntries,
      h.kv.put strictMono_id key ⟨value, int64 index⟩, h.snapshot⟩
  have hget : s.kv.get key = (k.get key).map KvColumns.value :=
    h.kv.get strictMono_id key
  rw [hkey, eq_comm, Option.map_eq_none_iff] at hget
  simp [Sql.exec, hget]

theorem leads_deleteKv
    (key : String) :
    Leads s [.deleteKv key] { s with kv := s.kv.deleteWhere fun k => decide (k = key) } :=
  leads_single fun m l _ p h =>
    ⟨m, l, _, p, rfl, h.metadata, h.logEntries, h.kv.deleteWhere fun _ => rfl, h.snapshot⟩

theorem leads_clearKv :
    Leads s [.clearKv] { s with kv := Table.empty } :=
  leads_single fun m l _ p h =>
    ⟨m, l, Table.empty, p, rfl, h.metadata, h.logEntries, Table.image_empty, h.snapshot⟩

/-- On a database that holds `s`, one of the statements fails with this error. -/
def Refuses (s : Store) (qs : List Sql) (e : StoreError) : Prop :=
  ∀ db, Represents db s → ∃ db', db.execAll qs = (db', some e)

variable {e : StoreError}

/-- Nothing is executed after a failure. -/
theorem Refuses.append_right
    (h : Refuses s qs e) (qs' : List Sql) :
    Refuses s (qs ++ qs') e := by
  have hends : ∀ (qs : List Sql) (db db' : Database), db.execAll qs = (db', some e) →
      db.execAll (qs ++ qs') = (db', some e) := by
    intro qs
    induction qs with
    | nil =>
        intro db db' hrun
        cases hrun
    | cons q qs ih =>
        intro db db' hrun
        unfold Database.execAll at hrun
        simp only [List.cons_append, Database.execAll]
        cases hq : q.exec db with
        | none =>
            rw [hq] at hrun
            exact hrun
        | some next =>
            rw [hq] at hrun
            exact ih next db' hrun
  intro db hdb
  obtain ⟨db', hrun⟩ := h db hdb
  exact ⟨db', hends qs db db' hrun⟩

theorem Leads.append_refuses
    (h : Leads s qs s') (h' : Refuses s' qs' e) :
    Refuses s (qs ++ qs') e := by
  intro db hdb
  obtain ⟨db', hrun, hdb'⟩ := h db hdb
  rw [execAll_append hrun]
  exact h' db' hdb'

theorem refuses_single
    {q : Sql}
    (h : ∀ m l k p, q.exec ⟨some m, some l, some k, some p⟩ = none) :
    Refuses s [q] q.error := by
  rintro db ⟨m, l, k, p, rfl, -⟩
  refine ⟨⟨some m, some l, some k, some p⟩, ?_⟩
  simp only [Database.execAll, h]

end Statements

/-! ## Transactions -/

section Transactions

variable {s : Store}

theorem leads_appendEntries
    {entries : List Entry}
    (h : ∀ e ∈ entries, e.index < 2 ^ 63)
    (hcommands : ∀ e ∈ entries, e.command ≠ []) :
    Leads s (entries.map .putEntry) (s.appendEntries entries) := by
  induction entries generalizing s with
  | nil =>
      exact leads_nil
  | cons e entries ih =>
      obtain ⟨he, hrest⟩ := List.forall_mem_cons.mp h
      obtain ⟨hcommand, hcommands⟩ := List.forall_mem_cons.mp hcommands
      exact (leads_putEntry he hcommand).append (ih hrest hcommands)

/-- The first entry without a command is refused. -/
theorem refuses_appendEntries
    {entries : List Entry} {refused : Entry}
    (h : ∀ e ∈ entries, e.index < 2 ^ 63)
    (hfirst : entries.find? (fun e => decide (e.command = [])) = some refused) :
    Refuses s (entries.map .putEntry) (.appendEntry refused.index) := by
  induction entries generalizing s with
  | nil =>
      cases hfirst
  | cons e entries ih =>
      obtain ⟨he, hrest⟩ := List.forall_mem_cons.mp h
      by_cases hcommand : e.command = []
      · rw [List.find?_cons_of_pos (by simpa using hcommand)] at hfirst
        cases hfirst
        have hrefuses : Refuses s [.putEntry refused] (.appendEntry refused.index) :=
          refuses_single fun m l k p => if_pos hcommand
        exact hrefuses.append_right _
      · rw [List.find?_cons_of_neg (by simpa using hcommand)] at hfirst
        exact (leads_putEntry he hcommand).append_refuses (ih hrest hfirst)

/-- The rows of a snapshot are restored by plain inserts: their keys differ from each
other and from those already there. -/
theorem leads_restore
    (index : Nat) {rows : List (String × String)}
    (hnodup : (rows.map Prod.fst).Nodup)
    (hfresh : ∀ r ∈ rows, s.kv.get r.1 = none) :
    Leads s (rows.map fun r => .insertKv r.1 r.2 index)
      { s with kv := s.kv.putAll rows } := by
  induction rows generalizing s with
  | nil =>
      exact leads_nil
  | cons r rows ih =>
      obtain ⟨hr, hnodup⟩ := List.nodup_cons.mp hnodup
      obtain ⟨hget, hfresh⟩ := List.forall_mem_cons.mp hfresh
      refine (leads_insertKv hget r.2 index).append
        (ih (s := { s with kv := s.kv.put r.1 r.2 }) hnodup fun r' hr' => ?_)
      have hne : r'.1 ≠ r.1 := fun heq => hr (heq ▸ List.mem_map_of_mem hr')
      show (s.kv.put r.1 r.2).get r'.1 = none
      rw [Table.get_put, if_neg hne]
      exact hfresh r' hr'

theorem leads_saveSnapshot
    {snapshot : Snapshot} (hdata : snapshot.data ≠ []) :
    Leads s (Transaction.saveSnapshotSql snapshot) (s.saveSnapshot snapshot) :=
  (leads_putSnapshot hdata).append <|
    (leads_setSnapshotIndex _).append <| (leads_setSnapshotTerm _).append <|
      leads_setLastApplied _

/-- The values the transaction writes fit the columns. -/
def Transaction.Fits : Transaction → Prop
  | saveTermVote term _ => term < 2 ^ 64
  | appendEntries entries _ => ∀ e ∈ entries, e.index < 2 ^ 63 ∧ e.term < 2 ^ 64
  | applySet index _ _ => index < 2 ^ 64
  | applyDelete index _ => index < 2 ^ 64
  | skipTo index => index < 2 ^ 64
  | createSnapshot lastIncludedIndex lastIncludedTerm =>
      lastIncludedIndex + 1 < 2 ^ 63 ∧ lastIncludedTerm < 2 ^ 64
  | installSnapshot snapshot _ _ _ =>
      snapshot.lastIncludedIndex + 1 < 2 ^ 63 ∧ snapshot.lastIncludedTerm < 2 ^ 64

/-- The error of a transaction that inserts what the schema does not accept. -/
def Transaction.refusal : Transaction → Option StoreError
  | appendEntries entries _ =>
      (entries.find? fun e => decide (e.command = [])).map fun e => .appendEntry e.index
  | installSnapshot snapshot _ _ _ =>
      if snapshot.data = [] then some .saveSnapshot else none
  | _ => none

theorem Transaction.refusal_eq_none
    (t : Transaction) :
    t.refusal = none ↔ t.accepted = true := by
  cases t with
  | appendEntries entries hne =>
      simp [refusal, accepted, Store.storable]
  | installSnapshot snapshot state rows hrows =>
      simp [refusal, accepted, Store.storableData]
  | _ => simp [refusal, accepted]

/-- The rows of a snapshot take the place of those that were there. -/
theorem leads_replaceKv
    {state : Table String String} {rows : List (String × String)}
    (hrows : rows.Perm state.rows) (index : Nat) :
    Leads s ([.clearKv] ++ rows.map fun r => .insertKv r.1 r.2 index)
      { s with kv := state } := by
  have hnodup : (rows.map Prod.fst).Nodup := by
    rw [(hrows.map Prod.fst).nodup_iff, List.nodup_iff_pairwise_ne, List.pairwise_map]
    exact state.sorted.imp fun h => ne_of_lt h
  have hrestore := (leads_clearKv (s := s)).append
    (leads_restore index hnodup fun _ _ => rfl)
  rwa [Table.putAll_of_perm hrows] at hrestore

/-- The statements of a transaction do to the tables what it does to the store. -/
theorem leads_transaction
    (json : Json) {db : Database} (hdb : Represents db s)
    {t : Transaction} (ht : t.Fits) (haccepted : t.accepted = true) :
    ∃ qs, t.sql json db = .ok qs ∧ Leads s qs (t.effect json s) := by
  cases t with
  | saveTermVote term votedFor =>
      exact ⟨_, rfl, (leads_setCurrentTerm term).append (leads_setVotedFor votedFor)⟩
  | appendEntries entries hne =>
      refine ⟨_, rfl, leads_appendEntries (fun e he => (ht e he).1) fun e he => ?_⟩
      exact of_decide_eq_true (List.all_eq_true.mp haccepted e he)
  | applySet index key value =>
      exact ⟨_, rfl, (leads_putKv key value index).append (leads_setLastApplied index)⟩
  | applyDelete index key =>
      exact ⟨_, rfl, (leads_deleteKv key).append (leads_setLastApplied index)⟩
  | skipTo index =>
      exact ⟨_, rfl, leads_setLastApplied index⟩
  | createSnapshot lastIncludedIndex lastIncludedTerm =>
      refine ⟨_, ?_, (leads_saveSnapshot (json.marshal_ne_nil _)).append
        (leads_compactLog (Nat.lt_of_succ_lt ht.1))⟩
      unfold Transaction.sql
      rw [hdb.all]
      rfl
  | installSnapshot snapshot state rows hrows =>
      have hdata : snapshot.data ≠ [] := of_decide_eq_true haccepted
      exact ⟨_, rfl, ((leads_replaceKv hrows _).append (leads_saveSnapshot hdata)).append
        (leads_compactLog (Nat.lt_of_succ_lt ht.1))⟩

/-- The statements of a transaction are there, as the state machine can be read. -/
theorem sql_of_represents
    (json : Json) {db : Database} (hdb : Represents db s) (t : Transaction) :
    ∃ qs, t.sql json db = .ok qs := by
  cases t with
  | createSnapshot lastIncludedIndex lastIncludedTerm =>
      unfold Transaction.sql
      rw [hdb.all]
      exact ⟨_, rfl⟩
  | _ => exact ⟨_, rfl⟩

/-- A transaction that is not accepted fails at the statement that inserts. -/
theorem refuses_transaction
    (json : Json) (db : Database)
    {t : Transaction} (ht : t.Fits) {e : StoreError} (hrefused : t.refusal = some e) :
    ∃ qs, t.sql json db = .ok qs ∧ Refuses s qs e := by
  cases t with
  | appendEntries entries hne =>
      obtain ⟨refused, hfirst, rfl⟩ := Option.map_eq_some_iff.mp hrefused
      exact ⟨_, rfl, refuses_appendEntries (fun e he => (ht e he).1) hfirst⟩
  | installSnapshot snapshot state rows hrows =>
      simp only [Transaction.refusal] at hrefused
      split_ifs at hrefused with hdata
      cases hrefused
      refine ⟨_, rfl, Refuses.append_right (?_ : Refuses s _ _) _⟩
      refine (leads_replaceKv hrows _).append_refuses ?_
      exact (refuses_single (q := .putSnapshot snapshot) fun m l k p =>
        if_pos hdata).append_right _
  | _ => cases hrefused

theorem Store.fits_init :
    Store.init.Fits where
  currentTerm := by decide
  lastApplied := by decide
  snapshotIndex := by decide
  snapshotTerm := by decide
  rows _ _ h := nomatch h
  snapshot _ h := nomatch h

theorem Store.Fits.saveSnapshot
    (h : s.Fits)
    {snapshot : Snapshot}
    (hindex : snapshot.lastIncludedIndex + 1 < 2 ^ 63)
    (hterm : snapshot.lastIncludedTerm < 2 ^ 64) :
    (s.saveSnapshot snapshot).Fits := by
  have hlt : snapshot.lastIncludedIndex < 2 ^ 64 := by omega
  refine ⟨h.currentTerm, hlt, hindex, hterm, h.rows, ?_⟩
  rintro p ⟨⟩
  exact ⟨hlt, hterm⟩

theorem Store.Fits.deleteWhere
    (h : s.Fits) (p : Nat → Bool) :
    { s with logEntries := s.logEntries.deleteWhere p : Store }.Fits := by
  refine { h with rows := fun i row hrow => ?_ }
  rw [Table.get_deleteWhere] at hrow
  split_ifs at hrow
  exact h.rows i row hrow

theorem Store.Fits.appendEntries
    (h : s.Fits)
    {entries : List Entry}
    (hentries : ∀ e ∈ entries, e.index < 2 ^ 63 ∧ e.term < 2 ^ 64) :
    (s.appendEntries entries).Fits := by
  refine { h with rows := fun i row hrow => ?_ }
  rcases s.get_appendEntries_cases entries i with hold | ⟨e, he, rfl, hnew⟩
  · exact h.rows i row (hold ▸ hrow)
  · cases hnew.symm.trans hrow
    exact hentries e he

theorem Store.Fits.transaction
    (json : Json) (h : s.Fits)
    {t : Transaction} (ht : t.Fits) :
    (t.effect json s).Fits := by
  cases t with
  | saveTermVote term votedFor => exact { h with currentTerm := ht }
  | appendEntries entries hne => exact h.appendEntries ht
  | applySet index key value => exact { h with lastApplied := ht }
  | applyDelete index key => exact { h with lastApplied := ht }
  | skipTo index => exact { h with lastApplied := ht }
  | createSnapshot lastIncludedIndex lastIncludedTerm =>
      exact (h.saveSnapshot ht.1 ht.2).deleteWhere _
  | installSnapshot snapshot state rows hrows =>
      have hkv : { s with kv := state : Store }.Fits := { h with }
      exact (hkv.saveSnapshot ht.1 ht.2).deleteWhere _

end Transactions

/-! ## Opening the store -/

section Opening

/-- What `INSERT OR IGNORE` makes of the metadata. -/
def seed (m : Table String Bytes) (key : MetaKey) : Table String Bytes :=
  if (m.get key.name).isSome then m else m.put key.name key.default

theorem get_seed
    (m : Table String Bytes) (key key' : MetaKey) :
    (seed m key).get key'.name =
      if key' = key then some ((m.get key.name).getD key.default) else m.get key'.name := by
  unfold seed
  by_cases hkey : key' = key
  · subst hkey
    cases hget : m.get key'.name with
    | none => simp [Table.get_put]
    | some value => simp [hget]
  · have hname : key'.name ≠ key.name := fun h => hkey (MetaKey.name_injective h)
    split_ifs
    · rfl
    · rw [Table.get_put, if_neg hname]

theorem get_seedAll
    (order : List MetaKey) (m : Table String Bytes) (key : MetaKey) :
    (order.foldl seed m).get key.name =
      if key ∈ order then some ((m.get key.name).getD key.default) else m.get key.name := by
  induction order generalizing m with
  | nil =>
      rfl
  | cons first order ih =>
      rw [List.foldl_cons, ih, get_seed]
      by_cases hfirst : key = first
      · subst hfirst
        simp
      · simp [hfirst]

theorem execAll_seed
    (order : List MetaKey) (m : Table String Bytes)
    (l : Option (Table Int EntryColumns)) (k : Option (Table String KvColumns))
    (p : Option (Table Int SnapshotColumns)) :
    Database.execAll ⟨some m, l, k, p⟩ (order.map fun key => .seedMeta key key.default) =
      (⟨some (order.foldl seed m), l, k, p⟩, none) := by
  induction order generalizing m with
  | nil =>
      rfl
  | cons key order ih =>
      exact ih (seed m key)

/-- Run to its end, `init` creates what is missing and keeps what is there. -/
theorem execAll_init
    (db : Database) (order : List MetaKey) :
    db.execAll (Database.init order) =
      (⟨some (order.foldl seed (db.metadata.getD Table.empty)),
        some (db.logEntries.getD Table.empty), some (db.kv.getD Table.empty),
        some (db.snapshot.getD Table.empty)⟩, none) :=
  execAll_seed order _ _ _ _

/-- A file whose opening was interrupted: there are only defaults. -/
structure Opening (db : Database) : Prop where
  metadata : ∀ m, db.metadata = some m → ∀ key : MetaKey,
    m.get key.name = none ∨ m.get key.name = some key.default
  logEntries : db.logEntries.getD Table.empty = Table.empty
  kv : db.kv.getD Table.empty = Table.empty
  snapshot : db.snapshot.getD Table.empty = Table.empty

theorem opening_empty :
    Opening Database.empty :=
  ⟨fun _ h => (nomatch h), rfl, rfl, rfl⟩

theorem Opening.step
    {db db' : Database} {order : List MetaKey} {q : Sql}
    (h : Opening db)
    (hq : q ∈ Database.init order)
    (hexec : q.exec db = some db') :
    Opening db' := by
  rcases List.mem_append.mp hq with hq | hq
  · simp only [List.mem_cons, List.not_mem_nil, or_false] at hq
    rcases hq with rfl | rfl | rfl | rfl <;> cases hexec
    · refine { h with metadata := ?_ }
      rintro m ⟨⟩ key
      cases hm : db.metadata with
      | none => exact Or.inl rfl
      | some m => exact h.metadata m hm key
    · exact { h with logEntries := h.logEntries }
    · exact { h with kv := h.kv }
    · exact { h with snapshot := h.snapshot }
  · obtain ⟨seeded, -, rfl⟩ := List.mem_map.mp hq
    obtain ⟨m, hm, rfl⟩ := Option.map_eq_some_iff.mp hexec
    refine { h with metadata := ?_ }
    rintro m' ⟨⟩ key
    show (seed m seeded).get key.name = none ∨ (seed m seeded).get key.name = some key.default
    rw [get_seed]
    have hold := h.metadata m hm key
    split_ifs with hkey
    · subst hkey
      rcases hold with hget | hget <;> simp [hget]
    · exact hold

theorem Opening.execAll
    {db : Database} {order : List MetaKey} {qs : List Sql}
    (h : Opening db)
    (hqs : ∀ q ∈ qs, q ∈ Database.init order) :
    Opening (db.execAll qs).1 := by
  induction qs generalizing db with
  | nil =>
      exact h
  | cons q qs ih =>
      obtain ⟨hq, hqs⟩ := List.forall_mem_cons.mp hqs
      unfold Database.execAll
      cases hexec : q.exec db with
      | none => exact h
      | some db' => exact ih (h.step hq hexec) hqs

theorem opening_attempts
    (attempts : List (List MetaKey × Nat)) :
    Opening (Database.attempted attempts) := by
  induction attempts using List.reverseRecOn with
  | nil =>
      exact opening_empty
  | append_singleton attempts a ih =>
      unfold Database.attempted
      rw [List.foldl_append]
      exact ih.execAll fun q hq => List.mem_of_mem_take hq

/-- The first opening that comes to its end leaves the initial store. -/
theorem represents_opened
    (attempts : List (List MetaKey × Nat))
    {order : List MetaKey} (horder : order.Perm MetaKey.all) :
    Represents (Database.opened attempts order) Store.init := by
  have h := opening_attempts attempts
  unfold Database.opened Database.openStore
  rw [List.take_length, execAll_init]
  refine ⟨_, _, _, _, rfl, fun key => ?_, ?_, ?_, ?_⟩
  · rw [get_seedAll, if_pos (horder.mem_iff.mpr (MetaKey.mem_all key))]
    have hdefault : key.default = Store.init.metaValue key := by
      cases key <;> rfl
    cases hm : (Database.attempted attempts).metadata with
    | none => rw [← hdefault]; rfl
    | some m => rcases h.metadata m hm key with hget | hget <;> simp [hget, hdefault]
  · rw [h.logEntries]
    exact Table.image_empty
  · rw [h.kv]
    exact Table.image_empty
  · rw [h.snapshot]
    rfl

/-- Opened again, the database does not change. -/
theorem Represents.openStore
    {db : Database} {s : Store}
    (h : Represents db s) (order : List MetaKey) (done : Nat) :
    db.openStore order done = (db, none) := by
  have hkeeps : ∀ q ∈ Database.init order, q.exec db = some db := by
    intro q hq
    obtain ⟨m, l, k, p, rfl, hshows⟩ := h
    rcases List.mem_append.mp hq with hq | hq
    · simp only [List.mem_cons, List.not_mem_nil, or_false] at hq
      rcases hq with rfl | rfl | rfl | rfl <;> rfl
    · obtain ⟨key, -, rfl⟩ := List.mem_map.mp hq
      simp [Sql.exec, hshows.metadata key]
  have hrun : ∀ qs : List Sql, (∀ q ∈ qs, q ∈ Database.init order) →
      db.execAll qs = (db, none) := by
    intro qs
    induction qs with
    | nil =>
        exact fun _ => rfl
    | cons q qs ih =>
        intro hqs
        obtain ⟨hq, hqs⟩ := List.forall_mem_cons.mp hqs
        unfold Database.execAll
        rw [hkeeps q hq]
        exact ih hqs
  exact hrun _ fun q hq => List.mem_of_mem_take hq

end Opening

/-! ## Whole runs -/

section Runs

variable (json : Json) {db : Database} {s : Store}

/-- The values the operation writes fit the columns. -/
def StorageOp.Fits : StorageOp → Prop
  | transact t _ => t.Fits
  | deleteFrom index _ => index < 2 ^ 63
  | openStore _ _ => True

/-- The error of an operation: its transaction fails as a whole, or inserts what the schema
does not accept. -/
def StorageOp.fate : StorageOp → Option StoreError
  | transact t .commit => t.refusal
  | deleteFrom _ .commit => none
  | openStore _ _ => none
  | _ => some .transaction

theorem Leads.inTx
    {s' : Store} {qs : List Sql}
    (h : Leads s qs s') (hdb : Represents db s) :
    ∃ db', db.inTx qs .commit = (db', none) ∧ Represents db' s' := by
  obtain ⟨db', hrun, hdb'⟩ := h db hdb
  refine ⟨db', ?_, hdb'⟩
  unfold Database.inTx
  rw [hrun]

theorem Refuses.inTx
    {qs : List Sql} {e : StoreError}
    (h : Refuses s qs e) (hdb : Represents db s) :
    db.inTx qs .commit = (db, some e) := by
  obtain ⟨db', hrun⟩ := h db hdb
  unfold Database.inTx
  rw [hrun]

/-- An operation that fails leaves the database alone; one that succeeds does what it does
to the store. -/
theorem Represents.perform
    (h : Represents db s)
    {op : StorageOp} (hop : op.Fits) :
    ∃ db', db.perform json op = (db', op.fate) ∧ Represents db' (s.perform json op) ∧
      (op.fate ≠ none → db' = db) := by
  cases op with
  | transact t o =>
      cases o with
      | commit =>
          cases hrefusal : t.refusal with
          | none =>
              have haccepted := t.refusal_eq_none.mp hrefusal
              obtain ⟨qs, hsql, hleads⟩ := leads_transaction json h hop haccepted
              obtain ⟨db', hrun, hdb'⟩ := hleads.inTx h
              simp only [Database.perform, hsql, Store.perform, haccepted, if_true,
                StorageOp.fate, hrefusal]
              exact ⟨db', hrun, hdb', fun hne => absurd rfl hne⟩
          | some e =>
              have haccepted : ¬ t.accepted = true := by
                rw [← t.refusal_eq_none, hrefusal]
                simp
              obtain ⟨qs, hsql, hrefuses⟩ := refuses_transaction (s := s) json db hop hrefusal
              simp only [Database.perform, hsql, Store.perform, if_neg haccepted,
                StorageOp.fate, hrefusal]
              exact ⟨db, hrefuses.inTx h, h, fun _ => rfl⟩
      | fail =>
          obtain ⟨qs, hsql⟩ := sql_of_represents json h t
          simp only [Database.perform, hsql]
          exact ⟨db, rfl, h, fun _ => rfl⟩
      | crash =>
          obtain ⟨qs, hsql⟩ := sql_of_represents json h t
          simp only [Database.perform, hsql]
          exact ⟨db, rfl, h, fun _ => rfl⟩
  | deleteFrom index o =>
      cases o with
      | commit =>
          obtain ⟨db', hrun, hdb'⟩ := (leads_deleteFrom hop).inTx h
          exact ⟨db', hrun, hdb', fun hne => absurd rfl hne⟩
      | fail => exact ⟨db, rfl, h, fun _ => rfl⟩
      | crash => exact ⟨db, rfl, h, fun _ => rfl⟩
  | openStore order done =>
      exact ⟨db, h.openStore order done, h, fun _ => rfl⟩

theorem Store.Fits.perform
    (h : s.Fits)
    {op : StorageOp} (hop : op.Fits) :
    (s.perform json op).Fits := by
  cases op with
  | transact t o =>
      cases o with
      | commit =>
          simp only [Store.perform]
          split_ifs
          · exact h.transaction json hop
          · exact h
      | fail => exact h
      | crash => exact h
  | deleteFrom index o =>
      cases o with
      | commit => exact h.deleteWhere _
      | fail => exact h
      | crash => exact h
  | openStore order done => exact h

theorem Represents.performAll
    (h : Represents db s) (hfits : s.Fits)
    {ops : List StorageOp} (hops : ∀ op ∈ ops, op.Fits) :
    Represents (db.performAll json ops) (s.performAll json ops) ∧
      (s.performAll json ops).Fits := by
  induction ops generalizing db s with
  | nil =>
      exact ⟨h, hfits⟩
  | cons op ops ih =>
      obtain ⟨hop, hops⟩ := List.forall_mem_cons.mp hops
      obtain ⟨db', hperform, hdb', -⟩ := h.perform json hop
      have hnext := ih hdb' (hfits.perform json hop) hops
      unfold Database.performAll at hnext ⊢
      rw [List.foldl_cons, hperform]
      exact hnext

/-- Whatever was done to the database since the store was first opened, it answers every
query as the store does. -/
theorem Database.answers_of_run
    (attempts : List (List MetaKey × Nat))
    (order : List MetaKey) (horder : order.Perm MetaKey.all)
    (ops : List StorageOp) (hops : ∀ op ∈ ops, op.Fits) :
    Answers ((Database.opened attempts order).performAll json ops)
      (Store.init.performAll json ops) := by
  obtain ⟨hrep, hfits⟩ :=
    (represents_opened attempts horder).performAll json Store.fits_init hops
  exact hrep.answers hfits

/-- A first run: a vote, an entry that is applied, a compaction that fails, and an opening
that dies after two statements. -/
def firstRun : List StorageOp :=
  [.transact (.saveTermVote 1 "node1") .commit,
    .transact (.appendEntries [⟨1, 1, [123, 125]⟩] (by decide)) .commit,
    .transact (.applySet 1 "a" "1") .commit,
    .transact (.createSnapshot 1 1) .fail,
    .openStore [] 2]

theorem firstRun_fits :
    ∀ op ∈ firstRun, op.Fits := by
  simp [firstRun, StorageOp.Fits, Transaction.Fits]

theorem Database.answers_of_run_firstRun :
    (((Database.opened [(MetaKey.all, 6)] MetaKey.all).performAll .compact
      firstRun).lastIndexAndTerm) = .ok (1, 1) :=
  (Database.answers_of_run .compact [(MetaKey.all, 6)] MetaKey.all (List.Perm.refl _)
    firstRun firstRun_fits).lastIndexAndTerm

end Runs

end LogReplicator

import LogReplicator.Library.Text
import LogReplicator.Raft.StateMachine

/-!
# Comparing the logs of the nodes

`raftctl compare` asks every node for its log and compares the entries above the highest
snapshot position and up to the lowest commit index, in the order in which the map of
the reports is iterated, with the first one it comes across.
-/

namespace LogReplicator

open Library Library.Text Library.Consensus

/-- The log and the state machine of a node. -/
structure InspectLogResponse where
  id : String
  role : Role
  term : Nat
  commitIndex : Nat
  lastApplied : Nat
  snapshotIndex : Nat
  entries : List Entry
  state : Members
deriving DecidableEq, Repr

/-- Dump the local log and state machine. -/
def Node.inspectLog (n : Node) (o : Options) : InspectLogResponse where
  id := o.nodeID
  role := n.role
  term := n.currentTerm
  commitIndex := n.commitIndex
  lastApplied := n.lastApplied
  snapshotIndex := n.store.snapshotIndex
  entries := n.store.entriesFrom (n.store.snapshotIndex + 1) 0
  state := n.store.all

/-- The entry a report has at an index. -/
def InspectLogResponse.entryAt (report : InspectLogResponse) (index : Nat) : Option Entry :=
  report.entries.find? fun e => decide (e.index = index)

/-- A report whose entries are consecutive from its snapshot position on and reach its
commit index; positions have 64 bits. -/
structure InspectLogResponse.Valid (report : InspectLogResponse) : Prop where
  consecutive : report.entries.map Entry.index =
    List.range' (report.snapshotIndex + 1) report.entries.length
  reaches : report.commitIndex ≤ report.snapshotIndex + report.entries.length
  fits : report.snapshotIndex + report.entries.length < 2 ^ 64

instance (report : InspectLogResponse) : Decidable report.Valid :=
  decidable_of_iff
    (report.entries.map Entry.index =
        List.range' (report.snapshotIndex + 1) report.entries.length ∧
      report.commitIndex ≤ report.snapshotIndex + report.entries.length ∧
      report.snapshotIndex + report.entries.length < 2 ^ 64)
    ⟨fun h => ⟨h.1, h.2.1, h.2.2⟩, fun h => ⟨h.consecutive, h.reaches, h.fits⟩⟩

/-- The reports by address, in an order in which they are iterated. -/
abbrev Reports : Type := List (String × InspectLogResponse)

/-- The error of a comparison that found a difference. -/
structure Difference where
  reference : String
  address : String
  index : Nat
deriving DecidableEq, Repr

def Difference.message (d : Difference) : String :=
  "logs of " ++ d.reference ++ " and " ++ d.address ++ " differ at entry " ++ toString d.index

namespace Ctl

/-- The index window every node can be asked about; positions have 64 bits. -/
def comparableRange (reports : Reports) : Nat × Nat :=
  let range := reports.foldl
    (fun range report =>
      (max range.1 report.2.snapshotIndex, min range.2 report.2.commitIndex))
    (0, 2 ^ 64 - 1)
  ((range.1 + 1) % 2 ^ 64, range.2)

/-- The text of an entry: index, term and command with slashes between them. -/
def describe (e : Entry) : Bytes :=
  formatUint e.index ++ 47 :: (formatUint e.term ++ 47 :: e.command)

def describeEntries (report : InspectLogResponse) (start through : Nat) : List Bytes :=
  (report.entries.filter fun e => !decide (e.index < start ∨ e.index > through)).map describe

def firstDifference (left right : List Bytes) : Option Nat :=
  match (List.range (min left.length right.length)).find?
      fun i => decide (left[i]? ≠ right[i]?) with
  | some i => some i
  | none =>
      if left.length ≠ right.length then some (min left.length right.length) else none

/-- The loop of `compare` once it has a reference.  The texts of a report are never a nil
slice, not even when there are none, so the reference stays the first one. -/
def compareWith (start through : Nat) (referenceAddress : String) (reference : List Bytes) :
    Reports → Option Difference
  | [] => none
  | (address, report) :: reports =>
      match firstDifference reference (describeEntries report start through) with
      | some index => some ⟨referenceAddress, address, (start + index) % 2 ^ 64⟩
      | none => compareWith start through referenceAddress reference reports

/-- Compare reports.  The map is iterated twice, each time in an order of its own. -/
def compare (ranged visited : Reports) : Option Difference :=
  let (start, through) := comparableRange ranged
  match visited with
  | [] => none
  | (address, report) :: reports =>
      compareWith start through address (describeEntries report start through) reports

section Texts

/-- The text of an entry determines it. -/
theorem describe_injective :
    Function.Injective describe := by
  have hslash : ∀ n, (47 : UInt8) ∉ formatUint n := by
    intro n hmem
    have := digit_of_mem_formatUint hmem
    revert this
    decide
  rintro ⟨index, term, command⟩ ⟨index', term', command'⟩ h
  obtain ⟨hindex, hrest⟩ := append_cons_inj (hslash _) (hslash _) h
  obtain ⟨hterm, hcommand⟩ := append_cons_inj (hslash _) (hslash _) hrest
  simp only at hindex hterm hcommand
  rw [formatUint_injective hindex, formatUint_injective hterm, hcommand]

variable {left right : List Bytes} {i : Nat}

/-- Texts without a difference are the same. -/
theorem firstDifference_eq_none
    (h : firstDifference left right = none) :
    left = right := by
  unfold firstDifference at h
  split at h
  · cases h
  · next hfind =>
      split_ifs at h with hlength
      rw [not_not] at hlength
      refine List.ext_getElem? fun i => ?_
      rcases lt_or_ge i left.length with hlt | hge
      · rw [List.find?_eq_none] at hfind
        have := hfind i (List.mem_range.mpr (by omega))
        simpa using this
      · rw [List.getElem?_eq_none hge, List.getElem?_eq_none (by omega)]

/-- Before the difference that is found there is none. -/
theorem firstDifference_eq_some
    (h : firstDifference left right = some i) :
    left[i]? ≠ right[i]? ∧ ∀ j < i, left[j]? = right[j]? := by
  unfold firstDifference at h
  split at h
  · next k hfind =>
      cases h
      obtain ⟨hne, -, hbefore⟩ := List.find?_range_eq_some.mp hfind
      constructor
      · simpa using hne
      · intro j hj
        simpa using hbefore j hj
  · next hfind =>
      rw [List.find?_eq_none] at hfind
      split_ifs at h with hlength
      cases h
      constructor
      · intro heq
        rcases lt_or_gt_of_ne hlength with hlt | hlt
        · rw [min_eq_left hlt.le, List.getElem?_eq_none le_rfl,
            List.getElem?_eq_getElem hlt] at heq
          cases heq
        · rw [min_eq_right hlt.le, List.getElem?_eq_none (l := right) le_rfl,
            List.getElem?_eq_getElem hlt] at heq
          cases heq
      · intro j hj
        have := hfind j (List.mem_range.mpr hj)
        simpa using this

end Texts

section Loop

variable {start through : Nat} {referenceAddress : String} {reference : List Bytes}
variable {reports : Reports} {d : Difference}

theorem compareWith_eq_none
    (h : compareWith start through referenceAddress reference reports = none) :
    ∀ r ∈ reports, describeEntries r.2 start through = reference := by
  induction reports with
  | nil =>
      simp
  | cons report reports ih =>
      unfold compareWith at h
      split at h
      · cases h
      · next hnone =>
          exact List.forall_mem_cons.mpr ⟨(firstDifference_eq_none hnone).symm, ih h⟩

theorem compareWith_eq_some
    (h : compareWith start through referenceAddress reference reports = some d) :
    ∃ r ∈ reports, ∃ i,
      firstDifference reference (describeEntries r.2 start through) = some i ∧
        d = ⟨referenceAddress, r.1, (start + i) % 2 ^ 64⟩ := by
  induction reports with
  | nil =>
      cases h
  | cons report reports ih =>
      unfold compareWith at h
      split at h
      · next i hsome =>
          cases h
          exact ⟨report, List.mem_cons_self, i, hsome, rfl⟩
      · obtain ⟨r, hr, hrest⟩ := ih h
        exact ⟨r, List.mem_cons_of_mem _ hr, hrest⟩

end Loop

section Window

variable {report report' : InspectLogResponse} {start through : Nat}

/-- The entries that are compared. -/
def window (report : InspectLogResponse) (start through : Nat) : List Entry :=
  report.entries.filter fun e => !decide (e.index < start ∨ e.index > through)

theorem describeEntries_eq
    (report : InspectLogResponse) (start through : Nat) :
    describeEntries report start through = (window report start through).map describe :=
  rfl

/-- A report has all the entries of the window, and nothing else is compared. -/
theorem window_indexes
    (h : report.Valid)
    (hstart : report.snapshotIndex < start)
    (hthrough : through ≤ report.commitIndex) :
    (window report start through).map Entry.index =
      List.range' start (through + 1 - start) := by
  have hfilter := List.filter_map
    (p := fun i => !decide (i < start ∨ i > through)) (f := Entry.index) (l := report.entries)
  rw [h.consecutive] at hfilter
  refine hfilter.symm.trans ?_
  have hreaches := h.reaches
  have hsorted : ∀ s n, (List.range' s n).Pairwise (· < ·) := fun s n =>
    List.pairwise_lt_range' 1
  refine ((hsorted _ _).filter _).eq_of_mem_iff (hsorted _ _) fun i => ?_
  simp only [List.mem_filter, List.mem_range'_1, Bool.not_eq_true', decide_eq_false_iff_not,
    not_or, not_lt, gt_iff_lt]
  omega

theorem find?_consecutive
    (es : List Entry) {s : Nat} (k : Nat)
    (h : es.map Entry.index = List.range' s es.length) :
    es.find? (fun e => decide (e.index = s + k)) = es[k]? := by
  induction es generalizing s k with
  | nil =>
      rfl
  | cons e es ih =>
      rw [List.map_cons, List.length_cons, List.range'_succ] at h
      obtain ⟨hindex, hrest⟩ := List.cons.inj h
      cases k with
      | zero =>
          rw [List.find?_cons_of_pos (by simpa using hindex)]
          rfl
      | succ k =>
          rw [List.find?_cons_of_neg (by simp [hindex]), List.getElem?_cons_succ,
            ← ih k hrest, show s + (k + 1) = s + 1 + k by omega]

/-- An entry of the report at a position of the window. -/
theorem getElem?_window
    (h : report.Valid)
    (hstart : report.snapshotIndex < start)
    (hthrough : through ≤ report.commitIndex)
    {k : Nat} (hk : start + k ≤ through) :
    (window report start through)[k]? = report.entryAt (start + k) := by
  have hindexes := window_indexes h hstart hthrough
  have hlength : (window report start through).length = through + 1 - start := by
    rw [← List.length_map Entry.index, hindexes, List.length_range']
  rw [← hlength] at hindexes
  rw [← find?_consecutive _ k hindexes, window, List.find?_filter]
  refine congrArg (fun p => report.entries.find? p) (funext fun e => ?_)
  simp only [Bool.not_eq_true', decide_eq_false_iff_not, decide_eq_true_eq, decide_eq_decide]
  omega

/-- The two reports of a comparison: they cover the window. -/
structure Covers (report : InspectLogResponse) (start through : Nat) : Prop where
  valid : report.Valid
  start : report.snapshotIndex < start
  through : through ≤ report.commitIndex

/-- Texts without a difference belong to reports that agree in the window. -/
theorem entryAt_eq_of_describeEntries
    (h : Covers report start through)
    (h' : Covers report' start through)
    (heq : describeEntries report start through = describeEntries report' start through)
    {i : Nat} (hlow : start ≤ i) (hhigh : i ≤ through) :
    report.entryAt i = report'.entryAt i := by
  rw [describeEntries_eq, describeEntries_eq] at heq
  have hwindow := List.map_injective_iff.mpr describe_injective heq
  obtain ⟨k, rfl⟩ := Nat.exists_eq_add_of_le hlow
  rw [← getElem?_window h.valid h.start h.through hhigh,
    ← getElem?_window h'.valid h'.start h'.through hhigh, hwindow]

/-- The first difference of the texts is the first one of the entries. -/
theorem entryAt_of_firstDifference
    (h : Covers report start through)
    (h' : Covers report' start through)
    {k : Nat}
    (hfirst : firstDifference (describeEntries report start through)
      (describeEntries report' start through) = some k) :
    start + k ≤ through ∧ report.entryAt (start + k) ≠ report'.entryAt (start + k) ∧
      ∀ i, start ≤ i → i < start + k → report.entryAt i = report'.entryAt i := by
  obtain ⟨hne, hbefore⟩ := firstDifference_eq_some hfirst
  have hlength : ∀ r, Covers r start through →
      (describeEntries r start through).length = through + 1 - start := by
    intro r hr
    rw [describeEntries_eq, List.length_map, ← List.length_map Entry.index,
      window_indexes hr.valid hr.start hr.through, List.length_range']
  have hk : start + k ≤ through := by
    by_contra hlarge
    rw [List.getElem?_eq_none (by rw [hlength report h]; omega),
      List.getElem?_eq_none (by rw [hlength report' h']; omega)] at hne
    exact hne rfl
  refine ⟨hk, fun heq => hne ?_, fun i hlow hhigh => ?_⟩
  · rw [describeEntries_eq, describeEntries_eq, List.getElem?_map, List.getElem?_map,
      getElem?_window h.valid h.start h.through hk,
      getElem?_window h'.valid h'.start h'.through hk, heq]
  · obtain ⟨j, rfl⟩ := Nat.exists_eq_add_of_le hlow
    have heq := hbefore j (by omega)
    rw [describeEntries_eq, describeEntries_eq, List.getElem?_map, List.getElem?_map,
      getElem?_window h.valid h.start h.through (by omega),
      getElem?_window h'.valid h'.start h'.through (by omega)] at heq
    exact Option.map_injective describe_injective heq

end Window

section Range

variable {reports : Reports}

/-- The index is above the highest snapshot position and not above the lowest commit
index. -/
def InWindow (reports : Reports) (i : Nat) : Prop :=
  ∀ r ∈ reports, r.2.snapshotIndex < i ∧ i ≤ r.2.commitIndex

/-- The bounds that the loop of `comparableRange` has come to. -/
theorem foldl_range
    (reports : Reports) (range : Nat × Nat) (i : Nat) :
    let range' := reports.foldl
      (fun range report =>
        (max range.1 report.2.snapshotIndex, min range.2 report.2.commitIndex)) range
    (range'.1 < i ↔ range.1 < i ∧ ∀ r ∈ reports, r.2.snapshotIndex < i) ∧
      (i ≤ range'.2 ↔ i ≤ range.2 ∧ ∀ r ∈ reports, i ≤ r.2.commitIndex) := by
  induction reports generalizing range with
  | nil =>
      simp
  | cons report reports ih =>
      obtain ⟨hlow, hhigh⟩ := ih
        (max range.1 report.2.snapshotIndex, min range.2 report.2.commitIndex)
      simp only [List.foldl_cons]
      rw [hlow, hhigh]
      simp only [List.forall_mem_cons, max_lt_iff, le_min_iff, and_assoc, and_self]

/-- The range covers what all the reports cover, and no more. -/
theorem comparableRange_spec
    (hvalid : ∀ r ∈ reports, r.2.Valid)
    (hsnapshot : ∀ r ∈ reports, r.2.snapshotIndex + 1 < 2 ^ 64) :
    (∀ r ∈ reports, Covers r.2 (comparableRange reports).1 (comparableRange reports).2) ∧
      (comparableRange reports).2 < 2 ^ 64 ∧
      (reports ≠ [] → ∀ i, InWindow reports i ↔
        (comparableRange reports).1 ≤ i ∧ i ≤ (comparableRange reports).2) := by
  have hspec := foldl_range reports (0, 2 ^ 64 - 1)
  unfold comparableRange
  simp only at hspec ⊢
  generalize reports.foldl (fun range report =>
    (max range.1 report.2.snapshotIndex, min range.2 report.2.commitIndex))
    (0, 2 ^ 64 - 1) = range at hspec ⊢
  -- the highest snapshot position has a successor
  have hlast : range.1 < 2 ^ 64 - 1 :=
    (hspec (2 ^ 64 - 1)).1.mpr ⟨by omega, fun r hr => by have := hsnapshot r hr; omega⟩
  rw [Nat.mod_eq_of_lt (by omega : range.1 + 1 < 2 ^ 64)]
  have hsnap := ((hspec (range.1 + 1)).1.mp (Nat.lt_succ_self _)).2
  obtain ⟨hmax, hcommit⟩ := (hspec range.2).2.mp le_rfl
  refine ⟨fun r hr => ⟨hvalid r hr, hsnap r hr, hcommit r hr⟩, by omega, fun hne i => ?_⟩
  constructor
  · intro hi
    obtain ⟨r, hr⟩ := List.exists_mem_of_ne_nil reports hne
    have hlow : 0 < i := Nat.zero_lt_of_lt (hi r hr).1
    have hhigh : i ≤ 2 ^ 64 - 1 := by
      have := (hi r hr).2
      have := (hvalid r hr).reaches
      have := (hvalid r hr).fits
      omega
    exact ⟨(hspec i).1.mpr ⟨hlow, fun r hr => (hi r hr).1⟩,
      (hspec i).2.mpr ⟨hhigh, fun r hr => (hi r hr).2⟩⟩
  · rintro ⟨hlow, hhigh⟩ r hr
    exact ⟨lt_of_lt_of_le (hsnap r hr) hlow, hhigh.trans (hcommit r hr)⟩

end Range

/-- Reports that are compared without a difference have the same texts. -/
theorem compare_eq_none
    {ranged visited : Reports}
    (h : compare ranged visited = none) :
    ∀ r ∈ visited, ∀ r' ∈ visited,
      describeEntries r.2 (comparableRange ranged).1 (comparableRange ranged).2 =
        describeEntries r'.2 (comparableRange ranged).1 (comparableRange ranged).2 := by
  cases visited with
  | nil =>
      simp
  | cons report reports =>
      have hreference := compareWith_eq_none h
      have hall : ∀ r ∈ report :: reports,
          describeEntries r.2 (comparableRange ranged).1 (comparableRange ranged).2 =
            describeEntries report.2 (comparableRange ranged).1 (comparableRange ranged).2 :=
        List.forall_mem_cons.mpr ⟨rfl, hreference⟩
      intro r hr r' hr'
      rw [hall r hr, hall r' hr']

theorem compare_eq_some
    {ranged visited : Reports} {d : Difference}
    (h : compare ranged visited = some d) :
    ∃ r ∈ visited, ∃ r' ∈ visited, ∃ k,
      firstDifference
        (describeEntries r.2 (comparableRange ranged).1 (comparableRange ranged).2)
        (describeEntries r'.2 (comparableRange ranged).1 (comparableRange ranged).2) =
          some k ∧
        d = ⟨r.1, r'.1, ((comparableRange ranged).1 + k) % 2 ^ 64⟩ := by
  cases visited with
  | nil =>
      cases h
  | cons report reports =>
      obtain ⟨r', hr', k, hfirst, rfl⟩ := compareWith_eq_some h
      exact ⟨report, List.mem_cons_self, r', List.mem_cons_of_mem _ hr', k, hfirst, rfl⟩

section Orders

variable {reports ranged visited : Reports}

/-- The range of the reports in another order. -/
theorem comparableRange_perm
    (hranged : ranged.Perm reports)
    (hvalid : ∀ r ∈ reports, r.2.Valid)
    (hsnapshot : ∀ r ∈ reports, r.2.snapshotIndex + 1 < 2 ^ 64) :
    (comparableRange ranged).2 < 2 ^ 64 ∧ ∀ r ∈ reports,
      Covers r.2 (comparableRange ranged).1 (comparableRange ranged).2 ∧
        ∀ i, InWindow reports i ↔
          (comparableRange ranged).1 ≤ i ∧ i ≤ (comparableRange ranged).2 := by
  obtain ⟨hcovers, hfits, hwindow⟩ := comparableRange_spec
    (fun r hr => hvalid r (hranged.mem_iff.mp hr))
    (fun r hr => hsnapshot r (hranged.mem_iff.mp hr))
  refine ⟨hfits, fun r hr => ?_⟩
  have hr' := hranged.mem_iff.mpr hr
  refine ⟨hcovers r hr', fun i => ?_⟩
  rw [← hwindow (List.ne_nil_of_mem hr') i]
  constructor
  · exact fun h r hr => h r (hranged.mem_iff.mp hr)
  · exact fun h r hr => h r (hranged.mem_iff.mpr hr)

/-- A difference that is reported is the first one of the two nodes it names. -/
theorem compare_finds
    (hranged : ranged.Perm reports)
    (hvisited : visited.Perm reports)
    (hvalid : ∀ r ∈ reports, r.2.Valid)
    (hsnapshot : ∀ r ∈ reports, r.2.snapshotIndex + 1 < 2 ^ 64)
    {d : Difference}
    (hd : compare ranged visited = some d) :
    ∃ r ∈ reports, ∃ r' ∈ reports, r.1 = d.reference ∧ r'.1 = d.address ∧
      InWindow reports d.index ∧ r.2.entryAt d.index ≠ r'.2.entryAt d.index ∧
      ∀ i, InWindow reports i → i < d.index → r.2.entryAt i = r'.2.entryAt i := by
  obtain ⟨hfits, hrange⟩ := comparableRange_perm hranged hvalid hsnapshot
  obtain ⟨r, hr, r', hr', k, hfirst, rfl⟩ := compare_eq_some hd
  rw [hvisited.mem_iff] at hr hr'
  obtain ⟨hcovers, hwindow⟩ := hrange r hr
  obtain ⟨hk, hne, hbefore⟩ :=
    entryAt_of_firstDifference hcovers (hrange r' hr').1 hfirst
  rw [Nat.mod_eq_of_lt (by omega)]
  exact ⟨r, hr, r', hr', rfl, rfl, (hwindow _).mpr ⟨Nat.le_add_right _ _, hk⟩, hne,
    fun i hi hlt => hbefore i ((hwindow i).mp hi).1 hlt⟩

end Orders

section Wrapped

variable {reports ranged visited : Reports} {report : InspectLogResponse}

/-- From the start 0 on, nothing of a report is compared exactly when its snapshot covers
the window. -/
theorem describeEntries_zero_eq_nil_iff
    (h : report.Valid)
    {through : Nat} (hthrough : through ≤ report.commitIndex) :
    describeEntries report 0 through = [] ↔ through ≤ report.snapshotIndex := by
  have hmem : ∀ i, (∃ e ∈ report.entries, e.index = i) ↔
      report.snapshotIndex + 1 ≤ i ∧ i < report.snapshotIndex + 1 + report.entries.length := by
    intro i
    rw [← List.mem_range'_1, ← h.consecutive, List.mem_map]
  have hreaches := h.reaches
  rw [describeEntries_eq, List.map_eq_nil_iff, window, List.filter_eq_nil_iff]
  simp only [Bool.not_eq_true', decide_eq_false_iff_not, not_or, not_lt, gt_iff_lt, not_and,
    not_le, Nat.zero_le, forall_const]
  constructor
  · intro hall
    by_contra hlt
    obtain ⟨e, he, hindex⟩ := (hmem (report.snapshotIndex + 1)).mpr ⟨le_rfl, by omega⟩
    have := hall e he
    omega
  · intro hle e he
    have := (hmem e.index).mp ⟨e, he, rfl⟩
    omega

/-- With a snapshot at the last position there is, the window starts at 0, although it is
empty. -/
theorem comparableRange_wrapped
    (hranged : ranged.Perm reports)
    (hvalid : ∀ r ∈ reports, r.2.Valid)
    {last : String × InspectLogResponse}
    (hlast : last ∈ reports)
    (hwraps : last.2.snapshotIndex + 1 = 2 ^ 64) :
    (comparableRange ranged).1 = 0 ∧ (∀ i, ¬ InWindow reports i) ∧
      (∀ r ∈ reports, (comparableRange ranged).2 ≤ r.2.commitIndex) ∧
      ∀ i, (∀ r ∈ reports, i ≤ r.2.commitIndex) → i < 2 ^ 64 →
        i ≤ (comparableRange ranged).2 := by
  have hspec := foldl_range ranged (0, 2 ^ 64 - 1)
  unfold comparableRange
  simp only at hspec ⊢
  generalize ranged.foldl (fun range report =>
    (max range.1 report.2.snapshotIndex, min range.2 report.2.commitIndex))
    (0, 2 ^ 64 - 1) = range at hspec ⊢
  have hbelow : range.1 < 2 ^ 64 := by
    refine (hspec (2 ^ 64)).1.mpr ⟨by omega, fun r hr => ?_⟩
    have := (hvalid r (hranged.mem_iff.mp hr)).fits
    omega
  have habove := ((hspec (range.1 + 1)).1.mp (Nat.lt_succ_self _)).2 last
    (hranged.mem_iff.mpr hlast)
  have hfits := (hvalid last hlast).fits
  have hreaches := (hvalid last hlast).reaches
  refine ⟨?_, fun i hi => ?_, fun r hr => ?_, fun i hi hlt => ?_⟩
  · rw [show range.1 + 1 = 2 ^ 64 by omega, Nat.mod_self]
  · have := hi last hlast
    omega
  · exact ((hspec range.2).2.mp le_rfl).2 r (hranged.mem_iff.mpr hr)
  · exact (hspec i).2.mpr ⟨by omega, fun r hr => hi r (hranged.mem_iff.mp hr)⟩

/-- With a snapshot at the last position there is, no difference is found exactly when
every snapshot covers the lowest commit index. -/
theorem compare_wrapped
    (hranged : ranged.Perm reports)
    (hvisited : visited.Perm reports)
    (hvalid : ∀ r ∈ reports, r.2.Valid)
    {last : String × InspectLogResponse}
    (hlast : last ∈ reports)
    (hwraps : last.2.snapshotIndex + 1 = 2 ^ 64) :
    compare ranged visited = none ↔
      ∀ r ∈ reports, ∃ r' ∈ reports, r'.2.commitIndex ≤ r.2.snapshotIndex := by
  obtain ⟨hstart, -, hthrough, hlargest⟩ :=
    comparableRange_wrapped hranged hvalid hlast hwraps
  have hnil : ∀ r ∈ reports,
      (describeEntries r.2 (comparableRange ranged).1 (comparableRange ranged).2 = [] ↔
        (comparableRange ranged).2 ≤ r.2.snapshotIndex) := by
    intro r hr
    rw [hstart]
    exact describeEntries_zero_eq_nil_iff (hvalid r hr) (hthrough r hr)
  have hreaches := (hvalid last hlast).reaches
  have hfits := (hvalid last hlast).fits
  constructor
  · intro hnone r hr
    -- the last position has nothing to compare, so nobody else has
    have htexts := compare_eq_none hnone r (hvisited.mem_iff.mpr hr) last
      (hvisited.mem_iff.mpr hlast)
    rw [(hnil last hlast).mpr ((hthrough last hlast).trans (by omega)), hnil r hr] at htexts
    by_contra hno
    push Not at hno
    have := hlargest (r.2.snapshotIndex + 1) hno (by
      have := hno last hlast
      omega)
    omega
  · intro hcovered
    cases hcompare : compare ranged visited with
    | none =>
        rfl
    | some d =>
        obtain ⟨r, hr, r', hr', k, hfirst, -⟩ := compare_eq_some hcompare
        have hempty : ∀ r ∈ visited,
            describeEntries r.2 (comparableRange ranged).1 (comparableRange ranged).2 = [] := by
          intro r hr
          rw [hvisited.mem_iff] at hr
          obtain ⟨r', hr', hle⟩ := hcovered r hr
          exact (hnil r hr).mpr ((hthrough r' hr').trans hle)
        rw [hempty r hr, hempty r' hr'] at hfirst
        cases hfirst

end Wrapped

/-- A difference is found exactly when two reports differ in the window, and it is the
first one of the two nodes it names. -/
structure Exact (reports ranged visited : Reports) : Prop where
  found : (∃ d, compare ranged visited = some d) ↔
    ∃ r ∈ reports, ∃ r' ∈ reports, ∃ i,
      InWindow reports i ∧ r.2.entryAt i ≠ r'.2.entryAt i
  first : ∀ d, compare ranged visited = some d →
    ∃ r ∈ reports, ∃ r' ∈ reports, r.1 = d.reference ∧ r'.1 = d.address ∧
      InWindow reports d.index ∧ r.2.entryAt d.index ≠ r'.2.entryAt d.index ∧
      ∀ i, InWindow reports i → i < d.index → r.2.entryAt i = r'.2.entryAt i

/-- As long as the highest snapshot position has a successor, the comparison is exact. -/
theorem exact_of_successors
    {reports ranged visited : Reports}
    (hranged : ranged.Perm reports)
    (hvisited : visited.Perm reports)
    (hvalid : ∀ r ∈ reports, r.2.Valid)
    (hsnapshot : ∀ r ∈ reports, r.2.snapshotIndex + 1 < 2 ^ 64) :
    Exact reports ranged visited := by
  refine ⟨⟨?_, ?_⟩, fun d hd => compare_finds hranged hvisited hvalid hsnapshot hd⟩
  · rintro ⟨d, hd⟩
    obtain ⟨r, hr, r', hr', -, -, hindex, hne, -⟩ :=
      compare_finds hranged hvisited hvalid hsnapshot hd
    exact ⟨r, hr, r', hr', d.index, hindex, hne⟩
  · rintro ⟨r, hr, r', hr', i, hi, hne⟩
    obtain ⟨-, hrange⟩ := comparableRange_perm hranged hvalid hsnapshot
    obtain ⟨hcovers, hwindow⟩ := hrange r hr
    obtain ⟨hlow, hhigh⟩ := (hwindow i).mp hi
    cases hcompare : compare ranged visited with
    | none =>
        have heq := compare_eq_none hcompare r (hvisited.mem_iff.mpr hr) r'
          (hvisited.mem_iff.mpr hr')
        exact absurd (entryAt_eq_of_describeEntries hcovers (hrange r' hr').1 heq hlow hhigh)
          hne
    | some d =>
        exact ⟨d, rfl⟩

/-- In whatever order the reports are iterated, the comparison is exact if every snapshot
position has a successor, or if every snapshot covers the lowest commit index, so that there
is nothing to compare; and only then. -/
theorem compare_sound_complete
    (reports ranged visited : Reports)
    (hranged : ranged.Perm reports)
    (hvisited : visited.Perm reports)
    (hvalid : ∀ r ∈ reports, r.2.Valid) :
    Exact reports ranged visited ↔
      (∀ r ∈ reports, r.2.snapshotIndex + 1 < 2 ^ 64) ∨
      ∀ r ∈ reports, ∃ r' ∈ reports, r'.2.commitIndex ≤ r.2.snapshotIndex := by
  by_cases hsnapshot : ∀ r ∈ reports, r.2.snapshotIndex + 1 < 2 ^ 64
  · exact iff_of_true (exact_of_successors hranged hvisited hvalid hsnapshot) (Or.inl hsnapshot)
  · rw [or_iff_right hsnapshot]
    push Not at hsnapshot
    obtain ⟨last, hlast, hle⟩ := hsnapshot
    have hwraps : last.2.snapshotIndex + 1 = 2 ^ 64 := by
      have := (hvalid last hlast).fits
      omega
    have hempty := (comparableRange_wrapped hranged hvalid hlast hwraps).2.1
    rw [← compare_wrapped hranged hvisited hvalid hlast hwraps]
    constructor
    · intro hexact
      by_contra hsome
      obtain ⟨r, -, r', -, i, hi, -⟩ :=
        hexact.found.mp (Option.ne_none_iff_exists'.mp hsome)
      exact hempty i hi
    · intro hnone
      refine ⟨⟨by simp [hnone], ?_⟩, by simp [hnone]⟩
      rintro ⟨r, -, r', -, i, hi, -⟩
      exact absurd hi (hempty i)

section Samples

/-- What a node reports that has a log and nothing else. -/
def reportOf (commitIndex snapshotIndex : Nat) (entries : List Entry) : InspectLogResponse :=
  ⟨"", .follower, 1, commitIndex, commitIndex, snapshotIndex, entries, []⟩

/-- Three nodes, the second with a snapshot and the third with another entry 3. -/
def threeReports : Reports :=
  [("a", reportOf 3 0 [⟨1, 1, [65]⟩, ⟨2, 1, [47]⟩, ⟨3, 1, [65]⟩]),
    ("b", reportOf 3 1 [⟨2, 1, [47]⟩, ⟨3, 1, [65]⟩, ⟨4, 2, [65]⟩]),
    ("c", reportOf 4 0 [⟨1, 1, [65]⟩, ⟨2, 1, [47]⟩, ⟨3, 2, [65]⟩, ⟨4, 2, [65]⟩])]

theorem compare_sound_complete_threeReports :
    compare threeReports threeReports.reverse = some ⟨"c", "b", 3⟩ ∧
      Exact threeReports threeReports threeReports.reverse :=
  ⟨by decide +kernel,
    (compare_sound_complete threeReports threeReports threeReports.reverse (List.Perm.refl _)
      (List.reverse_perm _) (by decide)).mpr (Or.inl (by decide))⟩

/-- A node whose snapshot is at the last position there is, and one without a snapshot. -/
def lastReports : Reports :=
  [("a", reportOf (2 ^ 64 - 1) (2 ^ 64 - 1) []), ("b", reportOf 1 0 [⟨1, 1, [65]⟩])]

/-- The start of the window wraps around to 0.  No index is in the window, and a
difference is reported at an entry 0 that does not exist. -/
theorem compare_wraps :
    (∀ r ∈ lastReports, r.2.Valid) ∧ (∀ i, ¬ InWindow lastReports i) ∧
      compare lastReports lastReports = some ⟨"a", "b", 0⟩ := by
  refine ⟨by decide, fun i hi => ?_, by decide +kernel⟩
  have hlow := (hi ("a", reportOf (2 ^ 64 - 1) (2 ^ 64 - 1) []) List.mem_cons_self).1
  have hhigh := (hi ("b", reportOf 1 0 [⟨1, 1, [65]⟩]) (by decide)).2
  simp only [reportOf] at hlow hhigh
  omega

end Samples

end Ctl

section Nodes

variable {n : Node} {o : Options} {l : List Entry}

theorem Node.inspectLog_entries
    (hl : n.store.Stores l) :
    (n.inspectLog o).entries = l.drop n.store.snapshotIndex := by
  rw [← hl.entriesFrom_all, Node.inspectLog, Store.entriesFrom_eq, Store.entriesFrom_eq,
    max_self, max_eq_right (by omega)]

theorem Node.inspectLog_indexes
    (hl : n.store.Stores l) :
    (n.inspectLog o).entries.map Entry.index =
      List.range' (n.store.snapshotIndex + 1) (n.inspectLog o).entries.length := by
  have hindexes := hl.ordered.entriesFrom_all_indexes
  rw [hl.entriesFrom_all, hl.length] at hindexes
  rw [Node.inspectLog_entries hl, hindexes, List.length_drop]

/-- The report of a node whose commit index is in its log. -/
theorem Node.inspectLog_valid
    (hl : n.store.Stores l)
    (hcommit : n.commitIndex ≤ l.length)
    (hfits : l.length < 2 ^ 64) :
    (n.inspectLog o).Valid := by
  have hsnapshot : n.store.snapshotIndex ≤ l.length := hl.length ▸ hl.ordered.snapshotIndex_le
  refine ⟨Node.inspectLog_indexes hl, ?_, ?_⟩
  · rw [Node.inspectLog_entries hl, List.length_drop]
    simp only [Node.inspectLog]
    omega
  · rw [Node.inspectLog_entries hl, List.length_drop]
    simp only [Node.inspectLog]
    omega

theorem Node.inspectLog_entryAt
    (hl : n.store.Stores l)
    {i : Nat} (hi : n.store.snapshotIndex < i) :
    (n.inspectLog o).entryAt i = l[i - 1]? := by
  have hfind := Ctl.find?_consecutive _ (i - (n.store.snapshotIndex + 1))
    (Node.inspectLog_indexes (o := o) hl)
  rw [show n.store.snapshotIndex + 1 + (i - (n.store.snapshotIndex + 1)) = i by omega] at hfind
  rw [InspectLogResponse.entryAt, hfind, Node.inspectLog_entries hl, List.getElem?_drop,
    show n.store.snapshotIndex + (i - (n.store.snapshotIndex + 1)) = i - 1 by omega]

/-- In the window of its report, a node shows what the cluster has committed. -/
theorem Node.inspectLog_committed
    {m : List Entry}
    (hl : n.store.Stores l)
    (hle : n.commitIndex ≤ l.length)
    (hm : l.take n.commitIndex <+: m)
    {i : Nat} (hi : n.store.snapshotIndex < i) (hi' : i ≤ n.commitIndex) :
    (n.inspectLog o).entryAt i = m[i - 1]? := by
  have hlt : i - 1 < l.length := by omega
  have hat : (l.take n.commitIndex)[i - 1]? = some l[i - 1] := by
    rw [List.getElem?_take_of_lt (by omega), List.getElem?_eq_getElem hlt]
  rw [Node.inspectLog_entryAt hl hi, List.getElem?_eq_getElem hlt, getElem?_prefix_eq hm hat]

end Nodes

namespace Cluster

section Moments

variable {cfg : Config} {as : List Action} {c c' : Cluster} {σ σ' : State String Entry}

/-- What the nodes of a cluster have committed is committed in the abstract state. -/
def Shown (cfg : Config) (σ : State String Entry) (c : Cluster) : Prop :=
  ∀ x, ∃ l t, (c.node x).store.Stores l ∧ (c.node x).commitIndex ≤ l.length ∧
    CommittedBy Entry.term cfg.Quorum σ t (l.take (c.node x).commitIndex)

theorem Refines.shown
    (h : Refines cfg σ c) :
    c.Shown cfg σ :=
  fun x => ⟨_, _, (h.nodes x).log, (h.nodes x).commit_le, (h.nodes x).committed⟩

theorem Shown.mono
    (h : c.Shown cfg σ)
    (hg : Grows σ σ') :
    c.Shown cfg σ' := by
  intro x
  obtain ⟨l, t, hstores, hle, hcommitted⟩ := h x
  exact ⟨l, t, hstores, hle, hg.committed le_rfl hcommitted⟩

/-- What was committed at any moment of a run is committed at its end. -/
theorem exec_shown
    (halong : Along cfg Followable init as)
    (hexec : init.exec cfg as = some c) :
    c.Threads cfg ∧ ∃ g σ, Elections cfg g c ∧ Refines cfg σ c ∧
      ∀ as' c', as' <+: as → init.exec cfg as' = some c' → c'.Shown cfg σ := by
  induction as using List.reverseRecOn generalizing c with
  | nil =>
      cases hexec
      refine ⟨threads_init, _, _, elections_init, refines_init, fun as' c' has' hc' => ?_⟩
      rw [List.prefix_nil.mp has'] at hc'
      cases hc'
      exact refines_init.shown
  | append_singleton as a ih =>
      obtain ⟨hbefore, hlast⟩ := along_append halong
      have hsplit := hexec
      rw [exec_append] at hsplit
      obtain ⟨c₁, hexec₁, hstep⟩ := Option.bind_eq_some_iff.mp hsplit
      obtain ⟨hthreads, g, σ, hvotes, hrefines, hshown⟩ := ih hbefore hexec₁
      -- the last step only adds to what is committed
      obtain ⟨hthreads', g', σ', hvotes', hrefines', hshown'⟩ :=
        exec_refines_from
          (P := fun σ _ => ∀ as' c', as' <+: as → init.exec cfg as' = some c' →
            c'.Shown cfg σ)
          (fun _ _ h => h) (by
            intro g σ c a c' hthreads hvotes hrefines hok hc' hshown
            obtain ⟨x, ls, T, -⟩ : c.Next cfg False a c' :=
              step_next hthreads (fun hfail => hok.commits hfail) hok.terms hc'
            obtain ⟨σ', hpath, -⟩ := hrefines.path (Q := fun _ _ => True) hok hthreads hvotes T
              trivial fun _ _ _ _ _ _ _ _ => trivial
            exact ⟨x, ls, σ', T, hpath, fun as' c' has' hc' =>
              (hshown as' c' has' hc').mono (Steps.grows hrefines.inv hpath.steps)⟩)
          hthreads ⟨g, σ, hvotes, hrefines, hshown⟩ (hlast c₁ hexec₁) hstep
      refine ⟨hthreads', g', σ', hvotes', hrefines', fun as' c' has' hc' => ?_⟩
      rcases List.prefix_concat_iff.mp has' with rfl | has'
      · rw [hexec] at hc'
        cases hc'
        exact hrefines'.shown
      · exact hshown' as' c' has' hc'

end Moments

end Cluster

/-- A node that was asked for its log, and the state of the cluster when it answered. -/
structure Asked where
  address : String
  id : String
  moment : Cluster

/-- The reports of nodes that were asked one after the other. -/
def Cluster.reports (cfg : Config) (asked : List Asked) : Reports :=
  asked.map fun a => (a.address, (a.moment.node a.id).inspectLog (cfg.options a.id))

/-- The nodes of a cluster whose run follows the protocol are never reported to differ,
whenever in the run each of them answers. -/
theorem Cluster.compare_never_differs
    {cfg : Config} {as : List Action} {c : Cluster}
    (halong : Cluster.Along cfg Cluster.Followable Cluster.init as)
    (hexec : Cluster.init.exec cfg as = some c)
    {asked : List Asked}
    (hmoments : ∀ a ∈ asked, ∃ as', as' <+: as ∧
      Cluster.init.exec cfg as' = some a.moment)
    (hfits : ∀ a ∈ asked, (a.moment.node a.id).store.lastIndex + 1 < 2 ^ 64)
    {ranged visited : Reports}
    (hranged : ranged.Perm (Cluster.reports cfg asked))
    (hvisited : visited.Perm (Cluster.reports cfg asked)) :
    Ctl.compare ranged visited = none := by
  obtain ⟨-, -, σ, -, hrefines, hshown⟩ := Cluster.exec_shown halong hexec
  have hlogs : ∀ a ∈ asked, ∃ l, (a.moment.node a.id).store.Stores l ∧
      (a.moment.node a.id).commitIndex ≤ l.length ∧
      ∃ t, CommittedBy Entry.term cfg.Quorum σ t
        (l.take (a.moment.node a.id).commitIndex) := by
    intro a ha
    obtain ⟨as', has', hc'⟩ := hmoments a ha
    obtain ⟨l, t, hstores, hle, hcommitted⟩ := hshown as' a.moment has' hc' a.id
    exact ⟨l, hstores, hle, t, hcommitted⟩
  choose! log hstores hle hcommitted using hlogs
  obtain ⟨m, -, -, hpart⟩ := hrefines.commits
    (asked.map fun a => (log a).take (a.moment.node a.id).commitIndex) (by
      intro l hl
      obtain ⟨a, ha, rfl⟩ := List.mem_map.mp hl
      exact hcommitted a ha)
  have hvalid : ∀ r ∈ Cluster.reports cfg asked,
      r.2.Valid ∧ r.2.snapshotIndex + 1 < 2 ^ 64 := by
    intro r hr
    obtain ⟨a, ha, rfl⟩ := List.mem_map.mp hr
    have hlast := hfits a ha
    have hsnapshot := (hstores a ha).ordered.snapshotIndex_le
    constructor
    · refine Node.inspectLog_valid (hstores a ha) (hle a ha) ?_
      rw [← (hstores a ha).length]
      omega
    · simp only [Node.inspectLog]
      omega
  cases hcompare : Ctl.compare ranged visited with
  | none =>
      rfl
  | some d =>
      obtain ⟨r, hr, r', hr', -, -, hwindow, hne, -⟩ :=
        Ctl.compare_finds hranged hvisited (fun r hr => (hvalid r hr).1)
          (fun r hr => (hvalid r hr).2) hcompare
      -- in the window, every node has what the cluster has committed in the end
      have hentry : ∀ r ∈ Cluster.reports cfg asked,
          r.2.entryAt d.index = m[d.index - 1]? := by
        intro r hr
        obtain ⟨hlow, hhigh⟩ := hwindow r hr
        obtain ⟨a, ha, rfl⟩ := List.mem_map.mp hr
        exact Node.inspectLog_committed (hstores a ha) (hle a ha)
          (hpart _ (List.mem_map_of_mem ha)) hlow hhigh
      exact absurd ((hentry r hr).trans (hentry r' hr').symm) hne

/-- The first node answers in the middle of the run, the second at its end. -/
theorem Cluster.compare_never_differs_failover :
    ∃ c₁ c, Cluster.init.exec (trio fun _ => 0) (Cluster.failover.take 20) = some c₁ ∧
      Cluster.init.exec (trio fun _ => 0) Cluster.failover = some c ∧
      let reports := Cluster.reports (trio fun _ => 0) [⟨"n1", "a", c₁⟩, ⟨"n2", "b", c⟩]
      Ctl.compare reports reports = none := by
  have halong : Cluster.Along (trio fun _ => 0) Cluster.Followable Cluster.init
      Cluster.failover := by decide +kernel
  have hsome : ∀ k, k = 20 ∨ k = Cluster.failover.length →
      ((Cluster.init.exec (trio fun _ => 0) (Cluster.failover.take k)).map fun c =>
        decide ((c.node "a").store.lastIndex + 1 < 2 ^ 64 ∧
          (c.node "b").store.lastIndex + 1 < 2 ^ 64)) = some true := by
    rintro k (rfl | rfl) <;> decide +kernel
  obtain ⟨c₁, hexec₁, hfits₁⟩ := Option.map_eq_some_iff.mp (hsome _ (Or.inl rfl))
  obtain ⟨c, hexec, hfits⟩ := Option.map_eq_some_iff.mp (hsome _ (Or.inr rfl))
  rw [List.take_length] at hexec
  refine ⟨c₁, c, hexec₁, hexec, Cluster.compare_never_differs halong hexec ?_ ?_
    (List.Perm.refl _) (List.Perm.refl _)⟩
  · rintro a ha
    rcases List.mem_pair.mp ha with rfl | rfl
    · exact ⟨_, List.take_prefix _ _, hexec₁⟩
    · exact ⟨_, List.prefix_rfl, hexec⟩
  · rintro a ha
    rcases List.mem_pair.mp ha with rfl | rfl
    · exact (of_decide_eq_true hfits₁).1
    · exact (of_decide_eq_true hfits).2

end LogReplicator

import LogReplicator.Raft.Command
import LogReplicator.Storage.Layout

/-!
# Moving a state machine by snapshot

A snapshot taken after a prefix of the commands and installed elsewhere, followed
by the rest of the commands, is the replay of all of them.
-/

namespace LogReplicator
namespace Store

open Library

/-- Apply commands in order, the first one at index `start + 1`. -/
def applyFrom (start : Nat) : List Command → Store → Store
  | [], s => s
  | c :: cs, s => applyFrom (start + 1) cs (c.applyTo (start + 1) s)

/-- `InstallSnapshot` as one operation: decode the data, then replace the state
machine.  Data that does not decode leaves the store alone. -/
def receiveSnapshot (json : Json) (s : Store) (snapshot : Snapshot) : Option Store :=
  (decodeSnapshot json snapshot.data).map (s.installSnapshot snapshot)

section ApplyFrom

theorem kv_applyFrom
    (start : Nat) (cs : List Command) (s : Store) :
    (s.applyFrom start cs).kv = cs.foldl (fun kv c => c.applyKv kv) s.kv := by
  induction cs generalizing start s with
  | nil =>
      rfl
  | cons c cs ih =>
      rw [applyFrom, ih, Command.applyTo_eq]
      rfl

/-- Commands change the table and `last_applied`, and nothing else. -/
theorem applyFrom_eq
    (start : Nat) (cs : List Command) (s : Store)
    (hstart : s.lastApplied = start) :
    s.applyFrom start cs =
      { s with
        kv := cs.foldl (fun kv c => c.applyKv kv) s.kv
        lastApplied := start + cs.length } := by
  induction cs generalizing start s with
  | nil =>
      subst hstart
      rfl
  | cons c cs ih =>
      rw [applyFrom, ih _ _ (by rw [Command.applyTo_eq]), Command.applyTo_eq, List.length_cons]
      simp only [List.foldl_cons]
      congr 1
      omega

theorem kv_applyFrom_init
    (cs : List Command) :
    (Store.init.applyFrom 0 cs).kv = replay cs :=
  kv_applyFrom 0 cs Store.init

end ApplyFrom

section Transfer

theorem decodeSnapshot_marshal
    (json : Json) (kv : Table String String) :
    decodeSnapshot json (json.marshal kv.rows) = some kv := by
  rw [decodeSnapshot, if_neg (json.marshal_ne_nil _), json.unmarshalMap_marshal,
    Option.map_some, Table.putAll_rows]

/-- The data of a fresh snapshot decodes to the table it was taken from. -/
theorem decodeSnapshot_createSnapshot
    (json : Json) (s : Store) (index term : Nat) :
    decodeSnapshot json (s.createSnapshot json index term).loadSnapshot.data =
      some s.kv :=
  decodeSnapshot_marshal json s.kv

/-- A snapshot at any cut, installed on any store and followed by the commands
after the cut, gives the state machine of a full replay. -/
theorem snapshot_tail_eq_replay
    (json : Json) (cs : List Command) (k t : Nat)
    (hcut : k ≤ cs.length)
    (sender receiver : Store)
    (hempty : sender.kv = Table.empty) :
    ∃ received,
      receiver.receiveSnapshot json
          ((sender.applyFrom 0 (cs.take k)).createSnapshot json k t).loadSnapshot =
        some received ∧
      (received.applyFrom k (cs.drop k)).all = (Store.init.applyFrom 0 cs).all ∧
      (∀ key, (received.applyFrom k (cs.drop k)).get key =
        (Store.init.applyFrom 0 cs).get key) ∧
      ((received.applyFrom k (cs.drop k)).snapshotIndex,
        (received.applyFrom k (cs.drop k)).snapshotTerm) = (k, t) ∧
      (received.applyFrom k (cs.drop k)).loadSnapshot.lastIncludedIndex = k ∧
      (received.applyFrom k (cs.drop k)).loadSnapshot.lastIncludedTerm = t ∧
      (received.applyFrom k (cs.drop k)).lastApplied = cs.length ∧
      ∀ i ≤ k, (received.applyFrom k (cs.drop k)).logEntries.get i = none := by
  have hsent : (sender.applyFrom 0 (cs.take k)).kv = replay (cs.take k) := by
    rw [kv_applyFrom, hempty]
    rfl
  refine ⟨_, by
    rw [receiveSnapshot, decodeSnapshot_createSnapshot, Option.map_some], ?_⟩
  generalize hsnapshot :
    ((sender.applyFrom 0 (cs.take k)).createSnapshot json k t).loadSnapshot = snapshot
  have hindex : snapshot.lastIncludedIndex = k := hsnapshot ▸ rfl
  have hterm : snapshot.lastIncludedTerm = t := hsnapshot ▸ rfl
  rw [applyFrom_eq k _ _ hindex, hsent]
  -- The receiver's table is gone: only the snapshot and the tail count.
  have hkv :
      (cs.drop k).foldl (fun kv c => c.applyKv kv) (replay (cs.take k)) = replay cs := by
    rw [replay, ← List.foldl_append, List.take_append_drop]
    rfl
  refine ⟨?_, fun key => ?_, Prod.ext hindex hterm, hindex, hterm, ?_, fun i hi => ?_⟩
  · show (List.foldl _ (replay (cs.take k)) _).rows = (Store.init.applyFrom 0 cs).kv.rows
    rw [hkv, kv_applyFrom_init]
  · show (List.foldl _ (replay (cs.take k)) _).get key = (Store.init.applyFrom 0 cs).kv.get key
    rw [hkv, kv_applyFrom_init]
  · show k + (cs.drop k).length = cs.length
    rw [List.length_drop]
    omega
  · show (receiver.installSnapshot snapshot _).logEntries.get i = none
    rw [get_installSnapshot, if_pos (by omega)]

theorem snapshot_tail_eq_replay_overwritten :
    ∃ received,
      (Store.init.applySet 7 "old" "x").receiveSnapshot Json.compact
          ((Store.init.applyFrom 0
            [.setCommand "k" "1", .setCommand "m" "2"]).createSnapshot Json.compact 2
              3).loadSnapshot =
        some received ∧
      (received.applyFrom 2 [.deleteCommand "k"]).all = [("m", "2")] := by
  obtain ⟨received, hreceived, hall, -⟩ :=
    snapshot_tail_eq_replay Json.compact
      [.setCommand "k" "1", .setCommand "m" "2", .deleteCommand "k"] 2 3 (by decide)
      Store.init (Store.init.applySet 7 "old" "x") rfl
  exact ⟨received, hreceived, hall.trans (by decide)⟩

end Transfer

end Store
end LogReplicator

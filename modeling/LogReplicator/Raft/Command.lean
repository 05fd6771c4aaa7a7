import LogReplicator.Storage.Store

/-!
# Commands of the state machine

The JSON payload of a log entry (`command.go`): its encoding with `omitempty`
on the value, the checks of `decodeCommand`, and its effect on the store.
-/

namespace LogReplicator

open Library

/-- The operations `opSet` and `opDelete`. -/
inductive Op where
  | set
  | delete
deriving DecidableEq, Repr

/-- The text of an operation in the payload. -/
def Op.text : Op → String
  | .set => "set"
  | .delete => "delete"

/-- The operation a text names. -/
def Op.parse (text : String) : Option Op :=
  if text = "set" then some .set
  else if text = "delete" then some .delete
  else none

structure Command where
  op : Op
  key : String
  value : String
deriving DecidableEq, Repr

/-- Why `decodeCommand` refuses a payload. -/
inductive DecodeError where
  | malformed
  | unsupported (op : String)
  | emptyKey (op : Op)
deriving DecidableEq, Repr

namespace Command

def setCommand (key value : String) : Command :=
  ⟨.set, key, value⟩

def deleteCommand (key : String) : Command :=
  ⟨.delete, key, ""⟩

/-- The members of the struct; an empty value is omitted. -/
def members (c : Command) : Members :=
  [("op", c.op.text), ("key", c.key)] ++
    if c.value = "" then [] else [("value", c.value)]

def encode (json : Json) (c : Command) : Bytes :=
  json.marshal c.members

end Command

theorem Command.encode_ne_nil
    (json : Json) (c : Command) :
    c.encode json ≠ [] :=
  json.marshal_ne_nil c.members

/-- Decode a payload and check operation and key. -/
def decodeCommand (json : Json) (raw : Bytes) : Except DecodeError Command :=
  match json.unmarshalStruct raw with
  | none => .error .malformed
  | some d =>
      match Op.parse (d.field "op") with
      | none => .error (.unsupported (d.field "op"))
      | some op =>
          if d.field "key" = "" then .error (.emptyKey op)
          else .ok ⟨op, d.field "key", d.field "value"⟩

/-- Run the command against the state machine and move `last_applied` to
`index` in the same transaction. -/
def Command.applyTo (c : Command) (index : Nat) (s : Store) : Store :=
  match c.op with
  | .delete => s.applyDelete index c.key
  | .set => s.applySet index c.key c.value

/-- The effect of a command on the key/value table alone. -/
def Command.applyKv (c : Command) (kv : Table String String) :
    Table String String :=
  match c.op with
  | .delete => kv.deleteWhere fun k => decide (k = c.key)
  | .set => kv.put c.key c.value

theorem Command.applyTo_eq
    (c : Command) (index : Nat) (s : Store) :
    c.applyTo index s = { s with kv := c.applyKv s.kv, lastApplied := index } := by
  cases h : c.op <;> simp [applyTo, applyKv, h, Store.applySet, Store.applyDelete]

/-- The table that results from applying commands in order to an empty one. -/
def replay (cs : List Command) : Table String String :=
  cs.foldl (fun kv c => c.applyKv kv) Table.empty

theorem replay_append_singleton
    (cs : List Command) (c : Command) :
    replay (cs ++ [c]) = c.applyKv (replay cs) := by
  simp [replay]

@[simp] theorem Op.parse_text
    (op : Op) :
    Op.parse op.text = some op := by
  cases op <;> decide

/-- A command with a key survives encoding, whatever its value. -/
theorem decodeCommand_encode
    (json : Json) (c : Command)
    (hkey : c.key ≠ "") :
    decodeCommand json (c.encode json) = .ok c := by
  have hop : Members.field c.members "op" = c.op.text := by
    by_cases h : c.value = "" <;> simp [Members.field, Command.members, foldName, foldChar, h]
  have hk : Members.field c.members "key" = c.key := by
    by_cases h : c.value = "" <;> simp [Members.field, Command.members, foldName, foldChar, h]
  have hv : Members.field c.members "value" = c.value := by
    by_cases h : c.value = "" <;> simp [Members.field, Command.members, foldName, foldChar, h]
  simp [decodeCommand, Command.encode, hop, hk, hv, hkey]

end LogReplicator

import LogReplicator.Library.JsonText

/-!
# The JSON codec

`encoding/json` is used for two things: the payload of a log entry is a struct
of strings, and the data of a snapshot is a `map[string]string`.  Both are
objects whose members are strings, so the codec is modelled on lists of
members in document order.

The codec is a parameter of the development.  What the program relies on is
carried by the structure: marshalled members are read back without loss, and
the text of an object is never empty.  `Json.compact` is the codec on the
compact text `json.Marshal` writes.
-/

namespace LogReplicator

open Library

/-- Go's `[]byte`. -/
abbrev Bytes : Type := List UInt8

/-- The members of a JSON object with string values. -/
abbrev Members : Type := List (String × String)

/-- The part of `encoding/json` the program calls. -/
structure Json where
  /-- `json.Marshal` on a struct of strings or a `map[string]string`. -/
  marshal : Members → Bytes
  /-- `json.Unmarshal` into a struct of strings; `none` is an error. -/
  unmarshalStruct : Bytes → Option Members
  /-- `json.Unmarshal` into a `map[string]string`; `none` is an error. -/
  unmarshalMap : Bytes → Option Members
  unmarshalStruct_marshal : ∀ d, unmarshalStruct (marshal d) = some d
  unmarshalMap_marshal : ∀ d, unmarshalMap (marshal d) = some d
  marshal_ne_nil : ∀ d, marshal d ≠ []

attribute [simp] Json.unmarshalStruct_marshal Json.unmarshalMap_marshal
  Json.marshal_ne_nil

/-- Read and write the compact text of an object in UTF-8. -/
def Json.compact : Json where
  marshal := fun d => JsonText.utf8 (JsonText.writeObject d)
  unmarshalStruct := fun b => (JsonText.decodeUtf8 b).bind JsonText.readObject
  unmarshalMap := fun b => (JsonText.decodeUtf8 b).bind JsonText.readObject
  unmarshalStruct_marshal := by
    intro d
    rw [JsonText.decodeUtf8_utf8, Option.bind_some, JsonText.readObject_writeObject]
  unmarshalMap_marshal := by
    intro d
    rw [JsonText.decodeUtf8_utf8, Option.bind_some, JsonText.readObject_writeObject]
  marshal_ne_nil := by
    intro d h
    have hread := JsonText.decodeUtf8_utf8 (JsonText.writeObject d)
    rw [h] at hread
    cases d <;> simp [JsonText.decodeUtf8, JsonText.writeObject] at hread

/-- The letter a character of a name is compared as.  Two characters outside ASCII fold to
letters of it: the long s and the Kelvin sign. -/
def foldChar (c : Char) : Char :=
  if c.val = 0x17f then 's' else if c.val = 0x212a then 'k' else c.toLower

/-- A member sets a struct field when its name is that of the field, ignoring case. -/
def foldName (name : String) : List Char :=
  name.toList.map foldChar

/-- The value a struct field gets: that of the last member that sets it, else `""`. -/
def Members.field (d : Members) (name : String) : String :=
  ((d.filter (fun m => foldName m.1 = foldName name)).getLast?.map Prod.snd).getD ""

end LogReplicator

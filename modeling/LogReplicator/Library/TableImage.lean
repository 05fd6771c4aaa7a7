import LogReplicator.Library.Table

/-!
# Tables that differ in the names of their rows

A table can be stored under other keys and with other values, as long as the keys keep
their order.  What is read from the two tables then differs in the names only, and every
operation on the one corresponds to the operation on the other.
-/

namespace LogReplicator
namespace Library
namespace Table

universe u v u' v'

variable {κ : Type u} {ν : Type v} {κ' : Type u'} {ν' : Type v'}
variable [LinearOrder κ] [LinearOrder κ']

/-- The rows of `t'` are the rows of `t` under other names. -/
def Image (f : κ → κ') (g : ν → ν') (t : Table κ ν) (t' : Table κ' ν') : Prop :=
  t'.rows = t.rows.map fun r => (f r.1, g r.2)

variable {f : κ → κ'} {g : ν → ν'} {t : Table κ ν} {t' : Table κ' ν'}

theorem lookupRow_map
    (hf : StrictMono f) (k : κ) (rs : List (κ × ν)) :
    lookupRow (f k) (rs.map fun r => (f r.1, g r.2)) = (lookupRow k rs).map g := by
  induction rs with
  | nil =>
      rfl
  | cons r rs ih =>
      simp only [List.map_cons, lookupRow, hf.injective.eq_iff, ih]
      split_ifs <;> rfl

theorem putRow_map
    (hf : StrictMono f) (k : κ) (v : ν) (rs : List (κ × ν)) :
    putRow (f k) (g v) (rs.map fun r => (f r.1, g r.2)) =
      (putRow k v rs).map fun r => (f r.1, g r.2) := by
  induction rs with
  | nil =>
      rfl
  | cons r rs ih =>
      simp only [List.map_cons, putRow, hf.lt_iff_lt, hf.injective.eq_iff, ih]
      split_ifs <;> rfl

theorem image_empty :
    Image f g (empty : Table κ ν) empty :=
  rfl

theorem Image.get
    (h : Image f g t t')
    (hf : StrictMono f) (k : κ) :
    t'.get (f k) = (t.get k).map g := by
  unfold Table.get
  rw [h, lookupRow_map hf]

theorem Image.put
    (h : Image f g t t')
    (hf : StrictMono f) (k : κ) (v : ν) :
    Image f g (t.put k v) (t'.put (f k) (g v)) := by
  show putRow (f k) (g v) t'.rows = _
  rw [h, putRow_map hf]
  rfl

theorem Image.deleteWhere
    (h : Image f g t t')
    {p : κ → Bool} {p' : κ' → Bool}
    (hp : ∀ k, p' (f k) = p k) :
    Image f g (t.deleteWhere p) (t'.deleteWhere p') := by
  show t'.rows.filter _ = (t.rows.filter _).map _
  rw [h, List.filter_map]
  congr 1
  exact List.filter_congr fun r _ => by simp [hp]

theorem Image.select
    (h : Image f g t t')
    {p : κ → Bool} {p' : κ' → Bool}
    (hp : ∀ k, p' (f k) = p k) :
    t'.select p' = (t.select p).map fun r => (f r.1, g r.2) := by
  show t'.rows.filter _ = (t.rows.filter _).map _
  rw [h, List.filter_map]
  congr 1
  exact List.filter_congr fun r _ => by simp [hp]

theorem Image.last
    (h : Image f g t t') :
    t'.last = t.last.map fun r => (f r.1, g r.2) := by
  unfold Table.last
  rw [h, List.getLast?_map]

end Table
end Library
end LogReplicator

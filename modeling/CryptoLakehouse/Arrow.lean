import Mathlib.Data.List.Forall2
import CryptoLakehouse.Error

/-!
# Arrow batches

Schemas, columns and record batches, with the one check every write goes through:
`RecordBatch.tryNew schema columns` binds columns to a schema *by position* and checks the column
count, the data types, and the NULLs of non-nullable fields. A vector of arrays of equal length is
kept row by row (`Columns`), so the columns of a batch always have one length.

`Schema.cell` reads a row by field name, which is how every consumer reads a batch.
-/

namespace Arrow

inductive TimeUnit
  | second | millisecond | microsecond | nanosecond
deriving DecidableEq, Repr

inductive DataType
  | int32 | int64 | utf8 | float64 | boolean
  | timestamp (unit : TimeUnit) (tz : Option String)
deriving DecidableEq, Repr

/-- An `f64` by its bits: the pipeline moves prices and quantities around and never computes with
them. -/
abbrev F64 := BitVec 64

inductive Value
  | int32 (v : Int32)
  | int64 (v : Int64)
  | utf8 (v : String)
  | float64 (v : F64)
  | boolean (v : Bool)
  | timestamp (unit : TimeUnit) (tz : Option String) (v : Int64)
deriving DecidableEq

namespace Value

def dataType : Value → DataType
  | int32 _ => .int32
  | int64 _ => .int64
  | utf8 _ => .utf8
  | float64 _ => .float64
  | boolean _ => .boolean
  | timestamp unit tz _ => .timestamp unit tz

def int64? : Value → Option Int64
  | int64 v => some v
  | _ => none

def utf8? : Value → Option String
  | utf8 v => some v
  | _ => none

def float64? : Value → Option F64
  | float64 v => some v
  | _ => none

def boolean? : Value → Option Bool
  | boolean v => some v
  | _ => none

/-- The raw count of a timestamp, in whatever unit its column has. -/
def timestamp? : Value → Option Int64
  | timestamp _ _ v => some v
  | _ => none

end Value

/-- One value or NULL. -/
abbrev Cell := Option Value

abbrev Row := List Cell

structure Field where
  name : String
  dataType : DataType
  nullable : Bool
deriving DecidableEq, Repr

abbrev Schema := List Field

def Schema.names (s : Schema) : List String := s.map (·.name)

def Schema.types (s : Schema) : List DataType := s.map (·.dataType)

/-- The cell of a row under a field name (NULL when there is no such field). -/
def Schema.cell (s : Schema) (row : Row) (name : String) : Cell :=
  ((s.names.zip row).lookup name).join

/-- Each cell has its column's type. -/
def typed : List DataType → Row → Bool
  | [], [] => true
  | t :: ts, c :: cs => (c.all fun v => v.dataType == t) && typed ts cs
  | _, _ => false

/-- No NULL in a non-nullable field. -/
def nullsOk (s : Schema) (row : Row) : Bool :=
  (s.zip row).all fun fc => fc.1.nullable || fc.2.isSome

/-- A vector of arrays of one length. -/
structure Columns where
  types : List DataType
  rows : List Row
  typed : ∀ r ∈ rows, typed types r = true

structure RecordBatch where
  schema : Schema
  rows : List Row
  typed : ∀ r ∈ rows, typed schema.types r = true
  nulls : ∀ r ∈ rows, nullsOk schema r = true

namespace RecordBatch

def columns (b : RecordBatch) : Columns := ⟨b.schema.types, b.rows, b.typed⟩

def numRows (b : RecordBatch) : Nat := b.rows.length

/-- `RecordBatch::try_new`. -/
def tryNew (schema : Schema) (cols : Columns) : Except Error RecordBatch :=
  if cols.types.length = schema.length then
    if ht : cols.types = schema.types then
      if hn : ∀ r ∈ cols.rows, nullsOk schema r = true then
        .ok ⟨schema, cols.rows, fun r hr => ht ▸ cols.typed r hr, hn⟩
      else .error (.arrow .nullInRequired)
    else .error (.arrow .dataType)
  else .error (.arrow (.columnCount schema.length cols.types.length))

/-- The rows that satisfy `p`. -/
def filter (p : Row → Bool) (b : RecordBatch) : RecordBatch :=
  ⟨b.schema, b.rows.filter p, fun r hr => b.typed r (List.mem_filter.1 hr).1,
    fun r hr => b.nulls r (List.mem_filter.1 hr).1⟩

/-- `concat_batches`: the batches' columns one after the other, bound to `schema`. -/
def concatBatches (schema : Schema) (bs : List RecordBatch) : Except Error RecordBatch :=
  if h : ∀ b ∈ bs, b.schema.types = schema.types then
    tryNew schema ⟨schema.types, bs.flatMap (·.rows), fun r hr => by
      obtain ⟨b, hb, hr⟩ := List.mem_flatMap.1 hr
      exact h b hb ▸ b.typed r hr⟩
  else .error (.arrow .dataType)

section
variable {schema : Schema} {cols : Columns} {b : RecordBatch} {bs : List RecordBatch}

@[simp] theorem columns_types : b.columns.types = b.schema.types := rfl
@[simp] theorem filter_schema {p : Row → Bool} : (b.filter p).schema = b.schema := rfl
@[simp] theorem filter_rows {p : Row → Bool} : (b.filter p).rows = b.rows.filter p := rfl

/-- A successful binding: the types agree in order, no required cell is NULL, and the rows are
taken over as they are. -/
theorem tryNew_eq_ok : tryNew schema cols = .ok b ↔
    cols.types = schema.types ∧ (∀ r ∈ cols.rows, nullsOk schema r = true) ∧
      b.schema = schema ∧ b.rows = cols.rows := by
  unfold tryNew
  refine ⟨fun h => ?_, fun hx => ?_⟩
  · split at h
    · split at h
      · split at h
        · cases h
          exact ⟨‹_›, ‹_›, rfl, rfl⟩
        · cases h
      · cases h
    · cases h
  · obtain ⟨ht, hn, hs, hr⟩ := hx
    have hl : cols.types.length = schema.length := by simp [ht, Schema.types]
    rw [if_pos hl, dif_pos ht, dif_pos hn]
    obtain ⟨s, r, _, _⟩ := b
    subst hs hr
    rfl

theorem tryNew_isOk : (∃ b, tryNew schema cols = .ok b) ↔
    cols.types = schema.types ∧ ∀ r ∈ cols.rows, nullsOk schema r = true := by
  refine ⟨fun hx => ?_, fun hx => ?_⟩
  · obtain ⟨b, h⟩ := hx
    exact ⟨(tryNew_eq_ok.1 h).1, (tryNew_eq_ok.1 h).2.1⟩
  · obtain ⟨ht, hn⟩ := hx
    exact ⟨⟨schema, cols.rows, fun r hr => ht ▸ cols.typed r hr, hn⟩,
      tryNew_eq_ok.2 ⟨ht, hn, rfl, rfl⟩⟩

/-- Batches of one schema concatenate to a batch of that schema. -/
theorem concatBatches_eq_ok (h : ∀ b ∈ bs, b.schema = schema) :
    ∃ b, concatBatches schema bs = .ok b ∧ b.schema = schema ∧ b.rows = bs.flatMap (·.rows) := by
  have ht : ∀ b ∈ bs, b.schema.types = schema.types := fun b hb => by rw [h b hb]
  have hn : ∀ r ∈ bs.flatMap (·.rows), nullsOk schema r = true := fun r hr => by
    obtain ⟨b, hb, hr⟩ := List.mem_flatMap.1 hr
    exact h b hb ▸ b.nulls r hr
  refine ⟨⟨schema, bs.flatMap (·.rows), fun r hr => ?_, hn⟩, ?_, rfl, rfl⟩
  · obtain ⟨b, hb, hr⟩ := List.mem_flatMap.1 hr
    exact ht b hb ▸ b.typed r hr
  · rw [concatBatches, dif_pos ht]
    exact tryNew_eq_ok.2 ⟨rfl, hn, rfl, rfl⟩

end

end RecordBatch

end Arrow

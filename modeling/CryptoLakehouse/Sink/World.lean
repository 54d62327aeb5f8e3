import CryptoLakehouse.Sink.Pruning
import CryptoLakehouse.Lib.Fallible

/-!
# The sink and the table it writes

`Lake` is the destination table as the catalog serves it: the data files of the current snapshot.
`IcebergSink` is one writer: its view of the table's metadata, its file names and its DataFusion
session. The sink's fallible functions run in `SinkM` over the pair `World` and keep what they
changed when they fail, as `&mut self` with `?` does.

Everything the outside decides during a call (what the catalog, the object store and the query
engine answer, how the writer cuts the rows into files) is an argument: `WriteOps`, `CommitOps`.
-/

namespace Sink

open Arrow Trades

/-! ## The table -/

/-- The partition values of `identity(exchange), day(trade_ts)`. -/
structure Partition where
  exchange : Option String
  tradeTsDay : Option Int64
deriving DecidableEq

/-- `batcher-<uuid>-<counter>.parquet`. -/
structure FilePath where
  uuid : Nat
  count : Nat
deriving DecidableEq

structure DataFile where
  path : FilePath
  partition : Partition
  rows : List TradeRow
  fileSizeInBytes : Nat
deriving DecidableEq

/-- Table metadata: the schema, the files of the current snapshot, and how many snapshots there
have been. -/
structure Table where
  schema : Schema
  files : List DataFile
  snapshots : Nat

def Table.rows (t : Table) : List TradeRow := t.files.flatMap (·.rows)

/-- The table as the catalog serves it. `uuids` is the supply of `Uuid::now_v7`: every uuid in a
file name, and every one handed out, is below it. -/
structure Lake where
  table : Table
  uuids : Nat
  named : ∀ f ∈ table.files, f.path.uuid < uuids

def Lake.rows (l : Lake) : List TradeRow := l.table.rows

/-- The table as `ensure_table` creates it. -/
def Lake.created : Lake := ⟨⟨Trades.schema, [], 0⟩, 0, by simp⟩

/-- A uuid above `n` and above those of `files`. -/
def uuidBound (n : Nat) (files : List DataFile) : Nat :=
  files.foldr (fun f m => max (f.path.uuid + 1) m) n

theorem le_uuidBound (n : Nat) (files : List DataFile) : n ≤ uuidBound n files := by
  induction files with
  | nil => exact Nat.le_refl _
  | cons f files ih => exact ih.trans (Nat.le_max_right _ _)

theorem lt_uuidBound (n : Nat) {files : List DataFile} {f : DataFile} (hf : f ∈ files) :
    f.path.uuid < uuidBound n files := by
  induction files with
  | nil => cases hf
  | cons g files ih =>
    rcases List.mem_cons.1 hf with rfl | hf
    · exact Nat.lt_of_lt_of_le (Nat.lt_succ_self _) (Nat.le_max_left _ _)
    · exact Nat.lt_of_lt_of_le (ih hf) (Nat.le_max_right _ _)

/-- One more snapshot: the current files and `files`. -/
def Lake.append (l : Lake) (files : List DataFile) : Lake where
  table := { l.table with files := l.table.files ++ files, snapshots := l.table.snapshots + 1 }
  uuids := uuidBound l.uuids files
  named f hf := (List.mem_append.1 hf).elim
    (fun hf => Nat.lt_of_lt_of_le (l.named f hf) (le_uuidBound _ _)) fun hf => lt_uuidBound _ hf

/-! ## The session -/

/-- What a table name of the session stands for. -/
inductive Provider
  /-- The catalog-backed provider: it loads the table's metadata anew on every scan. -/
  | iceberg
  | memory (batch : RecordBatch)

/-- The tables registered in a DataFusion session. -/
structure Session where
  tables : List (String × Provider)

namespace Session

def names (c : Session) : List String := c.tables.map (·.1)

/-- `register_table`: an error when the name is taken. -/
def register (c : Session) (name : String) (p : Provider) : Except Error Session :=
  if name ∈ c.names then .error (.external s!"The table {name} already exists")
  else .ok ⟨c.tables ++ [(name, p)]⟩

/-- `deregister_table`. -/
def deregister (c : Session) (name : String) : Session :=
  ⟨c.tables.filter fun e => e.1 != name⟩

/-- `table`: a scan of a registered table. -/
def lookup (c : Session) (name : String) : Except Error Provider :=
  match c.tables.lookup name with
  | some p => .ok p
  | none => .error (.external s!"No table named '{name}'")

end Session

/-! ## The sink -/

structure IcebergConfig where
  commitRetries : Nat

/-- The prefix and the process-wide counter of the file names. -/
structure FileNameGen where
  uuid : Nat
  next : Nat

structure IcebergSink where
  ident : String
  table : Table
  fileNameGen : FileNameGen
  cfg : IcebergConfig
  ctx : Session

structure World where
  sink : IcebergSink
  lake : Lake

/-- `with_catalog`: opens the table, with file names of a new uuid and a session that knows the
table as `icetbl`. -/
def connect (ident : String) (cfg : IcebergConfig) (lake : Lake) : World where
  sink := {
    ident
    cfg
    table := lake.table
    fileNameGen := ⟨lake.uuids, 0⟩
    ctx := ⟨[("icetbl", .iceberg)]⟩ }
  lake := {
    table := lake.table
    uuids := lake.uuids + 1
    named := fun f hf => Nat.lt_succ_of_lt (lake.named f hf) }

/-! ## Fallible state -/

abbrev SinkM := EStateM Error World

/-- An answer of the outside, with `?`. -/
def answer {α : Type} (r : Except String α) : SinkM α := fun w =>
  match r with
  | .ok a => .ok a w
  | .error why => .error (.external why) w

/-- An answer of the outside, with `.context(text)?`. -/
def answerContext {α : Type} (r : Except String α) (text : String) : SinkM α := fun w =>
  match r with
  | .ok a => .ok a w
  | .error why => .error (.context text (.external why)) w

theorem answerContext_ok {α : Type} {a : α} {text : String} {w : World} :
    answerContext (.ok a) text w = .ok a w := rfl

end Sink

import Mathlib.Logic.Function.Basic
import CryptoLakehouse.Batcher.Settings
import CryptoLakehouse.Schema

/-!
# Provisioning

How a process finds its destination table or makes it: `ensure_table` and `probe_view_provider` in
`with_catalog`. The batcher, its init container (`--ensure-only`) and a backfill all begin with it,
may do so at once, and are started again when they fail. A machine of one catalog and the processes,
cut at every request; how a request ends comes with the action.

Nobody drops or renames a namespace or a table.
-/

namespace Provisioning

open Trades Batcher.Settings

/-! ## The catalog -/

structure TableIdent where
  namespaceIdent : String
  name : String
deriving DecidableEq

inductive Transform
  | identity | day
deriving DecidableEq

structure PartitionField where
  sourceId : Nat
  name : String
  transform : Transform
deriving DecidableEq

/-- `identity(exchange), day(trade_ts)` -/
def unboundPartitionSpec : List PartitionField :=
  [⟨idExchange, "exchange", .identity⟩, ⟨idTradeTs, "trade_ts_day", .day⟩]

structure TableCreation where
  name : String
  schema : IcebergSchema
  partitionSpec : List PartitionField
  properties : List (String × String)
deriving DecidableEq

/-- A table of the catalog: each has a uuid of its own. -/
structure Table where
  uuid : Nat
  creation : TableCreation
deriving DecidableEq

structure Catalog where
  namespaces : List String
  tables : TableIdent → Option Table
  /-- The next table's uuid. -/
  uuids : Nat

def Catalog.createNamespace (c : Catalog) (namespaceIdent : String) : Catalog :=
  { c with namespaces := c.namespaces ++ [namespaceIdent] }

def Catalog.createTable (c : Catalog) (ident : TableIdent) (creation : TableCreation) : Catalog :=
  { c with
    tables := Function.update c.tables ident (some ⟨c.uuids, creation⟩)
    uuids := c.uuids + 1 }

/-! ## A process -/

/-- Where `with_catalog` is. -/
inductive Proc
  | idle
  /-- In `load_table`. -/
  | loading
  /-- In `namespace_exists`. -/
  | checking
  /-- In `create_namespace`. -/
  | creatingNamespace
  /-- In `create_table`. -/
  | creatingTable
  /-- In `probe_view_provider`. -/
  | probing (table : Table)
  /-- It has returned `Ok`. -/
  | ready (table : Table)
  | failed (e : Error)

/-- How a request ends. -/
inductive Outcome
  /-- The catalog's answer, which may be that it refuses. -/
  | answered
  /-- Not applied: the catalog or the way to it fails. -/
  | refused (why : String)
  /-- Applied, and the answer lost. -/
  | lost (why : String)

def identOf (cfg : IcebergConfig) : TableIdent := ⟨cfg.namespaceName, cfg.table⟩

def TableIdent.display (ident : TableIdent) : String := ident.namespaceIdent ++ "." ++ ident.name

def creationOf (cfg : IcebergConfig) : TableCreation where
  name := cfg.table
  schema := tableSchema
  partitionSpec := unboundPartitionSpec
  properties := [("write.parquet.compression-codec", cfg.parquetCompression)]

/-- `.with_context(text)` on what a request reports. -/
def failedWith (text why : String) : Proc := .failed (.context text (.external why))

section
variable (cfg : IcebergConfig) (c : Catalog)

/-- The end of `load_table`: a missing table is told from any other failure. -/
def load : Outcome → Proc
  | .answered =>
    match c.tables (identOf cfg) with
    | some table => .probing table
    | none => .checking
  | .refused why => failedWith s!"failed to load table {(identOf cfg).display}" why
  | .lost why => failedWith s!"failed to load table {(identOf cfg).display}" why

def check : Outcome → Proc
  | .answered => if cfg.namespaceName ∈ c.namespaces then .creatingTable else .creatingNamespace
  | .refused why => failedWith "failed to check namespace existence" why
  | .lost why => failedWith "failed to check namespace existence" why

/-- A namespace that is there already is refused. -/
def createNamespace (outcome : Outcome) : Catalog × Proc :=
  let text := s!"failed to create namespace {cfg.namespaceName}"
  if cfg.namespaceName ∈ c.namespaces then (c, failedWith text "Namespace already exists")
  else match outcome with
    | .answered => (c.createNamespace cfg.namespaceName, .creatingTable)
    | .refused why => (c, failedWith text why)
    | .lost why => (c.createNamespace cfg.namespaceName, failedWith text why)

/-- A table that is there already is refused, and so is one without its namespace. -/
def createTable (outcome : Outcome) : Catalog × Proc :=
  let ident := identOf cfg
  let text := s!"failed to create table {ident.display}"
  if cfg.namespaceName ∉ c.namespaces then (c, failedWith text "Namespace does not exist")
  else if (c.tables ident).isSome then (c, failedWith text "Table already exists")
  else match outcome with
    | .answered =>
      (c.createTable ident (creationOf cfg), .probing ⟨c.uuids, creationOf cfg⟩)
    | .refused why => (c, failedWith text why)
    | .lost why => (c.createTable ident (creationOf cfg), failedWith text why)

/-- `probe_view_provider`: the provider lists the namespaces and their tables, and must see ours. -/
def probe (table : Table) : Outcome → Proc
  | .answered =>
    if cfg.namespaceName ∉ c.namespaces then
      .failed (.msg s!"datafusion does not see namespace {cfg.namespaceName}")
    else if (c.tables (identOf cfg)).isNone then
      .failed (.msg s!"datafusion does not see table {cfg.namespaceName}.{cfg.table}")
    else .ready table
  | .refused why => failedWith "failed to expose the iceberg catalog to datafusion" why
  | .lost why => failedWith "failed to expose the iceberg catalog to datafusion" why

/-- The end of the request that a process waits for. -/
def request (outcome : Outcome) : Proc → Option (Catalog × Proc)
  | .idle => none
  | .loading => some (c, load cfg c outcome)
  | .checking => some (c, check cfg c outcome)
  | .creatingNamespace => some (createNamespace cfg c outcome)
  | .creatingTable => some (createTable cfg c outcome)
  | .probing table => some (c, probe cfg c table outcome)
  | .ready _ => none
  | .failed _ => none

end

/-! ## The machine -/

structure State where
  catalog : Catalog
  procs : Nat → Proc
  /-- How often each process has failed, for statements about runs. -/
  failures : Nat → Nat

inductive Action
  /-- A process is started, again if it was before. -/
  | start (pid : Nat)
  /-- The request that a process waits for ends. -/
  | request (pid : Nat) (outcome : Outcome)

def Proc.isFailed : Proc → Bool
  | failed _ => true
  | _ => false

/-- One step of the processes, each with its configuration. -/
def step (cfgs : Nat → IcebergConfig) (s : State) : Action → Option State
  | .start pid => some { s with procs := Function.update s.procs pid .loading }
  | .request pid outcome =>
    (request (cfgs pid) s.catalog outcome (s.procs pid)).map fun (catalog, p) =>
      { catalog
        procs := Function.update s.procs pid p
        failures := if p.isFailed then Function.update s.failures pid (s.failures pid + 1)
          else s.failures }

/-- A catalog, and no process started. -/
def State.init (catalog : Catalog) : State := ⟨catalog, fun _ => .idle, fun _ => 0⟩

end Provisioning

import Mathlib.Data.List.Basic
import CryptoLakehouse.Error
import CryptoLakehouse.Lib.Identifier

/-!
# Table names

The tools take a table as `<namespace>.<table>`. `checkedQualifiedName` is the allow-list it has to
pass. The text is then used twice: spliced into SQL as `lk.<namespace>.<table>` (`qualified`), which
the query engine resolves, and split at the dot (`openTable`), for the catalog.
-/

namespace Query

/-- Catalog name the Iceberg catalog is registered under. -/
def CATALOG : String := "lk"

/-- Reject identifiers we are about to splice into SQL text. -/
def checkedQualifiedName (table : String) : Except Error String := do
  let ok := !table.isEmpty && table.toList.count '.' == 1 &&
    (table.toList.splitOn '.').all fun part =>
      !part.isEmpty && part.all fun c => c.isAlphanum || c == '_' || c == '-'
  if !ok then
    throw (.msg s!"invalid table reference {table.quote}: expected `<namespace>.<table>`")
  return table

/-- How a table is written in SQL. -/
def qualified (name : String) : String := s!"{CATALOG}.{name}"

/-- `split_once('.')`. -/
def splitOnce (name : String) : Option (String × String) :=
  match name.toList.span (· != '.') with
  | (first, _ :: rest) => some (String.ofList first, String.ofList rest)
  | (_, []) => none

/-- The namespace and table in a writer's configuration. -/
structure Destination where
  ns : String
  table : String
deriving DecidableEq, Repr

/-- The name in full, in words. -/
def Destination.path (d : Destination) : List (List Char) :=
  [CATALOG.toList, d.ns.toList, d.table.toList]

/-- Opens `<namespace>.<table>` with the batcher's writer configuration: which table that is. What
the environment holds and what the catalog answers are arguments. -/
def openTable (fromEnv : Reply) (connect : Destination → Reply) (table : String) :
    Except Error Destination := do
  let name ← checkedQualifiedName table
  let some (ns, table) := splitOnce name
    | throw (.msg "destination must be `<namespace>.<table>`")
  if let .error e := fromEnv then
    throw (.context "invalid iceberg configuration" (.external e))
  let cfg : Destination := ⟨ns, table⟩
  if let .error e := connect cfg then
    throw (.context s!"failed to open the destination table {CATALOG}.{name}" (.external e))
  return cfg

/-! ## The names of a run -/

/-- The tables of a `crypto-backfill --execute`: what the SQL of the query and of the read-back
names, and what is written. -/
structure Tables where
  source : Option (List (List Char))
  antiJoined : Option (List (List Char))
  written : Destination
  verified : Option (List (List Char))

/-- The names in `main`. `resolve` is how the engine reads the name of a table out of SQL. -/
def backfillTables (resolve : String → Option (List (List Char))) (fromEnv : Reply)
    (connect : Destination → Reply) (source into : String) : Except Error Tables := do
  let source ← checkedQualifiedName source
  let into ← checkedQualifiedName into
  let target := qualified into
  let written ← openTable fromEnv connect into
  return ⟨resolve (qualified source), resolve target, written, resolve target⟩

end Query

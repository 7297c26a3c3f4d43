import Mathlib.Logic.Function.Basic

/-! # The metadata table

The SQLite table `metadata` that the store keeps its rows in, and the six statements it
prepares against it. A row holds one value per column of `init`'s `CREATE TABLE`, in order;
each statement is written as the store's SQL text reads, its `?` parameters numbered from 1
left to right. Only what these statements use is modelled: equality filters on one column,
`UPDATE … SET` from parameters, and the upsert of `put`. Rows stay in insertion order, which is
the order a plain `SELECT` returns them in.
-/

namespace CacheEngine

/-- A SQLite value, of the storage classes the store's statements bind or read. -/
inductive SqlValue
  | null
  | integer (v : Int)
  | text (s : String)
  deriving DecidableEq, Repr

/-- SQL `a = b` in a `WHERE` clause or a conflict check: `NULL` equals nothing. Every filter of
the store compares the TEXT column `path` with a bound text, so values of two classes never
meet. -/
def SqlValue.sqlEq : SqlValue → SqlValue → Bool
  | .integer a, .integer b => a == b
  | .text a, .text b => a == b
  | _, _ => false

@[simp] theorem SqlValue.sqlEq_text (a b : String) : (SqlValue.text a).sqlEq (.text b) = (a == b) :=
  rfl

/-- The columns of `CREATE TABLE IF NOT EXISTS metadata (…)`, in order. -/
def metadataColumns : List String :=
  ["path", "local_path", "size", "timestamp", "last_accessed", "dirty"]

/-- A row of `metadata`: its values in the order of `metadataColumns`. -/
abbrev Row := List SqlValue

/-- The value of column `c`. -/
def Row.column (row : Row) (c : String) : SqlValue :=
  row.getD (metadataColumns.indexOf c) .null

/-- The row with column `c` set to `v`. -/
def Row.setColumn (row : Row) (c : String) (v : SqlValue) : Row :=
  row.set (metadataColumns.indexOf c) v

/-- The contents of the table. -/
structure Table where
  rows : List Row
  deriving DecidableEq, Repr

/-- The statements the store prepares; `?n` is parameter `n`. -/
inductive Stmt
  /-- The upsert `INSERT INTO metadata (cols) VALUES (?, …) ON CONFLICT(key) DO UPDATE SET
  c=excluded.c, …` for each `c` of `sets`. -/
  | upsert (cols : List String) (key : String) (sets : List String)
  /-- The query `SELECT cols FROM metadata`, with `WHERE c=?n` when a filter is given. -/
  | select (cols : List String) (filter : Option (String × Nat))
  /-- The update `UPDATE metadata SET c=?n, … WHERE c=?n`. -/
  | update (sets : List (String × Nat)) (filter : String × Nat)
  /-- The deletion `DELETE FROM metadata WHERE c=?n`. -/
  | delete (filter : String × Nat)

/-- The row satisfies `WHERE c=?n`. -/
def Row.matches (row : Row) (ps : Nat → SqlValue) (filter : String × Nat) : Bool :=
  (row.column filter.1).sqlEq (ps filter.2)

/-- The row `INSERT INTO metadata (cols) VALUES (?, …)` builds: the `i`-th listed column takes
parameter `i + 1`, and a column not listed its default, `NULL`. -/
def insertedRow (cols : List String) (ps : Nat → SqlValue) : Row :=
  metadataColumns.map fun c => if c ∈ cols then ps (cols.indexOf c + 1) else .null

/-- Assignments `SET c=v, …` applied to one row. -/
def Row.setColumns (row : Row) (sets : List (String × SqlValue)) : Row :=
  sets.foldl (fun row s => row.setColumn s.1 s.2) row

/-- The upsert of a new row: the first row whose `key` equals the new row's takes the new
values of the columns `sets`; if there is none, the new row is appended. -/
def upsertRows (key : String) (sets : List String) (new : Row) : List Row → List Row
  | [] => [new]
  | row :: rest =>
    if (row.column key).sqlEq (new.column key) then
      row.setColumns (sets.map fun c => (c, new.column c)) :: rest
    else row :: upsertRows key sets new rest

/-- The table after one successful step of the statement. -/
def Stmt.exec : Stmt → (Nat → SqlValue) → Table → Table
  | .upsert cols key sets, ps, t => ⟨upsertRows key sets (insertedRow cols ps) t.rows⟩
  | .select _ _, _, t => t
  | .update sets filter, ps, t =>
    ⟨t.rows.map fun row =>
      if row.matches ps filter then row.setColumns (sets.map fun s => (s.1, ps s.2)) else row⟩
  | .delete filter, ps, t => ⟨t.rows.filter fun row => !row.matches ps filter⟩

/-- The result rows the statement steps through, in order. -/
def Stmt.results : Stmt → (Nat → SqlValue) → Table → List Row
  | .select cols filter, ps, t =>
    (t.rows.filter fun row => filter.all (row.matches ps)).map fun row => cols.map row.column
  | _, _, _ => []

/-! ## The statements of the store -/

/-- Statement of `get`: `SELECT local_path, size, timestamp, last_accessed, dirty
FROM metadata WHERE path=?;` -/
def getSql : Stmt :=
  .select ["local_path", "size", "timestamp", "last_accessed", "dirty"] (some ("path", 1))

/-- Statement of `put`: `INSERT INTO metadata (path, local_path, size, timestamp,
last_accessed, dirty) VALUES (?, ?, ?, ?, ?, ?) ON CONFLICT(path) DO UPDATE SET
local_path=excluded.local_path, size=excluded.size, timestamp=excluded.timestamp,
last_accessed=excluded.last_accessed, dirty=excluded.dirty;` -/
def putSql : Stmt :=
  .upsert ["path", "local_path", "size", "timestamp", "last_accessed", "dirty"] "path"
    ["local_path", "size", "timestamp", "last_accessed", "dirty"]

/-- Statement of `updateAccessTime`: `UPDATE metadata SET last_accessed=? WHERE path=?;` -/
def updateAccessTimeSql : Stmt :=
  .update [("last_accessed", 1)] ("path", 2)

/-- Statement of `markDirty`: `UPDATE metadata SET dirty=? WHERE path=?;` -/
def markDirtySql : Stmt :=
  .update [("dirty", 1)] ("path", 2)

/-- Statement of `remove`: `DELETE FROM metadata WHERE path=?;` -/
def removeSql : Stmt :=
  .delete ("path", 1)

/-- Statement of `allEntries`: `SELECT path, local_path, size, timestamp, last_accessed,
dirty FROM metadata;` -/
def allEntriesSql : Stmt :=
  .select ["path", "local_path", "size", "timestamp", "last_accessed", "dirty"] none

end CacheEngine

import Mathlib.Data.List.Basic
import Mathlib.Algebra.Group.Int
import CacheEngine.Table.Sql

/-! # The metadata store's statements

`init`, `get`, `put`, `updateAccessTime`, `markDirty`, `remove`, `allEntries` and `cleanup`
over the table of `CacheEngine.Table.Sql`, with the C++ conversions between a `CacheMetadata`
and the values SQLite binds and returns. The SQLite calls that may fail are inputs:
`sqlite3_prepare_v2`, and each call of `sqlite3_step`. A statement that modifies the table
reports their failure as `false` and leaves the table as it was; `get` reads a failure as an
absent row, and `allEntries` as the end of the table.

Two things are taken as given. Every `sqlite3_bind_*` call succeeds: `sqlite3_bind_text` can
fail with `SQLITE_NOMEM` or `SQLITE_TOOBIG` and leave its parameter NULL, which the store
ignores before it steps, and no result here covers that case. And the cells a query reads have
the types the store's own statements write (`Row.Typed`): the C++ builds a `std::string` from
the null pointer of a NULL text cell, and SQLite reads a TEXT cell as an integer by its numeric
prefix, and the column readers below model neither. The results on reads are stated for typed
tables, and every statement keeps a table typed, however its calls turn out.
-/

namespace CacheEngine

/-! ## C++ values -/

/-- Modelled from the spec: `metadata_store.h` is not in the source. The row the store reads
and writes, one field per column of `metadata`: `size` is an unsigned 64-bit byte count, and
`timestamp`, `last_accessed` are `std::time_t` values, which the store hands to SQLite as they
are. -/
structure CacheMetadata where
  path : String
  localPath : String
  size : UInt64
  timestamp : Int
  lastAccessed : Int
  dirty : Bool
  deriving DecidableEq, Repr

/-- The cast `static_cast<sqlite3_int64>(meta.size)`: sizes from `2^63` on wrap to negative
integers. -/
def toInt64 (n : UInt64) : Int :=
  if n.toNat < 2 ^ 63 then n.toNat else n.toNat - 2 ^ 64

/-- An `sqlite3_int64` stored into the unsigned 64-bit `size`. -/
def ofInt64 (v : Int) : UInt64 :=
  UInt64.ofNat (v % 2 ^ 64).toNat

/-- The `int` that `sqlite3_column_int` makes of an `sqlite3_int64`: its low 32 bits, read as
a signed integer. -/
def toInt32 (v : Int) : Int :=
  (v + 2 ^ 31) % 2 ^ 32 - 2 ^ 31

theorem ofInt64_toInt64 (n : UInt64) : ofInt64 (toInt64 n) = n := by
  have hn : n.toNat < 2 ^ 64 := n.toNat_lt_size
  have hmod : (toInt64 n % 2 ^ 64).toNat = n.toNat := by
    unfold toInt64
    split <;> omega
  apply UInt64.toNat.inj
  rw [ofInt64, hmod, UInt64.toNat_ofNat_of_lt hn]

@[simp] theorem toInt32_dirty (d : Bool) : (toInt32 (if d then 1 else 0) != 0) = d := by
  cases d <;> rfl

/-- The string a C string stands for: `c_str()` handed to SQLite with length `-1`, and a
`const char*` read into a `std::string`, both end at the first NUL. -/
def cStr (s : String) : String :=
  ⟨s.data.takeWhile (· != Char.ofNat 0)⟩

/-- The string holds no NUL character. -/
def NulFree (s : String) : Prop :=
  Char.ofNat 0 ∉ s.data

instance (s : String) : Decidable (NulFree s) :=
  inferInstanceAs (Decidable (Char.ofNat 0 ∉ s.data))

theorem cStr_of_nulFree {s : String} (h : NulFree s) : cStr s = s := by
  rw [cStr, List.takeWhile_eq_self_iff.mpr]
  rintro c hc
  simp only [bne_iff_ne, ne_eq]
  rintro rfl
  exact h hc

/-! ## Binding and reading -/

/-- The parameters of a freshly prepared statement: `NULL` until bound. -/
def noParams : Nat → SqlValue :=
  fun _ => .null

/-- The call `sqlite3_bind_text(stmt, i, s.c_str(), -1, SQLITE_TRANSIENT)`, taken to succeed:
SQLite copies the string up to its first NUL. A failed bind leaves the parameter NULL; the store
ignores the result, and that case is not modelled. -/
def bindText (ps : Nat → SqlValue) (i : Nat) (s : String) : Nat → SqlValue :=
  Function.update ps i (.text (cStr s))

/-- The call `sqlite3_bind_int64(stmt, i, v)`. -/
def bindInt64 (ps : Nat → SqlValue) (i : Nat) (v : Int) : Nat → SqlValue :=
  Function.update ps i (.integer v)

/-- The call `sqlite3_bind_int(stmt, i, v)`: SQLite keeps the `int` as a 64-bit integer. -/
def bindInt (ps : Nat → SqlValue) (i : Nat) (v : Int) : Nat → SqlValue :=
  bindInt64 ps i v

/-- The call `sqlite3_column_text(stmt, i)`, read into a `std::string`. An INTEGER is
rendered in decimal. On a NULL cell the call returns a null pointer, and building a
`std::string` from it is undefined behaviour: the empty string there is a placeholder, and
every result on reads is stated for tables without NULL cells (`Row.Typed`). -/
def columnText (row : Row) (i : Nat) : String :=
  match row.getD i .null with
  | .text s => cStr s
  | .integer v => toString v
  | .null => ""

/-- The call `sqlite3_column_int64(stmt, i)`: NULL reads as 0. SQLite reads a TEXT cell by its
numeric prefix (`'7abc'` gives 7); the 0 there is a placeholder, and every result on reads is
stated for tables whose integer columns hold INTEGERs (`Row.Typed`). -/
def columnInt64 (row : Row) (i : Nat) : Int :=
  match row.getD i .null with
  | .integer v => v
  | _ => 0

/-- The call `sqlite3_column_int(stmt, i)`. -/
def columnInt (row : Row) (i : Nat) : Int :=
  toInt32 (columnInt64 row i)

/-! ## Statement calls -/

/-- How the calls on one statement turn out: `sqlite3_prepare_v2` may fail, and call `k`
(from 0) of `sqlite3_step` may return an error such as `SQLITE_BUSY` in place of
`SQLITE_ROW` or `SQLITE_DONE`. The binds between the two are taken to succeed. -/
structure StmtIo where
  prepareFails : Bool
  stepFails : Nat → Bool

/-- Every call succeeds. -/
def StmtIo.healthy : StmtIo :=
  ⟨false, fun _ => false⟩

/-- No call on the statement fails. -/
def StmtIo.succeeds (io : StmtIo) : Prop :=
  io.prepareFails = false ∧ ∀ k, io.stepFails k = false

/-- The call `sqlite3_prepare_v2`: the table the statement runs on. It fails when the call
reports an error, and when the database has no `metadata` table. -/
def prepare (io : StmtIo) (db : Option Table) : Option Table :=
  if io.prepareFails then none else db

/-- The rows that calls `k, k + 1, …` of `sqlite3_step` return with `SQLITE_ROW`, up to the
first call that returns anything else: `SQLITE_DONE` once the rows run out, or an error. -/
def stepRows (io : StmtIo) : Nat → List Row → List Row
  | _, [] => []
  | k, row :: rest => if io.stepFails k then [] else row :: stepRows io (k + 1) rest

/-- Prepare a statement that modifies the table, bind `ps`, and step it once; success is
`SQLITE_DONE`. A step that fails rolls the statement back. -/
def execute (stmt : Stmt) (ps : Nat → SqlValue) (db : Option Table) (io : StmtIo) :
    Option Table × Bool :=
  match prepare io db with
  | none => (db, false)
  | some t => if io.stepFails 0 then (db, false) else (some (stmt.exec ps t), true)

/-! ## The store -/

/-- How `init`'s calls turn out: `sqlite3_open`, and `sqlite3_exec` of the `CREATE TABLE`. -/
structure InitIo where
  openFails : Bool
  execFails : Bool

/-- Both calls of `init` succeed. -/
def InitIo.healthy : InitIo :=
  ⟨false, false⟩

/-- Open the database at `db_path` and create `metadata` if it does not exist. -/
def init (db : Option Table) (io : InitIo) : Option Table × Bool :=
  if io.openFails then (db, false)
  else if io.execFails then (db, false)
  else (some (db.getD ⟨[]⟩), true)

/-- Drop the table, `DROP TABLE IF EXISTS metadata`, whose failure is ignored. -/
def cleanup (db : Option Table) (execFails : Bool) : Option Table :=
  if execFails then db else none

def get (db : Option Table) (io : StmtIo) (path : String) : Option CacheMetadata :=
  match prepare io db with
  | none => none
  | some t =>
    let ps := bindText noParams 1 path
    (stepRows io 0 (getSql.results ps t)).head?.map fun row =>
      { path := path
        localPath := columnText row 0
        size := ofInt64 (columnInt64 row 1)
        timestamp := columnInt64 row 2
        lastAccessed := columnInt64 row 3
        dirty := columnInt row 4 != 0 }

def put (db : Option Table) (io : StmtIo) (meta : CacheMetadata) : Option Table × Bool :=
  let ps := bindText noParams 1 meta.path
  let ps := bindText ps 2 meta.localPath
  let ps := bindInt64 ps 3 (toInt64 meta.size)
  let ps := bindInt64 ps 4 meta.timestamp
  let ps := bindInt64 ps 5 meta.lastAccessed
  let ps := bindInt ps 6 (if meta.dirty then 1 else 0)
  execute putSql ps db io

def updateAccessTime (db : Option Table) (io : StmtIo) (path : String) (lastAccessed : Int) :
    Option Table × Bool :=
  let ps := bindInt64 noParams 1 lastAccessed
  let ps := bindText ps 2 path
  execute updateAccessTimeSql ps db io

def markDirty (db : Option Table) (io : StmtIo) (path : String) (dirty : Bool) :
    Option Table × Bool :=
  let ps := bindInt noParams 1 (if dirty then 1 else 0)
  let ps := bindText ps 2 path
  execute markDirtySql ps db io

def remove (db : Option Table) (io : StmtIo) (path : String) : Option Table × Bool :=
  execute removeSql (bindText noParams 1 path) db io

/-- The body of `allEntries`' loop: one result row read into a `CacheMetadata`. -/
def readEntry (row : Row) : CacheMetadata :=
  { path := columnText row 0
    localPath := columnText row 1
    size := ofInt64 (columnInt64 row 2)
    timestamp := columnInt64 row 3
    lastAccessed := columnInt64 row 4
    dirty := columnInt row 5 != 0 }

def allEntries (db : Option Table) (io : StmtIo) : List CacheMetadata :=
  match prepare io db with
  | none => []
  | some t => (stepRows io 0 (allEntriesSql.results noParams t)).map readEntry

/-! ## Failures -/

/-- A statement that modifies the table either fails, leaving the database as it was, or has
every call succeed on an existing table and takes effect. -/
theorem execute_cases (stmt : Stmt) (ps : Nat → SqlValue) (db : Option Table) (io : StmtIo) :
    execute stmt ps db io = (db, false) ∨
      ∃ t, db = some t ∧ io.prepareFails = false ∧ io.stepFails 0 = false ∧
        execute stmt ps db io = (some (stmt.exec ps t), true) := by
  rcases db with _ | t <;> cases hp : io.prepareFails <;> cases hs : io.stepFails 0 <;>
    simp [execute, prepare, hp, hs]

theorem execute_of_succeeds (stmt : Stmt) (ps : Nat → SqlValue) (t : Table) {io : StmtIo}
    (hs : io.succeeds) : execute stmt ps (some t) io = (some (stmt.exec ps t), true) := by
  simp [execute, prepare, hs.1, hs.2 0]

theorem StmtIo.healthy_succeeds : StmtIo.healthy.succeeds :=
  ⟨rfl, fun _ => rfl⟩

theorem execute_fails_or_healthy {stmt : Stmt} {ps : Nat → SqlValue} {db : Option Table}
    {io : StmtIo} :
    execute stmt ps db io = (db, false) ∨
      execute stmt ps db io = execute stmt ps db .healthy := by
  rcases execute_cases stmt ps db io with h | ⟨t, rfl, -, -, h⟩
  · exact .inl h
  · exact .inr (h.trans (execute_of_succeeds stmt ps t StmtIo.healthy_succeeds).symm)

theorem stepRows_of_succeeds {io : StmtIo} (hs : io.succeeds) (k : Nat) (rows : List Row) :
    stepRows io k rows = rows := by
  induction rows generalizing k with
  | nil => rfl
  | cons row rest ih => simp [stepRows, hs.2, ih]

theorem head?_stepRows (io : StmtIo) (k : Nat) (rows : List Row) :
    (stepRows io k rows).head? = if io.stepFails k then none else rows.head? := by
  cases rows with
  | nil => simp [stepRows]
  | cons row rest => by_cases h : io.stepFails k <;> simp [stepRows, h]

theorem stepRows_eq_take (io : StmtIo) (k : Nat) (rows : List Row) :
    ∃ n, stepRows io k rows = rows.take n ∧ (∀ j < n, io.stepFails (k + j) = false) ∧
      (n < rows.length → io.stepFails (k + n) = true) := by
  induction rows generalizing k with
  | nil => exact ⟨0, rfl, by simp, by simp⟩
  | cons row rest ih =>
    cases hk : io.stepFails k
    · obtain ⟨n, hn, hpre, hstop⟩ := ih (k + 1)
      refine ⟨n + 1, by simp [stepRows, hk, hn], fun j hj => ?_, fun hlt => ?_⟩
      · cases j with
        | zero => exact hk
        | succ j => simpa [Nat.add_assoc, Nat.add_comm 1] using hpre j (by omega)
      · simpa [Nat.add_assoc, Nat.add_comm 1] using hstop (by simpa using hlt)
    · exact ⟨0, by simp [stepRows, hk], by simp, fun _ => by simpa using hk⟩

theorem init_some (t : Table) (io : InitIo) :
    init (some t) io = (some t, false) ∨ init (some t) io = (some t, true) := by
  unfold init
  split_ifs
  exacts [.inl rfl, .inl rfl, .inr rfl]

theorem results_getSql (path : String) (t : Table) :
    getSql.results (bindText noParams 1 path) t =
      (t.rows.filter fun row => (row.column "path").sqlEq (.text (cStr path))).map
        fun row => ["local_path", "size", "timestamp", "last_accessed", "dirty"].map row.column :=
  rfl

theorem results_allEntriesSql (t : Table) :
    allEntriesSql.results noParams t = t.rows.map fun row => metadataColumns.map row.column := by
  simp [Stmt.results, allEntriesSql, metadataColumns]

theorem readEntry_project (row : Row) :
    readEntry (metadataColumns.map row.column) = readEntry row :=
  rfl

theorem get_eq_ite (db : Option Table) (io : StmtIo) (path : String) :
    get db io path = if io.prepareFails || io.stepFails 0 then none else get db .healthy path := by
  rcases db with _ | t
  · simp [get, prepare]
  · cases hp : io.prepareFails <;> by_cases hs : io.stepFails 0 <;>
      simp [get, prepare, hp, hs, head?_stepRows, StmtIo.healthy]

theorem allEntries_eq_take (t : Table) (io : StmtIo) :
    ∃ n, allEntries (some t) io = (t.rows.take n).map readEntry ∧
      (∀ k < n, io.stepFails k = false) ∧
      (n < t.rows.length → io.prepareFails = true ∨ io.stepFails n = true) := by
  cases hp : io.prepareFails
  · obtain ⟨n, hn, hpre, hstop⟩ := stepRows_eq_take io 0 (allEntriesSql.results noParams t)
    have hall : allEntries (some t) io =
        (stepRows io 0 (allEntriesSql.results noParams t)).map readEntry := by
      simp [allEntries, prepare, hp]
    refine ⟨n, ?_, fun k hk => by simpa using hpre k hk,
      fun hlt => .inr (by simpa using hstop (by simpa [results_allEntriesSql] using hlt))⟩
    rw [hall, hn, results_allEntriesSql, ← List.map_take, List.map_map]
    exact List.map_congr_left fun row _ => readEntry_project row
  · exact ⟨0, by simp [allEntries, prepare, hp], by simp, fun _ => .inl rfl⟩

theorem allEntries_healthy (t : Table) : allEntries (some t) .healthy = t.rows.map readEntry := by
  simp only [allEntries, prepare, StmtIo.healthy_succeeds.1, Bool.false_eq_true, if_false,
    stepRows_of_succeeds StmtIo.healthy_succeeds, results_allEntriesSql, List.map_map]
  exact List.map_congr_left fun row _ => readEntry_project row

theorem get_healthy (t : Table) (path : String) :
    get (some t) .healthy path =
      (t.rows.find? fun row => (row.column "path").sqlEq (.text (cStr path))).map
        fun row => { readEntry row with path } := by
  simp only [get, prepare, StmtIo.healthy_succeeds.1, Bool.false_eq_true, if_false,
    stepRows_of_succeeds StmtIo.healthy_succeeds, results_getSql, List.head?_map,
    List.filter_head?, Option.map_map]
  rfl

/-! ## The rows the store writes -/

theorem nulFree_cStr (s : String) : NulFree (cStr s) :=
  fun h => by simpa using List.mem_takeWhile_imp h

/-- The rows the store's statements write: `path` and `local_path` hold TEXT as `bindText`
passes it, without NUL, and `size`, `timestamp`, `last_accessed` and `dirty` hold INTEGERs,
the declared types of `init`'s `CREATE TABLE`. No column is NULL. -/
def Row.Typed : Row → Prop
  | [.text p, .text l, .integer _, .integer _, .integer _, .integer _] => NulFree p ∧ NulFree l
  | _ => False

instance : DecidablePred Row.Typed := fun row => by
  unfold Row.Typed
  split <;> infer_instance

def Table.Typed (t : Table) : Prop :=
  ∀ row ∈ t.rows, row.Typed

instance (t : Table) : Decidable t.Typed :=
  inferInstanceAs (Decidable (∀ row ∈ t.rows, row.Typed))

theorem Row.typed_iff {row : Row} : row.Typed ↔ ∃ p l n ts la d,
    row = [.text p, .text l, .integer n, .integer ts, .integer la, .integer d] ∧
      NulFree p ∧ NulFree l := by
  refine ⟨fun h => ?_, fun ⟨_, _, _, _, _, _, he, hp, hl⟩ => by subst he; exact ⟨hp, hl⟩⟩
  unfold Row.Typed at h
  split at h
  · exact ⟨_, _, _, _, _, _, rfl, h⟩
  · exact h.elim

theorem Row.Typed.column_path {row : Row} (h : row.Typed) :
    ∃ p, row.column "path" = .text p ∧ NulFree p := by
  obtain ⟨p, _, _, _, _, _, rfl, hp, -⟩ := Row.typed_iff.mp h
  exact ⟨p, rfl, hp⟩

theorem upsertRows_typed {new : Row} (hnew : new.Typed) {rows : List Row}
    (h : ∀ row ∈ rows, row.Typed) :
    ∀ row ∈ upsertRows "path" ["local_path", "size", "timestamp", "last_accessed", "dirty"] new
      rows, row.Typed := by
  induction rows with
  | nil => simpa [upsertRows] using hnew
  | cons row rest ih =>
    have hrest := ih fun r hr => h r (.tail _ hr)
    unfold upsertRows
    split
    · obtain ⟨_, _, _, _, _, _, rfl, hp, -⟩ := Row.typed_iff.mp (h row (.head _))
      obtain ⟨_, _, _, _, _, _, rfl, -, hl⟩ := Row.typed_iff.mp hnew
      rintro r (_ | ⟨_, hr⟩)
      exacts [⟨hp, hl⟩, h r (.tail _ hr)]
    · rintro r (_ | ⟨_, hr⟩)
      exacts [h row (.head _), hrest r hr]

theorem Row.Typed.setColumns_integer {row : Row} (h : row.Typed) {c : String}
    (hc : c = "last_accessed" ∨ c = "dirty") (v : Int) : (row.setColumns [(c, .integer v)]).Typed := by
  obtain ⟨_, _, _, _, _, _, rfl, hp, hl⟩ := Row.typed_iff.mp h
  rcases hc with rfl | rfl <;> exact ⟨hp, hl⟩

theorem execute_typed {stmt : Stmt} {ps : Nat → SqlValue} {db : Option Table} (io : StmtIo)
    (hexec : ∀ t : Table, t.Typed → (stmt.exec ps t).Typed) (hdb : ∀ t ∈ db, t.Typed) :
    ∀ t ∈ (execute stmt ps db io).1, t.Typed := by
  rcases execute_cases stmt ps db io with he | ⟨t, rfl, -, -, he⟩
  · rwa [he]
  · rw [he]
    intro t' ht'
    obtain rfl := Option.mem_some_iff.mp ht'
    exact hexec t (hdb t rfl)

section Typed

variable {db : Option Table} (hdb : ∀ t ∈ db, t.Typed) (io : StmtIo)
include hdb

theorem put_typed (meta : CacheMetadata) : ∀ t ∈ (put db io meta).1, t.Typed := by
  refine execute_typed io (fun _ ht => upsertRows_typed ?_ ht) hdb
  show NulFree (cStr meta.path) ∧ NulFree (cStr meta.localPath)
  exact ⟨nulFree_cStr _, nulFree_cStr _⟩

theorem update_typed {c : String} (hc : c = "last_accessed" ∨ c = "dirty") (v : Int)
    (path : String) :
    ∀ t ∈ (execute (.update [(c, 1)] ("path", 2)) (bindText (bindInt64 noParams 1 v) 2 path)
      db io).1, t.Typed := by
  refine execute_typed io (fun t ht row hrow => ?_) hdb
  simp only [Stmt.exec, List.mem_map] at hrow
  obtain ⟨row, hrow, rfl⟩ := hrow
  split
  exacts [(ht row hrow).setColumns_integer hc v, ht row hrow]

theorem updateAccessTime_typed (path : String) (lastAccessed : Int) :
    ∀ t ∈ (updateAccessTime db io path lastAccessed).1, t.Typed :=
  update_typed hdb io (.inl rfl) lastAccessed path

theorem markDirty_typed (path : String) (dirty : Bool) :
    ∀ t ∈ (markDirty db io path dirty).1, t.Typed :=
  update_typed hdb io (.inr rfl) _ path

theorem remove_typed (path : String) : ∀ t ∈ (remove db io path).1, t.Typed :=
  execute_typed io (fun _ ht row hrow => ht row (List.mem_of_mem_filter hrow)) hdb

omit io in
theorem init_typed (io : InitIo) : ∀ t ∈ (init db io).1, t.Typed := by
  unfold init
  split_ifs
  · exact hdb
  · exact hdb
  · intro t ht
    obtain rfl := Option.mem_some_iff.mp ht
    cases db with
    | none => exact fun _ h => nomatch h
    | some t => exact hdb t rfl

omit io in
theorem cleanup_typed (execFails : Bool) : ∀ t ∈ cleanup db execFails, t.Typed := by
  unfold cleanup
  split
  exacts [hdb, fun _ h => nomatch h]

end Typed

/-! ## Reads under failures -/

private theorem find?_congr {α : Type} {p q : α → Bool} {l : List α}
    (h : ∀ x ∈ l, p x = q x) : l.find? p = l.find? q := by
  induction l with
  | nil => rfl
  | cons x xs ih => simp [List.find?_cons, h x (.head _), ih fun y hy => h y (.tail _ hy)]

/-- On a typed table the point query of `get` agrees with the scan of `allEntries`: `get(path)`
returns the first entry `allEntries()` lists whose path is `path` up to its first NUL, under
`path`. -/
theorem get_healthy_of_typed {t : Table} (ht : t.Typed) (path : String) :
    get (some t) .healthy path =
      ((allEntries (some t) .healthy).find? (·.path == cStr path)).map fun m => { m with path } := by
  rw [get_healthy, allEntries_healthy, List.find?_map, Option.map_map]
  refine congrArg (Option.map _) (find?_congr fun row hrow => ?_)
  obtain ⟨p, hp, hnp⟩ := (ht row hrow).column_path
  have hpath : (readEntry row).path = p := by
    rw [show (readEntry row).path = columnText row 0 from rfl, columnText,
      show row.getD 0 .null = .text p from hp]
    exact cStr_of_nulFree hnp
  simp [hp, hpath]

/-- On a typed table, however `sqlite3_prepare_v2` and `sqlite3_step` turn out: `get(path)`
returns `nullopt` when the prepare or the first step fails, and otherwise the entry for `path`
that `allEntries()` lists when no call fails, if any; `allEntries()` returns the entries of
that scan before the first failing step, none when the prepare fails. Neither tells a failure
from an answer. -/
theorem get_allEntries_under_faults (t : Table) (ht : t.Typed) (io : StmtIo) (path : String) :
    get (some t) io path =
      (if io.prepareFails || io.stepFails 0 then none
        else ((allEntries (some t) .healthy).find? (·.path == cStr path)).map
          fun m => { m with path }) ∧
    ∃ n, allEntries (some t) io = (allEntries (some t) .healthy).take n ∧
      (∀ k < n, io.stepFails k = false) ∧
      (n < t.rows.length → io.prepareFails = true ∨ io.stepFails n = true) := by
  refine ⟨by rw [get_eq_ite, get_healthy_of_typed ht], ?_⟩
  obtain ⟨n, he, hpre, hstop⟩ := allEntries_eq_take t io
  exact ⟨n, by rw [he, allEntries_healthy, List.map_take], hpre, hstop⟩

/-- The table of `/a` and `/b`; the second `sqlite3_step` of each call fails, so `get("/b")`
finds its row and `allEntries()` stops after `/a`. -/
theorem get_allEntries_under_faults_second_step :
    let t : Table :=
      ⟨[[.text "/a", .text "/c/a", .integer 1, .integer 0, .integer 0, .integer 0],
        [.text "/b", .text "/c/b", .integer 1, .integer 0, .integer 0, .integer 1]]⟩
    let io : StmtIo := ⟨false, fun k => k == 1⟩
    t.Typed ∧
      (get (some t) io "/b" =
        (if io.prepareFails || io.stepFails 0 then none
          else ((allEntries (some t) .healthy).find? (·.path == cStr "/b")).map
            fun m => { m with path := "/b" }) ∧
      ∃ n, allEntries (some t) io = (allEntries (some t) .healthy).take n ∧
        (∀ k < n, io.stepFails k = false) ∧
        (n < t.rows.length → io.prepareFails = true ∨ io.stepFails n = true)) :=
  have ht : Table.Typed ⟨[[.text "/a", .text "/c/a", .integer 1, .integer 0, .integer 0,
      .integer 0], [.text "/b", .text "/c/b", .integer 1, .integer 0, .integer 0, .integer 1]]⟩ :=
    by decide
  ⟨ht, get_allEntries_under_faults _ ht ⟨false, fun k => k == 1⟩ "/b"⟩

/-- A table with the rows of `/a` and `/b`. When the first `sqlite3_step` of `get("/a")`
returns an error, `get` answers as for a table without `/a`; when the second step of
`allEntries()` does, it answers as for a table holding the row of `/a` alone. -/
theorem get_allEntries_hide_step_errors :
    let t : Table :=
      ⟨[[.text "/a", .text "/c/a", .integer 1, .integer 0, .integer 0, .integer 0],
        [.text "/b", .text "/c/b", .integer 1, .integer 0, .integer 0, .integer 1]]⟩
    (get (some t) .healthy "/a").isSome = true ∧
      get (some t) ⟨false, fun k => k == 0⟩ "/a" = get (some ⟨[]⟩) .healthy "/a" ∧
      (allEntries (some t) .healthy).length = 2 ∧
      allEntries (some t) ⟨false, fun k => k == 1⟩ =
        allEntries (some ⟨t.rows.take 1⟩) .healthy :=
  ⟨rfl, rfl, rfl, rfl⟩

end CacheEngine

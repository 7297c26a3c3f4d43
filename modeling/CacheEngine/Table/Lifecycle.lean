import CacheEngine.Table.Refinement

/-! # The store's connection across its lifecycle

`db_handle_` over the life of the `MetadataStore` objects on one `db_path`, one object at a
time. The constructor sets it to `nullptr`; `init` stores the connection that `sqlite3_open`
hands back; `cleanup` drops `metadata`, closes the connection and clears the handle; the
destructor closes it. Every statement runs on the handle. On `nullptr` its
`sqlite3_prepare_v2` returns `SQLITE_MISUSE`, and the call fails as it does on a database
without the table.

SQLite numbers the connections in the order `sqlite3_open` hands them out, and hands one back
even when the open fails; `init` then neither keeps nor closes it. Closing a connection that is
closed, or running a statement on one, is undefined behaviour: the step is then `none`.

Over every run of calls, `init`, `cleanup` and new stores: no connection is closed twice or used
once closed (`runLife_defined`); a connection that `init` drops is never closed
(`init_drops_connection`); the table's rows keep the types the statements write
(`runLife_typed`); and the database refines a store that holds a map while it has the table
and answers from it only while it holds a connection (`runLife_allows`). The SQLite calls that
may fail are `sqlite3_open`, `sqlite3_exec`, `sqlite3_prepare_v2` and `sqlite3_step`; binds are
taken to succeed.
-/

namespace CacheEngine

/-! ## The process -/

/-- The database at `db_path`, the connections SQLite has handed out, and `db_handle_` of the
current `MetadataStore`. -/
structure Life where
  /-- The database's `metadata` table, if it has one. -/
  file : Option Table
  /-- How many connections `sqlite3_open` has handed out; they are numbered from 0. -/
  opened : Nat
  /-- The connections closed so far, the latest first. -/
  closed : List Nat
  /-- The field `db_handle_`: a connection, or `none` for `nullptr`. -/
  handle : Option Nat
  deriving DecidableEq, Repr

namespace Life

/-- Connection `n` has been handed out and is not closed. -/
def IsOpen (st : Life) (n : Nat) : Prop :=
  n < st.opened ∧ n ∉ st.closed

instance (st : Life) (n : Nat) : Decidable (st.IsOpen n) :=
  inferInstanceAs (Decidable (n < st.opened ∧ n ∉ st.closed))

/-- The call `sqlite3_close(db)`; undefined on a connection that is not open. -/
def close (st : Life) (n : Nat) : Option Life :=
  if st.IsOpen n then some { st with closed := n :: st.closed } else none

/-- The destructor `~MetadataStore()`: `if (db_handle_) sqlite3_close(db_handle_)`. -/
def destroy (st : Life) : Option Life :=
  match st.handle with
  | none => some st
  | some n => st.close n

/-- The constructor `MetadataStore(db_path, cache_root)` of the next store:
`db_handle_(nullptr)`. -/
def construct (st : Life) : Life :=
  { st with handle := none }

/-- Models `MetadataStore::init`: `sqlite3_open` hands back connection `opened`, which becomes
`db_handle_` when the open succeeds; the table is then created if it is missing. -/
def init (st : Life) (io : InitIo) : Life × Bool :=
  ({ st with
      file := (CacheEngine.init st.file io).1
      opened := st.opened + 1
      handle := if io.openFails then st.handle else some st.opened },
    (CacheEngine.init st.file io).2)

/-- Models `MetadataStore::cleanup`: with a connection, `DROP TABLE IF EXISTS metadata`, whose
failure is ignored, then `sqlite3_close` and `db_handle_ = nullptr`; without one, nothing. -/
def cleanup (st : Life) (execFails : Bool) : Option Life :=
  match st.handle with
  | none => some st
  | some n => Life.close { st with file := CacheEngine.cleanup st.file execFails, handle := none } n

/-- A statement call on `db_handle_`. On `nullptr`, `sqlite3_prepare_v2` fails and the call
answers as on a database without the table, and leaves the database alone; on a closed
connection it is undefined. -/
def call (st : Life) (op : TableOp) : Option (Life × Obs) :=
  match st.handle with
  | none => some (st, (op.run none).2)
  | some n =>
    if st.IsOpen n then some ({ st with file := (op.run st.file).1 }, (op.run st.file).2)
    else none

end Life

/-- One event in the life of the stores on `db_path`: a call on the current store (`restart` is
the destructor, the next store and its `init`), `init`, `cleanup`, or the destructor and the
next store. -/
inductive LifeOp
  | call (op : TableOp)
  | init (io : InitIo)
  | cleanup (execFails : Bool)
  | construct

namespace LifeOp

/-- The state after the event and what it returns (`none` for `void`); `none` when the event
is undefined. -/
def step : LifeOp → Life → Option (Life × Option Obs)
  | .call (.restart io), st =>
    st.destroy.map fun st => Prod.map id (some ∘ Obs.status) (st.construct.init io)
  | .call op, st => (st.call op).map (Prod.map id some)
  | .init io, st => some (Prod.map id (some ∘ Obs.status) (st.init io))
  | .cleanup execFails, st => (st.cleanup execFails).map fun st => (st, none)
  | .construct, st => st.destroy.map fun st => (st.construct, none)

/-- The strings that the event passes hold no NUL character. -/
def NulFree : LifeOp → Prop
  | .call op => op.NulFree
  | _ => True

instance : (op : LifeOp) → Decidable op.NulFree
  | .call op => inferInstanceAs (Decidable op.NulFree)
  | .init _ | .cleanup _ | .construct => inferInstanceAs (Decidable True)

end LifeOp

/-- The events in order: the final state and what each event returned; `none` once one is
undefined. -/
def runLife : Life → List LifeOp → Option (Life × List (Option Obs))
  | st, [] => some (st, [])
  | st, op :: ops => (op.step st).bind fun (st', o) => (runLife st' ops).map (Prod.map id (o :: ·))

/-! ## Connections -/

/-- The connections are well kept: each closed at most once and only after it was handed out,
and the handle is `nullptr` or open. -/
structure Life.Wf (st : Life) : Prop where
  closed_nodup : st.closed.Nodup
  closed_lt : ∀ n ∈ st.closed, n < st.opened
  handle_isOpen : ∀ n, st.handle = some n → st.IsOpen n

namespace Life

variable {st : Life}

/-- The state the destructor leaves to the next store, and `cleanup` to the same one: the
handle closed if it was set, and cleared. -/
def release (st : Life) : Life :=
  { st with closed := st.handle.toList ++ st.closed, handle := none }

theorem destroy_eq (h : st.Wf) :
    st.destroy = some { st with closed := st.handle.toList ++ st.closed } := by
  obtain ⟨file, opened, closed, handle⟩ := st
  cases handle with
  | none => rfl
  | some n =>
    obtain ⟨hlt, hnc⟩ := h.handle_isOpen n rfl
    simp [destroy, close, IsOpen, hlt, hnc]

theorem cleanup_eq (h : st.Wf) (execFails : Bool) :
    st.cleanup execFails = some { st.release with
      file := if st.handle.isSome then CacheEngine.cleanup st.file execFails else st.file } := by
  obtain ⟨file, opened, closed, handle⟩ := st
  cases handle with
  | none => rfl
  | some n =>
    obtain ⟨hlt, hnc⟩ := h.handle_isOpen n rfl
    simp [cleanup, close, release, IsOpen, hlt, hnc]

theorem call_of_handle_none (hh : st.handle = none) (op : TableOp) :
    st.call op = some (st, (op.run none).2) := by
  simp [call, hh]

theorem call_of_handle_some (h : st.Wf) {n : Nat} (hh : st.handle = some n) (op : TableOp) :
    st.call op = some ({ st with file := (op.run st.file).1 }, (op.run st.file).2) := by
  simp [call, hh, h.handle_isOpen n hh]

theorem Wf.withFile (h : st.Wf) (file : Option Table) : { st with file }.Wf :=
  ⟨h.closed_nodup, h.closed_lt, h.handle_isOpen⟩

theorem Wf.release (h : st.Wf) : st.release.Wf := by
  obtain ⟨file, opened, closed, handle⟩ := st
  cases handle with
  | none => exact ⟨h.closed_nodup, h.closed_lt, fun _ hn => by cases hn⟩
  | some m =>
    obtain ⟨hlt, hnc⟩ := h.handle_isOpen m rfl
    refine ⟨List.nodup_cons.mpr ⟨hnc, h.closed_nodup⟩, fun n hn => ?_,
      fun _ hn => by cases hn⟩
    rcases List.mem_cons.mp hn with rfl | hn
    exacts [hlt, h.closed_lt n hn]

theorem Wf.init (h : st.Wf) (io : InitIo) : (st.init io).1.Wf := by
  refine ⟨h.closed_nodup, fun n hn => Nat.lt_succ_of_lt (h.closed_lt n hn), fun n hn => ?_⟩
  simp only [Life.init] at hn
  split at hn
  · exact ⟨Nat.lt_succ_of_lt (h.handle_isOpen n hn).1, (h.handle_isOpen n hn).2⟩
  · cases hn
    exact ⟨Nat.lt_succ_self _, fun hc => Nat.lt_irrefl _ (h.closed_lt _ hc)⟩

end Life

namespace LifeOp

variable {st : Life}

theorem step_call_of_ne {op : TableOp} (hop : ∀ io, op ≠ .restart io) (st : Life) :
    (call op).step st = (st.call op).map (Prod.map id some) := by
  cases op <;> first | rfl | exact absurd rfl (hop _)

theorem step_restart (h : st.Wf) (io : InitIo) :
    (call (.restart io)).step st =
      some (Prod.map id (some ∘ Obs.status) (st.release.init io)) := by
  simp [step, Life.destroy_eq h]
  rfl

theorem step_cleanup (h : st.Wf) (execFails : Bool) :
    (cleanup execFails).step st = some ({ st.release with
      file := if st.handle.isSome then CacheEngine.cleanup st.file execFails else st.file },
        none) := by
  simp [step, Life.cleanup_eq h]

theorem step_construct (h : st.Wf) : construct.step st = some (st.release, none) := by
  simp [step, Life.destroy_eq h]
  rfl

/-- Everything a step does to the connections, from a state where they are well kept: it is
defined and keeps them well kept, closes no connection but the handle, and keeps the handle,
clears it, or sets it to the connection it hands out. -/
theorem step_conns (op : LifeOp) (h : st.Wf) :
    ∃ st' o, op.step st = some (st', o) ∧ st'.Wf ∧ st.opened ≤ st'.opened ∧
      (∀ n ∈ st'.closed, n ∈ st.closed ∨ st.handle = some n) ∧
      (st'.handle = st.handle ∨ st'.handle = none ∨ st'.handle = some st.opened) := by
  have hrel : ∀ n ∈ st.release.closed, n ∈ st.closed ∨ st.handle = some n := by
    intro n hn
    rcases List.mem_append.mp hn with hn | hn
    · exact .inr (by simpa using hn)
    · exact .inl hn
  cases op with
  | call op =>
    by_cases hop : ∃ io, op = .restart io
    · obtain ⟨io, rfl⟩ := hop
      refine ⟨_, _, step_restart h io, h.release.init io, Nat.le_succ _, hrel, .inr ?_⟩
      by_cases ho : io.openFails <;> simp [Life.init, Life.release, ho]
    · rw [step_call_of_ne fun io he => hop ⟨io, he⟩]
      cases hh : st.handle with
      | none =>
        exact ⟨st, _, by rw [Life.call_of_handle_none hh]; rfl, h, le_rfl, fun n hn => .inl hn,
          .inl hh⟩
      | some n =>
        exact ⟨{ st with file := (op.run st.file).1 }, some (op.run st.file).2,
          by rw [Life.call_of_handle_some h hh]; rfl, h.withFile _, le_rfl, fun n hn => .inl hn,
          .inl hh⟩
  | init io =>
    refine ⟨_, _, rfl, h.init io, Nat.le_succ _, fun n hn => .inl hn, ?_⟩
    by_cases ho : io.openFails <;> simp [Life.init, ho]
  | cleanup execFails =>
    exact ⟨_, _, step_cleanup h execFails, h.release.withFile _, le_rfl, hrel, .inr (.inl rfl)⟩
  | construct => exact ⟨_, _, step_construct h, h.release, le_rfl, hrel, .inr (.inl rfl)⟩

end LifeOp

/-- A property of states that every step from a state with well-kept connections keeps holds
after every run from such a state, and every such run is defined. -/
theorem runLife_of_step (P : Life → Prop)
    (hstep : ∀ (op : LifeOp) (st : Life), st.Wf → P st →
      ∃ st' o, op.step st = some (st', o) ∧ st'.Wf ∧ P st')
    (ops : List LifeOp) {st : Life} (h : st.Wf) (hp : P st) :
    ∃ st' os, runLife st ops = some (st', os) ∧ st'.Wf ∧ P st' := by
  induction ops generalizing st with
  | nil => exact ⟨st, [], rfl, h, hp⟩
  | cons op ops ih =>
    obtain ⟨st₁, o, hs, h₁, hp₁⟩ := hstep op st h hp
    obtain ⟨st', os, hr, h', hp'⟩ := ih h₁ hp₁
    exact ⟨st', o :: os, by simp [runLife, hs, hr], h', hp'⟩

theorem TableOp.run_typed (op : TableOp) {db : Option Table} (h : ∀ t ∈ db, t.Typed) :
    ∀ t ∈ (op.run db).1, t.Typed := by
  cases op with
  | put io r => exact put_typed h io r
  | get io q => exact h
  | updateAccessTime io q t => exact updateAccessTime_typed h io q t
  | markDirty io q d => exact markDirty_typed h io q d
  | remove io q => exact remove_typed h io q
  | allEntries io => exact h
  | restart io => exact init_typed h io

theorem LifeOp.step_typed (op : LifeOp) {st : Life} (h : st.Wf) (ht : ∀ t ∈ st.file, t.Typed) :
    ∃ st' o, op.step st = some (st', o) ∧ st'.Wf ∧ ∀ t ∈ st'.file, t.Typed := by
  cases op with
  | call op =>
    by_cases hop : ∃ io, op = .restart io
    · obtain ⟨io, rfl⟩ := hop
      exact ⟨_, _, step_restart h io, h.release.init io, init_typed ht io⟩
    · rw [step_call_of_ne fun io he => hop ⟨io, he⟩]
      cases hh : st.handle with
      | none => exact ⟨st, _, by rw [Life.call_of_handle_none hh]; rfl, h, ht⟩
      | some n =>
        exact ⟨_, _, by rw [Life.call_of_handle_some h hh]; rfl, h.withFile _, op.run_typed ht⟩
  | init io => exact ⟨_, _, rfl, h.init io, init_typed ht io⟩
  | cleanup execFails =>
    refine ⟨_, _, step_cleanup h execFails, h.release.withFile _, ?_⟩
    split
    exacts [cleanup_typed ht execFails, ht]
  | construct => exact ⟨_, _, step_construct h, h.release, ht⟩

/-- The stores never leave a NULL, or a value of another type, in a column: from a process whose
database has typed rows, every run of calls, `init`, `cleanup` and new stores is defined and
leaves typed rows, however its opens, `CREATE TABLE`s and `DROP`s, prepares and steps turn out
(every bind succeeding). -/
theorem runLife_typed (st : Life) (h : st.Wf) (ht : ∀ t ∈ st.file, t.Typed) (ops : List LifeOp) :
    ∃ st' os, runLife st ops = some (st', os) ∧ ∀ t ∈ st'.file, t.Typed :=
  (runLife_of_step _ (fun op _ h ht => op.step_typed h ht) ops h ht).imp fun _ =>
    .imp fun _ ⟨hr, _, ht'⟩ => ⟨hr, ht'⟩

/-- A fresh process: `init`, a `put` whose step fails, two `put`s of one path, `markDirty`, a
`cleanup` whose `DROP` fails, and `remove` on the store without a connection. -/
theorem runLife_typed_put_cleanup :
    let st : Life := ⟨none, 0, [], none⟩
    let ops := [LifeOp.init .healthy,
      .call (.put ⟨false, fun _ => true⟩ ⟨"/a", "/c/a", 3, 1, 2, true⟩),
      .call (.put .healthy ⟨"/a", "/c/a", 3, 1, 2, true⟩),
      .call (.put .healthy ⟨"/a", "/d/a\x00", 5, 1, 4, false⟩),
      .call (.markDirty .healthy "/a" true), .cleanup true, .call (.remove .healthy "/a")]
    st.Wf ∧ (∀ t ∈ st.file, t.Typed) ∧
      ∃ st' os, runLife st ops = some (st', os) ∧ ∀ t ∈ st'.file, t.Typed :=
  have h : Life.Wf ⟨none, 0, [], none⟩ := ⟨List.nodup_nil, by simp, by simp⟩
  have ht : ∀ t ∈ (none : Option Table), t.Typed := fun _ h => nomatch h
  ⟨h, ht, runLife_typed _ h ht _⟩

/-! ## What the stores are for -/

/-- What the stores on `db_path` are for: the database's table as a map while it has one, and
whether the current store holds a connection. -/
structure AbsLife where
  table : Option MetaMap
  connected : Bool

namespace AbsLife

/-- The map a store answers from: the table's, while it holds a connection. -/
def answering (a : AbsLife) : Option MetaMap :=
  if a.connected then a.table else none

/-- An open that succeeds connects the store, and a `CREATE TABLE` that succeeds gives the
database its table: the map it had, or an empty one. -/
def init (a : AbsLife) (io : InitIo) : AbsLife :=
  if io.openFails then a
  else
    { table := if io.execFails then a.table else some (a.table.getD fun _ => none)
      connected := true }

/-- A store with a connection loses it, and the table goes unless the `DROP` fails. -/
def cleanup (a : AbsLife) (execFails : Bool) : AbsLife :=
  if a.connected then { table := if execFails then a.table else none, connected := false } else a

end AbsLife

/-- What a call returns when its `sqlite3_prepare_v2` fails. -/
def TableOp.failure : TableOp → Obs
  | .get _ _ => .entry none
  | .allEntries _ => .entries []
  | _ => .status false

theorem TableOp.run_none {op : TableOp} (hop : ∀ io, op ≠ .restart io) :
    op.run none = (none, op.failure) := by
  cases op <;> first
    | exact absurd rfl (hop _)
    | simp [run, failure, CacheEngine.put, CacheEngine.updateAccessTime, CacheEngine.markDirty,
        CacheEngine.remove, CacheEngine.get, CacheEngine.allEntries, execute, prepare]

theorem init_snd (db : Option Table) (io : InitIo) :
    (init db io).2 = (!io.openFails && !io.execFails) := by
  unfold init
  split_ifs <;> simp_all

namespace LifeOp

/-- What the abstract stores allow an event to return: `init` reports whether both its calls
succeeded; a call answers as the map allows while the store answers from one, and fails
otherwise; `cleanup` and a new store return nothing. -/
def Allows : LifeOp → AbsLife → Option Obs → Prop
  | .call (.restart io), _, o | .init io, _, o =>
    o = some (.status (!io.openFails && !io.execFails))
  | .call op, a, o =>
    match a.answering with
    | some A => ∃ o', o = some o' ∧ op.Allows A o'
    | none => o = some op.failure
  | .cleanup _, _, o | .construct, _, o => o = none

/-- The abstract stores after the event, given what it returned: a call acts on the map it
answers from as `TableOp.absStepObs` says. -/
def absStep : LifeOp → Option Obs → AbsLife → AbsLife
  | .call (.restart io), _, a => ({ a with connected := false } : AbsLife).init io
  | .call op, o, a =>
    match a.answering, o with
    | some A, some o => { a with table := some (op.absStepObs o A) }
    | _, _ => a
  | .init io, _, a => a.init io
  | .cleanup execFails, _, a => a.cleanup execFails
  | .construct, _, a => { a with connected := false }

theorem allows_call_of_ne {op : TableOp} (hop : ∀ io, op ≠ .restart io) (a : AbsLife)
    (o : Option Obs) :
    (call op).Allows a o = match a.answering with
      | some A => ∃ o', o = some o' ∧ op.Allows A o'
      | none => o = some op.failure := by
  cases op <;> first | rfl | exact absurd rfl (hop _)

theorem absStep_call_of_ne {op : TableOp} (hop : ∀ io, op ≠ .restart io) (o : Option Obs)
    (a : AbsLife) :
    (call op).absStep o a = match a.answering, o with
      | some A, some o => { a with table := some (op.absStepObs o A) }
      | _, _ => a := by
  cases op <;> first | rfl | exact absurd rfl (hop _)

end LifeOp

/-- The database has the table exactly when the abstract store has a map, and then refines
it. -/
def TableRefines (file : Option Table) : Option MetaMap → Prop
  | none => file = none
  | some A => Refines file A

/-- The process refines the abstract stores: its connections are well kept, the store holds
one exactly when it is connected, and the database refines the table. -/
structure LifeRefines (st : Life) (a : AbsLife) : Prop where
  wf : st.Wf
  connected : st.handle.isSome = a.connected
  table : TableRefines st.file a.table

theorem TableRefines.getD {file : Option Table} {t : Option MetaMap} (h : TableRefines file t) :
    TableRefines (some (file.getD ⟨[]⟩)) (some (t.getD fun _ => none)) := by
  cases t with
  | none =>
    obtain rfl : file = none := h
    exact ⟨[], ⟨rfl, List.nodup_nil, by simp⟩, rfl⟩
  | some A =>
    obtain ⟨rs, ⟨rfl, hnd, hnf⟩, rfl⟩ := h
    exact ⟨rs, ⟨rfl, hnd, hnf⟩, rfl⟩

namespace LifeRefines

variable {st : Life} {a : AbsLife}

theorem release (h : LifeRefines st a) : LifeRefines st.release { a with connected := false } :=
  ⟨h.wf.release, rfl, h.table⟩

theorem init (h : LifeRefines st a) (io : InitIo) : LifeRefines (st.init io).1 (a.init io) := by
  refine ⟨h.wf.init io, ?_, ?_⟩
  · cases ho : io.openFails <;> simp [Life.init, AbsLife.init, ho, h.connected]
  · simp only [Life.init, AbsLife.init, CacheEngine.init]
    cases ho : io.openFails
    · cases he : io.execFails
      · simpa using h.table.getD
      · simpa using h.table
    · simpa using h.table

theorem cleanup (h : LifeRefines st a) (execFails : Bool) :
    LifeRefines { st.release with
      file := if st.handle.isSome then CacheEngine.cleanup st.file execFails else st.file }
      (a.cleanup execFails) := by
  have hc := h.connected
  refine ⟨h.wf.release.withFile _, ?_, ?_⟩
  · cases ha : a.connected <;> simp [AbsLife.cleanup, ha, Life.release]
  · cases hh : st.handle <;> rw [hh] at hc
    · simpa [AbsLife.cleanup, ← hc] using h.table
    · cases execFails
      · simp [AbsLife.cleanup, ← hc, CacheEngine.cleanup, TableRefines]
      · simpa [AbsLife.cleanup, ← hc, CacheEngine.cleanup] using h.table

/-- A call from a process that refines `a`: on a store without a connection, or a database
without the table, it fails and changes nothing; otherwise it acts as `TableOp.run_allows`
says. -/
theorem call (h : LifeRefines st a) {op : TableOp} (hop : ∀ io, op ≠ .restart io)
    (hn : op.NulFree) :
    ∃ st' o, (LifeOp.call op).step st = some (st', o) ∧ (LifeOp.call op).Allows a o ∧
      LifeRefines st' ((LifeOp.call op).absStep o a) := by
  simp only [LifeOp.step_call_of_ne hop, LifeOp.allows_call_of_ne hop,
    LifeOp.absStep_call_of_ne hop]
  have hc := h.connected
  cases hh : st.handle with
  | none =>
    have ha : a.answering = none := by simp [AbsLife.answering, ← hc, hh]
    refine ⟨st, some (op.run none).2, by rw [Life.call_of_handle_none hh]; rfl, ?_, ?_⟩
    · rw [ha, TableOp.run_none hop]
    · rw [ha]
      exact h
  | some n =>
    have ha : a.answering = a.table := by simp [AbsLife.answering, ← hc, hh]
    refine ⟨{ st with file := (op.run st.file).1 }, some (op.run st.file).2,
      by rw [Life.call_of_handle_some h.wf hh]; rfl, ?_⟩
    have ht := h.table
    rw [ha]
    cases hA : a.table with rw [hA] at ht
    | none =>
      rw [show st.file = none from ht, TableOp.run_none hop]
      exact ⟨rfl, h.wf.withFile _, hc, by simp [hA, TableRefines]⟩
    | some A =>
      obtain ⟨hal, href⟩ := TableOp.run_allows ht hn
      exact ⟨⟨_, rfl, hal⟩, h.wf.withFile _, hc, href⟩

end LifeRefines

/-- One event from a process that refines `a`: it is defined, returns what `a` allows, and
leaves a process that refines `a` after it. -/
theorem LifeOp.step_allows (op : LifeOp) {st : Life} {a : AbsLife} (h : LifeRefines st a)
    (hn : op.NulFree) :
    ∃ st' o, op.step st = some (st', o) ∧ op.Allows a o ∧
      LifeRefines st' (op.absStep o a) := by
  cases op with
  | call op =>
    by_cases hop : ∃ io, op = .restart io
    · obtain ⟨io, rfl⟩ := hop
      exact ⟨_, _, step_restart h.wf io, congrArg (some ∘ Obs.status) (init_snd _ io),
        h.release.init io⟩
    · exact h.call (fun io he => hop ⟨io, he⟩) hn
  | init io => exact ⟨_, _, rfl, congrArg (some ∘ Obs.status) (init_snd _ io), h.init io⟩
  | cleanup execFails => exact ⟨_, _, step_cleanup h.wf execFails, rfl, h.cleanup execFails⟩
  | construct => exact ⟨_, _, step_construct h.wf, rfl, h.release⟩

/-- The answers `os` are ones the abstract stores allow along the events, from `a` on. -/
def LifeAllows : AbsLife → List LifeOp → List (Option Obs) → Prop
  | _, [], [] => True
  | a, op :: ops, o :: os => op.Allows a o ∧ LifeAllows (op.absStep o a) ops os
  | _, _, _ => False

/-- Across the lifecycle of the stores on one database, however their opens, `CREATE TABLE`s and
`DROP`s, prepares and steps turn out (every bind succeeding), from a process that refines `a`: the run is defined, and every event returns what the abstract
stores allow. A store without a connection (new, after a failed open, or after `cleanup`) and
a database without the table fail every call and change nothing; `cleanup` drops the table
unless the `DROP` fails; `init` keeps the table there is; and calls on a connected store with
the table act on its map as `observe_allows` says. -/
theorem runLife_allows (st : Life) (a : AbsLife) (ops : List LifeOp) (h : LifeRefines st a)
    (hn : ∀ op ∈ ops, op.NulFree) :
    ∃ st' os, runLife st ops = some (st', os) ∧ LifeAllows a ops os := by
  induction ops generalizing st a with
  | nil => exact ⟨st, [], rfl, trivial⟩
  | cons op ops ih =>
    obtain ⟨st₁, o, hs, hal, h₁⟩ := op.step_allows h (hn op (.head _))
    obtain ⟨st', os, hr, hos⟩ := ih st₁ _ h₁ fun o ho => hn o (.tail _ ho)
    exact ⟨st', o :: os, by simp [runLife, hs, hr], hal, hos⟩

/-- A fresh process: `init`, a `put`, `cleanup`, a `get` on the store without a connection,
`init` again, and `allEntries`. -/
theorem runLife_allows_cleanup_reinit :
    let st : Life := ⟨none, 0, [], none⟩
    let ops := [LifeOp.init .healthy, .call (.put .healthy ⟨"/a", "/c/a", 3, 1, 2, true⟩),
      .cleanup false, .call (.get .healthy "/a"), .init .healthy, .call (.allEntries .healthy)]
    LifeRefines st ⟨none, false⟩ ∧ (∀ op ∈ ops, op.NulFree) ∧
      ∃ st' os, runLife st ops = some (st', os) ∧ LifeAllows ⟨none, false⟩ ops os :=
  have h : LifeRefines ⟨none, 0, [], none⟩ ⟨none, false⟩ :=
    ⟨⟨List.nodup_nil, by simp, by simp⟩, rfl, rfl⟩
  have hn : ∀ op ∈ [LifeOp.init .healthy,
      .call (.put .healthy ⟨"/a", "/c/a", 3, 1, 2, true⟩), .cleanup false,
      .call (.get .healthy "/a"), .init .healthy, .call (.allEntries .healthy)],
      op.NulFree := by
    decide
  ⟨h, hn, runLife_allows _ _ _ h hn⟩

end CacheEngine

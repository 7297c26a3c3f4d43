import CacheEngine.Table.Store

/-! # The table refines a finite map

What the metadata table is for: a finite map from path to `CacheMetadata`. Over any run of the
store's calls and restarts in which every SQLite call succeeds and no path or local path holds
a NUL character, the table holds the rows of such a map, each as `put` encodes it, and every
call answers as the map does. The proof goes through a list of logical rows with distinct
paths (`Holds`): each call's effect on the encoded table is first computed on that list, and
the list's `lookup` is then matched with the map.
-/

namespace CacheEngine

/-! ## Rows as `put` writes them -/

/-- The row that `put(r)` leaves in the table. -/
def encodeRow (r : CacheMetadata) : Row :=
  [.text r.path, .text r.localPath, .integer (toInt64 r.size), .integer r.timestamp,
    .integer r.lastAccessed, .integer (if r.dirty then 1 else 0)]

/-- The strings of a row hold no NUL character. -/
def CacheMetadata.NulFree (r : CacheMetadata) : Prop :=
  CacheEngine.NulFree r.path ∧ CacheEngine.NulFree r.localPath

instance (r : CacheMetadata) : Decidable r.NulFree :=
  inferInstanceAs (Decidable (NulFree r.path ∧ NulFree r.localPath))

@[simp] theorem column_path_encodeRow (r : CacheMetadata) :
    (encodeRow r).column "path" = .text r.path :=
  rfl

/-- The loop of `allEntries` reads back the row `put` wrote. -/
theorem readEntry_encodeRow {r : CacheMetadata} (h : r.NulFree) : readEntry (encodeRow r) = r := by
  have hread : readEntry (encodeRow r) = { r with
      path := cStr r.path
      localPath := cStr r.localPath
      size := ofInt64 (toInt64 r.size)
      dirty := toInt32 (if r.dirty then 1 else 0) != 0 } := rfl
  rw [hread, cStr_of_nulFree h.1, cStr_of_nulFree h.2, ofInt64_toInt64, toInt32_dirty]

/-! ## The statements on encoded rows -/

/-- The call `put(r)` on logical rows: `r` replaces the row of its path, or is appended. -/
def upsertMeta (r : CacheMetadata) : List CacheMetadata → List CacheMetadata
  | [] => [r]
  | r' :: rest => if r'.path = r.path then r :: rest else r' :: upsertMeta r rest

theorem upsertRows_encodeRow (r : CacheMetadata) (rs : List CacheMetadata) :
    upsertRows "path" ["local_path", "size", "timestamp", "last_accessed", "dirty"] (encodeRow r)
      (rs.map encodeRow) = (upsertMeta r rs).map encodeRow := by
  induction rs with
  | nil => rfl
  | cons r' rest ih =>
    by_cases h : r'.path = r.path
    · have hset : (encodeRow r').setColumns (["local_path", "size", "timestamp", "last_accessed",
          "dirty"].map fun c => (c, (encodeRow r).column c)) = encodeRow { r with path := r'.path } :=
        rfl
      rw [h] at hset
      simp only [List.map_cons, upsertRows, column_path_encodeRow, SqlValue.sqlEq_text, h,
        beq_self_eq_true, if_true, upsertMeta]
      exact congrArg (· :: rest.map encodeRow) hset
    · simp [upsertRows, upsertMeta, h, ih]

theorem put_encoded {rs : List CacheMetadata} {r : CacheMetadata} (hr : r.NulFree) {io : StmtIo}
    (hs : io.succeeds) :
    put (some ⟨rs.map encodeRow⟩) io r =
      (some ⟨(upsertMeta r rs).map encodeRow⟩, true) := by
  have hrow : insertedRow ["path", "local_path", "size", "timestamp", "last_accessed", "dirty"]
      (bindInt (bindInt64 (bindInt64 (bindInt64 (bindText (bindText noParams 1 r.path) 2
        r.localPath) 3 (toInt64 r.size)) 4 r.timestamp) 5 r.lastAccessed) 6
        (if r.dirty then 1 else 0)) =
        encodeRow { r with path := cStr r.path, localPath := cStr r.localPath } :=
    rfl
  rw [put, execute_of_succeeds _ _ _ hs, putSql, Stmt.exec, hrow, cStr_of_nulFree hr.1,
    cStr_of_nulFree hr.2, upsertRows_encodeRow]

/-- The two `UPDATE … SET c=? WHERE path=?` statements on encoded rows: the rows of `q` take
`f`, where setting column `c` to `v` in an encoded row encodes `f` of it. -/
theorem update_encoded (c : String) (v : SqlValue) (f : CacheMetadata → CacheMetadata)
    (hf : ∀ r, (encodeRow r).setColumns [(c, v)] = encodeRow (f r)) (rs : List CacheMetadata)
    {q : String} (hq : NulFree q) :
    (Stmt.update [(c, 1)] ("path", 2)).exec (bindText (Function.update noParams 1 v) 2 q)
      ⟨rs.map encodeRow⟩ =
        ⟨(rs.map fun r => if r.path = q then f r else r).map encodeRow⟩ := by
  simp only [Stmt.exec, List.map_map, Table.mk.injEq]
  refine List.map_congr_left fun r _ => ?_
  by_cases h : r.path = q
  · simp [Row.matches, bindText, cStr_of_nulFree hq, h, hf]
  · simp [Row.matches, bindText, cStr_of_nulFree hq, h]

theorem updateAccessTime_encoded (rs : List CacheMetadata) {q : String} (hq : NulFree q)
    (lastAccessed : Int) {io : StmtIo} (hs : io.succeeds) :
    updateAccessTime (some ⟨rs.map encodeRow⟩) io q lastAccessed =
      (some ⟨(rs.map fun r => if r.path = q then { r with lastAccessed } else r).map encodeRow⟩,
        true) := by
  rw [updateAccessTime, execute_of_succeeds _ _ _ hs, updateAccessTimeSql, bindInt64,
    update_encoded "last_accessed" (.integer lastAccessed) (fun r => { r with lastAccessed })
      (fun _ => rfl) rs hq]

theorem markDirty_encoded (rs : List CacheMetadata) {q : String} (hq : NulFree q) (dirty : Bool)
    {io : StmtIo} (hs : io.succeeds) :
    markDirty (some ⟨rs.map encodeRow⟩) io q dirty =
      (some ⟨(rs.map fun r => if r.path = q then { r with dirty } else r).map encodeRow⟩,
        true) := by
  rw [markDirty, execute_of_succeeds _ _ _ hs, markDirtySql, bindInt, bindInt64,
    update_encoded "dirty" (.integer (if dirty then 1 else 0)) (fun r => { r with dirty })
      (fun _ => rfl) rs hq]

theorem remove_encoded (rs : List CacheMetadata) {q : String} (hq : NulFree q) {io : StmtIo}
    (hs : io.succeeds) :
    remove (some ⟨rs.map encodeRow⟩) io q =
      (some ⟨(rs.filter fun r => r.path != q).map encodeRow⟩, true) := by
  rw [remove, execute_of_succeeds _ _ _ hs, removeSql]
  simp [Stmt.exec, List.filter_map, Row.matches, bindText, cStr_of_nulFree hq, Function.comp_def,
    bne]

/-- The map of a list of logical rows: the first row of each path. -/
def lookup (rs : List CacheMetadata) (q : String) : Option CacheMetadata :=
  rs.find? (·.path == q)

theorem get_encoded {rs : List CacheMetadata} (hnf : ∀ r ∈ rs, r.NulFree) {q : String}
    (hq : NulFree q) {io : StmtIo} (hs : io.succeeds) :
    get (some ⟨rs.map encodeRow⟩) io q = lookup rs q := by
  have hget : get (some ⟨rs.map encodeRow⟩) io q = (lookup rs q).map fun r =>
      { readEntry (encodeRow r) with path := q } := by
    simp only [get, prepare, hs.1, Bool.false_eq_true, if_false, stepRows_of_succeeds hs,
      results_getSql, cStr_of_nulFree hq, List.filter_map, List.map_map, List.head?_map,
      List.filter_head?, Option.map_map, Function.comp_def, column_path_encodeRow,
      SqlValue.sqlEq_text, lookup]
    rfl
  rw [hget]
  cases hf : lookup rs q with
  | none => rfl
  | some r =>
    have hpath : r.path = q := by simpa using List.find?_some hf
    rw [Option.map_some', readEntry_encodeRow (hnf r (List.mem_of_find?_eq_some hf)), ← hpath]

theorem allEntries_encoded {rs : List CacheMetadata} (hnf : ∀ r ∈ rs, r.NulFree) {io : StmtIo}
    (hs : io.succeeds) : allEntries (some ⟨rs.map encodeRow⟩) io = rs := by
  simp only [allEntries, prepare, hs.1, Bool.false_eq_true, if_false, stepRows_of_succeeds hs,
    results_allEntriesSql, List.map_map]
  conv_rhs => rw [← List.map_id rs]
  exact List.map_congr_left fun r hr => (readEntry_project _).trans (readEntry_encodeRow (hnf r hr))

/-! ## The map of the logical rows -/

theorem lookup_cons (r : CacheMetadata) (rs : List CacheMetadata) (q : String) :
    lookup (r :: rs) q = if r.path = q then some r else lookup rs q := by
  by_cases h : r.path = q <;> simp [lookup, List.find?_cons, h]

theorem lookup_upsertMeta (r : CacheMetadata) (rs : List CacheMetadata) :
    lookup (upsertMeta r rs) = Function.update (lookup rs) r.path (some r) := by
  funext q
  rw [Function.update_apply]
  by_cases hq : q = r.path
  · subst hq
    rw [if_pos rfl]
    induction rs with
    | nil => simp [upsertMeta, lookup_cons]
    | cons r' rest ih => by_cases h : r'.path = r.path <;> simp [upsertMeta, lookup_cons, h, ih]
  · rw [if_neg hq]
    induction rs with
    | nil => simp [upsertMeta, lookup_cons, Ne.symm hq, lookup]
    | cons r' rest ih =>
      by_cases h : r'.path = r.path <;> simp [upsertMeta, lookup_cons, h, ih, Ne.symm hq]

theorem mem_upsertMeta {r x : CacheMetadata} {rs : List CacheMetadata}
    (hx : x ∈ upsertMeta r rs) :
    x = r ∨ x ∈ rs := by
  induction rs with
  | nil => simpa [upsertMeta] using hx
  | cons r' rest ih =>
    by_cases h : r'.path = r.path
    · simp only [upsertMeta, h, if_true, List.mem_cons] at hx
      rcases hx with rfl | hx
      · exact .inl rfl
      · exact .inr (.tail _ hx)
    · simp only [upsertMeta, h, if_false, List.mem_cons] at hx
      rcases hx with rfl | hx
      · exact .inr (.head _)
      · exact (ih hx).imp_right (.tail _)

theorem nodup_upsertMeta (r : CacheMetadata) {rs : List CacheMetadata}
    (hnd : (rs.map (·.path)).Nodup) : ((upsertMeta r rs).map (·.path)).Nodup := by
  induction rs with
  | nil => simp [upsertMeta]
  | cons r' rest ih =>
    rw [List.map_cons, List.nodup_cons] at hnd
    by_cases h : r'.path = r.path
    · simpa [upsertMeta, h] using hnd
    · simp only [upsertMeta, h, if_false, List.map_cons, List.nodup_cons]
      refine ⟨fun hm => ?_, ih hnd.2⟩
      obtain ⟨x, hx, hxp⟩ := List.mem_map.mp hm
      rcases mem_upsertMeta hx with rfl | hx
      · exact h hxp.symm
      · exact hnd.1 (List.mem_map.mpr ⟨x, hx, hxp⟩)

theorem lookup_map_update (q : String) (f : CacheMetadata → CacheMetadata)
    (hf : ∀ r, (f r).path = r.path) (rs : List CacheMetadata) :
    lookup (rs.map fun r => if r.path = q then f r else r) =
      Function.update (lookup rs) q ((lookup rs q).map f) := by
  funext q'
  rw [Function.update_apply]
  by_cases hq : q' = q
  · subst hq
    rw [if_pos rfl]
    induction rs with
    | nil => rfl
    | cons r rest ih => by_cases h : r.path = q' <;> simp [lookup_cons, h, hf, ih]
  · rw [if_neg hq]
    induction rs with
    | nil => rfl
    | cons r rest ih => by_cases h : r.path = q <;> simp [lookup_cons, h, hf, ih, Ne.symm hq]

theorem lookup_filter_ne (q : String) (rs : List CacheMetadata) :
    lookup (rs.filter fun r => r.path != q) = Function.update (lookup rs) q none := by
  funext q'
  rw [Function.update_apply]
  by_cases hq : q' = q
  · subst hq
    simp [lookup, List.find?_filter]
  · rw [if_neg hq]
    induction rs with
    | nil => rfl
    | cons r rest ih =>
      by_cases h : r.path = q <;> simp [List.filter_cons, lookup_cons, h, ih, Ne.symm hq]

theorem lookup_eq_some_iff {rs : List CacheMetadata} (hnd : (rs.map (·.path)).Nodup)
    (r : CacheMetadata) : lookup rs r.path = some r ↔ r ∈ rs := by
  refine ⟨List.mem_of_find?_eq_some, fun hr => ?_⟩
  induction rs with
  | nil => cases hr
  | cons x rest ih =>
    rw [List.map_cons, List.nodup_cons] at hnd
    rw [lookup_cons]
    rcases List.mem_cons.mp hr with rfl | hr
    · simp
    · have hne : x.path ≠ r.path := fun he => hnd.1 (he ▸ List.mem_map_of_mem _ hr)
      rw [if_neg hne, ih hnd.2 hr]

/-! ## Runs -/

/-- What the table is for: a finite map from path to row. -/
abbrev MetaMap := String → Option CacheMetadata

/-- The database holds, as `put` writes them, the logical rows `rs`: free of NUL characters,
with distinct paths. -/
structure Holds (db : Option Table) (rs : List CacheMetadata) : Prop where
  table : db = some ⟨rs.map encodeRow⟩
  nodup : (rs.map (·.path)).Nodup
  nulFree : ∀ r ∈ rs, r.NulFree

/-- The database refines the map `A`: it holds logical rows whose map is `A`. -/
def Refines (db : Option Table) (A : MetaMap) : Prop :=
  ∃ rs, Holds db rs ∧ A = lookup rs

theorem refines_init_none {io : InitIo} (hs : io.openFails = false ∧ io.execFails = false) :
    Refines (init none io).1 fun _ => none :=
  ⟨[], ⟨by simp [init, hs.1, hs.2], List.nodup_nil, by simp⟩, rfl⟩

theorem refines_upsert {rs : List CacheMetadata} (h : Holds (some ⟨rs.map encodeRow⟩) rs)
    {r : CacheMetadata} (hr : r.NulFree) :
    Refines (some ⟨(upsertMeta r rs).map encodeRow⟩)
      (Function.update (lookup rs) r.path (some r)) :=
  ⟨upsertMeta r rs, ⟨rfl, nodup_upsertMeta r h.nodup, fun x hx =>
    (mem_upsertMeta hx).elim (· ▸ hr) (h.nulFree x)⟩, (lookup_upsertMeta r rs).symm⟩

theorem refines_update {rs : List CacheMetadata} (h : Holds (some ⟨rs.map encodeRow⟩) rs)
    (q : String) (f : CacheMetadata → CacheMetadata) (hfp : ∀ r, (f r).path = r.path)
    (hfl : ∀ r, (f r).localPath = r.localPath) :
    Refines (some ⟨(rs.map fun r => if r.path = q then f r else r).map encodeRow⟩)
      (Function.update (lookup rs) q ((lookup rs q).map f)) := by
  have hpaths :
      (rs.map fun r => if r.path = q then f r else r).map (·.path) = rs.map (·.path) := by
    rw [List.map_map]
    exact List.map_congr_left fun r _ => by by_cases hq : r.path = q <;> simp [hq, hfp]
  refine ⟨_, ⟨rfl, hpaths ▸ h.nodup, fun x hx => ?_⟩, (lookup_map_update q f hfp rs).symm⟩
  obtain ⟨r, hr, rfl⟩ := List.mem_map.mp hx
  have hnf := h.nulFree r hr
  by_cases hq : r.path = q
  · simpa [hq, CacheMetadata.NulFree, hfp, hfl] using hnf
  · simpa [hq] using hnf

theorem refines_remove {rs : List CacheMetadata} (h : Holds (some ⟨rs.map encodeRow⟩) rs)
    (q : String) :
    Refines (some ⟨(rs.filter fun r => r.path != q).map encodeRow⟩)
      (Function.update (lookup rs) q none) :=
  ⟨_, ⟨rfl, (h.nodup.sublist ((List.filter_sublist rs).map _)),
    fun x hx => h.nulFree x (List.mem_of_mem_filter hx)⟩, (lookup_filter_ne q rs).symm⟩

/-- One call of the store on its table, with how its SQLite calls turn out. `restart` is a
new `MetadataStore` on the same `db_path` running `init`. -/
inductive TableOp
  | put (io : StmtIo) (meta : CacheMetadata)
  | get (io : StmtIo) (path : String)
  | updateAccessTime (io : StmtIo) (path : String) (lastAccessed : Int)
  | markDirty (io : StmtIo) (path : String) (dirty : Bool)
  | remove (io : StmtIo) (path : String)
  | allEntries (io : StmtIo)
  | restart (io : InitIo)

/-- What a call returns. -/
inductive Obs
  | status (ok : Bool)
  | entry (meta : Option CacheMetadata)
  | entries (metas : List CacheMetadata)
  deriving DecidableEq, Repr

namespace TableOp

/-- The database after the call, and what the call returns. -/
def run : TableOp → Option Table → Option Table × Obs
  | .put io r, db => Prod.map id .status (CacheEngine.put db io r)
  | .get io q, db => (db, .entry (CacheEngine.get db io q))
  | .updateAccessTime io q t, db => Prod.map id .status (CacheEngine.updateAccessTime db io q t)
  | .markDirty io q d, db => Prod.map id .status (CacheEngine.markDirty db io q d)
  | .remove io q, db => Prod.map id .status (CacheEngine.remove db io q)
  | .allEntries io, db => (db, .entries (CacheEngine.allEntries db io))
  | .restart io, db => Prod.map id .status (init db io)

/-- Every SQLite call that the call makes succeeds. -/
def succeeds : TableOp → Prop
  | .put io _ | .get io _ | .updateAccessTime io _ _ | .markDirty io _ _ | .remove io _
  | .allEntries io => io.succeeds
  | .restart io => io.openFails = false ∧ io.execFails = false

/-- The strings that the call passes hold no NUL character. -/
def NulFree : TableOp → Prop
  | .put _ r => r.NulFree
  | .get _ q | .updateAccessTime _ q _ | .markDirty _ q _ | .remove _ q => CacheEngine.NulFree q
  | .allEntries _ | .restart _ => True

instance : (op : TableOp) → Decidable op.NulFree
  | .put _ r => inferInstanceAs (Decidable r.NulFree)
  | .get _ q | .updateAccessTime _ q _ | .markDirty _ q _ | .remove _ q =>
    inferInstanceAs (Decidable (CacheEngine.NulFree q))
  | .allEntries _ | .restart _ => inferInstanceAs (Decidable True)

/-- The call on the map. -/
def absStep : TableOp → MetaMap → MetaMap
  | .put _ r, A => Function.update A r.path (some r)
  | .updateAccessTime _ q t, A =>
    Function.update A q ((A q).map fun r => { r with lastAccessed := t })
  | .markDirty _ q d, A => Function.update A q ((A q).map fun r => { r with dirty := d })
  | .remove _ q, A => Function.update A q none
  | .get _ _, A | .allEntries _, A | .restart _, A => A

/-- What the map answers: the row of the path to `get`, its rows, one per path, to
`allEntries`, and success to every other call. -/
def Answers : TableOp → MetaMap → Obs → Prop
  | .get _ q, A, o => o = .entry (A q)
  | .allEntries _, A, o =>
    ∃ rs, o = .entries rs ∧ (rs.map (·.path)).Nodup ∧ ∀ r, r ∈ rs ↔ A r.path = some r
  | _, _, o => o = .status true

/-- One call from a database that refines `A` answers as `A` does, and leaves a database that
refines `A` after the call. -/
theorem run_refines {op : TableOp} {db : Option Table} {A : MetaMap} (h : Refines db A)
    (hs : op.succeeds) (hn : op.NulFree) :
    op.Answers A (op.run db).2 ∧ Refines (op.run db).1 (op.absStep A) := by
  obtain ⟨rs, hrs, rfl⟩ := h
  obtain ⟨rfl, hnd, hnf⟩ := hrs
  have hrs : Holds (some ⟨rs.map encodeRow⟩) rs := ⟨rfl, hnd, hnf⟩
  cases op with
  | put io r =>
    rw [run, put_encoded hn hs]
    exact ⟨rfl, refines_upsert hrs hn⟩
  | get io q =>
    rw [run, get_encoded hnf hn hs]
    exact ⟨rfl, rs, hrs, rfl⟩
  | updateAccessTime io q t =>
    rw [run, updateAccessTime_encoded rs hn t hs]
    exact ⟨rfl, refines_update hrs q _ (fun _ => rfl) fun _ => rfl⟩
  | markDirty io q d =>
    rw [run, markDirty_encoded rs hn d hs]
    exact ⟨rfl, refines_update hrs q _ (fun _ => rfl) fun _ => rfl⟩
  | remove io q =>
    rw [run, remove_encoded rs hn hs]
    exact ⟨rfl, refines_remove hrs q⟩
  | allEntries io =>
    rw [run, allEntries_encoded hnf hs]
    exact ⟨⟨rs, rfl, hnd, fun r => (lookup_eq_some_iff hnd r).symm⟩, rs, hrs, rfl⟩
  | restart io =>
    have hinit : init (some ⟨rs.map encodeRow⟩) io = (some ⟨rs.map encodeRow⟩, true) := by
      simp [init, hs.1, hs.2]
    rw [run, hinit]
    exact ⟨rfl, rs, hrs, rfl⟩

end TableOp

/-- What the calls return, in order. -/
def observe : Option Table → List TableOp → List Obs
  | _, [] => []
  | db, op :: ops => (op.run db).2 :: observe (op.run db).1 ops

/-- The answers `os` are those the map gives along the calls, from `A` on. -/
def MapAnswers : MetaMap → List TableOp → List Obs → Prop
  | _, [], [] => True
  | A, op :: ops, o :: os => op.Answers A o ∧ MapAnswers (op.absStep A) ops os
  | _, _, _ => False

/-- The table refines the finite map: from a database that refines `A`, any run of calls and
restarts in which every SQLite call succeeds and every string is free of NUL characters
answers, call after call, as the map does. -/
theorem observe_refines (db : Option Table) (A : MetaMap) (ops : List TableOp)
    (hdb : Refines db A) (hs : ∀ op ∈ ops, op.succeeds) (hn : ∀ op ∈ ops, op.NulFree) :
    MapAnswers A ops (observe db ops) := by
  induction ops generalizing db A with
  | nil => trivial
  | cons op ops ih =>
    have hstep := TableOp.run_refines hdb (hs op (.head _)) (hn op (.head _))
    exact ⟨hstep.1,
      ih _ _ hstep.2 (fun o ho => hs o (.tail _ ho)) fun o ho => hn o (.tail _ ho)⟩

/-- A fresh database after `init`: a `put`, a restart, a `get` and an `allEntries`. -/
theorem observe_refines_put_restart_get :
    let db := (init none .healthy).1
    let ops := [TableOp.put .healthy ⟨"/a", "/c/a", 3, 1, 2, true⟩, .restart .healthy,
      .get .healthy "/a", .allEntries .healthy]
    Refines db (fun _ => none) ∧ (∀ op ∈ ops, op.succeeds) ∧
      (∀ op ∈ ops, op.NulFree) ∧
      MapAnswers (fun _ => none) ops (observe db ops) :=
  have hdb : Refines (init none .healthy).1 fun _ => none := refines_init_none ⟨rfl, rfl⟩
  have hs : ∀ op ∈ [TableOp.put .healthy ⟨"/a", "/c/a", 3, 1, 2, true⟩, .restart .healthy,
      .get .healthy "/a", .allEntries .healthy], op.succeeds := by
    simp [TableOp.succeeds, StmtIo.succeeds, StmtIo.healthy, InitIo.healthy]
  have hn : ∀ op ∈ [TableOp.put .healthy ⟨"/a", "/c/a", 3, 1, 2, true⟩, .restart .healthy,
      .get .healthy "/a", .allEntries .healthy], op.NulFree := by
    decide
  ⟨hdb, hs, hn, observe_refines _ _ _ hdb hs hn⟩

/-! ## Runs with failures

The failures are those of `StmtIo` and `InitIo`: `sqlite3_prepare_v2`, `sqlite3_step`,
`sqlite3_open` and `sqlite3_exec`. Binds are taken to succeed (see `CacheEngine.Table.Store`).
-/

namespace TableOp

/-- What the map allows a call to return when SQLite calls may fail: any status from a call
that modifies the table or restarts, `nullopt` or the map's row from `get`, and some of the
map's rows, each once, from `allEntries`. -/
def Allows : TableOp → MetaMap → Obs → Prop
  | .get _ q, A, o => o = .entry none ∨ o = .entry (A q)
  | .allEntries _, A, o =>
    ∃ rs, o = .entries rs ∧ (rs.map (·.path)).Nodup ∧ ∀ r ∈ rs, A r.path = some r
  | _, _, o => ∃ ok, o = .status ok

/-- The map after the call, given what the call returned: a call that reports failure leaves
it as it was. -/
def absStepObs (op : TableOp) (o : Obs) (A : MetaMap) : MetaMap :=
  if o = .status false then A else op.absStep A

theorem absStepObs_false (op : TableOp) (A : MetaMap) : op.absStepObs (.status false) A = A :=
  if_pos rfl

theorem absStepObs_true (op : TableOp) (A : MetaMap) :
    op.absStepObs (.status true) A = op.absStep A :=
  if_neg (by simp)

/-- A call that modifies the table, from a database that refines `A`: it reports failure and
leaves the database, or it does what it does when every SQLite call succeeds, which reports
success and leaves a database that refines its step on `A`. -/
theorem allows_of_fails_or {op : TableOp} {db : Option Table} {A : MetaMap} (h : Refines db A)
    (res res' : Option Table × Bool) (hrun : op.run db = Prod.map id .status res)
    (hres : res = (db, false) ∨ res = res') (hok : res'.2 = true)
    (href : Refines res'.1 (op.absStep A)) :
    op.Allows A (op.run db).2 ∧ Refines (op.run db).1 (op.absStepObs (op.run db).2 A) := by
  obtain ⟨db', b⟩ := res
  have hstatus : ∃ ok, (op.run db).2 = .status ok := ⟨b, by rw [hrun]; rfl⟩
  refine ⟨by cases op <;> first | exact hstatus | simp [run] at hrun, ?_⟩
  rw [hrun]
  rcases hres with he | rfl
  · cases he
    exact (absStepObs_false op A).symm ▸ h
  · obtain rfl : b = true := hok
    exact (absStepObs_true op A).symm ▸ href

/-- One call from a database that refines `A`, however its prepare, steps, or `init`'s open and
`CREATE TABLE` turn out: it returns what `A` allows, and leaves a database that refines `A` after the call if it reports success,
and `A` itself if it reports failure. -/
theorem run_allows {op : TableOp} {db : Option Table} {A : MetaMap} (h : Refines db A)
    (hn : op.NulFree) :
    op.Allows A (op.run db).2 ∧ Refines (op.run db).1 (op.absStepObs (op.run db).2 A) := by
  obtain ⟨rs, hrs, rfl⟩ := h
  obtain ⟨rfl, hnd, hnf⟩ := hrs
  have hrs : Holds (some ⟨rs.map encodeRow⟩) rs := ⟨rfl, hnd, hnf⟩
  have href : Refines (some ⟨rs.map encodeRow⟩) (lookup rs) := ⟨rs, hrs, rfl⟩
  have hok := StmtIo.healthy_succeeds
  cases op with
  | put io r =>
    refine allows_of_fails_or href _ (CacheEngine.put (some ⟨rs.map encodeRow⟩) .healthy r) rfl
      execute_fails_or_healthy ?_ ?_ <;> rw [put_encoded hn hok]
    exact refines_upsert hrs hn
  | updateAccessTime io q t =>
    refine allows_of_fails_or href _
      (CacheEngine.updateAccessTime (some ⟨rs.map encodeRow⟩) .healthy q t) rfl
      execute_fails_or_healthy ?_ ?_ <;> rw [updateAccessTime_encoded rs hn t hok]
    exact refines_update hrs q _ (fun _ => rfl) fun _ => rfl
  | markDirty io q d =>
    refine allows_of_fails_or href _
      (CacheEngine.markDirty (some ⟨rs.map encodeRow⟩) .healthy q d) rfl
      execute_fails_or_healthy ?_ ?_ <;> rw [markDirty_encoded rs hn d hok]
    exact refines_update hrs q _ (fun _ => rfl) fun _ => rfl
  | remove io q =>
    refine allows_of_fails_or href _ (CacheEngine.remove (some ⟨rs.map encodeRow⟩) .healthy q) rfl
      execute_fails_or_healthy ?_ ?_ <;> rw [remove_encoded rs hn hok]
    exact refines_remove hrs q
  | restart io =>
    exact allows_of_fails_or href _ (some ⟨rs.map encodeRow⟩, true) rfl (init_some _ io) rfl href
  | get io q =>
    refine ⟨?_, by simpa [run, absStepObs, absStep] using href⟩
    rw [run, get_eq_ite]
    split
    exacts [.inl rfl, .inr (by rw [get_encoded hnf hn hok])]
  | allEntries io =>
    refine ⟨?_, by simpa [run, absStepObs, absStep] using href⟩
    obtain ⟨n, he, -, -⟩ := allEntries_eq_take ⟨rs.map encodeRow⟩ io
    have htake : ((rs.map encodeRow).take n).map readEntry = rs.take n := by
      rw [List.map_take, List.map_map]
      conv_rhs => rw [← List.map_id rs]
      exact congrArg (List.take n) (List.map_congr_left fun r hr => readEntry_encodeRow (hnf r hr))
    refine ⟨rs.take n, by rw [run, he, htake], ?_, fun r hr => ?_⟩
    · exact hnd.sublist ((List.take_sublist n rs).map _)
    · exact (lookup_eq_some_iff hnd r).mpr (List.mem_of_mem_take hr)

end TableOp

/-- The answers `os` are ones the map allows along the calls, from `A` on, with each call
that reports failure leaving the map as it was. -/
def MapAllows : MetaMap → List TableOp → List Obs → Prop
  | _, [], [] => True
  | A, op :: ops, o :: os => op.Allows A o ∧ MapAllows (op.absStepObs o A) ops os
  | _, _, _ => False

/-- However the prepares and steps of a run, and the opens and `CREATE TABLE`s of its restarts,
turn out (every bind succeeding), from a database that refines `A`: a call that reports success
acts on the map, a call that reports failure leaves it, `get` returns
`nullopt` or the map's row, and `allEntries` returns some of the map's rows, each once. No
update is lost without a failure being reported, and no read returns a row the map does not
hold. -/
theorem observe_allows (db : Option Table) (A : MetaMap) (ops : List TableOp)
    (hdb : Refines db A) (hn : ∀ op ∈ ops, op.NulFree) : MapAllows A ops (observe db ops) := by
  induction ops generalizing db A with
  | nil => trivial
  | cons op ops ih =>
    have hstep := TableOp.run_allows hdb (hn op (.head _))
    exact ⟨hstep.1, ih _ _ hstep.2 fun o ho => hn o (.tail _ ho)⟩

/-- From a fresh database: a `put` whose step fails, a `put` that succeeds, and a `get` whose
first step fails. -/
theorem observe_allows_failed_put_busy_get :
    let db := (init none .healthy).1
    let ops := [TableOp.put ⟨false, fun _ => true⟩ ⟨"/a", "/c/a", 3, 1, 2, true⟩,
      .put .healthy ⟨"/b", "/c/b", 4, 1, 2, false⟩, .get ⟨false, fun k => k == 0⟩ "/b"]
    Refines db (fun _ => none) ∧ (∀ op ∈ ops, op.NulFree) ∧
      MapAllows (fun _ => none) ops (observe db ops) :=
  have hdb : Refines (init none .healthy).1 fun _ => none := refines_init_none ⟨rfl, rfl⟩
  have hn : ∀ op ∈ [TableOp.put ⟨false, fun _ => true⟩ ⟨"/a", "/c/a", 3, 1, 2, true⟩,
      .put .healthy ⟨"/b", "/c/b", 4, 1, 2, false⟩, .get ⟨false, fun k => k == 0⟩ "/b"],
      op.NulFree := by
    decide
  ⟨hdb, hn, observe_allows _ _ _ hdb hn⟩

end CacheEngine

import CacheEngine.Bitmap.Persist

/-! # Runs of bitmap operations

A store and its disk under any interleaving of `markDirtyBlock`, `flushBitmaps` and
`loadBitmap`, each with its own file-operation outcomes. Marking and flushing only ever grow an
in-memory vector and add bits to it; `loadBitmap(h, p)` replaces the vector of `(h, p)` by the
bits of the file it reads, and leaves every other vector alone. So a dirty bit survives every
run that does not reload its own part. A flush whose `create_directories` throws ends there,
and the run goes on after it as if its caller caught the exception.
-/

namespace CacheEngine

/-- One bitmap call on a store, with how its file operations turn out. -/
inductive BitmapOp
  | markDirtyBlock (hashHex : String) (partIdx blockIdx : UInt64)
  | flushBitmaps (hashHex : String) (io : UInt64 → PersistIo)
  | loadBitmap (hashHex : String) (partIdx : UInt64) (io : LoadIo)

namespace BitmapOp

/-- The store and disk after the call; `none` when it is undefined. A flush that throws keeps
the files the loop wrote before the exception, and the run goes on: its caller is taken to
catch the `std::filesystem::filesystem_error`. -/
def step : BitmapOp → MetadataStore × Disk → Option (MetadataStore × Disk)
  | .markDirtyBlock h p b, (s, d) => (CacheEngine.markDirtyBlock s h p b).map (·, d)
  | .flushBitmaps h io, (s, d) => some (s, (CacheEngine.flushBitmaps s d io h).1)
  | .loadBitmap h p io, (s, d) => some ((CacheEngine.loadBitmap s d io h p).1, d)

/-- The call reloads part `p` of `h`. -/
def reloads : BitmapOp → String → UInt64 → Prop
  | .loadBitmap h' p' _, h, p => h' = h ∧ p' = p
  | _, _, _ => False

/-- The call is not a mark at `SIZE_MAX`. -/
def defined : BitmapOp → Prop
  | .markDirtyBlock _ _ b => b ≠ sizeMax
  | _ => True

end BitmapOp

/-- The calls in order; `none` once one of them is undefined. -/
def runOps : MetadataStore × Disk → List BitmapOp → Option (MetadataStore × Disk)
  | st, [] => some st
  | st, op :: rest => (op.step st).bind (runOps · rest)

/-- Vector `w` keeps every bit of `v` and is at least as long. -/
def Grows (v w : List Bool) : Prop :=
  v.length ≤ w.length ∧ ∀ i, v.getD i false = true → w.getD i false = true

theorem Grows.refl (v : List Bool) : Grows v v := ⟨le_rfl, fun _ h => h⟩

theorem Grows.trans {u v w : List Bool} (h₁ : Grows u v) (h₂ : Grows v w) : Grows u w :=
  ⟨h₁.1.trans h₂.1, fun i h => h₂.2 i (h₁.2 i h)⟩

theorem Grows.set {v w : List Bool} (hg : Grows v w) (n : Nat) : Grows v (w.set n true) := by
  refine ⟨by simpa using hg.1, fun i hi => ?_⟩
  have hw := hg.2 i hi
  rw [List.getD_eq_getElem?_getD, List.getElem?_set]
  split
  · rename_i hn
    subst hn
    have : n < w.length := by
      by_contra hc
      simp [List.getElem?_eq_none (Nat.le_of_not_lt hc)] at hw
    simp [this]
  · simpa using hw

theorem grows_resize {v : List Bool} {m : Nat} (hm : v.length ≤ m) : Grows v (resize v m) := by
  refine ⟨by simpa using hm, fun i hi => ?_⟩
  have : i < v.length := by
    by_contra hc
    simp [List.getElem?_eq_none (Nat.le_of_not_lt hc)] at hi
  rw [getD_resize, hi]
  simp
  omega

theorem markDirtyBlock_grows {s s' : MetadataStore} {h : String} {p b : UInt64}
    (hm : markDirtyBlock s h p b = some s') :
    ∃ w, s' = s.setVector h p w ∧ Grows ((s.bitmap h).get p) w := by
  simp only [markDirtyBlock, storeBit, Option.map_eq_some'] at hm
  obtain ⟨w, hw, rfl⟩ := hm
  refine ⟨w, rfl, ?_⟩
  by_cases hle : ((s.bitmap h).get p).length ≤ b.toNat
  · rw [if_pos hle] at hw
    split at hw
    · rename_i hlt
      cases hw
      rw [length_resize] at hlt
      exact (grows_resize (by omega)).set _
    · cases hw
  · rw [if_neg hle] at hw
    split at hw
    · cases hw
      exact (Grows.refl _).set _
    · cases hw

/-- One call that does not reload `(h, p)` grows its vector. -/
theorem step_grows {op : BitmapOp} {st st' : MetadataStore × Disk} {h : String} {p : UInt64}
    (hs : op.step st = some st') (hr : ¬ op.reloads h p) :
    Grows ((st.1.bitmap h).get p) ((st'.1.bitmap h).get p) := by
  obtain ⟨s, d⟩ := st
  have hget : ∀ (h' : String) (p' : UInt64) (w : List Bool),
      ((s.setVector h' p' w).bitmap h).get p = if h = h' ∧ p = p' then w else (s.bitmap h).get p := by
    intro h' p' w
    rw [PartMap.get, MetadataStore.find?_setVector]
    split <;> rfl
  cases op with
  | markDirtyBlock h' p' b =>
    simp only [BitmapOp.step, Option.map_eq_some'] at hs
    obtain ⟨s', hm, rfl⟩ := hs
    obtain ⟨w, rfl, hw⟩ := markDirtyBlock_grows hm
    rw [hget]
    split
    · rename_i he
      obtain ⟨rfl, rfl⟩ := he
      exact hw
    · exact Grows.refl _
  | flushBitmaps h' io =>
    cases hs
    exact Grows.refl _
  | loadBitmap h' p' io =>
    cases hs
    rcases loadBitmap_cases s d io h' p' with he | ⟨v, he⟩
    · rw [he]
      exact Grows.refl _
    · rw [he, hget, if_neg (fun he' => hr ⟨he'.1.symm, he'.2.symm⟩)]
      exact Grows.refl _

/-- Over a run with no reload of `(h, p)`, its vector only grows. -/
theorem runOps_grows {ops : List BitmapOp} {st st' : MetadataStore × Disk} {h : String}
    {p : UInt64} (hrun : runOps st ops = some st') (hr : ∀ op ∈ ops, ¬ op.reloads h p) :
    Grows ((st.1.bitmap h).get p) ((st'.1.bitmap h).get p) := by
  induction ops generalizing st with
  | nil =>
    cases hrun
    exact Grows.refl _
  | cons op rest ih =>
    simp only [runOps, Option.bind_eq_some] at hrun
    obtain ⟨st₁, hs, hrest⟩ := hrun
    exact (step_grows hs (hr op (List.mem_cons_self _ _))).trans
      (ih hrest fun o ho => hr o (List.mem_cons_of_mem _ ho))

theorem runOps_isSome (st : MetadataStore × Disk) {ops : List BitmapOp}
    (hd : ∀ op ∈ ops, op.defined) : ∃ st', runOps st ops = some st' := by
  induction ops generalizing st with
  | nil => exact ⟨st, rfl⟩
  | cons op rest ih =>
    have hrest := fun st => ih st fun o ho => hd o (List.mem_cons_of_mem _ ho)
    obtain ⟨s, d⟩ := st
    cases op with
    | markDirtyBlock h p b =>
      have hb : b ≠ sizeMax := hd _ (List.mem_cons_self _ _)
      simp only [runOps, BitmapOp.step, markDirtyBlock_eq_some s h p hb, Option.map_some',
        Option.some_bind]
      exact hrest _
    | flushBitmaps h io => exact hrest _
    | loadBitmap h p io => exact hrest _

end CacheEngine

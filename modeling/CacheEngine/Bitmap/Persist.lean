import CacheEngine.Layout
import CacheEngine.Bitmap.Mark

/-! # Persisting and loading bitmaps

`persistBitmap`, `flushBitmaps` and `loadBitmap` against the bitmap files on disk. The outcome
of every file operation the code performs is an input (`PersistIo`, `LoadIo`), so the results
below hold under every pattern of failures. `fs::create_directories` throws rather than
returning `false`; the exception leaves `flushBitmaps` with the parts before it written.
-/

namespace CacheEngine

/-- The bitmap files: the content of each path, `none` when there is no file. Directories are
not modelled; whether creating them succeeds is an input of `persistBitmap`. -/
abbrev Disk := String → Option (List UInt8)

/-- The exception `fs::create_directories` throws. -/
inductive FilesystemError
  | filesystemError
deriving DecidableEq, Repr

/-- What a `::write` of the packed bytes does: write all of them, write a prefix of `n` bytes,
or fail with `-1`. -/
inductive WriteResult
  | complete
  | short (n : Nat)
  | failed
deriving DecidableEq, Repr

/-- The bytes a write stores, and the value `::write` returns. -/
def WriteResult.run : WriteResult → List UInt8 → List UInt8 × Int
  | .complete, bytes => (bytes, bytes.length)
  | .short n, bytes => (bytes.take n, min n bytes.length)
  | .failed, _ => ([], -1)

/-- How the file operations of one `persistBitmap` call turn out. -/
structure PersistIo where
  /-- Whether `fs::create_directories` throws. -/
  mkdirsThrows : Bool
  /-- Whether `::open` returns -1. -/
  openFails : Bool
  write : WriteResult
deriving DecidableEq, Repr

def PersistIo.healthy : PersistIo := ⟨false, false, .complete⟩

/-- Models `MetadataStore::persistBitmap`: the disk after the call, and the returned `bool` or the
exception. The file is opened with `O_CREAT | O_TRUNC` and then holds what the write stored. -/
def persistBitmap (root : String) (disk : Disk) (io : PersistIo) (hashHex : String)
    (partIdx : UInt64) (bits : List Bool) : Disk × Except FilesystemError Bool :=
  if bits.isEmpty then (disk, .ok true) else
  let path := bitmapPath root hashHex partIdx
  if io.mkdirsThrows then (disk, .error .filesystemError) else
  let bytes := packBits bits
  if io.openFails then (disk, .ok false) else
  let (written, n) := io.write.run bytes
  (Function.update disk path (some written), .ok (n == bytes.length))

/-- The loop of `flushBitmaps`, `ok &= persistBitmap(hash_hex, part_idx, bits)`, over the
parts from one on; an exception leaves the loop. -/
def flushParts (root hashHex : String) (io : UInt64 → PersistIo) :
    List (UInt64 × List Bool) → Disk → Bool → Disk × Except FilesystemError Bool
  | [], disk, ok => (disk, .ok ok)
  | (p, bits) :: rest, disk, ok =>
    match persistBitmap root disk (io p) hashHex p bits with
    | (disk', .ok r) => flushParts root hashHex io rest disk' (ok && r)
    | (disk', .error e) => (disk', .error e)

/-- Models `MetadataStore::flushBitmaps`; `io p` is how the file operations of part `p` turn out.
A hash without parts returns `true` at once, as the `find` that fails does. -/
def flushBitmaps (s : MetadataStore) (disk : Disk) (io : UInt64 → PersistIo) (hashHex : String) :
    Disk × Except FilesystemError Bool :=
  flushParts s.cacheRoot hashHex io (s.bitmap hashHex).entries disk true

/-- What a `::pread` of the request does: read all of it, read only `n` bytes, or fail. -/
inductive ReadResult
  | complete
  | short (n : Nat)
  | failed
deriving DecidableEq, Repr

/-- The number of bytes a read of `want` bytes delivers, `none` for -1. -/
def ReadResult.count : ReadResult → Nat → Option Nat
  | .complete, want => some want
  | .short n, want => some (min n want)
  | .failed, _ => none

/-- How the file operations of one `loadBitmap` call turn out. -/
structure LoadIo where
  /-- Whether `::open` returns -1. -/
  openFails : Bool
  read : ReadResult
deriving DecidableEq, Repr

def LoadIo.healthy : LoadIo := ⟨false, .complete⟩

/-- Models `MetadataStore::loadBitmap`: the store after the call and the returned `bool`. The buffer
holds `(file_size + 7) / 8` zero bytes, of which `pread` overwrites the ones it reads; it
never asks for more than the file holds. -/
def loadBitmap (s : MetadataStore) (disk : Disk) (io : LoadIo) (hashHex : String)
    (partIdx : UInt64) : MetadataStore × Bool :=
  match disk (bitmapPath s.cacheRoot hashHex partIdx) with
  | none => (s, true)
  | some file =>
    if io.openFails then (s, false) else
    let size := (file.length + 7) / 8
    match io.read.count size with
    | none => (s, false)
    | some n =>
      let bytes := file.take n ++ List.replicate (size - n) 0
      (s.setVector hashHex partIdx (unpackBits ((s.bitmap hashHex).get partIdx) bytes), true)

/-! ## One part -/

/-- Whether `persistBitmap` throws: a non-empty vector, and `create_directories` throws. -/
def persistThrows (io : PersistIo) (bits : List Bool) : Bool :=
  !bits.isEmpty && io.mkdirsThrows

/-- Whether `persistBitmap` returns `true`: nothing to write, or the file opened and the write
stored every packed byte. -/
def persistOk (io : PersistIo) (bits : List Bool) : Bool :=
  bits.isEmpty || (!io.openFails && (io.write.run (packBits bits)).2 == (packBits bits).length)

/-- The file `persistBitmap` leaves: the old one when it returns before opening the file, and
otherwise, after `O_TRUNC`, exactly the bytes the write stored. -/
def persistedFile (io : PersistIo) (bits : List Bool) (old : Option (List UInt8)) :
    Option (List UInt8) :=
  if bits.isEmpty || io.mkdirsThrows || io.openFails then old
  else some (io.write.run (packBits bits)).1

theorem persistBitmap_of_throws {root : String} {disk : Disk} {io : PersistIo} {h : String}
    {p : UInt64} {bits : List Bool} (ht : persistThrows io bits = true) :
    persistBitmap root disk io h p bits = (disk, .error .filesystemError) := by
  simp only [persistThrows, Bool.and_eq_true, Bool.not_eq_true'] at ht
  simp [persistBitmap, ht.1, ht.2]

theorem persistBitmap_of_not_throws {root : String} {disk : Disk} {io : PersistIo} {h : String}
    {p : UInt64} {bits : List Bool} (ht : persistThrows io bits = false) :
    persistBitmap root disk io h p bits =
      (Function.update disk (bitmapPath root h p)
        (persistedFile io bits (disk (bitmapPath root h p))), .ok (persistOk io bits)) := by
  unfold persistBitmap persistedFile persistOk
  cases hb : bits.isEmpty
  · have hm : io.mkdirsThrows = false := by simpa [persistThrows, hb] using ht
    cases ho : io.openFails
    · simp [hm, ho]
    · simp [hm, ho]
  · simp

theorem WriteResult.run_fst_of_snd {w : WriteResult} {bytes : List UInt8}
    (h : (w.run bytes).2 = bytes.length) : (w.run bytes).1 = bytes := by
  cases w with
  | complete => rfl
  | short n =>
    simp only [WriteResult.run] at h ⊢
    exact List.take_of_length_le (by omega)
  | failed => simp [WriteResult.run] at h

theorem persistedFile_of_ok {io : PersistIo} {bits : List Bool} {old : Option (List UInt8)}
    (hne : bits ≠ []) (hthrow : persistThrows io bits = false) (hok : persistOk io bits = true) :
    persistedFile io bits old = some (packBits bits) := by
  have he : bits.isEmpty = false := List.isEmpty_eq_false.mpr hne
  simp only [persistThrows, he, Bool.not_false, Bool.true_and] at hthrow
  simp only [persistOk, he, Bool.false_or, Bool.and_eq_true, Bool.not_eq_true', beq_iff_eq] at hok
  simp [persistedFile, he, hthrow, hok.1, WriteResult.run_fst_of_snd hok.2]

/-! ## The loop over parts -/

/-- The files after persisting the parts `ps` in order, none of which throws. -/
def writeParts (root hashHex : String) (io : UInt64 → PersistIo) (ps : List (UInt64 × List Bool))
    (disk : Disk) : Disk :=
  ps.foldl (fun d x => Function.update d (bitmapPath root hashHex x.1)
    (persistedFile (io x.1) x.2 (d (bitmapPath root hashHex x.1)))) disk

@[simp] theorem writeParts_nil (root hashHex : String) (io : UInt64 → PersistIo) (disk : Disk) :
    writeParts root hashHex io [] disk = disk :=
  rfl

@[simp] theorem writeParts_cons (root hashHex : String) (io : UInt64 → PersistIo)
    (x : UInt64 × List Bool) (ps : List (UInt64 × List Bool)) (disk : Disk) :
    writeParts root hashHex io (x :: ps) disk =
      writeParts root hashHex io ps (Function.update disk (bitmapPath root hashHex x.1)
        (persistedFile (io x.1) x.2 (disk (bitmapPath root hashHex x.1)))) := by
  rw [writeParts, writeParts, List.foldl_cons]

/-- The loop persists the parts up to the first that throws, and then throws; without such a
part it returns whether every part persisted. -/
theorem flushParts_eq (root h : String) (io : UInt64 → PersistIo) (ps : List (UInt64 × List Bool))
    (disk : Disk) (ok : Bool) :
    flushParts root h io ps disk ok =
      if ps.any (fun x => persistThrows (io x.1) x.2) then
        (writeParts root h io (ps.takeWhile fun x => !persistThrows (io x.1) x.2) disk,
          .error .filesystemError)
      else (writeParts root h io ps disk, .ok (ok && ps.all fun x => persistOk (io x.1) x.2)) := by
  induction ps generalizing disk ok with
  | nil => simp [flushParts]
  | cons x rest ih =>
    obtain ⟨p, bits⟩ := x
    cases ht : persistThrows (io p) bits
    · rw [flushParts, persistBitmap_of_not_throws ht]
      simp only [ih, List.any_cons, List.all_cons, ht, List.takeWhile_cons, writeParts_cons,
        Bool.not_false, Bool.false_or, Bool.and_assoc, if_true]
    · rw [flushParts, persistBitmap_of_throws ht]
      simp [ht]

theorem writeParts_of_forall_ne {root h : String} {io : UInt64 → PersistIo}
    {ps : List (UInt64 × List Bool)} {disk : Disk} {q : String}
    (hq : ∀ x ∈ ps, bitmapPath root h x.1 ≠ q) : writeParts root h io ps disk q = disk q := by
  induction ps generalizing disk with
  | nil => rfl
  | cons x rest ih =>
    rw [writeParts_cons, ih (fun y hy => hq y (List.mem_cons_of_mem _ hy)),
      Function.update_noteq (Ne.symm (hq x (List.mem_cons_self _ _)))]

theorem writeParts_mem {root h : String} {io : UInt64 → PersistIo}
    {ps : List (UInt64 × List Bool)} {disk : Disk} (hs : ps.Pairwise (fun a b => a.1 < b.1))
    {x : UInt64 × List Bool} (hx : x ∈ ps) :
    writeParts root h io ps disk (bitmapPath root h x.1) =
      persistedFile (io x.1) x.2 (disk (bitmapPath root h x.1)) := by
  induction ps generalizing disk with
  | nil => cases hx
  | cons y rest ih =>
    rw [List.pairwise_cons] at hs
    rw [writeParts_cons]
    rcases List.mem_cons.mp hx with rfl | hx
    · rw [writeParts_of_forall_ne (fun z hz => bitmapPath_ne (UInt64.ne_of_lt (hs.1 z hz)).symm),
        Function.update_same]
    · rw [ih hs.2 hx, Function.update_noteq (bitmapPath_ne (UInt64.ne_of_lt (hs.1 x hx)).symm)]

/-! ## Loading -/

theorem loadBitmap_healthy {s : MetadataStore} {disk : Disk} {h : String} {p : UInt64}
    {file : List UInt8} (hd : disk (bitmapPath s.cacheRoot h p) = some file) :
    loadBitmap s disk .healthy h p =
      (s.setVector h p ((file.take ((file.length + 7) / 8)).flatMap byteBits), true) := by
  simp [loadBitmap, hd, LoadIo.healthy, ReadResult.count, unpackBits_eq]

theorem loadBitmap_cases (s : MetadataStore) (disk : Disk) (io : LoadIo) (h : String) (p : UInt64) :
    (loadBitmap s disk io h p).1 = s ∨ ∃ v, (loadBitmap s disk io h p).1 = s.setVector h p v := by
  unfold loadBitmap
  split
  · exact .inl rfl
  · split
    · exact .inl rfl
    · dsimp only
      split
      · exact .inl rfl
      · exact .inr ⟨_, rfl⟩

/-! ## Flushing under faults -/

theorem flushBitmaps_eq (s : MetadataStore) (disk : Disk) (io : UInt64 → PersistIo) (h : String) :
    flushBitmaps s disk io h =
      if (s.bitmap h).entries.any (fun x => persistThrows (io x.1) x.2) then
        (writeParts s.cacheRoot h io
          ((s.bitmap h).entries.takeWhile fun x => !persistThrows (io x.1) x.2) disk,
          .error .filesystemError)
      else (writeParts s.cacheRoot h io (s.bitmap h).entries disk,
        .ok ((s.bitmap h).entries.all fun x => persistOk (io x.1) x.2)) := by
  rw [flushBitmaps, flushParts_eq]
  simp only [Bool.true_and]

/-- A flush that returns `true` reached every part, none threw, each persisted, and each file
holds what its persist left. -/
theorem flushBitmaps_of_ok_true {s : MetadataStore} {disk : Disk} {io : UInt64 → PersistIo}
    {h : String} (hok : (flushBitmaps s disk io h).2 = .ok true) {x : UInt64 × List Bool}
    (hx : x ∈ (s.bitmap h).entries) :
    persistThrows (io x.1) x.2 = false ∧ persistOk (io x.1) x.2 = true ∧
      (flushBitmaps s disk io h).1 (bitmapPath s.cacheRoot h x.1) =
        persistedFile (io x.1) x.2 (disk (bitmapPath s.cacheRoot h x.1)) := by
  rw [flushBitmaps_eq] at hok ⊢
  split at hok
  · cases hok
  · rename_i hany
    rw [if_neg hany]
    simp only [Except.ok.injEq, List.all_eq_true] at hok
    simp only [Bool.not_eq_true, List.any_eq_false] at hany
    exact ⟨by simpa using hany x hx, hok x hx, writeParts_mem (s.bitmap h).sorted hx⟩

/-- Under every pattern of failures of its file operations, `flushBitmaps` throws exactly when
some part with a non-empty vector has `create_directories` throw, after persisting the parts
before that one; otherwise it returns whether every part persisted. Each part it reached holds
what its own persist left, and no other file changes. -/
theorem flushBitmaps_under_faults (s : MetadataStore) (disk : Disk) (io : UInt64 → PersistIo)
    (h : String) :
    let parts := (s.bitmap h).entries
    let throws := parts.any fun x => persistThrows (io x.1) x.2
    let reached := if throws then parts.takeWhile (fun x => !persistThrows (io x.1) x.2) else parts
    flushBitmaps s disk io h =
        (writeParts s.cacheRoot h io reached disk,
          if throws then .error .filesystemError else .ok (parts.all fun x => persistOk (io x.1) x.2)) ∧
      (∀ x ∈ reached, (flushBitmaps s disk io h).1 (bitmapPath s.cacheRoot h x.1) =
        persistedFile (io x.1) x.2 (disk (bitmapPath s.cacheRoot h x.1))) ∧
      ∀ q, (∀ x ∈ reached, bitmapPath s.cacheRoot h x.1 ≠ q) → (flushBitmaps s disk io h).1 q = disk q := by
  intro parts throws reached
  have hreach : (reached.Pairwise fun a b => a.1 < b.1) := by
    by_cases ht : throws = true
    · simp only [reached, if_pos ht]
      exact (s.bitmap h).sorted.sublist (List.takeWhile_sublist _)
    · simp only [reached, if_neg ht]
      exact (s.bitmap h).sorted
  have hflush : flushBitmaps s disk io h = (writeParts s.cacheRoot h io reached disk,
      if throws then .error .filesystemError else .ok (parts.all fun x => persistOk (io x.1) x.2)) := by
    rw [flushBitmaps_eq]
    by_cases ht : throws = true
    · simp only [reached, if_pos ht]
    · simp only [reached, if_neg ht]
  rw [hflush]
  exact ⟨rfl, fun x hx => writeParts_mem hreach hx, fun q hq => writeParts_of_forall_ne hq⟩

/-- A write that fails after the `O_TRUNC` open erases the dirty bit the file recorded. -/
theorem flushBitmaps_failed_write_erases :
    let s : MetadataStore := ⟨"/c", fun _ => PartMap.empty.insert 0 [true]⟩
    let disk : Disk := fun q => if q = bitmapPath "/c" "h" 0 then some [1] else none
    let io : UInt64 → PersistIo := fun _ => ⟨false, false, .failed⟩
    testBit 1 0 = true ∧ (flushBitmaps s disk io "h").2 = .ok false ∧
      (flushBitmaps s disk io "h").1 (bitmapPath "/c" "h" 0) = some [] :=
  ⟨rfl, rfl, rfl⟩

/-! ## Retrying a flush -/

theorem writeParts_of_empty {root h : String} {io : UInt64 → PersistIo}
    {ps : List (UInt64 × List Bool)} {disk : Disk} {q : String}
    (hq : ∀ x ∈ ps, bitmapPath root h x.1 = q → x.2 = []) :
    writeParts root h io ps disk q = disk q := by
  induction ps generalizing disk with
  | nil => rfl
  | cons x rest ih =>
    rw [writeParts_cons, ih fun y hy => hq y (.tail _ hy), Function.update_apply]
    split_ifs with hx
    · rw [hq x (.head _) hx.symm, hx]
      rfl
    · rfl

theorem flushBitmaps_fst_of_empty {s : MetadataStore} {disk : Disk} {io : UInt64 → PersistIo}
    {h q : String}
    (hq : ∀ x ∈ (s.bitmap h).entries, bitmapPath s.cacheRoot h x.1 = q → x.2 = []) :
    (flushBitmaps s disk io h).1 q = disk q := by
  rw [flushBitmaps_eq]
  split
  · exact writeParts_of_empty fun x hx => hq x ((List.takeWhile_sublist _).subset hx)
  · exact writeParts_of_empty hq

/-- A flush that returns `true` leaves no trace of an earlier flush, whatever failed in it: after
a `flushBitmaps(h)` under any pattern of failures, and any change to the in-memory map that
keeps every non-empty vector of `h` non-empty (as marking does), a `flushBitmaps(h)` that
returns `true` leaves the files exactly as it leaves them without the earlier flush. -/
theorem flushBitmaps_retry (s s' : MetadataStore) (h : String)
    (hroot : s'.cacheRoot = s.cacheRoot)
    (hgrow : ∀ x ∈ (s.bitmap h).entries, x.2 ≠ [] →
      ∃ v, (x.1, v) ∈ (s'.bitmap h).entries ∧ v ≠ [])
    (disk : Disk) (io₁ io₂ : UInt64 → PersistIo)
    (hok : (flushBitmaps s' (flushBitmaps s disk io₁ h).1 io₂ h).2 = .ok true) :
    flushBitmaps s' (flushBitmaps s disk io₁ h).1 io₂ h = flushBitmaps s' disk io₂ h := by
  set d₁ := (flushBitmaps s disk io₁ h).1
  /- A file that the earlier flush changed belongs to a part whose vector is non-empty in `s'`. -/
  have hsame : ∀ q,
      (∀ x ∈ (s'.bitmap h).entries, bitmapPath s'.cacheRoot h x.1 = q → x.2 = []) →
      d₁ q = disk q := by
    refine fun q hq => flushBitmaps_fst_of_empty fun y hy hyq => ?_
    by_contra hne
    obtain ⟨v, hv, hvne⟩ := hgrow y hy hne
    exact hvne (hq (y.1, v) hv (hroot ▸ hyq))
  have hnot : ¬(s'.bitmap h).entries.any fun x => persistThrows (io₂ x.1) x.2 := by
    intro hany
    rw [flushBitmaps_eq, if_pos hany] at hok
    cases hok
  rw [flushBitmaps_eq, flushBitmaps_eq, if_neg hnot, if_neg hnot, Prod.mk.injEq]
  refine ⟨funext fun q => ?_, rfl⟩
  by_cases hq : ∃ x ∈ (s'.bitmap h).entries, bitmapPath s'.cacheRoot h x.1 = q
  · obtain ⟨x, hx, rfl⟩ := hq
    rw [writeParts_mem (s'.bitmap h).sorted hx, writeParts_mem (s'.bitmap h).sorted hx]
    by_cases hne : x.2 = []
    · rw [hsame _ fun y hy hyq =>
        (PartMap.eq_of_mem_entries hy (bitmapPath_injective hyq ▸ hx)).trans hne]
    · obtain ⟨hthrow, hpok, -⟩ := flushBitmaps_of_ok_true hok hx
      rw [persistedFile_of_ok hne hthrow hpok, persistedFile_of_ok hne hthrow hpok]
  · push_neg at hq
    rw [writeParts_of_forall_ne hq, writeParts_of_forall_ne hq]
    exact hsame q fun x hx hxq => absurd hxq (hq x hx)

/-- A write of block 0 that fails after the `O_TRUNC` open, then a mark of block 9 and a
flush that succeeds. -/
theorem flushBitmaps_retry_after_failed_write :
    let s : MetadataStore := ⟨"/c", fun _ => PartMap.empty.insert 0 [true]⟩
    let s' : MetadataStore := ⟨"/c", fun _ => PartMap.empty.insert 0
      [true, false, false, false, false, false, false, false, false, true]⟩
    let disk : Disk := fun q => if q = bitmapPath "/c" "h" 0 then some [1] else none
    s'.cacheRoot = s.cacheRoot ∧
      (∀ x ∈ (s.bitmap "h").entries, x.2 ≠ [] →
        ∃ v, (x.1, v) ∈ (s'.bitmap "h").entries ∧ v ≠ []) ∧
      (flushBitmaps s' (flushBitmaps s disk (fun _ => ⟨false, false, .failed⟩) "h").1
        (fun _ => .healthy) "h").2 = .ok true ∧
      flushBitmaps s' (flushBitmaps s disk (fun _ => ⟨false, false, .failed⟩) "h").1
        (fun _ => .healthy) "h" = flushBitmaps s' disk (fun _ => .healthy) "h" :=
  let s : MetadataStore := ⟨"/c", fun _ => PartMap.empty.insert 0 [true]⟩
  let s' : MetadataStore := ⟨"/c", fun _ => PartMap.empty.insert 0
    [true, false, false, false, false, false, false, false, false, true]⟩
  have hgrow : ∀ x ∈ (s.bitmap "h").entries, x.2 ≠ [] →
      ∃ v, (x.1, v) ∈ (s'.bitmap "h").entries ∧ v ≠ [] := by
    intro x hx _
    obtain rfl : x = (0, [true]) := List.mem_singleton.mp hx
    exact ⟨_, List.mem_singleton_self _, by decide⟩
  ⟨rfl, hgrow, rfl, flushBitmaps_retry s s' "h" rfl hgrow _ _ _ rfl⟩

end CacheEngine

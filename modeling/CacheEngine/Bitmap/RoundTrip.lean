import CacheEngine.Bitmap.Persist

/-! # Flush and reload

What a restarted store sees of a flushed bitmap, and what a reload followed by a flush leaves
on disk. `persistBitmap` skips empty vectors, so their files keep whatever they held.
`loadBitmap` reads `(file_size + 7) / 8` bytes of a `file_size`-byte file: a bitmap reloads
whole only when it fits in one byte, and a reload-flush cycle cuts longer files down.
-/

namespace CacheEngine

theorem getD_flatMap_take_packBits (bits : List Bool) {m i : Nat}
    (hm : m ≤ (packBits bits).length) (hi : i < m * 8) :
    (((packBits bits).take m).flatMap byteBits).getD i false = bits.getD i false := by
  have hbit := testBit_packBits bits (i / 8) (Nat.mod_lt i (by omega : 8 > 0))
  rw [List.getD_eq_getElem _ _ (by omega), show i / 8 * 8 + i % 8 = i by omega] at hbit
  rw [List.getD_eq_getElem?_getD, getElem?_flatMap_byteBits, List.getElem?_take,
    if_pos (by omega), List.getElem?_eq_getElem (by omega)]
  simpa using hbit

/-- If `flushBitmaps(h)` returns true, a part with a non-empty vector `v` has its packed bytes
on disk, and any store on the same root reloads it with a vector of at least eight bits that
agrees with `v`, padded with clear bits, at every position it has. A part with an empty
vector is not written. -/
theorem flushBitmaps_then_loadBitmap (s t : MetadataStore) (disk : Disk)
    (io : UInt64 → PersistIo) (h : String) (p : UInt64) (v : List Bool)
    (hroot : t.cacheRoot = s.cacheRoot) (hok : (flushBitmaps s disk io h).2 = .ok true)
    (hv : (s.bitmap h).find? p = some v) :
    (v = [] → (flushBitmaps s disk io h).1 (bitmapPath s.cacheRoot h p) =
      disk (bitmapPath s.cacheRoot h p)) ∧
    (v ≠ [] → (flushBitmaps s disk io h).1 (bitmapPath s.cacheRoot h p) = some (packBits v) ∧
      ∃ w, loadBitmap t (flushBitmaps s disk io h).1 .healthy h p = (t.setVector h p w, true) ∧
        8 ≤ w.length ∧ ∀ i < w.length, w.getD i false = v.getD i false) := by
  obtain ⟨hthrow, hpok, hfile⟩ := flushBitmaps_of_ok_true hok (PartMap.mem_entries_of_find? hv)
  refine ⟨fun hnil => by simp [hfile, persistedFile, hnil], fun hne => ?_⟩
  have hpacked : persistedFile (io p) v (disk (bitmapPath s.cacheRoot h p)) = some (packBits v) :=
    persistedFile_of_ok hne hthrow hpok
  have hlen : 1 ≤ (packBits v).length := by
    have : 1 ≤ v.length := List.length_pos.mpr hne
    simp only [length_packBits]
    omega
  refine ⟨hfile.trans hpacked, _, loadBitmap_healthy (by rw [hroot, hfile, hpacked]), ?_, ?_⟩
  · simp only [length_flatMap_byteBits, List.length_take]
    omega
  · intro i hi
    simp only [length_flatMap_byteBits, List.length_take] at hi
    exact getD_flatMap_take_packBits v (by omega) (by omega)

/-- A one-block vector flushed to an empty disk and reloaded by a fresh store. -/
theorem flushBitmaps_then_loadBitmap_one_block :
    let s : MetadataStore := ⟨"/c", fun _ => PartMap.empty.insert 0 [true]⟩
    let t : MetadataStore := ⟨"/c", fun _ => PartMap.empty⟩
    let disk : Disk := fun _ => none
    let io : UInt64 → PersistIo := fun _ => .healthy
    t.cacheRoot = s.cacheRoot ∧ (flushBitmaps s disk io "h").2 = .ok true ∧
      (s.bitmap "h").find? 0 = some [true] ∧
      (([true] : List Bool) = [] → (flushBitmaps s disk io "h").1 (bitmapPath s.cacheRoot "h" 0) =
        disk (bitmapPath s.cacheRoot "h" 0)) ∧
      (([true] : List Bool) ≠ [] →
        (flushBitmaps s disk io "h").1 (bitmapPath s.cacheRoot "h" 0) = some (packBits [true]) ∧
        ∃ w, loadBitmap t (flushBitmaps s disk io "h").1 .healthy "h" 0 = (t.setVector "h" 0 w, true) ∧
          8 ≤ w.length ∧ ∀ i < w.length, w.getD i false = ([true] : List Bool).getD i false) :=
  ⟨rfl, rfl, rfl, flushBitmaps_then_loadBitmap _ _ _ _ _ _ _ rfl rfl rfl⟩

/-- A part whose in-memory vector is empty is not written: a stale file survives a flush that
returns true, and a restarted store reloads a dirty block the vector never had. -/
theorem flushBitmaps_keeps_stale_file :
    let s : MetadataStore := ⟨"/c", fun _ => PartMap.empty.insert 0 []⟩
    let disk : Disk := fun q => if q = bitmapPath "/c" "h" 0 then some [1] else none
    let t : MetadataStore := ⟨"/c", fun _ => PartMap.empty⟩
    (s.bitmap "h").find? 0 = some [] ∧
      (flushBitmaps s disk (fun _ => .healthy) "h").2 = .ok true ∧
      (loadBitmap t (flushBitmaps s disk (fun _ => .healthy) "h").1 .healthy "h" 0).2 = true ∧
      ((loadBitmap t (flushBitmaps s disk (fun _ => .healthy) "h").1 .healthy "h" 0).1.bitmap
        "h").find? 0 = some [true, false, false, false, false, false, false, false] :=
  ⟨rfl, rfl, rfl, rfl⟩

/-- After a restart, reloading a bitmap file of `k` bytes and flushing it on healthy disks
leaves the file holding its first `(k + 7) / 8` bytes. -/
theorem loadBitmap_then_flushBitmaps (t : MetadataStore) (disk : Disk) (h : String) (p : UInt64)
    (file : List UInt8) (hd : disk (bitmapPath t.cacheRoot h p) = some file) :
    (flushBitmaps (loadBitmap t disk .healthy h p).1 disk (fun _ => .healthy) h).2 = .ok true ∧
      (flushBitmaps (loadBitmap t disk .healthy h p).1 disk (fun _ => .healthy) h).1
        (bitmapPath t.cacheRoot h p) = some (file.take ((file.length + 7) / 8)) := by
  rw [loadBitmap_healthy hd]
  set w := (file.take ((file.length + 7) / 8)).flatMap byteBits with hw
  have hmem : (p, w) ∈ ((t.setVector h p w).bitmap h).entries :=
    PartMap.mem_entries_of_find? (by simp [MetadataStore.find?_setVector])
  have hthrow : ∀ x : UInt64 × List Bool, persistThrows PersistIo.healthy x.2 = false := by
    simp [persistThrows, PersistIo.healthy]
  have hpok : ∀ x : UInt64 × List Bool, persistOk PersistIo.healthy x.2 = true := by
    simp [persistOk, PersistIo.healthy, WriteResult.run]
  rw [flushBitmaps_eq, if_neg (by simp [hthrow])]
  refine ⟨by simp [hpok], ?_⟩
  dsimp only
  rw [show t.cacheRoot = (t.setVector h p w).cacheRoot from rfl,
    writeParts_mem ((t.setVector h p w).bitmap h).sorted hmem]
  by_cases hnil : file = []
  · subst hnil
    simp [persistedFile, hw, hd]
  · have hwne : w ≠ [] := by
      have : 1 ≤ file.length := List.length_pos.mpr hnil
      apply List.ne_nil_of_length_pos
      rw [hw, length_flatMap_byteBits, List.length_take]
      omega
    rw [persistedFile_of_ok hwne (hthrow (p, w)) (hpok (p, w)), hw, ← unpackBits_eq [],
      packBits_unpackBits]

/-- A two-byte bitmap file with block 8 dirty: the reload reads `(2 + 7) / 8 = 1` byte, and the
flush writes that byte back, so block 8 is no longer recorded dirty. -/
theorem loadBitmap_then_flushBitmaps_drops_block :
    let disk : Disk := fun q => if q = bitmapPath "/c" "h" 0 then some [0, 1] else none
    let t : MetadataStore := ⟨"/c", fun _ => PartMap.empty⟩
    (loadBitmap t disk .healthy "h" 0).2 = true ∧
      (flushBitmaps (loadBitmap t disk .healthy "h" 0).1 disk (fun _ => .healthy) "h").2 =
        .ok true ∧
      (flushBitmaps (loadBitmap t disk .healthy "h" 0).1 disk (fun _ => .healthy) "h").1
        (bitmapPath "/c" "h" 0) = some [0] :=
  ⟨rfl, rfl, rfl⟩

end CacheEngine

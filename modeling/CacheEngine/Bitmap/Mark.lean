import CacheEngine.Bitmap.Codec
import CacheEngine.Bitmap.PartMap

/-! # Marking dirty blocks

`MetadataStore::markDirtyBlock` grows the vector of `(hash_hex, part_idx)` to
`block_idx + 1` bits when it is too short and sets bit `block_idx`. The sum is computed in
`std::size_t`: at `block_idx = SIZE_MAX` it wraps to 0, the resize empties the vector and the
store that follows is out of range. Every other index grows the vector and sets one bit, so
a sequence of marks is determined by the set of triples it marks.
-/

namespace CacheEngine

/-- The value `SIZE_MAX` of the 64-bit `std::size_t`. -/
def sizeMax : UInt64 := 18446744073709551615

theorem toNat_add_one {b : UInt64} (hb : b ≠ sizeMax) : (b + 1).toNat = b.toNat + 1 := by
  have h1 : b.toNat ≠ 18446744073709551615 := fun h => hb (UInt64.toNat.inj h)
  have h2 : b.toNat < 2 ^ 64 := b.toNat_lt_size
  have h3 : (UInt64.toBitVec 1).toNat = 1 := rfl
  simp only [UInt64.add_def, UInt64.toNat, BitVec.toNat_add, h3] at *
  omega

/-- The state of a `MetadataStore` that the bitmap code uses: `cache_root_` and the in-memory
map `bitmap_`. A hash without an entry behaves as one with an empty part map (`flushBitmaps`
returns `true` for both, and `operator[]` inserts the empty map), so the outer level is a
total function. -/
@[ext] structure MetadataStore where
  cacheRoot : String
  bitmap : String → PartMap

namespace MetadataStore

/-- The assignment `bitmap_[hash_hex][part_idx] = vec`. -/
def setVector (s : MetadataStore) (hashHex : String) (partIdx : UInt64) (vec : List Bool) :
    MetadataStore :=
  { s with bitmap := Function.update s.bitmap hashHex ((s.bitmap hashHex).insert partIdx vec) }

@[simp] theorem cacheRoot_setVector (s : MetadataStore) (h : String) (p : UInt64) (v : List Bool) :
    (s.setVector h p v).cacheRoot = s.cacheRoot := rfl

theorem find?_setVector (s : MetadataStore) (h h' : String) (p p' : UInt64) (v : List Bool) :
    ((s.setVector h p v).bitmap h').find? p' =
      if h' = h ∧ p' = p then some v else (s.bitmap h').find? p' := by
  by_cases hh : h' = h
  · subst hh
    simp [setVector]
  · simp [setVector, hh]

end MetadataStore

/-- The store `vec[i] = x` on a `std::vector<bool>`: out of range it is undefined behaviour,
`none`. -/
def storeBit (vec : List Bool) (i : Nat) (x : Bool) : Option (List Bool) :=
  if i < vec.length then some (vec.set i x) else none

/-- Models `MetadataStore::markDirtyBlock`: `auto& vec = bitmap_[hash_hex][part_idx];
if (vec.size() <= block_idx) vec.resize(block_idx + 1, false); vec[block_idx] = true;` -/
def markDirtyBlock (s : MetadataStore) (hashHex : String) (partIdx blockIdx : UInt64) :
    Option MetadataStore :=
  let vec := (s.bitmap hashHex).get partIdx
  let vec := if vec.length ≤ blockIdx.toNat then resize vec (blockIdx + 1).toNat else vec
  (storeBit vec blockIdx.toNat true).map (s.setVector hashHex partIdx)

/-- The step `if (vec.size() <= i) vec.resize(i + 1, false)`, with `i + 1` computed exactly. -/
def growTo (vec : List Bool) (i : Nat) : List Bool :=
  if vec.length ≤ i then resize vec (i + 1) else vec

theorem length_growTo (vec : List Bool) (i : Nat) :
    (growTo vec i).length = max vec.length (i + 1) := by
  unfold growTo
  split
  · simp
    omega
  · omega

theorem getD_growTo (vec : List Bool) (i j : Nat) : (growTo vec i).getD j false = vec.getD j false := by
  unfold growTo
  split
  · rw [getD_resize]
    by_cases hj : j < i + 1
    · simp [hj]
    · simp [hj, List.getElem?_eq_none (by omega : vec.length ≤ j)]
  · rfl

/-- The vector `markDirtyBlock` leaves at an index below `SIZE_MAX`. -/
def setDirtyBit (vec : List Bool) (i : Nat) : List Bool :=
  (growTo vec i).set i true

theorem length_setDirtyBit (vec : List Bool) (i : Nat) :
    (setDirtyBit vec i).length = max vec.length (i + 1) := by
  simp [setDirtyBit, length_growTo]

theorem getD_setDirtyBit (vec : List Bool) (i j : Nat) :
    (setDirtyBit vec i).getD j false = (vec.getD j false || decide (j = i)) := by
  by_cases hj : j = i
  · subst hj
    have hi : j < (growTo vec j).length := by rw [length_growTo]; omega
    simp [setDirtyBit, List.getElem?_set_self hi]
  · have hg := getD_growTo vec i j
    simp only [List.getD_eq_getElem?_getD] at hg
    simp [setDirtyBit, List.getElem?_set_ne (Ne.symm hj), hj, hg]

theorem markDirtyBlock_eq_some (s : MetadataStore) (h : String) (p : UInt64) {b : UInt64}
    (hb : b ≠ sizeMax) :
    markDirtyBlock s h p b = some (s.setVector h p (setDirtyBit ((s.bitmap h).get p) b.toNat)) := by
  have hi : b.toNat < (growTo ((s.bitmap h).get p) b.toNat).length := by
    rw [length_growTo]
    omega
  simp only [markDirtyBlock, storeBit, toNat_add_one hb]
  exact congrArg _ (if_pos hi)

theorem markDirtyBlock_sizeMax (s : MetadataStore) (h : String) (p : UInt64)
    (hlen : ((s.bitmap h).get p).length ≤ sizeMax.toNat) : markDirtyBlock s h p sizeMax = none := by
  have hwrap : (sizeMax + 1).toNat = 0 := rfl
  simp [markDirtyBlock, hlen, storeBit, hwrap]

/-- At `block_idx = SIZE_MAX` on a vector holding a dirty bit: `block_idx + 1` wraps to 0,
`resize(0)` drops the bit, and `vec[SIZE_MAX] = true` is out of range. -/
theorem markDirtyBlock_sizeMax_wraps :
    resize [true] (sizeMax + 1).toNat = [] ∧
      markDirtyBlock ⟨"/cache", fun _ => PartMap.empty.insert 0 [true]⟩ "h" 0 sizeMax = none :=
  ⟨rfl, markDirtyBlock_sizeMax _ _ _ (by decide)⟩

/-! ## Sequences of marks -/

/-- A sequence of `markDirtyBlock(h, p, b)` calls, `none` once one of them is undefined. -/
def markAll (s : MetadataStore) : List (String × UInt64 × UInt64) → Option MetadataStore
  | [] => some s
  | (h, p, b) :: rest => (markDirtyBlock s h p b).bind (markAll · rest)

/-- One mark below `SIZE_MAX`, as the total function it is there. -/
def markTotal (s : MetadataStore) (x : String × UInt64 × UInt64) : MetadataStore :=
  s.setVector x.1 x.2.1 (setDirtyBit ((s.bitmap x.1).get x.2.1) x.2.2.toNat)

/-- The block indices `S` marks in `(h, p)`, in order. -/
def blocksMarked (S : List (String × UInt64 × UInt64)) (h : String) (p : UInt64) : List Nat :=
  S.filterMap fun x => if h = x.1 ∧ p = x.2.1 then some x.2.2.toNat else none

theorem blocksMarked_cons (S : List (String × UInt64 × UInt64)) (h h' : String) (p p' b : UInt64) :
    blocksMarked ((h', p', b) :: S) h p =
      if h = h' ∧ p = p' then b.toNat :: blocksMarked S h p else blocksMarked S h p := by
  by_cases hm : h = h' ∧ p = p' <;> simp [blocksMarked, hm]

theorem mem_blocksMarked {S : List (String × UInt64 × UInt64)} {h : String} {p : UInt64}
    {i : Nat} : i ∈ blocksMarked S h p ↔ ∃ b, (h, p, b) ∈ S ∧ b.toNat = i := by
  simp only [blocksMarked, List.mem_filterMap]
  constructor
  · rintro ⟨⟨h', p', b⟩, hx, he⟩
    split_ifs at he with hm
    · obtain ⟨rfl, rfl⟩ := hm
      exact ⟨b, hx, Option.some_inj.mp he⟩
  · rintro ⟨b, hx, rfl⟩
    exact ⟨(h, p, b), hx, by simp⟩

theorem markAll_eq_some (s : MetadataStore) (S : List (String × UInt64 × UInt64))
    (hS : ∀ x ∈ S, x.2.2 ≠ sizeMax) : markAll s S = some (S.foldl markTotal s) := by
  induction S generalizing s with
  | nil => rfl
  | cons x rest ih =>
    obtain ⟨h, p, b⟩ := x
    simp only [markAll, markDirtyBlock_eq_some s h p (hS _ (List.mem_cons_self _ _)),
      Option.some_bind, List.foldl_cons]
    exact ih _ (fun y hy => hS y (List.mem_cons_of_mem _ hy))

theorem getD_foldl_setDirtyBit (old : List Bool) (is : List Nat) (j : Nat) :
    (is.foldl setDirtyBit old).getD j false = (old.getD j false || decide (j ∈ is)) := by
  induction is generalizing old with
  | nil => simp
  | cons i rest ih =>
    rw [List.foldl_cons, ih, getD_setDirtyBit]
    simp [Bool.or_assoc]

theorem length_foldl_setDirtyBit_le (old : List Bool) (is : List Nat) (n : Nat) :
    (is.foldl setDirtyBit old).length ≤ n ↔ old.length ≤ n ∧ ∀ i ∈ is, i < n := by
  induction is generalizing old with
  | nil => simp
  | cons i rest ih =>
    rw [List.foldl_cons, ih, length_setDirtyBit, Nat.max_le, Nat.add_one_le_iff]
    simp only [List.mem_cons, forall_eq_or_imp, and_assoc]

theorem cacheRoot_foldl_markTotal (s : MetadataStore) (S : List (String × UInt64 × UInt64)) :
    (S.foldl markTotal s).cacheRoot = s.cacheRoot := by
  induction S generalizing s with
  | nil => rfl
  | cons x rest ih => rw [List.foldl_cons, ih]; rfl

theorem find?_foldl_markTotal (s : MetadataStore) (S : List (String × UInt64 × UInt64))
    (h : String) (p : UInt64) :
    ((S.foldl markTotal s).bitmap h).find? p =
      if blocksMarked S h p = [] then (s.bitmap h).find? p
      else some ((blocksMarked S h p).foldl setDirtyBit ((s.bitmap h).get p)) := by
  induction S generalizing s with
  | nil => rfl
  | cons x rest ih =>
    obtain ⟨h', p', b⟩ := x
    have hf : ((markTotal s (h', p', b)).bitmap h).find? p = if h = h' ∧ p = p' then
        some (setDirtyBit ((s.bitmap h').get p') b.toNat) else (s.bitmap h).find? p :=
      MetadataStore.find?_setVector _ _ _ _ _ _
    have hg : ((markTotal s (h', p', b)).bitmap h).get p = if h = h' ∧ p = p' then
        setDirtyBit ((s.bitmap h').get p') b.toNat else (s.bitmap h).get p := by
      rw [PartMap.get, hf]
      split <;> rfl
    rw [List.foldl_cons, ih, blocksMarked_cons, hg, hf]
    by_cases hm : h = h' ∧ p = p'
    · obtain ⟨rfl, rfl⟩ := hm
      simp only [and_self, if_true, List.foldl_cons, List.cons_ne_nil, if_false]
      split <;> simp_all
    · simp only [hm, if_false]

theorem eq_of_getD_eq {v w : List Bool} (hl : v.length = w.length)
    (h : ∀ j, v.getD j false = w.getD j false) : v = w := by
  apply List.ext_getElem hl
  intro j h1 h2
  simpa [List.getElem?_eq_getElem h1, List.getElem?_eq_getElem h2] using h j

theorem foldl_setDirtyBit_congr (old : List Bool) {is js : List Nat} (h : ∀ i, i ∈ is ↔ i ∈ js) :
    is.foldl setDirtyBit old = js.foldl setDirtyBit old := by
  have hle : ∀ {as bs : List Nat}, (∀ i, i ∈ as → i ∈ bs) →
      (as.foldl setDirtyBit old).length ≤ (bs.foldl setDirtyBit old).length := by
    intro as bs hab
    obtain ⟨h1, h2⟩ := (length_foldl_setDirtyBit_le old bs _).mp le_rfl
    exact (length_foldl_setDirtyBit_le old as _).mpr ⟨h1, fun i hi => h2 i (hab i hi)⟩
  apply eq_of_getD_eq (Nat.le_antisymm (hle fun i => (h i).mp) (hle fun i => (h i).mpr))
  intro j
  rw [getD_foldl_setDirtyBit, getD_foldl_setDirtyBit]
  simp [h j]

theorem foldl_markTotal_congr (s : MetadataStore) {S S' : List (String × UInt64 × UInt64)}
    (hS : ∀ x, x ∈ S' ↔ x ∈ S) : S'.foldl markTotal s = S.foldl markTotal s := by
  have hb : ∀ h p i, i ∈ blocksMarked S' h p ↔ i ∈ blocksMarked S h p := by
    intro h p i
    simp only [mem_blocksMarked, hS]
  apply MetadataStore.ext
  · rw [cacheRoot_foldl_markTotal, cacheRoot_foldl_markTotal]
  · funext h
    apply PartMap.ext
    intro p
    have hnil : blocksMarked S' h p = [] ↔ blocksMarked S h p = [] := by
      simp only [List.eq_nil_iff_forall_not_mem, hb h p]
    rw [find?_foldl_markTotal, find?_foldl_markTotal, foldl_setDirtyBit_congr _ (hb h p)]
    simp only [hnil]

/-- A run of marks below `SIZE_MAX` returns, and its result depends only on the set of
triples marked: the vector of a marked `(h, p)` is the old one grown to one past the largest
block marked there, with exactly its old bits and the marked ones set; every other vector is
unchanged. -/
theorem markAll_determined (s : MetadataStore) (S : List (String × UInt64 × UInt64))
    (hS : ∀ x ∈ S, x.2.2 ≠ sizeMax) :
    ∃ t, markAll s S = some t ∧
      (∀ S' : List (String × UInt64 × UInt64), (∀ x, x ∈ S' ↔ x ∈ S) → markAll s S' = some t) ∧
      ∀ h p, ((∀ b, (h, p, b) ∉ S) → (t.bitmap h).find? p = (s.bitmap h).find? p) ∧
        ((∃ b, (h, p, b) ∈ S) → ∃ v, (t.bitmap h).find? p = some v ∧
          (∀ n, v.length ≤ n ↔
            ((s.bitmap h).get p).length ≤ n ∧ ∀ b, (h, p, b) ∈ S → b.toNat < n) ∧
          ∀ i, v.getD i false = true ↔
            ((s.bitmap h).get p).getD i false = true ∨ ∃ b, (h, p, b) ∈ S ∧ b.toNat = i) := by
  refine ⟨S.foldl markTotal s, markAll_eq_some s S hS, fun S' hS' => ?_, fun h p => ⟨?_, ?_⟩⟩
  · rw [markAll_eq_some s S' (fun x hx => hS x ((hS' x).mp hx)), foldl_markTotal_congr s hS']
  · intro hnone
    have hnil : blocksMarked S h p = [] :=
      List.eq_nil_iff_forall_not_mem.mpr fun i hi => by
        obtain ⟨b, hb, -⟩ := mem_blocksMarked.mp hi
        exact hnone b hb
    rw [find?_foldl_markTotal, if_pos hnil]
  · rintro ⟨b, hb⟩
    have hne : blocksMarked S h p ≠ [] :=
      List.ne_nil_of_mem (mem_blocksMarked.mpr ⟨b, hb, rfl⟩)
    refine ⟨_, by rw [find?_foldl_markTotal, if_neg hne], fun n => ?_, fun i => ?_⟩
    · rw [length_foldl_setDirtyBit_le]
      simp only [mem_blocksMarked]
      constructor
      · rintro ⟨h1, h2⟩
        exact ⟨h1, fun b hb => h2 _ ⟨b, hb, rfl⟩⟩
      · rintro ⟨h1, h2⟩
        exact ⟨h1, fun i ⟨b, hb, hi⟩ => hi ▸ h2 b hb⟩
    · rw [getD_foldl_setDirtyBit]
      simp [mem_blocksMarked]

/-- Marking blocks 3 and 1 of one part, in either order. -/
theorem markAll_determined_two_blocks :
    let s : MetadataStore := ⟨"/c", fun _ => PartMap.empty⟩
    let S : List (String × UInt64 × UInt64) := [("h", 0, 3), ("h", 0, 1)]
    (∀ x ∈ S, x.2.2 ≠ sizeMax) ∧
    ∃ t, markAll s S = some t ∧
      (∀ S' : List (String × UInt64 × UInt64), (∀ x, x ∈ S' ↔ x ∈ S) → markAll s S' = some t) ∧
      ∀ h p, ((∀ b, (h, p, b) ∉ S) → (t.bitmap h).find? p = (s.bitmap h).find? p) ∧
        ((∃ b, (h, p, b) ∈ S) → ∃ v, (t.bitmap h).find? p = some v ∧
          (∀ n, v.length ≤ n ↔
            ((s.bitmap h).get p).length ≤ n ∧ ∀ b, (h, p, b) ∈ S → b.toNat < n) ∧
          ∀ i, v.getD i false = true ↔
            ((s.bitmap h).get p).getD i false = true ∨ ∃ b, (h, p, b) ∈ S ∧ b.toNat = i) :=
  ⟨by decide, markAll_determined _ _ (by decide)⟩

end CacheEngine

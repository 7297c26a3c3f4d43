import Mathlib.Data.Nat.Bitwise

/-! # Packed bitmap codec

The two loops that move a bitmap between its in-memory `std::vector<bool>` and its file:
the packing loop of `persistBitmap` and the unpacking loop of `loadBitmap`. Bit `i` of a
vector lives at bit `i % 8` of byte `i / 8`. Each loop is proved against its own invariant;
the two are inverse up to the zero padding of the last byte.
-/

namespace CacheEngine

/-! ## Bytes -/

/-- The test `byte & (1u << b)`, read as a `bool`. -/
def testBit (byte : UInt8) (b : Nat) : Bool :=
  (byte.toNat &&& 1 <<< b) != 0

/-- The update `byte |= (1u << b)`: the `unsigned` result is stored back into a `uint8_t`. -/
def orBit (byte : UInt8) (b : Nat) : UInt8 :=
  UInt8.ofNat (byte.toNat ||| 1 <<< b)

theorem testBit_eq_testBit (byte : UInt8) (b : Nat) : testBit byte b = byte.toNat.testBit b := by
  rw [testBit, Nat.one_shiftLeft, Nat.and_two_pow]
  cases byte.toNat.testBit b <;> simp [Nat.pos_iff_ne_zero.mp (Nat.two_pow_pos b)]

theorem testBit_of_le (byte : UInt8) {b : Nat} (hb : 8 ≤ b) : testBit byte b = false := by
  have h8 : byte.toNat < 2 ^ 8 := byte.toNat_lt_size
  rw [testBit_eq_testBit]
  exact Nat.testBit_lt_two_pow (Nat.lt_of_lt_of_le h8 (Nat.pow_le_pow_right (by omega) hb))

@[simp] theorem testBit_zero (b : Nat) : testBit 0 b = false := by
  simp [testBit_eq_testBit]

theorem testBit_orBit (byte : UInt8) {k : Nat} (hk : k < 8) (b : Nat) :
    testBit (orBit byte k) b = (testBit byte b || decide (k = b)) := by
  have hlt : byte.toNat ||| 2 ^ k < 2 ^ 8 :=
    Nat.or_lt_two_pow byte.toNat_lt_size (Nat.pow_lt_pow_right (by omega) hk)
  simp only [testBit_eq_testBit, orBit, Nat.one_shiftLeft, UInt8.toNat_ofNat_of_lt hlt,
    Nat.testBit_or, Nat.testBit_two_pow]

theorem eq_of_testBit_eq {x y : UInt8} (h : ∀ b < 8, testBit x b = testBit y b) : x = y := by
  apply UInt8.toNat.inj
  apply Nat.eq_of_testBit_eq
  intro b
  rw [← testBit_eq_testBit, ← testBit_eq_testBit]
  by_cases hb : b < 8
  · exact h b hb
  · rw [testBit_of_le x (by omega), testBit_of_le y (by omega)]

/-- The eight bits of one byte, least significant first. -/
def byteBits (byte : UInt8) : List Bool :=
  (List.range 8).map (testBit byte)

@[simp] theorem length_byteBits (byte : UInt8) : (byteBits byte).length = 8 := by
  simp [byteBits]

theorem getElem?_flatMap_byteBits (bytes : List UInt8) (k : Nat) :
    (bytes.flatMap byteBits)[k]? = bytes[k / 8]?.map (testBit · (k % 8)) := by
  induction bytes generalizing k with
  | nil => simp
  | cons byte rest ih =>
    rw [List.flatMap_cons, List.getElem?_append]
    by_cases hk : k < 8
    · simp [hk, byteBits, List.getElem?_range hk, Nat.div_eq_of_lt hk, Nat.mod_eq_of_lt hk]
    · have hq : k / 8 = (k - 8) / 8 + 1 := by omega
      have hr : k % 8 = (k - 8) % 8 := by omega
      simp [hk, ih, hq, hr]

@[simp] theorem length_flatMap_byteBits (bytes : List UInt8) :
    (bytes.flatMap byteBits).length = bytes.length * 8 := by
  induction bytes with
  | nil => rfl
  | cons byte rest ih => simp [ih]; omega

/-! ## `std::vector<bool>` -/

/-- The call `vec.resize(n, false)` on a vector without a size limit: the C++ call throws
`std::length_error` past `max_size()`, and `std::bad_alloc` when memory runs out, neither of
which is modelled. -/
def resize (vec : List Bool) (n : Nat) : List Bool :=
  vec.take n ++ List.replicate (n - vec.length) false

@[simp] theorem length_resize (vec : List Bool) (n : Nat) : (resize vec n).length = n := by
  simp only [resize, List.length_append, List.length_take, List.length_replicate]
  omega

theorem getD_resize (vec : List Bool) (n j : Nat) :
    (resize vec n).getD j false = (decide (j < n) && vec.getD j false) := by
  by_cases hl : j < vec.length
  · by_cases hn : j < n
    · simp [resize, List.getElem?_append_left (by simp; omega : j < (vec.take n).length),
        List.getElem?_take, hn]
    · simp [resize, hn, List.getElem?_eq_none (by simp; omega :
        (vec.take n ++ List.replicate (n - vec.length) false).length ≤ j)]
  · simp only [resize, List.getD_eq_getElem?_getD, List.getElem?_eq_none (Nat.le_of_not_lt hl),
      Option.getD_none, Bool.and_false]
    rw [List.getElem?_append_right (by simp; omega), List.getElem?_replicate]
    split <;> rfl

/-! ## Packing: `persistBitmap` -/

/-- The packing loop of `persistBitmap`, from bit `i` on:
`if (bits[i]) bytes[i / 8] |= (1u << (i % 8))`. -/
def packLoop : List UInt8 → Nat → List Bool → List UInt8
  | bytes, _, [] => bytes
  | bytes, i, bit :: rest =>
    packLoop (if bit then bytes.set (i / 8) (orBit (bytes.getD (i / 8) 0) (i % 8)) else bytes)
      (i + 1) rest

/-- The bytes `persistBitmap` writes: `(bits.size() + 7) / 8` zero bytes, then the loop. -/
def packBits (bits : List Bool) : List UInt8 :=
  packLoop (List.replicate ((bits.length + 7) / 8) 0) 0 bits

theorem length_packLoop (bytes : List UInt8) (i : Nat) (rest : List Bool) :
    (packLoop bytes i rest).length = bytes.length := by
  induction rest generalizing bytes i with
  | nil => rfl
  | cons bit rest ih => cases bit <;> simp [packLoop, ih]

@[simp] theorem length_packBits (bits : List Bool) :
    (packBits bits).length = (bits.length + 7) / 8 := by
  simp [packBits, length_packLoop]

private theorem testBit_pack_step (bytes : List UInt8) (bit : Bool) {i j t : Nat} (ht : t < 8)
    (hi : i / 8 < bytes.length) :
    testBit ((if bit then bytes.set (i / 8) (orBit (bytes.getD (i / 8) 0) (i % 8))
      else bytes).getD j 0) t = (testBit (bytes.getD j 0) t || (bit && decide (i = j * 8 + t))) := by
  cases bit
  · simp
  · by_cases hj : i / 8 = j
    · subst hj
      simp only [if_true, List.getD_eq_getElem?_getD, List.getElem?_set_self hi, Option.getD_some,
        testBit_orBit _ (Nat.mod_lt i (by omega : 8 > 0)), Bool.true_and]
      congr 1
      exact decide_eq_decide.mpr (by omega)
    · simp [List.getElem?_set_ne hj]
      omega

/-- The loop invariant: after the bits `rest`, starting at index `i`, byte `j` holds its old
bits and the bits of `rest` that fall into it. -/
theorem testBit_packLoop (bytes : List UInt8) (i : Nat) (rest : List Bool) {j t : Nat}
    (ht : t < 8) (hfit : i + rest.length ≤ bytes.length * 8) :
    testBit ((packLoop bytes i rest).getD j 0) t =
      (testBit (bytes.getD j 0) t || (decide (i ≤ j * 8 + t) && rest.getD (j * 8 + t - i) false)) := by
  induction rest generalizing bytes i with
  | nil => simp [packLoop]
  | cons bit rest ih =>
    simp only [List.length_cons] at hfit
    rw [packLoop, ih _ _ (by cases bit <;> simp <;> omega), testBit_pack_step _ _ ht (by omega),
      Bool.or_assoc]
    congr 1
    rcases Nat.lt_trichotomy i (j * 8 + t) with hlt | heq | hgt
    · have hk : j * 8 + t - i = (j * 8 + t - (i + 1)) + 1 := by omega
      simp [hk, Nat.ne_of_lt hlt, Nat.le_of_lt hlt, Nat.succ_le_of_lt hlt]
    · simp [heq]
    · simp [Nat.ne_of_gt hgt, Nat.not_le_of_gt hgt, show ¬ i + 1 ≤ j * 8 + t by omega]

theorem testBit_packBits (bits : List Bool) (j : Nat) {t : Nat} (ht : t < 8) :
    testBit ((packBits bits).getD j 0) t = bits.getD (j * 8 + t) false := by
  have hzero : (List.replicate ((bits.length + 7) / 8) (0 : UInt8)).getD j 0 = 0 := by
    simp only [List.getD_eq_getElem?_getD, List.getElem?_replicate]
    split <;> rfl
  rw [packBits, testBit_packLoop _ _ _ ht (by simp; omega), hzero]
  simp

/-! ## Unpacking: `loadBitmap` -/

/-- The inner loop of `loadBitmap` for byte `i`: `vec[i * 8 + b] = bytes[i] & (1u << b)` for
`b` from 0 to 7. -/
def unpackByte (vec : List Bool) (i : Nat) (byte : UInt8) : List Bool :=
  (List.range 8).foldl (fun vec b => vec.set (i * 8 + b) (testBit byte b)) vec

/-- The outer loop of `loadBitmap`, over the bytes from index `i` on. -/
def unpackLoop : List Bool → Nat → List UInt8 → List Bool
  | vec, _, [] => vec
  | vec, i, byte :: rest => unpackLoop (unpackByte vec i byte) (i + 1) rest

/-- The call `vec.resize(bytes.size() * 8, false)`, followed by the unpacking loops of
`loadBitmap`. -/
def unpackBits (vec : List Bool) (bytes : List UInt8) : List Bool :=
  unpackLoop (resize vec (bytes.length * 8)) 0 bytes

private theorem foldl_set_range (vec : List Bool) (i : Nat) (byte : UInt8) {k : Nat}
    (hk : k ≤ 8) (hv : i * 8 + 8 ≤ vec.length) :
    (List.range k).foldl (fun vec b => vec.set (i * 8 + b) (testBit byte b)) vec =
      vec.take (i * 8) ++ (List.range k).map (testBit byte) ++ vec.drop (i * 8 + k) := by
  induction k with
  | zero => simp
  | succ k ih =>
    rw [List.range_succ, List.foldl_append, ih (by omega), List.foldl_cons, List.foldl_nil,
      List.drop_eq_getElem_cons (by omega : i * 8 + k < vec.length)]
    have hl : (vec.take (i * 8) ++ (List.range k).map (testBit byte)).length = i * 8 + k := by
      simp; omega
    rw [List.set_append_right _ _ (by omega), hl, Nat.sub_self, List.set_cons_zero]
    simp [List.range_succ, Nat.add_assoc]

theorem unpackByte_eq (vec : List Bool) (i : Nat) (byte : UInt8) (hv : i * 8 + 8 ≤ vec.length) :
    unpackByte vec i byte = vec.take (i * 8) ++ byteBits byte ++ vec.drop (i * 8 + 8) :=
  foldl_set_range vec i byte (Nat.le_refl 8) hv

theorem unpackLoop_eq (vec : List Bool) (i : Nat) (rest : List UInt8)
    (hv : vec.length = (i + rest.length) * 8) :
    unpackLoop vec i rest = vec.take (i * 8) ++ rest.flatMap byteBits := by
  induction rest generalizing vec i with
  | nil => simp [unpackLoop, List.take_of_length_le (by simp at hv; omega : vec.length ≤ i * 8)]
  | cons byte rest ih =>
    have hb : i * 8 + 8 ≤ vec.length := by simp at hv; omega
    have hl : (vec.take (i * 8) ++ byteBits byte).length = (i + 1) * 8 := by simp; omega
    rw [unpackLoop, ih _ _ (by rw [unpackByte_eq _ _ _ hb]; simp at hv ⊢; omega),
      unpackByte_eq _ _ _ hb, List.append_assoc (vec.take (i * 8)), ← List.append_assoc,
      List.take_left' hl, List.flatMap_cons, List.append_assoc]

theorem unpackBits_eq (vec : List Bool) (bytes : List UInt8) :
    unpackBits vec bytes = bytes.flatMap byteBits := by
  rw [unpackBits, unpackLoop_eq _ _ _ (by simp)]
  simp

/-! ## The codec -/

/-- Unpacking the packed bytes gives the vector back, padded with clear bits to whole bytes. -/
theorem unpackBits_packBits (vec bits : List Bool) :
    unpackBits vec (packBits bits) =
      bits ++ List.replicate ((bits.length + 7) / 8 * 8 - bits.length) false := by
  rw [unpackBits_eq]
  apply List.ext_getElem?
  intro k
  have hk : k / 8 * 8 + k % 8 = k := by omega
  rw [getElem?_flatMap_byteBits, List.getElem?_append, List.getElem?_replicate]
  by_cases hin : k / 8 < (bits.length + 7) / 8
  · have hbit := testBit_packBits bits (k / 8) (Nat.mod_lt k (by omega : 8 > 0))
    rw [List.getD_eq_getElem _ _ (by simpa using hin), hk] at hbit
    rw [List.getElem?_eq_getElem (by simpa using hin), Option.map_some', hbit]
    by_cases hn : k < bits.length
    · simp [hn, List.getElem?_eq_getElem hn]
    · simp [hn, List.getElem?_eq_none (Nat.le_of_not_lt hn)]
      omega
  · rw [List.getElem?_eq_none (by simpa using Nat.le_of_not_lt hin), Option.map_none',
      if_neg (by omega), if_neg (by omega)]

/-- Packing the bits that the unpacking loop produced gives back the bytes it read. -/
theorem packBits_unpackBits (vec : List Bool) (bytes : List UInt8) :
    packBits (unpackBits vec bytes) = bytes := by
  rw [unpackBits_eq]
  apply List.ext_getElem (by rw [length_packBits, length_flatMap_byteBits]; omega)
  intro j hj hj'
  apply eq_of_testBit_eq
  intro t ht
  have hbit := testBit_packBits (bytes.flatMap byteBits) j ht
  have hq : (j * 8 + t) / 8 = j := by omega
  have hr : (j * 8 + t) % 8 = t := by omega
  rw [List.getD_eq_getElem _ _ hj] at hbit
  rw [hbit, List.getD_eq_getElem?_getD, getElem?_flatMap_byteBits, hq, hr,
    List.getElem?_eq_getElem hj']
  rfl

/-- The codec is a bijection up to padding: packing writes `⌈n / 8⌉` bytes with bit `i` of the
vector at bit `i % 8` of byte `i / 8`; unpacking them, from any starting vector, gives the
vector back followed by clear padding bits; packing what unpacking produced gives the bytes
back. -/
theorem packBits_codec (bits vec : List Bool) (bytes : List UInt8) :
    ((packBits bits).length = (bits.length + 7) / 8 ∧
      ∀ i < bits.length, testBit ((packBits bits).getD (i / 8) 0) (i % 8) = bits.getD i false) ∧
    unpackBits vec (packBits bits) =
      bits ++ List.replicate ((bits.length + 7) / 8 * 8 - bits.length) false ∧
    packBits (unpackBits vec bytes) = bytes := by
  refine ⟨⟨length_packBits bits, fun i _ => ?_⟩, unpackBits_packBits vec bits,
    packBits_unpackBits vec bytes⟩
  rw [testBit_packBits bits (i / 8) (Nat.mod_lt i (by omega)), show i / 8 * 8 + i % 8 = i by omega]

end CacheEngine

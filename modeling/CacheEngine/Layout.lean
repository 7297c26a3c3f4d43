import Mathlib.Data.Nat.Digits

/-! # Bitmap file layout

`fs_layout.h` is not part of the source, so `bitmap_path` is modelled from the layout of
the spec (§4.A). The bitmap code relies on one property of it: the parts of one object
get distinct files, because the zero-padded part field reads back as the part index.
-/

namespace CacheEngine

/-- The `{part_idx:08d}` field: the decimal digits of the index, padded with zeros to
eight characters. -/
def partField (partIdx : UInt64) : String :=
  let digits := Nat.toDigits 10 partIdx.toNat
  ⟨List.replicate (8 - digits.length) '0' ++ digits⟩

/-- Modelled from the spec: `fs_layout::bitmap_path` is not in the source; §4.A gives
`{root}/bitmap/{hh[0:2]}/{hh[2:4]}/{hh}/part_{part_idx:08d}.bmp`. -/
def bitmapPath (root hashHex : String) (partIdx : UInt64) : String :=
  root ++ "/bitmap/" ++ hashHex.take 2 ++ "/" ++ (hashHex.drop 2).take 2 ++ "/" ++ hashHex ++
    "/part_" ++ partField partIdx ++ ".bmp"

/-- Reads a run of decimal digits back as a number, most significant digit first. -/
def decimalValue (digits : List Char) : Nat :=
  digits.foldl (fun n c => 10 * n + (c.toNat - '0'.toNat)) 0

private theorem foldl_zeros (k : Nat) (cs : List Char) :
    (List.replicate k '0' ++ cs).foldl (fun n c => 10 * n + (c.toNat - '0'.toNat)) 0 =
      cs.foldl (fun n c => 10 * n + (c.toNat - '0'.toNat)) 0 := by
  induction k with
  | zero => rfl
  | succ k ih => simpa [List.replicate_succ] using ih

private theorem digitChar_value : ∀ d < 10, (Nat.digitChar d).toNat - '0'.toNat = d := by
  decide

/-- The loop `toDigitsCore` prepends the digits of `n`, least significant last-in: reading them back
from zero yields `n` in front of the digits already there. -/
private theorem foldl_toDigitsCore (fuel n : Nat) (ds : List Char) (hn : n < fuel) :
    (Nat.toDigitsCore 10 fuel n ds).foldl (fun n c => 10 * n + (c.toNat - '0'.toNat)) 0 =
      ds.foldl (fun n c => 10 * n + (c.toNat - '0'.toNat)) n := by
  induction fuel generalizing n ds with
  | zero => omega
  | succ fuel ih =>
    have hd := digitChar_value (n % 10) (Nat.mod_lt n (by omega))
    by_cases hq : n / 10 = 0
    · simp only [Nat.toDigitsCore, hq, if_true, List.foldl_cons, hd]
      rw [Nat.mod_eq_of_lt (by omega), Nat.mul_zero, Nat.zero_add]
    · simp only [Nat.toDigitsCore, hq, if_false]
      rw [ih (n / 10) _ (by omega), List.foldl_cons, hd, Nat.div_add_mod]

theorem decimalValue_partField (partIdx : UInt64) :
    decimalValue (partField partIdx).data = partIdx.toNat := by
  simp only [partField, decimalValue, foldl_zeros, Nat.toDigits]
  exact foldl_toDigitsCore _ _ [] (Nat.lt_succ_self _)

theorem partField_injective {p q : UInt64} (h : partField p = partField q) : p = q :=
  UInt64.toNat.inj (by rw [← decimalValue_partField, h, decimalValue_partField])

/-- Distinct parts of one object have distinct bitmap files. -/
theorem bitmapPath_injective {root hashHex : String} {p q : UInt64}
    (h : bitmapPath root hashHex p = bitmapPath root hashHex q) : p = q := by
  have hd := congrArg String.data h
  simp only [bitmapPath, String.data_append] at hd
  exact partField_injective (String.ext (List.append_cancel_left (List.append_cancel_right hd)))

theorem bitmapPath_ne {root hashHex : String} {p q : UInt64} (h : p ≠ q) :
    bitmapPath root hashHex p ≠ bitmapPath root hashHex q :=
  fun he => h (bitmapPath_injective he)

example : bitmapPath "/c" "abcdef" 12 = "/c/bitmap/ab/cd/abcdef/part_00000012.bmp" := by
  decide

end CacheEngine

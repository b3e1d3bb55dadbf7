import Mathlib

/-!
# Word — fixed-width counters and byte fields

Counters are natural numbers; the two places where a 64-bit width shows
are addition that stops at the maximum (`saturatingAdd`) and addition
that reports it (`checkedAdd`). `toLeBytes w n` is the `w`-byte
little-endian field of `n`, `toBeBytes w n` its big-endian one; both are
read back exactly when `n` fits, and big-endian fields sort as the numbers
they hold.
-/

namespace Kit

/-- `u32::MAX`. -/
def u32Max : Nat := 2 ^ 32 - 1

/-- `u64::MAX`. -/
def u64Max : Nat := 2 ^ 64 - 1

/-- 64-bit addition that stops at the maximum. -/
def saturatingAdd (a b : Nat) : Nat := min (a + b) u64Max

/-- 64-bit addition, `none` on overflow. -/
def checkedAdd (a b : Nat) : Option Nat := if a + b ≤ u64Max then some (a + b) else none

/-- `checked_mul`. -/
def checkedMul (a b : Nat) : Option Nat := if a * b ≤ u64Max then some (a * b) else none

/-- Subtraction, `none` on underflow. -/
def checkedSub (a b : Nat) : Option Nat := if b ≤ a then some (a - b) else none

theorem saturatingAdd_of_lt {a : Nat} (h : a < u64Max) : saturatingAdd a 1 = a + 1 :=
  Nat.min_eq_left h

theorem le_saturatingAdd {a b : Nat} (h : a ≤ u64Max) : a ≤ saturatingAdd a b :=
  Nat.le_min.mpr ⟨Nat.le_add_right a b, h⟩

theorem lt_saturatingAdd {a b c : Nat} (h : c < a + b) (hc : c < u64Max) : c < saturatingAdd a b :=
  Nat.lt_min.mpr ⟨h, hc⟩

theorem saturatingAdd_le_max (a b : Nat) : saturatingAdd a b ≤ u64Max := Nat.min_le_right ..

theorem saturatingAdd_of_le {a b : Nat} (h : a + b ≤ u64Max) : saturatingAdd a b = a + b :=
  Nat.min_eq_left h

theorem checkedAdd_of_le {a b : Nat} (h : a + b ≤ u64Max) : checkedAdd a b = some (a + b) :=
  if_pos h

theorem checkedMul_of_le {a b : Nat} (h : a * b ≤ u64Max) : checkedMul a b = some (a * b) :=
  if_pos h

theorem checkedSub_of_le {a b : Nat} (h : b ≤ a) : checkedSub a b = some (a - b) :=
  if_pos h

theorem checkedAdd_eq_some {a b c : Nat} :
    checkedAdd a b = some c ↔ a + b = c ∧ a + b ≤ u64Max := by
  unfold checkedAdd
  split
  · rename_i h
    simp [h]
  · rename_i h
    simp [h]

/-! ## Little-endian fields -/

/-- The `w`-byte little-endian field of `n`. -/
def toLeBytes : Nat → Nat → List UInt8
  | 0, _ => []
  | w + 1, n => UInt8.ofNat n :: toLeBytes w (n / 256)

/-- `from_le_bytes`. -/
def fromLeBytes : List UInt8 → Nat
  | [] => 0
  | b :: bs => b.toNat + 256 * fromLeBytes bs

@[simp] theorem length_toLeBytes (w n : Nat) : (toLeBytes w n).length = w := by
  induction w generalizing n with
  | zero => rfl
  | succ w ih => simp [toLeBytes, ih]

/-- A value that fits its field is read back. -/
theorem fromLeBytes_toLeBytes {w n : Nat} (h : n < 256 ^ w) :
    fromLeBytes (toLeBytes w n) = n := by
  induction w generalizing n with
  | zero =>
    have hn : n = 0 := by simpa using h
    simp [toLeBytes, fromLeBytes, hn]
  | succ w ih =>
    have hdiv : n / 256 < 256 ^ w := by
      apply Nat.div_lt_of_lt_mul
      rwa [Nat.pow_succ, Nat.mul_comm] at h
    simp only [toLeBytes, fromLeBytes, ih hdiv, UInt8.toNat_ofNat']
    exact Nat.mod_add_div n 256

/-- Every byte field is the field of the number it holds. -/
theorem toLeBytes_fromLeBytes (bs : List UInt8) : toLeBytes bs.length (fromLeBytes bs) = bs := by
  induction bs with
  | nil => rfl
  | cons b bs ih =>
    have hdiv : fromLeBytes (b :: bs) / 256 = fromLeBytes bs := by
      rw [fromLeBytes, Nat.add_mul_div_left _ _ (by omega), Nat.div_eq_of_lt b.toNat_lt,
        Nat.zero_add]
    have hhead : UInt8.ofNat (fromLeBytes (b :: bs)) = b := by
      apply UInt8.toNat.inj
      rw [UInt8.toNat_ofNat', fromLeBytes, Nat.add_mul_mod_self_left]
      exact Nat.mod_eq_of_lt b.toNat_lt
    rw [List.length_cons, toLeBytes, hdiv, ih, hhead]

theorem fromLeBytes_lt (bs : List UInt8) : fromLeBytes bs < 256 ^ bs.length := by
  induction bs with
  | nil => decide
  | cons b bs ih =>
    have hb : b.toNat < 256 := b.toNat_lt
    rw [fromLeBytes, List.length_cons, Nat.pow_succ]
    omega

/-! ## Big-endian fields -/

/-- The `w`-byte big-endian field of `n`. -/
def toBeBytes : Nat → Nat → List UInt8
  | 0, _ => []
  | w + 1, n => UInt8.ofNat (n / 256 ^ w) :: toBeBytes w (n % 256 ^ w)

/-- `from_be_bytes`. -/
def fromBeBytes : List UInt8 → Nat
  | [] => 0
  | b :: bs => b.toNat * 256 ^ bs.length + fromBeBytes bs

@[simp] theorem length_toBeBytes (w n : Nat) : (toBeBytes w n).length = w := by
  induction w generalizing n with
  | zero => rfl
  | succ w ih => simp [toBeBytes, ih]

theorem fromBeBytes_toBeBytes {w n : Nat} (h : n < 256 ^ w) :
    fromBeBytes (toBeBytes w n) = n := by
  induction w generalizing n with
  | zero =>
    have hn : n = 0 := by simpa using h
    simp [toBeBytes, fromBeBytes, hn]
  | succ w ih =>
    have hrest : n % 256 ^ w < 256 ^ w := Nat.mod_lt _ (by positivity)
    have hdigit : n / 256 ^ w < 256 := Nat.div_lt_of_lt_mul h
    simp only [toBeBytes, fromBeBytes, ih hrest, length_toBeBytes,
      UInt8.toNat_ofNat_of_lt' hdigit]
    rw [Nat.mul_comm]
    exact Nat.div_add_mod n (256 ^ w)

/-- Numbers compare by their quotients first and by their remainders second. -/
theorem compare_div_mod {p : Nat} (hp : 0 < p) (a b : Nat) :
    (compare (a / p) (b / p)).then (compare (a % p) (b % p)) = compare a b := by
  have ha := Nat.div_add_mod a p
  have hb := Nat.div_add_mod b p
  have hra := Nat.mod_lt a hp
  have hrb := Nat.mod_lt b hp
  rcases Nat.lt_trichotomy (a / p) (b / p) with hq | hq | hq
  · have hlt : a < b := by
      calc a < p * (a / p) + p := by omega
        _ = p * (a / p + 1) := by ring
        _ ≤ p * (b / p) := Nat.mul_le_mul_left p hq
        _ ≤ b := by omega
    rw [Nat.compare_eq_lt.mpr hq, Nat.compare_eq_lt.mpr hlt]
    rfl
  · rw [hq] at ha
    rw [Nat.compare_eq_eq.mpr hq, Ordering.then]
    rcases Nat.lt_trichotomy (a % p) (b % p) with hr | hr | hr
    · rw [Nat.compare_eq_lt.mpr hr, Nat.compare_eq_lt.mpr (by omega)]
    · rw [Nat.compare_eq_eq.mpr hr, Nat.compare_eq_eq.mpr (by omega)]
    · rw [Nat.compare_eq_gt.mpr hr, Nat.compare_eq_gt.mpr (by omega)]
  · have hlt : b < a := by
      calc b < p * (b / p) + p := by omega
        _ = p * (b / p + 1) := by ring
        _ ≤ p * (a / p) := Nat.mul_le_mul_left p hq
        _ ≤ a := by omega
    rw [Nat.compare_eq_gt.mpr hq, Nat.compare_eq_gt.mpr hlt]
    rfl

theorem compare_byte {a b : Nat} (ha : a < 256) (hb : b < 256) :
    compare (UInt8.ofNat a) (UInt8.ofNat b) = compare a b := by
  have hlt : UInt8.ofNat a < UInt8.ofNat b ↔ a < b := by
    rw [UInt8.lt_iff_toNat_lt, UInt8.toNat_ofNat_of_lt' ha, UInt8.toNat_ofNat_of_lt' hb]
  have heq : UInt8.ofNat a = UInt8.ofNat b ↔ a = b := by
    rw [← UInt8.toNat_inj, UInt8.toNat_ofNat_of_lt' ha, UInt8.toNat_ofNat_of_lt' hb]
  simp only [compare, compareOfLessAndEq, hlt, heq]

/-- Byte order of big-endian fields is number order. -/
theorem compare_toBeBytes {w a b : Nat} (ha : a < 256 ^ w) (hb : b < 256 ^ w) :
    compare (toBeBytes w a) (toBeBytes w b) = compare a b := by
  induction w generalizing a b with
  | zero =>
    have ha : a = 0 := by simpa using ha
    have hb : b = 0 := by simpa using hb
    rw [ha, hb]
    rfl
  | succ w ih =>
    have hp : 0 < 256 ^ w := by positivity
    have hdigitA : a / 256 ^ w < 256 := Nat.div_lt_of_lt_mul ha
    have hdigitB : b / 256 ^ w < 256 := Nat.div_lt_of_lt_mul hb
    rw [toBeBytes, toBeBytes, List.compare_cons_cons, ih (Nat.mod_lt _ hp) (Nat.mod_lt _ hp),
      compare_byte hdigitA hdigitB, compare_div_mod hp]

end Kit

/-
  Kaleidoscope.Proofs.Truncation — numbers from 1 to 100 without their fractions.

  What a literal denotes may be infinite, but it is a number (`isNaN_literal?`): a literal is
  a product or a quotient of a finite double with a power of ten, and rounding never leaves
  the numbers. For a number, not to be less than 1 and not to be greater than 100 is to be
  between them, so its mantissa has as many bits before the point as its whole part needs,
  and dropping the others gives a number from 1 to 100 again (`toUInt32_range`).

  Doubles are taken apart into sign, mantissa and exponent here, and nowhere else.
-/

import Mathlib.Algebra.Group.Nat.Defs
import Kaleidoscope.Decimal.Literal

namespace Kaleidoscope.Decimal

open Float.Model (UnpackedFloat Format)
open Float.Model.UnpackedFloat

variable {u : UnpackedFloat}

/-! ## Literals are numbers -/

theorem isNaN_ite {c : Prop} [Decidable c] {v : UnpackedFloat} (hu : c → u.isNaN = false)
    (hv : ¬c → v.isNaN = false) : (if c then u else v).isNaN = false := by
  by_cases h : c
  · rw [if_pos h]
    exact hu h
  · rw [if_neg h]
    exact hv h

theorem isNaN_dite {c : Prop} [Decidable c] {v : c → UnpackedFloat} {w : ¬c → UnpackedFloat}
    (hv : ∀ h, (v h).isNaN = false) (hw : ∀ h, (w h).isNaN = false) : (dite c v w).isNaN = false := by
  by_cases h : c
  · rw [dif_pos h]
    exact hv h
  · rw [dif_neg h]
    exact hw h

theorem isNaN_roundWithAccuracy (spec : Format) (s : Sign) (m : Nat) (e : Int) (a : Accuracy) :
    (roundWithAccuracy spec s m e a).isNaN = false := by
  apply isNaN_dite
  · exact fun _ => rfl
  · exact fun _ => rfl

theorem isNaN_ofNat (spec : Format) (n : Nat) : (UnpackedFloat.ofNat spec n).isNaN = false := by
  simp only [UnpackedFloat.ofNat, UnpackedFloat.ofInt, UnpackedFloat.normalize]
  split
  · exact isNaN_roundWithAccuracy ..
  · rfl
  · exact isNaN_roundWithAccuracy ..

theorem isNaN_mul_finite (spec : Format) (h : u.isNaN = false) (s : Sign) (m : Nat) (e : Int) (hm : 0 < m) :
    (UnpackedFloat.mul spec u (.finite s m e hm)).isNaN = false := by
  cases u with
  | infinity => rfl
  | notANumber => exact h
  | zero => rfl
  | finite => exact isNaN_roundWithAccuracy ..

theorem isNaN_div_finite (spec : Format) (h : u.isNaN = false) (s : Sign) (m : Nat) (e : Int) (hm : 0 < m) :
    (UnpackedFloat.div spec u (.finite s m e hm)).isNaN = false := by
  cases u with
  | infinity => rfl
  | notANumber => exact h
  | zero => rfl
  | finite => exact isNaN_roundWithAccuracy ..

theorem isNaN_unpack {b : BitVec 64} (h : @unpackExponent .binary64 b ≠ -1#11 ∨ @unpackMantissa .binary64 b = 0#52) :
    (unpack .binary64 b).isNaN = false := by
  apply isNaN_ite
  · intro he
    apply isNaN_ite
    · exact fun _ => rfl
    · exact fun hm => absurd (h.resolve_left fun hne => hne he) hm
  · intro _
    apply isNaN_ite
    · intro _
      apply isNaN_dite
      · exact fun _ => rfl
      · exact fun _ => rfl
    · exact fun _ => rfl

/-- Packing may round to infinity, but not away from the numbers. -/
theorem isNaN_pack (h : u.isNaN = false) : (Float.Model.pack u).isNaN = false := by
  show (unpack .binary64 (pack .binary64 u)).isNaN = false
  have hcomponents : ∀ s (e : BitVec 11) (m : BitVec 52), e ≠ -1#11 ∨ m = 0#52 →
      (unpack .binary64 (packComponents .binary64 s e m)).isNaN = false := by
    intro s e m hem
    apply isNaN_unpack
    rwa [unpackExponent_packComponents, unpackMantissa_packComponents]
  cases u with
  | notANumber => cases h
  | infinity s => exact hcomponents s _ _ (.inr rfl)
  | zero s => exact hcomponents s _ _ (.inl (by decide))
  | finite s m e hm =>
    unfold pack
    dsimp only
    split
    · exact hcomponents s _ _ (.inr rfl)
    · rename_i hbound
      split
      · refine hcomponents s _ _ (.inl fun heq => ?_)
        have := congrArg BitVec.toNat heq
        simp [BitVec.toNat_ofNat] at this
        omega
      · exact hcomponents s _ _ (.inl (by decide))

theorem isNaN_unpacked_ofScientific (spec : Format) (m : Nat) (e : Int) :
    (UnpackedFloat.ofScientific spec m e).isNaN = false := by
  apply isNaN_dite
  · exact fun _ => rfl
  · intro _
    apply isNaN_ite
    · exact fun _ => rfl
    · intro _
      apply isNaN_ite
      · exact fun _ => rfl
      · intro _
        apply isNaN_ite
        · exact fun _ => isNaN_roundWithAccuracy ..
        · exact fun _ => isNaN_roundWithAccuracy ..

/-- A finite double that is not zero. -/
def Nonzero (y : Float) : Prop := ∃ s m e hm, y.toModel.unpack = .finite s m e hm

theorem isNaN_mul {x y : Float} (hx : x.isNaN = false) (hy : Nonzero y) : (x * y).isNaN = false := by
  obtain ⟨s, m, e, hm, hunpack⟩ := hy
  refine isNaN_pack ?_
  rw [hunpack]
  exact isNaN_mul_finite .binary64 hx s m e hm

theorem isNaN_div {x y : Float} (hx : x.isNaN = false) (hy : Nonzero y) : (x / y).isNaN = false := by
  obtain ⟨s, m, e, hm, hunpack⟩ := hy
  refine isNaN_pack ?_
  rw [hunpack]
  exact isNaN_div_finite .binary64 hx s m e hm

theorem nonzero_powerOfTen (e : Fin 23) : Nonzero (Float.exactlyRepresentablePowersOfTen[e]) := by
  have hall : ∀ e : Fin 23, (match (Float.exactlyRepresentablePowersOfTen[e]).toModel.unpack with
      | .finite .. => true
      | _ => false) = true := by decide +kernel
  have he := hall e
  split at he
  · rename_i s m x hm hunpack
    exact ⟨s, m, x, hm, hunpack⟩
  · cases he

theorem isNaN_ofScientific (m : Nat) (negative : Bool) (e : Nat) : (Float.ofScientific m negative e).isNaN = false := by
  unfold Float.ofScientific
  split
  · rename_i h
    have hm : m.toUInt64.toFloat.isNaN = false := isNaN_pack (isNaN_ofNat .binary64 _)
    have hpower := nonzero_powerOfTen ⟨e, Nat.lt_succ_of_le h.2⟩
    simp only
    split
    · exact isNaN_div hm hpower
    · exact isNaN_mul hm hpower
  · exact isNaN_pack (isNaN_unpacked_ofScientific .binary64 m _)

/-- What a literal denotes is a number. -/
theorem isNaN_literal? {cs : List Char} {x : Float} (h : literal? cs = some x) : x.isNaN = false := by
  simp only [literal?] at h
  split at h
  · split at h
    · cases h
    · cases h
      exact isNaN_ofScientific ..
  · split at h
    · cases h
      exact isNaN_ofScientific ..
    · cases h

/-! ## The whole part -/

/-- A double is subnormal, or its mantissa has 53 bits. -/
theorem mantissa_of_unpack {b : BitVec 64} {s : Sign} {m : Nat} {e : Int} {hm : 0 < m}
    (h : unpack .binary64 b = .finite s m e hm) : e = -1074 ∨ 2 ^ 52 ≤ m ∧ m < 2 ^ 53 := by
  delta unpack at h
  dsimp only at h
  by_cases hspecial : @unpackExponent .binary64 b = -1#11
  · rw [if_pos hspecial] at h
    by_cases hzero : @unpackMantissa .binary64 b = 0#52
    · rw [if_pos hzero] at h
      cases h
    · rw [if_neg hzero] at h
      cases h
  · rw [if_neg hspecial] at h
    by_cases hexponent : @unpackExponent .binary64 b = 0#11
    · rw [if_pos hexponent] at h
      by_cases hzero : @unpackMantissa .binary64 b = 0#52
      · rw [dif_pos hzero] at h
        cases h
      · rw [dif_neg hzero] at h
        cases h
        left
        rw [hexponent]
        rfl
    · rw [if_neg hexponent] at h
      cases h
      right
      have hlt : (@unpackMantissa .binary64 b).toNat < 2 ^ 52 := (@unpackMantissa .binary64 b).isLt
      have hbits : (1#1 ++ @unpackMantissa .binary64 b).toNat =
          2 ^ 52 + (@unpackMantissa .binary64 b).toNat := by
        rw [BitVec.toNat_append, ← Nat.shiftLeft_add_eq_or_of_lt hlt]
        rfl
      omega

theorem mantissa_shiftRight (em : ExtendedMantissa) (k : Nat) : (em >>> k).mantissa = em.mantissa / 2 ^ k := by
  induction k with
  | zero => exact (Nat.div_one _).symm
  | succ k ih =>
    show (em >>> k).mantissa / 2 = _
    rw [ih, Nat.div_div_eq_div_mul, Nat.pow_succ]

/-- The last `k` bits of the mantissa are below the point. -/
theorem roundToInt_positive (m k : Nat) : roundToInt .positive m (-k) = (m / 2 ^ k : Nat) := by
  have hdown : (-(k : Int)).toNat = 0 := by omega
  have hup : (0 - -(k : Int)).toNat = k := by omega
  simp only [roundToInt, decreaseExponent, shiftToExponent, Int.sub_zero, hdown, Int.natCast_zero, hup,
    mantissa_shiftRight]
  rfl

theorem unpack_one : (1 : Float).toModel.unpack = .finite .positive (2 ^ 52) (-52) (by decide) := by
  rfl

theorem unpack_hundred : (100 : Float).toModel.unpack = .finite .positive (100 * 2 ^ 46) (-46) (by decide) := by
  rfl

theorem toNat_ofNatClamp {n : Nat} (h : n ≤ 100) : (UInt32.ofNatClamp n).toNat = n := by
  rw [UInt32.ofNatClamp, dif_pos (by rw [UInt32.size]; omega)]
  exact UInt32.toNat_ofNatLT ..

theorem lt_iff {x y : Float} : x < y ↔ x.toModel.unpack.compare y.toModel.unpack = some .lt := by
  show decide (x.toModel.unpack.lt y.toModel.unpack = true) = true ↔ _
  rw [decide_eq_true_iff, UnpackedFloat.lt, beq_iff_eq]

theorem then_ne_lt {a b : Int} {m n : Nat} (h : (compare a b).then (compare m n) ≠ .lt) :
    b < a ∨ a = b ∧ n ≤ m := by
  rcases Int.lt_trichotomy a b with hlt | heq | hgt
  · rw [Int.compare_eq_lt.mpr hlt] at h
    exact absurd rfl h
  · rw [Int.compare_eq_eq.mpr heq] at h
    exact .inr ⟨heq, Nat.not_lt.mp fun hlt => h (Nat.compare_eq_lt.mpr hlt)⟩
  · exact .inl hgt

/-- The mantissa and the exponent of a number that is not less than 1 and not greater
    than 100: its first `53 - k` bits are its whole part. -/
theorem unpack_of_range {x : Float} (hnan : x.isNaN = false) (hlow : ¬x < 1) (hhigh : ¬100 < x) :
    ∃ m k, ∃ hm : 0 < m, x.toModel.unpack = .finite .positive m (-(k : Nat)) hm ∧ 2 ^ k ≤ m ∧ m ≤ 100 * 2 ^ k := by
  have hnan : x.toModel.unpack.isNaN = false := hnan
  rw [lt_iff, unpack_one] at hlow
  rw [lt_iff, unpack_hundred] at hhigh
  cases hx : x.toModel.unpack with
  | notANumber =>
    rw [hx] at hnan
    cases hnan
  | infinity s =>
    rw [hx] at hlow hhigh
    cases s with
    | negative => exact absurd rfl hlow
    | positive => exact absurd rfl hhigh
  | zero s =>
    rw [hx] at hlow
    exact absurd rfl hlow
  | finite s m e hm =>
    rw [hx] at hlow hhigh
    cases s with
    | negative => exact absurd rfl hlow
    | positive =>
      have hlow := then_ne_lt fun h => hlow (congrArg some h)
      have hhigh := then_ne_lt fun h => hhigh (congrArg some h)
      obtain ⟨hleast, hmost⟩ : 2 ^ 52 ≤ m ∧ m < 2 ^ 53 := (mantissa_of_unpack hx).resolve_left (by omega)
      obtain ⟨k, rfl⟩ : ∃ k : Nat, e = -k := ⟨(-e).toNat, by omega⟩
      refine ⟨m, k, hm, rfl, ?_, ?_⟩
      · have hk : 2 ^ k ≤ 2 ^ 52 := Nat.pow_le_pow_right (by decide) (by omega)
        omega
      · rcases hhigh with hlt | ⟨heq, hle⟩
        · have hk : 2 ^ 47 ≤ 2 ^ k := Nat.pow_le_pow_right (by decide) (by omega)
          omega
        · obtain rfl : k = 46 := by omega
          exact hle

/-- The whole part of a number that is not less than 1 and not greater than 100 is one of
    them, too. -/
theorem toUInt32_range {x : Float} (hnan : x.isNaN = false) (hlow : ¬x < 1) (hhigh : ¬100 < x) :
    1 ≤ x.toUInt32.toNat ∧ x.toUInt32.toNat ≤ 100 := by
  obtain ⟨m, k, hm, hx, hle, hge⟩ := unpack_of_range hnan hlow hhigh
  have hpos : 0 < 2 ^ k := Nat.two_pow_pos k
  have hone : 1 ≤ m / 2 ^ k := (Nat.one_le_div_iff hpos).mpr hle
  have hhundred : m / 2 ^ k ≤ 100 := Nat.div_le_of_le_mul (by rw [Nat.mul_comm]; exact hge)
  have hwhole : x.toUInt32.toNat = m / 2 ^ k := by
    show (UInt32.ofNatClamp (x.toModel.unpack.toInt 0 _).toNat).toNat = _
    rw [hx]
    show (UInt32.ofNatClamp (roundToInt .positive m (-k)).toNat).toNat = _
    rw [roundToInt_positive, Int.toNat_natCast, toNat_ofNatClamp hhundred]
  omega

end Kaleidoscope.Decimal

import Mathlib.Algebra.Group.Nat.Defs
import Yurin.Text.Bytes

/-!
# Numbers that are written

A number in decimal is digits only (`isDigit_of_mem_natText`), of which the last one is written last
(`natText_eq`), and the digits stand for the number (`decimal_natText`). A number in hexadecimal is
written with as many digits as there is room for, and they stand for it (`hexNumber?_hexText`).
-/

namespace Yurin

/-! ## In decimal -/

/-- The last digit of a number is written last. -/
theorem natText_eq (n : Nat) :
    natText n = (if n < 10 then [] else natText (n / 10)) ++ [(48 + n % 10).toUInt8] := by
  have hdigit : ∀ d < 10, (Nat.digitChar d).toUInt8 = (48 + d).toUInt8 := by decide
  have hlast := hdigit (n % 10) (Nat.mod_lt n (by decide))
  unfold natText
  rw [Nat.toDigits_eq_if (by decide)]
  split
  · rename_i hlt
    rw [Nat.mod_eq_of_lt hlt] at hlast ⊢
    rw [List.map_singleton, hlast, List.nil_append]
  · rw [List.map_append, List.map_singleton, hlast]

/-- The number that some decimal digits stand for. -/
def decimal (digits : Bytes) : Nat := digits.foldl (fun n b => n * 10 + (b.toNat - 48)) 0

/-- A digit that is written is one, and has its value. -/
theorem isDigit_written : ∀ d < 10, isDigit (48 + d).toUInt8 = true ∧
    (48 + d).toUInt8.toNat - 48 = d := by
  decide

theorem isDigit_of_mem_natText {n : Nat} {b : UInt8} (h : b ∈ natText n) : isDigit b = true := by
  induction n using Nat.strongRecOn with
  | ind n ih =>
    rw [natText_eq, List.mem_append, List.mem_singleton] at h
    rcases h with h | rfl
    · split at h
      · cases h
      · exact ih (n / 10) (by omega) h
    · exact (isDigit_written _ (Nat.mod_lt n (by decide))).1

/-- **The digits of a number** stand for the number. -/
theorem decimal_natText (n : Nat) : decimal (natText n) = n := by
  induction n using Nat.strongRecOn with
  | ind n ih =>
    have hlast := (isDigit_written _ (Nat.mod_lt n (by decide : 10 > 0))).2
    rw [natText_eq, decimal, List.foldl_append, List.foldl_cons, List.foldl_nil, hlast]
    split
    · rename_i hlt
      rw [List.foldl_nil, Nat.zero_mul, Nat.zero_add, Nat.mod_eq_of_lt hlt]
    · have hrest := ih (n / 10) (by omega)
      rw [decimal] at hrest
      rw [hrest, Nat.div_add_mod' n 10]

/-! ## In hexadecimal -/

/-- A hexadecimal digit that is written has its value. -/
theorem hexValue?_hexDigit : ∀ n < 16, hexValue? (hexDigit n) = some n := by decide

theorem hexNumber?_concat (digits : Bytes) (b : UInt8) :
    hexNumber? (digits ++ [b]) =
      (hexNumber? digits).bind fun m => (hexValue? b).map (m * 16 + ·) := by
  rw [hexNumber?, List.foldlM_append]
  simp only [List.foldlM_cons, List.foldlM_nil, bind_pure]
  rfl

/-- **The digits that are written** stand for the number, as far as there is room for it. -/
theorem hexNumber?_hexText (width n : Nat) :
    hexNumber? (hexText width n) = some (n % 16 ^ width) := by
  induction width generalizing n with
  | zero => exact congrArg some (Nat.mod_one n).symm
  | succ width ih =>
    rw [hexText, hexNumber?_concat, ih, Option.bind_some,
      hexValue?_hexDigit _ (Nat.mod_lt n (by decide)), Option.map_some, Nat.pow_succ', Nat.mod_mul,
      Nat.add_comm, Nat.mul_comm]

end Yurin

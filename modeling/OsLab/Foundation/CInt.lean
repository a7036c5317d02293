import Mathlib.Data.Int.Basic
import Mathlib.Tactic.Linarith

/-! The `int` and `long` of C, over exact integers: 32 and 64 bits in two's complement. -/

namespace OsLab

def intMin : Int := -2147483648

def intMax : Int := 2147483647

def longMin : Int := -9223372036854775808

def longMax : Int := 9223372036854775807

def FitsInt (v : Int) : Prop := intMin ≤ v ∧ v ≤ intMax

instance (v : Int) : Decidable (FitsInt v) := inferInstanceAs (Decidable (_ ∧ _))

/-- What an `int` holds after `v` is stored in it. -/
def toInt (v : Int) : Int := (v - intMin) % 4294967296 + intMin

/-- What `strtol` makes of the number `v`. -/
def toLong (v : Int) : Int := max longMin (min v longMax)

theorem toInt_fits (v : Int) : FitsInt (toInt v) := by
  unfold FitsInt toInt intMin intMax
  omega

theorem toInt_of_fits {v : Int} (h : FitsInt v) : toInt v = v := by
  unfold FitsInt at h
  unfold toInt intMin intMax at *
  omega

theorem toInt_eq_self_iff {v : Int} : toInt v = v ↔ FitsInt v :=
  ⟨fun h => h ▸ toInt_fits v, toInt_of_fits⟩

theorem toLong_of_fits {v : Int} (h : FitsInt v) : toLong v = v := by
  unfold FitsInt intMin intMax at h
  unfold toLong longMin longMax
  omega

end OsLab

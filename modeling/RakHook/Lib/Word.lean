/-
  RakHook.Lib.Word — 32-bit machine integers on `Int`: what an `int` (`i32`) or an
  `unsigned int` (`u32`) holds after a computation whose exact value is in `Int`.
-/

namespace RakHook.Lib

/-- The `int` a computation leaves: its value modulo 2^32, in [-2^31, 2^31). -/
def i32 (x : Int) : Int := (x + 2147483648) % 4294967296 - 2147483648

def u32 (x : Int) : Int := x % 4294967296

theorem i32_of {x : Int} (h : -2147483648 ≤ x) (h' : x < 2147483648) : i32 x = x := by
  unfold i32; omega

theorem u32_of {x : Int} (h : 0 ≤ x) (h' : x < 4294967296) : u32 x = x := by
  unfold u32; omega

/-- An `int` sum that leaves the range by less than 2^32 comes back below it. -/
theorem i32_over {x : Int} (h : 2147483648 ≤ x) (h' : x < 4294967296) : i32 x = x - 4294967296 := by
  unfold i32; omega

theorem toInt_small {c : BitVec 32} (h : c.toNat < 2147483648) : c.toInt = (c.toNat : Int) := by
  rw [BitVec.toInt_eq_toNat_cond]; split <;> omega

theorem toInt_neg {c : BitVec 32} (h : 2147483648 ≤ c.toNat) : c.toInt < 0 := by
  have := c.isLt
  rw [BitVec.toInt_eq_toNat_cond]; split <;> omega

end RakHook.Lib

import Mathlib.Data.List.Basic
import Mathlib.Tactic.Ring

/-!
# Words as bytes

A machine word in memory or on the wire: `Wire.leBytes w n` are the `w` low bytes of `n`,
the least significant first, and `Wire.ofLeBytes` reads them back. The two are inverse to
each other, up to truncation in one direction (`Wire.ofLeBytes_leBytes`) and for strings of
the right length in the other (`Wire.leBytes_ofLeBytes`). Network order is the reverse.
-/

namespace Wire

/-- The `w` low bytes of `n`, the least significant first. -/
def leBytes : ℕ → ℕ → List UInt8
  | 0, _ => []
  | w + 1, n => UInt8.ofNat n :: leBytes w (n / 256)

/-- The number written by its bytes, the least significant first. -/
def ofLeBytes : List UInt8 → ℕ
  | [] => 0
  | b :: bs => b.toNat + 256 * ofLeBytes bs

@[simp] theorem length_leBytes (w n : ℕ) : (leBytes w n).length = w := by
  induction w generalizing n with
  | zero => rfl
  | succ w ih => rw [leBytes, List.length_cons, ih]

theorem ofLeBytes_lt (bs : List UInt8) : ofLeBytes bs < 256 ^ bs.length := by
  induction bs with
  | nil => decide
  | cons b bs ih =>
    have hb : b.toNat < 256 := b.toNat_lt
    rw [ofLeBytes, List.length_cons, pow_succ]
    omega

/-- Writing a word keeps its low bytes. -/
theorem ofLeBytes_leBytes (w n : ℕ) : ofLeBytes (leBytes w n) = n % 256 ^ w := by
  induction w generalizing n with
  | zero => rw [leBytes, ofLeBytes, pow_zero, Nat.mod_one]
  | succ w ih =>
    have hpow : 256 ^ (w + 1) = 256 * 256 ^ w := pow_succ' 256 w
    rw [leBytes, ofLeBytes, ih, UInt8.toNat_ofNat', hpow, Nat.mod_mul]

/-- Reading a word loses nothing. -/
theorem leBytes_ofLeBytes (bs : List UInt8) : leBytes bs.length (ofLeBytes bs) = bs := by
  induction bs with
  | nil => rfl
  | cons b bs ih =>
    have hb : b.toNat < 256 := b.toNat_lt
    have hdiv : (b.toNat + 256 * ofLeBytes bs) / 256 = ofLeBytes bs := by omega
    have hlow : UInt8.ofNat (b.toNat + 256 * ofLeBytes bs) = b := by
      apply UInt8.toNat_inj.mp
      rw [UInt8.toNat_ofNat']
      omega
    rw [ofLeBytes, List.length_cons, leBytes, hdiv, ih, hlow]

/-! ### Words of 32 bits -/

/-- A 32-bit word in memory order. -/
def le32 (x : UInt32) : List UInt8 := leBytes 4 x.toNat

/-- The 32-bit word with the given bytes in memory order. -/
def ofLe32 (bs : List UInt8) : UInt32 := UInt32.ofNat (ofLeBytes bs)

/-- A 32-bit word in network order. -/
def be32 (x : UInt32) : List UInt8 := (le32 x).reverse

/-- The 32-bit word with the given bytes in network order. -/
def ofBe32 (bs : List UInt8) : UInt32 := ofLe32 bs.reverse

@[simp] theorem length_le32 (x : UInt32) : (le32 x).length = 4 := length_leBytes 4 _

@[simp] theorem length_be32 (x : UInt32) : (be32 x).length = 4 := by
  rw [be32, List.length_reverse, length_le32]

@[simp] theorem ofLe32_le32 (x : UInt32) : ofLe32 (le32 x) = x := by
  have hx : x.toNat < 256 ^ 4 := x.toNat_lt
  rw [ofLe32, le32, ofLeBytes_leBytes, Nat.mod_eq_of_lt hx, UInt32.ofNat_toNat]

@[simp] theorem ofBe32_be32 (x : UInt32) : ofBe32 (be32 x) = x := by
  rw [ofBe32, be32, List.reverse_reverse, ofLe32_le32]

theorem le32_ofLe32 {bs : List UInt8} (h : bs.length = 4) : le32 (ofLe32 bs) = bs := by
  have hlt : ofLeBytes bs < 2 ^ 32 := by
    have := ofLeBytes_lt bs
    rwa [h] at this
  have hword : (ofLe32 bs).toNat = ofLeBytes bs := by
    rw [ofLe32, UInt32.toNat_ofNat', Nat.mod_eq_of_lt hlt]
  rw [le32, hword, ← h]
  exact leBytes_ofLeBytes bs

theorem le32_inj {x y : UInt32} (h : le32 x = le32 y) : x = y := by
  rw [← ofLe32_le32 x, h, ofLe32_le32]

end Wire

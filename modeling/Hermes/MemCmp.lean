import Hermes.Common
import Mathlib.Data.Int.Order.Basic

/-!
# Comparing memory in constant time

`common/mem_cmp.c`. The comparison reads every byte of the two arrays, from the last one
to the first, and selects with a mask where a comparison would usually branch and stop.
What it computes is the lexicographic comparison all the same: `Hermes.firstDiff` is the
difference at the first place where two strings differ, and the loop holds, when it has
come down to place `k`, that difference for the strings from `k` on
(`Hermes.cstTimeMemcmpLoop_eq`).

An `int` is an `Int32`, and an access outside an array has no result.
-/

namespace Hermes

/-! ### The comparison of the source -/

/-- An `unsigned char` where an `int` is expected. -/
def intOfByte (b : UInt8) : Int32 := Int32.ofNat b.toNat

/-- `!x` of an `int`. -/
def lnot (x : Int32) : Int32 := if x = 0 then 1 else 0

/-- `res` after a byte of each array was read in `cst_time_memcmp`. -/
def cstTimeMemcmpStep (res : Int32) (b1 b2 : UInt8) : Int32 :=
  let diff := intOfByte b1 - intOfByte b2
  (res &&& -lnot diff) ||| diff

/-- The loop of `cst_time_memcmp`, with `n` bytes of each array left to read. -/
def cstTimeMemcmpLoop (pm1 pm2 : Bytes) : ℕ → Int32 → Option Int32
  | 0, res => some res
  | n + 1, res => do
    let b1 ← pm1[n]?
    let b2 ← pm2[n]?
    cstTimeMemcmpLoop pm1 pm2 n (cstTimeMemcmpStep res b1 b2)

/-- `cst_time_memcmp` -/
def cstTimeMemcmp (m1 m2 : Bytes) (n : ℕ) : Option Int32 := do
  let res ← cstTimeMemcmpLoop m1 m2 n 0
  return (if res > 0 then 1 else 0) - (if res < 0 then 1 else 0)

/-! ### The first difference -/

/-- The difference of two strings at the first place where they differ, and `0` where
there is none. -/
def firstDiff : Bytes → Bytes → ℤ
  | b1 :: bs1, b2 :: bs2 => if b1 = b2 then firstDiff bs1 bs2 else b1.toNat - b2.toNat
  | _, _ => 0

/-- The first difference is the one at the first place where the strings differ. -/
theorem firstDiff_of_first {bs1 bs2 : Bytes} {i : ℕ} {b1 b2 : UInt8}
    (hbefore : ∀ j < i, bs1[j]? = bs2[j]?) (h1 : bs1[i]? = some b1) (h2 : bs2[i]? = some b2)
    (hne : b1 ≠ b2) : firstDiff bs1 bs2 = b1.toNat - b2.toNat := by
  induction i generalizing bs1 bs2 with
  | zero =>
    obtain ⟨cs1, rfl⟩ := List.head?_eq_some_iff.mp (List.head?_eq_getElem?.trans h1)
    obtain ⟨cs2, rfl⟩ := List.head?_eq_some_iff.mp (List.head?_eq_getElem?.trans h2)
    rw [firstDiff, if_neg hne]
  | succ i ih =>
    match bs1, bs2, h1, h2 with
    | c1 :: cs1, c2 :: cs2, h1, h2 =>
      have hhead : c1 = c2 := by simpa using hbefore 0 (Nat.succ_pos i)
      have htail : ∀ j < i, cs1[j]? = cs2[j]? := by
        intro j hj
        simpa using hbefore (j + 1) (Nat.succ_lt_succ hj)
      rw [firstDiff, if_pos hhead]
      exact ih htail (by simpa using h1) (by simpa using h2)

/-- Strings of one length differ nowhere only when they are the same. -/
theorem firstDiff_eq_zero_iff {bs1 bs2 : Bytes} (hlen : bs1.length = bs2.length) :
    firstDiff bs1 bs2 = 0 ↔ bs1 = bs2 := by
  induction bs1, bs2 using firstDiff.induct with
  | case1 bs1 b1 bs2 ih =>
    have htail : bs1.length = bs2.length := Nat.succ.inj hlen
    rw [firstDiff, if_pos rfl, ih htail, List.cons.injEq]
    exact (and_iff_right rfl).symm
  | case2 b1 bs1 b2 bs2 hne =>
    have hval : b1.toNat ≠ b2.toNat := fun h => hne (UInt8.toNat_inj.mp h)
    rw [firstDiff, if_neg hne]
    constructor
    · intro h
      omega
    · intro h
      exact absurd (List.cons.inj h).1 hne
  | case3 bs1 bs2 hnil =>
    match bs1, bs2, hlen, hnil with
    | [], [], _, _ => simp [firstDiff]
    | b1 :: bs1, b2 :: bs2, _, hnil => exact (hnil b1 bs1 b2 bs2 rfl rfl).elim

/-- Which of two strings of one length comes first is told by their first difference. -/
theorem firstDiff_neg_iff {bs1 bs2 : Bytes} (hlen : bs1.length = bs2.length) :
    firstDiff bs1 bs2 < 0 ↔ bs1 < bs2 := by
  induction bs1, bs2 using firstDiff.induct with
  | case1 bs1 b1 bs2 ih =>
    have htail : bs1.length = bs2.length := Nat.succ.inj hlen
    rw [firstDiff, if_pos rfl, ih htail, List.cons_lt_cons_iff]
    simp
  | case2 b1 bs1 b2 bs2 hne =>
    rw [firstDiff, if_neg hne, List.cons_lt_cons_iff, UInt8.lt_iff_toNat_lt]
    simp only [hne, false_and, or_false]
    omega
  | case3 bs1 bs2 hnil =>
    match bs1, bs2, hlen, hnil with
    | [], [], _, _ => simp [firstDiff]
    | b1 :: bs1, b2 :: bs2, _, hnil => exact (hnil b1 bs1 b2 bs2 rfl rfl).elim

/-- The first difference of what is left of two strings, one byte earlier. -/
theorem firstDiff_drop {bs1 bs2 : Bytes} {k : ℕ} {b1 b2 : UInt8} (h1 : bs1[k]? = some b1)
    (h2 : bs2[k]? = some b2) :
    firstDiff (bs1.drop k) (bs2.drop k) =
      if b1 = b2 then firstDiff (bs1.drop (k + 1)) (bs2.drop (k + 1))
      else b1.toNat - b2.toNat := by
  obtain ⟨hk1, rfl⟩ := List.getElem?_eq_some_iff.mp h1
  obtain ⟨hk2, rfl⟩ := List.getElem?_eq_some_iff.mp h2
  rw [List.drop_eq_getElem_cons hk1, List.drop_eq_getElem_cons hk2, firstDiff]

/-! ### The mask -/

theorem toInt_intOfByte (b : UInt8) : (intOfByte b).toInt = b.toNat := by
  have hb := b.toNat_lt
  exact Int32.toInt_ofNat_of_lt (by omega)

/-- The difference of two bytes does not overflow an `int`. -/
theorem toInt_intOfByte_sub (b1 b2 : UInt8) :
    (intOfByte b1 - intOfByte b2).toInt = b1.toNat - b2.toNat := by
  have h1 := b1.toNat_lt
  have h2 := b2.toNat_lt
  rw [Int32.toInt_sub, toInt_intOfByte, toInt_intOfByte]
  exact Int.bmod_eq_of_le (by omega) (by omega)

/-- **The mask selects**: where the bytes agree `res` is kept, and where they differ it is
their difference. -/
theorem toInt_cstTimeMemcmpStep (res : Int32) (b1 b2 : UInt8) :
    (cstTimeMemcmpStep res b1 b2).toInt = if b1 = b2 then res.toInt else b1.toNat - b2.toNat := by
  have hdiff := toInt_intOfByte_sub b1 b2
  by_cases heq : b1 = b2
  · have hzero : intOfByte b1 - intOfByte b2 = 0 := by
      apply Int32.toInt_inj.mp
      rw [hdiff, heq, Int.sub_self]
      rfl
    rw [if_pos heq, cstTimeMemcmpStep, hzero, lnot, if_pos rfl, Int32.and_neg_one, Int32.or_zero]
  · have hne : intOfByte b1 - intOfByte b2 ≠ 0 := by
      intro h
      have hval : b1.toNat ≠ b2.toNat := fun h => heq (UInt8.toNat_inj.mp h)
      rw [h, Int32.toInt_zero] at hdiff
      omega
    rw [if_neg heq, cstTimeMemcmpStep, lnot, if_neg hne, Int32.neg_zero, Int32.and_zero,
      Int32.zero_or, hdiff]

/-! ### The loop -/

/-- **The loop invariant**: where `res` is the first difference of the bytes from `k` to
`n`, the loop ends with the first difference of all `n` bytes. -/
theorem cstTimeMemcmpLoop_eq {m1 m2 : Bytes} {n : ℕ} (h1 : n ≤ m1.length) (h2 : n ≤ m2.length)
    {k : ℕ} (hk : k ≤ n) {res : Int32}
    (hres : res.toInt = firstDiff ((m1.take n).drop k) ((m2.take n).drop k)) :
    ∃ r, cstTimeMemcmpLoop m1 m2 k res = some r ∧
      r.toInt = firstDiff (m1.take n) (m2.take n) := by
  induction k generalizing res with
  | zero => exact ⟨res, rfl, hres⟩
  | succ k ih =>
    have hk1 : k < m1.length := by omega
    have hk2 : k < m2.length := by omega
    have hget1 : (m1.take n)[k]? = some m1[k] := by
      rw [List.getElem?_take_of_lt hk, List.getElem?_eq_getElem hk1]
    have hget2 : (m2.take n)[k]? = some m2[k] := by
      rw [List.getElem?_take_of_lt hk, List.getElem?_eq_getElem hk2]
    have hstep : (cstTimeMemcmpStep res m1[k] m2[k]).toInt =
        firstDiff ((m1.take n).drop k) ((m2.take n).drop k) := by
      rw [toInt_cstTimeMemcmpStep, firstDiff_drop hget1 hget2, hres]
    obtain ⟨r, hloop, hr⟩ := ih (by omega) hstep
    refine ⟨r, ?_, hr⟩
    rw [cstTimeMemcmpLoop, List.getElem?_eq_getElem hk1, List.getElem?_eq_getElem hk2]
    exact hloop

/-- `(res > 0) - (res < 0)` is the sign of `res`. -/
theorem toInt_sign (res : Int32) :
    ((if res > 0 then 1 else 0) - (if res < 0 then 1 else 0) : Int32).toInt =
      Int.sign res.toInt := by
  rcases lt_trichotomy res.toInt 0 with hneg | hzero | hpos
  · have hlt : res < 0 := Int32.lt_iff_toInt_lt.mpr hneg
    have hngt : ¬res > 0 := fun h =>
      absurd (Int32.lt_iff_toInt_lt.mp h) (Int.not_lt.mpr (Int.le_of_lt hneg))
    rw [if_neg hngt, if_pos hlt, Int.sign_eq_neg_one_of_neg hneg]
    rfl
  · have heq : res = 0 := Int32.toInt_inj.mp hzero
    rw [heq]
    rfl
  · have hgt : res > 0 := Int32.lt_iff_toInt_lt.mpr hpos
    have hnlt : ¬res < 0 := fun h =>
      absurd (Int32.lt_iff_toInt_lt.mp h) (Int.not_lt.mpr (Int.le_of_lt hpos))
    rw [if_pos hgt, if_neg hnlt, Int.sign_eq_one_of_pos hpos]
    rfl

/-- **What the comparison returns** is the sign of the first difference. -/
theorem cstTimeMemcmp_eq {m1 m2 : Bytes} {n : ℕ} (h1 : n ≤ m1.length) (h2 : n ≤ m2.length) :
    ∃ r, cstTimeMemcmp m1 m2 n = some r ∧
      r.toInt = Int.sign (firstDiff (m1.take n) (m2.take n)) := by
  have hstart : (0 : Int32).toInt = firstDiff ((m1.take n).drop n) ((m2.take n).drop n) := by
    rw [List.drop_take_self, List.drop_take_self]
    rfl
  obtain ⟨res, hloop, hres⟩ := cstTimeMemcmpLoop_eq h1 h2 (Nat.le_refl n) hstart
  refine ⟨_, ?_, (toInt_sign res).trans (congrArg Int.sign hres)⟩
  rw [cstTimeMemcmp, hloop]
  rfl

/-- An `int` that is a sign. -/
theorem memcmpSign_cases {r : Int32} {z : ℤ} (hr : r.toInt = Int.sign z) :
    r = -1 ∨ r = 0 ∨ r = 1 := by
  rw [← Int32.toInt_inj, ← Int32.toInt_inj (y := 0), ← Int32.toInt_inj (y := 1), hr]
  rcases Int.sign_trichotomy z with h | h | h
  · exact .inr (.inr h)
  · exact .inr (.inl h)
  · exact .inl h

/-- The comparison is negative on a string that comes before the other. -/
theorem memcmpSign_eq_neg_one_iff {a b : Bytes} {n : ℕ} (ha : n ≤ a.length) (hb : n ≤ b.length)
    {r : Int32} (hr : r.toInt = Int.sign (firstDiff (a.take n) (b.take n))) :
    r = -1 ↔ a.take n < b.take n := by
  have hlen : (a.take n).length = (b.take n).length := by
    rw [List.length_take_of_le ha, List.length_take_of_le hb]
  rw [← firstDiff_neg_iff hlen, ← Int.sign_eq_neg_one_iff_neg, ← hr, ← Int32.toInt_inj]
  rfl

/-- The comparison at the first place where the strings differ. -/
theorem memcmpSign_of_first {a b : Bytes} {n : ℕ} {r : Int32}
    (hr : r.toInt = Int.sign (firstDiff (a.take n) (b.take n))) {i : ℕ} (hi : i < n)
    {x y : UInt8} (hx : a[i]? = some x) (hy : b[i]? = some y) (hne : x ≠ y)
    (hbefore : ∀ j < i, a[j]? = b[j]?) : r.toInt = Int.sign (x.toNat - y.toNat) := by
  have hbefore' : ∀ j < i, (a.take n)[j]? = (b.take n)[j]? := by
    intro j hj
    have hjn : j < n := Nat.lt_trans hj hi
    rw [List.getElem?_take_of_lt hjn, List.getElem?_take_of_lt hjn]
    exact hbefore j hj
  have hx' : (a.take n)[i]? = some x := (List.getElem?_take_of_lt hi).trans hx
  have hy' : (b.take n)[i]? = some y := (List.getElem?_take_of_lt hi).trans hy
  rw [hr, firstDiff_of_first hbefore' hx' hy' hne]

/-- The comparison of strings that agree. -/
theorem memcmpSign_eq_zero {a b : Bytes} {n : ℕ} {r : Int32}
    (hr : r.toInt = Int.sign (firstDiff (a.take n) (b.take n)))
    (hagree : ∀ i < n, a[i]? = b[i]?) : r = 0 := by
  have heq : a.take n = b.take n := by
    apply List.ext_getElem?
    intro i
    rw [List.getElem?_take, List.getElem?_take]
    split
    · next hi => exact hagree i hi
    · rfl
  rw [← Int32.toInt_inj, hr, heq, (firstDiff_eq_zero_iff rfl).mpr rfl]
  rfl

end Hermes

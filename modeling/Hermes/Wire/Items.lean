import Hermes.Wire.Word

/-!
# Byte strings one after the other

A sequence of byte strings in one, each announced by its length in 32 bits: `Wire.Items` is
the grammar, `Wire.item` the encoder, and a string is read from its front, an item at a time
(`Wire.items_of_ne_nil`). There is at most one way to read it (`Wire.Items.unique`), and what
can be read is what the encoder writes (`Wire.items_iff`).
-/

namespace Wire

/-- A byte string announced by its length. -/
def item (x : List UInt8) : List UInt8 := le32 (UInt32.ofNat x.length) ++ x

/-- **The grammar**: the string is a sequence of items, each a length of at least `1` and so
many bytes, with nothing left over. -/
inductive Items : List (List UInt8) → List UInt8 → Prop
  | nil : Items [] []
  | cons {l : UInt32} {x rest : List UInt8} {xs : List (List UInt8)} (hl : 1 ≤ l.toNat)
      (hx : x.length = l.toNat) (h : Items xs rest) : Items (x :: xs) (le32 l ++ x ++ rest)

@[simp] theorem length_item (x : List UInt8) : (item x).length = 4 + x.length := by
  rw [item, List.length_append, length_le32]

theorem items_nil {xs : List (List UInt8)} : Items xs [] ↔ xs = [] := by
  constructor
  · intro h
    generalize hb : ([] : List UInt8) = b at h
    cases h with
    | nil => rfl
    | cons hl hx h =>
      have hlen := congrArg List.length hb
      simp only [List.length_nil, List.length_append, length_le32] at hlen
      omega
  · rintro rfl
    exact Items.nil

/-- The length at the front of a string. -/
def announced (b : List UInt8) : ℕ := (ofLe32 (b.take 4)).toNat

/-- **Reading a string from its front.** -/
theorem items_of_ne_nil {xs : List (List UInt8)} {b : List UInt8} (hb : b ≠ []) :
    Items xs b ↔ 4 ≤ b.length ∧ 1 ≤ announced b ∧ 4 + announced b ≤ b.length ∧
      ∃ ys, xs = (b.drop 4).take (announced b) :: ys ∧ Items ys (b.drop (4 + announced b)) := by
  constructor
  · intro h
    cases h with
    | nil => exact absurd rfl hb
    | @cons l x rest ys hl hx h =>
      have hword : announced (le32 l ++ x ++ rest) = l.toNat := by
        rw [announced, List.append_assoc, List.take_left' (length_le32 l), ofLe32_le32]
      have hdrop : (le32 l ++ x ++ rest).drop 4 = x ++ rest := by
        rw [List.append_assoc, List.drop_left' (length_le32 l)]
      rw [hword, ← List.drop_drop, hdrop, List.take_left' hx, List.drop_left' hx]
      simp only [List.length_append, length_le32]
      exact ⟨by omega, hl, by omega, ys, rfl, h⟩
  · rintro ⟨h4, hl, hlen, ys, rfl, h⟩
    have hx : ((b.drop 4).take (announced b)).length = announced b := by
      rw [List.length_take, List.length_drop]
      omega
    have hword : le32 (ofLe32 (b.take 4)) = b.take 4 := by
      refine le32_ofLe32 ?_
      rw [List.length_take]
      omega
    have hb : b = le32 (ofLe32 (b.take 4)) ++ (b.drop 4).take (announced b) ++
        b.drop (4 + announced b) := by
      rw [hword, ← List.drop_drop, List.append_assoc, List.take_append_drop,
        List.take_append_drop]
    have hitems := Items.cons hl hx h
    rwa [← hb] at hitems

/-- A string is read in one way at most. -/
theorem Items.unique {xs ys : List (List UInt8)} {b : List UInt8} (hx : Items xs b)
    (hy : Items ys b) : xs = ys := by
  induction hx generalizing ys with
  | nil => exact (items_nil.mp hy).symm
  | @cons l x rest xs hl hlen h ih =>
    have hne : le32 l ++ x ++ rest ≠ [] := by
      intro hnil
      have := congrArg List.length hnil
      simp only [List.length_nil, List.length_append, length_le32] at this
      omega
    obtain ⟨-, -, -, xs', hxs, hxs'⟩ := (items_of_ne_nil hne).mp (Items.cons hl hlen h)
    obtain ⟨-, -, -, ys', rfl, hys'⟩ := (items_of_ne_nil hne).mp hy
    obtain ⟨hx, rfl⟩ := List.cons.inj hxs
    have hdrop : (le32 l ++ x ++ rest).drop (4 + announced (le32 l ++ x ++ rest)) = rest := by
      rw [announced, List.append_assoc, List.take_left' (length_le32 l), ofLe32_le32,
        ← List.drop_drop, List.drop_left' (length_le32 l), List.drop_left' hlen]
    rw [hdrop] at hys'
    rw [← hx, ih hys']

/-- **What can be read is what is written.** -/
theorem items_iff {xs : List (List UInt8)} {b : List UInt8} :
    Items xs b ↔ (∀ x ∈ xs, x ≠ [] ∧ x.length < 2 ^ 32) ∧ b = xs.flatMap item := by
  constructor
  · intro h
    induction h with
    | nil => exact ⟨by simp, rfl⟩
    | @cons l x rest xs hl hx h ih =>
      obtain ⟨hxs, hrest⟩ := ih
      have hlt : l.toNat < 2 ^ 32 := l.toNat_lt
      refine ⟨?_, ?_⟩
      · intro y hy
        rcases List.mem_cons.mp hy with rfl | hy
        · refine ⟨?_, by omega⟩
          rintro rfl
          rw [List.length_nil] at hx
          omega
        · exact hxs y hy
      · rw [List.flatMap_cons, item, hx, UInt32.ofNat_toNat, ← hrest]
  · rintro ⟨hxs, rfl⟩
    induction xs with
    | nil => exact Items.nil
    | cons x xs ih =>
      obtain ⟨hne, hlt⟩ := hxs x List.mem_cons_self
      have hword : (UInt32.ofNat x.length).toNat = x.length := by
        rw [UInt32.toNat_ofNat', Nat.mod_eq_of_lt hlt]
      have hpos := List.length_pos_iff.mpr hne
      rw [List.flatMap_cons, item]
      exact Items.cons (by omega) hword.symm (ih fun y hy => hxs y (List.mem_cons_of_mem _ hy))

end Wire

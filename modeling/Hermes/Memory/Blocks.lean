import Mathlib.Data.List.Basic

/-!
# Blocks of memory

The memory of a program in a language with explicit allocation: blocks of units, which
are allocated one after another and named by the order in which they were. A freed block
holds nothing and its name is never given again, so a pointer into it stays dangling.

An access that the language leaves undefined – through a dangling pointer, or outside a
block – has no result here, and neither has the comparison of pointers into different
blocks. What the language leaves to the allocator – whether a block that is resized is
moved, and what the units hold that nothing was written to – is a parameter,
`Memory.Allocator`.

`Memory.Mem.Holds m b n xs` says that block `b` is live, has `n` units and starts with
`xs`. A store behind `xs` extends it (`Memory.Mem.Holds.store`), resizing the block keeps
it (`Memory.Mem.Holds.realloc`), and a load inside of it reads it (`Memory.Mem.Holds.load`).
-/

namespace Memory

variable {β : Type*}

/-- A memory: the units of the blocks, in the order of their allocation, and `none` for
those that were freed. -/
structure Mem (β : Type*) where
  /-- The blocks. -/
  blocks : List (Option (List β))

/-- A pointer: a block, and how far the pointer is into it. -/
structure Ptr where
  /-- The block. -/
  block : ℕ
  /-- The units before the pointer. -/
  offset : ℕ
  deriving DecidableEq

/-- The pointer `n` units further. -/
def Ptr.add (p : Ptr) (n : ℕ) : Ptr := { p with offset := p.offset + n }

/-- What an allocator is free to do. -/
structure Allocator (β : Type*) where
  /-- Whether the block at `p` is moved when it is resized to `n` units. -/
  moves : Mem β → Ptr → ℕ → Bool
  /-- What `n` units hold that nothing was written to. -/
  junk : Mem β → ℕ → List β
  length_junk : ∀ m n, (junk m n).length = n

namespace Mem

/-! ### Operations -/

/-- The units of a block that is live. -/
def content (m : Mem β) (b : ℕ) : Option (List β) := m.blocks[b]?.join

/-- The memory in which block `b` holds `c`. -/
def put (m : Mem β) (b : ℕ) (c : List β) : Mem β := ⟨m.blocks.set b (some c)⟩

/-- The `n` units at `p`. -/
def load (m : Mem β) (p : Ptr) (n : ℕ) : Option (List β) := do
  let c ← m.content p.block
  if p.offset + n ≤ c.length then some ((c.drop p.offset).take n) else none

/-- Writes `xs` to the units at `p`. -/
def store (m : Mem β) (p : Ptr) (xs : List β) : Option (Mem β) := do
  let c ← m.content p.block
  if p.offset + xs.length ≤ c.length then
    some (m.put p.block (c.take p.offset ++ xs ++ c.drop (p.offset + xs.length)))
  else none

/-- How `p` and `q` compare. -/
def cmp (m : Mem β) (p q : Ptr) : Option Ordering :=
  if (m.content p.block).isSome ∧ p.block = q.block then some (compare p.offset q.offset)
  else none

/-- A new block of `n` units. -/
def malloc (a : Allocator β) (m : Mem β) (n : ℕ) : Mem β × Ptr :=
  (⟨m.blocks ++ [some (a.junk m n)]⟩, ⟨m.blocks.length, 0⟩)

/-- Resizes the block at `p` to `n` units: the units that fit keep what they hold, in a
block that may be a new one. -/
def realloc (a : Allocator β) (m : Mem β) (p : Ptr) (n : ℕ) : Option (Mem β × Ptr) := do
  let c ← m.content p.block
  let c' := c.take n ++ a.junk m (n - c.length)
  if p.offset ≠ 0 then none
  else if a.moves m p n then
    some (⟨m.blocks.set p.block none ++ [some c']⟩, ⟨m.blocks.length, 0⟩)
  else some (m.put p.block c', p)

/-! ### What a block holds -/

/-- Block `b` is live, has `n` units and starts with `xs`. -/
def Holds (m : Mem β) (b n : ℕ) (xs : List β) : Prop :=
  ∃ c, m.content b = some c ∧ c.length = n ∧ xs <+: c

/-- Block `b` was freed. -/
def Freed (m : Mem β) (b : ℕ) : Prop := m.blocks[b]? = some none

variable {m : Mem β} {b n : ℕ} {xs ys zs : List β}

theorem content_eq_some {c : List β} : m.content b = some c ↔ m.blocks[b]? = some (some c) := by
  rw [content, Option.join_eq_some_iff]

theorem Freed.content (h : Freed m b) : m.content b = none := by
  rw [Mem.content, h]
  rfl

/-- A freed block is not a live one. -/
theorem Freed.ne_of_content {b' : ℕ} {c : List β} (h : Freed m b) (hc : m.content b' = some c) :
    b ≠ b' := by
  rintro rfl
  rw [h.content] at hc
  cases hc

theorem content_put {c c' : List β} (hc : m.content b = some c) :
    (m.put b c').content b = some c' := by
  have hb : b < m.blocks.length := (List.getElem?_eq_some_iff.mp (content_eq_some.mp hc)).1
  exact content_eq_some.mpr (List.getElem?_set_self hb)

theorem Freed.put {b' : ℕ} {c : List β} (h : Freed m b) (hne : b ≠ b') : Freed (m.put b' c) b :=
  (List.getElem?_set_ne hne.symm).trans h

/-! ### The operations on what a block holds -/

/-- A load reads what the block holds. -/
theorem Holds.load (h : Holds m b n (xs ++ ys ++ zs)) :
    m.load ⟨b, xs.length⟩ ys.length = some ys := by
  obtain ⟨c, hc, -, ws, rfl⟩ := h
  have hfit : xs.length + ys.length ≤ (xs ++ ys ++ zs ++ ws).length := by
    simp only [List.length_append]
    omega
  have hunits : ((xs ++ ys ++ zs ++ ws).drop xs.length).take ys.length = ys := by
    rw [List.append_assoc, List.append_assoc, List.drop_left, List.take_left]
  simp only [Mem.load, hc, Option.bind_eq_bind, Option.bind_some, hfit, if_true, hunits]

/-- A store behind what the block holds extends it. -/
theorem Holds.store (h : Holds m b n xs) (ys : List β) (hfit : xs.length + ys.length ≤ n) :
    ∃ m', m.store ⟨b, xs.length⟩ ys = some m' ∧ Holds m' b n (xs ++ ys) ∧
      ∀ b', Freed m b' → Freed m' b' := by
  obtain ⟨c, hc, rfl, ws, rfl⟩ := h
  have htake : (xs ++ ws).take xs.length = xs := List.take_left
  refine ⟨m.put b (xs ++ ys ++ (xs ++ ws).drop (xs.length + ys.length)), ?_, ?_, ?_⟩
  · simp only [Mem.store, hc, Option.bind_eq_bind, Option.bind_some, hfit, if_true, htake]
  · refine ⟨_, content_put hc, ?_, List.prefix_append _ _⟩
    simp only [List.length_append, List.length_drop] at hfit ⊢
    omega
  · intro b' hb'
    exact hb'.put (hb'.ne_of_content hc)

/-- **Resizing keeps what a block holds**, in the block itself or in a new one; in the
second case the block is freed. -/
theorem Holds.realloc (a : Allocator β) (h : Holds m b n xs) {k : ℕ} (hk : n ≤ k) :
    ∃ m' p, m.realloc a ⟨b, 0⟩ k = some (m', p) ∧ p.offset = 0 ∧ Holds m' p.block k xs ∧
      (a.moves m ⟨b, 0⟩ k = false ∧ p.block = b ∨
        a.moves m ⟨b, 0⟩ k = true ∧ p.block ≠ b ∧ Freed m' b) ∧
      ∀ b', Freed m b' → Freed m' b' := by
  obtain ⟨c, hc, rfl, hpre⟩ := h
  have hb : b < m.blocks.length := (List.getElem?_eq_some_iff.mp (content_eq_some.mp hc)).1
  have htake : c.take k = c := List.take_of_length_le hk
  have hlen : (c ++ a.junk m (k - c.length)).length = k := by
    rw [List.length_append, a.length_junk]
    omega
  have hpre' : xs <+: c ++ a.junk m (k - c.length) := hpre.trans (List.prefix_append _ _)
  cases hmoves : a.moves m ⟨b, 0⟩ k with
  -- the block moves: its contents are copied to a new one, and it is freed
  | true =>
    refine ⟨⟨m.blocks.set b none ++ [some (c ++ a.junk m (k - c.length))]⟩,
      ⟨m.blocks.length, 0⟩, ?_, rfl, ⟨_, ?_, hlen, hpre'⟩, .inr ⟨rfl, ?_, ?_⟩, ?_⟩
    · simp [Mem.realloc, hc, hmoves, htake]
    · apply content_eq_some.mpr
      rw [List.getElem?_append_right (by simp)]
      simp
    · exact (Nat.ne_of_lt hb).symm
    · rw [Freed, List.getElem?_append_left (by simpa using hb)]
      exact List.getElem?_set_self hb
    · intro b' hb'
      have hlt : b' < m.blocks.length := (List.getElem?_eq_some_iff.mp hb').1
      rw [Freed, List.getElem?_append_left (by simpa using hlt)]
      rw [List.getElem?_set_ne (hb'.ne_of_content hc).symm]
      exact hb'
  -- the block grows where it is
  | false =>
    refine ⟨m.put b (c ++ a.junk m (k - c.length)), ⟨b, 0⟩, ?_, rfl,
      ⟨_, content_put hc, hlen, hpre'⟩, .inl ⟨rfl, rfl⟩, ?_⟩
    · simp [Mem.realloc, hc, hmoves, htake]
    · intro b' hb'
      exact hb'.put (hb'.ne_of_content hc)

/-- A new block holds nothing yet that is known. -/
theorem holds_malloc (a : Allocator β) (m : Mem β) (n : ℕ) :
    Holds (m.malloc a n).1 (m.malloc a n).2.block n [] := by
  refine ⟨a.junk m n, ?_, a.length_junk m n, List.nil_prefix⟩
  apply content_eq_some.mpr
  simp [malloc]

/-- Pointers into one live block compare by their offsets. -/
theorem Holds.cmp (h : Holds m b n xs) (k l : ℕ) : m.cmp ⟨b, k⟩ ⟨b, l⟩ = some (compare k l) := by
  obtain ⟨c, hc, -, -⟩ := h
  simp [Mem.cmp, hc]

/-- A dangling pointer does not compare. -/
theorem Freed.cmp (h : Freed m b) (k : ℕ) (q : Ptr) : m.cmp ⟨b, k⟩ q = none := by
  simp [Mem.cmp, h.content]

end Mem

end Memory

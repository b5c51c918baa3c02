import Mathlib.Data.Set.Lattice

/-!
# What can be derived from what is known

Messages are built from others by four operations (`Knowledge.Algebra`): the public key of a
private key, a cell sealed under a key, a message wrapped from one key pair to another, and
a mac. Who knows some messages can apply the operations, and can take a message out of a
cell or a wrapping with the right key, and nothing else (`Knowledge.Algebra.Derives`).

To show that some messages stay secret one has to bound what can be derived, although it has
no bound: anything can be sealed again and again. The file does so from the other side. A
message is *harmless* (`Knowledge.Algebra.Harmless`) if it is in a set without secrets that
gives away what is in a cell or in a wrapping only if the keys are not secret. There is a
largest such set, and the operations do not lead out of it, so from harmless messages only
harmless ones are derived (`Knowledge.Algebra.Harmless.of_derives`), and none of them is
secret.

What is secret cannot be used to make anything either: a cell under a secret key that is
derived was made by somebody else. For this the harmless messages are relative to a set of
*genuine* messages as well, and a cell under a secret key is harmless only if it is genuine.
-/

namespace Knowledge

variable {M : Type*}

/-- The operations on messages. -/
structure Algebra (M : Type*) where
  /-- The public key of a private key. -/
  pub : M → M
  /-- A cell: key, context, message. -/
  cell : M → M → M → M
  /-- A wrapping: the private key of the sender, the public key of the receiver, message. -/
  wrap : M → M → M → M
  /-- A mac: key, messages. -/
  mac : M → List M → M

namespace Algebra

variable (C : Algebra M)

/-- No message is built in two ways, as far as it can be taken apart. -/
structure Free : Prop where
  pub_inj : ∀ {a b}, C.pub a = C.pub b → a = b
  cell_inj : ∀ {k c m k' c' m'}, C.cell k c m = C.cell k' c' m' → k = k' ∧ m = m'
  wrap_inj : ∀ {a p m a' p' m'}, C.wrap a p m = C.wrap a' p' m' → a = a' ∧ p = p' ∧ m = m'
  cell_ne_wrap : ∀ k c m a p m', C.cell k c m ≠ C.wrap a p m'
  pub_ne_cell : ∀ a k c m, C.pub a ≠ C.cell k c m
  pub_ne_wrap : ∀ a a' p m, C.pub a ≠ C.wrap a' p m
  mac_ne_cell : ∀ k xs k' c m, C.mac k xs ≠ C.cell k' c m
  mac_ne_wrap : ∀ k xs a p m, C.mac k xs ≠ C.wrap a p m

/-- A message that no operation makes. -/
structure Atom (x : M) : Prop where
  ne_pub : ∀ a, x ≠ C.pub a
  ne_cell : ∀ k c m, x ≠ C.cell k c m
  ne_wrap : ∀ a p m, x ≠ C.wrap a p m
  ne_mac : ∀ k xs, x ≠ C.mac k xs

/-- **What can be derived from the messages of a set.** -/
inductive Derives (K : Set M) : M → Prop
  | known {x} (h : x ∈ K) : Derives K x
  | pub {a} (ha : Derives K a) : Derives K (C.pub a)
  | cell {k c m} (hk : Derives K k) (hc : Derives K c) (hm : Derives K m) :
      Derives K (C.cell k c m)
  /-- A cell is opened with its key. -/
  | openCell {k c m} (h : Derives K (C.cell k c m)) (hk : Derives K k) : Derives K m
  | wrap {a p m} (ha : Derives K a) (hp : Derives K p) (hm : Derives K m) :
      Derives K (C.wrap a p m)
  /-- A wrapping is opened by who has received it. -/
  | unwrap {a b m} (h : Derives K (C.wrap a (C.pub b) m)) (hb : Derives K b) : Derives K m
  /-- A wrapping is opened by who has sent it. -/
  | unwrapOwn {a p m} (h : Derives K (C.wrap a p m)) (ha : Derives K a) : Derives K m
  | mac {k xs} (hk : Derives K k) (hxs : ∀ x ∈ xs, Derives K x) : Derives K (C.mac k xs)

variable {C} {K K' : Set M}

theorem Derives.mono {x : M} (h : C.Derives K x) (hK : K ⊆ K') : C.Derives K' x := by
  induction h with
  | known h => exact .known (hK h)
  | pub _ ih => exact .pub ih
  | cell _ _ _ ihk ihc ihm => exact .cell ihk ihc ihm
  | openCell _ _ ih ihk => exact .openCell ih ihk
  | wrap _ _ _ iha ihp ihm => exact .wrap iha ihp ihm
  | unwrap _ _ ih ihb => exact .unwrap ih ihb
  | unwrapOwn _ _ ih iha => exact .unwrapOwn ih iha
  | mac _ _ ihk ihxs => exact .mac ihk ihxs

/-! ### Harmless messages -/

variable (C) (S G : Set M)

/-- A set without secrets, which gives away the content of a cell, or of a wrapping, unless it
is a secret under secret keys. A cell under a secret key is in it only if it is genuine. -/
structure Discreet (A : Set M) : Prop where
  not_secret : ∀ x ∈ A, x ∉ S
  genuine : ∀ k c m, C.cell k c m ∈ A → k ∈ S → C.cell k c m ∈ G
  cell : ∀ k c m, C.cell k c m ∈ A → m ∈ A ∨ (k ∈ S ∧ m ∈ S)
  wrap : ∀ a p m, C.wrap a p m ∈ A → m ∈ A ∨ (a ∈ S ∧ (∃ b ∈ S, p = C.pub b) ∧ m ∈ S)

/-- **A message that does no harm to the secrets when it is known.** -/
def Harmless (x : M) : Prop := ∃ A, C.Discreet S G A ∧ x ∈ A

variable {C S G} {x : M}

theorem Harmless.not_secret (h : C.Harmless S G x) : x ∉ S := by
  obtain ⟨A, hA, hx⟩ := h
  exact hA.not_secret x hx

theorem Harmless.of_cell {k c m : M} (h : C.Harmless S G (C.cell k c m)) :
    C.Harmless S G m ∨ (k ∈ S ∧ m ∈ S) := by
  obtain ⟨A, hA, hx⟩ := h
  exact (hA.cell k c m hx).imp_left fun hm => ⟨A, hA, hm⟩

theorem Harmless.of_wrap {a p m : M} (h : C.Harmless S G (C.wrap a p m)) :
    C.Harmless S G m ∨ (a ∈ S ∧ (∃ b ∈ S, p = C.pub b) ∧ m ∈ S) := by
  obtain ⟨A, hA, hx⟩ := h
  exact (hA.wrap a p m hx).imp_left fun hm => ⟨A, hA, hm⟩

theorem Harmless.genuine {k c m : M} (h : C.Harmless S G (C.cell k c m)) (hk : k ∈ S) :
    C.cell k c m ∈ G := by
  obtain ⟨A, hA, hx⟩ := h
  exact hA.genuine k c m hx hk

/-- A message is harmless if it can be added to the harmless ones. -/
theorem harmless_of (hx : x ∉ S) (hgenuine : ∀ k c m, C.cell k c m = x → k ∈ S → x ∈ G)
    (hcell : ∀ k c m, C.cell k c m = x → C.Harmless S G m ∨ (k ∈ S ∧ m ∈ S))
    (hwrap : ∀ a p m, C.wrap a p m = x →
      C.Harmless S G m ∨ (a ∈ S ∧ (∃ b ∈ S, p = C.pub b) ∧ m ∈ S)) : C.Harmless S G x := by
  refine ⟨insert x {y | C.Harmless S G y}, ⟨?_, ?_, ?_, ?_⟩, Set.mem_insert _ _⟩
  · rintro y (rfl | hy)
    · exact hx
    · exact hy.not_secret
  · rintro k c m (heq | hy)
    · exact heq ▸ hgenuine k c m heq
    · exact hy.genuine
  · rintro k c m (heq | hy)
    · exact (hcell k c m heq).imp_left Or.inr
    · exact hy.of_cell.imp_left Or.inr
  · rintro a p m (heq | hy)
    · exact (hwrap a p m heq).imp_left Or.inr
    · exact hy.of_wrap.imp_left Or.inr

/-- What is no secret, and is neither a cell nor a wrapping, is harmless. -/
theorem harmless_of_ne (hx : x ∉ S) (hcell : ∀ k c m, x ≠ C.cell k c m)
    (hwrap : ∀ a p m, x ≠ C.wrap a p m) : C.Harmless S G x :=
  harmless_of hx (fun k c m heq => absurd heq.symm (hcell k c m))
    (fun k c m heq => absurd heq.symm (hcell k c m)) fun a p m heq => absurd heq.symm (hwrap a p m)

section Free

variable (hC : C.Free) (hS : ∀ x ∈ S, C.Atom x)
include hC hS

theorem harmless_pub (a : M) : C.Harmless S G (C.pub a) :=
  harmless_of_ne (fun hx => (hS _ hx).ne_pub a rfl) (hC.pub_ne_cell a) (hC.pub_ne_wrap a)

theorem harmless_mac (k : M) (xs : List M) : C.Harmless S G (C.mac k xs) :=
  harmless_of_ne (fun hx => (hS _ hx).ne_mac k xs rfl) (hC.mac_ne_cell k xs) (hC.mac_ne_wrap k xs)

/-- A cell is harmless if its content is, or if it seals a secret under a secret; and if it is
genuine, when the key is secret. -/
theorem harmless_cell {k c m : M} (h : C.Harmless S G m ∨ (k ∈ S ∧ m ∈ S))
    (hgenuine : k ∈ S → C.cell k c m ∈ G) : C.Harmless S G (C.cell k c m) := by
  refine harmless_of (fun hx => (hS _ hx).ne_cell k c m rfl) (fun k' c' m' heq hk => ?_)
    (fun k' c' m' heq => ?_) fun a p m' heq => absurd heq.symm (hC.cell_ne_wrap k c m a p m')
  · obtain ⟨rfl, rfl⟩ := hC.cell_inj heq
    exact hgenuine hk
  · obtain ⟨rfl, rfl⟩ := hC.cell_inj heq
    exact h

/-- A wrapping is harmless if its content is, or if it wraps a secret between key pairs whose
private keys are secret. -/
theorem harmless_wrap {a p m : M}
    (h : C.Harmless S G m ∨ (a ∈ S ∧ (∃ b ∈ S, p = C.pub b) ∧ m ∈ S)) :
    C.Harmless S G (C.wrap a p m) := by
  refine harmless_of (fun hx => (hS _ hx).ne_wrap a p m rfl)
    (fun k c m' heq => absurd heq (hC.cell_ne_wrap k c m' a p m))
    (fun k c m' heq => absurd heq (hC.cell_ne_wrap k c m' a p m)) fun a' p' m' heq => ?_
  obtain ⟨rfl, rfl, rfl⟩ := hC.wrap_inj heq
  exact h

/-- **From harmless messages only harmless ones are derived.** -/
theorem Harmless.of_derives (hK : ∀ y ∈ K, C.Harmless S G y) (h : C.Derives K x) :
    C.Harmless S G x := by
  induction h with
  | known h => exact hK _ h
  | pub _ _ => exact harmless_pub hC hS _
  | cell _ _ _ ihk _ ihm =>
    exact harmless_cell hC hS (Or.inl ihm) fun hk => absurd hk ihk.not_secret
  | openCell _ _ ih ihk =>
    rcases ih.of_cell with hm | ⟨hk, -⟩
    · exact hm
    · exact absurd hk ihk.not_secret
  | wrap _ _ _ _ _ ihm => exact harmless_wrap hC hS (Or.inl ihm)
  | unwrap _ _ ih ihb =>
    rcases ih.of_wrap with hm | ⟨-, ⟨b', hb', heq⟩, -⟩
    · exact hm
    · exact absurd (hC.pub_inj heq ▸ hb') ihb.not_secret
  | unwrapOwn _ _ ih iha =>
    rcases ih.of_wrap with hm | ⟨ha, -, -⟩
    · exact hm
    · exact absurd ha iha.not_secret
  | mac _ _ _ _ => exact harmless_mac hC hS _ _

end Free

end Algebra

end Knowledge

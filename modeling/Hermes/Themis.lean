import Hermes.Common

/-!
# The cryptography under Hermes

Hermes has no cryptography of its own: it calls Themis and Soter, which are not part of
the repository. They appear here as a parameter, `Hermes.Themis`, with the laws of
*ideal* cryptography as fields:

* **secure cell** (`themis_secure_cell_encrypt_seal`, `…_decrypt_seal`): what unseals
  under a key and a context is what was sealed under them, and a cell determines its
  key, its context and its content;
* **secure message** (`themis_secure_message_wrap`, `…_unwrap`): what unwraps for a
  private key and a sender's public key was wrapped by that sender for that receiver, and
  its length is told before;
* **HMAC** (`soter_hmac_*`): injective in the key and in the *stream* of bytes it is fed.

`Hermes.idealThemis` is an instance in which every law holds by computation.
-/

namespace Hermes

/-- The operations Hermes takes from Themis and Soter, ideal. -/
structure Themis where
  /-- The public key of a private key. -/
  pub : Bytes → Bytes
  /-- `themis_secure_cell_encrypt_seal`: key, context, message. -/
  encryptSeal : Bytes → Bytes → Bytes → Bytes
  /-- `themis_secure_cell_decrypt_seal`: key, context, cell. -/
  decryptSeal : Bytes → Bytes → Bytes → Option Bytes
  /-- `themis_secure_message_wrap`: the sender's private key, the receiver's public key,
  the message. -/
  wrap : Bytes → Bytes → Bytes → Bytes
  /-- `themis_secure_message_unwrap`: the receiver's private key, the sender's public key,
  the wrapped message. -/
  unwrap : Bytes → Bytes → Bytes → Option Bytes
  /-- `themis_secure_message_unwrap` without a place for the message: its length, which may
  also be told of what does not unwrap. -/
  unwrapSize : Bytes → Bytes → Bytes → Option ℕ
  /-- `soter_hmac_create`, one `soter_hmac_update` for each chunk, `soter_hmac_final`. -/
  hmac : Bytes → List Bytes → Bytes
  pub_inj : ∀ {a b}, pub a = pub b → a = b
  pub_ne_nil : ∀ a, pub a ≠ []
  decryptSeal_encryptSeal : ∀ k c m, decryptSeal k c (encryptSeal k c m) = some m
  encryptSeal_of_decryptSeal : ∀ {k c x m}, decryptSeal k c x = some m → x = encryptSeal k c m
  encryptSeal_inj : ∀ {k c m k' c' m'},
    encryptSeal k c m = encryptSeal k' c' m' → k = k' ∧ c = c' ∧ m = m'
  encryptSeal_ne_nil : ∀ k c m, encryptSeal k c m ≠ []
  unwrap_wrap : ∀ a b m, unwrap b (pub a) (wrap a (pub b) m) = some m
  wrap_of_unwrap : ∀ {b p x m}, unwrap b p x = some m → ∃ a, p = pub a ∧ x = wrap a (pub b) m
  wrap_inj : ∀ {a p m a' p' m'}, wrap a p m = wrap a' p' m' → a = a' ∧ p = p' ∧ m = m'
  wrap_ne_nil : ∀ a p m, wrap a p m ≠ []
  unwrapSize_of_unwrap : ∀ {b p x m}, unwrap b p x = some m → unwrapSize b p x = some m.length
  hmac_inj : ∀ {k xs k' ys}, hmac k xs = hmac k' ys → k = k' ∧ xs.flatten = ys.flatten
  hmac_ne_nil : ∀ k xs, hmac k xs ≠ []

namespace Themis

variable (T : Themis)

/-- A cell opens under its own key and context only. -/
theorem decryptSeal_eq_some {k c x m : Bytes} :
    T.decryptSeal k c x = some m ↔ x = T.encryptSeal k c m := by
  refine ⟨T.encryptSeal_of_decryptSeal, ?_⟩
  rintro rfl
  exact T.decryptSeal_encryptSeal k c m

/-- Unsealing a cell is a comparison of keys and contexts. -/
theorem decryptSeal_encryptSeal_eq_some {k c k' c' m m' : Bytes} :
    T.decryptSeal k' c' (T.encryptSeal k c m) = some m' ↔ k' = k ∧ c' = c ∧ m' = m := by
  rw [decryptSeal_eq_some]
  constructor
  · intro h
    obtain ⟨rfl, rfl, rfl⟩ := T.encryptSeal_inj h
    exact ⟨rfl, rfl, rfl⟩
  · rintro ⟨rfl, rfl, rfl⟩
    rfl

/-- Whatever a wrapped message unwraps to is what was wrapped. -/
theorem unwrap_wrap_eq {a b p q m m' : Bytes} (h : T.unwrap b q (T.wrap a p m) = some m') :
    m' = m := by
  obtain ⟨a', rfl, hx⟩ := T.wrap_of_unwrap h
  exact (T.wrap_inj hx).2.2.symm

end Themis

/-! ### An instance -/

/-- A byte string as the prefix of a message: every byte is announced by a `1`, and a
`0` ends it. -/
def frame : Bytes → Bytes
  | [] => [0]
  | b :: bs => 1 :: b :: frame bs

/-- Reading a frame off the head of a byte string. -/
def unframe : Bytes → Option (Bytes × Bytes)
  | 0 :: rest => some ([], rest)
  | 1 :: b :: rest => (unframe rest).map fun p => (b :: p.1, p.2)
  | _ => none

theorem unframe_frame_append (bs rest : Bytes) : unframe (frame bs ++ rest) = some (bs, rest) := by
  induction bs with
  | nil => rfl
  | cons b bs ih => simp [frame, unframe, ih]

theorem eq_frame_append_of_unframe {x bs rest : Bytes} (h : unframe x = some (bs, rest)) :
    x = frame bs ++ rest := by
  induction x using unframe.induct generalizing bs rest with
  | case1 rest' =>
    obtain ⟨rfl, rfl⟩ : [] = bs ∧ rest' = rest := by simpa [unframe] using h
    rfl
  | case2 b rest' ih =>
    simp only [unframe, Option.map_eq_some_iff] at h
    obtain ⟨⟨bs', rest''⟩, h', heq⟩ := h
    obtain ⟨rfl, rfl⟩ : b :: bs' = bs ∧ rest'' = rest := by simpa using heq
    simp [frame, ih h']
  | case3 x h0 h1 => simp [unframe] at h

theorem frame_append_inj {a b x y : Bytes} (h : frame a ++ x = frame b ++ y) : a = b ∧ x = y := by
  have h' := congrArg unframe h
  simpa [unframe_frame_append] using h'

/-- Frames one after the other determine what was framed. -/
theorem flatten_map_frame_inj {xs ys : List Bytes}
    (h : (xs.map frame).flatten = (ys.map frame).flatten) : xs = ys := by
  induction xs generalizing ys with
  | nil =>
    cases ys with
    | nil => rfl
    | cons y ys => cases y <;> simp [frame] at h
  | cons x xs ih =>
    cases ys with
    | nil => cases x <;> simp [frame] at h
    | cons y ys =>
      obtain ⟨rfl, hrest⟩ := frame_append_inj (by simpa using h)
      rw [ih hrest]

/-- Two frames and a message after them, all read back. -/
def open2 (x : Bytes) : Option (Bytes × Bytes × Bytes) :=
  (unframe x).bind fun p => (unframe p.2).map fun q => (p.1, q.1, q.2)

theorem open2_eq_some {x a b m : Bytes} :
    open2 x = some (a, b, m) ↔ x = frame a ++ (frame b ++ m) := by
  constructor
  · intro h
    simp only [open2, Option.bind_eq_some_iff, Option.map_eq_some_iff] at h
    obtain ⟨⟨a', y⟩, hy, ⟨b', m'⟩, hm, heq⟩ := h
    obtain ⟨rfl, rfl, rfl⟩ : a' = a ∧ b' = b ∧ m' = m := by simpa using heq
    rw [eq_frame_append_of_unframe hy, eq_frame_append_of_unframe (x := y) hm]
  · rintro rfl
    simp [open2, unframe_frame_append]

/-- Cryptography in which a cell carries its key in the open, a wrapped message its two
keys, and a mac its key and its chunks: of no use to anyone, and ideal. -/
def idealThemis : Themis where
  pub a := 0 :: a
  encryptSeal k c m := frame k ++ (frame c ++ m)
  decryptSeal k c x := (open2 x).bind fun p => if p.1 = k ∧ p.2.1 = c then some p.2.2 else none
  wrap a p m := frame a ++ (frame p ++ m)
  unwrap b p x := (open2 x).bind fun q => if p = 0 :: q.1 ∧ q.2.1 = 0 :: b then some q.2.2 else none
  unwrapSize _ _ x := (open2 x).map fun q => q.2.2.length
  hmac k xs := frame k ++ (xs.map frame).flatten
  pub_inj h := by simpa using h
  pub_ne_nil a := by simp
  decryptSeal_encryptSeal k c m := by
    simp [open2_eq_some.mpr (rfl : frame k ++ (frame c ++ m) = _)]
  encryptSeal_of_decryptSeal {k c x m} h := by
    simp only [Option.bind_eq_some_iff, Option.ite_none_right_eq_some] at h
    obtain ⟨⟨k', c', m'⟩, ho, ⟨rfl, rfl⟩, hm⟩ := h
    rw [open2_eq_some.mp ho, ← Option.some.inj hm]
  encryptSeal_inj h := by
    obtain ⟨h1, h⟩ := frame_append_inj h
    exact ⟨h1, frame_append_inj h⟩
  encryptSeal_ne_nil k c m := by cases k <;> simp [frame]
  unwrap_wrap a b m := by
    simp [open2_eq_some.mpr (rfl : frame a ++ (frame (0 :: b) ++ m) = _)]
  wrap_of_unwrap {b p x m} h := by
    simp only [Option.bind_eq_some_iff, Option.ite_none_right_eq_some] at h
    obtain ⟨⟨a, q, m'⟩, ho, ⟨rfl, rfl⟩, hm⟩ := h
    exact ⟨a, rfl, by rw [open2_eq_some.mp ho, ← Option.some.inj hm]⟩
  wrap_inj h := by
    obtain ⟨h1, h⟩ := frame_append_inj h
    exact ⟨h1, frame_append_inj h⟩
  wrap_ne_nil a p m := by cases a <;> simp [frame]
  unwrapSize_of_unwrap {b p x m} h := by
    simp only [Option.bind_eq_some_iff, Option.ite_none_right_eq_some] at h
    obtain ⟨⟨a, q, m'⟩, ho, -, hm⟩ := h
    rw [ho, Option.map_some, ← Option.some.inj hm]
  hmac_inj h := by
    obtain ⟨h1, h⟩ := frame_append_inj h
    exact ⟨h1, by rw [flatten_map_frame_inj h]⟩
  hmac_ne_nil k xs := by cases k <;> simp [frame]

end Hermes

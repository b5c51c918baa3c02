import Hermes.MemCmp
import Hermes.MidHermesLl.Token

/-!
# The buffers of `mid_hermes_ll`

`mid_hermes_ll_buffer.c`, and the comparison of users that rests on it. A buffer that was
reset to a shorter content keeps its storage, so what a buffer stands for is not all that
its storage holds but the first `length` bytes of it, `MidHermesLlBuffer.content`. The
other modules speak of buffers by their contents; here it is shown that the comparison of
the source does so too (`Hermes.midHermesLlBufferIsEqual_eq`), and that comparing users
(`Hermes.midHermesLlUserIsEqual`) is what the source does to their objects.

A pointer that may be `NULL` is an `Option`, and a failed assertion leaves no result.
-/

namespace Hermes

/-! ### Buffers -/

/-- `mid_hermes_ll_buffer_t` -/
structure MidHermesLlBuffer where
  /-- `data`, the storage. -/
  data : Option Bytes
  /-- `length` -/
  length : ℕ
  length_le : length ≤ (data.getD []).length

/-- What a buffer stands for. -/
def MidHermesLlBuffer.content (buffer : MidHermesLlBuffer) : Bytes :=
  (buffer.data.getD []).take buffer.length

@[simp] theorem MidHermesLlBuffer.length_content (buffer : MidHermesLlBuffer) :
    buffer.content.length = buffer.length :=
  List.length_take_of_le buffer.length_le

/-- `mid_hermes_ll_buffer_create` of some data, `NULL` for an empty buffer. -/
def midHermesLlBufferCreate (data : Option Bytes) : MidHermesLlBuffer :=
  ⟨data, (data.getD []).length, le_rfl⟩

/-- `mid_hermes_ll_buffer_reset`: the storage is made larger where the data do not fit the
buffer's length, and keeps what the data do not overwrite where they do. -/
def midHermesLlBufferReset (buffer : MidHermesLlBuffer) (data : Option Bytes) :
    MidHermesLlBuffer :=
  match buffer.data, data with
  | some storage, some data =>
    if buffer.length < data.length then ⟨some data, data.length, le_rfl⟩
    else ⟨some (data ++ storage.drop data.length), data.length, by simp⟩
  | some _, none => ⟨none, 0, Nat.zero_le _⟩
  | none, some data => ⟨some data, data.length, le_rfl⟩
  | none, none => ⟨none, 0, Nat.zero_le _⟩

/-- `mid_hermes_ll_buffer_is_equal` -/
def midHermesLlBufferIsEqual (buffer1 buffer2 : Option MidHermesLlBuffer) : Option Bool := do
  let buffer1 ← buffer1
  let buffer2 ← buffer2
  if buffer2.length ≠ buffer1.length then return false
  else
    let res ← cstTimeMemcmp (buffer1.data.getD []) (buffer2.data.getD []) buffer1.length
    return res = 0

@[simp] theorem content_midHermesLlBufferCreate (data : Option Bytes) :
    (midHermesLlBufferCreate data).content = data.getD [] :=
  List.take_length

/-- A buffer that was reset stands for the new data, whatever its storage held. -/
@[simp] theorem content_midHermesLlBufferReset (buffer : MidHermesLlBuffer)
    (data : Option Bytes) : (midHermesLlBufferReset buffer data).content = data.getD [] := by
  unfold midHermesLlBufferReset
  split
  · split
    · exact List.take_length
    · exact List.take_left
  · rfl
  · exact List.take_length
  · rfl

/-- **Buffers are compared by their contents.** -/
theorem midHermesLlBufferIsEqual_eq (buffer1 buffer2 : MidHermesLlBuffer) :
    midHermesLlBufferIsEqual (some buffer1) (some buffer2) =
      some (decide (buffer1.content = buffer2.content)) := by
  by_cases hlen : buffer2.length = buffer1.length
  · have hlen2 : buffer1.length ≤ (buffer2.data.getD []).length := hlen ▸ buffer2.length_le
    obtain ⟨res, hcmp, hres⟩ := cstTimeMemcmp_eq buffer1.length_le hlen2
    have hzero : res = 0 ↔ buffer1.content = buffer2.content := by
      have hlen' : ((buffer1.data.getD []).take buffer1.length).length =
          ((buffer2.data.getD []).take buffer1.length).length := by
        rw [List.length_take_of_le buffer1.length_le, List.length_take_of_le hlen2]
      rw [← Int32.toInt_inj, hres, Int32.toInt_zero, Int.sign_eq_zero_iff_zero,
        firstDiff_eq_zero_iff hlen', MidHermesLlBuffer.content, MidHermesLlBuffer.content, hlen]
    simp only [midHermesLlBufferIsEqual, Option.bind_eq_bind, Option.bind_some, hlen, ne_eq,
      not_true_eq_false, if_false, hcmp, hzero, Option.pure_def]
  · have hne : buffer1.content ≠ buffer2.content := by
      intro h
      have hcontent := congrArg List.length h
      rw [MidHermesLlBuffer.length_content, MidHermesLlBuffer.length_content] at hcontent
      exact hlen hcontent.symm
    simp [midHermesLlBufferIsEqual, hlen, hne]

/-! ### Users -/

/-- `mid_hermes_ll_user_t` as it lies in memory, with the part of it that is compared. -/
structure UserObject where
  /-- `id` -/
  id : Option MidHermesLlBuffer

/-- An object that a user is read from. -/
def UserObject.IsOf (object : UserObject) (user : User) : Prop :=
  ∃ buffer, object.id = some buffer ∧ buffer.content = user.id

/-- `mid_hermes_ll_user_is_equal` -/
def UserObject.midHermesLlUserIsEqual (user1 user2 : Option UserObject) : Option Bool := do
  let user1 ← user1
  let user2 ← user2
  midHermesLlBufferIsEqual user1.id user2.id

/-- Users are compared by the contents of their ids. -/
theorem UserObject.midHermesLlUserIsEqual_eq {object1 object2 : UserObject}
    {buffer1 buffer2 : MidHermesLlBuffer} (h1 : object1.id = some buffer1)
    (h2 : object2.id = some buffer2) :
    UserObject.midHermesLlUserIsEqual (some object1) (some object2) =
      some (decide (buffer1.content = buffer2.content)) := by
  rw [← midHermesLlBufferIsEqual_eq, ← h1, ← h2]
  rfl

/-- Comparing the objects of two users compares the users. -/
theorem UserObject.IsOf.isEqual {object1 object2 : UserObject} {user1 user2 : User}
    (h1 : object1.IsOf user1) (h2 : object2.IsOf user2) :
    UserObject.midHermesLlUserIsEqual (some object1) (some object2) =
      some (Hermes.midHermesLlUserIsEqual user1 user2) := by
  obtain ⟨buffer1, hid1, hcontent1⟩ := h1
  obtain ⟨buffer2, hid2, hcontent2⟩ := h2
  rw [UserObject.midHermesLlUserIsEqual_eq hid1 hid2, hcontent1, hcontent2]
  rfl

/-! ### What the comparison decides -/

/-- Buffers of one content have one length. -/
theorem MidHermesLlBuffer.content_eq_iff (buffer1 buffer2 : MidHermesLlBuffer) :
    buffer1.content = buffer2.content ↔
      buffer1.length = buffer2.length ∧ buffer1.content = buffer2.content := by
  constructor
  · intro h
    have hlen := congrArg List.length h
    rw [length_content, length_content] at hlen
    exact ⟨hlen, h⟩
  · exact fun h => h.2

/-- **The constant-time comparison is the lexicographic one**: it returns the sign of the
difference at the first place where the arrays differ, and `0` where they agree on all `n`
bytes. So buffers are equal when their lengths and contents are, and users when their ids
are. -/
theorem cstTimeMemcmp_lexicographic :
    (∀ (a b : Bytes) (n : ℕ), n ≤ a.length → n ≤ b.length →
      ∃ r, cstTimeMemcmp a b n = some r ∧ (r = -1 ∨ r = 0 ∨ r = 1) ∧
        (∀ i < n, ∀ x y, a[i]? = some x → b[i]? = some y → x ≠ y →
          (∀ j < i, a[j]? = b[j]?) → r.toInt = Int.sign ((x.toNat : ℤ) - y.toNat)) ∧
        ((∀ i < n, a[i]? = b[i]?) → r = 0) ∧ (r = -1 ↔ a.take n < b.take n)) ∧
    (∀ buffer1 buffer2 : MidHermesLlBuffer,
      ∃ e, midHermesLlBufferIsEqual (some buffer1) (some buffer2) = some e ∧
        (e = true ↔ buffer1.length = buffer2.length ∧ buffer1.content = buffer2.content)) ∧
    ∀ (object1 object2 : UserObject) (id1 id2 : MidHermesLlBuffer),
      object1.id = some id1 → object2.id = some id2 →
      ∃ e, UserObject.midHermesLlUserIsEqual (some object1) (some object2) = some e ∧
        (e = true ↔ id1.length = id2.length ∧ id1.content = id2.content) := by
  refine ⟨?_, ?_, ?_⟩
  · intro a b n ha hb
    obtain ⟨r, hcmp, hr⟩ := cstTimeMemcmp_eq ha hb
    refine ⟨r, hcmp, memcmpSign_cases hr, ?_, memcmpSign_eq_zero hr,
      memcmpSign_eq_neg_one_iff ha hb hr⟩
    intro i hi x y hx hy hne hbefore
    exact memcmpSign_of_first hr hi hx hy hne hbefore
  · intro buffer1 buffer2
    refine ⟨_, midHermesLlBufferIsEqual_eq buffer1 buffer2, ?_⟩
    rw [decide_eq_true_iff]
    exact MidHermesLlBuffer.content_eq_iff buffer1 buffer2
  · intro object1 object2 id1 id2 h1 h2
    refine ⟨_, UserObject.midHermesLlUserIsEqual_eq h1 h2, ?_⟩
    rw [decide_eq_true_iff]
    exact MidHermesLlBuffer.content_eq_iff id1 id2

/-- Two arrays whose second bytes are the first to differ, and two users of one id, the
buffer of the second having held more before. -/
theorem cstTimeMemcmp_second_byte :
    cstTimeMemcmp [0xAB, 0xAC, 0x12] [0xAB, 0xAA, 0x22] 3 = some 1 ∧
      UserObject.midHermesLlUserIsEqual (some ⟨some (midHermesLlBufferCreate (some [1, 2]))⟩)
        (some ⟨some (midHermesLlBufferReset (midHermesLlBufferCreate (some [7, 7, 7]))
          (some [1, 2]))⟩) = some true := by
  obtain ⟨r, hcmp, -, hfirst, -⟩ :=
    cstTimeMemcmp_lexicographic.1 [0xAB, 0xAC, 0x12] [0xAB, 0xAA, 0x22] 3 (by decide) (by decide)
  have hsign : r.toInt = 1 := hfirst 1 (by decide) 0xAC 0xAA rfl rfl (by decide) (by decide)
  have hr : r = 1 := Int32.toInt_inj.mp hsign
  obtain ⟨e, hequal, he⟩ := cstTimeMemcmp_lexicographic.2.2
    ⟨some (midHermesLlBufferCreate (some [1, 2]))⟩
    ⟨some (midHermesLlBufferReset (midHermesLlBufferCreate (some [7, 7, 7])) (some [1, 2]))⟩
    _ _ rfl rfl
  have htrue : e = true := he.mpr ⟨rfl, by simp⟩
  exact ⟨hr ▸ hcmp, htrue ▸ hequal⟩

end Hermes

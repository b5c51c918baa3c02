import Hermes.Rpc.ParamPack
import Hermes.Wire.Items

/-!
# Buffers lists

The list of buffers of `rpc/buffers_list.c`, with its encoder and its parser.

* `hm_buffers_list_extract` accepts exactly the sequences of items, each announced by its
  length (`Hermes.extract_exact`): it ends, reads inside of its input only, and gives the
  items back.
* `hm_buffers_list_to_buf` has two loops over the nodes, and neither moves its `current` on.
  A list with a node is never encoded (`Hermes.toBuf_nonempty`), and the empty one is encoded
  as nothing, which the parser refuses (`Hermes.not_encodesBack`).

A node pointer is the list of the nodes from there on, so that `NULL` is the empty one.
-/

namespace Hermes

open Interleave Wire

/-- `hm_buffers_list_node_t`: none is made for an empty buffer. -/
abbrev HmBuffersListNode := {data : Bytes // data ≠ []}

/-- `hm_buffers_list_t`, the nodes from `first` on. -/
abbrev HmBuffersList := List HmBuffersListNode

/-! ### Making a list -/

/-- `hm_buffers_list_create` -/
def hmBuffersListCreate : HmBuffersList := []

/-- `hm_buffers_list_get_last`: nothing for an empty list, else the nodes behind which there
is no `next`. -/
def hmBuffersListGetLast : HmBuffersList → Option HmBuffersListNode
  | [] => none
  | [last] => some last
  | _ :: next :: nodes => hmBuffersListGetLast (next :: nodes)

/-- `last->next = new` for the last node of a list. -/
def hmBuffersListLink (new : HmBuffersListNode) : HmBuffersList → HmBuffersList
  | [] => []
  | [last] => [last, new]
  | node :: next :: nodes => node :: hmBuffersListLink new (next :: nodes)

/-- The body shared by `hm_buffers_list_add`, which keeps the caller's buffer, and
`hm_buffers_list_add_c`, which keeps a copy of it. -/
def hmBuffersListAddNode (buffersList : Option HmBuffersList) (data : Bytes) :
    Reply HmBuffersList :=
  match buffersList with
  | none => .error .invalidParameter
  | some buffersList =>
    if h : data = [] then .error .invalidParameter
    else
      match hmBuffersListGetLast buffersList with
      | none => .ok [⟨data, h⟩]
      | some _ => .ok (hmBuffersListLink ⟨data, h⟩ buffersList)

/-- `hm_buffers_list_add` -/
def hmBuffersListAdd : Option HmBuffersList → Bytes → Reply HmBuffersList := hmBuffersListAddNode

/-- `hm_buffers_list_add_c` -/
def hmBuffersListAddC : Option HmBuffersList → Bytes → Reply HmBuffersList := hmBuffersListAddNode

/-! ### The parser -/

/-- `length` bytes from an offset on: no result when they are not all in the buffer. -/
def loadBytes (buffer : Bytes) (off length : ℕ) : Option Bytes :=
  if off + length ≤ buffer.length then some ((buffer.drop off).take length) else none

/-- The loop of `hm_buffers_list_extract`, from the position `pos` on. It ends when the
position *is* the end; a read outside of the input ends the process. -/
def hmBuffersListExtractLoop (data : Bytes) :
    ℕ → ℕ → HmBuffersList → Except Stop (Option HmBuffersList)
  | 0, _, _ => .error .outOfFuel
  | fuel + 1, pos, buffersList =>
    if pos = data.length then .ok (some buffersList)
    else if data.length < pos + 4 then .ok none
    else
      match load32 data pos with
      | none => .error .assertion
      | some len =>
        if data.length < pos + 4 + len.toNat then .ok none
        else
          match loadBytes data (pos + 4) len.toNat with
          | none => .error .assertion
          | some bytes =>
            match hmBuffersListAddC (some buffersList) bytes with
            | .error _ => .ok none
            | .ok buffersList =>
              hmBuffersListExtractLoop data fuel (pos + (4 + len.toNat)) buffersList

/-- `hm_buffers_list_extract`: `NULL` for an empty input. -/
def hmBuffersListExtract (fuel : ℕ) (data : Bytes) : Except Stop (Option HmBuffersList) :=
  if data = [] then .ok none else hmBuffersListExtractLoop data fuel 0 hmBuffersListCreate

/-! ### The encoder -/

/-- The loop of `hm_buffres_list_get_needed_buffer_size`. -/
def hmBuffresListSizeLoop : ℕ → HmBuffersList → UInt64 → Except Stop UInt64
  | 0, _, _ => .error .outOfFuel
  | _ + 1, [], result => .ok result
  | fuel + 1, node :: nodes, result =>
    -- the loop is entered again with the same `current`: nothing sets it to `current->next`
    hmBuffresListSizeLoop fuel (node :: nodes) (result + 4 + UInt64.ofNat node.1.length)

/-- `hm_buffres_list_get_needed_buffer_size` -/
def hmBuffresListGetNeededBufferSize (fuel : ℕ) : Option HmBuffersList → Except Stop UInt64
  | none => .ok 0
  | some [] => .ok 0
  | some (node :: nodes) => hmBuffresListSizeLoop fuel (node :: nodes) 0

/-- The second loop of `hm_buffers_list_to_buf`, with the buffer and the current position in
it. It does not move `current` on either. -/
def hmBuffersListCopyLoop : ℕ → HmBuffersList → Bytes → ℕ → Except Stop Bytes
  | 0, _, _, _ => .error .outOfFuel
  | _ + 1, [], data, _ => .ok data
  | fuel + 1, node :: nodes, data, pos =>
    match memcpy data pos (le32 (UInt32.ofNat node.1.length)) with
    | none => .error .assertion
    | some data =>
      match memcpy data (pos + 4) node.1 with
      | none => .error .assertion
      | some data => hmBuffersListCopyLoop fuel (node :: nodes) data (pos + (4 + node.1.length))

/-- `hm_buffers_list_to_buf`: what it returns, and the buffer it leaves behind `data` (none
when it returns `0`). -/
def hmBuffersListToBuf (fuel : ℕ) (buffersList : Option HmBuffersList) :
    Except Stop (UInt64 × Option Bytes) :=
  match hmBuffresListGetNeededBufferSize fuel buffersList with
  | .error w => .error w
  | .ok result =>
    if result = 0 then .ok (0, none)
    else
      match hmBuffersListCopyLoop fuel (buffersList.getD []) (List.replicate result.toNat 0) 0 with
      | .error w => .error w
      | .ok data => .ok (result, some data)

/-! ### What adding a buffer does -/

/-- The buffers of a list. -/
def HmBuffersList.buffers (list : HmBuffersList) : List Bytes := list.map Subtype.val

theorem getLast_eq_none {list : HmBuffersList} : hmBuffersListGetLast list = none ↔ list = [] := by
  induction list with
  | nil => simp [hmBuffersListGetLast]
  | cons node list ih =>
    cases list with
    | nil => simp [hmBuffersListGetLast]
    | cons next nodes => simpa [hmBuffersListGetLast] using ih

theorem link_eq_append (new : HmBuffersListNode) {list : HmBuffersList} (h : list ≠ []) :
    hmBuffersListLink new list = list ++ [new] := by
  induction list with
  | nil => exact absurd rfl h
  | cons node list ih =>
    cases list with
    | nil => rfl
    | cons next nodes =>
      rw [hmBuffersListLink, ih (List.cons_ne_nil _ _), List.cons_append, List.cons_append,
        List.cons_append]

/-- A buffer is added behind the others. -/
theorem addNode_ok (list : HmBuffersList) {data : Bytes} (h : data ≠ []) :
    hmBuffersListAddNode (some list) data = .ok (list ++ [⟨data, h⟩]) := by
  rw [hmBuffersListAddNode, dif_neg h]
  cases hlast : hmBuffersListGetLast list with
  | none =>
    obtain rfl := getLast_eq_none.mp hlast
    rfl
  | some last =>
    have hne : list ≠ [] := by
      rintro rfl
      cases hlast
    rw [← link_eq_append ⟨data, h⟩ hne]

/-- The lists that calls of `hm_buffers_list_add` and `hm_buffers_list_add_c` make. -/
inductive HmBuffersList.Built : HmBuffersList → Prop
  | create : Built hmBuffersListCreate
  | add {list list' : HmBuffersList} {data : Bytes} (h : Built list)
      (hadd : hmBuffersListAdd (some list) data = .ok list') : Built list'
  | addC {list list' : HmBuffersList} {data : Bytes} (h : Built list)
      (hadd : hmBuffersListAddC (some list) data = .ok list') : Built list'

/-- Every list is made by such calls. -/
theorem HmBuffersList.built (list : HmBuffersList) : list.Built := by
  induction list using List.reverseRecOn with
  | nil => exact Built.create
  | append_singleton list node ih => exact Built.add ih (addNode_ok list node.2)

/-! ### The parser and its grammar -/

variable {data : Bytes} {pos : ℕ}

theorem load32_drop (h : pos + 4 ≤ data.length) :
    ∃ len, load32 data pos = some len ∧ len.toNat = announced (data.drop pos) :=
  ⟨_, if_pos h, rfl⟩

/-- What the next item has to satisfy to be taken. -/
def ItemAt (data : Bytes) (pos : ℕ) : Prop :=
  pos + 4 ≤ data.length ∧ 1 ≤ announced (data.drop pos) ∧
    pos + (4 + announced (data.drop pos)) ≤ data.length

/-- The bytes of the next item. -/
def itemAt (data : Bytes) (pos : ℕ) : Bytes :=
  ((data.drop pos).drop 4).take (announced (data.drop pos))

theorem itemAt_ne_nil (h : ItemAt data pos) : itemAt data pos ≠ [] := by
  obtain ⟨-, hl, hend⟩ := h
  apply List.ne_nil_of_length_pos
  rw [itemAt, List.length_take, List.length_drop, List.length_drop]
  omega

/-- The loop takes an item that is there. -/
theorem extractLoop_item (h : ItemAt data pos) (fuel : ℕ) (list : HmBuffersList) :
    hmBuffersListExtractLoop data (fuel + 1) pos list =
      hmBuffersListExtractLoop data fuel (pos + (4 + announced (data.drop pos)))
        (list ++ [⟨itemAt data pos, itemAt_ne_nil h⟩]) := by
  obtain ⟨h4, hl, hend⟩ := id h
  obtain ⟨len, hload, hlen⟩ := load32_drop h4
  have hbytes : loadBytes data (pos + 4) len.toNat = some (itemAt data pos) := by
    rw [loadBytes, if_pos (by omega), hlen, itemAt, List.drop_drop]
  rw [hmBuffersListExtractLoop, if_neg (by omega), if_neg (by omega), hload]
  dsimp only
  rw [if_neg (by omega), hbytes, hmBuffersListAddC]
  dsimp only
  rw [addNode_ok list (itemAt_ne_nil h), hlen]

/-- Without one, it refuses the input, unless it is at the end. -/
theorem extractLoop_refuse (hpos : pos ≠ data.length) (h : ¬ItemAt data pos) (fuel : ℕ)
    (list : HmBuffersList) : hmBuffersListExtractLoop data (fuel + 1) pos list = .ok none := by
  rw [hmBuffersListExtractLoop, if_neg hpos]
  split_ifs with h4
  · rfl
  · obtain ⟨len, hload, hlen⟩ := load32_drop (Nat.le_of_not_lt h4)
    rw [hload]
    dsimp only
    split_ifs with hend
    · rfl
    · have hzero : len.toNat = 0 := by
        by_contra hne
        exact h ⟨by omega, by omega, by omega⟩
      have hbytes : loadBytes data (pos + 4) len.toNat = some [] := by
        rw [loadBytes, if_pos (by omega), hzero, List.take_zero]
      rw [hbytes]
      rfl

/-- What the loop is to give, from a position on with some nodes already made: these and the
items that are there. -/
def Extracts (data : Bytes) (pos : ℕ) (list : HmBuffersList) (r : Option HmBuffersList) : Prop :=
  ∀ list', r = some list' ↔
    ∃ new : HmBuffersList, list' = list ++ new ∧ Items new.buffers (data.drop pos)

theorem extracts_end (list : HmBuffersList) : Extracts data data.length list (some list) := by
  intro list'
  rw [List.drop_length]
  simp only [items_nil, HmBuffersList.buffers, List.map_eq_nil_iff, Option.some.injEq]
  constructor
  · rintro rfl
    exact ⟨[], (List.append_nil _).symm, rfl⟩
  · rintro ⟨new, rfl, rfl⟩
    exact (List.append_nil _).symm

theorem drop_ne_nil_of_lt (hpos : pos < data.length) : data.drop pos ≠ [] := by
  apply List.ne_nil_of_length_pos
  rw [List.length_drop]
  omega

theorem extracts_item (h : ItemAt data pos) {list : HmBuffersList} {r : Option HmBuffersList}
    (hr : Extracts data (pos + (4 + announced (data.drop pos)))
      (list ++ [⟨itemAt data pos, itemAt_ne_nil h⟩]) r) : Extracts data pos list r := by
  obtain ⟨h4, hl, hend⟩ := id h
  have hne : data.drop pos ≠ [] := drop_ne_nil_of_lt (by omega)
  intro list'
  rw [hr]
  constructor
  · rintro ⟨new, rfl, hnew⟩
    refine ⟨⟨itemAt data pos, itemAt_ne_nil h⟩ :: new, by simp, ?_⟩
    have hlen : (data.drop pos).length = data.length - pos := List.length_drop
    refine (items_of_ne_nil hne).mpr ⟨by omega, hl, by omega, new.buffers, rfl, ?_⟩
    rwa [List.drop_drop]
  · rintro ⟨new, rfl, hnew⟩
    obtain ⟨-, -, -, ys, hys, hrest⟩ := (items_of_ne_nil hne).mp hnew
    obtain ⟨node, new, rfl, hnode, rfl⟩ := List.map_eq_cons_iff.mp hys
    rw [List.drop_drop] at hrest
    refine ⟨new, ?_, hrest⟩
    rw [List.append_assoc, List.singleton_append]
    congr 2
    exact Subtype.ext hnode

theorem extracts_refuse (hpos : pos < data.length) (h : ¬ItemAt data pos) (list : HmBuffersList) :
    Extracts data pos list none := by
  intro list'
  constructor
  · intro hnone
    cases hnone
  · rintro ⟨new, -, hnew⟩
    obtain ⟨h4, hl, hend, -⟩ := (items_of_ne_nil (drop_ne_nil_of_lt hpos)).mp hnew
    rw [List.length_drop] at h4 hend
    exact absurd ⟨by omega, hl, by omega⟩ h

/-- **The loop**, from a position on: with enough fuel it ends, inside the input, and gives the
items that are there. -/
theorem extractLoop_spec {n : ℕ} (hn : pos + n = data.length) (list : HmBuffersList) :
    ∃ r, (∀ fuel, n < fuel → hmBuffersListExtractLoop data fuel pos list = .ok r) ∧
      Extracts data pos list r := by
  induction n using Nat.strong_induction_on generalizing pos list with
  | _ n ih =>
    by_cases hend : pos = data.length
    · subst hend
      refine ⟨some list, fun fuel hfuel => ?_, extracts_end list⟩
      obtain ⟨fuel, rfl⟩ := Nat.exists_eq_succ_of_ne_zero (Nat.ne_zero_of_lt hfuel)
      rw [hmBuffersListExtractLoop, if_pos rfl]
    by_cases h : ItemAt data pos
    · have hin := h.2.2
      have hrest : pos + (4 + announced (data.drop pos)) +
          (n - (4 + announced (data.drop pos))) = data.length := by omega
      obtain ⟨r, hrun, hr⟩ := ih (n - (4 + announced (data.drop pos))) (by omega) hrest
        (list ++ [⟨itemAt data pos, itemAt_ne_nil h⟩])
      refine ⟨r, fun fuel hfuel => ?_, extracts_item h hr⟩
      obtain ⟨fuel, rfl⟩ := Nat.exists_eq_succ_of_ne_zero (Nat.ne_zero_of_lt hfuel)
      rw [extractLoop_item h]
      exact hrun fuel (by omega)
    · refine ⟨none, fun fuel hfuel => ?_, extracts_refuse (by omega) h list⟩
      obtain ⟨fuel, rfl⟩ := Nat.exists_eq_succ_of_ne_zero (Nat.ne_zero_of_lt hfuel)
      exact extractLoop_refuse hend h fuel list

/-- **The parser**: it ends, having read its input only, and gives the items of an input that
has some and nothing else. -/
theorem extract_exact (data : Bytes) :
    ∃ r, (∀ fuel, data.length < fuel → hmBuffersListExtract fuel data = .ok r) ∧
      (r.isSome ↔ data ≠ [] ∧ ∃ xs, Items xs data) ∧
      ∀ list, r = some list → Items list.buffers data ∧ list.buffers.flatMap item = data := by
  by_cases hdata : data = []
  · refine ⟨none, fun fuel _ => if_pos hdata, ?_, fun list h => by cases h⟩
    simp [hdata]
  · obtain ⟨r, hrun, hr⟩ := extractLoop_spec (Nat.zero_add data.length) hmBuffersListCreate
    have hr : ∀ list, r = some list ↔ Items list.buffers data := fun list => by
      rw [hr list]
      simp [hmBuffersListCreate]
    refine ⟨r, fun fuel hfuel => ?_, ⟨fun h => ?_, ?_⟩, fun list h => ?_⟩
    · rw [hmBuffersListExtract, if_neg hdata]
      exact hrun fuel hfuel
    · obtain ⟨list, h⟩ := Option.isSome_iff_exists.mp h
      exact ⟨hdata, list.buffers, (hr list).mp h⟩
    · rintro ⟨-, xs, hxs⟩
      have hne : ∀ x ∈ xs, x ≠ [] := fun x hx => ((items_iff.mp hxs).1 x hx).1
      obtain ⟨list, rfl⟩ : ∃ list : HmBuffersList, list.buffers = xs :=
        ⟨xs.attachWith _ hne, List.attachWith_map_subtype_val _⟩
      rw [(hr list).mpr hxs]
      rfl
    · have hitems := (hr list).mp h
      exact ⟨hitems, (items_iff.mp hitems).2.symm⟩

/-! ### The encoder and its loops -/

/-- **The first loop does not end** on a list with a node. -/
theorem sizeLoop_cons (node : HmBuffersListNode) (nodes : HmBuffersList) (fuel : ℕ)
    (result : UInt64) : hmBuffresListSizeLoop fuel (node :: nodes) result = .error .outOfFuel := by
  induction fuel generalizing result with
  | zero => rfl
  | succ fuel ih => exact ih _

/-- **The second loop writes beyond its buffer** on a list with a node. -/
theorem copyLoop_cons (node : HmBuffersListNode) (nodes : HmBuffersList) {fuel pos : ℕ}
    {data : Bytes} (hfuel : data.length < pos + 4 * fuel) (hpos : pos ≤ data.length) :
    hmBuffersListCopyLoop fuel (node :: nodes) data pos = .error .assertion := by
  induction fuel generalizing data pos with
  | zero => omega
  | succ fuel ih =>
    rw [hmBuffersListCopyLoop]
    cases hword : memcpy data pos (le32 (UInt32.ofNat node.1.length)) with
    | none => rfl
    | some data₁ =>
      dsimp only
      cases hbytes : memcpy data₁ (pos + 4) node.1 with
      | none => rfl
      | some data₂ =>
        obtain ⟨-, hlen₁⟩ := memcpy_length hword
        obtain ⟨hin, hlen₂⟩ := memcpy_length hbytes
        exact ih (by omega) (by omega)

theorem toBuf_nonempty (node : HmBuffersListNode) (nodes : HmBuffersList) (fuel : ℕ) :
    hmBuffersListToBuf fuel (some (node :: nodes)) = .error .outOfFuel := by
  rw [hmBuffersListToBuf, hmBuffresListGetNeededBufferSize, sizeLoop_cons]

theorem toBuf_empty (fuel : ℕ) : hmBuffersListToBuf fuel (some []) = .ok (0, none) := rfl

/-- What an encoder is for: it ends, it returns and writes `4` and the length for every buffer,
and the parser gives the list back. -/
def EncodesBack (list : HmBuffersList) : Prop :=
  ∃ size data n, (∀ fuel, n ≤ fuel → hmBuffersListToBuf fuel (some list) = .ok (size, data)) ∧
    size.toNat = (list.buffers.map fun x => 4 + x.length).sum ∧
    (data.getD []).length = size.toNat ∧
    ∀ fuel, n ≤ fuel → hmBuffersListExtract fuel (data.getD []) = .ok (some list)

/-- **No list is encoded and decoded back.** -/
theorem not_encodesBack (list : HmBuffersList) : ¬EncodesBack list := by
  rintro ⟨size, data, n, hrun, -, -, hback⟩
  have hrun := hrun n le_rfl
  cases list with
  | nil =>
    cases hrun
    cases hback n le_rfl
  | cons node nodes =>
    rw [toBuf_nonempty] at hrun
    cases hrun

/-- Not even that of a single byte. -/
theorem not_encodesBack_one : ∃ list : HmBuffersList,
    hmBuffersListAddC (some hmBuffersListCreate) [1] = .ok list ∧ ¬EncodesBack list := by
  refine ⟨_, addNode_ok [] (List.cons_ne_nil 1 []), ?_⟩
  rintro ⟨size, data, n, hrun, -⟩
  have hrun := hrun n le_rfl
  rw [List.nil_append, toBuf_nonempty] at hrun
  cases hrun

end Hermes

import Hermes.Buffer

/-!
# What the typed buffer gives back

What the two pops of `Hermes.Buffer` return after any sequence of pushes. A reader that has
read the nodes `done` and has the nodes `rest` before it is `Hermes.Buffer.At m buffer done
rest`, and there is one lemma for each pop and each kind of node.

The buffer is meant to be a queue, `Hermes.Fifo`: the matching pops return what was pushed,
in order, and a pop of the wrong kind is refused without moving the reader. Two slips keep it
from being one. `buffer_pop_data` refuses the type `BIN` where `buffer_pop_status` refuses
every type but `INT`, so data can not be popped and a status can be popped as data; and
`buffer_realloc_` leaves `currpos_` behind when the storage moves, where
`buffer_create_with_data` sets it again. So the law holds of no buffer that anything was
pushed to (`Hermes.bufferFifo_iff`); statuses alone come back as they were pushed, as long as
the storage did not move.
-/

namespace Hermes

open Memory

/-! ### The queue -/

/-- The next pop finds the end of the buffer, whatever its kind. -/
def AtEnd (m : Mem UInt8) (buffer : Buffer) : Prop :=
  bufferPopStatus m buffer = some (bufferAtEnd, buffer, none) ∧
    bufferPopData m buffer = some (bufferAtEnd, buffer, none, none)

/-- The pop that matches `node` returns it, and leaves `buffer'`. -/
def PopsNode (m : Mem UInt8) (buffer : Buffer) : BufferNode → Buffer → Prop
  | .status s, buffer' => bufferPopStatus m buffer = some (bufferSuccess, buffer', some s)
  | .data d _ _, buffer' => ∃ p,
    bufferPopData m buffer = some (bufferSuccess, buffer', some p, some d.length) ∧
      m.load p d.length = some d

/-- The pop that does not match `node` refuses it, and does not move. -/
def RefusesOther (m : Mem UInt8) (buffer : Buffer) : BufferNode → Prop
  | .status _ => ∃ buffer' p l,
    bufferPopData m buffer = some (bufferIncorrectBlockType, buffer', p, l) ∧
      buffer'.currpos = buffer.currpos
  | .data _ _ _ => ∃ buffer' s,
    bufferPopStatus m buffer = some (bufferIncorrectBlockType, buffer', s) ∧
      buffer'.currpos = buffer.currpos

/-- The matching pops return `nodes` in order, and the next pop finds the end. -/
def PopsBack (m : Mem UInt8) : Buffer → List BufferNode → Prop
  | buffer, [] => AtEnd m buffer
  | buffer, node :: nodes => ∃ buffer', PopsNode m buffer node buffer' ∧ PopsBack m buffer' nodes

/-- **The buffer is a queue of `nodes`**: the matching pops return them in order, the next
pop finds the end, and before each of them a pop of the wrong kind is refused. -/
def Fifo (m : Mem UInt8) : Buffer → List BufferNode → Prop
  | buffer, [] => AtEnd m buffer
  | buffer, node :: nodes => RefusesOther m buffer node ∧
    ∃ buffer', PopsNode m buffer node buffer' ∧ Fifo m buffer' nodes

/-! ### A reader between two nodes -/

/-- The reader has read the nodes `done` and has the nodes `rest` before it. -/
structure Buffer.At (m : Mem UInt8) (buffer : Buffer) (done rest : List BufferNode) : Prop where
  stores : buffer.Stores m (done ++ rest)
  currpos : buffer.currpos = ⟨buffer.data.block, (BufferNode.encode done).length⟩

variable {m : Mem UInt8} {buffer : Buffer} {done rest : List BufferNode} {node : BufferNode}

/-- A reader at the start of the storage has everything before it. -/
theorem Buffer.Stores.at_start (h : buffer.Stores m rest) (hstart : buffer.currpos = buffer.data) :
    buffer.At m [] rest where
  stores := h
  currpos := by
    rw [hstart, BufferNode.encode_nil, List.length_nil, ← h.offset]

namespace Buffer.At

theorem last_eq (h : buffer.At m done rest) :
    buffer.last = ⟨buffer.data.block,
      (BufferNode.encode done).length + (BufferNode.encode rest).length⟩ := by
  rw [Buffer.last, Ptr.add, h.stores.offset, h.stores.length, BufferNode.encode_append,
    List.length_append, Nat.zero_add]

/-- How a position `k` bytes from the reader compares to the end. -/
theorem cmp_last (h : buffer.At m done rest) (k : ℕ) :
    m.cmp (buffer.currpos.add k) buffer.last =
      some (compare k (BufferNode.encode rest).length) := by
  rw [h.last_eq, h.currpos, Ptr.add, h.stores.holds.cmp]
  congr 1
  simp [compare, compareOfLessAndEq]

/-- The next node, spread out. -/
theorem encode_eq (done rest : List BufferNode) (node : BufferNode) :
    BufferNode.encode (done ++ node :: rest) =
      BufferNode.encode done ++ [node.type] ++ node.word ++ node.payload ++
        BufferNode.encode rest := by
  simp [BufferNode.bytes]

theorem load_type (h : buffer.At m done (node :: rest)) :
    m.load buffer.currpos 1 = some [node.type] := by
  have hholds := h.stores.holds
  rw [encode_eq, List.append_assoc, List.append_assoc] at hholds
  rw [h.currpos]
  exact hholds.load

theorem load_word (h : buffer.At m done (node :: rest)) :
    m.load (buffer.currpos.add 1) 4 = some node.word := by
  have hholds := h.stores.holds
  rw [encode_eq, List.append_assoc] at hholds
  have hload := hholds.load
  rw [BufferNode.length_word, List.length_append, List.length_singleton] at hload
  rw [h.currpos]
  exact hload

/-- The reader behind the next node. -/
theorem next (h : buffer.At m done (node :: rest)) :
    { buffer with currpos := buffer.currpos.add node.bytes.length }.At m (done ++ [node]) rest where
  stores := by
    rw [List.append_assoc, List.singleton_append]
    exact ⟨h.stores.readOnly, h.stores.offset, h.stores.length, h.stores.holds⟩
  currpos := by
    rw [h.currpos, Ptr.add, BufferNode.encode_append, List.length_append,
      BufferNode.encode_cons, BufferNode.encode_nil, List.append_nil]

/-! ### The pops -/

/-- A reader that has nothing before it is at the end. -/
theorem cmp_end (h : buffer.At m done []) : m.cmp buffer.currpos buffer.last = some .eq :=
  h.cmp_last 0

/-- A reader that has a node before it is not at the end. -/
theorem cmp_before (h : buffer.At m done (node :: rest)) :
    m.cmp buffer.currpos buffer.last = some .lt := by
  have hcmp := h.cmp_last 0
  have hlt : 0 < (BufferNode.encode (node :: rest)).length := by simp
  rwa [Nat.compare_eq_lt.mpr hlt] at hcmp

/-- How a position `k` bytes behind the header of the next node compares to the end. -/
theorem cmp_header (h : buffer.At m done (node :: rest)) (k : ℕ) :
    m.cmp (((buffer.currpos.add 1).add 4).add k) buffer.last =
      some (compare k (node.payload.length + (BufferNode.encode rest).length)) := by
  have hcmp := h.cmp_last (5 + k)
  have hptr : ((buffer.currpos.add 1).add 4).add k = buffer.currpos.add (5 + k) := by
    simp only [Ptr.add, Ptr.mk.injEq, true_and]
    omega
  have hlen : (BufferNode.encode (node :: rest)).length =
      5 + (node.payload.length + (BufferNode.encode rest).length) := by
    rw [BufferNode.encode_cons, List.length_append, BufferNode.length_bytes]
    omega
  rw [hptr, hcmp, hlen]
  congr 1
  simp [compare, compareOfLessAndEq]

/-- At the end both pops say so. -/
theorem atEnd (h : buffer.At m done []) : AtEnd m buffer := by
  have hend := h.cmp_end
  constructor
  · simp [bufferPopStatus, hend]
  · simp [bufferPopData, hend]

/-- **A status is popped** as it was pushed. -/
theorem bufferPopStatus_status {s : Int32} (h : buffer.At m done (.status s :: rest)) :
    bufferPopStatus m buffer =
      some (bufferSuccess, { buffer with currpos := buffer.currpos.add 5 }, some s) := by
  have hbefore := h.cmp_before
  have htype : m.load buffer.currpos 1 = some [hermesBufferNodeTypeInt] := h.load_type
  have hword : m.load (buffer.currpos.add 1) 4 = some (Wire.le32 s.toUInt32) := h.load_word
  have hheader : m.cmp ((buffer.currpos.add 1).add 4) buffer.last = _ := h.cmp_header 0
  have hfits : ∀ n, compare 0 n ≠ .gt := fun n hgt => Nat.not_lt_zero n (Nat.compare_eq_gt.mp hgt)
  simp [bufferPopStatus, hbefore, htype, hheader, hword, hfits]

/-- A pop of a status refuses data. -/
theorem bufferPopStatus_data {d : Bytes} {hne : d ≠ []} {hlt : d.length < 2 ^ 32}
    (h : buffer.At m done (.data d hne hlt :: rest)) :
    bufferPopStatus m buffer = some (bufferIncorrectBlockType, buffer, none) := by
  have hbefore := h.cmp_before
  have htype := h.load_type
  have hother : [(BufferNode.data d hne hlt).type] ≠ [hermesBufferNodeTypeInt] := by
    rw [BufferNode.type]
    decide
  simp [bufferPopStatus, hbefore, htype, hother]

/-- **Data are not popped**: the pop of data refuses them. -/
theorem bufferPopData_data {d : Bytes} {hne : d ≠ []} {hlt : d.length < 2 ^ 32}
    (h : buffer.At m done (.data d hne hlt :: rest)) :
    bufferPopData m buffer = some (bufferIncorrectBlockType, buffer, none, none) := by
  have hbefore := h.cmp_before
  have htype := h.load_type
  rw [BufferNode.type] at htype
  simp [bufferPopData, hbefore, htype]

/-- **A status is popped as data**: its bytes are taken for a length, and the pop succeeds
where so many bytes follow. -/
theorem bufferPopData_status {s : Int32} (h : buffer.At m done (.status s :: rest)) :
    bufferPopData m buffer =
      if s.toUInt32.toNat ≤ (BufferNode.encode rest).length then
        some (bufferSuccess,
          { buffer with currpos := buffer.currpos.add (s.toUInt32.toNat + 1 + 4) },
          some ((buffer.currpos.add 1).add 4), some s.toUInt32.toNat)
      else some (bufferCorrupted, buffer, none, some s.toUInt32.toNat) := by
  have hbefore := h.cmp_before
  have htype : m.load buffer.currpos 1 = some [hermesBufferNodeTypeInt] := h.load_type
  have hword : m.load (buffer.currpos.add 1) 4 = some (Wire.le32 s.toUInt32) := h.load_word
  have hlength : Wire.ofLeBytes (Wire.le32 s.toUInt32) = s.toUInt32.toNat := by
    have hlt : s.toUInt32.toNat < 256 ^ 4 := s.toUInt32.toNat_lt
    rw [Wire.le32, Wire.ofLeBytes_leBytes, Nat.mod_eq_of_lt hlt]
  have hother : ¬hermesBufferNodeTypeInt = hermesBufferNodeTypeBin := by decide
  have hpast := h.cmp_header s.toUInt32.toNat
  rw [BufferNode.payload, List.length_nil, Nat.zero_add] at hpast
  by_cases hfits : s.toUInt32.toNat ≤ (BufferNode.encode rest).length
  · have hngt : compare s.toUInt32.toNat (BufferNode.encode rest).length ≠ .gt := fun hgt =>
      absurd hfits (Nat.not_le.mpr (Nat.compare_eq_gt.mp hgt))
    simp [bufferPopData, hbefore, htype, hother, hword, hlength, hpast, hngt, hfits]
  · have hgt : compare s.toUInt32.toNat (BufferNode.encode rest).length = .gt :=
      Nat.compare_eq_gt.mpr (Nat.lt_of_not_le hfits)
    simp [bufferPopData, hbefore, htype, hother, hword, hlength, hpast, hgt, hfits]

end Buffer.At

/-- A pop through a dangling position has no result. -/
theorem bufferPopStatus_dangling (hfreed : m.Freed buffer.currpos.block) :
    bufferPopStatus m buffer = none := by
  have hcmp : m.cmp buffer.currpos buffer.last = none := hfreed.cmp buffer.currpos.offset _
  rw [bufferPopStatus, hcmp]
  rfl

theorem bufferPopData_dangling (hfreed : m.Freed buffer.currpos.block) :
    bufferPopData m buffer = none := by
  have hcmp : m.cmp buffer.currpos buffer.last = none := hfreed.cmp buffer.currpos.offset _
  rw [bufferPopData, hcmp]
  rfl

/-! ### What comes back -/

/-- Of the two kinds of node, only data are refused by the other pop. -/
theorem Buffer.At.refusesOther_iff (h : buffer.At m done (node :: rest)) :
    RefusesOther m buffer node ↔ ¬∃ s, node = .status s := by
  cases node with
  | status s =>
    refine iff_of_false ?_ fun hdata => hdata ⟨s, rfl⟩
    rintro ⟨buffer', p, l, hpop, -⟩
    rw [h.bufferPopData_status] at hpop
    split at hpop
    · have hres : bufferSuccess = bufferIncorrectBlockType :=
        congrArg Prod.fst (Option.some.inj hpop)
      exact absurd hres (by decide)
    · have hres : bufferCorrupted = bufferIncorrectBlockType :=
        congrArg Prod.fst (Option.some.inj hpop)
      exact absurd hres (by decide)
  | data d hne hlt =>
    refine iff_of_true ⟨buffer, none, h.bufferPopStatus_data, rfl⟩ ?_
    rintro ⟨s, hs⟩
    cases hs

/-- Of the two kinds of node, only a status is popped by its own pop. -/
theorem Buffer.At.popsNode_iff (h : buffer.At m done (node :: rest)) :
    (∃ buffer', PopsNode m buffer node buffer') ↔ ∃ s, node = .status s := by
  cases node with
  | status s => exact iff_of_true ⟨_, h.bufferPopStatus_status⟩ ⟨s, rfl⟩
  | data d hne hlt =>
    refine iff_of_false ?_ ?_
    · rintro ⟨buffer', p, hpop, -⟩
      rw [h.bufferPopData_data] at hpop
      have hres : bufferIncorrectBlockType = bufferSuccess :=
        congrArg Prod.fst (Option.some.inj hpop)
      exact absurd hres (by decide)
    · rintro ⟨s, hs⟩
      cases hs

/-- Nothing is popped through a dangling position. -/
theorem not_popsNode_dangling (hfreed : m.Freed buffer.currpos.block) (buffer' : Buffer) :
    ¬PopsNode m buffer node buffer' := by
  intro hpops
  cases node with
  | status s =>
    rw [PopsNode, bufferPopStatus_dangling hfreed] at hpops
    cases hpops
  | data d hne hlt =>
    obtain ⟨p, hpop, -⟩ := hpops
    rw [bufferPopData_dangling hfreed] at hpop
    cases hpop

/-- **The law of the queue fails at the first node**, whichever it is. -/
theorem not_fifo_cons (h : buffer.Stores m (node :: rest)) (hpos : buffer.Unread m) :
    ¬Fifo m buffer (node :: rest) := by
  rintro ⟨hrefuses, buffer', hpops, -⟩
  rcases hpos with hstart | hdangles
  · -- a node that is popped is not refused, and one that is refused is not popped
    have hat := h.at_start hstart
    exact hat.refusesOther_iff.mp hrefuses (hat.popsNode_iff.mp ⟨buffer', hpops⟩)
  · exact not_popsNode_dangling hdangles buffer' hpops

/-- From a reader that is between two nodes, what is before it comes back when it is
statuses only. -/
theorem Buffer.At.popsBack_iff (h : buffer.At m done rest) :
    PopsBack m buffer rest ↔ ∀ node ∈ rest, ∃ s, node = .status s := by
  induction rest generalizing buffer done with
  | nil => exact iff_of_true h.atEnd (by simp)
  | cons node rest ih =>
    rw [List.forall_mem_cons]
    constructor
    · rintro ⟨buffer', hpops, hrest⟩
      obtain ⟨s, rfl⟩ := h.popsNode_iff.mp ⟨buffer', hpops⟩
      rw [PopsNode, h.bufferPopStatus_status] at hpops
      have hbuffer : { buffer with currpos := buffer.currpos.add 5 } = buffer' :=
        congrArg (fun r => r.2.1) (Option.some.inj hpops)
      rw [← hbuffer] at hrest
      exact ⟨⟨s, rfl⟩, (ih h.next).mp hrest⟩
    · rintro ⟨⟨s, rfl⟩, hall⟩
      exact ⟨_, h.bufferPopStatus_status, (ih h.next).mpr hall⟩

/-- **What comes back**: all that was pushed, when it is statuses only and the position of the
reader is still the start of the storage, and otherwise not. -/
theorem popsBack_iff {nodes : List BufferNode} (h : buffer.Stores m nodes)
    (hpos : buffer.Unread m) :
    PopsBack m buffer nodes ↔
      (∀ node ∈ nodes, ∃ s, node = .status s) ∧ buffer.currpos = buffer.data := by
  rcases hpos with hstart | hdangles
  · rw [(h.at_start hstart).popsBack_iff]
    exact (and_iff_left hstart).symm
  · have hmoved : buffer.currpos ≠ buffer.data := by
      intro hstart
      obtain ⟨c, hc, -⟩ := h.holds
      exact hdangles.ne_of_content hc (congrArg Ptr.block hstart)
    refine iff_of_false ?_ fun hall => hmoved hall.2
    cases nodes with
    | nil =>
      rintro ⟨hpop, -⟩
      rw [bufferPopStatus_dangling hdangles] at hpop
      cases hpop
    | cons node rest =>
      rintro ⟨buffer', hpops, -⟩
      exact not_popsNode_dangling hdangles buffer' hpops

/-- **The typed buffer is not a queue**: every push succeeds, but the law of the queue holds
only when there was none. What was pushed comes back when it is statuses only and the
position of the reader is still the start of the storage. -/
theorem bufferFifo_iff (a : Allocator UInt8) (m : Mem UInt8) (nodes : List BufferNode) :
    ∃ m' buffer, pushNodes a (bufferCreate a m).1 (bufferCreate a m).2 nodes =
        some (List.replicate nodes.length bufferSuccess, m', buffer) ∧
      (Fifo m' buffer nodes ↔ nodes = []) ∧
      (PopsBack m' buffer nodes ↔
        (∀ node ∈ nodes, ∃ s, node = .status s) ∧ buffer.currpos = buffer.data) := by
  cases nodes with
  | nil =>
    have hfit : (BufferNode.encode []).length ≤ bufferBlockCapacityDefault := Nat.zero_le _
    obtain ⟨m', buffer, hpush, hstores, hstart⟩ := currpos_eq_of_fits a m hfit
    have hend : Fifo m' buffer [] := (hstores.at_start hstart).atEnd
    exact ⟨m', buffer, hpush, iff_of_true hend rfl, popsBack_iff hstores (.inl hstart)⟩
  | cons node rest =>
    obtain ⟨m', buffer, hpush, hstores, hpos⟩ := pushNodes_bufferCreate a m (node :: rest)
    refine ⟨m', buffer, hpush, iff_of_false (not_fifo_cons hstores hpos) ?_,
      popsBack_iff hstores hpos⟩
    exact List.cons_ne_nil node rest

/-- An allocator that resizes in place, and clears what it gives out. -/
def inPlaceAllocator : Allocator UInt8 :=
  ⟨fun _ _ _ => false, fun _ n => List.replicate n 0, fun _ _ => List.length_replicate⟩

/-- One byte of data is pushed to a new buffer, and the pop of data refuses it. -/
theorem bufferFifo_one_byte :
    ∃ m buffer, pushNodes inPlaceAllocator (bufferCreate inPlaceAllocator ⟨[]⟩).1
        (bufferCreate inPlaceAllocator ⟨[]⟩).2 [.data [1] (by decide) (by decide)] =
          some ([bufferSuccess], m, buffer) ∧
      bufferPopData m buffer = some (bufferIncorrectBlockType, buffer, none, none) ∧
      ¬Fifo m buffer [.data [1] (by decide) (by decide)] := by
  obtain ⟨m, buffer, hpush, hstores, hstart⟩ :=
    currpos_eq_of_inPlace (a := inPlaceAllocator) (fun _ _ _ => rfl) ⟨[]⟩
      [.data [1] (by decide) (by decide)]
  exact ⟨m, buffer, hpush, (hstores.at_start hstart).bufferPopData_data,
    not_fifo_cons hstores (.inl hstart)⟩

/-- Statuses that fit the storage of a new buffer come back, whatever the allocator does. -/
theorem popsBack_statuses (a : Allocator UInt8) (m : Mem UInt8) {nodes : List BufferNode}
    (hfit : (BufferNode.encode nodes).length ≤ bufferBlockCapacityDefault)
    (hall : ∀ node ∈ nodes, ∃ s, node = .status s) :
    ∃ m' buffer, pushNodes a (bufferCreate a m).1 (bufferCreate a m).2 nodes =
        some (List.replicate nodes.length bufferSuccess, m', buffer) ∧
      PopsBack m' buffer nodes := by
  obtain ⟨m', buffer, hpush, hstores, hstart⟩ := currpos_eq_of_fits a m hfit
  exact ⟨m', buffer, hpush, (hstores.at_start hstart).popsBack_iff.mpr hall⟩

/-- Where the allocator moves the storage of a buffer that was filled beyond its first
block, no pop has a result. -/
theorem pops_dangle {a : Allocator UInt8} (hmoves : ∀ m p n, a.moves m p n = true)
    (m : Mem UInt8) {nodes : List BufferNode}
    (hfull : bufferBlockCapacityDefault < (BufferNode.encode nodes).length) :
    ∃ m' buffer, pushNodes a (bufferCreate a m).1 (bufferCreate a m).2 nodes =
        some (List.replicate nodes.length bufferSuccess, m', buffer) ∧
      bufferPopStatus m' buffer = none ∧ bufferPopData m' buffer = none := by
  obtain ⟨m', buffer, hpush, -, hdangles⟩ := currpos_freed_of_moves hmoves m hfull
  exact ⟨m', buffer, hpush, bufferPopStatus_dangling hdangles, bufferPopData_dangling hdangles⟩

end Hermes

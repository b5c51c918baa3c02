import Hermes.Common
import Hermes.Memory.Blocks
import Hermes.Wire.Word

/-!
# The typed buffer

`common/buffer.c`: a buffer that statuses and data are pushed to and popped from. A pushed
node is a byte for its type, a word, which is the status or the length of the data, and the
data. The storage grows by blocks of `BUFFER_BLOCK_CAPACITY_DEFAULT` bytes, and the reader's
position, `currpos_`, is a pointer into the storage.

The functions are modelled with the memory they run in (`Memory.Mem`), since what becomes
of that pointer when the storage is resized is part of what they do. A call that reads
outside the storage, or through a dangling pointer, has no result. An allocation does not
fail (the source asserts that it did not), a buffer is given by its object, and so are the
places for the results of a pop, which are never `NULL`.
-/

namespace Hermes

open Memory

/-! ### Statuses and types -/

/-- What a function of the buffer returns. -/
abbrev BufferStatus := Int32

/-- `BUFFER_SUCCESS` -/
def bufferSuccess : BufferStatus := hmSuccess.toInt32

/-- `BUFFER_BAD_ALLOC` -/
def bufferBadAlloc : BufferStatus := hmBadAlloc.toInt32

/-- `BUFFER_AT_END` -/
def bufferAtEnd : BufferStatus := -4

/-- `BUFFER_INCORRECT_BLOCK_TYPE` -/
def bufferIncorrectBlockType : BufferStatus := -5

/-- `BUFFER_CORRUPTED` -/
def bufferCorrupted : BufferStatus := -6

/-- `BUFFER_WRITE_READ_ONLY` -/
def bufferWriteReadOnly : BufferStatus := -7

/-- `HERMES_BUFFER_NODE_TYPE_BIN` -/
def hermesBufferNodeTypeBin : UInt8 := 2

/-- `HERMES_BUFFER_NODE_TYPE_INT` -/
def hermesBufferNodeTypeInt : UInt8 := 3

/-- `BUFFER_BLOCK_CAPACITY_DEFAULT` -/
def bufferBlockCapacityDefault : ℕ := 1024 * 10

/-! ### The functions of the source -/

/-- `buffer_t` -/
structure Buffer where
  /-- `capacity_`, in blocks. -/
  capacity : ℕ
  /-- `length_` -/
  length : ℕ
  /-- `data_` -/
  data : Ptr
  /-- `currpos_`, where the next pop reads. -/
  currpos : Ptr
  /-- `read_only_` -/
  readOnly : Bool
  deriving DecidableEq

/-- Where the content of a buffer ends. -/
def Buffer.last (buffer : Buffer) : Ptr := buffer.data.add buffer.length

/-- `buffer_create` -/
def bufferCreate (a : Allocator UInt8) (m : Mem UInt8) : Mem UInt8 × Buffer :=
  let (m, data) := m.malloc a (1 * bufferBlockCapacityDefault)
  (m, { capacity := 1, length := 0, data := data, currpos := data, readOnly := false })

/-- `buffer_realloc_`: the storage may move, and `currpos_` is left as it is. -/
def bufferRealloc (a : Allocator UInt8) (m : Mem UInt8) (buffer : Buffer) (size : ℕ) :
    Option (BufferStatus × Mem UInt8 × Buffer) :=
  if buffer.readOnly then some (bufferWriteReadOnly, m, buffer)
  else if size > buffer.capacity * bufferBlockCapacityDefault then do
    let newCapacity := size / bufferBlockCapacityDefault +
      (if size % bufferBlockCapacityDefault ≠ 0 then 1 else 0)
    let (m, data) ← m.realloc a buffer.data (newCapacity * bufferBlockCapacityDefault)
    return (bufferSuccess, m, { buffer with data := data, capacity := newCapacity })
  else some (bufferSuccess, m, buffer)

/-- `buffer_push_status` -/
def bufferPushStatus (a : Allocator UInt8) (m : Mem UInt8) (buffer : Buffer) (status : Int32) :
    Option (BufferStatus × Mem UInt8 × Buffer) := do
  let (res, m, buffer) ← bufferRealloc a m buffer (buffer.length + 4 + 1)
  if res ≠ 0 then return (bufferBadAlloc, m, buffer)
  else if buffer.readOnly then return (bufferWriteReadOnly, m, buffer)
  else
    let m ← m.store (buffer.data.add buffer.length) [hermesBufferNodeTypeInt]
    let m ← m.store ((buffer.data.add buffer.length).add 1) (Wire.le32 status.toUInt32)
    return (bufferSuccess, m, { buffer with length := buffer.length + 5 })

/-- `buffer_push_data` -/
def bufferPushData (a : Allocator UInt8) (m : Mem UInt8) (buffer : Buffer) (data : Bytes) :
    Option (BufferStatus × Mem UInt8 × Buffer) := do
  if data = [] then return (bufferBadAlloc, m, buffer)
  else
    let (res, m, buffer) ← bufferRealloc a m buffer (buffer.length + data.length + 4 + 1)
    if res ≠ 0 then return (bufferBadAlloc, m, buffer)
    else if buffer.readOnly then return (bufferWriteReadOnly, m, buffer)
    else
      let m ← m.store (buffer.data.add buffer.length) [hermesBufferNodeTypeBin]
      let m ← m.store ((buffer.data.add buffer.length).add 1) (Wire.leBytes 4 data.length)
      let m ← m.store (((buffer.data.add buffer.length).add 1).add 4) data
      return (bufferSuccess, m, { buffer with length := buffer.length + (data.length + 1 + 4) })

/-- `buffer_pop_status`, with what is written through `status`. -/
def bufferPopStatus (m : Mem UInt8) (buffer : Buffer) :
    Option (BufferStatus × Buffer × Option Int32) := do
  let reached ← m.cmp buffer.currpos buffer.last
  if reached.isGE then return (bufferAtEnd, buffer, none)
  else
    let type ← m.load buffer.currpos 1
    if type ≠ [hermesBufferNodeTypeInt] then return (bufferIncorrectBlockType, buffer, none)
    else
      let past ← m.cmp ((buffer.currpos.add 1).add 4) buffer.last
      if past.isGT then return (bufferCorrupted, buffer, none)
      else
        let status ← m.load (buffer.currpos.add 1) 4
        return (bufferSuccess, { buffer with currpos := buffer.currpos.add (1 + 4) },
          some (Wire.ofLe32 status).toInt32)

/-- `buffer_pop_data`, with what is written through `data` and through `data_length`. The
type is tested the other way round than in `buffer_pop_status`. -/
def bufferPopData (m : Mem UInt8) (buffer : Buffer) :
    Option (BufferStatus × Buffer × Option Ptr × Option ℕ) := do
  let reached ← m.cmp buffer.currpos buffer.last
  if reached.isGE then return (bufferAtEnd, buffer, none, none)
  else
    let type ← m.load buffer.currpos 1
    if type = [hermesBufferNodeTypeBin] then
      return (bufferIncorrectBlockType, buffer, none, none)
    else
      let word ← m.load (buffer.currpos.add 1) 4
      let dataLength := Wire.ofLeBytes word
      let past ← m.cmp (((buffer.currpos.add 1).add 4).add dataLength) buffer.last
      if past.isGT then return (bufferCorrupted, buffer, none, some dataLength)
      else
        return (bufferSuccess, { buffer with currpos := buffer.currpos.add (dataLength + 1 + 4) },
          some ((buffer.currpos.add 1).add 4), some dataLength)

/-! ### What is pushed -/

/-- A node of a buffer: a status, or some data of which the length fits its word. -/
inductive BufferNode where
  | status (s : Int32)
  | data (d : Bytes) (ne_nil : d ≠ []) (length_lt : d.length < 2 ^ 32)

namespace BufferNode

/-- The type of a node. -/
def type : BufferNode → UInt8
  | status _ => hermesBufferNodeTypeInt
  | data _ _ _ => hermesBufferNodeTypeBin

/-- The word behind the type. -/
def word : BufferNode → Bytes
  | status s => Wire.le32 s.toUInt32
  | data d _ _ => Wire.leBytes 4 d.length

/-- What stands behind the word. -/
def payload : BufferNode → Bytes
  | status _ => []
  | data d _ _ => d

/-- A node as it is written. -/
def bytes (node : BufferNode) : Bytes := [node.type] ++ node.word ++ node.payload

/-- Nodes one after the other. -/
def encode (nodes : List BufferNode) : Bytes := nodes.flatMap bytes

@[simp] theorem length_word (node : BufferNode) : node.word.length = 4 := by
  cases node with
  | status s => exact Wire.length_le32 s.toUInt32
  | data d => exact Wire.length_leBytes 4 d.length

@[simp] theorem length_bytes (node : BufferNode) :
    node.bytes.length = node.payload.length + 5 := by
  rw [bytes, List.length_append, List.length_append, length_word, List.length_singleton]
  omega

@[simp] theorem encode_nil : encode [] = [] := rfl

@[simp] theorem encode_append (nodes nodes' : List BufferNode) :
    encode (nodes ++ nodes') = encode nodes ++ encode nodes' :=
  List.flatMap_append

@[simp] theorem encode_cons (node : BufferNode) (nodes : List BufferNode) :
    encode (node :: nodes) = node.bytes ++ encode nodes :=
  List.flatMap_cons

theorem encode_cons_ne_nil (node : BufferNode) (nodes : List BufferNode) :
    encode (node :: nodes) ≠ [] := by
  simp [bytes]

/-- The first node of a content can be told from it. -/
theorem bytes_append_inj {node node' : BufferNode} {bs bs' : Bytes}
    (h : node.bytes ++ bs = node'.bytes ++ bs') : node = node' ∧ bs = bs' := by
  simp only [bytes, List.append_assoc, List.singleton_append] at h
  obtain ⟨htype, hrest⟩ := List.cons.inj h
  obtain ⟨hword, hpayload⟩ := List.append_inj hrest (by rw [length_word, length_word])
  cases node with
  | status s =>
    cases node' with
    | status s' =>
      have hs : s = s' := by
        rw [← s.toInt32_toUInt32, Wire.le32_inj hword, s'.toInt32_toUInt32]
      exact ⟨congrArg status hs, hpayload⟩
    | data d' =>
      have hint : hermesBufferNodeTypeInt = hermesBufferNodeTypeBin := htype
      exact absurd hint (by decide)
  | data d hne hlt =>
    cases node' with
    | status s' =>
      have hbin : hermesBufferNodeTypeBin = hermesBufferNodeTypeInt := htype
      exact absurd hbin (by decide)
    | data d' hne' hlt' =>
      have hlen : d.length = d'.length := by
        have hval := congrArg Wire.ofLeBytes hword
        rw [word, word, Wire.ofLeBytes_leBytes, Wire.ofLeBytes_leBytes] at hval
        omega
      obtain ⟨rfl, hbs⟩ := List.append_inj hpayload hlen
      exact ⟨rfl, hbs⟩

/-- **A content tells what was pushed**: different nodes are never written alike. -/
theorem encode_injective : Function.Injective encode := by
  intro nodes
  induction nodes with
  | nil =>
    intro nodes' h
    cases nodes' with
    | nil => rfl
    | cons node' nodes' => exact absurd h.symm (encode_cons_ne_nil node' nodes')
  | cons node nodes ih =>
    intro nodes' h
    cases nodes' with
    | nil => exact absurd h (encode_cons_ne_nil node nodes)
    | cons node' nodes' =>
      rw [encode_cons, encode_cons] at h
      obtain ⟨rfl, hrest⟩ := bytes_append_inj h
      rw [ih hrest]

end BufferNode

/-- The push of a node. -/
def pushNode (a : Allocator UInt8) (m : Mem UInt8) (buffer : Buffer) :
    BufferNode → Option (BufferStatus × Mem UInt8 × Buffer)
  | .status s => bufferPushStatus a m buffer s
  | .data d _ _ => bufferPushData a m buffer d

/-- The pushes of some nodes, with what they return. -/
def pushNodes (a : Allocator UInt8) (m : Mem UInt8) (buffer : Buffer) :
    List BufferNode → Option (List BufferStatus × Mem UInt8 × Buffer)
  | [] => some ([], m, buffer)
  | node :: nodes => do
    let (res, m, buffer) ← pushNode a m buffer node
    let (results, m, buffer) ← pushNodes a m buffer nodes
    return (res :: results, m, buffer)

/-! ### What a push does -/

/-- The content of a buffer is that of the nodes pushed to it. -/
structure Buffer.Stores (m : Mem UInt8) (buffer : Buffer) (nodes : List BufferNode) : Prop where
  readOnly : buffer.readOnly = false
  offset : buffer.data.offset = 0
  length : buffer.length = (BufferNode.encode nodes).length
  holds : m.Holds buffer.data.block (buffer.capacity * bufferBlockCapacityDefault)
    (BufferNode.encode nodes)

/-- What resizing the storage of `buffer` to `size` bytes did to where it is. -/
inductive Resized (a : Allocator UInt8) (m m' : Mem UInt8) (buffer buffer' : Buffer) (size : ℕ) :
    Prop
  | fits (hfit : size ≤ buffer.capacity * bufferBlockCapacityDefault)
      (hcapacity : buffer'.capacity = buffer.capacity) (hdata : buffer'.data = buffer.data)
  | stays (hfull : buffer.capacity * bufferBlockCapacityDefault < size) (k : ℕ)
      (hmoves : a.moves m buffer.data k = false) (hdata : buffer'.data = buffer.data)
  | moved (hfull : buffer.capacity * bufferBlockCapacityDefault < size) (k : ℕ)
      (hmoves : a.moves m buffer.data k = true) (hfreed : m'.Freed buffer.data.block)

theorem stores_bufferCreate (a : Allocator UInt8) (m : Mem UInt8) :
    (bufferCreate a m).2.Stores (bufferCreate a m).1 [] where
  readOnly := rfl
  offset := rfl
  length := rfl
  holds := Mem.holds_malloc a m _

/-- The capacity that is asked for is large enough. -/
theorem le_newCapacity (size : ℕ) :
    size ≤ (size / bufferBlockCapacityDefault +
      (if size % bufferBlockCapacityDefault ≠ 0 then 1 else 0)) * bufferBlockCapacityDefault := by
  have hdiv := Nat.div_add_mod size bufferBlockCapacityDefault
  have hmod : size % bufferBlockCapacityDefault < bufferBlockCapacityDefault :=
    Nat.mod_lt _ (by decide)
  rw [Nat.add_mul, Nat.mul_comm]
  split <;> omega

/-- **Growing the storage** keeps the content and the position, wherever the storage is
afterwards. -/
theorem bufferRealloc_spec (a : Allocator UInt8) {m : Mem UInt8} {buffer : Buffer}
    {nodes : List BufferNode} (h : buffer.Stores m nodes) (size : ℕ) :
    ∃ m' buffer', bufferRealloc a m buffer size = some (bufferSuccess, m', buffer') ∧
      buffer'.Stores m' nodes ∧ size ≤ buffer'.capacity * bufferBlockCapacityDefault ∧
      buffer'.currpos = buffer.currpos ∧ (∀ b, m.Freed b → m'.Freed b) ∧
      Resized a m m' buffer buffer' size := by
  by_cases hfull : buffer.capacity * bufferBlockCapacityDefault < size
  · have hnew := le_newCapacity size
    generalize hcap : size / bufferBlockCapacityDefault +
      (if size % bufferBlockCapacityDefault ≠ 0 then 1 else 0) = capacity at hnew
    have hstart : (⟨buffer.data.block, 0⟩ : Ptr) = buffer.data := by
      rw [← h.offset]
    obtain ⟨m', p, hrealloc, hp, hholds, hmoved, hfreed⟩ :=
      h.holds.realloc a (k := capacity * bufferBlockCapacityDefault) (by omega)
    rw [hstart] at hrealloc hmoved
    refine ⟨m', { buffer with data := p, capacity := capacity }, ?_,
      ⟨h.readOnly, hp, h.length, hholds⟩, hnew, rfl, hfreed, ?_⟩
    · simp only [bufferRealloc, h.readOnly, gt_iff_lt, hfull, hcap, hrealloc, if_true, if_false,
        Bool.false_eq_true, Option.bind_eq_bind, Option.bind_some, Option.pure_def]
    · rcases hmoved with ⟨hmoves, hblock⟩ | ⟨hmoves, -, hdead⟩
      · have hdata : p = buffer.data := by
          rw [← hstart, ← hblock, ← hp]
        exact .stays hfull _ hmoves hdata
      · exact .moved hfull _ hmoves hdead
  · refine ⟨m, buffer, ?_, h, by omega, rfl, fun b hb => hb, .fits (by omega) rfl rfl⟩
    simp [bufferRealloc, h.readOnly, hfull]

/-- **The header of a node**, written behind what the storage holds. -/
theorem Buffer.Stores.store_header {m : Mem UInt8} {buffer : Buffer} {nodes : List BufferNode}
    (h : buffer.Stores m nodes) (node : BufferNode)
    (hfit : buffer.length + 5 ≤ buffer.capacity * bufferBlockCapacityDefault) :
    ∃ m₁ m₂, m.store (buffer.data.add buffer.length) [node.type] = some m₁ ∧
      m₁.store ((buffer.data.add buffer.length).add 1) node.word = some m₂ ∧
      m₂.Holds buffer.data.block (buffer.capacity * bufferBlockCapacityDefault)
        (BufferNode.encode nodes ++ [node.type] ++ node.word) ∧
      ∀ b, m.Freed b → m₂.Freed b := by
  have hend : buffer.data.add buffer.length =
      ⟨buffer.data.block, (BufferNode.encode nodes).length⟩ := by
    rw [Ptr.add, h.offset, h.length, Nat.zero_add]
  have hlen := h.length
  obtain ⟨m₁, hstore₁, hholds₁, hfreed₁⟩ :=
    h.holds.store [node.type] (by rw [List.length_singleton]; omega)
  obtain ⟨m₂, hstore₂, hholds₂, hfreed₂⟩ :=
    hholds₁.store node.word
      (by rw [List.length_append, List.length_singleton, BufferNode.length_word]; omega)
  rw [List.length_append, List.length_singleton] at hstore₂
  refine ⟨m₁, m₂, ?_, ?_, hholds₂, fun b hb => hfreed₂ b (hfreed₁ b hb)⟩
  · rw [hend]
    exact hstore₁
  · rw [hend]
    exact hstore₂

/-- What a push of `node` to a buffer with the content of `nodes` leaves. -/
structure Pushed (a : Allocator UInt8) (m : Mem UInt8) (buffer : Buffer)
    (nodes : List BufferNode) (node : BufferNode) (m' : Mem UInt8) (buffer' : Buffer) :
    Prop where
  stores : buffer'.Stores m' (nodes ++ [node])
  currpos : buffer'.currpos = buffer.currpos
  freed : ∀ b, m.Freed b → m'.Freed b
  resized : Resized a m m' buffer buffer' (buffer.length + node.bytes.length)

/-- Writing to the storage does not change where it is. -/
theorem Resized.write {a : Allocator UInt8} {m m' m'' : Mem UInt8}
    {buffer buffer' buffer'' : Buffer} {size : ℕ} (h : Resized a m m' buffer buffer' size)
    (hcapacity : buffer''.capacity = buffer'.capacity) (hdata : buffer''.data = buffer'.data)
    (hfreed : ∀ b, m'.Freed b → m''.Freed b) : Resized a m m'' buffer buffer'' size := by
  cases h with
  | fits hfit hcap hptr => exact .fits hfit (hcapacity.trans hcap) (hdata.trans hptr)
  | stays hfull k hmoves hptr => exact .stays hfull k hmoves (hdata.trans hptr)
  | moved hfull k hmoves hdead => exact .moved hfull k hmoves (hfreed _ hdead)

variable {a : Allocator UInt8} {m : Mem UInt8} {buffer : Buffer} {nodes : List BufferNode}

/-- **A status is pushed**: the push succeeds and the content is one node longer. -/
theorem bufferPushStatus_spec (h : buffer.Stores m nodes) (s : Int32) :
    ∃ m' buffer', bufferPushStatus a m buffer s = some (bufferSuccess, m', buffer') ∧
      Pushed a m buffer nodes (.status s) m' buffer' := by
  obtain ⟨m₀, buffer₀, hrealloc, hstores, hfit, hcurrpos, hfreed₀, hresized⟩ :=
    bufferRealloc_spec a h (buffer.length + 4 + 1)
  have hlen : buffer₀.length = buffer.length := hstores.length.trans h.length.symm
  obtain ⟨m₁, m₂, hstore₁, hstore₂, hholds, hfreed⟩ :=
    hstores.store_header (.status s) (by omega)
  have hbytes : BufferNode.encode nodes ++ [(BufferNode.status s).type] ++
      (BufferNode.status s).word = BufferNode.encode (nodes ++ [.status s]) := by
    simp [BufferNode.bytes, BufferNode.payload]
  rw [hbytes] at hholds
  refine ⟨m₂, { buffer₀ with length := buffer₀.length + 5 }, ?_, ⟨?_, hcurrpos, ?_, ?_⟩⟩
  · simp only [bufferPushStatus, hrealloc, Option.bind_eq_bind, Option.bind_some]
    rw [if_neg (by decide), if_neg (by simp [hstores.readOnly])]
    exact Option.bind_eq_some_iff.mpr ⟨m₁, hstore₁, Option.bind_eq_some_iff.mpr ⟨m₂, hstore₂, rfl⟩⟩
  · refine ⟨hstores.readOnly, hstores.offset, ?_, hholds⟩
    rw [BufferNode.encode_append, List.length_append, ← hstores.length]
    simp [BufferNode.payload]
  · exact fun b hb => hfreed b (hfreed₀ b hb)
  · exact hresized.write rfl rfl hfreed

/-- **Data are pushed**: the push succeeds and the content is one node longer. -/
theorem bufferPushData_spec (h : buffer.Stores m nodes) (d : Bytes) (hne : d ≠ [])
    (hlt : d.length < 2 ^ 32) :
    ∃ m' buffer', bufferPushData a m buffer d = some (bufferSuccess, m', buffer') ∧
      Pushed a m buffer nodes (.data d hne hlt) m' buffer' := by
  obtain ⟨m₀, buffer₀, hrealloc, hstores, hfit, hcurrpos, hfreed₀, hresized⟩ :=
    bufferRealloc_spec a h (buffer.length + d.length + 4 + 1)
  have hlen : buffer₀.length = buffer.length := hstores.length.trans h.length.symm
  obtain ⟨m₁, m₂, hstore₁, hstore₂, hholds, hfreed⟩ :=
    hstores.store_header (.data d hne hlt) (by omega)
  have hheader : (BufferNode.encode nodes ++ [(BufferNode.data d hne hlt).type] ++
      (BufferNode.data d hne hlt).word).length = buffer₀.length + 1 + 4 := by
    rw [List.length_append, List.length_append, BufferNode.length_word, hstores.length,
      List.length_singleton]
  obtain ⟨m₃, hstore₃, hholds₃, hfreed₃⟩ := hholds.store d (by rw [hheader]; omega)
  -- type, length and data are the bytes of the new node
  have hbytes : BufferNode.encode nodes ++ [(BufferNode.data d hne hlt).type] ++
      (BufferNode.data d hne hlt).word ++ d = BufferNode.encode (nodes ++ [.data d hne hlt]) := by
    simp [BufferNode.bytes, BufferNode.payload]
  have hend : (⟨buffer₀.data.block, buffer₀.length + 1 + 4⟩ : Ptr) =
      ((buffer₀.data.add buffer₀.length).add 1).add 4 := by
    simp [Ptr.add, hstores.offset]
  rw [hbytes] at hholds₃
  rw [hheader, hend] at hstore₃
  refine ⟨m₃, { buffer₀ with length := buffer₀.length + (d.length + 1 + 4) }, ?_,
    ⟨?_, hcurrpos, ?_, ?_⟩⟩
  · simp only [bufferPushData, if_neg hne, hrealloc, Option.bind_eq_bind, Option.bind_some]
    rw [if_neg (by decide), if_neg (by simp [hstores.readOnly])]
    exact Option.bind_eq_some_iff.mpr ⟨m₁, hstore₁, Option.bind_eq_some_iff.mpr
      ⟨m₂, hstore₂, Option.bind_eq_some_iff.mpr ⟨m₃, hstore₃, rfl⟩⟩⟩
  · refine ⟨hstores.readOnly, hstores.offset, ?_, hholds₃⟩
    rw [BufferNode.encode_append, List.length_append, ← hstores.length]
    simp [BufferNode.payload]
  · exact fun b hb => hfreed₃ b (hfreed b (hfreed₀ b hb))
  · have hsize : buffer.length + d.length + 4 + 1 =
        buffer.length + (BufferNode.data d hne hlt).bytes.length := by
      rw [BufferNode.length_bytes, BufferNode.payload]
      omega
    rw [← hsize]
    exact hresized.write rfl rfl fun b hb => hfreed₃ b (hfreed b hb)

theorem pushNode_spec (h : buffer.Stores m nodes) (node : BufferNode) :
    ∃ m' buffer', pushNode a m buffer node = some (bufferSuccess, m', buffer') ∧
      Pushed a m buffer nodes node m' buffer' := by
  cases node with
  | status s => exact bufferPushStatus_spec h s
  | data d hne hlt => exact bufferPushData_spec h d hne hlt

/-! ### Runs of pushes -/

/-- **Every push succeeds**, and what each push keeps is kept by a run of them. -/
theorem pushNodes_run {P : Mem UInt8 → Buffer → List BufferNode → Prop}
    (hstep : ∀ {m buffer nodes node m' buffer'}, buffer.Stores m nodes → P m buffer nodes →
      Pushed a m buffer nodes node m' buffer' → P m' buffer' (nodes ++ [node]))
    (h : buffer.Stores m nodes) (hP : P m buffer nodes) (more : List BufferNode) :
    ∃ m' buffer', pushNodes a m buffer more =
        some (List.replicate more.length bufferSuccess, m', buffer') ∧
      buffer'.Stores m' (nodes ++ more) ∧ P m' buffer' (nodes ++ more) := by
  induction more generalizing m buffer nodes with
  | nil =>
    rw [List.append_nil]
    exact ⟨m, buffer, rfl, h, hP⟩
  | cons node more ih =>
    obtain ⟨m₁, buffer₁, hpush, hpushed⟩ := pushNode_spec (a := a) h node
    obtain ⟨m₂, buffer₂, hrun, hstores, hP₂⟩ := ih hpushed.stores (hstep h hP hpushed)
    rw [List.append_assoc, List.singleton_append] at hstores hP₂
    refine ⟨m₂, buffer₂, ?_, hstores, hP₂⟩
    simp only [pushNodes, hpush, hrun, Option.bind_eq_bind, Option.bind_some]
    rfl

/-- The reader is at the start of the storage, or its position dangles. -/
def Buffer.Unread (m : Mem UInt8) (buffer : Buffer) : Prop :=
  buffer.currpos = buffer.data ∨ m.Freed buffer.currpos.block

/-- A push leaves the reader where it is, and that is the start of the storage or nowhere. -/
theorem Pushed.unread {node : BufferNode} {m' : Mem UInt8} {buffer' : Buffer}
    (h : Pushed a m buffer nodes node m' buffer') (hpos : buffer.Unread m) :
    buffer'.Unread m' := by
  rw [Buffer.Unread, h.currpos]
  rcases hpos with hstart | hdangles
  · rw [hstart]
    cases h.resized with
    | fits _ _ hdata => exact .inl hdata.symm
    | stays _ _ _ hdata => exact .inl hdata.symm
    | moved _ _ _ hfreed => exact .inr hfreed
  · exact .inr (h.freed _ hdangles)

/-- The buffer that `pushNodes` fills. -/
theorem pushNodes_bufferCreate (a : Allocator UInt8) (m : Mem UInt8) (nodes : List BufferNode) :
    ∃ m' buffer', pushNodes a (bufferCreate a m).1 (bufferCreate a m).2 nodes =
        some (List.replicate nodes.length bufferSuccess, m', buffer') ∧
      buffer'.Stores m' nodes ∧ buffer'.Unread m' :=
  pushNodes_run (P := fun m buffer _ => buffer.Unread m) (fun _ hpos hpushed => hpushed.unread hpos)
    (stores_bufferCreate a m) (.inl rfl) nodes

/-- Where the allocator resizes in place, the reader stays at the start of the storage. -/
theorem currpos_eq_of_inPlace (hmoves : ∀ m p n, a.moves m p n = false) (m : Mem UInt8)
    (nodes : List BufferNode) :
    ∃ m' buffer', pushNodes a (bufferCreate a m).1 (bufferCreate a m).2 nodes =
        some (List.replicate nodes.length bufferSuccess, m', buffer') ∧
      buffer'.Stores m' nodes ∧ buffer'.currpos = buffer'.data := by
  refine pushNodes_run (P := fun _ buffer _ => buffer.currpos = buffer.data) ?_
    (stores_bufferCreate a m) rfl nodes
  intro m buffer nodes node m' buffer' _ hstart h
  rw [h.currpos, hstart]
  cases h.resized with
  | fits _ _ hdata => exact hdata.symm
  | stays _ _ _ hdata => exact hdata.symm
  | moved _ k hmoved _ => exact absurd hmoved (by simp [hmoves])

/-- Where all that is pushed fits the storage of a new buffer, the reader stays at the start
of the storage. -/
theorem currpos_eq_of_fits (a : Allocator UInt8) (m : Mem UInt8) {nodes : List BufferNode}
    (hfit : (BufferNode.encode nodes).length ≤ bufferBlockCapacityDefault) :
    ∃ m' buffer', pushNodes a (bufferCreate a m).1 (bufferCreate a m).2 nodes =
        some (List.replicate nodes.length bufferSuccess, m', buffer') ∧
      buffer'.Stores m' nodes ∧ buffer'.currpos = buffer'.data := by
  have hrun := pushNodes_run (a := a)
    (P := fun _ buffer nodes => (BufferNode.encode nodes).length ≤ bufferBlockCapacityDefault →
      buffer.capacity = 1 ∧ buffer.currpos = buffer.data)
    ?_ (stores_bufferCreate a m) (fun _ => ⟨rfl, rfl⟩) nodes
  · obtain ⟨m', buffer', hpush, hstores, hpos⟩ := hrun
    exact ⟨m', buffer', hpush, hstores, (hpos hfit).2⟩
  · intro m buffer nodes node m' buffer' hstores hpos h hfit
    rw [BufferNode.encode_append, List.length_append, ← hstores.length, BufferNode.encode_cons,
      BufferNode.encode_nil, List.append_nil] at hfit
    obtain ⟨hcapacity, hstart⟩ := hpos (by rw [← hstores.length]; omega)
    rw [h.currpos, hstart]
    cases h.resized with
    | fits _ hcap hdata => exact ⟨hcap.trans hcapacity, hdata.symm⟩
    | stays hfull => rw [hcapacity] at hfull; omega
    | moved hfull => rw [hcapacity] at hfull; omega

/-- Where the allocator moves what it resizes, and what is pushed does not fit the storage of
a new buffer, the position of the reader dangles. -/
theorem currpos_freed_of_moves (hmoves : ∀ m p n, a.moves m p n = true) (m : Mem UInt8)
    {nodes : List BufferNode}
    (hfull : bufferBlockCapacityDefault < (BufferNode.encode nodes).length) :
    ∃ m' buffer', pushNodes a (bufferCreate a m).1 (bufferCreate a m).2 nodes =
        some (List.replicate nodes.length bufferSuccess, m', buffer') ∧
      buffer'.Stores m' nodes ∧ m'.Freed buffer'.currpos.block := by
  have hrun := pushNodes_run (a := a)
    (P := fun m buffer nodes => m.Freed buffer.currpos.block ∨ buffer.capacity = 1 ∧
      buffer.currpos = buffer.data ∧
      (BufferNode.encode nodes).length ≤ bufferBlockCapacityDefault)
    ?_ (stores_bufferCreate a m) (.inr ⟨rfl, rfl, Nat.zero_le _⟩) nodes
  · obtain ⟨m', buffer', hpush, hstores, hpos⟩ := hrun
    refine ⟨m', buffer', hpush, hstores, ?_⟩
    rcases hpos with hdangles | ⟨-, -, hfit⟩
    · exact hdangles
    · exact absurd hfit (not_le.mpr hfull)
  · intro m buffer nodes node m' buffer' hstores hpos h
    rw [h.currpos]
    rcases hpos with hdangles | ⟨hcapacity, hstart, -⟩
    · exact .inl (h.freed _ hdangles)
    · rw [hstart]
      cases h.resized with
      | fits hfit hcap hdata =>
        refine .inr ⟨hcap.trans hcapacity, hdata.symm, ?_⟩
        rw [BufferNode.encode_append, List.length_append, ← hstores.length,
          BufferNode.encode_cons, BufferNode.encode_nil, List.append_nil]
        rw [hcapacity] at hfit
        omega
      | stays _ k hstays => exact absurd hstays (by simp [hmoves])
      | moved _ _ _ hfreed => exact .inl hfreed

end Hermes

import Hermes.Common
import Hermes.Interleave.Link
import Hermes.Wire.Word

/-!
# Parameter packs

What a remote procedure call carries in either direction: the parameter packs of
`rpc/param_pack.c`, with their two encoders (`hm_param_pack_write` into memory and
`hm_param_pack_send` to a transport) and their decoder.

The pack of a caller points to the caller's buffers, the pack of a receiver into the
buffer that was received (`Hermes.Window`). The decoder reads memory at offsets that the
bytes themselves determine: reading beyond the end of the buffer is possible in the model,
and has no result.
-/

namespace Hermes

open Interleave Wire

/-- The programs that use an `hm_rpc_transport_t`: they send and receive bytes, and each
time get a status. -/
abbrev Rpc (α : Type) := LinkProg UInt8 Failure α

/-- `transport->send` -/
def transportSend (buffer : Bytes) : Rpc (Reply Unit) := .req (.send buffer) .ret

/-- `transport->recv` -/
def transportRecv (bufferLength : ℕ) : Rpc (Reply Bytes) := .req (.recv bufferLength) .ret

/-- `HM_PARAM_PACK_MAX_PARAMS` -/
def hmParamPackMaxParams : ℕ := 20

/-- The types of parameters that are buffers. -/
inductive HmBufferType where
  /-- `HM_PARAM_TYPE_BUFFER`, which the pack owns. -/
  | buffer : HmBufferType
  /-- `HM_PARAM_TYPE_BUFFER_C`, which it does not own. -/
  | bufferC : HmBufferType
  /-- `HM_PARAM_TYPE_BUFFERS_LIST`, a list of buffers in one. -/
  | buffersList : HmBufferType
  deriving DecidableEq

/-- The types of parameters. -/
inductive HmParamType where
  /-- `HM_PARAM_TYPE_INT32` -/
  | int32 : HmParamType
  | buf (t : HmBufferType) : HmParamType
  deriving DecidableEq

/-- The constants of the types. -/
def HmParamType.tag : HmParamType → UInt32
  | .int32 => 0x26048027
  | .buf .buffer => 0x26048028
  | .buf .bufferC => 0x26048029
  | .buf .buffersList => 0x26048030

/-- The type with the given constant, in the `switch` statements. -/
def HmParamType.ofTag (tag : UInt32) : Option HmParamType :=
  if tag = HmParamType.int32.tag then some .int32
  else if tag = (HmParamType.buf .buffersList).tag then some (.buf .buffersList)
  else if tag = (HmParamType.buf .buffer).tag then some (.buf .buffer)
  else if tag = (HmParamType.buf .bufferC).tag then some (.buf .bufferC)
  else none

theorem HmParamType.ofTag_eq_some {tag : UInt32} {t : HmParamType} :
    HmParamType.ofTag tag = some t ↔ tag = t.tag := by
  constructor
  · intro h
    simp only [HmParamType.ofTag] at h
    split_ifs at h with h1 h2 h3 h4 <;> cases h <;> assumption
  · rintro rfl
    match t with
    | .int32 => decide
    | .buf .buffer => decide
    | .buf .bufferC => decide
    | .buf .buffersList => decide

theorem HmParamType.tag_inj {t t' : HmParamType} (h : t.tag = t'.tag) : t = t' :=
  Option.some.inj ((HmParamType.ofTag_eq_some.mpr rfl).symm.trans
    (HmParamType.ofTag_eq_some.mpr h))

/-- A part of a buffer: `len` bytes from an offset on, all of them in the buffer. -/
structure Window where
  /-- The buffer. -/
  mem : Bytes
  /-- The offset. -/
  off : ℕ
  /-- How many bytes. -/
  len : ℕ
  fits : off + len ≤ mem.length

/-- The bytes of a window. -/
def Window.bytes (s : Window) : Bytes := (s.mem.drop s.off).take s.len

@[simp] theorem Window.length_bytes (s : Window) : s.bytes.length = s.len := by
  have hfits := s.fits
  rw [Window.bytes, List.length_take, List.length_drop]
  omega

/-- A whole buffer. -/
def Window.whole (b : Bytes) : Window := ⟨b, 0, b.length, by omega⟩

@[simp] theorem Window.bytes_whole (b : Bytes) : (Window.whole b).bytes = b := by
  simp [Window.whole, Window.bytes]

/-- `hm_param_pack_node_t`. -/
inductive HmParamPackNode where
  /-- An integer (`int_val`); its `data_length` depends on where the node comes from. -/
  | int32 (intVal : Int32) (dataLength : ℕ) : HmParamPackNode
  /-- A buffer (`buf_val`, `data_length`). -/
  | buf (type : HmBufferType) (bufVal : Window) : HmParamPackNode

/-- `type` -/
def HmParamPackNode.type : HmParamPackNode → HmParamType
  | .int32 .. => .int32
  | .buf t _ => .buf t

/-- `hm_param_pack_t` -/
structure HmParamPack where
  /-- The first `param_count` of `nodes`. -/
  nodes : List HmParamPackNode
  /-- There is room for no more. -/
  count_le : nodes.length ≤ hmParamPackMaxParams
  /-- `whole_data`, of `whole_data_length` bytes, if the pack was `readed`. -/
  wholeData : Option Bytes

/-! ### Making a pack and taking it apart -/

/-- The arguments of `HM_PARAM_PACK`. -/
inductive HmParam where
  /-- `HM_PARAM_INT32` -/
  | int32 (p : Int32) : HmParam
  /-- `HM_PARAM_BUFFER` -/
  | buffer (p : Bytes) : HmParam
  /-- `HM_PARAM_BUFFER_C` -/
  | bufferC (p : Bytes) : HmParam
  deriving DecidableEq

/-- The node of an argument. -/
def HmParam.node : HmParam → HmParamPackNode
  | .int32 p => .int32 p 0
  | .buffer p => .buf .buffer (.whole p)
  | .bufferC p => .buf .bufferC (.whole p)

/-- `hm_param_pack_create_`: no pack if there are too many arguments. -/
def hmParamPackCreate (params : List HmParam) : Option HmParamPack :=
  if h : params.length ≤ hmParamPackMaxParams then
    some ⟨params.map HmParam.node, by rw [List.length_map]; exact h, none⟩
  else none

/-- The arguments of `HM_PARAM_EXTRACT`, without the places for the values. -/
inductive HmKind where
  /-- `HM_PARAM_INT32` -/
  | int32 : HmKind
  /-- `HM_PARAM_BUFFER` -/
  | buffer : HmKind
  /-- `HM_PARAM_BUFFER_C` -/
  | bufferC : HmKind
  deriving DecidableEq

/-- The type an argument of `HM_PARAM_EXTRACT` asks for. -/
def HmKind.type : HmKind → HmParamType
  | .int32 => .int32
  | .buffer => .buf .buffer
  | .bufferC => .buf .bufferC

/-- A value taken out of a pack. -/
inductive HmValue where
  | int32 (v : Int32) : HmValue
  | buffer (b : Bytes) : HmValue
  deriving DecidableEq

/-- The value of a node. -/
def HmParamPackNode.value : HmParamPackNode → HmValue
  | .int32 v _ => .int32 v
  | .buf _ s => .buffer s.bytes

/-- The loop of `hm_param_pack_extract_`: every argument must be of the type of its node,
and there must be a node for it. -/
def hmParamPackExtractNodes : List HmKind → List HmParamPackNode → Reply (List HmValue)
  | [], _ => .ok []
  | _ :: _, [] => .error .fail
  | kind :: kinds, node :: nodes =>
    if kind.type = node.type then
      (hmParamPackExtractNodes kinds nodes).map fun values => node.value :: values
    else .error .fail

/-- `hm_param_pack_extract_` -/
def hmParamPackExtract (pack : HmParamPack) (kinds : List HmKind) : Reply (List HmValue) :=
  hmParamPackExtractNodes kinds pack.nodes

/-! ### Encoding -/

/-- What a node adds to the length of the encoding, in 32 bits. -/
def HmParamPackNode.wholeLength : HmParamPackNode → UInt32
  | .int32 .. => 8
  | .buf _ s => 8 + UInt32.ofNat s.len

/-- `hm_param_pack_get_whole_length_` -/
def hmParamPackGetWholeLength (pack : HmParamPack) : UInt32 :=
  match pack.wholeData with
  | some data => UInt32.ofNat data.length
  | none => pack.nodes.foldl (fun length node => length + node.wholeLength) 4

/-- What is written or sent for a node, piece by piece: all buffers are encoded as
`HM_PARAM_TYPE_BUFFER`. -/
def HmParamPackNode.pieces : HmParamPackNode → List Bytes
  | .int32 v _ => [le32 HmParamType.int32.tag, le32 v.toUInt32]
  | .buf _ s => [le32 (HmParamType.buf .buffer).tag, le32 (UInt32.ofNat s.len), s.bytes]

/-- What is written or sent for a pack, after its length. -/
def HmParamPack.pieces (pack : HmParamPack) : List Bytes :=
  le32 (UInt32.ofNat pack.nodes.length) :: pack.nodes.flatMap HmParamPackNode.pieces

/-- `memcpy` of bytes to a place in a buffer: no result when it writes beyond its end. -/
def memcpy (mem : Bytes) (pos : ℕ) (src : Bytes) : Option Bytes :=
  if pos + src.length ≤ mem.length then
    some (mem.take pos ++ src ++ mem.drop (pos + src.length))
  else none

theorem memcpy_length {mem src mem' : Bytes} {pos : ℕ} (h : memcpy mem pos src = some mem') :
    pos + src.length ≤ mem.length ∧ mem'.length = mem.length := by
  rw [memcpy] at h
  split_ifs at h with hin
  cases h
  refine ⟨hin, ?_⟩
  simp only [List.length_append, List.length_take, List.length_drop]
  omega

/-- The loop of `hm_param_pack_write`: the pieces, one after the other, from a position on.
The position behind them is given back. -/
def hmParamPackWritePieces : List Bytes → Bytes → ℕ → Option (Bytes × ℕ)
  | [], buffer, pos => some (buffer, pos)
  | piece :: pieces, buffer, pos =>
    (memcpy buffer pos piece).bind fun buffer =>
      hmParamPackWritePieces pieces buffer (pos + piece.length)

/-- `hm_param_pack_write`: the status, the buffer and the `buffer_length` it leaves. -/
def hmParamPackWrite (pack : HmParamPack) (buffer : Bytes) :
    Option (HermesStatus × Bytes × ℕ) :=
  if pack.nodes = [] ∨ hmParamPackGetWholeLength pack = 0 then
    some (hmInvalidParameter, buffer, buffer.length)
  else if buffer.length < (hmParamPackGetWholeLength pack).toNat then
    some (hmBufferTooSmall, buffer, (hmParamPackGetWholeLength pack).toNat)
  else
    (hmParamPackWritePieces pack.pieces buffer 0).map fun p => (hmSuccess, p.1, p.2)

/-- Sends of the pieces, one after the other, until one fails. -/
def transportSendAll : List Bytes → Rpc (Reply Unit)
  | [] => .ret (.ok ())
  | piece :: pieces => do
    match ← transportSend piece with
    | .error e => return .error e
    | .ok _ => transportSendAll pieces

/-- `hm_param_pack_send` -/
def hmParamPackSend (pack : HmParamPack) : Rpc (Reply Unit) :=
  if pack.nodes = [] ∨ hmParamPackGetWholeLength pack = 0 then .ret (.error .invalidParameter)
  else transportSendAll (le32 (hmParamPackGetWholeLength pack) :: pack.pieces)

/-! ### Decoding -/

/-- `*((uint32_t*)p)`, for a pointer into a buffer: no result when it reads beyond its
end. -/
def load32 (buffer : Bytes) (off : ℕ) : Option UInt32 :=
  if off + 4 ≤ buffer.length then some (ofLe32 ((buffer.drop off).take 4)) else none

/-- The loop of `hm_param_pack_check_buf_`, from an offset on. -/
def hmParamPackCheckParams (buffer : Bytes) : ℕ → ℕ → Option Bool
  | 0, _ => some true
  | paramCount + 1, off =>
    if buffer.length < off + 4 then some false
    else do
      match HmParamType.ofTag (← load32 buffer off) with
      | none => return false
      | some .int32 =>
        if buffer.length < off + 4 + 4 then return false
        else hmParamPackCheckParams buffer paramCount (off + 4 + 4)
      | some (.buf _) =>
        if buffer.length < off + 4 + 4 then return false
        else
          let bufLength ← load32 buffer (off + 4)
          if buffer.length < off + 4 + 4 + bufLength.toNat then return false
          else hmParamPackCheckParams buffer paramCount (off + 4 + 4 + bufLength.toNat)

/-- `hm_param_pack_check_buf_` -/
def hmParamPackCheckBuf (buffer : Bytes) : Option Bool :=
  if buffer.length < 4 then some false
  else do
    let paramCount ← load32 buffer 0
    hmParamPackCheckParams buffer paramCount.toNat 4

/-- The loop of `hm_param_pack_read`, from an offset on. Nothing is checked in it: there is
no result for a window that is not in the buffer, nor for a tag that is not one of the
types. -/
def hmParamPackReadParams (buffer : Bytes) : ℕ → ℕ → Option (List HmParamPackNode)
  | 0, _ => some []
  | paramCount + 1, off => do
    match HmParamType.ofTag (← load32 buffer off) with
    | none => none
    | some .int32 =>
      let intVal ← load32 buffer (off + 4)
      let nodes ← hmParamPackReadParams buffer paramCount (off + 4 + 4)
      return .int32 intVal.toInt32 4 :: nodes
    | some (.buf t) =>
      let dataLength ← load32 buffer (off + 4)
      if h : off + 4 + 4 + dataLength.toNat ≤ buffer.length then
        let nodes ← hmParamPackReadParams buffer paramCount (off + 4 + 4 + dataLength.toNat)
        return .buf t ⟨buffer, off + 4 + 4, dataLength.toNat, h⟩ :: nodes
      else none

/-- `hm_param_pack_read`: no pack for a buffer that is refused, and no result at all when
memory is accessed out of bounds. -/
def hmParamPackRead (buffer : Bytes) : Option (Option HmParamPack) := do
  if ← hmParamPackCheckBuf buffer then
    let paramCount ← load32 buffer 0
    if hmParamPackMaxParams < paramCount.toNat then return none
    else
      let nodes ← hmParamPackReadParams buffer paramCount.toNat 4
      if h : nodes.length ≤ hmParamPackMaxParams then return some ⟨nodes, h, some buffer⟩
      else none
  else return none

/-- `hm_param_pack_receive` -/
def hmParamPackReceive : Rpc (Option HmParamPack) := do
  match ← transportRecv 4 with
  | .error _ => return none
  | .ok lengthToRead =>
    match ← transportRecv (ofLe32 lengthToRead).toNat with
    | .error _ => return none
    | .ok buffer =>
      match hmParamPackRead buffer with
      | none => .stop .assertion
      | some pack => return pack

end Hermes

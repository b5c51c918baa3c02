import Mathlib.Algebra.Order.BigOperators.Group.List
import Hermes.Rpc.Format

/-!
# Packs survive the wire

The two encoders of parameter packs put out the same bytes, and the decoder reads from
them what was put in (`Hermes.param_pack_survives`). The bytes are those of the format
(`Hermes.HmParamPack.isPack_pieces`), with all buffers of one type, so what is proved about
the decoder for every byte string applies.

The encoder that sends does so piece by piece, the decoder receives a length and then all
of it at once: `Hermes.speaks_hmParamPackSend` and `Hermes.speaks_hmParamPackReceive` have
the same script.
-/

namespace Hermes

open Interleave Wire

/-! ### The bytes of a pack -/

/-- The parameter a node is encoded as. -/
def HmParamPackNode.sent : HmParamPackNode → WireParam
  | .int32 v _ => .int32 v.toUInt32
  | .buf _ s => .buf .buffer s.bytes

/-- How many bytes a node is encoded as. -/
def HmParamPackNode.encodedLength : HmParamPackNode → ℕ
  | .int32 .. => 8
  | .buf _ s => 8 + s.len

/-- How many bytes a pack is encoded as. -/
def HmParamPack.encodedLength (pack : HmParamPack) : ℕ :=
  4 + (pack.nodes.map HmParamPackNode.encodedLength).sum

/-- A pack that can be sent: it was made, not read, it has parameters, and its length fits
into the four bytes it has on the wire. -/
structure HmParamPack.Sendable (pack : HmParamPack) : Prop where
  nodes_ne_nil : pack.nodes ≠ []
  created : pack.wholeData = none
  length_lt : pack.encodedLength < 2 ^ 32

@[simp] theorem HmParamPackNode.flatten_pieces (node : HmParamPackNode) :
    node.pieces.flatten = node.sent.encode := by
  cases node with
  | int32 v l => simp [pieces, sent, WireParam.encode, WireParam.type, WireParam.body]
  | buf t s => simp [pieces, sent, WireParam.encode, WireParam.type, WireParam.body]

@[simp] theorem HmParamPackNode.length_encode (node : HmParamPackNode) :
    node.sent.encode.length = node.encodedLength := by
  cases node with
  | int32 v l => simp [sent, WireParam.encode, WireParam.body, encodedLength]
  | buf t s =>
    simp only [sent, WireParam.encode, WireParam.body, encodedLength, List.length_append,
      length_le32, Window.length_bytes]
    omega

variable {pack : HmParamPack}

theorem HmParamPack.flatten_pieces (pack : HmParamPack) :
    pack.pieces.flatten = le32 (UInt32.ofNat (pack.nodes.map HmParamPackNode.sent).length) ++
      (pack.nodes.map HmParamPackNode.sent).flatMap WireParam.encode := by
  have hnodes : ∀ nodes : List HmParamPackNode, (nodes.flatMap HmParamPackNode.pieces).flatten =
      (nodes.map HmParamPackNode.sent).flatMap WireParam.encode := by
    intro nodes
    induction nodes with
    | nil => rfl
    | cons node nodes ih =>
      rw [List.flatMap_cons, List.flatten_append, ih, node.flatten_pieces, List.map_cons,
        List.flatMap_cons]
  rw [HmParamPack.pieces, List.flatten_cons, hnodes, List.length_map]

theorem HmParamPack.length_pieces (pack : HmParamPack) :
    pack.pieces.flatten.length = pack.encodedLength := by
  rw [flatten_pieces, encodedLength, List.length_append, length_le32, List.length_flatMap,
    List.map_map]
  congr 2
  exact List.map_congr_left fun node _ => node.length_encode

/-- **The bytes of a pack are a pack**, whatever follows. -/
theorem HmParamPack.Sendable.isPack (h : pack.Sendable) (more : Bytes) :
    IsPack (pack.pieces.flatten ++ more) (pack.nodes.map HmParamPackNode.sent) := by
  refine ⟨by rw [List.length_map]; exact pack.count_le, ?_, ?_⟩
  · intro p hp
    obtain ⟨node, hnode, rfl⟩ := List.mem_map.mp hp
    have hle : node.encodedLength ≤ (pack.nodes.map HmParamPackNode.encodedLength).sum :=
      List.single_le_sum (by simp) _ (List.mem_map_of_mem hnode)
    have hlt := h.length_lt
    rw [HmParamPack.encodedLength] at hlt
    cases node with
    | int32 v l => trivial
    | buf t s =>
      rw [HmParamPackNode.encodedLength] at hle
      rw [HmParamPackNode.sent, WireParam.Fits, Window.length_bytes]
      omega
  · rw [HmParamPack.flatten_pieces, List.append_assoc]
    exact ⟨more, by simp⟩

theorem HmParamPackNode.toNat_wholeLength (node : HmParamPackNode) :
    node.wholeLength.toNat = node.encodedLength % 2 ^ 32 := by
  cases node with
  | int32 v l => rfl
  | buf t s =>
    have hlow : s.len % 2 ^ 32 < 2 ^ 32 := Nat.mod_lt _ (by decide)
    simp only [wholeLength, encodedLength, UInt32.toNat_add, UInt32.toNat_ofNat',
      UInt32.reduceToNat]
    omega

/-- The loop of `hm_param_pack_get_whole_length_` adds up, modulo `2 ^ 32`. -/
theorem toNat_foldl_wholeLength (nodes : List HmParamPackNode) (length : UInt32) :
    (nodes.foldl (fun length node => length + node.wholeLength) length).toNat =
      (length.toNat + (nodes.map HmParamPackNode.encodedLength).sum) % 2 ^ 32 := by
  induction nodes generalizing length with
  | nil =>
    have hlt : length.toNat < 2 ^ 32 := length.toNat_lt
    rw [List.foldl_nil, List.map_nil, List.sum_nil, Nat.add_zero, Nat.mod_eq_of_lt hlt]
  | cons node nodes ih =>
    rw [List.foldl_cons, ih, UInt32.toNat_add, node.toNat_wholeLength, List.map_cons,
      List.sum_cons]
    omega

/-- **The length that is computed** is that of what is put out, modulo `2 ^ 32`. -/
theorem HmParamPack.toNat_getWholeLength (h : pack.wholeData = none) :
    (hmParamPackGetWholeLength pack).toNat = pack.encodedLength % 2 ^ 32 := by
  rw [hmParamPackGetWholeLength, h]
  exact toNat_foldl_wholeLength pack.nodes 4

/-- **The length that is computed is the length of what is put out.** -/
theorem HmParamPack.Sendable.getWholeLength (h : pack.Sendable) :
    (hmParamPackGetWholeLength pack).toNat = pack.encodedLength := by
  rw [HmParamPack.toNat_getWholeLength h.created, Nat.mod_eq_of_lt h.length_lt]

theorem HmParamPack.Sendable.getWholeLength_ne_zero (h : pack.Sendable) :
    ¬(pack.nodes = [] ∨ hmParamPackGetWholeLength pack = 0) := by
  rintro (hc | hc)
  · exact h.nodes_ne_nil hc
  · have hlen := h.getWholeLength
    rw [hc, HmParamPack.encodedLength, UInt32.toNat_zero] at hlen
    omega

/-- The length of the pack, and its pieces. -/
def HmParamPack.frames (pack : HmParamPack) : List Bytes :=
  le32 (UInt32.ofNat pack.encodedLength) :: pack.pieces

theorem HmParamPack.Sendable.le32_getWholeLength (h : pack.Sendable) :
    le32 (hmParamPackGetWholeLength pack) = le32 (UInt32.ofNat pack.encodedLength) := by
  rw [← h.getWholeLength, UInt32.ofNat_toNat]

/-- **What arrives when a pack is sent**: what the decoder makes of its bytes. -/
def HmParamPack.delivered (pack : HmParamPack) : HmParamPack :=
  ((hmParamPackRead pack.pieces.flatten).getD none).getD pack

theorem HmParamPack.Sendable.exists_read (h : pack.Sendable) :
    ∃ received, hmParamPackRead pack.pieces.flatten = some (some received) ∧
      received.Decodes pack.pieces.flatten (pack.nodes.map HmParamPackNode.sent) := by
  have hpack := h.isPack []
  rw [List.append_nil] at hpack
  exact hmParamPackRead_of_isPack hpack

theorem HmParamPack.Sendable.read_pieces (h : pack.Sendable) :
    hmParamPackRead pack.pieces.flatten = some (some pack.delivered) := by
  obtain ⟨received, hread, -⟩ := h.exists_read
  rw [HmParamPack.delivered, hread]
  rfl

/-- It has the parameters that were sent. -/
theorem HmParamPack.Sendable.decodes_delivered (h : pack.Sendable) :
    pack.delivered.Decodes pack.pieces.flatten (pack.nodes.map HmParamPackNode.sent) := by
  obtain ⟨received, hread, hdec⟩ := h.exists_read
  obtain rfl := Option.some.inj (Option.some.inj (h.read_pieces.symm.trans hread))
  exact hdec

/-- The pack of one integer. -/
def onePack : HmParamPack := ⟨[.int32 5 0], by decide, none⟩

theorem sendable_onePack : onePack.Sendable := ⟨List.cons_ne_nil _ _, rfl, by decide⟩

/-! ### Sending and receiving -/

section Transport

variable {d : Side} (tr : Script UInt8)

/-- What was sent in one piece can be received in one. -/
theorem speaks_transportRecv {piece : Bytes} {n : ℕ} (h : piece.length = n) :
    Speaks d (transportRecv n) ((d.other, piece) :: tr) (.ok piece) tr := by
  have hrecv : Speaks d (transportRecv n) ([piece].map (Prod.mk d.other) ++ tr)
      (.ok [piece].flatten) tr :=
    .recv (List.cons_ne_nil piece []) (by simpa using h) .ret
  simpa using hrecv

theorem speaks_transportSendAll (pieces : List Bytes) :
    Speaks d (transportSendAll pieces) (pieces.map (Prod.mk d) ++ tr) (.ok ()) tr := by
  induction pieces with
  | nil => exact .ret
  | cons piece pieces ih => exact .send ih

/-- What `hm_param_pack_send` sends. -/
theorem speaks_hmParamPackSend (h : pack.Sendable) :
    Speaks d (hmParamPackSend pack) (pack.frames.map (Prod.mk d) ++ tr) (.ok ()) tr := by
  rw [hmParamPackSend, if_neg h.getWholeLength_ne_zero, h.le32_getWholeLength]
  exact speaks_transportSendAll tr pack.frames

/-- What `hm_param_pack_receive` receives: the length, and then all pieces at once. -/
theorem speaks_hmParamPackReceive (h : pack.Sendable) :
    Speaks d hmParamPackReceive (pack.frames.map (Prod.mk d.other) ++ tr)
      (some pack.delivered) tr := by
  have hlen : pack.pieces.flatten.length =
      (ofLe32 (le32 (UInt32.ofNat pack.encodedLength))).toNat := by
    rw [ofLe32_le32, pack.length_pieces, UInt32.toNat_ofNat']
    exact (Nat.mod_eq_of_lt h.length_lt).symm
  have hpieces : pack.pieces ≠ [] := by simp [HmParamPack.pieces]
  -- The length comes alone, and then everything else at once.
  refine (speaks_transportRecv _ (length_le32 (UInt32.ofNat pack.encodedLength))).bind ?_
  simp only [transportRecv, Prog.req_bind, Prog.ret_bind]
  refine Speaks.recv hpieces hlen ?_
  simp only [h.read_pieces]
  exact .ret

end Transport

/-! ### Writing to memory -/

/-- Pieces written one after the other are written where the first one begins. -/
theorem hmParamPackWritePieces_eq (pieces : List Bytes) {buffer : Bytes} {pos : ℕ}
    (h : pos + pieces.flatten.length ≤ buffer.length) :
    hmParamPackWritePieces pieces buffer pos =
      some (buffer.take pos ++ pieces.flatten ++ buffer.drop (pos + pieces.flatten.length),
        pos + pieces.flatten.length) := by
  induction pieces generalizing buffer pos with
  | nil => simp [hmParamPackWritePieces]
  | cons piece pieces ih =>
    rw [List.flatten_cons, List.length_append] at h ⊢
    have hpiece : pos + piece.length ≤ buffer.length := by omega
    have hpos : (buffer.take pos ++ piece).length = pos + piece.length := by
      rw [List.length_append, List.length_take]
      omega
    have hrest : pos + piece.length + pieces.flatten.length ≤
        (buffer.take pos ++ piece ++ buffer.drop (pos + piece.length)).length := by
      rw [List.length_append, hpos, List.length_drop]
      omega
    have hdrop : (buffer.take pos ++ piece ++ buffer.drop (pos + piece.length)).drop
        (pos + piece.length + pieces.flatten.length) =
          buffer.drop (pos + piece.length + pieces.flatten.length) := by
      rw [List.drop_append, hpos, List.drop_drop,
        List.drop_eq_nil_of_le (by omega : _ ≤ pos + piece.length + pieces.flatten.length)]
      simp
    have htake : (buffer.take pos ++ piece ++ buffer.drop (pos + piece.length)).take
        (pos + piece.length) = buffer.take pos ++ piece := by
      rw [← hpos, List.take_left]
    rw [hmParamPackWritePieces, memcpy, if_pos hpiece, Option.bind_some, ih hrest, htake, hdrop,
      Nat.add_assoc, List.append_assoc (buffer.take pos) piece]

/-- What `hm_param_pack_write` writes into a buffer that is large enough. -/
theorem HmParamPack.Sendable.write (h : pack.Sendable) {buffer : Bytes}
    (hroom : pack.encodedLength ≤ buffer.length) :
    hmParamPackWrite pack buffer = some (hmSuccess,
      pack.pieces.flatten ++ buffer.drop pack.encodedLength, pack.encodedLength) := by
  have hlen := pack.length_pieces
  have hwrite : hmParamPackWritePieces pack.pieces buffer 0 = _ :=
    hmParamPackWritePieces_eq pack.pieces (by omega)
  rw [hmParamPackWrite, if_neg h.getWholeLength_ne_zero, h.getWholeLength,
    if_neg (not_lt.mpr hroom), hwrite]
  simp [hlen]

/-! ### The parameters of a call -/

/-- What an argument of `HM_PARAM_PACK` is taken out as. -/
def HmParam.kind : HmParam → HmKind
  | .int32 _ => .int32
  | .buffer _ => .buffer
  | .bufferC _ => .buffer

/-- The value of an argument. -/
def HmParam.value : HmParam → HmValue
  | .int32 p => .int32 p
  | .buffer p => .buffer p
  | .bufferC p => .buffer p

/-- How many bytes an argument is encoded as. -/
def HmParam.encodedLength (p : HmParam) : ℕ := p.node.encodedLength

/-- The value of a parameter on the wire. -/
def WireParam.value : WireParam → HmValue
  | .int32 v => .int32 v.toInt32
  | .buf _ b => .buffer b

@[simp] theorem HmParamPackNode.type_wire (node : HmParamPackNode) :
    node.wire.type = node.type := by
  cases node <;> rfl

@[simp] theorem HmParamPackNode.value_wire (node : HmParamPackNode) :
    node.wire.value = node.value := by
  cases node <;> rfl

@[simp] theorem HmParam.type_sent (p : HmParam) : p.node.sent.type = p.kind.type := by
  cases p <;> rfl

@[simp] theorem HmParam.value_sent (p : HmParam) : p.node.sent.value = p.value := by
  cases p with
  | int32 v => rfl
  | buffer b => exact congrArg HmValue.buffer (Window.bytes_whole b)
  | bufferC b => exact congrArg HmValue.buffer (Window.bytes_whole b)

/-- **Taking the parameters out again**: as the kinds they were put in as, except that all
buffers have become `HM_PARAM_BUFFER`s. -/
theorem extractNodes_of_wire {params : List HmParam} {nodes : List HmParamPackNode}
    (h : nodes.map HmParamPackNode.wire = params.map fun p => p.node.sent) :
    hmParamPackExtractNodes (params.map HmParam.kind) nodes = .ok (params.map HmParam.value) := by
  induction params generalizing nodes with
  | nil => rfl
  | cons p params ih =>
    obtain _ | ⟨node, nodes⟩ := nodes
    · simp at h
    · rw [List.map_cons, List.map_cons] at h
      obtain ⟨hnode, h⟩ := List.cons.inj h
      have htype : p.kind.type = node.type := by rw [← node.type_wire, hnode, p.type_sent]
      have hvalue : node.value = p.value := by rw [← node.value_wire, hnode, p.value_sent]
      rw [List.map_cons, List.map_cons, hmParamPackExtractNodes, if_pos htype, ih h, hvalue]
      rfl

/-- The pack of some arguments. -/
theorem exists_create {params : List HmParam} (hne : params ≠ [])
    (hmax : params.length ≤ hmParamPackMaxParams)
    (hlen : 4 + (params.map HmParam.encodedLength).sum < 2 ^ 32) :
    ∃ pack, hmParamPackCreate params = some pack ∧ pack.nodes = params.map HmParam.node ∧
      pack.Sendable ∧ pack.encodedLength = 4 + (params.map HmParam.encodedLength).sum := by
  have hsum : ((params.map HmParam.node).map HmParamPackNode.encodedLength).sum =
      (params.map HmParam.encodedLength).sum := by
    rw [List.map_map]
    rfl
  refine ⟨_, dif_pos hmax, rfl, ⟨by simpa using hne, rfl, ?_⟩, ?_⟩
  · rw [HmParamPack.encodedLength, hsum]
    exact hlen
  · rw [HmParamPack.encodedLength, hsum]

/-- The parameters of a pack that was delivered. -/
theorem extract_delivered {params : List HmParam} {pack : HmParamPack} (h : pack.Sendable)
    (hnodes : pack.nodes = params.map HmParam.node) :
    hmParamPackExtract pack.delivered (params.map HmParam.kind) =
      .ok (params.map HmParam.value) := by
  refine extractNodes_of_wire ?_
  rw [h.decodes_delivered.1, hnodes, List.map_map]
  rfl

/-- **Parameter packs survive the wire, and the two encoders agree.** For any 1 to 20
parameters that fit, there are bytes such that sending the pack puts out their length and
them, writing it puts the same bytes into any buffer with room for them, and from a stream
of their length, them and whatever follows a pack is received that gives the same
parameters back; what follows is left. -/
theorem param_pack_survives {params : List HmParam} (hne : params ≠ [])
    (hmax : params.length ≤ hmParamPackMaxParams)
    (hlen : 4 + (params.map HmParam.encodedLength).sum < 2 ^ 32) :
    ∃ pack body, hmParamPackCreate params = some pack ∧
      body.length = 4 + (params.map HmParam.encodedLength).sum ∧
      (∀ e s, (hmParamPackSend pack).run (Pipe.answer e) s =
        (.ok (.ok ()), ⟨s.inbox, s.outbox ++ (le32 (UInt32.ofNat body.length) ++ body)⟩)) ∧
      (∀ buffer, body.length ≤ buffer.length → hmParamPackWrite pack buffer =
        some (hmSuccess, body ++ buffer.drop body.length, body.length)) ∧
      ∀ e more out, ∃ received, hmParamPackReceive.run (Pipe.answer e)
          ⟨le32 (UInt32.ofNat body.length) ++ body ++ more, out⟩ =
            (.ok (some received), ⟨more, out⟩) ∧
        hmParamPackExtract received (params.map HmParam.kind) =
          .ok (params.map HmParam.value) := by
  obtain ⟨pack, hcreate, hnodes, hsend, hlength⟩ := exists_create hne hmax hlen
  have hbody : pack.pieces.flatten.length = pack.encodedLength := pack.length_pieces
  refine ⟨pack, pack.pieces.flatten, hcreate, hbody.trans hlength, ?_, ?_, ?_⟩
  · intro e s
    have hspeaks : Speaks .left (hmParamPackSend pack) (pack.frames.map (Prod.mk .left)) (.ok ())
        [] := by
      simpa using speaks_hmParamPackSend (d := .left) [] hsend
    have hrun := hspeaks.run e s.inbox s.outbox
    rwa [said_map_self, said_map_of_ne (by decide), List.nil_append, HmParamPack.frames,
      List.flatten_cons, ← hbody] at hrun
  · intro buffer hroom
    rw [hbody] at hroom ⊢
    exact hsend.write hroom
  · intro e more out
    refine ⟨pack.delivered, ?_, extract_delivered hsend hnodes⟩
    have hspeaks : Speaks .left hmParamPackReceive (pack.frames.map (Prod.mk .right))
        (some pack.delivered) [] := by
      simpa using speaks_hmParamPackReceive (d := .left) [] hsend
    have hrun := hspeaks.run e more out
    rwa [Side.other_left, said_map_self, said_map_of_ne (by decide), List.append_nil,
      HmParamPack.frames, List.flatten_cons, ← hbody] at hrun

/-- An integer, an empty buffer and a buffer of three bytes. -/
theorem param_pack_survives_mixed :
    ∃ pack body, hmParamPackCreate [.int32 (-1), .buffer [], .bufferC [1, 2, 3]] = some pack ∧
      body.length = 31 ∧
      (∀ e s, (hmParamPackSend pack).run (Pipe.answer e) s =
        (.ok (.ok ()), ⟨s.inbox, s.outbox ++ (le32 (UInt32.ofNat body.length) ++ body)⟩)) ∧
      (∀ buffer, body.length ≤ buffer.length → hmParamPackWrite pack buffer =
        some (hmSuccess, body ++ buffer.drop body.length, body.length)) ∧
      ∀ e more out, ∃ received, hmParamPackReceive.run (Pipe.answer e)
          ⟨le32 (UInt32.ofNat body.length) ++ body ++ more, out⟩ =
            (.ok (some received), ⟨more, out⟩) ∧
        hmParamPackExtract received [.int32, .buffer, .buffer] =
          .ok [.int32 (-1), .buffer [], .buffer [1, 2, 3]] :=
  param_pack_survives (by decide) (by decide) (by decide)

end Hermes

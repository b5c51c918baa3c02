import Hermes.Rpc.Exchange

/-!
# Calls over a transport that keeps messages

A transport such as the secure one delivers what was sent string by string, and refuses to
receive a part of a string. A pack is sent in pieces and received at once, so what is asked
for at one end is not what was sent at the other; but it is what was sent, grouped, when both
programs have returned (`Hermes.rpc_never_splits`).

This is so for strings that are not empty: an empty string makes a message that no one asks
for, which is why the parameters may not be empty.
-/

namespace Hermes

open Interleave Wire

variable {σ : Type}

/-- No parameter of a pack is an empty buffer. -/
def HmParamPack.NonEmpty (pack : HmParamPack) : Prop :=
  ∀ node ∈ pack.nodes, node.value ≠ .buffer []

theorem le32_ne_nil (x : UInt32) : le32 x ≠ [] := by
  intro hc
  have hlen := length_le32 x
  rw [hc] at hlen
  cases hlen

theorem HmParamPackNode.pieces_ne_nil {node : HmParamPackNode} (h : node.value ≠ .buffer []) :
    ∀ f ∈ node.pieces, f ≠ [] := by
  cases node with
  | int32 v l => simp [HmParamPackNode.pieces, le32_ne_nil]
  | buf t s =>
    have hbytes : s.bytes ≠ [] := fun hc => h (congrArg HmValue.buffer hc)
    simp [HmParamPackNode.pieces, le32_ne_nil, hbytes]

theorem HmParamPack.frames_ne_nil {pack : HmParamPack} (h : pack.NonEmpty) :
    ∀ f ∈ pack.frames, f ≠ [] := by
  intro f hf
  rw [HmParamPack.frames, HmParamPack.pieces, List.mem_cons, List.mem_cons, List.mem_flatMap] at hf
  rcases hf with rfl | rfl | ⟨node, hnode, hf⟩
  · exact le32_ne_nil _
  · exact le32_ne_nil _
  · exact node.pieces_ne_nil (h node hnode) f hf

/-- The strings of a call. -/
theorem RpcCall.script_ne_nil {call : RpcCall} {outcome : Reply (Option HmParamPack)}
    (hname : call.funcName ≠ []) (hin : call.inParams.NonEmpty)
    (hout : ∀ outPack, outcome = .ok (some outPack) → outPack.NonEmpty) :
    ∀ f ∈ call.script outcome, f.2 ≠ [] := by
  have hframes : ∀ f ∈ call.frames, f ≠ [] := by
    intro f hf
    rw [RpcCall.frames, List.mem_cons, List.mem_cons] at hf
    rcases hf with rfl | rfl | hf
    · exact le32_ne_nil _
    · exact hname
    · exact HmParamPack.frames_ne_nil hin f hf
  have hanswer : ∀ f ∈ answerFrames outcome, f ≠ [] := by
    rcases outcome with error | (_ | outPack)
    · simpa [answerFrames] using le32_ne_nil error.1
    · simpa [answerFrames] using le32_ne_nil hmSuccess
    · have hpack := HmParamPack.frames_ne_nil (hout outPack rfl)
      simpa [answerFrames, le32_ne_nil] using hpack
  intro f hf
  rcases List.mem_append.mp hf with hf | hf <;> obtain ⟨g, hg, rfl⟩ := List.mem_map.mp hf
  · exact hframes g hg
  · exact hanswer g hg

/-- **A call that is over and has split no string.** The client has returned the result that
belongs to the outcome of the handler, the server has returned with its state, and nothing is
under way; at either end the lengths asked for are the lengths sent at the other one, grouped;
and nothing that was asked for was refused. -/
structure Unsplit {γ : Type} (call : RpcCall) (outcome : Reply (Option HmParamPack)) (s' : σ)
    (c : Duplex (Party UInt8 Failure (Option RpcResult))
      (Party UInt8 Failure (Option (Reply Unit × σ))) γ) : Prop where
  client : c.left.doing = .rest (some (rpcResult outcome))
  server : c.right.doing = .rest (some (.ok (), s'))
  toServer : c.toRight = []
  toClient : c.toLeft = []
  clientSent : sentLengths c.left.log = call.frames.map List.length
  serverSent : sentLengths c.right.log = (answerFrames outcome).map List.length
  request : Grouped (sentLengths c.left.log) (askedLengths c.right.log)
  answer : Grouped (sentLengths c.right.log) (askedLengths c.left.log)
  clientUnrefused : Unrefused c.left.log
  serverUnrefused : Unrefused c.right.log

/-- **A call never splits a string**, over a given carrier and in every interleaving: it
comes to an end, and has split no string there. -/
def NeverSplits {γ : Type} (C : Carrier UInt8 Failure γ) (server : HmRpcServer σ)
    (func : HmServerFunc σ) (call : RpcCall) (s : σ) : Prop :=
  EndsIn C (hmRpcClientSyncCall call.funcName call.inParams call.wantsOut)
    (hmRpcServerCall server s)
    (Unsplit call (func call.inParams.delivered s).1 (func call.inParams.delivered s).2)

/-- The strings that one end of a call sends. -/
theorem RpcCall.filter_script (call : RpcCall) (outcome : Reply (Option HmParamPack)) (d : Side) :
    (((call.script outcome).filter fun f => f.1 = d).map fun f => f.2.length) =
      match d with
      | .left => call.frames.map List.length
      | .right => (answerFrames outcome).map List.length := by
  cases d <;> simp [RpcCall.script, List.filter_map, Function.comp_def]

theorem RpcCall.Fits.neverSplits {γ : Type} {C : Carrier UInt8 Failure γ}
    (hC : C.Conveys fun f => f ≠ []) {server : HmRpcServer σ} {func : HmServerFunc σ}
    {call : RpcCall} {s : σ}
    (hget : hmHashTableGet server.funcTable call.funcName = some (.ok func))
    (h : call.Fits (func call.inParams.delivered s).1)
    (hclean : ∀ f ∈ call.script (func call.inParams.delivered s).1, f.2 ≠ []) :
    NeverSplits C server func call s := by
  have hclient := h.speaks_one_client
  have hserver := h.speaks_one_server hget
  refine (hclient.endsIn hC hclean (List.cons_ne_nil _ _) hserver).mono fun c hc => ?_
  have hright := hc.rightLog.grouped
  have hleft := hc.leftLog.grouped
  rw [Side.other_right, ← hc.leftLog.sentLengths] at hright
  rw [Side.other_left, ← hc.rightLog.sentLengths] at hleft
  exact { client := hc.left
          server := hc.right
          toServer := hc.toRight
          toClient := hc.toLeft
          clientSent := hc.leftLog.sentLengths.trans (call.filter_script _ .left)
          serverSent := hc.rightLog.sentLengths.trans (call.filter_script _ .right)
          request := hright
          answer := hleft
          clientUnrefused := hc.leftLog.unrefused
          serverUnrefused := hc.rightLog.unrefused }

/-- A stream conveys the strings that are not empty, too. -/
theorem conveys_stream_ne_nil :
    (Carrier.stream UInt8 Failure).Conveys fun f => f ≠ [] where
  takes hfs _ := Carrier.conveys_stream.takes hfs fun _ _ => trivial
  eq_of_takes hfs _ := Carrier.conveys_stream.eq_of_takes hfs fun _ _ => trivial
  ne_nil := Carrier.conveys_stream.ne_nil

/-- **A call of a registered function never splits a string** that was sent, if its
parameters and those of the result are not empty: not over a stream, and not over a
transport that keeps messages and refuses to receive a part of one. Both programs return, so
no string is asked for in vain either. -/
theorem rpc_never_splits {server : HmRpcServer σ} {func : HmServerFunc σ} {call : RpcCall} {s : σ}
    (hget : hmHashTableGet server.funcTable call.funcName = some (.ok func))
    (h : call.Fits (func call.inParams.delivered s).1) (hin : call.inParams.NonEmpty)
    (hout : ∀ outPack, (func call.inParams.delivered s).1 = .ok (some outPack) →
      outPack.NonEmpty) :
    NeverSplits (Carrier.stream UInt8 Failure) server func call s ∧
      NeverSplits (Carrier.messages UInt8 Failure.fail) server func call s := by
  have hclean := RpcCall.script_ne_nil h.name_ne_nil hin hout
  exact ⟨h.neverSplits conveys_stream_ne_nil hget hclean,
    h.neverSplits (Carrier.conveys_messages _) hget hclean⟩

/-- A function whose result is a pack of one integer. -/
def funcF : HmServerFunc Unit := fun _ s => (.ok (some onePack), s)

/-- A server with this function, `f`. -/
def serverF : HmRpcServer Unit :=
  ⟨⟨Function.update (fun _ => []) (hmHash [102]) [⟨[102], funcF⟩]⟩⟩

theorem rpc_never_splits_f :
    NeverSplits (Carrier.stream UInt8 Failure) serverF funcF ⟨[102], onePack, true⟩ () ∧
      NeverSplits (Carrier.messages UInt8 Failure.fail) serverF funcF ⟨[102], onePack, true⟩
        () := by
  have hfits : RpcCall.Fits ⟨[102], onePack, true⟩ (.ok (some onePack)) :=
    { name_ne_nil := List.cons_ne_nil _ _
      name_lt := by decide
      inParams := sendable_onePack
      wants := by rintro _ ⟨⟩; rfl
      outParams := by rintro _ ⟨⟩; exact sendable_onePack }
  have hne : onePack.NonEmpty := by
    simp [HmParamPack.NonEmpty, onePack, HmParamPackNode.value]
  have hget : hmHashTableGet serverF.funcTable [102] = some (.ok funcF) := rfl
  exact rpc_never_splits hget hfits hne (by rintro _ ⟨⟩; exact hne)

end Hermes

import Hermes.Rpc.Call
import Hermes.Rpc.Encoding

/-!
# A call and its answer

The script of a remote procedure call: the client sends the length of the function's name,
the name and the parameter pack, and the server answers with a status and maybe a result.
Both ends talk by it (`Hermes.RpcCall.Fits.speaks_client`,
`Hermes.RpcCall.Fits.speaks_server`) when the call fits: the name and the packs have
lengths that fit into four bytes, and a result is asked for exactly when there is one.

A function is looked up in a table that is not always a finite map, so which signatures run
a handler is part of the matter (`Hermes.function_table_iff`).
-/

namespace Hermes

open Interleave Wire

variable {σ : Type}

/-! ### The script of a call -/

/-- What a client sends for a call. -/
def RpcCall.frames (call : RpcCall) : List Bytes :=
  le32 (UInt32.ofNat call.funcName.length) :: call.funcName :: call.inParams.frames

/-- What a server sends for the outcome of a handler. -/
def answerFrames : Reply (Option HmParamPack) → List Bytes
  | .error error => [le32 error.1]
  | .ok none => [le32 hmSuccess]
  | .ok (some outPack) => le32 hmSuccess :: outPack.frames

/-- The script of a call whose handler has the given outcome. -/
def RpcCall.script (call : RpcCall) (outcome : Reply (Option HmParamPack)) : Script UInt8 :=
  call.frames.map (Prod.mk .left) ++ (answerFrames outcome).map (Prod.mk .right)

/-- What a call returns whose handler has the given outcome. -/
def rpcResult : Reply (Option HmParamPack) → RpcResult
  | .error error => .ok (error.1, none)
  | .ok outPack => .ok (hmSuccess, outPack.map HmParamPack.delivered)

/-- A call and the outcome of its handler fit: what is sent has lengths that fit into four
bytes, and on success there is a result exactly when there is a place for it. -/
structure RpcCall.Fits (call : RpcCall) (outcome : Reply (Option HmParamPack)) : Prop where
  name_ne_nil : call.funcName ≠ []
  name_lt : call.funcName.length < 2 ^ 32
  inParams : call.inParams.Sendable
  wants : ∀ outPack, outcome = .ok outPack → outPack.isSome = call.wantsOut
  outParams : ∀ outPack, outcome = .ok (some outPack) → outPack.Sendable

section Speaks

variable {call : RpcCall} {outcome : Reply (Option HmParamPack)}

/-- What a server sends. -/
theorem speaks_answer (hout : ∀ outPack, outcome = .ok (some outPack) → outPack.Sendable)
    (userData : σ) (tr : Script UInt8) :
    Speaks .right (hmRpcServerAnswer (outcome, userData))
      ((answerFrames outcome).map (Prod.mk .right) ++ tr) (.ok (), userData) tr := by
  match outcome with
  | .error error => exact .send .ret
  | .ok none => exact .send .ret
  | .ok (some outPack) =>
    refine .send ?_
    exact (speaks_hmParamPackSend tr (hout outPack rfl)).bind .ret

/-- What a client receives. -/
theorem speaks_receive_answer (h : call.Fits outcome) (tr : Script UInt8) :
    Speaks .left (do
      match ← transportRecv 4 with
      | .error res => return .error res
      | .ok error =>
        if ofLe32 error = hmSuccess ∧ call.wantsOut then
          match ← hmParamPackReceive with
          | none => return .error .fail
          | some outParams => return .ok (ofLe32 error, some outParams)
        else return .ok (ofLe32 error, none))
      ((answerFrames outcome).map (Prod.mk .right) ++ tr) (rpcResult outcome) tr := by
  match outcome with
  | .error error =>
    refine (speaks_transportRecv _ (length_le32 error.1)).bind ?_
    simp only [ofLe32_le32, error.2, false_and, if_false]
    exact .ret
  | .ok none =>
    have hwants : call.wantsOut = false := (h.wants none rfl).symm
    refine (speaks_transportRecv _ (length_le32 hmSuccess)).bind ?_
    simp only [ofLe32_le32, hwants, Bool.false_eq_true, and_false, if_false]
    exact .ret
  | .ok (some outPack) =>
    have hwants : call.wantsOut = true := (h.wants (some outPack) rfl).symm
    refine (speaks_transportRecv _ (length_le32 hmSuccess)).bind ?_
    simp only [ofLe32_le32, hwants, and_self, if_true]
    exact (speaks_hmParamPackReceive tr (h.outParams outPack rfl)).bind .ret

/-- **A client talks by the script of its call**, and gets the result that belongs to it. -/
theorem RpcCall.Fits.speaks_client (h : call.Fits outcome) (tr : Script UInt8) :
    Speaks .left (hmRpcClientSyncCall call.funcName call.inParams call.wantsOut)
      (call.script outcome ++ tr) (rpcResult outcome) tr := by
  have hscript : call.script outcome ++ tr =
      (.left, le32 (UInt32.ofNat call.funcName.length)) :: (.left, call.funcName) ::
        (call.inParams.frames.map (Prod.mk .left) ++
          ((answerFrames outcome).map (Prod.mk .right) ++ tr)) := by
    simp [RpcCall.script, RpcCall.frames]
  rw [hscript, hmRpcClientSyncCall, if_neg h.name_ne_nil]
  refine .send (.send ?_)
  exact (speaks_hmParamPackSend _ h.inParams).bind (speaks_receive_answer h tr)

/-- A client that makes one call. -/
theorem RpcCall.Fits.speaks_one_client (h : call.Fits outcome) :
    Speaks .left (hmRpcClientSyncCall call.funcName call.inParams call.wantsOut)
      (call.script outcome) (rpcResult outcome) [] := by
  have hclient := h.speaks_client []
  rwa [List.append_nil] at hclient

/-- **A server talks by the script of a call** of a function that it finds. -/
theorem RpcCall.Fits.speaks_server {server : HmRpcServer σ} {func : HmServerFunc σ} {userData : σ}
    (hget : hmHashTableGet server.funcTable call.funcName = some (.ok func))
    (h : call.Fits (func call.inParams.delivered userData).1) (tr : Script UInt8) :
    Speaks .right (hmRpcServerCall server userData)
      (call.script (func call.inParams.delivered userData).1 ++ tr)
      (.ok (), (func call.inParams.delivered userData).2) tr := by
  have hscript : call.script (func call.inParams.delivered userData).1 ++ tr =
      (.left, le32 (UInt32.ofNat call.funcName.length)) :: (.left, call.funcName) ::
        (call.inParams.frames.map (Prod.mk .left) ++
          ((answerFrames (func call.inParams.delivered userData).1).map (Prod.mk .right) ++
            tr)) := by
    simp [RpcCall.script, RpcCall.frames]
  have hname : call.funcName.length =
      (ofLe32 (le32 (UInt32.ofNat call.funcName.length))).toNat := by
    rw [ofLe32_le32, UInt32.toNat_ofNat', Nat.mod_eq_of_lt h.name_lt]
  rw [hscript]
  refine (speaks_transportRecv _ (length_le32 (UInt32.ofNat call.funcName.length))).bind ?_
  refine (speaks_transportRecv _ hname).bind ?_
  simp only [hmRpcServerCallFunc, if_neg h.name_ne_nil, hget]
  refine (speaks_hmParamPackReceive _ h.inParams).bind ?_
  exact speaks_answer h.outParams _ tr

/-- A server that serves one call. -/
theorem RpcCall.Fits.speaks_one_server {server : HmRpcServer σ} {func : HmServerFunc σ}
    {userData : σ} (hget : hmHashTableGet server.funcTable call.funcName = some (.ok func))
    (h : call.Fits (func call.inParams.delivered userData).1) :
    Speaks .right (hmRpcServerCall server userData)
      (call.script (func call.inParams.delivered userData).1)
      (.ok (), (func call.inParams.delivered userData).2) [] := by
  have hserver := h.speaks_server hget []
  rwa [List.append_nil] at hserver

end Speaks

/-! ### Which signatures run a handler -/

/-- A server on which functions were registered, one after the other. -/
def rpcServerWith (regs : List (Bytes × HmServerFunc σ)) : Option (HmRpcServer σ) :=
  regs.foldlM (fun server reg => (hmRpcServerRegFunc server reg.1 reg.2).map Prod.snd)
    hmRpcServerCreate

theorem rpcServerWith_eq (regs : List (Bytes × HmServerFunc σ)) :
    rpcServerWith regs = (setAll regs).map HmRpcServer.mk := by
  have hfold : ∀ (regs : List (Bytes × HmServerFunc σ)) (table : HmHashTable (HmServerFunc σ)),
      regs.foldlM (fun server reg => (hmRpcServerRegFunc server reg.1 reg.2).map Prod.snd)
          (HmRpcServer.mk table) =
        (regs.foldlM (fun table s => (hmHashTableSet table s.1 s.2).map Prod.snd) table).map
          HmRpcServer.mk := by
    intro regs
    induction regs with
    | nil => intro table; rfl
    | cons reg regs ih =>
      intro table
      have hreg : (hmRpcServerRegFunc ⟨table⟩ reg.1 reg.2).map Prod.snd =
          ((hmHashTableSet table reg.1 reg.2).map Prod.snd).map HmRpcServer.mk := by
        by_cases h : reg.1 = []
        · simp [hmRpcServerRegFunc, hmHashTableSet, h]
        · simp [hmRpcServerRegFunc, h, Function.comp_def]
      rw [List.foldlM_cons, List.foldlM_cons, hreg]
      cases (hmHashTableSet table reg.1 reg.2).map Prod.snd with
      | none => rfl
      | some table' => exact ih table'
  exact hfold regs hmHashTableCreate

/-- A server finds the function that was registered first under a signature, if its table
is searched well. -/
theorem exists_rpcServerWith {regs : List (Bytes × HmServerFunc σ)} (hne : ∀ r ∈ regs, r.1 ≠ [])
    (h : EachAfter Searchable (regs.map Prod.fst)) :
    ∃ server, rpcServerWith regs = some server ∧
      ∀ k, k ≠ [] → Searchable (regs.map Prod.fst) k →
        hmHashTableGet server.funcTable k = some (lookupReply regs k) := by
  obtain ⟨table, hall, hrep⟩ := represents_setAll hne h
  exact ⟨⟨table⟩, by rw [rpcServerWith_eq, hall]; rfl, fun k hk hs => (hrep.get_iff hk).mpr hs⟩

/-- A server refuses a signature: it runs no handler, and answers `HM_FAIL`. -/
def HmRpcServer.Refuses (server : HmRpcServer σ) (funcSignature : Bytes) : Prop :=
  ∀ userData, hmRpcServerCallFunc server funcSignature userData = do
    let _ ← hmRpcServerSendError .fail
    return (.error .fail, userData)

theorem refuses_of_get {server : HmRpcServer σ} {k : Bytes} (hk : k ≠ [])
    (h : hmHashTableGet server.funcTable k = some (.error .fail)) : server.Refuses k := by
  intro userData
  rw [hmRpcServerCallFunc, if_neg hk, h]

/-- The function table is a finite map, and a server whose functions have these signatures
refuses all others. -/
def ServesExactly {V : Type} (sets : List (Bytes × V)) (k : Bytes) : Prop :=
  IsFiniteMap sets k ∧
    ∀ (σ : Type) (regs : List (Bytes × HmServerFunc σ)), regs.map Prod.fst = sets.map Prod.fst →
      k ∉ sets.map Prod.fst → ∃ server, rpcServerWith regs = some server ∧ server.Refuses k

/-- **When the function table is a finite map**: exactly when every key that is set or
looked up, in this order, is searchable among those set before. Then a handler runs only for
a signature that was registered. -/
theorem function_table_iff {V : Type} {sets : List (Bytes × V)} {k : Bytes}
    (hne : ∀ s ∈ sets, s.1 ≠ []) (hk : k ≠ []) :
    ServesExactly sets k ↔ EachAfter Searchable (sets.map Prod.fst ++ [k]) := by
  rw [ServesExactly, isFiniteMap_iff hne hk]
  refine and_iff_left_of_imp fun h σ regs hregs hmem => ?_
  rw [← hregs, eachAfter_append_singleton] at h
  rw [← hregs] at hmem
  have hne' : ∀ r ∈ regs, r.1 ≠ [] := by
    intro r hr
    have hmem' : r.1 ∈ sets.map Prod.fst := hregs ▸ List.mem_map_of_mem hr
    obtain ⟨s, hs, heq⟩ := List.mem_map.mp hmem'
    rw [← heq]
    exact hne s hs
  obtain ⟨server, hserver, hget⟩ := exists_rpcServerWith hne' h.1
  refine ⟨server, hserver, refuses_of_get hk ?_⟩
  rw [hget k hk h.2, lookupReply, firstSet_eq_none.mpr hmem]

/-- Two keys of different lengths. -/
theorem function_table_two :
    ServesExactly [([1], true), ([2, 3], false)] [2, 3] ↔
      EachAfter Searchable [[1], [2, 3], [2, 3]] :=
  function_table_iff (by decide) (by decide)

/-- A key is found that is only a prefix of the one that was set. -/
theorem not_servesExactly : ¬∀ (V : Type) (sets : List (Bytes × V)) (k : Bytes),
    (∀ s ∈ sets, s.1 ≠ []) → k ≠ [] → ServesExactly sets k := by
  intro h
  obtain ⟨⟨-, table, hall, hget⟩, -⟩ := h Unit [([27, 0], ())] [27] (by decide) (by decide)
  have htable : setAll [(([27, 0] : Bytes), ())] =
      some ⟨Function.update (fun _ => []) (hmHash [27, 0]) [⟨[27, 0], ()⟩]⟩ := rfl
  obtain rfl := Option.some.inj (htable.symm.trans hall)
  have hfound : hmHashTableGet ⟨Function.update (fun _ => []) (hmHash [27, 0]) [⟨[27, 0], ()⟩]⟩
      [27] = some (.ok ()) := by decide
  rw [hfound] at hget
  cases hget

end Hermes

import Hermes.Interleave.Remote
import Hermes.Rpc.Framing
import Hermes.Rpc.Stub

/-!
# Services

A service serves one client, over a transport of its own, by calling `hm_rpc_server_call`
as long as this succeeds (`hm_*_service_start` in the `service.c` of the three stores). The
services of all clients share the backend, so what `hm_rpc_server_call` does falls into
three: it receives the name of a function and its parameters (`Hermes.hmRpcServerListen`),
calls the function on the backend as it is then, and sends what it returned
(`Hermes.hmRpcServerReact`). Together this is `Hermes.hmRpcServerCall`
(`Hermes.hmRpcServerCall_eq`).

A call that is conducted by its proxy (`Hermes.Conducts`) is carried by a service, in the
sense of `Interleave.Carriage` (`Hermes.Conducts.carried`).
-/

namespace Hermes

open Interleave Wire

variable {σ β : Type}

/-- What `hm_rpc_server_call` makes of what it receives, before it calls anything. -/
inductive Heard (σ : Type) where
  /-- Nothing arrived, or an empty name: this is returned, and nothing is sent. -/
  | failed (res : Failure) : Heard σ
  /-- There is no such function, or no parameter pack came: the client is told so. -/
  | refused : Heard σ
  /-- A function that is to be called. -/
  | called (func : HmServerFunc σ) (pack : HmParamPack) : Heard σ

/-- `hm_rpc_server_call` up to the call of the function. -/
def hmRpcServerListen (server : HmRpcServer σ) : Rpc (Heard σ) := do
  match ← transportRecv 4 with
  | .error _ => return .failed .fail
  | .ok funcSignatureLength =>
    match ← transportRecv (ofLe32 funcSignatureLength).toNat with
    | .error _ => return .failed .fail
    | .ok funcSignature =>
      if funcSignature = [] then return .failed .invalidParameter
      else
        match hmHashTableGet server.funcTable funcSignature with
        | none => .stop .assertion
        | some (.error _) => return .refused
        | some (.ok func) =>
          match ← hmParamPackReceive with
          | none => return .refused
          | some pack => return .called func pack

/-- `hm_rpc_server_call` from the call of the function on. -/
def hmRpcServerReact : Heard σ → σ → Rpc (Reply Unit × σ)
  | .failed res, userData => .ret (.error res, userData)
  | .refused, userData => do
    let _ ← hmRpcServerSendError .fail
    return (.error .fail, userData)
  | .called func pack, userData => hmRpcServerAnswer (func pack userData)

/-- **The two parts of `hm_rpc_server_call`.** -/
theorem hmRpcServerCall_eq (server : HmRpcServer σ) (userData : σ) :
    hmRpcServerCall server userData =
      hmRpcServerListen server >>= fun heard => hmRpcServerReact heard userData := by
  refine congrArg (Prog.req _) (funext fun length => ?_)
  cases length with
  | error _ => rfl
  | ok length =>
    refine congrArg (Prog.req _) (funext fun name => ?_)
    cases name with
    | error _ => rfl
    | ok name =>
      show hmRpcServerCallFunc server name userData =
        ((if name = [] then _ else _ : Rpc (Heard σ)) >>= _)
      rw [hmRpcServerCallFunc]
      by_cases hname : name = []
      · rw [if_pos hname, if_pos hname]
        rfl
      · rw [if_neg hname, if_neg hname]
        rcases hmHashTableGet server.funcTable name with _ | _ | func
        · rfl
        · rfl
        · refine Eq.trans ?_ (Prog.bind_assoc _ _ _).symm
          refine congrArg (hmParamPackReceive >>= ·) (funext fun pack => ?_)
          cases pack <;> rfl

/-- What the call of the function leaves of the backend. -/
def Heard.leaves : Heard σ → σ → σ
  | .failed _, userData => userData
  | .refused, userData => userData
  | .called func pack, userData => (func pack userData).2

/-- A turn of the loop in `hm_*_service_start`, from the call of the function on: what is
sent, whether there is another turn, and the backend. -/
def Heard.serve (heard : Heard σ) (userData : σ) : Rpc Bool × σ :=
  (hmRpcServerReact heard userData >>= fun p => .ret p.1.isOk, heard.leaves userData)

theorem waits_hmRpcServerListen (server : HmRpcServer σ) : Waits (hmRpcServerListen server) :=
  ⟨3, _, rfl⟩

/-! ### Carried by a service -/

section Carried

variable {server : HmRpcServer σ} {call : RpcCall} {func : HmServerFunc σ}

/-- A service hears a call of a function that it finds. -/
theorem turn_hmRpcServerListen
    (hget : hmHashTableGet server.funcTable call.funcName = some (.ok func))
    (hne : call.funcName ≠ []) (hlt : call.funcName.length < 2 ^ 32)
    (hin : call.inParams.Sendable) :
    Turn .right (hmRpcServerListen server) [] call.frames
      (.called func call.inParams.delivered) := by
  have hname : call.funcName.length =
      (ofLe32 (le32 (UInt32.ofNat call.funcName.length))).toNat := by
    rw [ofLe32_le32, UInt32.toNat_ofNat', Nat.mod_eq_of_lt hlt]
  have hframes : ([] : List Bytes).map (Prod.mk Side.right) ++
      call.frames.map (Prod.mk Side.right.other) =
        (.left, le32 (UInt32.ofNat call.funcName.length)) :: (.left, call.funcName) ::
          (call.inParams.frames.map (Prod.mk .left) ++ []) := by
    simp [RpcCall.frames]
  rw [Turn, hframes]
  refine (speaks_transportRecv _ (length_le32 (UInt32.ofNat call.funcName.length))).bind ?_
  refine (speaks_transportRecv _ hname).bind ?_
  simp only [if_neg hne, hget]
  exact (speaks_hmParamPackReceive _ hin).bind .ret

/-- It says what the function returned, and goes on. -/
theorem turn_serve {pack : HmParamPack} {s : σ}
    (hout : ∀ outPack, (func pack s).1 = .ok (some outPack) → outPack.Sendable) :
    Turn .right ((Heard.called func pack).serve s).1 (answerFrames (func pack s).1) [] true :=
  (speaks_answer hout (func pack s).2 []).bind .ret

/-- **A service carries a call**: it hears some strings, and in every state that is all
right, the proxy sends them, and the answer is heard from which it makes the reply of the
function called directly. No string is empty. -/
def Carried {α : Type} (server : HmRpcServer σ) (proxy : Rpc α) (direct : σ → α × σ)
    (Ok : σ → Prop) : Prop :=
  ∃ frames heard, Turn .right (hmRpcServerListen server) [] frames heard ∧
    (∀ f ∈ frames, f ≠ []) ∧
    ∀ s, Ok s → ∃ f inp, Turn .left proxy frames (f :: inp) (direct s).1 ∧
      Turn .right (heard.serve s).1 (f :: inp) [] true ∧
      (heard.serve s).2 = (direct s).2 ∧ f ≠ [] ∧ ∀ g ∈ f :: inp, g ≠ []

theorem Carried.mono {α : Type} {proxy : Rpc α} {direct : σ → α × σ} {Ok Ok' : σ → Prop}
    (h : Carried server proxy direct Ok) (hok : ∀ s, Ok' s → Ok s) :
    Carried server proxy direct Ok' := by
  obtain ⟨frames, heard, hlisten, hne, hcall⟩ := h
  exact ⟨frames, heard, hlisten, hne, fun s hs => hcall s (hok s hs)⟩

/-- A pack of parameters that are not empty. -/
theorem nonEmpty_of_create {params : List HmParam} {pack : HmParamPack}
    (h : hmParamPackCreate params = some pack) (hne : ∀ p ∈ params, p.value ≠ .buffer []) :
    pack.NonEmpty := by
  rw [hmParamPackCreate] at h
  split_ifs at h
  cases h
  intro node hnode
  obtain ⟨p, hp, rfl⟩ := List.mem_map.mp hnode
  have hvalue : p.node.value = p.value := by cases p <;> simp [HmParam.node, HmParam.value,
    HmParamPackNode.value]
  rw [hvalue]
  exact hne p hp

theorem exists_answerFrames_cons (outcome : Reply (Option HmParamPack)) :
    ∃ f inp, answerFrames outcome = f :: inp ∧ f ≠ [] := by
  rcases outcome with error | (_ | outPack)
  · exact ⟨_, _, rfl, le32_ne_nil _⟩
  · exact ⟨_, _, rfl, le32_ne_nil _⟩
  · exact ⟨_, _, rfl, le32_ne_nil _⟩

/-- **A call that is conducted is carried**, if its parameters and results are not empty. -/
theorem Conducts.carried {proxy : Rpc (Reply β)} {params : List HmParam} {out : β → List HmParam}
    {direct : σ → Reply β × σ} {Ok : σ → Prop}
    (h : Conducts server proxy params out direct Ok call func)
    (hparams : ∀ p ∈ params, p.value ≠ .buffer [])
    (hout : ∀ s, Ok s → ∀ b, (direct s).1 = .ok b → ∀ p ∈ out b, p.value ≠ .buffer []) :
    Carried server proxy direct Ok := by
  have hin := nonEmpty_of_create h.create hparams
  have hresult : ∀ s, Ok s → ∀ outPack,
      (func call.inParams.delivered s).1 = .ok (some outPack) → outPack.NonEmpty := by
    intro s hs outPack hfunc
    obtain ⟨b, hb, hcreate⟩ := h.result s outPack hfunc
    exact nonEmpty_of_create hcreate (hout s hs b hb)
  refine ⟨call.frames, .called func call.inParams.delivered,
    turn_hmRpcServerListen h.get h.name_ne_nil h.name_lt h.inParams, ?_, fun s hs => ?_⟩
  · have hne : ∀ f ∈ call.script (.ok none), f.2 ≠ [] :=
      RpcCall.script_ne_nil h.name_ne_nil hin fun _ hc => by cases hc
    exact fun f hf => hne (.left, f) (List.mem_append_left _ (List.mem_map_of_mem hf))
  · obtain ⟨f, inp, hframes, hf⟩ := exists_answerFrames_cons (func call.inParams.delivered s).1
    have hne := RpcCall.script_ne_nil h.name_ne_nil hin (hresult s hs)
    have hproxy := h.speaks s hs
    have hserve := turn_serve (s := s) (h.fits s hs).outParams
    rw [RpcCall.script, hframes] at hproxy hne
    rw [hframes] at hserve
    refine ⟨f, inp, hproxy, hserve, h.state s, hf, fun g hg => ?_⟩
    exact hne (.right, g) (List.mem_append_right _ (List.mem_map_of_mem hg))

end Carried

end Hermes

import Hermes.HashTable
import Hermes.Rpc.ParamPack

/-!
# Remote procedure calls

The two ends of a call: `rpc/client.c`, which sends the name of a function and a parameter
pack and receives a status and maybe a result, and `rpc/server.c`, which looks the function
up and calls it.

A request is read in two parts, first the name and only then, when there is a function of
that name, the pack. When there is none the server answers at once, and the pack stays on
the transport.
-/

namespace Hermes

open Interleave Wire

/-- `hm_rpc_client_sync_call`: the status that the server sent, and the result if one was
asked for (`wantsOut`) and the status is a success. -/
def hmRpcClientSyncCall (funcName : Bytes) (inParams : HmParamPack) (wantsOut : Bool) :
    Rpc (Reply (HermesStatus × Option HmParamPack)) :=
  if funcName = [] then .ret (.error .invalidParameter)
  else do
    match ← transportSend (le32 (UInt32.ofNat funcName.length)) with
    | .error res => return .error res
    | .ok _ =>
      match ← transportSend funcName with
      | .error res => return .error res
      | .ok _ =>
        match ← hmParamPackSend inParams with
        | .error res => return .error res
        | .ok _ =>
          match ← transportRecv 4 with
          | .error res => return .error res
          | .ok error =>
            if ofLe32 error = hmSuccess ∧ wantsOut then
              match ← hmParamPackReceive with
              | none => return .error .fail
              | some outParams => return .ok (ofLe32 error, some outParams)
            else return .ok (ofLe32 error, none)

variable {σ : Type}

/-- `hm_server_func_t`: a handler, with the state it acts on (`user_data`). On success it
may have a result. -/
abbrev HmServerFunc (σ : Type) := HmParamPack → σ → Reply (Option HmParamPack) × σ

/-- `hm_rpc_server_t`, without its transport. -/
structure HmRpcServer (σ : Type) where
  /-- `func_table` -/
  funcTable : HmHashTable (HmServerFunc σ)

/-- `hm_rpc_server_create` -/
def hmRpcServerCreate : HmRpcServer σ := ⟨hmHashTableCreate⟩

/-- `hm_rpc_server_reg_func` -/
def hmRpcServerRegFunc (server : HmRpcServer σ) (funcSignature : Bytes) (func : HmServerFunc σ) :
    Option (Reply Unit × HmRpcServer σ) :=
  if funcSignature = [] then some (.error .invalidParameter, server)
  else (hmHashTableSet server.funcTable funcSignature func).map fun p => (p.1, ⟨p.2⟩)

/-- `hm_rpc_server_send_error` -/
def hmRpcServerSendError (error : Failure) : Rpc (Reply Unit) := transportSend (le32 error.1)

/-- `hm_rpc_server_send` -/
def hmRpcServerSend (pack : Option HmParamPack) : Rpc (Reply Unit) := do
  match ← transportSend (le32 hmSuccess) with
  | .error _ => return .error .fail
  | .ok _ =>
    match pack with
    | some pack => hmParamPackSend pack
    | none => return .ok ()

/-- The end of `hm_rpc_server_call_func`: what the handler returned is sent. -/
def hmRpcServerAnswer (outcome : Reply (Option HmParamPack) × σ) : Rpc (Reply Unit × σ) := do
  match outcome.1 with
  | .error res => return (← hmRpcServerSendError res, outcome.2)
  | .ok outPack => return (← hmRpcServerSend outPack, outcome.2)

/-- `hm_rpc_server_call_func`: the function is looked up before its parameters are
received. -/
def hmRpcServerCallFunc (server : HmRpcServer σ) (funcSignature : Bytes) (userData : σ) :
    Rpc (Reply Unit × σ) :=
  if funcSignature = [] then .ret (.error .invalidParameter, userData)
  else
    match hmHashTableGet server.funcTable funcSignature with
    | none => .stop .assertion
    | some (.error _) => do
      let _ ← hmRpcServerSendError .fail
      return (.error .fail, userData)
    | some (.ok func) => do
      match ← hmParamPackReceive with
      | none => do
        let _ ← hmRpcServerSendError .fail
        return (.error .fail, userData)
      | some pack => hmRpcServerAnswer (func pack userData)

/-- `hm_rpc_server_call` -/
def hmRpcServerCall (server : HmRpcServer σ) (userData : σ) : Rpc (Reply Unit × σ) := do
  match ← transportRecv 4 with
  | .error _ => return (.error .fail, userData)
  | .ok funcSignatureLength =>
    match ← transportRecv (ofLe32 funcSignatureLength).toNat with
    | .error _ => return (.error .fail, userData)
    | .ok funcSignature => hmRpcServerCallFunc server funcSignature userData

/-! ### A connection -/

/-- A call as a client makes it. -/
structure RpcCall where
  /-- `func_name` -/
  funcName : Bytes
  /-- `in_params` -/
  inParams : HmParamPack
  /-- Whether there is a place for the result (`out_params`). -/
  wantsOut : Bool

/-- What a call returns. -/
abbrev RpcResult := Reply (HermesStatus × Option HmParamPack)

/-- A client that makes one call after the other, with those it has still to make and the
results of the others. -/
def rpcClient : List RpcCall × List RpcResult → Option (Rpc (List RpcCall × List RpcResult))
  | ([], _) => none
  | (call :: calls, results) => some do
    let result ← hmRpcClientSyncCall call.funcName call.inParams call.wantsOut
    return (calls, results ++ [result])

/-- A server that serves a connection by calling `hm_rpc_server_call` again and again,
whatever it returns. -/
def rpcServer (server : HmRpcServer σ) (userData : σ) : Option (Rpc σ) := some do
  let (_, userData) ← hmRpcServerCall server userData
  return userData

/-- The two ends of a connection. -/
abbrev Connection (σ γ : Type) :=
  Duplex (Party UInt8 Failure (List RpcCall × List RpcResult)) (Party UInt8 Failure σ) γ

/-- A connection before the first of some calls. -/
def Connection.start (γ : Type) (calls : List RpcCall) (userData : σ) : Connection σ γ :=
  Duplex.start γ (calls, []) userData

end Hermes

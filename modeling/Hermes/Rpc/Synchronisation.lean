import Hermes.Rpc.Exchange

/-!
# Calls on one connection

A client makes one call after the other, and a server serves the connection again and
again, whatever `hm_rpc_server_call` returns. Whether every call gets the result that
belongs to it (`Hermes.InSync`) depends on the bytes that a call leaves on the transport.

They are in sync when every call names a registered function and fits its outcome
(`Hermes.Orderly`, `Hermes.Orderly.inSync`). A call of an unregistered function is answered
before its parameters are read, and the parameters become the next request
(`Hermes.not_inSync`).
-/

namespace Hermes

open Interleave Wire

variable {σ : Type}

/-! ### Results that belong to their calls -/

/-- The parameters of a pack that was received are those of a pack that was sent. -/
def HmParamPack.SameParams (received sent : HmParamPack) : Prop :=
  received.nodes.map HmParamPackNode.wire = sent.nodes.map HmParamPackNode.sent

theorem HmParamPack.Sendable.sameParams {pack : HmParamPack} (h : pack.Sendable) :
    pack.delivered.SameParams pack :=
  h.decodes_delivered.1

/-- The result of a call is what the handler registered for it gives for its parameters,
from the state `s` to the state `s'`; if there is none, it is the status `HM_FAIL`. -/
def RpcCall.Answered (regs : List (Bytes × HmServerFunc σ)) (call : RpcCall) (s : σ)
    (result : RpcResult) (s' : σ) : Prop :=
  match firstSet regs call.funcName with
  | none => result = .ok (hmFail, none) ∧ s' = s
  | some func => ∃ received : HmParamPack, received.SameParams call.inParams ∧
      s' = (func received s).2 ∧
      match (func received s).1 with
      | .error error => result = .ok (error.1, none)
      | .ok none => result = .ok (hmSuccess, none)
      | .ok (some outPack) => ∃ outParams : HmParamPack, outParams.SameParams outPack ∧
          result = .ok (hmSuccess, some outParams)

/-- The same for calls that are made one after the other. -/
inductive AllAnswered (regs : List (Bytes × HmServerFunc σ)) (s : σ) :
    List RpcCall → List RpcResult → σ → Prop
  | nil : AllAnswered regs s [] [] s
  | snoc {calls : List RpcCall} {results : List RpcResult} {s' s'' : σ} {call : RpcCall}
      {result : RpcResult} (h : AllAnswered regs s calls results s')
      (hcall : call.Answered regs s' result s'') :
      AllAnswered regs s (calls ++ [call]) (results ++ [result]) s''

theorem AllAnswered.last {regs : List (Bytes × HmServerFunc σ)} {s s'' : σ} {calls : List RpcCall}
    {results : List RpcResult} {call : RpcCall} {result : RpcResult}
    (h : AllAnswered regs s (calls ++ [call]) (results ++ [result]) s'') :
    ∃ s', AllAnswered regs s calls results s' ∧ call.Answered regs s' result s'' := by
  generalize hcalls : calls ++ [call] = calls' at h
  generalize hresults : results ++ [result] = results' at h
  cases h with
  | nil => simp at hcalls
  | snoc h hcall =>
    obtain ⟨rfl, hlast⟩ := List.append_inj' hcalls rfl
    obtain ⟨rfl, hlast'⟩ := List.append_inj' hresults rfl
    cases hlast
    cases hlast'
    exact ⟨_, h, hcall⟩

/-- A connection on a lossless transport that keeps the order of the bytes. -/
abbrev ConnectionRuns (server : HmRpcServer σ) :
    ℕ → Connection σ UInt8 → Connection σ UInt8 → Prop :=
  LinkRuns (Carrier.stream UInt8 Failure) rpcClient (rpcServer server)

/-- **The calls of a connection are in sync.** Whoever moves when, whenever the client is
between two calls the results of those it has made belong to them, and nothing is under
way; and it comes to the end of its calls. -/
def InSync (regs : List (Bytes × HmServerFunc σ)) (calls : List RpcCall) (s : σ) : Prop :=
  ∃ server, rpcServerWith regs = some server ∧ ∃ n, ∀ k c,
    ConnectionRuns server k (Connection.start UInt8 calls s) c →
      k ≤ n ∧
      (∀ todo results, c.left.doing = .rest (todo, results) →
        ∃ done s', calls = done ++ todo ∧ AllAnswered regs s done results s' ∧
          c.toRight = [] ∧ c.toLeft = []) ∧
      ∃ c' results, ConnectionRuns server (n - k) c c' ∧ c'.left.doing = .rest ([], results)

/-! ### Orderly calls -/

/-- Calls that leave nothing behind: each one names a registered function that can be found,
and fits the outcome of its handler. -/
inductive Orderly (regs : List (Bytes × HmServerFunc σ)) : List RpcCall → σ → Prop
  | nil {s : σ} : Orderly regs [] s
  | cons {call : RpcCall} {calls : List RpcCall} {s : σ} {func : HmServerFunc σ}
      (hfunc : firstSet regs call.funcName = some func)
      (hsearch : Searchable (regs.map Prod.fst) call.funcName)
      (hfits : call.Fits (func call.inParams.delivered s).1)
      (h : Orderly regs calls (func call.inParams.delivered s).2) : Orderly regs (call :: calls) s

/-- The script of calls that are made one after the other. -/
def callsScript (regs : List (Bytes × HmServerFunc σ)) : List RpcCall → σ → Script UInt8
  | [], _ => []
  | call :: calls, s =>
    match firstSet regs call.funcName with
    | none => []
    | some func => call.script (func call.inParams.delivered s).1 ++
        callsScript regs calls (func call.inParams.delivered s).2

variable {regs : List (Bytes × HmServerFunc σ)}

theorem callsScript_cons {call : RpcCall} {func : HmServerFunc σ} (calls : List RpcCall) (s : σ)
    (hfunc : firstSet regs call.funcName = some func) :
    callsScript regs (call :: calls) s = call.script (func call.inParams.delivered s).1 ++
      callsScript regs calls (func call.inParams.delivered s).2 := by
  rw [callsScript, hfunc]

/-- The result of a call that fits is the one that belongs to it. -/
theorem RpcCall.Fits.answered {call : RpcCall} {s : σ} {func : HmServerFunc σ}
    (hfunc : firstSet regs call.funcName = some func)
    (h : call.Fits (func call.inParams.delivered s).1) :
    call.Answered regs s (rpcResult (func call.inParams.delivered s).1)
      (func call.inParams.delivered s).2 := by
  rw [RpcCall.Answered, hfunc]
  refine ⟨call.inParams.delivered, h.inParams.sameParams, rfl, ?_⟩
  match hout : (func call.inParams.delivered s).1 with
  | .error error => rfl
  | .ok none => rfl
  | .ok (some outPack) => exact ⟨_, (h.outParams outPack hout).sameParams, rfl⟩

/-! #### Who begins and who ends -/

theorem units_frames (call : RpcCall) : ∃ x us, call.frames.flatten = x :: us := by
  have hlen : call.frames.flatten.length ≠ 0 := by
    simp [RpcCall.frames]
  exact List.exists_cons_of_ne_nil fun hc => hlen (by rw [hc]; rfl)

theorem units_answerFrames (outcome : Reply (Option HmParamPack)) :
    ∃ us x, (answerFrames outcome).flatten = us ++ [x] := by
  have hne : (answerFrames outcome).flatten ≠ [] := by
    intro hc
    have hlen := congrArg List.length hc
    match outcome with
    | .error error => simp [answerFrames] at hlen
    | .ok none => simp [answerFrames] at hlen
    | .ok (some outPack) => simp [answerFrames] at hlen
  obtain ⟨us, x, h⟩ := List.eq_nil_or_concat _ |>.resolve_left hne
  exact ⟨us, x, by simpa using h⟩

theorem unitScript_stream_map (d : Side) (fs : List Bytes) :
    (Carrier.stream UInt8 Failure).unitScript (fs.map (Prod.mk d)) =
      fs.flatten.map (Prod.mk d) := by
  rw [Carrier.unitScript_map]
  simp [Carrier.stream]

/-- The client begins. -/
theorem units_script_head (call : RpcCall) (outcome : Reply (Option HmParamPack))
    (tr : Script UInt8) : ∃ x us, (Carrier.stream UInt8 Failure).unitScript
      (call.script outcome ++ tr) = (.left, x) :: us := by
  obtain ⟨x, us, hflat⟩ := units_frames call
  refine ⟨x, us.map (Prod.mk .left) ++ ((answerFrames outcome).flatten.map (Prod.mk .right) ++
    (Carrier.stream UInt8 Failure).unitScript tr), ?_⟩
  rw [RpcCall.script, Carrier.unitScript_append, Carrier.unitScript_append,
    unitScript_stream_map, unitScript_stream_map, hflat]
  simp

/-- The server ends. -/
theorem units_script_getLast (call : RpcCall) (outcome : Reply (Option HmParamPack))
    (past : Script UInt8) : ∃ x, ((Carrier.stream UInt8 Failure).unitScript
      (past ++ call.script outcome)).getLast? = some (.right, x) := by
  obtain ⟨us, x, hflat⟩ := units_answerFrames outcome
  refine ⟨x, ?_⟩
  rw [RpcCall.script, Carrier.unitScript_append, Carrier.unitScript_append,
    unitScript_stream_map, unitScript_stream_map, hflat]
  simp

/-! ### The two ends of the connection -/

section Connection

variable {calls : List RpcCall} {s : σ} {server : HmRpcServer σ} {whole : Script UInt8}

/-- What holds of a client between two calls, and of the script from there on. -/
def BetweenCalls (regs : List (Bytes × HmServerFunc σ)) (calls : List RpcCall) (s : σ)
    (whole : Script UInt8) (st : List RpcCall × List RpcResult) (tr : Script UInt8) : Prop :=
  ∃ done past s', calls = done ++ st.1 ∧ AllAnswered regs s done st.2 s' ∧
    Orderly regs st.1 s' ∧ tr = callsScript regs st.1 s' ∧ whole = past ++ tr ∧
    ∀ x, ((Carrier.stream UInt8 Failure).unitScript past).getLast? ≠ some (.left, x)

/-- The session of a client with orderly calls. -/
theorem Orderly.clientSession {todo : List RpcCall} {s' : σ} (h : Orderly regs todo s')
    {done : List RpcCall} {past : Script UInt8} {results : List RpcResult}
    (hcalls : calls = done ++ todo) (hdone : AllAnswered regs s done results s')
    (hwhole : whole = past ++ callsScript regs todo s')
    (hpast : ∀ x, ((Carrier.stream UInt8 Failure).unitScript past).getLast? ≠ some (.left, x)) :
    ∃ n, Session .left rpcClient (BetweenCalls regs calls s whole) n (todo, results)
      (callsScript regs todo s') := by
  induction h generalizing done past results with
  | nil => exact ⟨0, .ended ⟨done, past, _, hcalls, hdone, .nil, rfl, hwhole, hpast⟩ rfl⟩
  | @cons call todo s' func hfunc hsearch hfits h ih =>
    have hscript := callsScript_cons todo s' hfunc
    have hnow : BetweenCalls regs calls s whole (call :: todo, results)
        (callsScript regs (call :: todo) s') :=
      ⟨done, past, s', hcalls, hdone, .cons hfunc hsearch hfits h, rfl, hwhole, hpast⟩
    obtain ⟨x, hlast⟩ := units_script_getLast call (func call.inParams.delivered s').1 past
    obtain ⟨n, hrest⟩ := ih (by rw [hcalls]; simp) (hdone.snoc (hfits.answered hfunc))
      (by rw [hwhole, hscript, List.append_assoc]) fun y hy => by
        rw [hlast] at hy
        cases hy
    rw [hscript] at hnow ⊢
    obtain ⟨m, hcall⟩ := hfits.speaks_client (callsScript regs todo
      (func call.inParams.delivered s').2)
    exact ⟨_, .turn hnow rfl (hcall.bind .ret) hrest⟩

/-- The session of a server with orderly calls. At the end it waits for another one. -/
theorem Orderly.serverSession (h : Orderly regs calls s)
    (hget : ∀ k, k ≠ [] → Searchable (regs.map Prod.fst) k →
      hmHashTableGet server.funcTable k = some (lookupReply regs k)) :
    ∃ n, Session .right (rpcServer server) (fun _ _ => True) n s (callsScript regs calls s) := by
  induction h with
  | nil => exact ⟨1, .waits trivial rfl ⟨3, _, rfl⟩⟩
  | @cons call calls s func hfunc hsearch hfits _ ih =>
    obtain ⟨n, hrest⟩ := ih
    have hlookup : lookupReply regs call.funcName = .ok func := by rw [lookupReply, hfunc]
    have hfound := hlookup ▸ hget call.funcName hfits.name_ne_nil hsearch
    rw [callsScript_cons calls _ hfunc]
    obtain ⟨m, hcall⟩ := hfits.speaks_server hfound (callsScript regs calls
      (func call.inParams.delivered s).2)
    exact ⟨_, .turn trivial rfl (hcall.bind .ret) hrest⟩

/-- When nothing is left of the script, no calls are left. -/
theorem BetweenCalls.todo_eq_nil {st : List RpcCall × List RpcResult}
    (h : BetweenCalls regs calls s whole st []) : st.1 = [] := by
  obtain ⟨done, past, s', -, -, horderly, htr, -⟩ := h
  match htodo : st.1 with
  | [] => rfl
  | call :: todo =>
    rw [htodo] at horderly htr
    cases horderly with
    | cons hfunc _ _ _ =>
      obtain ⟨x, us, hunits⟩ := units_script_head call _ (callsScript regs todo _)
      rw [← callsScript_cons todo s' hfunc, ← htr] at hunits
      cases hunits

/-- The client at the end of the script. -/
theorem client_at_end {doing : Doing UInt8 Failure (List RpcCall × List RpcResult)}
    {tr : Script UInt8} {n : ℕ}
    (h : InSession .left rpcClient (BetweenCalls regs calls s whole) n doing tr) (hn : n = 0) :
    ∃ results, doing = .rest ([], results) := by
  have hnone : ∀ st : List RpcCall × List RpcResult, st.1 = [] → rpcClient st = none := by
    rintro ⟨todo, results⟩ (rfl : todo = [])
    rfl
  cases h with
  | rest hs =>
    cases hs with
    | ended hP _ => exact ⟨_, congrArg Doing.rest (Prod.ext hP.todo_eq_nil rfl)⟩
    | waits => exact absurd hn Nat.one_ne_zero
    | turn => exact absurd hn (by omega)
  | busy => exact absurd hn (by omega)
  | waits hP hnext _ => exact absurd hnext (by rw [hnone _ hP.todo_eq_nil]; simp)

/-- **Orderly calls are in sync**, whoever moves when. -/
theorem Orderly.inSync (h : Orderly regs calls s) (hne : ∀ reg ∈ regs, reg.1 ≠ [])
    (hregs : EachAfter Searchable (regs.map Prod.fst)) : InSync regs calls s := by
  obtain ⟨server, hserver, hget⟩ := exists_rpcServerWith hne hregs
  obtain ⟨n, hL⟩ : ∃ n, Session .left rpcClient
      (BetweenCalls regs calls s (callsScript regs calls s)) n (calls, [])
      (callsScript regs calls s) :=
    h.clientSession rfl .nil (List.nil_append _).symm fun x => by simp
  obtain ⟨m, hR⟩ := h.serverSession hget
  refine ⟨server, hserver, n + m, fun k c hr => ?_⟩
  obtain ⟨j, hj, hstep⟩ := Session.run Carrier.conveys_stream (fun _ _ => trivial) hL hR hr
  refine ⟨by omega, fun todo results hrest => ?_, ?_⟩
  · obtain ⟨i, i', a, b, -, ⟨_, tr, -, rfl, -, hin⟩, -, hagree, -, hb⟩ := hstep
    rw [hrest] at hin
    cases hin with
    | rest hs =>
      obtain ⟨done, past, s', hcalls, hanswered, horderly, htr, hwhole, hpast⟩ := hs.holds
      refine ⟨done, s', hcalls, hanswered, ?_⟩
      -- The client is about to speak, or done, and the last word was the server's.
      refine hagree.quiet hb (by rw [hwhole, Carrier.unitScript_append]) hpast fun x a' ha => ?_
      subst htr
      cases horderly with
      | nil => cases ha
      | @cons call todo _ func hfunc _ _ _ =>
        obtain ⟨y, us, hunits⟩ := units_script_head call (func call.inParams.delivered s').1
          (callsScript regs todo (func call.inParams.delivered s').2)
        rw [callsScript_cons todo s' hfunc, hunits] at ha
        cases ha
  · obtain ⟨c', hr', ⟨i, i', a, b, hi, ⟨_, tr, -, -, -, hin⟩, -⟩, -, -⟩ :=
      Session.exists_end Carrier.conveys_stream (fun _ _ => trivial) hstep
    obtain ⟨results, hend⟩ := client_at_end hin (by omega)
    obtain rfl : j = n + m - k := by omega
    exact ⟨c', results, hr', hend⟩

end Connection

/-! ### A call of an unregistered function -/

section Unregistered

/-- One function, `f`, that always succeeds. -/
def onlyF : List (Bytes × HmServerFunc Unit) := [([102], fun _ s => (.ok none, s))]

/-- A call of `x`, and then one of `f`. -/
def callsXF : List RpcCall := [⟨[120], onePack, false⟩, ⟨[102], onePack, false⟩]

/-- First `x` is called, and the server reads its name and answers; then the server reads
the pack as a request and answers again; then `f` is called. -/
def scheduleXF : List Side :=
  List.replicate 7 .left ++ List.replicate 4 .right ++ List.replicate 2 .left ++
    List.replicate 5 .right ++ List.replicate 9 .left

/-- A call of `f` alone is in sync. -/
theorem inSync_f : InSync onlyF [⟨[102], onePack, false⟩] () := by
  have hfits : RpcCall.Fits ⟨[102], onePack, false⟩ (.ok none) :=
    { name_ne_nil := List.cons_ne_nil _ _
      name_lt := by decide
      inParams := sendable_onePack
      wants := by rintro _ ⟨⟩; rfl
      outParams := by rintro _ ⟨⟩ }
  have hregs : EachAfter Searchable (onlyF.map Prod.fst) :=
    (eachAfter_append_singleton (l := [])).mpr ⟨fun _ _ _ hl => by simp at hl, by decide⟩
  exact Orderly.inSync (.cons rfl (by decide) hfits .nil) (by decide) hregs

/-- The second call gets the answer to the pack of the first one. -/
theorem not_inSync : ¬∀ (σ : Type) (regs : List (Bytes × HmServerFunc σ)) (calls : List RpcCall)
    (s : σ), (∀ reg ∈ regs, reg.1 ≠ []) → (∀ call ∈ calls, call.funcName ≠ []) →
      (∀ call ∈ calls, ∃ params, params ≠ [] ∧ hmParamPackCreate params = some call.inParams) →
      InSync regs calls s := by
  intro h
  have hpack : ∃ params, params ≠ [] ∧ hmParamPackCreate params = some onePack :=
    ⟨[.int32 5], by decide, rfl⟩
  obtain ⟨server, hserver, n, hall⟩ := h Unit onlyF callsXF () (by decide) (by decide)
    (by simpa [callsXF] using hpack)
  obtain ⟨c, hexec, hrest⟩ : ∃ c, Duplex.exec rpcClient (rpcServer server) scheduleXF
      (Connection.start UInt8 callsXF ()) = some c ∧
        c.left.doing = .rest ([], [.ok (hmFail, none), .ok (hmFail, none)]) := by
    obtain rfl := Option.some.inj hserver
    exact ⟨_, rfl, rfl⟩
  obtain ⟨-, hresults, -⟩ := hall _ c (Duplex.runs_of_exec hexec)
  obtain ⟨done, s', hdone, hanswered, -⟩ := hresults _ _ hrest
  rw [List.append_nil] at hdone
  subst hdone
  have hboth : AllAnswered onlyF () ([⟨[120], onePack, false⟩] ++ [⟨[102], onePack, false⟩])
      ([.ok (hmFail, none)] ++ [.ok (hmFail, none)]) s' := hanswered
  obtain ⟨s₁, -, received, -, -, hresult⟩ := hboth.last
  cases hresult

end Unregistered

end Hermes

import Hermes.Rpc.Exchange

/-!
# Proxies and stubs

A function of a store is called through a *proxy*, which packs its arguments, calls it by
its name and takes its results out of the answer, and it is served by a *stub*, which takes
the arguments out of the pack, calls the function and packs its results. The source writes
both by hand for each function; what is common to them is here, with the kinds of the
parameters as the only link between the two.

Where the kinds agree, the pair cannot be told from the function
(`Hermes.transparent_of_stub`, `Hermes.transparent_of_stubOut`): the proxy conducts the call
(`Hermes.Conducts`).
-/

namespace Hermes

open Interleave Wire

variable {σ β : Type}

/-- A string constant, with its terminating zero (`sizeof` counts it). -/
def cString (s : String) : Bytes := s.toList.map (fun c => c.toNat.toUInt8) ++ [0]

/-! ### The two ends of a call -/

/-- The body shared by the proxies of functions without results: `out_params` is `NULL`. -/
def hmSyncProxy (name : Bytes) (params : List HmParam) : Rpc (Reply Unit) :=
  match hmParamPackCreate params with
  | none => .ret (.error .fail)
  | some inParams => do
    match ← hmRpcClientSyncCall name inParams false with
    | .error res => return .error res
    | .ok (status, _) =>
      if h : status = hmSuccess then return .ok () else return .error ⟨status, h⟩

/-- The body shared by the proxies of functions with results: they are extracted as the
given kinds. -/
def hmSyncProxyOut (name : Bytes) (params : List HmParam) (kinds : List HmKind)
    (results : List HmValue → Reply β) : Rpc (Reply β) :=
  match hmParamPackCreate params with
  | none => .ret (.error .fail)
  | some inParams => do
    match ← hmRpcClientSyncCall name inParams true with
    | .error res => return .error res
    | .ok (status, outParams) =>
      if h : status = hmSuccess then
        match outParams with
        | none => return .error .invalidParameter
        | some outParams => return (hmParamPackExtract outParams kinds).bind results
      else return .error ⟨status, h⟩

/-- The body shared by the stubs of functions without results. -/
def hmStub (kinds : List HmKind) (func : List HmValue → σ → Reply Unit × σ) : HmServerFunc σ :=
  fun inPack s =>
    match hmParamPackExtract inPack kinds with
    | .error res => (.error res, s)
    | .ok values =>
      match func values s with
      | (.error res, s) => (.error res, s)
      | (.ok _, s) => (.ok none, s)

/-- The body shared by the stubs of functions with results, which are packed. -/
def hmStubOut (kinds : List HmKind) (func : List HmValue → σ → Reply β × σ)
    (out : β → List HmParam) : HmServerFunc σ :=
  fun inPack s =>
    match hmParamPackExtract inPack kinds with
    | .error res => (.error res, s)
    | .ok values =>
      match func values s with
      | (.error res, s) => (.error res, s)
      | (.ok b, s) =>
        match hmParamPackCreate (out b) with
        | none => (.error .fail, s)
        | some outPack => (.ok (some outPack), s)

/-- The loop of the `hm_*_server_create`: registrations, one after the other, as long as
they succeed. -/
def hmRpcServerRegAll (regs : List (Bytes × HmServerFunc σ)) : Option (HmRpcServer σ) :=
  regs.foldlM (fun server reg => (hmRpcServerRegFunc server reg.1 reg.2).bind fun p =>
    match p with
    | (.error _, _) => none
    | (.ok _, server) => some server) hmRpcServerCreate

theorem hmRpcServerRegAll_append_singleton (regs : List (Bytes × HmServerFunc σ))
    (reg : Bytes × HmServerFunc σ) :
    hmRpcServerRegAll (regs ++ [reg]) = (hmRpcServerRegAll regs).bind fun server =>
      (hmRpcServerRegFunc server reg.1 reg.2).bind fun p =>
        match p with
        | (.error _, _) => none
        | (.ok _, server) => some server := by
  simp [hmRpcServerRegAll, List.foldlM_append]

theorem represents_regAll {regs : List (Bytes × HmServerFunc σ)} (hne : ∀ reg ∈ regs, reg.1 ≠ [])
    (hhash : ((regs.map Prod.fst).map hmHash).Nodup) :
    ∃ server, hmRpcServerRegAll regs = some server ∧ Represents server.funcTable regs := by
  induction regs using List.reverseRecOn with
  | nil => exact ⟨hmRpcServerCreate, rfl, represents_create⟩
  | append_singleton regs reg ih =>
    have hreg : reg.1 ≠ [] := hne reg (by simp)
    have hsearch := eachAfter_searchable_of_nodup hhash
    rw [List.map_append, List.map_singleton, eachAfter_append_singleton] at hsearch
    have hnot : reg.1 ∉ regs.map Prod.fst := by
      intro hmem
      rw [List.map_append, List.map_append, List.nodup_append] at hhash
      exact hhash.2.2 _ (List.mem_map_of_mem hmem) _ (by simp) rfl
    rw [List.map_append, List.map_append, List.nodup_append] at hhash
    obtain ⟨server, hserver, hrep⟩ :=
      ih (fun r hr => hne r (List.mem_append_left _ hr)) hhash.1
    obtain ⟨table', hset⟩ := (hrep.set_iff hreg reg.2).mpr hsearch.2
    refine ⟨⟨table'⟩, ?_, hrep.set hreg hset⟩
    rw [hmRpcServerRegAll_append_singleton, hserver, Option.bind_some, hmRpcServerRegFunc,
      if_neg hreg, hset, setReply, if_neg hnot]
    rfl

/-- A server finds a function under a name that can be sent. -/
structure Serves (server : HmRpcServer σ) (name : Bytes) (func : HmServerFunc σ) : Prop where
  ne_nil : name ≠ []
  length_lt : name.length < 2 ^ 32
  get : hmHashTableGet server.funcTable name = some (.ok func)

/-- **A server with functions in buckets of their own** finds each of them. -/
theorem exists_regAll {regs : List (Bytes × HmServerFunc σ)}
    (hnames : ∀ name ∈ regs.map Prod.fst, name ≠ [] ∧ name.length < 2 ^ 32)
    (hhash : ((regs.map Prod.fst).map hmHash).Nodup) :
    ∃ server, hmRpcServerRegAll regs = some server ∧
      ∀ reg ∈ regs, Serves server reg.1 reg.2 := by
  have hne : ∀ reg ∈ regs, reg.1 ≠ [] := fun reg hreg =>
    (hnames reg.1 (List.mem_map_of_mem hreg)).1
  obtain ⟨server, hserver, hrep⟩ := represents_regAll hne hhash
  refine ⟨server, hserver, fun reg hreg =>
    ⟨hne reg hreg, (hnames reg.1 (List.mem_map_of_mem hreg)).2, ?_⟩⟩
  have hinj := List.inj_on_of_nodup_map hhash
  have hmem : reg.1 ∈ regs.map Prod.fst := List.mem_map_of_mem hreg
  have hsearch : Searchable (regs.map Prod.fst) reg.1 :=
    searchable_of_hash fun j hj hhash => hinj hj hmem hhash
  have hfirst : firstSet regs reg.1 = some reg.2 := by
    rw [firstSet]
    obtain ⟨found, hfound⟩ : ∃ found, regs.find? (fun s => s.1 = reg.1) = some found := by
      rw [← Option.isSome_iff_exists, List.find?_isSome]
      exact ⟨reg, hreg, by simp⟩
    have hkey : found.1 = reg.1 := by simpa using List.find?_some hfound
    have hnodup : (regs.map (hmHash ∘ Prod.fst)).Nodup := by
      rw [← List.map_map]
      exact hhash
    have heq : found = reg := List.inj_on_of_nodup_map hnodup (List.mem_of_find?_eq_some hfound)
      hreg (congrArg hmHash hkey)
    rw [hfound, heq]
    rfl
  rw [(hrep.get_iff (hne reg hreg)).mpr hsearch, lookupReply, hfirst]

/-! ### Transparency -/

/-- How many bytes parameters are on the wire. -/
def rpcSize (params : List HmParam) : ℕ := 4 + (params.map HmParam.encodedLength).sum

/-- Parameters that make a pack which can be sent. -/
structure PacksUp (params : List HmParam) : Prop where
  ne_nil : params ≠ []
  length_le : params.length ≤ hmParamPackMaxParams
  size_lt : rpcSize params < 2 ^ 32

/-- Parameters that make a pack arrive, for whoever asks for their kinds. -/
theorem PacksUp.exists_delivered {params : List HmParam} (h : PacksUp params)
    {kinds : List HmKind} (hkinds : params.map HmParam.kind = kinds) :
    ∃ pack, hmParamPackCreate params = some pack ∧ pack.Sendable ∧
      hmParamPackExtract pack.delivered kinds = .ok (params.map HmParam.value) := by
  obtain ⟨pack, hcreate, hnodes, hsend, -⟩ := exists_create h.ne_nil h.length_le h.size_lt
  rw [← hkinds]
  exact ⟨pack, hcreate, hsend, extract_delivered hsend hnodes⟩

/-- **A call cannot be told from the function it calls.** Whoever moves when, over a
lossless transport that keeps the order of the bytes, the client comes to the reply of the
function called directly, the server to its state, and no byte is left on the transport. -/
def Transparent (server : HmRpcServer σ) (proxy : Rpc (Reply β)) (s : σ)
    (direct : Reply β × σ) : Prop :=
  EndsIn (Carrier.stream UInt8 Failure) proxy (hmRpcServerCall server s) fun c =>
    c.left.doing = .rest (some direct.1) ∧
      (∃ res, c.right.doing = .rest (some (res, direct.2))) ∧ c.toRight = [] ∧ c.toLeft = []

/-- A proxy whose call fits is transparent if what it makes of the answer is right. -/
theorem RpcCall.Fits.transparent {server : HmRpcServer σ} {func : HmServerFunc σ} {call : RpcCall}
    {proxy : Rpc (Reply β)} {s : σ} {direct : Reply β × σ}
    (hget : hmHashTableGet server.funcTable call.funcName = some (.ok func))
    (h : call.Fits (func call.inParams.delivered s).1)
    (hproxy : Speaks .left proxy (call.script (func call.inParams.delivered s).1) direct.1 [])
    (hstate : (func call.inParams.delivered s).2 = direct.2) :
    Transparent server proxy s direct := by
  have hserver := h.speaks_one_server hget
  refine (hproxy.endsIn Carrier.conveys_stream (fun _ _ => trivial) (List.cons_ne_nil _ _)
    hserver).mono fun c hc => ?_
  exact ⟨hc.left, ⟨_, hstate ▸ hc.right⟩, hc.toRight, hc.toLeft⟩

section Pairs

variable {server : HmRpcServer σ} {name : Bytes} {params : List HmParam} {kinds : List HmKind}
  {s : σ}

/-- **A proxy conducts a call** of a function of a server: in every state that is all right,
it talks by the script of the call, and gets the reply of the function called directly, which
the server has called. -/
structure Conducts (server : HmRpcServer σ) (proxy : Rpc (Reply β)) (params : List HmParam)
    (out : β → List HmParam) (direct : σ → Reply β × σ) (Ok : σ → Prop) (call : RpcCall)
    (func : HmServerFunc σ) : Prop where
  get : hmHashTableGet server.funcTable call.funcName = some (.ok func)
  create : hmParamPackCreate params = some call.inParams
  name_ne_nil : call.funcName ≠ []
  name_lt : call.funcName.length < 2 ^ 32
  inParams : call.inParams.Sendable
  fits : ∀ s, Ok s → call.Fits (func call.inParams.delivered s).1
  speaks : ∀ s, Ok s →
    Speaks .left proxy (call.script (func call.inParams.delivered s).1) (direct s).1 []
  state : ∀ s, (func call.inParams.delivered s).2 = (direct s).2
  result : ∀ s outPack, (func call.inParams.delivered s).1 = .ok (some outPack) →
    ∃ b, (direct s).1 = .ok b ∧ hmParamPackCreate (out b) = some outPack

/-- Such a call is transparent. -/
theorem Conducts.transparent {proxy : Rpc (Reply β)} {out : β → List HmParam}
    {direct : σ → Reply β × σ} {Ok : σ → Prop} {call : RpcCall} {func : HmServerFunc σ}
    (h : Conducts server proxy params out direct Ok call func) (hs : Ok s) :
    Transparent server proxy s (direct s) :=
  (h.fits s hs).transparent h.get (h.speaks s hs) (h.state s)

/-- **A proxy and a stub without results**, when the kinds agree. -/
theorem exists_conducts_of_stub {func : List HmValue → σ → Reply Unit × σ}
    (hserves : Serves server name (hmStub kinds func)) (hparams : PacksUp params)
    (hkinds : params.map HmParam.kind = kinds) :
    ∃ pack, Conducts server (hmSyncProxy name params) params (fun _ => [])
      (func (params.map HmParam.value)) (fun _ => True) ⟨name, pack, false⟩
      (hmStub kinds func) := by
  obtain ⟨pack, hcreate, hsend, hextract⟩ := hparams.exists_delivered hkinds
  have hstub : ∀ s, hmStub kinds func pack.delivered s =
      ((func (params.map HmParam.value) s).1.map fun _ => none,
        (func (params.map HmParam.value) s).2) := by
    intro s
    obtain ⟨reply, s', hdirect⟩ : ∃ reply s', func (params.map HmParam.value) s = (reply, s') :=
      ⟨_, _, rfl⟩
    simp only [hmStub, hextract, hdirect]
    cases reply <;> rfl
  -- a stub answers with a status alone, so there is no pack to send back
  have hnone : ∀ s outPack, (hmStub kinds func pack.delivered s).1 = .ok outPack →
      outPack = none := by
    intro s outPack hout
    rw [hstub] at hout
    cases hreply : (func (params.map HmParam.value) s).1 <;> rw [hreply] at hout <;> cases hout
    rfl
  have hfits : ∀ s, RpcCall.Fits ⟨name, pack, false⟩ (hmStub kinds func pack.delivered s).1 :=
    fun s => ⟨hserves.ne_nil, hserves.length_lt, hsend,
      fun outPack hout => by rw [hnone s outPack hout]; rfl,
      fun outPack hout => by cases hnone s _ hout⟩
  refine ⟨pack, hserves.get, hcreate, hserves.ne_nil, hserves.length_lt, hsend,
    fun s _ => hfits s, fun s _ => ?_, fun s => congrArg Prod.snd (hstub s),
    fun s outPack hout => by cases hnone s _ hout⟩
  rw [hmSyncProxy, hcreate]
  refine (hfits s).speaks_one_client.bind ?_
  rw [hstub]
  match (func (params.map HmParam.value) s).1 with
  | .error res =>
    simp only [Except.map, rpcResult, dif_neg res.2]
    exact .ret
  | .ok _ => exact .ret

/-- A call is transparent then. -/
theorem transparent_of_stub {func : List HmValue → σ → Reply Unit × σ}
    (hserves : Serves server name (hmStub kinds func)) (hparams : PacksUp params)
    (hkinds : params.map HmParam.kind = kinds) :
    Transparent server (hmSyncProxy name params) s (func (params.map HmParam.value) s) := by
  obtain ⟨pack, h⟩ := exists_conducts_of_stub hserves hparams hkinds
  exact h.transparent trivial

/-- What a stub with results makes of the reply of its function. -/
def stubReply (out : β → List HmParam) (reply : Reply β) : Reply (Option HmParamPack) :=
  reply.bind fun b => (hmParamPackCreate (out b)).elim (.error .fail) fun outPack =>
    .ok (some outPack)

/-- **A proxy and a stub with results**, when the kinds agree, those of the results, too. -/
theorem exists_conducts_of_stubOut {func : List HmValue → σ → Reply β × σ}
    {out : β → List HmParam} {outKinds : List HmKind} {results : List HmValue → Reply β}
    {Ok : σ → Prop} (hserves : Serves server name (hmStubOut kinds func out))
    (hparams : PacksUp params) (hkinds : params.map HmParam.kind = kinds)
    (hout : ∀ s, Ok s → ∀ b, (func (params.map HmParam.value) s).1 = .ok b → PacksUp (out b))
    (houtKinds : ∀ b, (out b).map HmParam.kind = outKinds)
    (hresults : ∀ b, results ((out b).map HmParam.value) = .ok b) :
    ∃ pack, Conducts server (hmSyncProxyOut name params outKinds results) params out
      (func (params.map HmParam.value)) Ok ⟨name, pack, true⟩ (hmStubOut kinds func out) := by
  obtain ⟨pack, hcreate, hsend, hextract⟩ := hparams.exists_delivered hkinds
  -- what the stub makes of the parameters it is delivered, in terms of its function
  have hstub : ∀ s, hmStubOut kinds func out pack.delivered s =
      (stubReply out (func (params.map HmParam.value) s).1,
        (func (params.map HmParam.value) s).2) := by
    intro s
    obtain ⟨reply, s', hdirect⟩ : ∃ reply s', func (params.map HmParam.value) s = (reply, s') :=
      ⟨_, _, rfl⟩
    simp only [hmStubOut, hextract, hdirect]
    cases reply with
    | error res => rfl
    | ok b => cases h : hmParamPackCreate (out b) <;> simp [stubReply, Except.bind, h]
  -- a stub that succeeds has packed what the function returned
  have hok : ∀ s outPack, (hmStubOut kinds func out pack.delivered s).1 = .ok outPack →
      ∃ b outPack', (func (params.map HmParam.value) s).1 = .ok b ∧
        hmParamPackCreate (out b) = some outPack' ∧ outPack = some outPack' := by
    intro s outPack hout
    rw [hstub] at hout
    cases hreply : (func (params.map HmParam.value) s).1 with
    | error res => rw [hreply] at hout; cases hout
    | ok b =>
      rw [hreply] at hout
      cases hpack : hmParamPackCreate (out b) with
      | none => simp [stubReply, Except.bind, hpack] at hout
      | some outPack' =>
        simp only [stubReply, Except.bind, hpack, Option.elim_some, Except.ok.injEq] at hout
        exact ⟨b, outPack', rfl, hpack, hout.symm⟩
  -- so whatever the stub answers fits into a message
  have hfits : ∀ s, Ok s →
      RpcCall.Fits ⟨name, pack, true⟩ (hmStubOut kinds func out pack.delivered s).1 := by
    intro s hs
    refine ⟨hserves.ne_nil, hserves.length_lt, hsend, fun outPack h => ?_, fun outPack h => ?_⟩
    · obtain ⟨_, _, -, -, rfl⟩ := hok s _ h
      rfl
    · obtain ⟨b, outPack', hb, hpack, heq⟩ := hok s _ h
      cases heq
      obtain ⟨outPack'', hcreate', hsend', -⟩ := (hout s hs b hb).exists_delivered (houtKinds b)
      obtain rfl := Option.some.inj (hpack.symm.trans hcreate')
      exact hsend'
  refine ⟨pack, hserves.get, hcreate, hserves.ne_nil, hserves.length_lt, hsend, hfits,
    fun s hs => ?_, fun s => congrArg Prod.snd (hstub s), fun s outPack h => ?_⟩
  · rw [hmSyncProxyOut, hcreate]
    refine (hfits s hs).speaks_one_client.bind ?_
    rw [hstub]
    cases hreply : (func (params.map HmParam.value) s).1 with
    | error res =>
      simp only [stubReply, Except.bind, rpcResult, dif_neg res.2]
      exact .ret
    | ok b =>
      obtain ⟨outPack, hcreate', -, hextract'⟩ :=
        (hout s hs b hreply).exists_delivered (houtKinds b)
      simp only [stubReply, Except.bind, hcreate', Option.elim_some, rpcResult, Option.map_some,
        dif_pos, hextract', hresults]
      exact .ret
  · obtain ⟨b, outPack', hb, hpack, heq⟩ := hok s _ h
    cases heq
    exact ⟨b, hb, hpack⟩

/-- A call is transparent then. -/
theorem transparent_of_stubOut {func : List HmValue → σ → Reply β × σ} {out : β → List HmParam}
    {outKinds : List HmKind} {results : List HmValue → Reply β}
    (hserves : Serves server name (hmStubOut kinds func out))
    (hparams : PacksUp params) (hkinds : params.map HmParam.kind = kinds)
    (hout : ∀ b, (func (params.map HmParam.value) s).1 = .ok b → PacksUp (out b))
    (houtKinds : ∀ b, (out b).map HmParam.kind = outKinds)
    (hresults : ∀ b, results ((out b).map HmParam.value) = .ok b) :
    Transparent server (hmSyncProxyOut name params outKinds results) s
      (func (params.map HmParam.value) s) := by
  have houts : ∀ s', s' = s → ∀ b, (func (params.map HmParam.value) s').1 = .ok b →
      PacksUp (out b) := by
    rintro s' rfl
    exact hout
  obtain ⟨pack, h⟩ := exists_conducts_of_stubOut hserves hparams hkinds houts houtKinds hresults
  exact h.transparent rfl

end Pairs

end Hermes

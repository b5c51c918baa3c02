import Mathlib.Algebra.Group.Action.Defs
import Hermes.Instance
import Hermes.Interleave.Net
import Hermes.Rpc.Service
import Hermes.Rpc.Stores

/-!
# Clients over a network

How Hermes is deployed: a client reaches the three stores by remote procedure calls, over a
connection of its own to each of them, and there a service that serves only this client
(`main.c` of the three store services). The services of a store share its backend. So
messages of all clients and services may interleave in any way, and what a client sees as
one request is many steps.

**It makes no difference** (`Hermes.Env.networked`): whatever clients reach over the network,
they reach when each request is answered in one step, and conversely. So everything that is
proved about pools of clients (`Hermes.System`) is true of deployed ones. No client waits
for ever for its services, either. All this holds over a stream as well as over a transport
that keeps messages apart.

What is exchanged has to fit into the 32 bits that lengths have on the wire: requests have
to be short (`Hermes.Env.Short`), and so has the id that the data store would invent
(`Hermes.Env.ShortId`). Then all answers fit, because the stores have nothing that was not
sent to them, and nothing in them is empty (`Hermes.World.Portable`).
-/

namespace Hermes

open Interleave

/-! ### What the stores have -/

/-- A string that is not empty, and so short that a call may carry some of them. -/
def Portable (b : Bytes) : Prop := b ≠ [] ∧ b.length < 2 ^ 28

/-- The entry of a user. -/
structure Entry.Portable (u : Bytes) (e : Entry) : Prop where
  user : Hermes.Portable u
  rtoken : Hermes.Portable e.rtoken
  rtokenOwner : Hermes.Portable e.rtokenOwner
  wtoken : ∀ w, e.wtoken = some w → Hermes.Portable w.1 ∧ Hermes.Portable w.2

/-- Everything in the tables of a key store. -/
def KeyDb.Portable (db : KeyDb) : Prop := ∀ b u e, db.entry b u = some e → e.Portable u

/-- Everything in the table of a data store. -/
def DataDb.Portable (db : DataDb) : Prop :=
  ∀ id s, db.stored id = some s → Hermes.Portable s.block ∧ Hermes.Portable s.metadata

/-- Everything in the stores. -/
def World.Portable (w : World) : Prop := w.keys.Portable ∧ w.data.Portable

theorem portable_empty (rands : ℕ → HmToken) : (World.empty rands).Portable :=
  ⟨fun _ _ _ h => (by cases h), fun _ _ h => (by cases h)⟩

/-- A request to a store that is short. -/
structure Env.Short (E : Env) (r : Req) : Prop where
  sent : ∀ b ∈ r.sent, b.length < 2 ^ 28
  index : ∀ b i, r = .ks (.getIndexedRights b i) → i < 2 ^ 31
  key : ∀ id k, r = .getPubKeyById id → E.credentials id = some k → Hermes.Portable k

/-- The id that the data store would invent is short. -/
def Env.ShortId (E : Env) (w : World) : Prop := (w.data.freshId E.ids).length < 2 ^ 28

section Keeps

variable {E : Env}

theorem portable_serveKeyStore {r : KeyStoreReq} (hshort : E.Short (.ks r)) {db : KeyDb}
    (hdb : db.Portable) : (serveKeyStore (testKeyStoreDb E.enumerate) r db).2.Portable := by
  intro b u e he
  rcases entry_serveKeyStore_cases E.enumerate r db b u with h |
    ⟨o, t, hr, ⟨-, hu, ho, ht⟩, -, h⟩ | ⟨o, t, e', hr, ⟨-, hu, ho, ht⟩, -, he', h⟩ |
    ⟨o, -, -, h⟩ | ⟨o, e', -, -, he', h⟩
  · exact hdb b u e (h ▸ he)
  · obtain rfl := Option.some.inj (h.symm.trans he)
    obtain rfl : r = .setRtoken b u o t := congrArg Sigma.fst hr
    refine ⟨⟨hu, hshort.sent u (by simp [Req.sent])⟩, ⟨ht, hshort.sent t (by simp [Req.sent])⟩,
      ⟨ho, hshort.sent o (by simp [Req.sent])⟩, fun w hw => ?_⟩
    obtain ⟨e', he', hw'⟩ := Option.bind_eq_some_iff.mp hw
    exact (hdb b u e' he').wtoken w hw'
  · obtain rfl := Option.some.inj (h.symm.trans he)
    obtain rfl : r = .setWtoken b u o t := congrArg Sigma.fst hr
    have hold := hdb b u e' he'
    refine ⟨hold.user, hold.rtoken, hold.rtokenOwner, fun w hw => ?_⟩
    obtain rfl := Option.some.inj hw
    exact ⟨⟨ht, hshort.sent t (by simp [Req.sent])⟩, ⟨ho, hshort.sent o (by simp [Req.sent])⟩⟩
  · cases h.symm.trans he
  · obtain rfl := Option.some.inj (h.symm.trans he)
    have hold := hdb b u e' he'
    exact ⟨hold.user, hold.rtoken, hold.rtokenOwner, fun w hw => by cases hw⟩

theorem portable_setStored {db : DataDb} (hdb : db.Portable) {id : Bytes} {s : Option StoredBlock}
    (hs : ∀ x, s = some x → Hermes.Portable x.block ∧ Hermes.Portable x.metadata) :
    (db.setStored id s).Portable := by
  intro id' x hx
  rw [DataDb.stored_setStored] at hx
  split_ifs at hx
  · exact hs x hx
  · exact hdb id' x hx

theorem portable_setBlock {db : DataDb} (hdb : db.Portable) (id : Bytes) {blk mt : Bytes}
    (mac : Bytes) (hblk : Hermes.Portable blk) (hmt : Hermes.Portable mt) :
    (db.setStored id (some ⟨blk, mt, mac⟩)).Portable :=
  portable_setStored hdb fun x hx => by
    obtain rfl := Option.some.inj hx
    exact ⟨hblk, hmt⟩

theorem portable_serveDataStore {r : DataStoreReq} (hshort : E.Short (.ds r)) {db : DataDb}
    (hdb : db.Portable) : (serveDataStore (testDataStoreDb E.ids) r db).2.Portable := by
  have hsent : ∀ b ∈ (Req.ds r).sent, b ≠ [] → Hermes.Portable b := fun b hb hne =>
    ⟨hne, hshort.sent b hb⟩
  cases r with
  | createBlock blk mt mac =>
    simp only [serveDataStore]
    rw [hmDataStoreCreateBlock_eq]
    split_ifs with hne
    · exact hdb
    · simp only [not_or] at hne
      exact portable_setBlock hdb (db.freshId E.ids) mac (hsent blk (by simp [Req.sent]) hne.1)
        (hsent mt (by simp [Req.sent]) hne.2.1)
  | createBlockWithId id blk mt mac =>
    simp only [serveDataStore]
    rw [hmDataStoreCreateBlockWithId_eq]
    split_ifs with hne
    · exact hdb
    · simp only [not_or] at hne
      cases db.stored id with
      | some x => exact hdb
      | none =>
        exact portable_setBlock hdb id mac (hsent blk (by simp [Req.sent]) hne.1)
          (hsent mt (by simp [Req.sent]) hne.2.1)
  | readBlock id =>
    simp only [serveDataStore]
    rw [hmDataStoreReadBlock_eq]
    split_ifs
    · exact hdb
    · cases db.stored id <;> exact hdb
  | updateBlock id blk mt mac old =>
    simp only [serveDataStore]
    rw [hmDataStoreUpdateBlock_eq]
    split_ifs with hne
    · exact hdb
    · simp only [not_or] at hne
      cases db.stored id with
      | none => exact hdb
      | some x =>
        dsimp only
        split_ifs
        · exact portable_setBlock hdb id mac (hsent blk (by simp [Req.sent]) hne.2.1)
            (hsent mt (by simp [Req.sent]) hne.2.2.1)
        · exact hdb
  | deleteBlock id old =>
    simp only [serveDataStore]
    rw [hmDataStoreDeleteBlock_eq]
    split_ifs
    · exact hdb
    · cases db.stored id with
      | none => exact hdb
      | some x =>
        dsimp only
        split_ifs
        · exact portable_setStored hdb fun y hy => by cases hy
        · exact hdb

/-- **A short request leaves nothing in the stores that is not portable.** -/
theorem World.Portable.handle {w : World} (hw : w.Portable) {r : Req} (hshort : E.Short r) :
    (E.handle w r).2.Portable := by
  cases r with
  | ks r => exact ⟨portable_serveKeyStore hshort hw.1, hw.2⟩
  | ds r => exact ⟨hw.1, portable_serveDataStore hshort hw.2⟩
  | getPubKeyById id => exact hw
  | themis r => exact hw

end Keeps

/-! ### Calls of the stores -/

/-- `Portable` for a parameter: an integer is. -/
def HmParam.Portable : HmParam → Prop
  | .int32 _ => True
  | .buffer b => Hermes.Portable b
  | .bufferC b => Hermes.Portable b

@[simp] theorem HmParam.portable_int32 (v : Int32) : (HmParam.int32 v).Portable := trivial

@[simp] theorem HmParam.portable_buffer {b : Bytes} :
    (HmParam.buffer b).Portable ↔ Hermes.Portable b := Iff.rfl

@[simp] theorem HmParam.portable_bufferC {b : Bytes} :
    (HmParam.bufferC b).Portable ↔ Hermes.Portable b := Iff.rfl

theorem HmParam.Portable.value_ne {p : HmParam} (h : p.Portable) : p.value ≠ .buffer [] := by
  cases p with
  | int32 v => simp [HmParam.value]
  | buffer b => simpa [HmParam.value] using h.1
  | bufferC b => simpa [HmParam.value] using h.1

theorem HmParam.Portable.encodedLength_le {p : HmParam} (h : p.Portable) :
    p.encodedLength ≤ 2 ^ 28 + 8 := by
  cases p with
  | int32 v => simp [HmParam.encodedLength, HmParam.node, HmParamPackNode.encodedLength]
  | buffer b =>
    have hlen := h.2
    simp only [HmParam.encodedLength, HmParam.node, HmParamPackNode.encodedLength, Window.whole]
    omega
  | bufferC b =>
    have hlen := h.2
    simp only [HmParam.encodedLength, HmParam.node, HmParamPackNode.encodedLength, Window.whole]
    omega

/-- A few portable parameters make a pack that can be sent. -/
theorem packsUp_of_portable {params : List HmParam} (hne : params ≠ []) (hmax : params.length ≤ 5)
    (h : ∀ p ∈ params, p.Portable) : PacksUp params := by
  refine ⟨hne, hmax.trans (by decide), ?_⟩
  have hsum : (params.map HmParam.encodedLength).sum ≤
      (params.map HmParam.encodedLength).length • (2 ^ 28 + 8) := by
    refine List.sum_le_card_nsmul _ _ fun n hn => ?_
    obtain ⟨p, hp, rfl⟩ := List.mem_map.mp hn
    exact (h p hp).encodedLength_le
  rw [List.length_map, smul_eq_mul] at hsum
  have hle : params.length * (2 ^ 28 + 8) ≤ 5 * (2 ^ 28 + 8) := Nat.mul_le_mul_right _ hmax
  rw [rpcSize]
  omega

section Calls

variable {σ β : Type} {server : HmRpcServer σ} {name : Bytes} {params : List HmParam}
  {kinds : List HmKind}

/-- **A service carries a call without results** of portable parameters. -/
theorem carried_of_stub {func : List HmValue → σ → Reply Unit × σ}
    (hserves : Serves server name (hmStub kinds func)) (hne : params ≠ [])
    (hmax : params.length ≤ 5) (hparams : ∀ p ∈ params, p.Portable)
    (hkinds : params.map HmParam.kind = kinds) :
    Carried server (hmSyncProxy name params) (func (params.map HmParam.value)) fun _ => True := by
  obtain ⟨pack, h⟩ :=
    exists_conducts_of_stub hserves (packsUp_of_portable hne hmax hparams) hkinds
  exact h.carried (fun p hp => (hparams p hp).value_ne) fun s _ b _ p hp => by simp at hp

/-- **And one with results**, if these are portable. -/
theorem carried_of_stubOut {func : List HmValue → σ → Reply β × σ} {out : β → List HmParam}
    {outKinds : List HmKind} {results : List HmValue → Reply β}
    (hserves : Serves server name (hmStubOut kinds func out)) (hne : params ≠ [])
    (hmax : params.length ≤ 5) (hparams : ∀ p ∈ params, p.Portable)
    (hkinds : params.map HmParam.kind = kinds) (houtNe : ∀ b, out b ≠ [])
    (houtMax : ∀ b, (out b).length ≤ 5) (houtKinds : ∀ b, (out b).map HmParam.kind = outKinds)
    (hresults : ∀ b, results ((out b).map HmParam.value) = .ok b) :
    Carried server (hmSyncProxyOut name params outKinds results)
      (func (params.map HmParam.value)) fun s =>
        ∀ b, (func (params.map HmParam.value) s).1 = .ok b → ∀ p ∈ out b, p.Portable := by
  obtain ⟨pack, h⟩ := exists_conducts_of_stubOut hserves
    (packsUp_of_portable hne hmax hparams) hkinds
    (fun s (hs : ∀ b, (func (params.map HmParam.value) s).1 = .ok b → ∀ p ∈ out b, p.Portable)
      b hb => packsUp_of_portable (houtNe b) (houtMax b) (hs b hb)) houtKinds hresults
  exact h.carried (fun p hp => (hparams p hp).value_ne)
    fun s hs b hb p hp => (hs b hb p hp).value_ne

end Calls

/-! ### The stores over the network -/

/-- The client functions of the key store. -/
def KeyStoreReq.proxy : (r : KeyStoreReq) → Rpc r.Answer
  | .setRtoken b u o t => hmKeyStoreClientSyncCallSetRtoken b u o t
  | .setWtoken b u o t => hmKeyStoreClientSyncCallSetWtoken b u o t
  | .getRtoken b u => hmKeyStoreClientSyncCallGetRtoken b u
  | .getWtoken b u => hmKeyStoreClientSyncCallGetWtoken b u
  | .delRtoken b u o => hmKeyStoreClientSyncCallDelRtoken b u o
  | .delWtoken b u o => hmKeyStoreClientSyncCallDelWtoken b u o
  | .getIndexedRights b i => hmKeyStoreClientSyncCallGetIndexedRights b i

/-- The client functions of the data store. -/
def DataStoreReq.proxy : (r : DataStoreReq) → Rpc r.Answer
  | .createBlock blk mt mac => hmDataStoreClientSyncCallCreateBlock blk mt mac
  | .createBlockWithId id blk mt mac => hmDataStoreClientSyncCallCreateBlockWithId id blk mt mac
  | .readBlock id => hmDataStoreClientSyncCallReadBlock id
  | .updateBlock id blk mt mac old => hmDataStoreClientSyncCallUpdateBlock id blk mt mac old
  | .deleteBlock id old => hmDataStoreClientSyncCallDeleteBlock id old

/-- The servers of the three stores, as they are created over their backends. -/
structure Deployment (E : Env) where
  /-- The key store. -/
  keyStore : HmRpcServer KeyDb
  /-- The data store. -/
  dataStore : HmRpcServer DataDb
  /-- The credential store. -/
  credentialStore : HmRpcServer Unit
  keyStore_eq : hmKeyStoreServerCreate (testKeyStoreDb E.enumerate) = some keyStore
  dataStore_eq : hmDataStoreServerCreate (testDataStoreDb E.ids) = some dataStore
  credentialStore_eq : hmCredentialStoreServerCreate (mapCsDb E.credentials) = some credentialStore

/-- There always are such servers. -/
theorem exists_deployment (E : Env) : Nonempty (Deployment E) := by
  obtain ⟨ks, hks, -⟩ := keyStore_transparent (testKeyStoreDb E.enumerate)
  obtain ⟨ds, hds, -⟩ := dataStore_transparent (testDataStoreDb E.ids)
  obtain ⟨cs, hcs, -⟩ := credentialStore_transparent (mapCsDb E.credentials)
  exact ⟨⟨ks, ds, cs, hks, hds, hcs⟩⟩

section Stores

variable {E : Env} (D : Deployment E)

theorem Deployment.serves_keyStore : ∀ reg ∈ hmKeyStoreFunctions (testKeyStoreDb E.enumerate),
    Serves D.keyStore reg.1 reg.2 := by
  obtain ⟨hnames, hhash⟩ := keyStoreFunctions_names (testKeyStoreDb E.enumerate)
  obtain ⟨server, hserver, hserves⟩ := exists_regAll hnames hhash
  obtain rfl := Option.some.inj (hserver.symm.trans D.keyStore_eq)
  exact hserves

theorem Deployment.serves_dataStore : ∀ reg ∈ hmDataStoreFunctions (testDataStoreDb E.ids),
    Serves D.dataStore reg.1 reg.2 := by
  obtain ⟨hnames, hhash⟩ := dataStoreFunctions_names (testDataStoreDb E.ids)
  obtain ⟨server, hserver, hserves⟩ := exists_regAll hnames hhash
  obtain rfl := Option.some.inj (hserver.symm.trans D.dataStore_eq)
  exact hserves

section KeyStoreCalls

variable {server : HmRpcServer KeyDb} {name : Bytes} {b u o t : Bytes}

theorem carried_setToken {setToken : Bytes → Bytes → Bytes → Bytes → KeyDb → Reply Unit × KeyDb}
    (h : Serves server name (hmKeyStoreSetTokenStub setToken)) (hb : Portable b) (hu : Portable u)
    (ho : Portable o) (ht : Portable t) :
    Carried server (hmKeyStoreSetTokenSyncProxy name b u o t) (setToken b u o t)
      KeyDb.Portable := by
  rw [hmKeyStoreSetTokenSyncProxy, if_neg (by simp [hb.1, hu.1, ho.1, ht.1])]
  refine (carried_of_stub h (List.cons_ne_nil _ _) (by simp) ?_ rfl).mono fun _ _ => trivial
  simpa using ⟨hb, hu, ho, ht⟩

theorem carried_getToken {getToken : Bytes → Bytes → KeyDb → Reply (Bytes × Bytes) × KeyDb}
    (h : Serves server name (hmKeyStoreGetTokenStub getToken)) (hb : Portable b) (hu : Portable u)
    (hget : ∀ db : KeyDb, db.Portable → ∀ x, (getToken b u db).1 = .ok x →
      Portable x.1 ∧ Portable x.2) :
    Carried server (hmKeyStoreGetTokenSyncProxy name b u) (getToken b u) KeyDb.Portable := by
  rw [hmKeyStoreGetTokenSyncProxy, if_neg (by simp [hb.1, hu.1])]
  refine (carried_of_stubOut h (List.cons_ne_nil _ _) (by simp) ?_ rfl
    (fun x => List.cons_ne_nil _ _) (fun x => by simp) (fun x => rfl) fun x => rfl).mono
      fun db hdb x hx => ?_
  · simpa using ⟨hb, hu⟩
  · simpa using hget db hdb x hx

theorem carried_delToken {delToken : Bytes → Bytes → Bytes → KeyDb → Reply Unit × KeyDb}
    (h : Serves server name (hmKeyStoreDelTokenStub delToken)) (hb : Portable b) (hu : Portable u)
    (ho : Portable o) :
    Carried server (hmKeyStoreDelTokenSyncProxy name b u o) (delToken b u o) KeyDb.Portable := by
  rw [hmKeyStoreDelTokenSyncProxy, if_neg (by simp [hb.1, hu.1, ho.1])]
  refine (carried_of_stub h (List.cons_ne_nil _ _) (by simp) ?_ rfl).mono fun _ _ => trivial
  simpa using ⟨hb, hu, ho⟩

theorem portable_getRtoken {enumerate : List Bytes → List Bytes} {db : KeyDb} (hdb : db.Portable)
    {x : Bytes × Bytes} (hx : (hmKeyStoreGetRtoken (testKeyStoreDb enumerate) b u db).1 = .ok x) :
    Portable x.1 ∧ Portable x.2 := by
  rw [hmKeyStoreGetRtoken_eq] at hx
  split_ifs at hx
  cases he : db.entry b u with
  | none => rw [he] at hx; cases hx
  | some e =>
    rw [he] at hx
    cases hx
    exact ⟨(hdb b u e he).rtoken, (hdb b u e he).rtokenOwner⟩

theorem portable_getWtoken {enumerate : List Bytes → List Bytes} {db : KeyDb} (hdb : db.Portable)
    {x : Bytes × Bytes} (hx : (hmKeyStoreGetWtoken (testKeyStoreDb enumerate) b u db).1 = .ok x) :
    Portable x.1 ∧ Portable x.2 := by
  rw [hmKeyStoreGetWtoken_eq] at hx
  split_ifs at hx
  cases hw : writeToken (db.entry b u) with
  | none => rw [hw] at hx; cases hx
  | some w =>
    rw [hw] at hx
    cases hx
    obtain ⟨e, he, hwe⟩ := Option.bind_eq_some_iff.mp hw
    exact (hdb b u e he).wtoken x hwe

theorem portable_getIndexedRights {enumerate : List Bytes → List Bytes}
    (hperm : ∀ l, (enumerate l).Perm l) {db : KeyDb} (hdb : db.Portable) {i : ℕ}
    {x : Bytes × UInt32}
    (hx : (hmKeyStoreGetIndexedRights (testKeyStoreDb enumerate) b i db).1 = .ok x) :
    Portable x.1 := by
  simp only [hmKeyStoreGetIndexedRights, testKeyStoreDb, dbGetIndexedRights] at hx
  split_ifs at hx
  cases hu : (enumerate (db b).keys)[i]? with
  | none => rw [hu] at hx; cases hx
  | some u =>
    rw [hu] at hx
    cases hx
    have hmem : u ∈ db b := (hperm _).mem_iff.mp (List.mem_of_getElem? hu)
    obtain ⟨e, he⟩ := Option.ne_none_iff_exists'.mp (KeyDb.mem_iff.mp hmem)
    exact (hdb b u e he).user

theorem carried_getIndexedRights {enumerate : List Bytes → List Bytes}
    (hperm : ∀ l, (enumerate l).Perm l)
    (h : Serves server hmKeyStoreGetIndexedRightsName
      (hmKeyStoreGetIndexedRightsStub (testKeyStoreDb enumerate)))
    (hb : Portable b) {i : ℕ} (hi : i < 2 ^ 31) :
    Carried server (hmKeyStoreGetIndexedRightsProxy b i)
      (hmKeyStoreGetIndexedRights (testKeyStoreDb enumerate) b i) KeyDb.Portable := by
  -- the server sees the index that was sent as 32 bits
  have hdirect : hmKeyStoreGetIndexedRights (testKeyStoreDb enumerate) b i =
      hmKeyStoreGetIndexedRights (testKeyStoreDb enumerate) b
        ((Int32.ofNat i).toInt % 2 ^ 64).toNat := by
    rw [toNat_toInt_ofNat hi]
  rw [hdirect, hmKeyStoreGetIndexedRightsProxy, if_neg hb.1]
  refine (carried_of_stubOut h (List.cons_ne_nil _ _) (by simp) ?_ rfl
    (fun x => List.cons_ne_nil _ _) (fun x => by simp) (fun x => rfl)
    fun x => by simp [HmParam.value, userAndMask]).mono fun db hdb x hx => ?_
  · simpa using hb
  · simpa using portable_getIndexedRights hperm hdb hx

end KeyStoreCalls

/-- **The service of the key store carries all its requests.** -/
theorem Deployment.carried_keyStore {r : KeyStoreReq} (hshort : E.Short (.ks r))
    (hne : ∀ b ∈ (Req.ks r).sent, b ≠ []) :
    Carried D.keyStore r.proxy (serveKeyStore (testKeyStoreDb E.enumerate) r) KeyDb.Portable := by
  have hserves := D.serves_keyStore
  simp only [hmKeyStoreFunctions, List.forall_mem_cons] at hserves
  obtain ⟨hsetR, hsetW, hgetR, hgetW, hdelR, hdelW, hrights, -⟩ := hserves
  have hport : ∀ b ∈ (Req.ks r).sent, Portable b := fun b hb => ⟨hne b hb, hshort.sent b hb⟩
  cases r with
  | setRtoken b u o t =>
    simp only [Req.sent, List.forall_mem_cons] at hport
    exact carried_setToken hsetR hport.1 hport.2.1 hport.2.2.1 hport.2.2.2.1
  | setWtoken b u o t =>
    simp only [Req.sent, List.forall_mem_cons] at hport
    exact carried_setToken hsetW hport.1 hport.2.1 hport.2.2.1 hport.2.2.2.1
  | getRtoken b u =>
    simp only [Req.sent, List.forall_mem_cons] at hport
    exact carried_getToken hgetR hport.1 hport.2.1 fun db hdb x hx => portable_getRtoken hdb hx
  | getWtoken b u =>
    simp only [Req.sent, List.forall_mem_cons] at hport
    exact carried_getToken hgetW hport.1 hport.2.1 fun db hdb x hx => portable_getWtoken hdb hx
  | delRtoken b u o =>
    simp only [Req.sent, List.forall_mem_cons] at hport
    exact carried_delToken hdelR hport.1 hport.2.1 hport.2.2.1
  | delWtoken b u o =>
    simp only [Req.sent, List.forall_mem_cons] at hport
    exact carried_delToken hdelW hport.1 hport.2.1 hport.2.2.1
  | getIndexedRights b i =>
    simp only [Req.sent, List.forall_mem_cons] at hport
    exact carried_getIndexedRights E.enumerate_perm hrights hport.1 (hshort.index b i rfl)

theorem portable_readBlock {ids : IdSource} {db : DataDb} (hdb : db.Portable) {id : Bytes}
    {x : Bytes × Bytes} (hx : (hmDataStoreReadBlock (testDataStoreDb ids) id db).1 = .ok x) :
    Portable x.1 ∧ Portable x.2 := by
  rw [hmDataStoreReadBlock_eq] at hx
  split_ifs at hx
  cases hs : db.stored id with
  | none => rw [hs] at hx; cases hx
  | some y =>
    rw [hs] at hx
    cases hx
    exact hdb id y hs

theorem createBlock_eq_freshId {ids : IdSource} {db : DataDb} {blk mt mac id : Bytes}
    (h : (hmDataStoreCreateBlock (testDataStoreDb ids) blk mt mac db).1 = .ok id) :
    id = db.freshId ids := by
  rw [hmDataStoreCreateBlock_eq] at h
  split_ifs at h
  cases h
  rfl

/-- **The service of the data store carries all its requests.** -/
theorem Deployment.carried_dataStore {r : DataStoreReq} (hshort : E.Short (.ds r))
    (hne : ∀ b ∈ (Req.ds r).sent, b ≠ []) :
    Carried D.dataStore r.proxy (serveDataStore (testDataStoreDb E.ids) r) fun db =>
      db.Portable ∧ (db.freshId E.ids).length < 2 ^ 28 := by
  have hserves := D.serves_dataStore
  simp only [hmDataStoreFunctions, List.forall_mem_cons] at hserves
  obtain ⟨hcreate, hcreateWithId, hread, hupdate, hdelete, -⟩ := hserves
  have hport : ∀ b ∈ (Req.ds r).sent, Portable b := fun b hb => ⟨hne b hb, hshort.sent b hb⟩
  -- no argument is empty, so neither the call of the client nor its proxy declines
  cases r with
  | createBlock blk mt mac =>
    simp only [Req.sent, List.forall_mem_cons] at hport
    obtain ⟨hblk, hmt, hmac, -⟩ := hport
    rw [DataStoreReq.proxy, hmDataStoreClientSyncCallCreateBlock,
      if_neg (by simp [hblk.1, hmt.1, hmac.1]), hmDataStoreCreateBlockSyncProxy,
      if_neg (by simp [hblk.1, hmt.1, hmac.1])]
    refine (carried_of_stubOut hcreate (List.cons_ne_nil _ _) (by simp) ?_ rfl
      (fun x => List.cons_ne_nil _ _) (fun x => by simp) (fun x => rfl) fun x => rfl).mono
        fun db hdb id hid => ?_
    · simpa using ⟨hblk, hmt, hmac⟩
    · obtain rfl := createBlock_eq_freshId hid
      simpa using ⟨E.ids.pick_ne_nil _ _, hdb.2⟩
  | createBlockWithId id blk mt mac =>
    simp only [Req.sent, List.forall_mem_cons] at hport
    obtain ⟨hid, hblk, hmt, hmac, -⟩ := hport
    rw [DataStoreReq.proxy, hmDataStoreClientSyncCallCreateBlockWithId,
      if_neg (by simp [hid.1, hblk.1, hmt.1, hmac.1]), hmDataStoreCreateBlockWithIdSyncProxy,
      if_neg (by simp [hid.1, hblk.1, hmt.1, hmac.1])]
    refine (carried_of_stub hcreateWithId (List.cons_ne_nil _ _) (by simp) ?_ rfl).mono
      fun _ _ => trivial
    simpa using ⟨hid, hblk, hmt, hmac⟩
  | readBlock id =>
    simp only [Req.sent, List.forall_mem_cons] at hport
    rw [DataStoreReq.proxy, hmDataStoreClientSyncCallReadBlock, if_neg hport.1.1,
      hmDataStoreReadBlockSyncProxy, if_neg hport.1.1]
    refine (carried_of_stubOut hread (List.cons_ne_nil _ _) (by simp) ?_ rfl
      (fun x => List.cons_ne_nil _ _) (fun x => by simp) (fun x => rfl) fun x => rfl).mono
        fun db hdb x hx => ?_
    · simpa using hport.1
    · simpa using portable_readBlock hdb.1 hx
  | updateBlock id blk mt mac old =>
    simp only [Req.sent, List.forall_mem_cons] at hport
    obtain ⟨hid, hblk, hmt, hmac, hold, -⟩ := hport
    rw [DataStoreReq.proxy, hmDataStoreClientSyncCallUpdateBlock,
      if_neg (by simp [hid.1, hblk.1, hmt.1, hmac.1, hold.1]), hmDataStoreUpdateBlockSyncProxy,
      if_neg (by simp [hid.1, hblk.1, hmt.1, hmac.1, hold.1])]
    refine (carried_of_stub hupdate (List.cons_ne_nil _ _) (by simp) ?_ rfl).mono fun _ _ => trivial
    simpa using ⟨hid, hblk, hmt, hmac, hold⟩
  | deleteBlock id old =>
    simp only [Req.sent, List.forall_mem_cons] at hport
    obtain ⟨hid, hold, -⟩ := hport
    rw [DataStoreReq.proxy, hmDataStoreClientSyncCallDeleteBlock,
      if_neg (by simp [hid.1, hold.1]), hmDataStoreDeleteBlockSyncProxy,
      if_neg (by simp [hid.1, hold.1])]
    refine (carried_of_stub hdelete (List.cons_ne_nil _ _) (by simp) ?_ rfl).mono fun _ _ => trivial
    simpa using ⟨hid, hold⟩

theorem Deployment.serves_credentialStore :
    Serves D.credentialStore hmCredentialStoreGetPubKeyByIdName
      (hmCredentialStoreGetPubKeyByIdStub (mapCsDb E.credentials)) := by
  have hname : hmCredentialStoreGetPubKeyByIdName ≠ [] ∧
      hmCredentialStoreGetPubKeyByIdName.length < 2 ^ 32 := by decide +kernel
  have hnames : ∀ name ∈ (hmCredentialStoreFunctions (mapCsDb E.credentials)).map Prod.fst,
      name ≠ [] ∧ name.length < 2 ^ 32 := by
    simpa [hmCredentialStoreFunctions] using hname
  obtain ⟨server, hserver, hserves⟩ := exists_regAll hnames (List.nodup_singleton _)
  obtain rfl := Option.some.inj (hserver.symm.trans D.credentialStore_eq)
  exact hserves _ (List.mem_singleton_self _)

/-- **The service of the credential store carries its request.** -/
theorem Deployment.carried_credentialStore {id : Bytes} (hshort : E.Short (.getPubKeyById id))
    (hne : id ≠ []) :
    Carried D.credentialStore (hmCredentialStoreClientSyncCallGetPubKeyById id)
      (fun s => (hmCredentialStoreGetPubKeyById E.credentials id, s)) fun _ => True := by
  have hdirect : (fun s : Unit => (hmCredentialStoreGetPubKeyById E.credentials id, s)) =
      (mapCsDb E.credentials).getPubKeyById id := by
    funext s
    exact (getPubKeyById_mapCsDb E.credentials id).symm
  rw [hdirect, hmCredentialStoreClientSyncCallGetPubKeyById, if_neg hne,
    hmCredentialStoreGetPubKeyByIdSyncProxy, if_neg hne]
  refine (carried_of_stubOut D.serves_credentialStore (List.cons_ne_nil _ _) (by simp) ?_ rfl
    (fun x => List.cons_ne_nil _ _) (fun x => by simp) (fun x => rfl) fun x => rfl).mono
      fun s _ key hkey => ?_
  · simpa using ⟨hne, hshort.sent id (by simp [Req.sent])⟩
  · have hsome : E.credentials id = some key := by
      have hkey' : ((mapCsDb E.credentials).getPubKeyById id ()).1 = .ok key := hkey
      rw [getPubKeyById_mapCsDb] at hkey'
      exact getPubKeyById_ok (w := World.empty fun _ => ⟨List.replicate 64 0, rfl⟩) hkey'
    simpa using hshort.key id key rfl hsome

/-! ### Requests that are not sent -/

/-- A proxy of the key store declines a request with an empty string, as the key store
would. -/
theorem declines_keyStore {r : KeyStoreReq} (h : ∃ b ∈ (Req.ks r).sent, b = []) :
    ∃ a, r.proxy = .ret a ∧
      ∀ db, serveKeyStore (testKeyStoreDb E.enumerate) r db = (a, db) := by
  cases r with
  | setRtoken b u o t =>
    have hc : b = [] ∨ u = [] ∨ o = [] ∨ t = [] := by simpa [Req.sent] using h
    exact ⟨_, if_pos hc, fun db => if_pos hc⟩
  | setWtoken b u o t =>
    have hc : b = [] ∨ u = [] ∨ o = [] ∨ t = [] := by simpa [Req.sent] using h
    exact ⟨_, if_pos hc, fun db => if_pos hc⟩
  | getRtoken b u =>
    have hc : b = [] ∨ u = [] := by simpa [Req.sent] using h
    exact ⟨_, if_pos hc, fun db => if_pos hc⟩
  | getWtoken b u =>
    have hc : b = [] ∨ u = [] := by simpa [Req.sent] using h
    exact ⟨_, if_pos hc, fun db => if_pos hc⟩
  | delRtoken b u o =>
    have hc : b = [] ∨ u = [] ∨ o = [] := by simpa [Req.sent] using h
    exact ⟨_, if_pos hc, fun db => if_pos hc⟩
  | delWtoken b u o =>
    have hc : b = [] ∨ u = [] ∨ o = [] := by simpa [Req.sent] using h
    exact ⟨_, if_pos hc, fun db => if_pos hc⟩
  | getIndexedRights b i =>
    have hc : b = [] := by simpa [Req.sent] using h
    exact ⟨_, if_pos hc, fun db => if_pos hc⟩

/-- And a client function of the data store. -/
theorem declines_dataStore {r : DataStoreReq} (h : ∃ b ∈ (Req.ds r).sent, b = []) :
    ∃ a, r.proxy = .ret a ∧ ∀ db, serveDataStore (testDataStoreDb E.ids) r db = (a, db) := by
  cases r with
  | createBlock blk mt mac =>
    have hc : blk = [] ∨ mt = [] ∨ mac = [] := by simpa [Req.sent] using h
    exact ⟨_, if_pos hc, fun db => if_pos hc⟩
  | createBlockWithId id blk mt mac =>
    have hc : blk = [] ∨ mt = [] ∨ mac = [] ∨ id = [] := by
      have hc' : id = [] ∨ blk = [] ∨ mt = [] ∨ mac = [] := by simpa [Req.sent] using h
      tauto
    exact ⟨_, if_pos hc, fun db => if_pos hc⟩
  | readBlock id =>
    have hc : id = [] := by simpa [Req.sent] using h
    exact ⟨_, if_pos hc, fun db => if_pos hc⟩
  | updateBlock id blk mt mac old =>
    have hc : id = [] ∨ blk = [] ∨ mt = [] ∨ mac = [] ∨ old = [] := by simpa [Req.sent] using h
    exact ⟨_, if_pos hc, fun db => if_pos hc⟩
  | deleteBlock id old =>
    have hc : id = [] ∨ old = [] := by simpa [Req.sent] using h
    exact ⟨_, if_pos hc, fun db => if_pos hc⟩

end Stores

/-! ### Clients and services -/

/-- The stores a client is connected to. -/
inductive Store where
  | keyStore : Store
  | dataStore : Store
  | credentialStore : Store
  deriving DecidableEq

/-- The store a request is sent to; the cryptography is in the client's own process. -/
def Req.dest : Req → Option Store
  | .ks _ => some .keyStore
  | .ds _ => some .dataStore
  | .getPubKeyById _ => some .credentialStore
  | .themis _ => none

/-- What a client does for a request to a store. -/
def Req.proxy : (r : Req) → Rpc r.Answer
  | .ks r => r.proxy
  | .ds r => r.proxy
  | .getPubKeyById id => hmCredentialStoreClientSyncCallGetPubKeyById id
  -- such a request is sent to no store
  | .themis _ => .stop .assertion

/-- How requests are carried by the services of a deployment. -/
def Env.carriage (E : Env) (D : Deployment E) :
    Carriage World Req Req.Answer Store UInt8 Failure where
  handle := E.handle
  dest := Req.dest
  proxy := Req.proxy
  Cmd
    | .keyStore => Heard KeyDb
    | .dataStore => Heard DataDb
    | .credentialStore => Heard Unit
  listen
    | .keyStore => hmRpcServerListen D.keyStore
    | .dataStore => hmRpcServerListen D.dataStore
    | .credentialStore => hmRpcServerListen D.credentialStore
  exec
    | .keyStore, heard, w => ((heard.serve w.keys).1, { w with keys := (heard.serve w.keys).2 })
    | .dataStore, heard, w => ((heard.serve w.data).1, { w with data := (heard.serve w.data).2 })
    | .credentialStore, heard, w => ((heard.serve ()).1, w)

/-- **Short requests are carried faithfully.** -/
theorem faithful_carriage (E : Env) (D : Deployment E) :
    (E.carriage D).Faithful (fun f => f ≠ []) (fun w => w.Portable ∧ E.ShortId w) E.ShortId
      E.Short where
  waits κ := by cases κ <;> exact waits_hmRpcServerListen _
  keeps w r hw hshort hid := ⟨hw.1.handle hshort, hid⟩
  carried r κ hshort hd := by
    cases r with
    | ks r =>
      obtain rfl : Store.keyStore = κ := Option.some.inj hd
      -- a proxy declines what has an empty part, and so does the store; all else is carried
      by_cases h : ∃ b ∈ (Req.ks r).sent, b = []
      · obtain ⟨a, hproxy, ha⟩ := declines_keyStore (E := E) h
        refine Or.inl ⟨a, hproxy, fun w => ?_⟩
        show (let p := serveKeyStore (testKeyStoreDb E.enumerate) r w.keys
          ((p.1, { w with keys := p.2 }) : r.Answer × World)) = (a, w)
        rw [ha w.keys]
      · have hne : ∀ b ∈ (Req.ks r).sent, b ≠ [] := fun b hb hc => h ⟨b, hb, hc⟩
        obtain ⟨frames, heard, hlisten, hclean, hcall⟩ := D.carried_keyStore hshort hne
        refine Or.inr ⟨frames, heard, hlisten, hclean, fun w hw => ?_⟩
        obtain ⟨f, inp, hproxy, hserve, hleaves, hrest⟩ := hcall w.keys hw.1.1
        exact ⟨f, inp, hproxy, hserve, congrArg (fun keys => { w with keys := keys }) hleaves,
          hrest⟩
    | ds r =>
      obtain rfl : Store.dataStore = κ := Option.some.inj hd
      by_cases h : ∃ b ∈ (Req.ds r).sent, b = []
      · obtain ⟨a, hproxy, ha⟩ := declines_dataStore (E := E) h
        refine Or.inl ⟨a, hproxy, fun w => ?_⟩
        show (let p := serveDataStore (testDataStoreDb E.ids) r w.data
          ((p.1, { w with data := p.2 }) : r.Answer × World)) = (a, w)
        rw [ha w.data]
      · have hne : ∀ b ∈ (Req.ds r).sent, b ≠ [] := fun b hb hc => h ⟨b, hb, hc⟩
        obtain ⟨frames, heard, hlisten, hclean, hcall⟩ := D.carried_dataStore hshort hne
        refine Or.inr ⟨frames, heard, hlisten, hclean, fun w hw => ?_⟩
        obtain ⟨f, inp, hproxy, hserve, hleaves, hrest⟩ := hcall w.data ⟨hw.1.2, hw.2⟩
        exact ⟨f, inp, hproxy, hserve, congrArg (fun data => { w with data := data }) hleaves,
          hrest⟩
    | getPubKeyById id =>
      obtain rfl : Store.credentialStore = κ := Option.some.inj hd
      by_cases h : id = []
      · exact Or.inl ⟨_, if_pos h, fun w => congrArg (fun a => (a, w)) (if_pos h)⟩
      · obtain ⟨frames, heard, hlisten, hclean, hcall⟩ := D.carried_credentialStore hshort h
        refine Or.inr ⟨frames, heard, hlisten, hclean, fun w _ => ?_⟩
        obtain ⟨f, inp, hproxy, hserve, -, hrest⟩ := hcall () trivial
        exact ⟨f, inp, hproxy, hserve, rfl, hrest⟩
    | themis r => cases hd

/-! ### It makes no difference -/

namespace Env

variable {E : Env} {allowed : Call → Prop} {γ : Type} {W : Carrier UInt8 Failure γ}

/-- Clients connected to the services of a deployment. -/
abbrev Networked (E : Env) (D : Deployment E) (γ : Type) := Net (E.carriage D) γ Call Result

/-- What clients reach over the network, from empty stores, as long as the requests that are sent
and the ids that the data store would make up are short. Each call has links of its own to the
three services, which are fresh when it starts. -/
abbrev NetworkRuns (E : Env) (allowed : Call → Prop) {D : Deployment E}
    (W : Carrier UInt8 Failure γ) (rands : ℕ → HmToken) (N : E.Networked D γ) : Prop :=
  Net.Runs W (E.honest allowed).starts E.ShortId E.Short ⟨World.empty rands, []⟩ N

/-- What they reach when each request is answered in one step, as long as requests are
short. -/
abbrev ShortRuns (E : Env) (allowed : Call → Prop) (rands : ℕ → HmToken) (P : Clients) : Prop :=
  (E.honest allowed).RunsWithin (Pool.Fit E.ShortId E.Short) ⟨World.empty rands, []⟩ P

theorem exists_networkRuns (hW : W.Conveys fun f => f ≠ []) (D : Deployment E)
    {rands : ℕ → HmToken} (hid : E.ShortId (World.empty rands)) {P : Clients}
    (hrun : E.ShortRuns allowed rands P) :
    ∃ N : E.Networked D γ, E.NetworkRuns allowed W rands N ∧ Rests W N P :=
  exists_net hW (faithful_carriage E D) (fun _ _ h => h) (fun _ _ _ _ h => h)
    ⟨portable_empty rands, hid⟩ hid hrun

/-- **A network makes no difference.** Clients of registered users that reach the three
stores through services, over any carrier that conveys strings which are not empty, with the
actions of all of them interleaved in any way: whatever they reach is shown by a pool of the
same calls in which each request is answered in one step, and none of them is ever stuck.
Conversely, whatever such a pool reaches is shown by clients over the network, with nothing
under way. -/
theorem networked (hW : W.Conveys fun f => f ≠ []) (D : Deployment E) {rands : ℕ → HmToken}
    (hid : E.ShortId (World.empty rands)) :
    (∀ N : E.Networked D γ, E.NetworkRuns allowed W rands N →
      N.Live W ∧ ∃ P, (E.honest allowed).Runs ⟨World.empty rands, []⟩ P ∧ N.Shows P) ∧
    ∀ P, E.ShortRuns allowed rands P →
      ∃ N : E.Networked D γ, E.NetworkRuns allowed W rands N ∧ N.Shows P ∧ N.AtRest := by
  refine ⟨fun N hrun => ?_, fun P hrun => ?_⟩
  · obtain ⟨P, hP, hmatch, hinv⟩ := Net.Runs.matched hW (faithful_carriage E D)
      (fun _ _ h => h) (fun P r => @honest_handle E allowed P r)
      ⟨portable_empty rands, hid⟩ hid hrun
    exact ⟨hmatch.live hW hinv, P, hP, hmatch.shows⟩
  · obtain ⟨N, hN, hrests⟩ := exists_networkRuns hW D hid hrun
    exact ⟨N, hN, hrests.shows, hrests.atRest⟩

/-! ### A run -/

/-- A request is short, computed. -/
def shortTest (E : Env) (r : Req) : Bool :=
  r.sent.all (fun b => b.length < 2 ^ 28) &&
    match r with
    | .ks (.getIndexedRights _ i) => i < 2 ^ 31
    | .getPubKeyById id => (E.credentials id).all fun k => k ≠ [] ∧ k.length < 2 ^ 28
    | _ => true

theorem short_of_test {r : Req} (h : E.shortTest r = true) : E.Short r := by
  obtain ⟨hsent, hrest⟩ := Bool.and_eq_true_iff.mp h
  refine ⟨fun b hb => by simpa using List.all_eq_true.mp hsent b hb, ?_, ?_⟩
  · rintro b i rfl
    simpa using hrest
  · rintro id k rfl hk
    have hall : (E.credentials id).all (fun k => decide (k ≠ [] ∧ k.length < 2 ^ 28)) = true :=
      hrest
    rw [hk] at hall
    have hport : k ≠ [] ∧ k.length < 2 ^ 28 := of_decide_eq_true hall
    exact hport

/-- Everything in a pool is short, computed. -/
def fitTest (E : Env) (P : Clients) : Bool :=
  (P.state.data.freshId E.ids).length < 2 ^ 28 &&
    P.threads.all fun t => t.prog.pending?.all E.shortTest

theorem fit_of_test {P : Clients} (h : E.fitTest P = true) : P.Fit E.ShortId E.Short := by
  obtain ⟨hid, hthreads⟩ := Bool.and_eq_true_iff.mp h
  have hlt : (P.state.data.freshId E.ids).length < 2 ^ 28 := of_decide_eq_true hid
  refine ⟨hlt, fun u hu r k hr => ?_⟩
  have htest := List.all_eq_true.mp hthreads u hu
  rw [hr] at htest
  exact short_of_test htest

end Env

theorem shortRuns_sharing : demoEnv.ShortRuns (fun _ => True) demoRands sharing := by
  refine System.runsWithin_play (fun P => Env.fit_of_test) Env.honest_handle _ (fun c hc => ?_) _ ?_
  · rw [Move.starts_oneByOne] at hc
    exact ⟨⟨registered_sharedWithBob c hc, trivial⟩, 8, rfl⟩
  · decide +kernel

/-- Over the network, Alice creates a block and lets Bob read it and update it. -/
theorem Env.networked_sharing : ∃ (D : Deployment demoEnv) (N : demoEnv.Networked D UInt8),
    demoEnv.NetworkRuns (fun _ => True) (Carrier.stream UInt8 Failure) demoRands N ∧
      N.Shows sharing ∧ N.AtRest ∧ N.Live (Carrier.stream UInt8 Failure) := by
  obtain ⟨D⟩ := exists_deployment demoEnv
  have hid : demoEnv.ShortId (World.empty demoRands) := by
    show ((World.empty demoRands).data.freshId demoEnv.ids).length < 2 ^ 28
    decide +kernel
  obtain ⟨hmatched, hshown⟩ := Env.networked conveys_stream_ne_nil D hid
  obtain ⟨N, hN, hshows, hrest⟩ := hshown sharing shortRuns_sharing
  exact ⟨D, N, hN, hshows, hrest, (hmatched N hN).1⟩

end Hermes

import Hermes.DataStore
import Hermes.KeyStore
import Hermes.Rpc.Stub

/-!
# The three stores over RPC

The proxies and stubs of the key store, the data store and the credential store
(`key_store/functions.c`, `data_store/functions.c`, `credential_store/functions.c`), the
servers that register the stubs, and the client functions in front of the proxies.

Calling a store over RPC is calling it directly (`Hermes.stores_transparent`): the thirteen
pairs agree on the order and the kinds of all parameters.
-/

namespace Hermes

variable {σ : Type}

/-- Two buffers taken out of a pack. There is no other case, by the kinds asked for. -/
def twoBuffers : List HmValue → Reply (Bytes × Bytes)
  | [.buffer a, .buffer b] => .ok (a, b)
  | _ => .error .fail

/-- A buffer taken out of a pack. -/
def oneBuffer : List HmValue → Reply Bytes
  | [.buffer a] => .ok a
  | _ => .error .fail

/-! ### The key store -/

section KeyStore

/-- `hm_key_store_set_rtoken_NAME` -/
def hmKeyStoreSetRtokenName : Bytes := cString "hm_key_store_set_rtoken"

/-- `hm_key_store_set_wtoken_NAME` -/
def hmKeyStoreSetWtokenName : Bytes := cString "hm_key_store_set_wtoken"

/-- `hm_key_store_get_rtoken_NAME` -/
def hmKeyStoreGetRtokenName : Bytes := cString "hm_key_store_get_rtoken"

/-- `hm_key_store_get_wtoken_NAME` -/
def hmKeyStoreGetWtokenName : Bytes := cString "hm_key_store_get_wtoken"

/-- `hm_key_store_del_rtoken_NAME` -/
def hmKeyStoreDelRtokenName : Bytes := cString "hm_key_store_del_rtoken"

/-- `hm_key_store_del_wtoken_NAME` -/
def hmKeyStoreDelWtokenName : Bytes := cString "hm_key_store_del_wtoken"

/-- `hm_key_store_get_indexed_rights_NAME` -/
def hmKeyStoreGetIndexedRightsName : Bytes := cString "hm_key_store_get_indexed_rights"

/-- The body shared by the two `hm_key_store_set_*_sync_proxy`. -/
def hmKeyStoreSetTokenSyncProxy (name blockId userId ownerId token : Bytes) : Rpc (Reply Unit) :=
  if blockId = [] ∨ userId = [] ∨ ownerId = [] ∨ token = [] then .ret (.error .invalidParameter)
  else hmSyncProxy name [.bufferC blockId, .bufferC userId, .bufferC ownerId, .bufferC token]

/-- `hm_key_store_set_rtoken_sync_proxy` -/
def hmKeyStoreSetRtokenSyncProxy : Bytes → Bytes → Bytes → Bytes → Rpc (Reply Unit) :=
  hmKeyStoreSetTokenSyncProxy hmKeyStoreSetRtokenName

/-- `hm_key_store_set_wtoken_sync_proxy` -/
def hmKeyStoreSetWtokenSyncProxy : Bytes → Bytes → Bytes → Bytes → Rpc (Reply Unit) :=
  hmKeyStoreSetTokenSyncProxy hmKeyStoreSetWtokenName

/-- The body shared by the two `hm_key_store_get_*token_sync_proxy`. -/
def hmKeyStoreGetTokenSyncProxy (name blockId userId : Bytes) : Rpc (Reply (Bytes × Bytes)) :=
  if blockId = [] ∨ userId = [] then .ret (.error .invalidParameter)
  else hmSyncProxyOut name [.bufferC blockId, .bufferC userId] [.buffer, .buffer] twoBuffers

/-- `hm_key_store_get_rtoken_sync_proxy` -/
def hmKeyStoreGetRtokenSyncProxy : Bytes → Bytes → Rpc (Reply (Bytes × Bytes)) :=
  hmKeyStoreGetTokenSyncProxy hmKeyStoreGetRtokenName

/-- `hm_key_store_get_wtoken_sync_proxy` -/
def hmKeyStoreGetWtokenSyncProxy : Bytes → Bytes → Rpc (Reply (Bytes × Bytes)) :=
  hmKeyStoreGetTokenSyncProxy hmKeyStoreGetWtokenName

/-- The body shared by the two `hm_key_store_del_*_sync_proxy`. -/
def hmKeyStoreDelTokenSyncProxy (name blockId userId ownerId : Bytes) : Rpc (Reply Unit) :=
  if blockId = [] ∨ userId = [] ∨ ownerId = [] then .ret (.error .invalidParameter)
  else hmSyncProxy name [.bufferC blockId, .bufferC userId, .bufferC ownerId]

/-- `hm_key_store_del_rtoken_sync_proxy` -/
def hmKeyStoreDelRtokenSyncProxy : Bytes → Bytes → Bytes → Rpc (Reply Unit) :=
  hmKeyStoreDelTokenSyncProxy hmKeyStoreDelRtokenName

/-- `hm_key_store_del_wtoken_sync_proxy` -/
def hmKeyStoreDelWtokenSyncProxy : Bytes → Bytes → Bytes → Rpc (Reply Unit) :=
  hmKeyStoreDelTokenSyncProxy hmKeyStoreDelWtokenName

/-- A user and a mask taken out of a pack. -/
def userAndMask : List HmValue → Reply (Bytes × UInt32)
  | [.buffer userId, .int32 rightsMask] => .ok (userId, rightsMask.toUInt32)
  | _ => .error .fail

/-- `hm_key_store_get_indexed_rights_proxy`: 32 bits of the index are sent. -/
def hmKeyStoreGetIndexedRightsProxy (blockId : Bytes) (index : ℕ) :
    Rpc (Reply (Bytes × UInt32)) :=
  if blockId = [] then .ret (.error .invalidParameter)
  else hmSyncProxyOut hmKeyStoreGetIndexedRightsName
    [.bufferC blockId, .int32 (Int32.ofNat index)] [.buffer, .int32] userAndMask

variable (db : HmKsDb σ)

/-- The body shared by the two `hm_key_store_set_*_stub`. -/
def hmKeyStoreSetTokenStub (setToken : Bytes → Bytes → Bytes → Bytes → σ → Reply Unit × σ) :
    HmServerFunc σ :=
  hmStub [.buffer, .buffer, .buffer, .buffer] fun values s =>
    match values with
    | [.buffer blockId, .buffer userId, .buffer ownerId, .buffer token] =>
      setToken blockId userId ownerId token s
    | _ => (.error .fail, s)

/-- `hm_key_store_set_rtoken_stub` -/
def hmKeyStoreSetRtokenStub : HmServerFunc σ := hmKeyStoreSetTokenStub (hmKeyStoreSetRtoken db)

/-- `hm_key_store_set_wtoken_stub` -/
def hmKeyStoreSetWtokenStub : HmServerFunc σ := hmKeyStoreSetTokenStub (hmKeyStoreSetWtoken db)

/-- The body shared by the two `hm_key_store_get_*token_stub`. -/
def hmKeyStoreGetTokenStub (getToken : Bytes → Bytes → σ → Reply (Bytes × Bytes) × σ) :
    HmServerFunc σ :=
  hmStubOut [.buffer, .buffer] (fun values s =>
    match values with
    | [.buffer blockId, .buffer userId] => getToken blockId userId s
    | _ => (.error .fail, s)) fun out => [.buffer out.1, .buffer out.2]

/-- `hm_key_store_get_rtoken_stub` -/
def hmKeyStoreGetRtokenStub : HmServerFunc σ := hmKeyStoreGetTokenStub (hmKeyStoreGetRtoken db)

/-- `hm_key_store_get_wtoken_stub` -/
def hmKeyStoreGetWtokenStub : HmServerFunc σ := hmKeyStoreGetTokenStub (hmKeyStoreGetWtoken db)

/-- The body shared by the two `hm_key_store_del_*_stub`. -/
def hmKeyStoreDelTokenStub (delToken : Bytes → Bytes → Bytes → σ → Reply Unit × σ) :
    HmServerFunc σ :=
  hmStub [.buffer, .buffer, .buffer] fun values s =>
    match values with
    | [.buffer blockId, .buffer userId, .buffer ownerId] => delToken blockId userId ownerId s
    | _ => (.error .fail, s)

/-- `hm_key_store_del_rtoken_stub` -/
def hmKeyStoreDelRtokenStub : HmServerFunc σ := hmKeyStoreDelTokenStub (hmKeyStoreDelRtoken db)

/-- `hm_key_store_del_wtoken_stub` -/
def hmKeyStoreDelWtokenStub : HmServerFunc σ := hmKeyStoreDelTokenStub (hmKeyStoreDelWtoken db)

/-- `hm_key_store_get_indexed_rights_stub`: the index becomes a `size_t`. -/
def hmKeyStoreGetIndexedRightsStub : HmServerFunc σ :=
  hmStubOut [.buffer, .int32] (fun values s =>
    match values with
    | [.buffer blockId, .int32 index] =>
      hmKeyStoreGetIndexedRights db blockId (index.toInt % 2 ^ 64).toNat s
    | _ => (.error .fail, s)) fun out => [.buffer out.1, .int32 out.2.toInt32]

/-- The functions a key store server registers, in this order. -/
def hmKeyStoreFunctions : List (Bytes × HmServerFunc σ) :=
  [(hmKeyStoreSetRtokenName, hmKeyStoreSetRtokenStub db),
   (hmKeyStoreSetWtokenName, hmKeyStoreSetWtokenStub db),
   (hmKeyStoreGetRtokenName, hmKeyStoreGetRtokenStub db),
   (hmKeyStoreGetWtokenName, hmKeyStoreGetWtokenStub db),
   (hmKeyStoreDelRtokenName, hmKeyStoreDelRtokenStub db),
   (hmKeyStoreDelWtokenName, hmKeyStoreDelWtokenStub db),
   (hmKeyStoreGetIndexedRightsName, hmKeyStoreGetIndexedRightsStub db)]

/-- `hm_key_store_server_create` -/
def hmKeyStoreServerCreate : Option (HmRpcServer σ) := hmRpcServerRegAll (hmKeyStoreFunctions db)

/-- `hm_key_store_client_sync_call_set_rtoken` -/
def hmKeyStoreClientSyncCallSetRtoken (blockId userId ownerId readToken : Bytes) :
    Rpc (Reply Unit) :=
  hmKeyStoreSetRtokenSyncProxy blockId userId ownerId readToken

/-- `hm_key_store_client_sync_call_set_wtoken` -/
def hmKeyStoreClientSyncCallSetWtoken (blockId userId ownerId writeToken : Bytes) :
    Rpc (Reply Unit) :=
  hmKeyStoreSetWtokenSyncProxy blockId userId ownerId writeToken

/-- `hm_key_store_client_sync_call_get_rtoken` -/
def hmKeyStoreClientSyncCallGetRtoken (blockId userId : Bytes) : Rpc (Reply (Bytes × Bytes)) :=
  hmKeyStoreGetRtokenSyncProxy blockId userId

/-- `hm_key_store_client_sync_call_get_wtoken` -/
def hmKeyStoreClientSyncCallGetWtoken (blockId userId : Bytes) : Rpc (Reply (Bytes × Bytes)) :=
  hmKeyStoreGetWtokenSyncProxy blockId userId

/-- `hm_key_store_client_sync_call_del_rtoken` -/
def hmKeyStoreClientSyncCallDelRtoken (blockId userId ownerId : Bytes) : Rpc (Reply Unit) :=
  hmKeyStoreDelRtokenSyncProxy blockId userId ownerId

/-- `hm_key_store_client_sync_call_del_wtoken` -/
def hmKeyStoreClientSyncCallDelWtoken (blockId userId ownerId : Bytes) : Rpc (Reply Unit) :=
  hmKeyStoreDelWtokenSyncProxy blockId userId ownerId

/-- `hm_key_store_client_sync_call_get_indexed_rights` -/
def hmKeyStoreClientSyncCallGetIndexedRights (blockId : Bytes) (index : ℕ) :
    Rpc (Reply (Bytes × UInt32)) :=
  hmKeyStoreGetIndexedRightsProxy blockId index

end KeyStore

/-! ### The data store -/

section DataStore

/-- `hm_data_store_create_block_NAME` -/
def hmDataStoreCreateBlockName : Bytes := cString "hm_data_store_create_block"

/-- `hm_data_store_create_block_with_id_NAME` -/
def hmDataStoreCreateBlockWithIdName : Bytes := cString "hm_data_store_create_block_with_id"

/-- `hm_data_store_read_block_NAME` -/
def hmDataStoreReadBlockName : Bytes := cString "hm_data_store_read_block"

/-- `hm_data_store_update_block_NAME` -/
def hmDataStoreUpdateBlockName : Bytes := cString "hm_data_store_update_block"

/-- `hm_data_store_delete_block_NAME` -/
def hmDataStoreDeleteBlockName : Bytes := cString "hm_data_store_delete_block"

/-- `hm_data_store_create_block_sync_proxy` -/
def hmDataStoreCreateBlockSyncProxy (block metadata mac : Bytes) : Rpc (Reply Bytes) :=
  if block = [] ∨ metadata = [] ∨ mac = [] then .ret (.error .invalidParameter)
  else hmSyncProxyOut hmDataStoreCreateBlockName [.bufferC block, .bufferC metadata, .bufferC mac]
    [.buffer] oneBuffer

/-- `hm_data_store_create_block_with_id_sync_proxy` -/
def hmDataStoreCreateBlockWithIdSyncProxy (id block metadata mac : Bytes) : Rpc (Reply Unit) :=
  if block = [] ∨ metadata = [] ∨ mac = [] ∨ id = [] then .ret (.error .invalidParameter)
  else hmSyncProxy hmDataStoreCreateBlockWithIdName
    [.bufferC id, .bufferC block, .bufferC metadata, .bufferC mac]

/-- `hm_data_store_read_block_sync_proxy` -/
def hmDataStoreReadBlockSyncProxy (id : Bytes) : Rpc (Reply (Bytes × Bytes)) :=
  if id = [] then .ret (.error .invalidParameter)
  else hmSyncProxyOut hmDataStoreReadBlockName [.bufferC id] [.buffer, .buffer] twoBuffers

/-- `hm_data_store_update_block_sync_proxy` -/
def hmDataStoreUpdateBlockSyncProxy (id block metadata mac oldMac : Bytes) : Rpc (Reply Unit) :=
  if id = [] ∨ block = [] ∨ metadata = [] ∨ mac = [] ∨ oldMac = [] then
    .ret (.error .invalidParameter)
  else hmSyncProxy hmDataStoreUpdateBlockName
    [.bufferC id, .bufferC block, .bufferC metadata, .bufferC mac, .bufferC oldMac]

/-- `hm_data_store_delete_block_sync_proxy` -/
def hmDataStoreDeleteBlockSyncProxy (id oldMac : Bytes) : Rpc (Reply Unit) :=
  if id = [] ∨ oldMac = [] then .ret (.error .invalidParameter)
  else hmSyncProxy hmDataStoreDeleteBlockName [.bufferC id, .bufferC oldMac]

variable (db : HmDsDb σ)

/-- `hm_data_store_create_block_stub` -/
def hmDataStoreCreateBlockStub : HmServerFunc σ :=
  hmStubOut [.buffer, .buffer, .buffer] (fun values s =>
    match values with
    | [.buffer block, .buffer metadata, .buffer mac] =>
      hmDataStoreCreateBlock db block metadata mac s
    | _ => (.error .fail, s)) fun id => [.buffer id]

/-- `hm_data_store_create_block_with_id_stub` -/
def hmDataStoreCreateBlockWithIdStub : HmServerFunc σ :=
  hmStub [.buffer, .buffer, .buffer, .buffer] fun values s =>
    match values with
    | [.buffer id, .buffer block, .buffer metadata, .buffer mac] =>
      hmDataStoreCreateBlockWithId db id block metadata mac s
    | _ => (.error .fail, s)

/-- `hm_data_store_read_block_stub` -/
def hmDataStoreReadBlockStub : HmServerFunc σ :=
  hmStubOut [.buffer] (fun values s =>
    match values with
    | [.buffer id] => hmDataStoreReadBlock db id s
    | _ => (.error .fail, s)) fun out => [.buffer out.1, .buffer out.2]

/-- `hm_data_store_update_block_stub` -/
def hmDataStoreUpdateBlockStub : HmServerFunc σ :=
  hmStub [.buffer, .buffer, .buffer, .buffer, .buffer] fun values s =>
    match values with
    | [.buffer id, .buffer block, .buffer metadata, .buffer mac, .buffer oldMac] =>
      hmDataStoreUpdateBlock db id block metadata mac oldMac s
    | _ => (.error .fail, s)

/-- `hm_data_store_delete_block_stub` -/
def hmDataStoreDeleteBlockStub : HmServerFunc σ :=
  hmStub [.buffer, .buffer] fun values s =>
    match values with
    | [.buffer id, .buffer oldMac] => hmDataStoreDeleteBlock db id oldMac s
    | _ => (.error .fail, s)

/-- The functions a data store server registers, in this order. -/
def hmDataStoreFunctions : List (Bytes × HmServerFunc σ) :=
  [(hmDataStoreCreateBlockName, hmDataStoreCreateBlockStub db),
   (hmDataStoreCreateBlockWithIdName, hmDataStoreCreateBlockWithIdStub db),
   (hmDataStoreReadBlockName, hmDataStoreReadBlockStub db),
   (hmDataStoreUpdateBlockName, hmDataStoreUpdateBlockStub db),
   (hmDataStoreDeleteBlockName, hmDataStoreDeleteBlockStub db)]

/-- `hm_data_store_server_create` -/
def hmDataStoreServerCreate : Option (HmRpcServer σ) :=
  hmRpcServerRegAll (hmDataStoreFunctions db)

/-- `hm_data_store_client_sync_call_create_block` -/
def hmDataStoreClientSyncCallCreateBlock (block metadata mac : Bytes) : Rpc (Reply Bytes) :=
  if block = [] ∨ metadata = [] ∨ mac = [] then .ret (.error .invalidParameter)
  else hmDataStoreCreateBlockSyncProxy block metadata mac

/-- `hm_data_store_client_sync_call_create_block_with_id` -/
def hmDataStoreClientSyncCallCreateBlockWithId (id block metadata mac : Bytes) :
    Rpc (Reply Unit) :=
  if block = [] ∨ metadata = [] ∨ mac = [] ∨ id = [] then .ret (.error .invalidParameter)
  else hmDataStoreCreateBlockWithIdSyncProxy id block metadata mac

/-- `hm_data_store_client_sync_call_read_block` -/
def hmDataStoreClientSyncCallReadBlock (id : Bytes) : Rpc (Reply (Bytes × Bytes)) :=
  if id = [] then .ret (.error .invalidParameter) else hmDataStoreReadBlockSyncProxy id

/-- `hm_data_store_client_sync_call_update_block` -/
def hmDataStoreClientSyncCallUpdateBlock (id block metadata mac oldMac : Bytes) :
    Rpc (Reply Unit) :=
  if id = [] ∨ block = [] ∨ metadata = [] ∨ mac = [] ∨ oldMac = [] then
    .ret (.error .invalidParameter)
  else hmDataStoreUpdateBlockSyncProxy id block metadata mac oldMac

/-- `hm_data_store_client_sync_call_delete_block` -/
def hmDataStoreClientSyncCallDeleteBlock (id oldMac : Bytes) : Rpc (Reply Unit) :=
  if id = [] ∨ oldMac = [] then .ret (.error .invalidParameter)
  else hmDataStoreDeleteBlockSyncProxy id oldMac

end DataStore

/-! ### The credential store -/

section CredentialStore

/-- `hm_cs_db_t`: the function of a credential store backend over its state. -/
structure HmCsDb (σ : Type) where
  /-- Id; the public key. -/
  getPub : Bytes → σ → Reply Bytes × σ

/-- `hm_credential_store_get_pub_key_by_id` over any backend. -/
def HmCsDb.getPubKeyById (db : HmCsDb σ) (id : Bytes) (s : σ) : Reply Bytes × σ :=
  if id = [] then (.error .invalidParameter, s) else db.getPub id s

/-- The backend that is a map from ids to public keys. -/
def mapCsDb (keys : Bytes → Option Bytes) : HmCsDb Unit where
  getPub id s := ((keys id).elim (.error .fail) .ok, s)

theorem getPubKeyById_mapCsDb (keys : Bytes → Option Bytes) (id : Bytes) :
    (mapCsDb keys).getPubKeyById id () = (hmCredentialStoreGetPubKeyById keys id, ()) := by
  rw [HmCsDb.getPubKeyById, hmCredentialStoreGetPubKeyById]
  split_ifs with h
  · rfl
  · simp only [mapCsDb]
    cases keys id <;> rfl

/-- `hm_credential_store_get_pub_key_by_id_NAME` -/
def hmCredentialStoreGetPubKeyByIdName : Bytes :=
  cString "hm_credential_store_get_pub_key_by_id"

/-- `hm_credential_store_get_pub_key_by_id_sync_proxy` -/
def hmCredentialStoreGetPubKeyByIdSyncProxy (id : Bytes) : Rpc (Reply Bytes) :=
  if id = [] then .ret (.error .invalidParameter)
  else hmSyncProxyOut hmCredentialStoreGetPubKeyByIdName [.bufferC id] [.buffer] oneBuffer

/-- `hm_credential_store_get_pub_key_by_id_stub`: the key is packed as a buffer the pack
does not own. -/
def hmCredentialStoreGetPubKeyByIdStub (db : HmCsDb σ) : HmServerFunc σ :=
  hmStubOut [.buffer] (fun values s =>
    match values with
    | [.buffer id] => db.getPubKeyById id s
    | _ => (.error .fail, s)) fun key => [.bufferC key]

/-- The function a credential store server registers. -/
def hmCredentialStoreFunctions (db : HmCsDb σ) : List (Bytes × HmServerFunc σ) :=
  [(hmCredentialStoreGetPubKeyByIdName, hmCredentialStoreGetPubKeyByIdStub db)]

/-- `hm_credential_store_server_create` -/
def hmCredentialStoreServerCreate (db : HmCsDb σ) : Option (HmRpcServer σ) :=
  hmRpcServerRegAll (hmCredentialStoreFunctions db)

/-- `hm_credential_store_client_sync_call_get_pub_key_by_id` -/
def hmCredentialStoreClientSyncCallGetPubKeyById (id : Bytes) : Rpc (Reply Bytes) :=
  if id = [] then .ret (.error .invalidParameter)
  else hmCredentialStoreGetPubKeyByIdSyncProxy id

end CredentialStore

/-! ### Transparency -/

/-- The size of the results of a function on the wire is allowed. -/
def ResultFits {β : Type} (out : β → List HmParam) (reply : Reply β) : Prop :=
  ∀ b, reply = .ok b → rpcSize (out b) < 2 ^ 32

/-- The functions of a key store, called over RPC, cannot be told from those of the key
store on its backend. -/
structure KeyStoreTransparent (db : HmKsDb σ) (server : HmRpcServer σ) (s : σ) : Prop where
  setRtoken : ∀ blockId userId ownerId token : Bytes,
    blockId ≠ [] → userId ≠ [] → ownerId ≠ [] → token ≠ [] →
    rpcSize [.bufferC blockId, .bufferC userId, .bufferC ownerId, .bufferC token] < 2 ^ 32 →
    Transparent server (hmKeyStoreClientSyncCallSetRtoken blockId userId ownerId token) s
      (hmKeyStoreSetRtoken db blockId userId ownerId token s)
  setWtoken : ∀ blockId userId ownerId token : Bytes,
    blockId ≠ [] → userId ≠ [] → ownerId ≠ [] → token ≠ [] →
    rpcSize [.bufferC blockId, .bufferC userId, .bufferC ownerId, .bufferC token] < 2 ^ 32 →
    Transparent server (hmKeyStoreClientSyncCallSetWtoken blockId userId ownerId token) s
      (hmKeyStoreSetWtoken db blockId userId ownerId token s)
  getRtoken : ∀ blockId userId : Bytes, blockId ≠ [] → userId ≠ [] →
    rpcSize [.bufferC blockId, .bufferC userId] < 2 ^ 32 →
    ResultFits (fun out => [.buffer out.1, .buffer out.2])
      (hmKeyStoreGetRtoken db blockId userId s).1 →
    Transparent server (hmKeyStoreClientSyncCallGetRtoken blockId userId) s
      (hmKeyStoreGetRtoken db blockId userId s)
  getWtoken : ∀ blockId userId : Bytes, blockId ≠ [] → userId ≠ [] →
    rpcSize [.bufferC blockId, .bufferC userId] < 2 ^ 32 →
    ResultFits (fun out => [.buffer out.1, .buffer out.2])
      (hmKeyStoreGetWtoken db blockId userId s).1 →
    Transparent server (hmKeyStoreClientSyncCallGetWtoken blockId userId) s
      (hmKeyStoreGetWtoken db blockId userId s)
  delRtoken : ∀ blockId userId ownerId : Bytes, blockId ≠ [] → userId ≠ [] → ownerId ≠ [] →
    rpcSize [.bufferC blockId, .bufferC userId, .bufferC ownerId] < 2 ^ 32 →
    Transparent server (hmKeyStoreClientSyncCallDelRtoken blockId userId ownerId) s
      (hmKeyStoreDelRtoken db blockId userId ownerId s)
  delWtoken : ∀ blockId userId ownerId : Bytes, blockId ≠ [] → userId ≠ [] → ownerId ≠ [] →
    rpcSize [.bufferC blockId, .bufferC userId, .bufferC ownerId] < 2 ^ 32 →
    Transparent server (hmKeyStoreClientSyncCallDelWtoken blockId userId ownerId) s
      (hmKeyStoreDelWtoken db blockId userId ownerId s)
  getIndexedRights : ∀ (blockId : Bytes) (index : ℕ), blockId ≠ [] → index < 2 ^ 31 →
    rpcSize [.bufferC blockId, .int32 (Int32.ofNat index)] < 2 ^ 32 →
    ResultFits (fun out => [.buffer out.1, .int32 out.2.toInt32])
      (hmKeyStoreGetIndexedRights db blockId index s).1 →
    Transparent server (hmKeyStoreClientSyncCallGetIndexedRights blockId index) s
      (hmKeyStoreGetIndexedRights db blockId index s)

/-- The same for a data store. -/
structure DataStoreTransparent (db : HmDsDb σ) (server : HmRpcServer σ) (s : σ) : Prop where
  createBlock : ∀ block metadata mac : Bytes, block ≠ [] → metadata ≠ [] → mac ≠ [] →
    rpcSize [.bufferC block, .bufferC metadata, .bufferC mac] < 2 ^ 32 →
    ResultFits (fun id => [.buffer id]) (hmDataStoreCreateBlock db block metadata mac s).1 →
    Transparent server (hmDataStoreClientSyncCallCreateBlock block metadata mac) s
      (hmDataStoreCreateBlock db block metadata mac s)
  createBlockWithId : ∀ id block metadata mac : Bytes,
    id ≠ [] → block ≠ [] → metadata ≠ [] → mac ≠ [] →
    rpcSize [.bufferC id, .bufferC block, .bufferC metadata, .bufferC mac] < 2 ^ 32 →
    Transparent server (hmDataStoreClientSyncCallCreateBlockWithId id block metadata mac) s
      (hmDataStoreCreateBlockWithId db id block metadata mac s)
  readBlock : ∀ id : Bytes, id ≠ [] → rpcSize [.bufferC id] < 2 ^ 32 →
    ResultFits (fun out => [.buffer out.1, .buffer out.2]) (hmDataStoreReadBlock db id s).1 →
    Transparent server (hmDataStoreClientSyncCallReadBlock id) s (hmDataStoreReadBlock db id s)
  updateBlock : ∀ id block metadata mac oldMac : Bytes,
    id ≠ [] → block ≠ [] → metadata ≠ [] → mac ≠ [] → oldMac ≠ [] →
    rpcSize [.bufferC id, .bufferC block, .bufferC metadata, .bufferC mac, .bufferC oldMac] <
      2 ^ 32 →
    Transparent server (hmDataStoreClientSyncCallUpdateBlock id block metadata mac oldMac) s
      (hmDataStoreUpdateBlock db id block metadata mac oldMac s)
  deleteBlock : ∀ id oldMac : Bytes, id ≠ [] → oldMac ≠ [] →
    rpcSize [.bufferC id, .bufferC oldMac] < 2 ^ 32 →
    Transparent server (hmDataStoreClientSyncCallDeleteBlock id oldMac) s
      (hmDataStoreDeleteBlock db id oldMac s)

/-- The same for a credential store. -/
structure CredentialStoreTransparent (db : HmCsDb σ) (server : HmRpcServer σ) (s : σ) : Prop where
  getPubKeyById : ∀ id : Bytes, id ≠ [] → rpcSize [.bufferC id] < 2 ^ 32 →
    ResultFits (fun key => [.bufferC key]) (db.getPubKeyById id s).1 →
    Transparent server (hmCredentialStoreClientSyncCallGetPubKeyById id) s (db.getPubKeyById id s)

theorem toNat_toInt_ofNat {index : ℕ} (h : index < 2 ^ 31) :
    ((Int32.ofNat index).toInt % 2 ^ 64).toNat = index := by
  have hint : (Int32.ofNat index).toInt = index := Int32.toInt_ofNat_of_lt h
  rw [hint]
  omega

/-- The names of the functions of the three stores: they can be sent, and they fall into
buckets of their own. -/
theorem keyStoreFunctions_names (db : HmKsDb σ) :
    (∀ name ∈ (hmKeyStoreFunctions db).map Prod.fst, name ≠ [] ∧ name.length < 2 ^ 32) ∧
      (((hmKeyStoreFunctions db).map Prod.fst).map hmHash).Nodup := by
  have hnames : ∀ names : List Bytes, names = [hmKeyStoreSetRtokenName, hmKeyStoreSetWtokenName,
      hmKeyStoreGetRtokenName, hmKeyStoreGetWtokenName, hmKeyStoreDelRtokenName,
      hmKeyStoreDelWtokenName, hmKeyStoreGetIndexedRightsName] →
      (∀ name ∈ names, name ≠ [] ∧ name.length < 2 ^ 32) ∧ (names.map hmHash).Nodup := by
    rintro _ rfl
    decide +kernel
  exact hnames _ rfl

theorem dataStoreFunctions_names (db : HmDsDb σ) :
    (∀ name ∈ (hmDataStoreFunctions db).map Prod.fst, name ≠ [] ∧ name.length < 2 ^ 32) ∧
      (((hmDataStoreFunctions db).map Prod.fst).map hmHash).Nodup := by
  have hnames : ∀ names : List Bytes, names = [hmDataStoreCreateBlockName,
      hmDataStoreCreateBlockWithIdName, hmDataStoreReadBlockName, hmDataStoreUpdateBlockName,
      hmDataStoreDeleteBlockName] →
      (∀ name ∈ names, name ≠ [] ∧ name.length < 2 ^ 32) ∧ (names.map hmHash).Nodup := by
    rintro _ rfl
    decide +kernel
  exact hnames _ rfl

section Pairs

variable {server : HmRpcServer σ} {name : Bytes} {s : σ}

theorem setToken_transparent {setToken : Bytes → Bytes → Bytes → Bytes → σ → Reply Unit × σ}
    (h : Serves server name (hmKeyStoreSetTokenStub setToken)) {b u o t : Bytes} (hb : b ≠ [])
    (hu : u ≠ []) (ho : o ≠ []) (ht : t ≠ [])
    (hsize : rpcSize [.bufferC b, .bufferC u, .bufferC o, .bufferC t] < 2 ^ 32) :
    Transparent server (hmKeyStoreSetTokenSyncProxy name b u o t) s (setToken b u o t s) := by
  rw [hmKeyStoreSetTokenSyncProxy, if_neg (by simp [*])]
  exact transparent_of_stub (s := s) h ⟨by simp, by simp [hmParamPackMaxParams], hsize⟩ rfl

theorem getToken_transparent {getToken : Bytes → Bytes → σ → Reply (Bytes × Bytes) × σ}
    (h : Serves server name (hmKeyStoreGetTokenStub getToken)) {b u : Bytes} (hb : b ≠ [])
    (hu : u ≠ []) (hsize : rpcSize [.bufferC b, .bufferC u] < 2 ^ 32)
    (hresult : ResultFits (fun out => [.buffer out.1, .buffer out.2]) (getToken b u s).1) :
    Transparent server (hmKeyStoreGetTokenSyncProxy name b u) s (getToken b u s) := by
  rw [hmKeyStoreGetTokenSyncProxy, if_neg (by simp [*])]
  exact transparent_of_stubOut (s := s) h ⟨by simp, by simp [hmParamPackMaxParams], hsize⟩ rfl
    (fun out hout => ⟨by simp, by simp [hmParamPackMaxParams], hresult out hout⟩) (fun _ => rfl)
    fun _ => rfl

theorem delToken_transparent {delToken : Bytes → Bytes → Bytes → σ → Reply Unit × σ}
    (h : Serves server name (hmKeyStoreDelTokenStub delToken)) {b u o : Bytes} (hb : b ≠ [])
    (hu : u ≠ []) (ho : o ≠ []) (hsize : rpcSize [.bufferC b, .bufferC u, .bufferC o] < 2 ^ 32) :
    Transparent server (hmKeyStoreDelTokenSyncProxy name b u o) s (delToken b u o s) := by
  rw [hmKeyStoreDelTokenSyncProxy, if_neg (by simp [*])]
  exact transparent_of_stub (s := s) h ⟨by simp, by simp [hmParamPackMaxParams], hsize⟩ rfl

theorem indexedRights_transparent {db : HmKsDb σ}
    (h : Serves server hmKeyStoreGetIndexedRightsName (hmKeyStoreGetIndexedRightsStub db))
    {b : Bytes} {index : ℕ} (hb : b ≠ []) (hindex : index < 2 ^ 31)
    (hsize : rpcSize [.bufferC b, .int32 (Int32.ofNat index)] < 2 ^ 32)
    (hresult : ResultFits (fun out => [.buffer out.1, .int32 out.2.toInt32])
      (hmKeyStoreGetIndexedRights db b index s).1) :
    Transparent server (hmKeyStoreGetIndexedRightsProxy b index) s
      (hmKeyStoreGetIndexedRights db b index s) := by
  -- The server sees the index that was sent as 32 bits.
  have hdirect : hmKeyStoreGetIndexedRights db b index s =
      hmKeyStoreGetIndexedRights db b ((Int32.ofNat index).toInt % 2 ^ 64).toNat s := by
    rw [toNat_toInt_ofNat hindex]
  rw [hdirect] at hresult ⊢
  rw [hmKeyStoreGetIndexedRightsProxy, if_neg hb]
  exact transparent_of_stubOut (s := s) h ⟨by simp, by simp [hmParamPackMaxParams], hsize⟩ rfl
    (fun out hout => ⟨by simp, by simp [hmParamPackMaxParams], hresult out hout⟩) (fun _ => rfl)
    fun out => by simp [HmParam.value, userAndMask]

end Pairs

theorem keyStore_transparent (db : HmKsDb σ) :
    ∃ server, hmKeyStoreServerCreate db = some server ∧ ∀ s, KeyStoreTransparent db server s := by
  obtain ⟨hnames, hhash⟩ := keyStoreFunctions_names db
  obtain ⟨server, hserver, hserves⟩ := exists_regAll hnames hhash
  simp only [hmKeyStoreFunctions, List.forall_mem_cons] at hserves
  obtain ⟨hsetR, hsetW, hgetR, hgetW, hdelR, hdelW, hrights, -⟩ := hserves
  refine ⟨server, hserver, fun s => ?_⟩
  exact
    { setRtoken := fun _ _ _ _ => setToken_transparent hsetR
      setWtoken := fun _ _ _ _ => setToken_transparent hsetW
      getRtoken := fun _ _ => getToken_transparent hgetR
      getWtoken := fun _ _ => getToken_transparent hgetW
      delRtoken := fun _ _ _ => delToken_transparent hdelR
      delWtoken := fun _ _ _ => delToken_transparent hdelW
      getIndexedRights := fun _ _ => indexedRights_transparent hrights }

theorem dataStore_transparent (db : HmDsDb σ) :
    ∃ server, hmDataStoreServerCreate db = some server ∧
      ∀ s, DataStoreTransparent db server s := by
  obtain ⟨hnames, hhash⟩ := dataStoreFunctions_names db
  obtain ⟨server, hserver, hserves⟩ := exists_regAll hnames hhash
  simp only [hmDataStoreFunctions, List.forall_mem_cons] at hserves
  obtain ⟨hcreate, hcreateWithId, hread, hupdate, hdelete, -⟩ := hserves
  -- no argument is empty, so each call comes down to one of its stub
  refine ⟨server, hserver, fun s => ⟨?_, ?_, ?_, ?_, ?_⟩⟩
  · intro block metadata mac hblock hmeta hmac hsize hresult
    rw [hmDataStoreClientSyncCallCreateBlock, if_neg (by simp [*]),
      hmDataStoreCreateBlockSyncProxy, if_neg (by simp [*])]
    exact transparent_of_stubOut (s := s) hcreate
      ⟨by simp, by simp [hmParamPackMaxParams], hsize⟩ rfl
      (fun out hout => ⟨by simp, by simp [hmParamPackMaxParams], hresult out hout⟩)
      (fun _ => rfl) fun _ => rfl
  · intro id block metadata mac hid hblock hmeta hmac hsize
    rw [hmDataStoreClientSyncCallCreateBlockWithId, if_neg (by simp [*]),
      hmDataStoreCreateBlockWithIdSyncProxy, if_neg (by simp [*])]
    exact transparent_of_stub (s := s) hcreateWithId
      ⟨by simp, by simp [hmParamPackMaxParams], hsize⟩ rfl
  · intro id hid hsize hresult
    rw [hmDataStoreClientSyncCallReadBlock, if_neg hid, hmDataStoreReadBlockSyncProxy, if_neg hid]
    exact transparent_of_stubOut (s := s) hread
      ⟨by simp, by simp [hmParamPackMaxParams], hsize⟩ rfl
      (fun out hout => ⟨by simp, by simp [hmParamPackMaxParams], hresult out hout⟩)
      (fun _ => rfl) fun _ => rfl
  · intro id block metadata mac oldMac hid hblock hmeta hmac hold hsize
    rw [hmDataStoreClientSyncCallUpdateBlock, if_neg (by simp [*]),
      hmDataStoreUpdateBlockSyncProxy, if_neg (by simp [*])]
    exact transparent_of_stub (s := s) hupdate
      ⟨by simp, by simp [hmParamPackMaxParams], hsize⟩ rfl
  · intro id oldMac hid hold hsize
    rw [hmDataStoreClientSyncCallDeleteBlock, if_neg (by simp [*]),
      hmDataStoreDeleteBlockSyncProxy, if_neg (by simp [*])]
    exact transparent_of_stub (s := s) hdelete
      ⟨by simp, by simp [hmParamPackMaxParams], hsize⟩ rfl

theorem credentialStore_transparent (db : HmCsDb σ) :
    ∃ server, hmCredentialStoreServerCreate db = some server ∧
      ∀ s, CredentialStoreTransparent db server s := by
  have hnames : ∀ name ∈ (hmCredentialStoreFunctions db).map Prod.fst,
      name ≠ [] ∧ name.length < 2 ^ 32 := by
    have hname : hmCredentialStoreGetPubKeyByIdName ≠ [] ∧
        hmCredentialStoreGetPubKeyByIdName.length < 2 ^ 32 := by decide +kernel
    simpa [hmCredentialStoreFunctions] using hname
  obtain ⟨server, hserver, hserves⟩ := exists_regAll hnames (List.nodup_singleton _)
  have hget : Serves server _ (hmCredentialStoreGetPubKeyByIdStub db) :=
    hserves _ (List.mem_singleton_self _)
  refine ⟨server, hserver, fun s => ⟨fun id hid hsize hresult => ?_⟩⟩
  rw [hmCredentialStoreClientSyncCallGetPubKeyById, if_neg hid,
    hmCredentialStoreGetPubKeyByIdSyncProxy, if_neg hid]
  exact transparent_of_stubOut (s := s) hget ⟨by simp, by simp [hmParamPackMaxParams], hsize⟩ rfl
    (fun out hout => ⟨by simp, by simp [hmParamPackMaxParams], hresult out hout⟩)
    (fun _ => rfl) fun _ => rfl

/-- **RPC to the three stores is transparent**: over any backend there is a server, and
calling any function of the store through it, from any state of the backend and in any
interleaving of client and server, gives the reply and the state that the function gives
when it is called directly, and leaves nothing on the transport. -/
theorem stores_transparent :
    (∀ (σ : Type) (db : HmKsDb σ), ∃ server, hmKeyStoreServerCreate db = some server ∧
      ∀ s, KeyStoreTransparent db server s) ∧
    (∀ (σ : Type) (db : HmDsDb σ), ∃ server, hmDataStoreServerCreate db = some server ∧
      ∀ s, DataStoreTransparent db server s) ∧
    ∀ (σ : Type) (db : HmCsDb σ), ∃ server, hmCredentialStoreServerCreate db = some server ∧
      ∀ s, CredentialStoreTransparent db server s :=
  ⟨fun _ => keyStore_transparent, fun _ => dataStore_transparent,
    fun _ => credentialStore_transparent⟩

section Run

open Interleave

/-- An order in which client and server can move: they take turns until the server has to wait for
the pack. -/
def setRtokenSides : List Side :=
  (List.replicate 4 [Side.left, .right]).flatten ++ List.replicate 13 .left ++
    [.right, .right, .left, .right, .left]

/-- In this order a token is set as by a direct call. -/
example : ((hmKeyStoreServerCreate (testKeyStoreDb id)).bind fun server =>
    Duplex.exec (once (hmKeyStoreClientSyncCallSetRtoken [9] [1] [1] [7]))
      (once (hmRpcServerCall server fun _ => ∅)) setRtokenSides (Duplex.start UInt8 none none)).any
    (fun c => match c.left.doing, c.right.doing with
      | .rest (some (.ok ())), .rest (some (.ok (), db)) =>
        db.entry [9] [1] = some ⟨[7], [1], none⟩ && c.toRight.isEmpty && c.toLeft.isEmpty
      | _, _ => false) = true := by
  decide +kernel

end Run

end Hermes

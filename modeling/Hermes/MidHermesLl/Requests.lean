import Hermes.Common
import Hermes.Interleave.Prog

/-!
# What a client asks for

A Hermes client is a program (`Interleave.Prog`) over the requests of this file: those
it sends to the three stores, and the calls it makes into Themis and Soter, which can
fail too. A request is answered by a `Hermes.Reply`, a call into the cryptography by its
result or by nothing.

Over them, the functions of the source that do nothing but send one of them:

* the store interfaces (`mid_hermes/key_store_impl.c`, `data_store_impl.c`,
  `credential_store_impl.c`), whose remote procedure calls are requests here;
* the wrappers of the cryptography (`mid_hermes_ll/utils.c`).
-/

namespace Hermes

open Interleave

/-- `HM_TOKEN_LEN` -/
def hmTokenLen : ℕ := 64

/-- The content of a fresh token: what `soter_rand` fills a buffer of `HM_TOKEN_LEN` bytes
with. -/
abbrev HmToken := {b : Bytes // b.length = hmTokenLen}

/-- The requests to the key store. -/
inductive KeyStoreReq where
  | setRtoken (blockId userId ownerId token : Bytes)
  | setWtoken (blockId userId ownerId token : Bytes)
  | getRtoken (blockId userId : Bytes)
  | getWtoken (blockId userId : Bytes)
  | delRtoken (blockId userId ownerId : Bytes)
  | delWtoken (blockId userId ownerId : Bytes)
  | getIndexedRights (blockId : Bytes) (index : ℕ)
  deriving DecidableEq

/-- The requests to the data store. -/
inductive DataStoreReq where
  | createBlock (block metadata mac : Bytes)
  | createBlockWithId (id block metadata mac : Bytes)
  | readBlock (id : Bytes)
  | updateBlock (id block metadata mac oldMac : Bytes)
  | deleteBlock (id oldMac : Bytes)
  deriving DecidableEq

/-- The calls into Themis and Soter. Most functions of the source make a call twice, first to
learn the length of its result, and do the same when either fails: these are one call here. It
is not so when a message is unwrapped. -/
inductive ThemisReq where
  /-- `soter_rand` of `HM_TOKEN_LEN` bytes. -/
  | rand
  | encryptSeal (key context message : Bytes)
  | decryptSeal (key context cell : Bytes)
  | wrap (sk pk message : Bytes)
  /-- `themis_secure_message_unwrap` without a buffer: how long the message is. -/
  | unwrapSize (sk pk wrapped : Bytes)
  | unwrap (sk pk wrapped : Bytes)
  | hmac (key : Bytes) (chunks : List Bytes)
  deriving DecidableEq

/-- Everything a client asks for. -/
inductive Req where
  | ks (r : KeyStoreReq)
  | ds (r : DataStoreReq)
  | getPubKeyById (id : Bytes)
  | themis (r : ThemisReq)
  deriving DecidableEq

/-- What the key store answers. -/
@[reducible] def KeyStoreReq.Answer : KeyStoreReq → Type
  | .setRtoken .. => Reply Unit
  | .setWtoken .. => Reply Unit
  | .getRtoken .. => Reply (Bytes × Bytes)
  | .getWtoken .. => Reply (Bytes × Bytes)
  | .delRtoken .. => Reply Unit
  | .delWtoken .. => Reply Unit
  | .getIndexedRights .. => Reply (Bytes × UInt32)

/-- What the data store answers. -/
@[reducible] def DataStoreReq.Answer : DataStoreReq → Type
  | .createBlock .. => Reply Bytes
  | .createBlockWithId .. => Reply Unit
  | .readBlock .. => Reply (Bytes × Bytes)
  | .updateBlock .. => Reply Unit
  | .deleteBlock .. => Reply Unit

/-- What a call into the cryptography returns: nothing when it fails. -/
@[reducible] def ThemisReq.Answer : ThemisReq → Type
  | .rand => Option HmToken
  | .unwrapSize .. => Option ℕ
  | _ => Option Bytes

/-- What a request is answered. -/
@[reducible] def Req.Answer : Req → Type
  | .ks r => r.Answer
  | .ds r => r.Answer
  | .getPubKeyById _ => Reply Bytes
  | .themis r => r.Answer

/-- What a request tells the store it is sent to. -/
def Req.sent : Req → List Bytes
  | .ks (.setRtoken b u o t) => [b, u, o, t]
  | .ks (.setWtoken b u o t) => [b, u, o, t]
  | .ks (.getRtoken b u) => [b, u]
  | .ks (.getWtoken b u) => [b, u]
  | .ks (.delRtoken b u o) => [b, u, o]
  | .ks (.delWtoken b u o) => [b, u, o]
  | .ks (.getIndexedRights b _) => [b]
  | .ds (.createBlock blk mt mac) => [blk, mt, mac]
  | .ds (.createBlockWithId id blk mt mac) => [id, blk, mt, mac]
  | .ds (.readBlock id) => [id]
  | .ds (.updateBlock id blk mt mac old) => [id, blk, mt, mac, old]
  | .ds (.deleteBlock id old) => [id, old]
  | .getPubKeyById id => [id]
  | .themis _ => []

/-- The programs of a client. -/
abbrev Client (α : Type) := Prog Req Req.Answer α

/-- The exchanges of a client, the most recent first. -/
abbrev Hist := List (Event Req.Answer)

/-! ### The key store, as its clients see it -/

/-- The body shared by the two `hermes_key_store_get_*`. -/
def hermesKeyStoreGetToken (isUpdate : Bool) (userId blockId : Bytes) :
    Client (Reply (Bytes × Bytes)) :=
  if userId = [] ∨ blockId = [] then .ret (.error .invalidParameter)
  else if isUpdate then .req (.ks (.getWtoken blockId userId)) .ret
  else .req (.ks (.getRtoken blockId userId)) .ret

/-- `hermes_key_store_get_rtoken` -/
def hermesKeyStoreGetRtoken : Bytes → Bytes → Client (Reply (Bytes × Bytes)) :=
  hermesKeyStoreGetToken false

/-- `hermes_key_store_get_wtoken` -/
def hermesKeyStoreGetWtoken : Bytes → Bytes → Client (Reply (Bytes × Bytes)) :=
  hermesKeyStoreGetToken true

/-- `hermes_key_store_set_rtoken`: an empty token asks for the deletion. -/
def hermesKeyStoreSetRtoken (userId blockId token ownerId : Bytes) : Client (Reply Unit) :=
  if userId = [] ∨ blockId = [] then .ret (.error .invalidParameter)
  else if token ≠ [] then .req (.ks (.setRtoken blockId userId ownerId token)) .ret
  else .req (.ks (.delRtoken blockId userId ownerId)) .ret

/-- `hermes_key_store_set_wtoken`: an empty token asks for the deletion. -/
def hermesKeyStoreSetWtoken (userId blockId token ownerId : Bytes) : Client (Reply Unit) :=
  if userId = [] ∨ blockId = [] then .ret (.error .invalidParameter)
  else if token ≠ [] then .req (.ks (.setWtoken blockId userId ownerId token)) .ret
  else .req (.ks (.delWtoken blockId userId ownerId)) .ret

/-- `hermes_key_store_iterator_t` -/
structure KeyStoreIterator where
  /-- `block_id` -/
  blockId : Bytes
  /-- `current_user_id` -/
  currentUserId : Bytes
  /-- `current_rights_mask` -/
  currentRightsMask : UInt32
  /-- `current_index` -/
  currentIndex : ℕ

/-- `hermes_key_store_iterator_create` -/
def hermesKeyStoreIteratorCreate (blockId : Bytes) : Client (Option KeyStoreIterator) :=
  if blockId = [] then .ret none
  else .req (.ks (.getIndexedRights blockId 0)) fun
    | .ok (u, mask) => .ret (some ⟨blockId, u, mask, 0⟩)
    | .error _ => .ret none

/-- `hermes_key_store_iterator_next` -/
def hermesKeyStoreIteratorNext (i : KeyStoreIterator) : Client (Reply KeyStoreIterator) :=
  .req (.ks (.getIndexedRights i.blockId (i.currentIndex + 1))) fun
    | .ok (u, mask) => .ret (.ok ⟨i.blockId, u, mask, i.currentIndex + 1⟩)
    | .error _ => .ret (.error .fail)

/-! ### The data store and the credential store, as their clients see them -/

/-- `hermes_data_store_set_block`: creates the block, under an id of its own or under the
given one, unless there is an old mac. The id the block has is given back. -/
def hermesDataStoreSetBlock (id : Option Bytes) (data metadata mac : Bytes)
    (oldMac : Option Bytes) : Client (Reply (Option Bytes)) :=
  if data = [] ∨ metadata = [] ∨ mac = [] then .ret (.error .invalidParameter)
  else
    match oldMac, id with
    | none, none => .req (.ds (.createBlock data metadata mac)) fun r => .ret (r.map some)
    | none, some id =>
      .req (.ds (.createBlockWithId id data metadata mac)) fun r => .ret (r.map fun _ => some id)
    | some oldMac, id =>
      .req (.ds (.updateBlock (id.getD []) data metadata mac oldMac)) fun r =>
        .ret (r.map fun _ => id)

/-- `hermes_data_store_get_block` -/
def hermesDataStoreGetBlock (id : Bytes) : Client (Reply (Bytes × Bytes)) :=
  if id = [] then .ret (.error .invalidParameter) else .req (.ds (.readBlock id)) .ret

/-- `hermes_data_store_rem_block` -/
def hermesDataStoreRemBlock (id oldMac : Bytes) : Client (Reply Unit) :=
  if id = [] ∨ oldMac = [] then .ret (.error .invalidParameter)
  else .req (.ds (.deleteBlock id oldMac)) .ret

/-- `hermes_credential_store_get_public_key` -/
def hermesCredentialStoreGetPublicKey (userId : Bytes) : Client (Reply Bytes) :=
  if userId = [] then .ret (.error .invalidParameter) else .req (.getPubKeyById userId) .ret

/-! ### The wrappers of the cryptography -/

/-- What the wrappers make of the result of a call. -/
def hmResult : Option Bytes → Reply Bytes
  | some b => .ok b
  | none => .error .fail

/-- `hm_encrypt` -/
def hmEncrypt (key data context : Bytes) : Client (Reply Bytes) :=
  if key = [] ∨ data = [] then .ret (.error .invalidParameter)
  else .req (.themis (.encryptSeal key context data)) fun r => .ret (hmResult r)

/-- `hm_decrypt` -/
def hmDecrypt (key encryptedData context : Bytes) : Client (Reply Bytes) :=
  if key = [] ∨ encryptedData = [] then .ret (.error .invalidParameter)
  else .req (.themis (.decryptSeal key context encryptedData)) fun r => .ret (hmResult r)

/-- `hm_mac_create`: the data and the context are fed to the HMAC one after the other. -/
def hmMacCreate (key data context : Bytes) : Client (Reply Bytes) :=
  if key = [] ∨ data = [] then .ret (.error .invalidParameter)
  else .req (.themis (.hmac key [data, context])) fun r => .ret (hmResult r)

/-- `hm_asym_encrypt` -/
def hmAsymEncrypt (privateKey publicKey data : Bytes) : Client (Reply Bytes) :=
  if privateKey = [] ∨ publicKey = [] ∨ data = [] then .ret (.error .invalidParameter)
  else .req (.themis (.wrap privateKey publicKey data)) fun r => .ret (hmResult r)

/-- The size of a pointer. -/
def sizeofPointer : ℕ := 8

/-- The size of an `mid_hermes_ll_buffer_t`, a pointer and a length. -/
def sizeofBuffer : ℕ := 16

/-- So many zeros written to an `mid_hermes_ll_buffer_t` clear its pointer, and nothing behind
it; or they are none. -/
def ClearsBuffer (n : ℕ) : Prop := n = 0 ∨ sizeofPointer ≤ n ∧ n ≤ sizeofBuffer

instance : DecidablePred ClearsBuffer := fun n =>
  inferInstanceAs (Decidable (n = 0 ∨ sizeofPointer ≤ n ∧ n ≤ sizeofBuffer))

/-- `hm_asym_decrypt`. When the second call fails, the zeros that are meant for the memory of
the result are written to where its pointer is kept, in the buffer object of the caller (`memset`
of `data` where it should be `*data`); then what the pointer is now is freed. -/
def hmAsymDecrypt (privateKey publicKey encryptedData : Bytes) : Client (Reply Bytes) :=
  if privateKey = [] ∨ publicKey = [] ∨ encryptedData = [] then .ret (.error .invalidParameter)
  else .req (.themis (.unwrapSize privateKey publicKey encryptedData)) fun
    | none => .ret (.error .fail)
    | some resultBufferLength =>
      .req (.themis (.unwrap privateKey publicKey encryptedData)) fun
        | some data => .ret (.ok data)
        | none =>
          if ClearsBuffer resultBufferLength then .ret (.error .fail) else .stop .undefined

end Hermes

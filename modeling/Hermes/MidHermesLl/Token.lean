import Hermes.MidHermesLl.Requests

/-!
# Users, tokens and rights lists

The objects of `mid_hermes_ll` below the block (`mid_hermes_ll_user.c`,
`mid_hermes_ll_token.c`, `mid_hermes_ll_rights_list.c`). A pointer that may be `NULL` is
an `Option`, and a copy of an object (`mid_hermes_ll_user_copy`) is the object itself: no
object is shared between two owners that write to it.

A user has a private key only in the process of that user. The functions that use a
private key read it through a pointer they do not check; without one the process stops.
-/

namespace Hermes

open Interleave

/-! ### Users -/

/-- `mid_hermes_ll_user_t`. Neither the id nor the public key of a user is ever empty. -/
structure User where
  /-- `id` -/
  id : Bytes
  /-- `pk`, the public key. -/
  pk : Bytes
  /-- `sk`, the private key, `NULL` for the users of other processes. -/
  sk : Option Bytes
  id_ne_nil : id ≠ []
  pk_ne_nil : pk ≠ []
  deriving DecidableEq

/-- `mid_hermes_ll_user_create` -/
def midHermesLlUserCreate (id publicKey : Bytes) : Option User :=
  if h : id = [] ∨ publicKey = [] then none
  else some ⟨id, publicKey, none, fun h' => h (.inl h'), fun h' => h (.inr h')⟩

/-- `mid_hermes_ll_user_load` -/
def midHermesLlUserLoad (id : Bytes) : Client (Option User) := do
  match ← hermesCredentialStoreGetPublicKey id with
  | .ok publicKey => return midHermesLlUserCreate id publicKey
  | .error _ => return none

/-- `mid_hermes_ll_user_load_c` -/
def midHermesLlUserLoadC (id : Bytes) : Client (Option User) :=
  if id = [] then .ret none else midHermesLlUserLoad id

/-- `mid_hermes_ll_local_user_load_c` -/
def midHermesLlLocalUserLoadC (id privateKey : Bytes) : Client (Option User) :=
  if id = [] ∨ privateKey = [] then .ret none
  else do
    match ← midHermesLlUserLoad id with
    | some user => return some { user with sk := some privateKey }
    | none => return none

/-- `mid_hermes_ll_user_is_equal`: users are compared by their ids. -/
def midHermesLlUserIsEqual (user1 user2 : User) : Bool := user1.id = user2.id

/-! ### Tokens -/

/-- `mid_hermes_ll_token_t`: a key wrapped by its owner for its user. -/
structure Token where
  /-- `user` -/
  user : User
  /-- `owner` -/
  owner : User
  /-- `token`, the wrapped key. -/
  token : Bytes
  deriving DecidableEq

/-- `mid_hermes_ll_token_generate`: a fresh key, wrapped by the user for itself. -/
def midHermesLlTokenGenerate (userAndOwner : User) : Client (Option Token) :=
  .req (.themis .rand) fun
    | none => .ret none
    | some token =>
      match userAndOwner.sk with
      | none => .stop .assertion
      | some sk => do
        match ← hmAsymEncrypt sk userAndOwner.pk token with
        | .ok encryptionToken => return some ⟨userAndOwner, userAndOwner, encryptionToken⟩
        | .error _ => return none

/-- `mid_hermes_ll_token_get_data`: the key in a token. -/
def midHermesLlTokenGetData (token : Token) : Client (Option Bytes) :=
  match token.user.sk with
  | none => .stop .assertion
  | some sk => do
    match ← hmAsymDecrypt sk token.owner.pk token.token with
    | .ok buffer => return some buffer
    | .error _ => return none

/-- `mid_hermes_ll_token_get_data` of a pointer: nothing for `NULL`. -/
def midHermesLlTokenGetDataOf : Option Token → Client (Option Bytes)
  | none => .ret none
  | some token => midHermesLlTokenGetData token

/-- `mid_hermes_ll_token_get_token_for_user`: the key in a token, wrapped by its user for
another one. -/
def midHermesLlTokenGetTokenForUser (token : Token) (forUser : User) : Client (Option Token) := do
  match ← midHermesLlTokenGetData token with
  | none => return none
  | some buffer =>
    match token.user.sk with
    | none => .stop .assertion
    | some sk =>
      match ← hmAsymEncrypt sk forUser.pk buffer with
      | .ok encryptionBuffer => return some ⟨forUser, token.user, encryptionBuffer⟩
      | .error _ => return none

/-- `mid_hermes_ll_token_load_c`: the token a user has for a block. -/
def midHermesLlTokenLoadC (userId blockId : Bytes) (isUpdate : Bool) : Client (Option Token) :=
  if userId = [] ∨ blockId = [] then .ret none
  else do
    match ← hermesKeyStoreGetToken isUpdate userId blockId with
    | .error _ => return none
    | .ok (token, ownerId) =>
      match ← midHermesLlUserLoadC userId with
      | none => return none
      | some user =>
        match ← midHermesLlUserLoad ownerId with
        | none => return none
        | some owner => return some ⟨user, owner, token⟩

/-- `mid_hermes_ll_rtoken_load_c` -/
def midHermesLlRtokenLoadC (userId blockId : Bytes) : Client (Option Token) :=
  midHermesLlTokenLoadC userId blockId false

/-- `mid_hermes_ll_wtoken_load_c` -/
def midHermesLlWtokenLoadC (userId blockId : Bytes) : Client (Option Token) :=
  midHermesLlTokenLoadC userId blockId true

/-- `mid_hermes_ll_token_save` -/
def midHermesLlTokenSave (blockId : Bytes) (token : Token) (isUpdate : Bool) :
    Client (Reply Unit) :=
  (if isUpdate then hermesKeyStoreSetWtoken else hermesKeyStoreSetRtoken)
    token.user.id blockId token.token token.owner.id

/-- `mid_hermes_ll_token_del`: the write token is always removed, and what became of that
is told only when nothing else is to be removed. -/
def midHermesLlTokenDel (user owner : User) (blockId : Bytes) (isUpdate : Bool) :
    Client (Reply Unit) := do
  let res ← hermesKeyStoreSetWtoken user.id blockId [] owner.id
  if !isUpdate then hermesKeyStoreSetRtoken user.id blockId [] owner.id
  else return res

/-! ### Rights lists -/

/-- `mid_hermes_ll_rights_list_node_t`: a user of a block with its tokens. The list
itself, `mid_hermes_ll_rights_list_t`, is the list of its nodes. -/
structure RightsListNode where
  /-- `user` -/
  user : User
  /-- `rtoken` -/
  rtoken : Token
  /-- `wtoken` -/
  wtoken : Option Token
  deriving DecidableEq

end Hermes

import Hermes.MidHermesLl.Token

/-!
# Block objects

The block object of `mid_hermes_ll_block.c` and its methods. A method that returns its
object or `NULL` returns an `Option` when it leaves the object alone on failure, or when
every caller throws the object away; `rotate` and `save` can fail half way and return
the object they have reached together with what became of the call.
-/

namespace Hermes

open Interleave

/-- `mid_hermes_ll_block_t` -/
structure Block where
  /-- `user` -/
  user : User
  /-- `id` -/
  id : Option Bytes
  /-- `block`, the encrypted data. -/
  block : Option Bytes
  /-- `data`, the raw data. -/
  data : Option Bytes
  /-- `meta` -/
  metadata : Option Bytes
  /-- `old_mac` -/
  oldMac : Option Bytes
  /-- `mac` -/
  mac : Option Bytes
  /-- `rtoken` -/
  rtoken : Option Token
  /-- `wtoken` -/
  wtoken : Option Token
  deriving DecidableEq

/-- `mid_hermes_ll_block_create_empty` -/
def midHermesLlBlockCreateEmpty (user : User) : Block :=
  ⟨user, none, none, none, none, none, none, none, none⟩

/-- The first part of `mid_hermes_ll_block_init`: without a read token, a new block gets
two fresh tokens. -/
def midHermesLlBlockInitTokens (block : Block) (readToken : Option Token) :
    Client (Option Block) :=
  match readToken with
  | some _ => .ret (some block)
  | none => do
    let rtoken ← midHermesLlTokenGenerate block.user
    let wtoken ← midHermesLlTokenGenerate block.user
    if rtoken.isNone || wtoken.isNone then return none
    else return some { block with rtoken := rtoken, wtoken := wtoken }

/-- The second part of `mid_hermes_ll_block_init`: the data is decrypted with the given
read token, or encrypted with the fresh one. -/
def midHermesLlBlockInitData (block : Block) (blockData metadata : Bytes)
    (readToken : Option Token) : Client (Option Block) := do
  match ← midHermesLlTokenGetDataOf (readToken.or block.rtoken) with
  | none => return none
  | some rt =>
    if readToken.isSome then
      match ← hmDecrypt rt blockData metadata with
      | .ok data => return some { block with data := some data }
      | .error _ => return none
    else
      match ← hmEncrypt rt blockData metadata with
      | .ok encrypted => return some { block with block := some encrypted }
      | .error _ => return none

/-- The third part of `mid_hermes_ll_block_init`: the mac, when there is a write token. -/
def midHermesLlBlockInitMac (block : Block) (blockData metadata : Bytes)
    (readToken writeToken : Option Token) : Client (Option Block) :=
  if writeToken.isSome || block.wtoken.isSome then do
    match ← midHermesLlTokenGetDataOf (writeToken.or block.wtoken) with
    | none => return none
    | some wt =>
      let data := if readToken.isSome then block.data.getD [] else blockData
      match ← hmMacCreate wt data metadata with
      | .ok mac => return some { block with mac := some mac }
      | .error _ => return none
  else .ret (some block)

/-- `mid_hermes_ll_block_init`: given a read token, `blockData` is an encrypted block to
be decrypted with it; without one, it is the data of a new block. Then the cell goes to
`block->block`, where the comment of the source has `block->data`. -/
def midHermesLlBlockInit (block : Block) (user : User) (id : Option Bytes)
    (blockData metadata : Bytes) (readToken writeToken : Option Token) :
    Client (Option Block) := do
  match ← midHermesLlBlockInitTokens { block with user := user } readToken with
  | none => return none
  | some block =>
    match ← midHermesLlBlockInitData block blockData metadata readToken with
    | none => return none
    | some block =>
      match ← midHermesLlBlockInitMac block blockData metadata readToken writeToken with
      | none => return none
      | some block =>
        let block := { block with id := id, metadata := some metadata }
        if readToken.isSome then
          return some { block with block := some blockData, rtoken := readToken,
                                   wtoken := writeToken }
        else return some { block with data := some blockData }

/-- `mid_hermes_ll_block_create` -/
def midHermesLlBlockCreate (user : User) (id : Option Bytes) (block metadata : Bytes)
    (readToken writeToken : Option Token) : Client (Option Block) :=
  midHermesLlBlockInit (midHermesLlBlockCreateEmpty user) user id block metadata readToken
    writeToken

/-- `mid_hermes_ll_block_create_new`: the data of a new block, and the tokens it is to have. None
of the pointers may be `NULL`. -/
def midHermesLlBlockCreateNew (user : Option User) (id blockData metadata : Option Bytes)
    (readToken writeToken : Option Token) : Client (Option Block) :=
  match user, id, blockData, metadata, readToken, writeToken with
  | some user, some id, some blockData, some metadata, some readToken, some writeToken => do
    match ← midHermesLlTokenGetData readToken with
    | none => return none
    | some rt =>
      match ← hmEncrypt rt blockData metadata with
      | .error _ => return none
      | .ok encrypted =>
        match ← midHermesLlTokenGetData writeToken with
        | none => return none
        | some wt =>
          match ← hmMacCreate wt blockData metadata with
          | .error _ => return none
          | .ok mac =>
            return some { midHermesLlBlockCreateEmpty user with
              block := some encrypted, mac := some mac, id := some id, metadata := some metadata,
              data := some blockData, rtoken := some readToken, wtoken := some writeToken }
  | _, _, _, _, _, _ => .ret none

/-- `mid_hermes_ll_block_update`: nothing of the object changes unless everything could be
computed. The mac the data store has is kept in `old_mac`. -/
def midHermesLlBlockUpdate (bl : Block) (data metadata : Bytes) : Client (Option Block) :=
  match bl.rtoken, bl.wtoken with
  | some rtoken, some wtoken => do
    let rt ← midHermesLlTokenGetData rtoken
    let wt ← midHermesLlTokenGetData wtoken
    match rt, wt with
    | some rt, some wt =>
      match ← hmEncrypt rt data metadata with
      | .error _ => return none
      | .ok newBlock =>
        match ← hmMacCreate wt data metadata with
        | .error _ => return none
        | .ok newMac =>
          return some { bl with metadata := some metadata, data := some data,
                                block := some newBlock, oldMac := bl.oldMac.or bl.mac,
                                mac := some newMac }
    | _, _ => return none
  | _, _ => .ret none

/-- The loop of `mid_hermes_ll_block_rotate`: every node gets the new keys, the write key
only if it had one. It stops at the first node for which there is no new read token, and
goes on if there is no new write token. -/
def midHermesLlBlockRotateRights (newRtoken newWtoken : Token) :
    List RightsListNode → Client (Bool × List RightsListNode)
  | [] => .ret (true, [])
  | node :: rights => do
    let nrt ← midHermesLlTokenGetTokenForUser newRtoken node.user
    let nwt ← (if node.wtoken.isSome then midHermesLlTokenGetTokenForUser newWtoken node.user
      else .ret none)
    match nrt with
    | none => return (false, node :: rights)
    | some nrt =>
      let (ok, rights) ← midHermesLlBlockRotateRights newRtoken newWtoken rights
      return (ok, { node with rtoken := nrt, wtoken := nwt } :: rights)

/-- What `mid_hermes_ll_block_rotate` computes before it changes anything: two fresh
tokens, and the data of the object sealed and authenticated with their keys. -/
def midHermesLlBlockRotateKeys (bl : Block) :
    Client (Option (Token × Token × Bytes × Bytes)) := do
  let newRtoken ← midHermesLlTokenGenerate bl.user
  let newWtoken ← midHermesLlTokenGenerate bl.user
  let rt ← midHermesLlTokenGetDataOf newRtoken
  let wt ← midHermesLlTokenGetDataOf newWtoken
  match newRtoken, newWtoken, rt, wt with
  | some newRtoken, some newWtoken, some rt, some wt =>
    match bl.data, bl.metadata with
    | some data, some metadata =>
      match ← hmEncrypt rt data metadata with
      | .error _ => return none
      | .ok newBlock =>
        match ← hmMacCreate wt data metadata with
        | .error _ => return none
        | .ok newMac => return some (newRtoken, newWtoken, newBlock, newMac)
    | _, _ => .stop .assertion
  | _, _, _, _ => return none

/-- `mid_hermes_ll_block_rotate`: the object gets fresh keys, then the rights list does.
When the second part fails, the first part is not undone. -/
def midHermesLlBlockRotate (bl : Block) (rights : List RightsListNode) :
    Client (Bool × Block × List RightsListNode) :=
  match bl.rtoken, bl.wtoken with
  | some _, some _ => do
    match ← midHermesLlBlockRotateKeys bl with
    | none => return (false, bl, rights)
    | some (newRtoken, newWtoken, newBlock, newMac) =>
      let bl := { bl with rtoken := some newRtoken, wtoken := some newWtoken,
                          block := some newBlock, oldMac := bl.oldMac.or bl.mac,
                          mac := some newMac }
      let (ok, rights) ← midHermesLlBlockRotateRights newRtoken newWtoken rights
      return (ok, bl, rights)
  | _, _ => .ret (false, bl, rights)

/-- `mid_hermes_ll_block_rtoken_for` -/
def midHermesLlBlockRtokenFor (bl : Block) (forUser : User) : Client (Option Token) :=
  match bl.rtoken with
  | none => .ret none
  | some rtoken => midHermesLlTokenGetTokenForUser rtoken forUser

/-- `mid_hermes_ll_block_wtoken_for` -/
def midHermesLlBlockWtokenFor (bl : Block) (forUser : User) : Client (Option Token) :=
  match bl.wtoken with
  | none => .ret none
  | some wtoken => midHermesLlTokenGetTokenForUser wtoken forUser

/-! ### The methods that use the stores -/

/-- The body of the loop of `mid_hermes_ll_block_access_rights`, for the user the iterator
is at: its tokens are appended to the list, unless it is the user of the object. -/
def midHermesLlBlockAccessRightsNode (bl : Block) (blockId userId : Bytes)
    (rights : List RightsListNode) : Client (Option (List RightsListNode)) := do
  let user ← midHermesLlUserLoadC userId
  if user.any (midHermesLlUserIsEqual · bl.user) then return some rights
  else
    let rtoken ← midHermesLlRtokenLoadC userId blockId
    let wtoken ← midHermesLlWtokenLoadC userId blockId
    match user, rtoken with
    | some user, some rtoken => return some (rights ++ [⟨user, rtoken, wtoken⟩])
    | _, _ => return none

/-- The `do … while` of `mid_hermes_ll_block_access_rights`. It goes on as long as the key
store names another user; `fuel` bounds its iterations. -/
def midHermesLlBlockAccessRightsLoop (bl : Block) (blockId : Bytes) :
    ℕ → KeyStoreIterator → List RightsListNode → Client (Option (List RightsListNode))
  | 0, _, _ => .stop .outOfFuel
  | fuel + 1, i, rights => do
    match ← midHermesLlBlockAccessRightsNode bl blockId i.currentUserId rights with
    | none => return none
    | some rights =>
      match ← hermesKeyStoreIteratorNext i with
      | .ok i => midHermesLlBlockAccessRightsLoop bl blockId fuel i rights
      | .error _ => return some rights

/-- `mid_hermes_ll_block_access_rights`: the users of the block other than the one of the
object, with their tokens. -/
def midHermesLlBlockAccessRights (fuel : ℕ) (bl : Block) :
    Client (Option (List RightsListNode)) :=
  match bl.id, bl.mac with
  | some id, some _ => do
    match ← hermesKeyStoreIteratorCreate id with
    | none => .stop .assertion
    | some i => midHermesLlBlockAccessRightsLoop bl id fuel i []
  | _, _ => .ret none

/-- `mid_hermes_ll_token_load` -/
def midHermesLlTokenLoad (user : User) (blockId : Bytes) (isUpdate : Bool) :
    Client (Option Token) := do
  match ← hermesKeyStoreGetToken isUpdate user.id blockId with
  | .error _ => return none
  | .ok (token, ownerId) =>
    match ← hermesCredentialStoreGetPublicKey ownerId with
    | .error _ => return none
    | .ok ownerPubKey =>
      match midHermesLlUserCreate ownerId ownerPubKey with
      | none => return none
      | some owner => return some ⟨user, owner, token⟩

/-- `mid_hermes_ll_block_load`: the user's read token and the block must be there, the
write token may be. -/
def midHermesLlBlockLoad (bl : Block) (id : Bytes) : Client (Option Block) := do
  let readToken ← midHermesLlTokenLoad bl.user id false
  let writeToken ← midHermesLlTokenLoad bl.user id true
  match readToken with
  | none => return none
  | some readToken =>
    match ← hermesDataStoreGetBlock id with
    | .error _ => return none
    | .ok (data, metadata) =>
      midHermesLlBlockInit bl bl.user (some id) data metadata (some readToken) writeToken

/-- `mid_hermes_ll_rtoken_save` -/
def midHermesLlRtokenSave (blockId : Bytes) : Option Token → Client (Reply Unit)
  | none => .ret (.error .fail)
  | some token =>
    hermesKeyStoreSetRtoken token.user.id blockId token.token token.owner.id

/-- `mid_hermes_ll_wtoken_save` -/
def midHermesLlWtokenSave (blockId : Bytes) : Option Token → Client (Reply Unit)
  | none => .ret (.error .fail)
  | some token =>
    hermesKeyStoreSetWtoken token.user.id blockId token.token token.owner.id

/-- The loop of `mid_hermes_ll_block_save`: it stops at the first token that cannot be
saved. -/
def midHermesLlBlockSaveRights (blockId : Bytes) : List RightsListNode → Client Bool
  | [] => .ret true
  | node :: rights => do
    match ← midHermesLlRtokenSave blockId (some node.rtoken) with
    | .error _ => return false
    | .ok _ =>
      if node.wtoken.isSome then
        match ← midHermesLlWtokenSave blockId node.wtoken with
        | .error _ => return false
        | .ok _ => midHermesLlBlockSaveRights blockId rights
      else midHermesLlBlockSaveRights blockId rights

/-- The data store part of `mid_hermes_ll_block_save`. -/
def midHermesLlBlockSaveData (bl : Block) : Client (Bool × Block) :=
  match bl.block, bl.metadata, bl.mac with
  | some block, some metadata, some mac => do
    match ← hermesDataStoreSetBlock bl.id block metadata mac bl.oldMac with
    | .error _ => return (false, bl)
    | .ok id => return (true, { bl with id := id, oldMac := none })
  | _, _, _ => .stop .assertion

/-- The key store part of `mid_hermes_ll_block_save`: the tokens of the object, then those
of the rights list. -/
def midHermesLlBlockSaveTokens (bl : Block) (rights : List RightsListNode) : Client Bool := do
  match ← midHermesLlRtokenSave (bl.id.getD []) bl.rtoken with
  | .error _ => return false
  | .ok _ =>
    match ← midHermesLlWtokenSave (bl.id.getD []) bl.wtoken with
    | .error _ => return false
    | .ok _ => midHermesLlBlockSaveRights (bl.id.getD []) rights

/-- `mid_hermes_ll_block_save`, with the stores it is given (`NULL` or not): first the
block, then the tokens. -/
def midHermesLlBlockSave (bl : Block) (rights : List RightsListNode)
    (dataStore keyStore : Bool) : Client (Bool × Block) :=
  if !dataStore && !keyStore then .ret (false, bl)
  else do
    let (ok, bl) ← (if dataStore then midHermesLlBlockSaveData bl else .ret (true, bl))
    if !ok then return (false, bl)
    else if keyStore then return (← midHermesLlBlockSaveTokens bl rights, bl)
    else return (true, bl)

/-- `mid_hermes_ll_rtoken_delete`: in the name of the user of the object. -/
def midHermesLlRtokenDelete (bl : Block) (blockId : Bytes) : Option Token → Client (Reply Unit)
  | none => .ret (.error .fail)
  | some token => hermesKeyStoreSetRtoken token.user.id blockId [] bl.user.id

/-- `mid_hermes_ll_wtoken_delete`: in the name of the owner of the token. -/
def midHermesLlWtokenDelete (blockId : Bytes) : Option Token → Client (Reply Unit)
  | none => .ret (.error .fail)
  | some token => hermesKeyStoreSetWtoken token.user.id blockId [] token.owner.id

/-- The loop of `mid_hermes_ll_block_delete`. -/
def midHermesLlBlockDeleteRights (bl : Block) (blockId : Bytes) :
    List RightsListNode → Client Bool
  | [] => .ret true
  | node :: rights => do
    match ← midHermesLlRtokenDelete bl blockId (some node.rtoken) with
    | .error _ => return false
    | .ok _ =>
      if node.wtoken.isSome then
        match ← midHermesLlWtokenDelete blockId node.wtoken with
        | .error _ => return false
        | .ok _ => midHermesLlBlockDeleteRights bl blockId rights
      else midHermesLlBlockDeleteRights bl blockId rights

/-- `mid_hermes_ll_block_delete`, with the stores it is given (`NULL` or not): the block,
the entry of the user, then the entries of the rights list. -/
def midHermesLlBlockDelete (bl : Block) (rights : List RightsListNode)
    (dataStore keyStore : Bool) : Client Bool :=
  match bl.id, bl.mac with
  | some id, some mac =>
    if !dataStore && !keyStore then .ret false
    else do
      let removed ← (if dataStore then hermesDataStoreRemBlock id (bl.oldMac.getD mac)
        else .ret (.ok ()))
      match removed with
      | .error _ => return false
      | .ok _ =>
        if keyStore then
          match ← midHermesLlRtokenDelete bl id bl.rtoken with
          | .error _ => return false
          | .ok _ => midHermesLlBlockDeleteRights bl id rights
        else return true
  | _, _ => .ret false

end Hermes

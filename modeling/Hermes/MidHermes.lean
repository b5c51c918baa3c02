import Hermes.MidHermesLl.Block

/-!
# The operations of Hermes

The functions of `mid_hermes/mid_hermes.c` that act on blocks, for the user of a
`mid_hermes_t` that was created with all three stores. What a function writes through
its output pointers is returned next to its status.

`Hermes.Call` is the list of them: a call together with the user who makes it.
-/

namespace Hermes

open Interleave

/-- `mid_hermes_create_block`. Without an id the data store makes one up, and it is
returned in `*id`. When the block object cannot be made, its user has been destroyed with it and
is destroyed again. -/
def midHermesCreateBlock (user : User) (id : Option Bytes) (block metadata : Bytes) :
    Client (HermesStatus × Option Bytes) :=
  if block = [] ∨ metadata = [] then .ret (hmInvalidParameter, id)
  else do
    match ← midHermesLlBlockCreate user id block metadata none none with
    | none => .stop .assertion
    | some bl =>
      let (saved, bl) ← midHermesLlBlockSave bl [] true true
      if !saved then return (hmFail, id)
      else return (hmSuccess, id.or bl.id)

/-- `mid_hermes_read_block`: the data and the meta of a block. -/
def midHermesReadBlock (user : User) (blockId : Bytes) :
    Client (HermesStatus × Option (Bytes × Bytes)) :=
  if blockId = [] then .ret (hmInvalidParameter, none)
  else do
    match ← midHermesLlBlockLoad (midHermesLlBlockCreateEmpty user) blockId with
    | none => return (hmFail, none)
    | some bl => return (hmSuccess, some (bl.data.getD [], bl.metadata.getD []))

/-- `mid_hermes_update_block`. It reports a failure as `1`. -/
def midHermesUpdateBlock (user : User) (blockId block metadata : Bytes) : Client HermesStatus :=
  if blockId = [] ∨ block = [] ∨ metadata = [] then .ret hmInvalidParameter
  else do
    match ← midHermesLlBlockLoad (midHermesLlBlockCreateEmpty user) blockId with
    | none => return 1
    | some bl =>
      match ← midHermesLlBlockUpdate bl block metadata with
      | none => return 1
      | some bl =>
        let (saved, _) ← midHermesLlBlockSave bl [] true true
        if !saved then return 1 else return 0

/-- `mid_hermes_delete_block`. A rights list that could not be made is taken for an empty
one. -/
def midHermesDeleteBlock (fuel : ℕ) (user : User) (blockId : Bytes) : Client HermesStatus :=
  if blockId = [] then .ret hmInvalidParameter
  else do
    match ← midHermesLlBlockLoad (midHermesLlBlockCreateEmpty user) blockId with
    | none => return 1
    | some bl =>
      let rightsList ← midHermesLlBlockAccessRights fuel bl
      let deleted ← midHermesLlBlockDelete bl (rightsList.getD []) true true
      if !deleted then return hmFail else return hmSuccess

/-- `mid_hermes_rotate_block` -/
def midHermesRotateBlock (fuel : ℕ) (user : User) (blockId : Bytes) : Client HermesStatus :=
  if blockId = [] then .ret hmInvalidParameter
  else do
    match ← midHermesLlBlockLoad (midHermesLlBlockCreateEmpty user) blockId with
    | none => return hmFail
    | some bl =>
      match ← midHermesLlBlockAccessRights fuel bl with
      | none => return hmFail
      | some rightsList =>
        let (rotated, bl, rightsList) ← midHermesLlBlockRotate bl rightsList
        if !rotated then return hmFail
        else
          let (saved, _) ← midHermesLlBlockSave bl rightsList true true
          if !saved then return hmFail else return hmSuccess

/-- The body shared by `mid_hermes_grant_read_access` and `mid_hermes_grant_update_access`:
`tokenFor` makes the token that is saved. -/
def midHermesGrantAccess (tokenFor : Block → User → Client (Option Token)) (isUpdate : Bool)
    (user : User) (blockId forUserId : Bytes) : Client HermesStatus :=
  if blockId = [] ∨ forUserId = [] then .ret hmInvalidParameter
  else do
    match ← midHermesLlBlockLoad (midHermesLlBlockCreateEmpty user) blockId with
    | none => return hmFail
    | some bl =>
      match ← midHermesLlUserLoadC forUserId with
      | none => return hmFail
      | some forUser =>
        match ← tokenFor bl forUser with
        | none => return hmFail
        | some token =>
          match ← midHermesLlTokenSave (bl.id.getD []) token isUpdate with
          | .error _ => return hmFail
          | .ok _ => return hmSuccess

/-- `mid_hermes_grant_read_access` -/
def midHermesGrantReadAccess : User → Bytes → Bytes → Client HermesStatus :=
  midHermesGrantAccess midHermesLlBlockRtokenFor false

/-- `mid_hermes_grant_update_access` -/
def midHermesGrantUpdateAccess : User → Bytes → Bytes → Client HermesStatus :=
  midHermesGrantAccess midHermesLlBlockWtokenFor true

/-- The body shared by `mid_hermes_deny_read_access` and `mid_hermes_deny_update_access`. A
write token is made for the other user, and only used to see that it can be made. -/
def midHermesDenyAccess (isUpdate : Bool) (user : User) (blockId forUserId : Bytes) :
    Client HermesStatus :=
  if blockId = [] ∨ forUserId = [] then .ret hmInvalidParameter
  else do
    match ← midHermesLlBlockLoad (midHermesLlBlockCreateEmpty user) blockId with
    | none => return hmFail
    | some bl =>
      match ← midHermesLlUserLoadC forUserId with
      | none => return hmFail
      | some forUser =>
        match ← midHermesLlBlockWtokenFor bl forUser with
        | none => return hmFail
        | some _ =>
          match ← midHermesLlTokenDel forUser bl.user (bl.id.getD []) isUpdate with
          | .error _ => return hmFail
          | .ok _ => return hmSuccess

/-- `mid_hermes_deny_read_access` -/
def midHermesDenyReadAccess : User → Bytes → Bytes → Client HermesStatus :=
  midHermesDenyAccess false

/-- `mid_hermes_deny_update_access` -/
def midHermesDenyUpdateAccess : User → Bytes → Bytes → Client HermesStatus :=
  midHermesDenyAccess true

/-! ### Calls -/

/-- A call of one of the operations, without the user who makes it. -/
inductive Op where
  | createBlock (id : Option Bytes) (block metadata : Bytes)
  | readBlock (blockId : Bytes)
  | updateBlock (blockId block metadata : Bytes)
  | deleteBlock (blockId : Bytes)
  | rotateBlock (blockId : Bytes)
  | grantReadAccess (blockId forUserId : Bytes)
  | grantUpdateAccess (blockId forUserId : Bytes)
  | denyReadAccess (blockId forUserId : Bytes)
  | denyUpdateAccess (blockId forUserId : Bytes)
  deriving DecidableEq

/-- A call: who calls what. -/
structure Call where
  /-- The user of the `mid_hermes_t`. -/
  user : User
  /-- The operation. -/
  op : Op
  deriving DecidableEq

/-- What a call gives back: its status, and what it wrote through its output pointers. -/
structure Result where
  /-- The status. -/
  status : HermesStatus
  /-- `*id`, of a creation. -/
  id : Option Bytes
  /-- `*block` and `*meta`, of a reading. -/
  content : Option (Bytes × Bytes)
  deriving DecidableEq

/-- The result of a call that returns nothing but a status. -/
def Result.ofStatus (status : HermesStatus) : Result := ⟨status, none, none⟩

/-- The program of a call. `fuel` bounds the enumeration of a block's users, in the two
operations that have one. -/
def Call.prog (fuel : ℕ) (c : Call) : Client Result :=
  match c.op with
  | .createBlock id block metadata => do
    let (status, id) ← midHermesCreateBlock c.user id block metadata
    return ⟨status, id, none⟩
  | .readBlock blockId => do
    let (status, content) ← midHermesReadBlock c.user blockId
    return ⟨status, none, content⟩
  | .updateBlock blockId block metadata => do
    return .ofStatus (← midHermesUpdateBlock c.user blockId block metadata)
  | .deleteBlock blockId => do return .ofStatus (← midHermesDeleteBlock fuel c.user blockId)
  | .rotateBlock blockId => do return .ofStatus (← midHermesRotateBlock fuel c.user blockId)
  | .grantReadAccess blockId forUserId => do
    return .ofStatus (← midHermesGrantReadAccess c.user blockId forUserId)
  | .grantUpdateAccess blockId forUserId => do
    return .ofStatus (← midHermesGrantUpdateAccess c.user blockId forUserId)
  | .denyReadAccess blockId forUserId => do
    return .ofStatus (← midHermesDenyReadAccess c.user blockId forUserId)
  | .denyUpdateAccess blockId forUserId => do
    return .ofStatus (← midHermesDenyUpdateAccess c.user blockId forUserId)

/-- The block an operation is given, if it is given one. -/
def Op.blockId : Op → Option Bytes
  | .createBlock id _ _ => id
  | .readBlock b => some b
  | .updateBlock b _ _ => some b
  | .deleteBlock b => some b
  | .rotateBlock b => some b
  | .grantReadAccess b _ => some b
  | .grantUpdateAccess b _ => some b
  | .denyReadAccess b _ => some b
  | .denyUpdateAccess b _ => some b

end Hermes

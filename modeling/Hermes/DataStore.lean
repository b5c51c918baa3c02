import Mathlib.Data.List.AList
import Hermes.Common

/-!
# The data store and the credential store

The server side of the data store (`data_store/functions.c`) over any backend, with the
backend of `tests/common/test_data_store_db.c`: a map from ids to blocks, in which a
block is changed or removed only by a request that names the mac it has
(compare-and-set). The credential store only hands out public keys.

The backend invents the id of a block created without one. The source draws random ids
until it finds one that is not used; here the choice is a parameter,
`Hermes.IdSource`, that can depend on everything but returns an unused id.
-/

namespace Hermes

/-- `hm_ds_db_t`: the functions of a data store backend over its state (`user_data`). -/
structure HmDsDb (σ : Type) where
  /-- Block, meta, mac; the id of the new block. -/
  insertBlock : Bytes → Bytes → Bytes → σ → Reply Bytes × σ
  /-- Id, block, meta, mac. -/
  insertBlockWithId : Bytes → Bytes → Bytes → Bytes → σ → Reply Unit × σ
  /-- Id; block and meta. -/
  getBlock : Bytes → σ → Reply (Bytes × Bytes) × σ
  /-- Id, block, meta, mac, old mac. -/
  updateBlock : Bytes → Bytes → Bytes → Bytes → Bytes → σ → Reply Unit × σ
  /-- Id, old mac. -/
  remBlock : Bytes → Bytes → σ → Reply Unit × σ

section Server

variable {σ : Type} (db : HmDsDb σ)

/-- `hm_data_store_create_block` -/
def hmDataStoreCreateBlock (block metadata mac : Bytes) (s : σ) : Reply Bytes × σ :=
  if block = [] ∨ metadata = [] ∨ mac = [] then (.error .invalidParameter, s)
  else db.insertBlock block metadata mac s

/-- `hm_data_store_create_block_with_id` -/
def hmDataStoreCreateBlockWithId (id block metadata mac : Bytes) (s : σ) : Reply Unit × σ :=
  if block = [] ∨ metadata = [] ∨ mac = [] ∨ id = [] then (.error .invalidParameter, s)
  else db.insertBlockWithId id block metadata mac s

/-- `hm_data_store_read_block` -/
def hmDataStoreReadBlock (id : Bytes) (s : σ) : Reply (Bytes × Bytes) × σ :=
  if id = [] then (.error .invalidParameter, s) else db.getBlock id s

/-- `hm_data_store_update_block` -/
def hmDataStoreUpdateBlock (id block metadata mac oldMac : Bytes) (s : σ) : Reply Unit × σ :=
  if id = [] ∨ block = [] ∨ metadata = [] ∨ mac = [] ∨ oldMac = [] then
    (.error .invalidParameter, s)
  else db.updateBlock id block metadata mac oldMac s

/-- `hm_data_store_delete_block` -/
def hmDataStoreDeleteBlock (id oldMac : Bytes) (s : σ) : Reply Unit × σ :=
  if id = [] ∨ oldMac = [] then (.error .invalidParameter, s) else db.remBlock id oldMac s

end Server

/-! ### The backend of the tests -/

/-- `hm_test_ds_db_node_t`: a stored block. -/
structure StoredBlock where
  /-- `block`, the encrypted data. -/
  block : Bytes
  /-- `meta`, whose name is a keyword here. -/
  metadata : Bytes
  /-- `mac` -/
  mac : Bytes
  deriving DecidableEq

/-- `hm_test_ds_db_t`: the blocks by their ids, and how many ids were invented. -/
structure DataDb where
  /-- The stored blocks. -/
  blocks : AList fun _ : Bytes => StoredBlock
  /-- How many ids the store has invented so far. -/
  invented : ℕ

/-- How a data store picks the id of a new block: from the number of ids it has invented
before and the ids in use, an unused one. -/
structure IdSource where
  /-- The id. -/
  pick : ℕ → List Bytes → Bytes
  pick_notMem : ∀ n ids, pick n ids ∉ ids
  pick_ne_nil : ∀ n ids, pick n ids ≠ []

/-- `hm_test_ds_db_insert_block` -/
def dbInsertBlock (ids : IdSource) (block metadata mac : Bytes) (db : DataDb) :
    Reply Bytes × DataDb :=
  let id := ids.pick db.invented db.blocks.keys
  (.ok id, ⟨db.blocks.insert id ⟨block, metadata, mac⟩, db.invented + 1⟩)

/-- `hm_test_ds_db_insert_block_with_id`: only under an id that is not used. -/
def dbInsertBlockWithId (id block metadata mac : Bytes) (db : DataDb) :
    Reply Unit × DataDb :=
  if id ∈ db.blocks then (.error .fail, db)
  else (.ok (), { db with blocks := db.blocks.insert id ⟨block, metadata, mac⟩ })

/-- `hm_test_ds_db_read_block` -/
def dbGetBlock (id : Bytes) (db : DataDb) : Reply (Bytes × Bytes) × DataDb :=
  match db.blocks.lookup id with
  | none => (.error .fail, db)
  | some s => (.ok (s.block, s.metadata), db)

/-- `hm_test_ds_db_update_block`: only if the old mac is the stored one. -/
def dbUpdateBlock (id block metadata mac oldMac : Bytes) (db : DataDb) :
    Reply Unit × DataDb :=
  match db.blocks.lookup id with
  | none => (.error .fail, db)
  | some s =>
    if s.mac = oldMac then
      (.ok (), { db with blocks := db.blocks.insert id ⟨block, metadata, mac⟩ })
    else (.error .fail, db)

/-- `hm_test_ds_db_delete_block`: only if the old mac is the stored one. -/
def dbRemBlock (id oldMac : Bytes) (db : DataDb) : Reply Unit × DataDb :=
  match db.blocks.lookup id with
  | none => (.error .fail, db)
  | some s =>
    if s.mac = oldMac then (.ok (), { db with blocks := db.blocks.erase id })
    else (.error .fail, db)

/-- `hm_test_ds_db_create` -/
def testDataStoreDb (ids : IdSource) : HmDsDb DataDb where
  insertBlock := dbInsertBlock ids
  insertBlockWithId := dbInsertBlockWithId
  getBlock := dbGetBlock
  updateBlock := dbUpdateBlock
  remBlock := dbRemBlock

/-! ### What the server does over it -/

section Map

variable {ids : IdSource} {db : DataDb}

/-- The block under an id. -/
def DataDb.stored (db : DataDb) (id : Bytes) : Option StoredBlock := db.blocks.lookup id

/-- The table with another block, or none, under an id. -/
def DataDb.setStored (db : DataDb) (id : Bytes) : Option StoredBlock → DataDb
  | some s => { db with blocks := db.blocks.insert id s }
  | none => { db with blocks := db.blocks.erase id }

/-- The id the store would invent now. -/
def DataDb.freshId (ids : IdSource) (db : DataDb) : Bytes := ids.pick db.invented db.blocks.keys

theorem DataDb.stored_setStored (id : Bytes) (s : Option StoredBlock) (id' : Bytes) :
    (db.setStored id s).stored id' = if id' = id then s else db.stored id' := by
  rcases eq_or_ne id' id with rfl | h
  · cases s <;> simp [DataDb.stored, DataDb.setStored]
  · cases s <;> simp [DataDb.stored, DataDb.setStored, h]

theorem DataDb.mem_blocks_iff {id : Bytes} : id ∈ db.blocks ↔ db.stored id ≠ none := by
  rw [← AList.lookup_isSome, Option.isSome_iff_ne_none, DataDb.stored]

theorem DataDb.stored_freshId : db.stored (db.freshId ids) = none := by
  by_contra h
  exact ids.pick_notMem _ _ (DataDb.mem_blocks_iff.mpr h)

theorem hmDataStoreCreateBlock_eq (blk mt mac : Bytes) :
    hmDataStoreCreateBlock (testDataStoreDb ids) blk mt mac db =
      if blk = [] ∨ mt = [] ∨ mac = [] then (.error .invalidParameter, db)
      else (.ok (db.freshId ids),
        { db.setStored (db.freshId ids) (some ⟨blk, mt, mac⟩) with invented := db.invented + 1 }) :=
  rfl

theorem hmDataStoreCreateBlockWithId_eq (id blk mt mac : Bytes) :
    hmDataStoreCreateBlockWithId (testDataStoreDb ids) id blk mt mac db =
      if blk = [] ∨ mt = [] ∨ mac = [] ∨ id = [] then (.error .invalidParameter, db)
      else match db.stored id with
        | some _ => (.error .fail, db)
        | none => (.ok (), db.setStored id (some ⟨blk, mt, mac⟩)) := by
  simp only [hmDataStoreCreateBlockWithId, testDataStoreDb, dbInsertBlockWithId,
    DataDb.mem_blocks_iff]
  cases db.stored id <;> rfl

theorem hmDataStoreReadBlock_eq (id : Bytes) :
    hmDataStoreReadBlock (testDataStoreDb ids) id db =
      if id = [] then (.error .invalidParameter, db)
      else match db.stored id with
        | none => (.error .fail, db)
        | some s => (.ok (s.block, s.metadata), db) := rfl

theorem hmDataStoreUpdateBlock_eq (id blk mt mac old : Bytes) :
    hmDataStoreUpdateBlock (testDataStoreDb ids) id blk mt mac old db =
      if id = [] ∨ blk = [] ∨ mt = [] ∨ mac = [] ∨ old = [] then (.error .invalidParameter, db)
      else match db.stored id with
        | none => (.error .fail, db)
        | some s =>
          if s.mac = old then (.ok (), db.setStored id (some ⟨blk, mt, mac⟩))
          else (.error .fail, db) := rfl

theorem hmDataStoreDeleteBlock_eq (id old : Bytes) :
    hmDataStoreDeleteBlock (testDataStoreDb ids) id old db =
      if id = [] ∨ old = [] then (.error .invalidParameter, db)
      else match db.stored id with
        | none => (.error .fail, db)
        | some s =>
          if s.mac = old then (.ok (), db.setStored id none) else (.error .fail, db) := rfl

end Map

/-! ### The credential store -/

/-- `hm_credential_store_get_pub_key_by_id`, over a backend that is a map from ids to
public keys. -/
def hmCredentialStoreGetPubKeyById (db : Bytes → Option Bytes) (id : Bytes) : Reply Bytes :=
  if id = [] then .error .invalidParameter
  else
    match db id with
    | none => .error .fail
    | some key => .ok key

end Hermes

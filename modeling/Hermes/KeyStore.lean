import Mathlib.Data.List.AList
import Hermes.Common

/-!
# The key store

The server side of the key store (`key_store/functions.c`): what it checks before it
touches its backend. A token is stored for a *user* by an *owner*, the client that acts;
the check is on the owner, and it is skipped when the owner is the user.

The backend is a record of functions over a state, as in `hm_ks_db_t`. The one used for
the properties of the whole system is the map of `tests/common/test_key_store_db.c`
(`Hermes.testKeyStoreDb`): for each block a table of its users, with a read token that
every entry has, and a write token that it may have. Removing a user's read token
removes the entry.
-/

namespace Hermes

/-- `hm_ks_db_t`: the functions of a key store backend over its state (`user_data`). -/
structure HmKsDb (σ : Type) where
  /-- Block, user, owner, token. -/
  setRtoken : Bytes → Bytes → Bytes → Bytes → σ → Reply Unit × σ
  /-- Block, user, owner, token. -/
  setWtoken : Bytes → Bytes → Bytes → Bytes → σ → Reply Unit × σ
  /-- Block, user; the token and its owner. -/
  getRtoken : Bytes → Bytes → σ → Reply (Bytes × Bytes) × σ
  /-- Block, user; the token and its owner. -/
  getWtoken : Bytes → Bytes → σ → Reply (Bytes × Bytes) × σ
  /-- Block, user, owner. -/
  delRtoken : Bytes → Bytes → Bytes → σ → Reply Unit × σ
  /-- Block, user, owner. -/
  delWtoken : Bytes → Bytes → Bytes → σ → Reply Unit × σ
  /-- Block, index; the user at this index and its rights. -/
  getIndexedRights : Bytes → ℕ → σ → Reply (Bytes × UInt32) × σ

section Server

variable {σ : Type} (db : HmKsDb σ)

/-- The body shared by the two `hm_key_store_set_*`: an owner that is not the user must
hold the kind of token it sets. Where the owner is the user, nothing is checked. -/
def hmKeyStoreSetToken (getToken : Bytes → Bytes → σ → Reply (Bytes × Bytes) × σ)
    (setToken : Bytes → Bytes → Bytes → Bytes → σ → Reply Unit × σ)
    (blockId userId ownerId token : Bytes) (s : σ) : Reply Unit × σ :=
  if blockId = [] ∨ userId = [] ∨ ownerId = [] ∨ token = [] then (.error .invalidParameter, s)
  else if userId ≠ ownerId then
    match getToken blockId ownerId s with
    | (.error _, s) => (.error .fail, s)
    | (.ok _, s) => setToken blockId userId ownerId token s
  else setToken blockId userId ownerId token s

/-- `hm_key_store_set_rtoken` -/
def hmKeyStoreSetRtoken : Bytes → Bytes → Bytes → Bytes → σ → Reply Unit × σ :=
  hmKeyStoreSetToken db.getRtoken db.setRtoken

/-- `hm_key_store_set_wtoken` -/
def hmKeyStoreSetWtoken : Bytes → Bytes → Bytes → Bytes → σ → Reply Unit × σ :=
  hmKeyStoreSetToken db.getWtoken db.setWtoken

/-- The body shared by the two `hm_key_store_get_*`. -/
def hmKeyStoreGetToken (getToken : Bytes → Bytes → σ → Reply (Bytes × Bytes) × σ)
    (blockId userId : Bytes) (s : σ) : Reply (Bytes × Bytes) × σ :=
  if blockId = [] ∨ userId = [] then (.error .invalidParameter, s) else getToken blockId userId s

/-- `hm_key_store_get_rtoken` -/
def hmKeyStoreGetRtoken : Bytes → Bytes → σ → Reply (Bytes × Bytes) × σ :=
  hmKeyStoreGetToken db.getRtoken

/-- `hm_key_store_get_wtoken` -/
def hmKeyStoreGetWtoken : Bytes → Bytes → σ → Reply (Bytes × Bytes) × σ :=
  hmKeyStoreGetToken db.getWtoken

/-- The body shared by the two `hm_key_store_del_*`: the owner, whoever it is, must hold a
write token. -/
def hmKeyStoreDelToken (delToken : Bytes → Bytes → Bytes → σ → Reply Unit × σ)
    (blockId userId ownerId : Bytes) (s : σ) : Reply Unit × σ :=
  if blockId = [] ∨ userId = [] ∨ ownerId = [] then (.error .invalidParameter, s)
  else
    match db.getWtoken blockId ownerId s with
    | (.error _, s) => (.error .fail, s)
    | (.ok _, s) => delToken blockId userId ownerId s

/-- `hm_key_store_del_rtoken` -/
def hmKeyStoreDelRtoken : Bytes → Bytes → Bytes → σ → Reply Unit × σ :=
  hmKeyStoreDelToken db db.delRtoken

/-- `hm_key_store_del_wtoken` -/
def hmKeyStoreDelWtoken : Bytes → Bytes → Bytes → σ → Reply Unit × σ :=
  hmKeyStoreDelToken db db.delWtoken

/-- `hm_key_store_get_indexed_rights` -/
def hmKeyStoreGetIndexedRights (blockId : Bytes) (index : ℕ) (s : σ) :
    Reply (Bytes × UInt32) × σ :=
  if blockId = [] then (.error .invalidParameter, s) else db.getIndexedRights blockId index s

end Server

/-! ### The backend of the tests -/

/-- `hm_test_ks_db_token_t`: what a block's table holds for one user. -/
structure Entry where
  /-- `rtoken` -/
  rtoken : Bytes
  /-- `rtoken_owner` -/
  rtokenOwner : Bytes
  /-- `wtoken` and `wtoken_owner`, when `wtoken_length` is not `0`. -/
  wtoken : Option (Bytes × Bytes)
  deriving DecidableEq

/-- The users of one block (`hm_test_ks_db_node_t`). -/
abbrev Users := AList fun _ : Bytes => Entry

/-- `hm_test_ks_db_t`: the users of each block. A block nobody ever wrote to has none. -/
abbrev KeyDb := Bytes → Users

/-- `db_del_rtoken` -/
def dbDelRtoken (blockId userId _ownerId : Bytes) (db : KeyDb) : Reply Unit × KeyDb :=
  if userId ∈ db blockId then
    (.ok (), Function.update db blockId ((db blockId).erase userId))
  else (.error .fail, db)

/-- `db_set_rtoken`: the entry is made if there is none, and keeps its write token if
there is one. -/
def dbSetRtoken (blockId userId ownerId token : Bytes) (db : KeyDb) : Reply Unit × KeyDb :=
  if token = [] then dbDelRtoken blockId userId ownerId db
  else
    let e : Entry := ⟨token, ownerId, ((db blockId).lookup userId).bind (·.wtoken)⟩
    (.ok (), Function.update db blockId ((db blockId).insert userId e))

/-- `db_set_wtoken`: there must be an entry. -/
def dbSetWtoken (blockId userId ownerId token : Bytes) (db : KeyDb) : Reply Unit × KeyDb :=
  match (db blockId).lookup userId with
  | none => (.error .fail, db)
  | some e =>
    let e' : Entry := { e with wtoken := if token = [] then none else some (token, ownerId) }
    (.ok (), Function.update db blockId ((db blockId).insert userId e'))

/-- `db_get_rtoken` -/
def dbGetRtoken (blockId userId : Bytes) (db : KeyDb) : Reply (Bytes × Bytes) × KeyDb :=
  match (db blockId).lookup userId with
  | none => (.error .fail, db)
  | some e => (.ok (e.rtoken, e.rtokenOwner), db)

/-- `db_get_wtoken` -/
def dbGetWtoken (blockId userId : Bytes) (db : KeyDb) : Reply (Bytes × Bytes) × KeyDb :=
  match ((db blockId).lookup userId).bind (·.wtoken) with
  | none => (.error .fail, db)
  | some w => (.ok w, db)

/-- `db_del_wtoken` -/
def dbDelWtoken (blockId userId _ownerId : Bytes) (db : KeyDb) : Reply Unit × KeyDb :=
  match (db blockId).lookup userId with
  | none => (.error .fail, db)
  | some e =>
    (.ok (), Function.update db blockId ((db blockId).insert userId { e with wtoken := none }))

/-- The `get_indexed_rights` of a backend that lists the users of a block in the order
`enumerate`: the user at an index, and `1` if it may write. These are the values that the comment
of `hm_key_store_get_indexed_rights` names, `0` and `1`; the masks that `client.h` defines, and
that the backend of the example service answers, are `1` to read and `3` to read and write. No
client looks at the mask. -/
def dbGetIndexedRights (enumerate : List Bytes → List Bytes) (blockId : Bytes) (index : ℕ)
    (db : KeyDb) : Reply (Bytes × UInt32) × KeyDb :=
  match (enumerate (db blockId).keys)[index]? with
  | none => (.error .fail, db)
  | some u =>
    let mask := if (((db blockId).lookup u).bind (·.wtoken)).isSome then 1 else 0
    (.ok (u, mask), db)

/-- `hm_test_ks_db_create` -/
def testKeyStoreDb (enumerate : List Bytes → List Bytes) : HmKsDb KeyDb where
  setRtoken := dbSetRtoken
  setWtoken := dbSetWtoken
  getRtoken := dbGetRtoken
  getWtoken := dbGetWtoken
  delRtoken := dbDelRtoken
  delWtoken := dbDelWtoken
  getIndexedRights := dbGetIndexedRights enumerate

/-! ### What the server does over it -/

section Map

variable {enumerate : List Bytes → List Bytes} {db : KeyDb}

/-- The entry of a user for a block. -/
def KeyDb.entry (db : KeyDb) (blockId userId : Bytes) : Option Entry :=
  (db blockId).lookup userId

/-- The tables with another entry, or none, for a block and a user. -/
def KeyDb.setEntry (db : KeyDb) (b u : Bytes) : Option Entry → KeyDb
  | some e => Function.update db b ((db b).insert u e)
  | none => Function.update db b ((db b).erase u)

/-- The write token in an entry, with its owner. -/
def writeToken (e : Option Entry) : Option (Bytes × Bytes) := e.bind (·.wtoken)

theorem KeyDb.entry_setEntry (b u : Bytes) (e : Option Entry) (b' u' : Bytes) :
    (db.setEntry b u e).entry b' u' = if b' = b ∧ u' = u then e else db.entry b' u' := by
  rcases eq_or_ne b' b with rfl | hb
  · rcases eq_or_ne u' u with rfl | hu
    · cases e <;> simp [KeyDb.entry, KeyDb.setEntry]
    · cases e <;> simp [KeyDb.entry, KeyDb.setEntry, hu]
  · cases e <;> simp [KeyDb.entry, KeyDb.setEntry, hb]

theorem KeyDb.mem_iff {b u : Bytes} : u ∈ db b ↔ db.entry b u ≠ none := by
  rw [← AList.lookup_isSome, Option.isSome_iff_ne_none, KeyDb.entry]

theorem dbGetRtoken_eq (b u : Bytes) :
    dbGetRtoken b u db = match db.entry b u with
      | none => (.error .fail, db)
      | some e => (.ok (e.rtoken, e.rtokenOwner), db) := rfl

theorem dbGetWtoken_eq (b u : Bytes) :
    dbGetWtoken b u db = match writeToken (db.entry b u) with
      | none => (.error .fail, db)
      | some w => (.ok w, db) := rfl

theorem hmKeyStoreSetRtoken_eq (b u o t : Bytes) :
    hmKeyStoreSetRtoken (testKeyStoreDb enumerate) b u o t db =
      if b = [] ∨ u = [] ∨ o = [] ∨ t = [] then (.error .invalidParameter, db)
      else if u ≠ o ∧ db.entry b o = none then (.error .fail, db)
      else (.ok (), db.setEntry b u (some ⟨t, o, writeToken (db.entry b u)⟩)) := by
  simp only [hmKeyStoreSetRtoken, hmKeyStoreSetToken, testKeyStoreDb, dbGetRtoken_eq]
  split_ifs with h huo hn hn
  · rfl
  · rw [hn.2]
  · obtain ⟨e, he⟩ := Option.ne_none_iff_exists'.mp fun h' => hn ⟨huo, h'⟩
    rw [he]
    simp [dbSetRtoken, show t ≠ [] by tauto, KeyDb.setEntry, KeyDb.entry, writeToken]
  · exact absurd hn.1 huo
  · simp [dbSetRtoken, show t ≠ [] by tauto, KeyDb.setEntry, KeyDb.entry, writeToken]

theorem hmKeyStoreSetWtoken_eq (b u o t : Bytes) :
    hmKeyStoreSetWtoken (testKeyStoreDb enumerate) b u o t db =
      if b = [] ∨ u = [] ∨ o = [] ∨ t = [] then (.error .invalidParameter, db)
      else if u ≠ o ∧ writeToken (db.entry b o) = none then (.error .fail, db)
      else match db.entry b u with
        | none => (.error .fail, db)
        | some e => (.ok (), db.setEntry b u (some { e with wtoken := some (t, o) })) := by
  have hset : t ≠ [] → dbSetWtoken b u o t db = match db.entry b u with
      | none => (.error .fail, db)
      | some e => (.ok (), db.setEntry b u (some { e with wtoken := some (t, o) })) := by
    intro ht
    simp only [dbSetWtoken, ht, if_false]
    rfl
  simp only [hmKeyStoreSetWtoken, hmKeyStoreSetToken, testKeyStoreDb, dbGetWtoken_eq]
  split_ifs with h huo hn hn
  · rfl
  · rw [hn.2]
  · obtain ⟨e, he⟩ := Option.ne_none_iff_exists'.mp fun h' => hn ⟨huo, h'⟩
    rw [he]
    exact hset (by tauto)
  · exact absurd hn.1 huo
  · exact hset (by tauto)

theorem hmKeyStoreGetRtoken_eq (b u : Bytes) :
    hmKeyStoreGetRtoken (testKeyStoreDb enumerate) b u db =
      if b = [] ∨ u = [] then (.error .invalidParameter, db)
      else match db.entry b u with
        | none => (.error .fail, db)
        | some e => (.ok (e.rtoken, e.rtokenOwner), db) := rfl

theorem hmKeyStoreGetWtoken_eq (b u : Bytes) :
    hmKeyStoreGetWtoken (testKeyStoreDb enumerate) b u db =
      if b = [] ∨ u = [] then (.error .invalidParameter, db)
      else match writeToken (db.entry b u) with
        | none => (.error .fail, db)
        | some t => (.ok t, db) := rfl

theorem hmKeyStoreDelRtoken_eq (b u o : Bytes) :
    hmKeyStoreDelRtoken (testKeyStoreDb enumerate) b u o db =
      if b = [] ∨ u = [] ∨ o = [] then (.error .invalidParameter, db)
      else if writeToken (db.entry b o) = none ∨ db.entry b u = none then (.error .fail, db)
      else (.ok (), db.setEntry b u none) := by
  simp only [hmKeyStoreDelRtoken, hmKeyStoreDelToken, testKeyStoreDb, dbGetWtoken_eq]
  split_ifs with h hn
  · rfl
  · rcases hn with hn | hn
    · rw [hn]
    · cases writeToken (db.entry b o) <;> simp [dbDelRtoken, KeyDb.mem_iff, hn]
  · obtain ⟨t, ht⟩ := Option.ne_none_iff_exists'.mp (not_or.mp hn).1
    rw [ht]
    simp [dbDelRtoken, KeyDb.mem_iff, (not_or.mp hn).2, KeyDb.setEntry]

theorem hmKeyStoreDelWtoken_eq (b u o : Bytes) :
    hmKeyStoreDelWtoken (testKeyStoreDb enumerate) b u o db =
      if b = [] ∨ u = [] ∨ o = [] then (.error .invalidParameter, db)
      else if writeToken (db.entry b o) = none then (.error .fail, db)
      else match db.entry b u with
        | none => (.error .fail, db)
        | some e => (.ok (), db.setEntry b u (some { e with wtoken := none })) := by
  simp only [hmKeyStoreDelWtoken, hmKeyStoreDelToken, testKeyStoreDb, dbGetWtoken_eq]
  split_ifs with h hn
  · rfl
  · rw [hn]
  · obtain ⟨t, ht⟩ := Option.ne_none_iff_exists'.mp hn
    rw [ht]
    rfl

end Map

end Hermes

import Hermes.Interleave.Pool
import Hermes.KeyStore
import Hermes.DataStore
import Hermes.Themis
import Hermes.MidHermes

/-!
# The stores together

The state all clients share (`Hermes.World`): the tables of the key store and of the data
store, and the random values that are still to be drawn. What does not change is the
environment (`Hermes.Env`): the cryptography, the choices the two backends are free to
make, and the credential store. `Hermes.Env.handle` answers a request the way the
fault-free stores and ideal cryptography do.

A state is read through two maps, `Hermes.World.entry` and `Hermes.World.stored`, and the
main result of the file says that a request acts on them as the answer it got tells:
`Hermes.Env.entry_handle` and `Hermes.Env.stored_handle`. What an exchange does to the
maps (`Hermes.keysAfter`, `Hermes.dataAfter`) does not mention the servers or their
backends any more; when a request is accepted is said by one theorem for each of them.
-/

namespace Hermes

open Interleave

/-- What clients share and no request changes. -/
structure Env where
  /-- The cryptography. -/
  themis : Themis
  /-- The order in which the key store lists the users of a block. -/
  enumerate : List Bytes → List Bytes
  enumerate_perm : ∀ l, (enumerate l).Perm l
  /-- How the data store makes up ids. -/
  ids : IdSource
  /-- The credential store: the public keys of the registered users. -/
  credentials : Bytes → Option Bytes

/-- What clients share and requests change. -/
structure World where
  /-- The tables of the key store. -/
  keys : KeyDb
  /-- The table of the data store. -/
  data : DataDb
  /-- The values the random generator will return. -/
  rands : ℕ → HmToken

/-- Empty stores. -/
def World.empty (rands : ℕ → HmToken) : World := ⟨fun _ => ∅, ⟨∅, 0⟩, rands⟩

/-- The entry the key store has for a block and a user. -/
def World.entry (w : World) (blockId userId : Bytes) : Option Entry :=
  w.keys.entry blockId userId

/-- The block the data store has under an id. -/
def World.stored (w : World) (blockId : Bytes) : Option StoredBlock :=
  w.data.stored blockId

/-- A user as its own process has it: registered under its public key, with the private
key that belongs to it. -/
structure Env.Registered (E : Env) (u : User) : Prop where
  pk_eq : E.credentials u.id = some u.pk
  sk_eq : ∃ sk, sk ≠ [] ∧ u.sk = some sk ∧ u.pk = E.themis.pub sk

/-! ### Answering requests -/

/-- The key store server, over any backend. -/
def serveKeyStore {σ : Type} (db : HmKsDb σ) : (r : KeyStoreReq) → σ → r.Answer × σ
  | .setRtoken b u o t, s => hmKeyStoreSetRtoken db b u o t s
  | .setWtoken b u o t, s => hmKeyStoreSetWtoken db b u o t s
  | .getRtoken b u, s => hmKeyStoreGetRtoken db b u s
  | .getWtoken b u, s => hmKeyStoreGetWtoken db b u s
  | .delRtoken b u o, s => hmKeyStoreDelRtoken db b u o s
  | .delWtoken b u o, s => hmKeyStoreDelWtoken db b u o s
  | .getIndexedRights b i, s => hmKeyStoreGetIndexedRights db b i s

/-- The data store server, over any backend. -/
def serveDataStore {σ : Type} (db : HmDsDb σ) : (r : DataStoreReq) → σ → r.Answer × σ
  | .createBlock blk m mac, s => hmDataStoreCreateBlock db blk m mac s
  | .createBlockWithId id blk m mac, s => hmDataStoreCreateBlockWithId db id blk m mac s
  | .readBlock id, s => hmDataStoreReadBlock db id s
  | .updateBlock id blk m mac old, s => hmDataStoreUpdateBlock db id blk m mac old s
  | .deleteBlock id old, s => hmDataStoreDeleteBlock db id old s

/-- Ideal cryptography never fails, except to open what was not made for it. -/
def serveThemis (T : Themis) (rands : ℕ → HmToken) : (r : ThemisReq) → r.Answer
  | .rand => some (rands 0)
  | .encryptSeal k c m => some (T.encryptSeal k c m)
  | .decryptSeal k c x => T.decryptSeal k c x
  | .wrap sk pk m => some (T.wrap sk pk m)
  | .unwrapSize sk pk x => T.unwrapSize sk pk x
  | .unwrap sk pk x => T.unwrap sk pk x
  | .hmac k xs => some (T.hmac k xs)

/-- The random values left after a call. -/
def drawn (rands : ℕ → HmToken) : ThemisReq → ℕ → HmToken
  | .rand => fun n => rands (n + 1)
  | _ => rands

/-- The answer to a request, and the state it leaves. -/
def Env.handle (E : Env) (w : World) : (r : Req) → r.Answer × World
  | .ks r =>
    let p := serveKeyStore (testKeyStoreDb E.enumerate) r w.keys
    (p.1, { w with keys := p.2 })
  | .ds r =>
    let p := serveDataStore (testDataStoreDb E.ids) r w.data
    (p.1, { w with data := p.2 })
  | .getPubKeyById id => (hmCredentialStoreGetPubKeyById E.credentials id, w)
  | .themis r => (serveThemis E.themis w.rands r, { w with rands := drawn w.rands r })

/-! ### The requests, one by one -/

section Requests

variable {E : Env} {w : World}

/-- The state with another entry, or none, for a block and a user. -/
def World.setEntry (w : World) (b u : Bytes) (e : Option Entry) : World :=
  { w with keys := w.keys.setEntry b u e }

/-- The state with another block, or none, under an id. -/
def World.setStored (w : World) (b : Bytes) (s : Option StoredBlock) : World :=
  { w with data := w.data.setStored b s }

/-- The state in which the data store has invented one more id. -/
def World.invent (w : World) : World :=
  { w with data := { w.data with invented := w.data.invented + 1 } }

@[simp] theorem stored_setEntry (b u : Bytes) (e : Option Entry) :
    (w.setEntry b u e).stored = w.stored := rfl

@[simp] theorem entry_setStored (b : Bytes) (s : Option StoredBlock) :
    (w.setStored b s).entry = w.entry := rfl

@[simp] theorem entry_invent : w.invent.entry = w.entry := rfl

@[simp] theorem stored_invent : w.invent.stored = w.stored := rfl

theorem entry_setEntry (b u : Bytes) (e : Option Entry) (b' u' : Bytes) :
    (w.setEntry b u e).entry b' u' = if b' = b ∧ u' = u then e else w.entry b' u' :=
  KeyDb.entry_setEntry b u e b' u'

theorem stored_setStored (b : Bytes) (s : Option StoredBlock) (b' : Bytes) :
    (w.setStored b s).stored b' = if b' = b then s else w.stored b' :=
  DataDb.stored_setStored b s b'

theorem handle_setRtoken (b u o t : Bytes) :
    E.handle w (.ks (.setRtoken b u o t)) =
      if b = [] ∨ u = [] ∨ o = [] ∨ t = [] then (.error .invalidParameter, w)
      else if u ≠ o ∧ w.entry b o = none then (.error .fail, w)
      else (.ok (), w.setEntry b u (some ⟨t, o, writeToken (w.entry b u)⟩)) := by
  show (let p := hmKeyStoreSetRtoken (testKeyStoreDb E.enumerate) b u o t w.keys
    ((p.1, { w with keys := p.2 }) : Reply Unit × World)) = _
  rw [hmKeyStoreSetRtoken_eq]
  by_cases h : u ≠ o ∧ w.entry b o = none
  · rw [if_pos h, if_pos (show u ≠ o ∧ w.keys.entry b o = none from h)]
    split_ifs <;> rfl
  · rw [if_neg h, if_neg (show ¬(u ≠ o ∧ w.keys.entry b o = none) from h)]
    split_ifs <;> rfl

theorem handle_setWtoken (b u o t : Bytes) :
    E.handle w (.ks (.setWtoken b u o t)) =
      if b = [] ∨ u = [] ∨ o = [] ∨ t = [] then (.error .invalidParameter, w)
      else if u ≠ o ∧ writeToken (w.entry b o) = none then (.error .fail, w)
      else match w.entry b u with
        | none => (.error .fail, w)
        | some e => (.ok (), w.setEntry b u (some { e with wtoken := some (t, o) })) := by
  show (let p := hmKeyStoreSetWtoken (testKeyStoreDb E.enumerate) b u o t w.keys
    ((p.1, { w with keys := p.2 }) : Reply Unit × World)) = _
  rw [hmKeyStoreSetWtoken_eq]
  by_cases h : u ≠ o ∧ writeToken (w.entry b o) = none
  · rw [if_pos h, if_pos (show u ≠ o ∧ writeToken (w.keys.entry b o) = none from h)]
    split_ifs <;> rfl
  · rw [if_neg h, if_neg (show ¬(u ≠ o ∧ writeToken (w.keys.entry b o) = none) from h)]
    simp only [World.entry]
    cases w.keys.entry b u <;> split_ifs <;> rfl

theorem handle_getRtoken (b u : Bytes) :
    E.handle w (.ks (.getRtoken b u)) =
      if b = [] ∨ u = [] then (.error .invalidParameter, w)
      else match w.entry b u with
        | none => (.error .fail, w)
        | some e => (.ok (e.rtoken, e.rtokenOwner), w) := by
  show (let p := hmKeyStoreGetRtoken (testKeyStoreDb E.enumerate) b u w.keys
    ((p.1, { w with keys := p.2 }) : Reply (Bytes × Bytes) × World)) = _
  rw [hmKeyStoreGetRtoken_eq]
  simp only [World.entry]
  cases w.keys.entry b u <;> split_ifs <;> rfl

theorem handle_getWtoken (b u : Bytes) :
    E.handle w (.ks (.getWtoken b u)) =
      if b = [] ∨ u = [] then (.error .invalidParameter, w)
      else match writeToken (w.entry b u) with
        | none => (.error .fail, w)
        | some t => (.ok t, w) := by
  show (let p := hmKeyStoreGetWtoken (testKeyStoreDb E.enumerate) b u w.keys
    ((p.1, { w with keys := p.2 }) : Reply (Bytes × Bytes) × World)) = _
  rw [hmKeyStoreGetWtoken_eq]
  simp only [World.entry]
  cases writeToken (w.keys.entry b u) <;> split_ifs <;> rfl

theorem handle_delRtoken (b u o : Bytes) :
    E.handle w (.ks (.delRtoken b u o)) =
      if b = [] ∨ u = [] ∨ o = [] then (.error .invalidParameter, w)
      else if writeToken (w.entry b o) = none ∨ w.entry b u = none then (.error .fail, w)
      else (.ok (), w.setEntry b u none) := by
  show (let p := hmKeyStoreDelRtoken (testKeyStoreDb E.enumerate) b u o w.keys
    ((p.1, { w with keys := p.2 }) : Reply Unit × World)) = _
  rw [hmKeyStoreDelRtoken_eq]
  by_cases h : writeToken (w.entry b o) = none ∨ w.entry b u = none
  · have h' : writeToken (w.keys.entry b o) = none ∨ w.keys.entry b u = none := h
    rw [if_pos h, if_pos h']
    split_ifs <;> rfl
  · have h' : ¬(writeToken (w.keys.entry b o) = none ∨ w.keys.entry b u = none) := h
    rw [if_neg h, if_neg h']
    split_ifs <;> rfl

theorem handle_delWtoken (b u o : Bytes) :
    E.handle w (.ks (.delWtoken b u o)) =
      if b = [] ∨ u = [] ∨ o = [] then (.error .invalidParameter, w)
      else if writeToken (w.entry b o) = none then (.error .fail, w)
      else match w.entry b u with
        | none => (.error .fail, w)
        | some e => (.ok (), w.setEntry b u (some { e with wtoken := none })) := by
  show (let p := hmKeyStoreDelWtoken (testKeyStoreDb E.enumerate) b u o w.keys
    ((p.1, { w with keys := p.2 }) : Reply Unit × World)) = _
  rw [hmKeyStoreDelWtoken_eq]
  by_cases h : writeToken (w.entry b o) = none
  · rw [if_pos h, if_pos (show writeToken (w.keys.entry b o) = none from h)]
    split_ifs <;> rfl
  · rw [if_neg h, if_neg (show ¬(writeToken (w.keys.entry b o) = none) from h)]
    simp only [World.entry]
    cases w.keys.entry b u <;> split_ifs <;> rfl

theorem handle_getIndexedRights (b : Bytes) (i : ℕ) :
    (E.handle w (.ks (.getIndexedRights b i))).2 = w := by
  show ({ w with keys := (hmKeyStoreGetIndexedRights (testKeyStoreDb E.enumerate) b i w.keys).2 }
    : World) = w
  simp only [hmKeyStoreGetIndexedRights, testKeyStoreDb, dbGetIndexedRights]
  split_ifs
  · rfl
  · cases (E.enumerate (w.keys b).keys)[i]? <;> rfl

theorem handle_createBlock (blk mt mac : Bytes) :
    E.handle w (.ds (.createBlock blk mt mac)) =
      if blk = [] ∨ mt = [] ∨ mac = [] then (.error .invalidParameter, w)
      else (.ok (w.data.freshId E.ids),
        (w.setStored (w.data.freshId E.ids) (some ⟨blk, mt, mac⟩)).invent) := by
  show (let p := hmDataStoreCreateBlock (testDataStoreDb E.ids) blk mt mac w.data
    ((p.1, { w with data := p.2 }) : Reply Bytes × World)) = _
  rw [hmDataStoreCreateBlock_eq]
  split_ifs <;> rfl

theorem handle_createBlockWithId (id blk mt mac : Bytes) :
    E.handle w (.ds (.createBlockWithId id blk mt mac)) =
      if blk = [] ∨ mt = [] ∨ mac = [] ∨ id = [] then (.error .invalidParameter, w)
      else match w.stored id with
        | some _ => (.error .fail, w)
        | none => (.ok (), w.setStored id (some ⟨blk, mt, mac⟩)) := by
  show (let p := hmDataStoreCreateBlockWithId (testDataStoreDb E.ids) id blk mt mac w.data
    ((p.1, { w with data := p.2 }) : Reply Unit × World)) = _
  rw [hmDataStoreCreateBlockWithId_eq]
  simp only [World.stored]
  cases w.data.stored id <;> split_ifs <;> rfl

theorem handle_readBlock (id : Bytes) :
    E.handle w (.ds (.readBlock id)) =
      if id = [] then (.error .invalidParameter, w)
      else match w.stored id with
        | none => (.error .fail, w)
        | some s => (.ok (s.block, s.metadata), w) := by
  show (let p := hmDataStoreReadBlock (testDataStoreDb E.ids) id w.data
    ((p.1, { w with data := p.2 }) : Reply (Bytes × Bytes) × World)) = _
  rw [hmDataStoreReadBlock_eq]
  simp only [World.stored]
  cases w.data.stored id <;> split_ifs <;> rfl

theorem handle_updateBlock (id blk mt mac old : Bytes) :
    E.handle w (.ds (.updateBlock id blk mt mac old)) =
      if id = [] ∨ blk = [] ∨ mt = [] ∨ mac = [] ∨ old = [] then (.error .invalidParameter, w)
      else match w.stored id with
        | none => (.error .fail, w)
        | some s =>
          if s.mac = old then (.ok (), w.setStored id (some ⟨blk, mt, mac⟩))
          else (.error .fail, w) := by
  show (let p := hmDataStoreUpdateBlock (testDataStoreDb E.ids) id blk mt mac old w.data
    ((p.1, { w with data := p.2 }) : Reply Unit × World)) = _
  rw [hmDataStoreUpdateBlock_eq]
  simp only [World.stored]
  cases w.data.stored id <;> dsimp only <;> split_ifs <;> rfl

theorem handle_deleteBlock (id old : Bytes) :
    E.handle w (.ds (.deleteBlock id old)) =
      if id = [] ∨ old = [] then (.error .invalidParameter, w)
      else match w.stored id with
        | none => (.error .fail, w)
        | some s => if s.mac = old then (.ok (), w.setStored id none) else (.error .fail, w) := by
  show (let p := hmDataStoreDeleteBlock (testDataStoreDb E.ids) id old w.data
    ((p.1, { w with data := p.2 }) : Reply Unit × World)) = _
  rw [hmDataStoreDeleteBlock_eq]
  simp only [World.stored]
  cases w.data.stored id <;> dsimp only <;> split_ifs <;> rfl

end Requests

/-! ### What an exchange does -/

/-- The entries after an exchange. -/
def keysAfter (m : Bytes → Bytes → Option Entry) : Event Req.Answer → Bytes → Bytes → Option Entry
  | ⟨.ks (.setRtoken b u o t), .ok _⟩, b', u' =>
    if b' = b ∧ u' = u then some ⟨t, o, writeToken (m b u)⟩ else m b' u'
  | ⟨.ks (.setWtoken b u o t), .ok _⟩, b', u' =>
    if b' = b ∧ u' = u then (m b u).map fun e => { e with wtoken := some (t, o) } else m b' u'
  | ⟨.ks (.delRtoken b u _), .ok _⟩, b', u' => if b' = b ∧ u' = u then none else m b' u'
  | ⟨.ks (.delWtoken b u _), .ok _⟩, b', u' =>
    if b' = b ∧ u' = u then (m b u).map fun e => { e with wtoken := none } else m b' u'
  | _, b', u' => m b' u'

/-- The stored blocks after an exchange. -/
def dataAfter (m : Bytes → Option StoredBlock) : Event Req.Answer → Bytes → Option StoredBlock
  | ⟨.ds (.createBlock blk mt mac), .ok b⟩, b' => if b' = b then some ⟨blk, mt, mac⟩ else m b'
  | ⟨.ds (.createBlockWithId b blk mt mac), .ok _⟩, b' =>
    if b' = b then some ⟨blk, mt, mac⟩ else m b'
  | ⟨.ds (.updateBlock b blk mt mac _), .ok _⟩, b' =>
    if b' = b then some ⟨blk, mt, mac⟩ else m b'
  | ⟨.ds (.deleteBlock b _), .ok _⟩, b' => if b' = b then none else m b'
  | _, b' => m b'

section Refinement

variable {E : Env} {w : World}

/-- **The entries after a request are what its answer makes of them.** -/
theorem entry_handle (w : World) (r : Req) :
    (E.handle w r).2.entry = keysAfter w.entry ⟨r, (E.handle w r).1⟩ := by
  funext b' u'
  match r with
  | .ks (.setRtoken b u o t) =>
    rw [handle_setRtoken]
    split_ifs
    · rfl
    · rfl
    · exact entry_setEntry _ _ _ _ _
  | .ks (.setWtoken b u o t) =>
    rw [handle_setWtoken]
    split_ifs
    · rfl
    · rfl
    · cases h : w.entry b u with
      | none => rfl
      | some e =>
        simp only [keysAfter, h, Option.map_some]
        exact entry_setEntry _ _ _ _ _
  | .ks (.getRtoken b u) =>
    rw [handle_getRtoken]
    split_ifs
    · rfl
    · cases w.entry b u <;> rfl
  | .ks (.getWtoken b u) =>
    rw [handle_getWtoken]
    split_ifs
    · rfl
    · cases writeToken (w.entry b u) <;> rfl
  | .ks (.delRtoken b u o) =>
    rw [handle_delRtoken]
    split_ifs
    · rfl
    · rfl
    · exact entry_setEntry _ _ _ _ _
  | .ks (.delWtoken b u o) =>
    rw [handle_delWtoken]
    split_ifs
    · rfl
    · rfl
    · cases h : w.entry b u with
      | none => rfl
      | some e =>
        simp only [keysAfter, h, Option.map_some]
        exact entry_setEntry _ _ _ _ _
  | .ks (.getIndexedRights b i) =>
    rw [handle_getIndexedRights]
    rfl
  | .ds _ => rfl
  | .getPubKeyById _ => rfl
  | .themis _ => rfl

/-- **The stored blocks after a request are what its answer makes of them.** -/
theorem stored_handle (w : World) (r : Req) :
    (E.handle w r).2.stored = dataAfter w.stored ⟨r, (E.handle w r).1⟩ := by
  funext b'
  match r with
  | .ks _ => rfl
  | .getPubKeyById _ => rfl
  | .themis _ => rfl
  | .ds (.createBlock blk mt mac) =>
    rw [handle_createBlock]
    split_ifs
    · rfl
    · exact stored_setStored _ _ _
  | .ds (.createBlockWithId id blk mt mac) =>
    rw [handle_createBlockWithId]
    split_ifs
    · rfl
    · cases w.stored id with
      | some s => rfl
      | none => exact stored_setStored _ _ _
  | .ds (.readBlock id) =>
    rw [handle_readBlock]
    split_ifs
    · rfl
    · cases w.stored id <;> rfl
  | .ds (.updateBlock id blk mt mac old) =>
    rw [handle_updateBlock]
    split_ifs
    · rfl
    · cases w.stored id with
      | none => rfl
      | some s =>
        dsimp only
        split_ifs
        · exact stored_setStored _ _ _
        · rfl
  | .ds (.deleteBlock id old) =>
    rw [handle_deleteBlock]
    split_ifs
    · rfl
    · cases w.stored id with
      | none => rfl
      | some s =>
        dsimp only
        split_ifs
        · exact stored_setStored _ _ _
        · rfl

/-! ### What a request can do -/

/-- What a request can do in the key store server alone. -/
theorem entry_serveKeyStore_cases (enumerate : List Bytes → List Bytes) (r : KeyStoreReq)
    (db : KeyDb) (b u : Bytes) :
    (serveKeyStore (testKeyStoreDb enumerate) r db).2.entry b u = db.entry b u ∨
    (∃ o t, (⟨r, (serveKeyStore (testKeyStoreDb enumerate) r db).1⟩ : Σ r : KeyStoreReq, r.Answer) =
        ⟨.setRtoken b u o t, .ok ()⟩ ∧
      (b ≠ [] ∧ u ≠ [] ∧ o ≠ [] ∧ t ≠ []) ∧ (u = o ∨ db.entry b o ≠ none) ∧
      (serveKeyStore (testKeyStoreDb enumerate) r db).2.entry b u =
        some ⟨t, o, writeToken (db.entry b u)⟩) ∨
    (∃ o t e,
      (⟨r, (serveKeyStore (testKeyStoreDb enumerate) r db).1⟩ : Σ r : KeyStoreReq, r.Answer) =
        ⟨.setWtoken b u o t, .ok ()⟩ ∧
      (b ≠ [] ∧ u ≠ [] ∧ o ≠ [] ∧ t ≠ []) ∧ (u = o ∨ writeToken (db.entry b o) ≠ none) ∧
      db.entry b u = some e ∧ (serveKeyStore (testKeyStoreDb enumerate) r db).2.entry b u =
        some { e with wtoken := some (t, o) }) ∨
    (∃ o, (⟨r, (serveKeyStore (testKeyStoreDb enumerate) r db).1⟩ : Σ r : KeyStoreReq, r.Answer) =
        ⟨.delRtoken b u o, .ok ()⟩ ∧
      writeToken (db.entry b o) ≠ none ∧
      (serveKeyStore (testKeyStoreDb enumerate) r db).2.entry b u = none) ∨
    ∃ o e, (⟨r, (serveKeyStore (testKeyStoreDb enumerate) r db).1⟩ : Σ r : KeyStoreReq, r.Answer) =
        ⟨.delWtoken b u o, .ok ()⟩ ∧
      writeToken (db.entry b o) ≠ none ∧ db.entry b u = some e ∧
      (serveKeyStore (testKeyStoreDb enumerate) r db).2.entry b u =
        some { e with wtoken := none } := by
  -- a request that is accepted changes the entry of one user for one block
  cases r with
  | setRtoken b' u' o t =>
    simp only [serveKeyStore]
    rw [hmKeyStoreSetRtoken_eq]
    split_ifs with hne hown
    · exact Or.inl rfl
    · exact Or.inl rfl
    · simp only [KeyDb.entry_setEntry]
      split_ifs with hbu
      · obtain ⟨rfl, rfl⟩ := hbu
        simp only [not_or] at hne
        refine Or.inr (Or.inl ⟨o, t, rfl, hne, ?_, rfl⟩)
        exact or_iff_not_imp_left.mpr fun huo ho => hown ⟨huo, ho⟩
      · exact Or.inl rfl
  | setWtoken b' u' o t =>
    simp only [serveKeyStore]
    rw [hmKeyStoreSetWtoken_eq]
    split_ifs with hne hown
    · exact Or.inl rfl
    · exact Or.inl rfl
    · cases he : db.entry b' u' with
      | none => exact Or.inl rfl
      | some e =>
        simp only [KeyDb.entry_setEntry]
        split_ifs with hbu
        · obtain ⟨rfl, rfl⟩ := hbu
          simp only [not_or] at hne
          refine Or.inr (Or.inr (Or.inl ⟨o, t, e, rfl, hne, ?_, he, rfl⟩))
          exact or_iff_not_imp_left.mpr fun huo ho => hown ⟨huo, ho⟩
        · exact Or.inl rfl
  | getRtoken b' u' =>
    refine Or.inl ?_
    simp only [serveKeyStore]
    rw [hmKeyStoreGetRtoken_eq]
    split_ifs
    · rfl
    · cases db.entry b' u' <;> rfl
  | getWtoken b' u' =>
    refine Or.inl ?_
    simp only [serveKeyStore]
    rw [hmKeyStoreGetWtoken_eq]
    split_ifs
    · rfl
    · cases writeToken (db.entry b' u') <;> rfl
  | delRtoken b' u' o =>
    simp only [serveKeyStore]
    rw [hmKeyStoreDelRtoken_eq]
    split_ifs with hne hown
    · exact Or.inl rfl
    · exact Or.inl rfl
    · simp only [KeyDb.entry_setEntry]
      split_ifs with hbu
      · obtain ⟨rfl, rfl⟩ := hbu
        exact Or.inr (Or.inr (Or.inr (Or.inl ⟨o, rfl, (not_or.mp hown).1, rfl⟩)))
      · exact Or.inl rfl
  | delWtoken b' u' o =>
    simp only [serveKeyStore]
    rw [hmKeyStoreDelWtoken_eq]
    split_ifs with hne hown
    · exact Or.inl rfl
    · exact Or.inl rfl
    · cases he : db.entry b' u' with
      | none => exact Or.inl rfl
      | some e =>
        simp only [KeyDb.entry_setEntry]
        split_ifs with hbu
        · obtain ⟨rfl, rfl⟩ := hbu
          exact Or.inr (Or.inr (Or.inr (Or.inr ⟨o, e, rfl, hown, he, rfl⟩)))
        · exact Or.inl rfl
  | getIndexedRights b' i =>
    refine Or.inl ?_
    simp only [serveKeyStore, hmKeyStoreGetIndexedRights, testKeyStoreDb, dbGetIndexedRights]
    split_ifs
    · rfl
    · cases (enumerate (db b').keys)[i]? <;> rfl

/-- **What can become of an entry**: it is kept, or it is set or removed by an accepted
request for this block and this user. -/
theorem entry_cases (w : World) (r : Req) (b u : Bytes) :
    (E.handle w r).2.entry b u = w.entry b u ∨
    (∃ o t, (⟨r, (E.handle w r).1⟩ : Event Req.Answer) = ⟨.ks (.setRtoken b u o t), .ok ()⟩ ∧
      (b ≠ [] ∧ u ≠ [] ∧ o ≠ []) ∧ (u = o ∨ w.entry b o ≠ none) ∧
      (E.handle w r).2.entry b u = some ⟨t, o, writeToken (w.entry b u)⟩) ∨
    (∃ o t e, (⟨r, (E.handle w r).1⟩ : Event Req.Answer) = ⟨.ks (.setWtoken b u o t), .ok ()⟩ ∧
      (b ≠ [] ∧ u ≠ [] ∧ o ≠ []) ∧ (u = o ∨ writeToken (w.entry b o) ≠ none) ∧
      w.entry b u = some e ∧ (E.handle w r).2.entry b u = some { e with wtoken := some (t, o) }) ∨
    (∃ o, (⟨r, (E.handle w r).1⟩ : Event Req.Answer) = ⟨.ks (.delRtoken b u o), .ok ()⟩ ∧
      writeToken (w.entry b o) ≠ none ∧ (E.handle w r).2.entry b u = none) ∨
    ∃ o e, (⟨r, (E.handle w r).1⟩ : Event Req.Answer) = ⟨.ks (.delWtoken b u o), .ok ()⟩ ∧
      writeToken (w.entry b o) ≠ none ∧ w.entry b u = some e ∧
      (E.handle w r).2.entry b u = some { e with wtoken := none } := by
  match r with
  | .ds _ => exact Or.inl rfl
  | .getPubKeyById _ => exact Or.inl rfl
  | .themis _ => exact Or.inl rfl
  | .ks r =>
    -- the client sees what the server answered, under the name of the key store
    have hsend : ∀ {x y : Σ r : KeyStoreReq, r.Answer}, x = y →
        (⟨.ks x.1, x.2⟩ : Event Req.Answer) = ⟨.ks y.1, y.2⟩ := fun h => by rw [h]
    rcases entry_serveKeyStore_cases E.enumerate r w.keys b u with h |
      ⟨o, t, h, hne, hown, he⟩ | ⟨o, t, e, h, hne, hown, hold, he⟩ | ⟨o, h, hw, he⟩ |
      ⟨o, e, h, hw, hold, he⟩
    · exact Or.inl h
    · exact Or.inr (Or.inl ⟨o, t, hsend h, ⟨hne.1, hne.2.1, hne.2.2.1⟩, hown, he⟩)
    · exact Or.inr (Or.inr (Or.inl ⟨o, t, e, hsend h, ⟨hne.1, hne.2.1, hne.2.2.1⟩, hown, hold, he⟩))
    · exact Or.inr (Or.inr (Or.inr (Or.inl ⟨o, hsend h, hw, he⟩)))
    · exact Or.inr (Or.inr (Or.inr (Or.inr ⟨o, e, hsend h, hw, hold, he⟩)))

/-- **What can become of a stored block**: it is kept, or it is created where there was
none, or it is replaced or removed by an accepted request that names its mac. -/
theorem stored_cases (w : World) (r : Req) (b : Bytes) :
    (E.handle w r).2.stored b = w.stored b ∨
    (∃ blk mt mac,
      ((⟨r, (E.handle w r).1⟩ : Event Req.Answer) = ⟨.ds (.createBlock blk mt mac), .ok b⟩ ∨
        (⟨r, (E.handle w r).1⟩ : Event Req.Answer) =
          ⟨.ds (.createBlockWithId b blk mt mac), .ok ()⟩) ∧
      (b ≠ [] ∧ mt ≠ []) ∧ w.stored b = none ∧
      (E.handle w r).2.stored b = some ⟨blk, mt, mac⟩) ∨
    (∃ blk mt mac old s, (⟨r, (E.handle w r).1⟩ : Event Req.Answer) =
        ⟨.ds (.updateBlock b blk mt mac old), .ok ()⟩ ∧
      mt ≠ [] ∧ w.stored b = some s ∧ s.mac = old ∧
      (E.handle w r).2.stored b = some ⟨blk, mt, mac⟩) ∨
    ∃ old s, (⟨r, (E.handle w r).1⟩ : Event Req.Answer) = ⟨.ds (.deleteBlock b old), .ok ()⟩ ∧
      w.stored b = some s ∧ s.mac = old ∧ (E.handle w r).2.stored b = none := by
  -- a request that is accepted changes one block
  match r with
  | .ks _ => exact Or.inl rfl
  | .getPubKeyById _ => exact Or.inl rfl
  | .themis _ => exact Or.inl rfl
  | .ds (.createBlock blk mt mac) =>
    rw [handle_createBlock]
    split_ifs with hne
    · exact Or.inl rfl
    · simp only [stored_invent, stored_setStored]
      split_ifs with hb
      · subst hb
        simp only [not_or] at hne
        exact Or.inr (Or.inl ⟨blk, mt, mac, Or.inl rfl,
          ⟨E.ids.pick_ne_nil _ _, hne.2.1⟩, DataDb.stored_freshId, rfl⟩)
      · exact Or.inl rfl
  | .ds (.createBlockWithId id blk mt mac) =>
    rw [handle_createBlockWithId]
    split_ifs with hne
    · exact Or.inl rfl
    · cases hs : w.stored id with
      | some s => exact Or.inl rfl
      | none =>
        simp only [stored_setStored]
        split_ifs with hb
        · subst hb
          simp only [not_or] at hne
          exact Or.inr (Or.inl ⟨blk, mt, mac, Or.inr rfl, ⟨hne.2.2.2, hne.2.1⟩, hs, rfl⟩)
        · exact Or.inl rfl
  | .ds (.readBlock id) =>
    refine Or.inl ?_
    rw [handle_readBlock]
    split_ifs
    · rfl
    · cases w.stored id <;> rfl
  | .ds (.updateBlock id blk mt mac old) =>
    rw [handle_updateBlock]
    split_ifs with hne
    · exact Or.inl rfl
    · cases hs : w.stored id with
      | none => exact Or.inl rfl
      | some s =>
        by_cases hm : s.mac = old
        · simp only [if_pos hm, stored_setStored]
          split_ifs with hb
          · subst hb
            simp only [not_or] at hne
            exact Or.inr (Or.inr (Or.inl ⟨blk, mt, mac, old, s, rfl, hne.2.2.1, hs, hm, rfl⟩))
          · exact Or.inl rfl
        · exact Or.inl (by simp only [if_neg hm])
  | .ds (.deleteBlock id old) =>
    rw [handle_deleteBlock]
    split_ifs with hne
    · exact Or.inl rfl
    · cases hs : w.stored id with
      | none => exact Or.inl rfl
      | some s =>
        by_cases hm : s.mac = old
        · simp only [if_pos hm, stored_setStored]
          split_ifs with hb
          · subst hb
            exact Or.inr (Or.inr (Or.inr ⟨old, s, rfl, hs, hm, rfl⟩))
          · exact Or.inl rfl
        · exact Or.inl (by simp only [if_neg hm])

/-! ### When a request is accepted -/

theorem getRtoken_ok {b u : Bytes} {x : Bytes × Bytes}
    (h : (E.handle w (.ks (.getRtoken b u))).1 = .ok x) :
    ∃ e, w.entry b u = some e ∧ x = (e.rtoken, e.rtokenOwner) := by
  rw [handle_getRtoken] at h
  split_ifs at h
  cases he : w.entry b u with
  | none => rw [he] at h; cases h
  | some e => rw [he] at h; cases h; exact ⟨e, rfl, rfl⟩

theorem getWtoken_ok {b u : Bytes} {x : Bytes × Bytes}
    (h : (E.handle w (.ks (.getWtoken b u))).1 = .ok x) : writeToken (w.entry b u) = some x := by
  rw [handle_getWtoken] at h
  split_ifs at h
  cases he : writeToken (w.entry b u) with
  | none => rw [he] at h; cases h
  | some e => rw [he] at h; cases h; rfl

theorem delRtoken_ok {b u o : Bytes} {x : Unit}
    (h : (E.handle w (.ks (.delRtoken b u o))).1 = .ok x) :
    writeToken (w.entry b o) ≠ none ∧ w.entry b u ≠ none := by
  rw [handle_delRtoken] at h
  split_ifs at h with _ hn
  exact not_or.mp hn

theorem createBlock_ok {blk mt mac : Bytes} {id : Bytes}
    (h : (E.handle w (.ds (.createBlock blk mt mac))).1 = .ok id) :
    w.stored id = none ∧ id ≠ [] := by
  rw [handle_createBlock] at h
  split_ifs at h
  cases h
  exact ⟨DataDb.stored_freshId, E.ids.pick_ne_nil _ _⟩

theorem createBlockWithId_ok {id blk mt mac : Bytes} {x : Unit}
    (h : (E.handle w (.ds (.createBlockWithId id blk mt mac))).1 = .ok x) :
    w.stored id = none := by
  rw [handle_createBlockWithId] at h
  split_ifs at h
  cases hs : w.stored id with
  | none => rfl
  | some s => rw [hs] at h; cases h

theorem readBlock_ok {id : Bytes} {x : Bytes × Bytes}
    (h : (E.handle w (.ds (.readBlock id))).1 = .ok x) :
    ∃ s, w.stored id = some s ∧ x = (s.block, s.metadata) := by
  rw [handle_readBlock] at h
  split_ifs at h
  cases hs : w.stored id with
  | none => rw [hs] at h; cases h
  | some s => rw [hs] at h; cases h; exact ⟨s, rfl, rfl⟩

theorem updateBlock_ok {id blk mt mac old : Bytes} {x : Unit}
    (h : (E.handle w (.ds (.updateBlock id blk mt mac old))).1 = .ok x) :
    ∃ s, w.stored id = some s ∧ s.mac = old := by
  rw [handle_updateBlock] at h
  split_ifs at h
  cases hs : w.stored id with
  | none => rw [hs] at h; cases h
  | some s =>
    rw [hs] at h
    dsimp only at h
    split_ifs at h with hm
    exact ⟨s, rfl, hm⟩

theorem deleteBlock_ok {id old : Bytes} {x : Unit}
    (h : (E.handle w (.ds (.deleteBlock id old))).1 = .ok x) :
    ∃ s, w.stored id = some s ∧ s.mac = old := by
  rw [handle_deleteBlock] at h
  split_ifs at h
  cases hs : w.stored id with
  | none => rw [hs] at h; cases h
  | some s =>
    rw [hs] at h
    dsimp only at h
    split_ifs at h with hm
    exact ⟨s, rfl, hm⟩

theorem getPubKeyById_ok {id pk : Bytes}
    (h : (E.handle w (.getPubKeyById id)).1 = .ok pk) : E.credentials id = some pk := by
  have h' : hmCredentialStoreGetPubKeyById E.credentials id = .ok pk := h
  rw [hmCredentialStoreGetPubKeyById] at h'
  split_ifs at h'
  cases hc : E.credentials id with
  | none => rw [hc] at h'; cases h'
  | some key => rw [hc] at h'; cases h'; rfl

end Refinement

end Hermes

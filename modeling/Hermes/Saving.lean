import Hermes.Rekeying
import Hermes.Sequential

/-!
# Does a block object save against the version that is stored?

A block object keeps the mac of the version in the data store in `old_mac` while it has
another one in memory, and a save presents it to the data store; without an `old_mac` a save
creates the block. An object that has just been created has no version in the data store,
but its first update or rotation sets `old_mac` all the same: the next save then asks for the
update of a block that does not exist, and fails, and so does every later one
(`Hermes.Env.not_savesAgainstStored`).

A block can be loaded into any object of its user, one that has been changed before too. The
loading sets everything anew but `old_mac`, so that a later save presents the mac of the version
that was there before: it succeeds only if this version is the stored one again
(`Hermes.Env.PresentsStored`).

`Hermes.Env.saves_current_iff` says for which sequences of calls every save succeeds: those
in which the first save of a new object comes before its changes, every other save comes
when there is an `old_mac`, the one that was kept or that of a change, and the meta is never
empty (`Hermes.SavesInOrder`); if the mac that is presented is the stored one.
-/

namespace Hermes

open Interleave

/-! ### Calls on an object -/

/-- A call of a method of a block object. A save is given both stores and no rights list. -/
inductive BlockCall where
  | update (data metadata : Bytes)
  | rotate (rights : List RightsListNode)
  | save
  deriving DecidableEq

/-- The program of a call: whether the method returned its object, and the object. -/
def BlockCall.prog (bl : Block) : BlockCall → Client (Bool × Block)
  | .update data metadata => do
    match ← midHermesLlBlockUpdate bl data metadata with
    | some bl => return (true, bl)
    | none => return (false, bl)
  | .rotate rights => do
    let (ok, bl, _) ← midHermesLlBlockRotate bl rights
    return (ok, bl)
  | .save => midHermesLlBlockSave bl [] true true

/-- The data store holds the current version of an object, under its id. -/
def HoldsCurrent (w : World) (bl : Block) : Prop :=
  ∃ b blk mt mac, bl.id = some b ∧ bl.block = some blk ∧ bl.metadata = some mt ∧
    bl.mac = some mac ∧ w.stored b = some ⟨blk, mt, mac⟩

/-- Every save is the first one of an object that is not stored, or comes after an update or
a rotation. -/
def SavesDue : List BlockCall → (stored touched : Bool) → Prop
  | [], _, _ => True
  | .update _ _ :: calls, stored, _ => SavesDue calls stored true
  | .rotate _ :: calls, stored, _ => SavesDue calls stored true
  | .save :: calls, stored, touched => (stored = true → touched = true) ∧ SavesDue calls true false

/-- **The saves come in order**: the first one of an object that is not stored comes before it
is changed, every other one comes after a change, and the meta is not empty then. An update
changes the object if its data is not empty. An object counts as changed while it has an
`old_mac`. -/
def SavesInOrder : List BlockCall → (stored changed hasMeta : Bool) → Prop
  | [], _, _, _ => True
  | .update data metadata :: calls, stored, changed, hasMeta =>
    if data = [] then SavesInOrder calls stored changed hasMeta
    else SavesInOrder calls stored true (metadata ≠ [])
  | .rotate _ :: calls, stored, _, hasMeta => SavesInOrder calls stored true hasMeta
  | .save :: calls, stored, changed, hasMeta =>
    stored = changed ∧ hasMeta = true ∧ SavesInOrder calls true false hasMeta

namespace Env

variable (E : Env)

/-- **Every save succeeds and leaves the current version in the data store.** Before each call
the stores may have changed, but not what is stored under the id of the object. -/
def SavesCurrent : List BlockCall → Block → World → Prop
  | [], _, _ => True
  | c :: calls, bl, w => ∀ w' : World, (∀ b, bl.id = some b → w'.stored b = w.stored b) →
    ∃ ok bl', ((c.prog bl).run E.handle w').1 = .ok (ok, bl') ∧
      (c = .save → ok = true ∧ HoldsCurrent ((c.prog bl).run E.handle w').2 bl') ∧
      SavesCurrent calls bl' ((c.prog bl).run E.handle w').2

/-- A block object as a user gets one, and whether it is stored: a new one, with no tokens
given and an id that is not in use, if any; or one that a block was loaded into, with two
tokens of the user itself, whatever the object was before. -/
inductive Obtained (user : User) : Bool → Block → World → Prop
  | created {id : Option Bytes} {data metadata : Bytes} {w₀ w : World} {bl : Block}
      (hid : ∀ b, id = some b → b ≠ [] ∧ w₀.stored b = none)
      (hrun : (midHermesLlBlockCreate user id data metadata none none).run E.handle w₀ =
        (.ok (some bl), w)) : Obtained user false bl w
  | loaded {b : Bytes} {w₀ w : World} {bl₀ bl : Block} {rt wt : Token} (hw : E.WellFormed w₀)
      (hu : bl₀.user = user) (hrun : (midHermesLlBlockLoad bl₀ b).run E.handle w₀ =
        (.ok (some bl), w)) (hrt : bl.rtoken = some rt) (hwt : bl.wtoken = some wt)
      (hrto : rt.owner.id = user.id) (hwto : wt.owner.id = user.id) : Obtained user true bl w

/-- **The mac that a save of a loaded object presents is the stored one.** It is the `old_mac` if
the object has kept one, and else the one the loading has computed, which is right if the tokens
of the user fit the stored block. -/
def PresentsStored (user : User) (bl : Block) (w : World) : Prop :=
  ∀ b, bl.id = some b → match bl.oldMac with
    | none => E.Fits (w.slice b) user.id
    | some old => ∃ s, w.stored b = some s ∧ s.mac = old

/-- **A block object always saves against the stored version**, when a save is due. -/
def SavesAgainstStored : Prop :=
  ∀ user stored bl w calls, E.Registered user → E.Obtained user stored bl w →
    SavesDue calls stored false → E.SavesCurrent calls bl w

/-- A token of the user, made by itself. -/
def SelfMade (user : User) (tok : Token) : Prop :=
  tok.token ≠ [] ∧ ∃ k, E.HoldsKey user (tok.token, user.id) k tok

/-- An object with all its contents, and with tokens that the user has made itself. -/
structure Filled (user : User) (bl : Block) : Prop where
  user_eq : bl.user = user
  block : ∃ blk, bl.block = some blk ∧ blk ≠ []
  data : ∃ d, bl.data = some d ∧ d ≠ []
  metadata : ∃ mt, bl.metadata = some mt
  mac : ∃ mac, bl.mac = some mac ∧ mac ≠ []
  rtoken : ∃ tok, bl.rtoken = some tok ∧ E.SelfMade user tok
  wtoken : ∃ tok, bl.wtoken = some tok ∧ E.SelfMade user tok

/-- What an object knows of the data store: whether it is stored, whether its mac or else its
`old_mac` is the stored one. -/
structure Tracks (user : User) (bl : Block) (w : World) (stored changed hasMeta : Bool)
    (fits : Prop) : Prop where
  filled : E.Filled user bl
  changed : bl.oldMac.isSome = changed
  hasMeta : hasMeta = true ↔ bl.metadata ≠ some []
  absent : stored = false → ∀ b, bl.id = some b → b ≠ [] ∧ w.stored b = none
  present : stored = true → ∃ b s, bl.id = some b ∧ b ≠ [] ∧ w.stored b = some s ∧
    s.mac ≠ [] ∧ (bl.oldMac.or bl.mac = some s.mac ↔ fits)

variable {E} {user : User} {bl : Block} {w : World} {b : Bytes} {v : Slice}

/-! ### Changing the object -/

/-- Without data, there is no update. -/
theorem computes_update_nil (hreg : E.Registered user) (hbl : E.Filled user bl) {metadata : Bytes} :
    E.Computes b (midHermesLlBlockUpdate bl [] metadata) v none := by
  obtain ⟨rt, hrt, -, k, hk⟩ := hbl.rtoken
  obtain ⟨wt, hwt, -, kw, hkw⟩ := hbl.wtoken
  simp only [midHermesLlBlockUpdate, hrt, hwt]
  refine (computes_getData hreg hk).trans ((computes_getData hreg hkw).trans ?_)
  have hnone : E.Computes b (hmEncrypt k [] metadata) v (.error .invalidParameter) := by
    rw [hmEncrypt, if_pos (Or.inr rfl)]
    exact computes_ret _
  exact hnone.trans (computes_ret _)

theorem selfMade_newToken (hreg : E.Registered user) {sk : Bytes} (hsk : user.sk = some sk)
    {k : Bytes} (hk : k ≠ []) : E.SelfMade user (E.newToken user sk user k) :=
  ⟨newToken_ne _ _, k, holdsKey_newToken hreg hsk hk⟩

/-- **A rotation changes the object.** -/
theorem does_rotate (hreg : E.Registered user) (hbl : E.Filled user bl)
    (rights : List RightsListNode) :
    E.Does b ((BlockCall.rotate rights).prog bl) v [] fun x v' _ => v' = v ∧
      ∃ ok blk mac rt wt, x = .ok (ok, { bl with
        rtoken := some rt, wtoken := some wt, block := some blk, oldMac := bl.oldMac.or bl.mac,
        mac := some mac }) ∧ blk ≠ [] ∧ mac ≠ [] ∧ E.SelfMade user rt ∧ E.SelfMade user wt := by
  obtain ⟨sk, -, hsk, -⟩ := hreg.sk_eq
  obtain ⟨rt, hrt, -⟩ := hbl.rtoken
  obtain ⟨wt, hwt, -⟩ := hbl.wtoken
  obtain ⟨d, hd, hdne⟩ := hbl.data
  obtain ⟨mt, hmt⟩ := hbl.metadata
  simp only [BlockCall.prog, midHermesLlBlockRotate, hrt, hwt, Prog.bind_assoc]
  refine does_rotateKeys hreg hsk hbl.user_eq hd hmt hdne tokensFrom_nil fun k kw h hk hkw _ => ?_
  simp only [Prog.bind_assoc]
  refine (computes_rotateRights hreg hsk hk hkw rights).does fun l _ => ?_
  exact ⟨rfl, true, _, _, _, _, rfl, E.themis.encryptSeal_ne_nil _ _ _, E.themis.hmac_ne_nil _ _,
    selfMade_newToken hreg hsk hk, selfMade_newToken hreg hsk hkw⟩

/-- What only reads, at every block, leaves the stores as they are. -/
theorem run_of_computes {α : Type} {p : Client α} {a : α} (h : ∀ b, E.Computes b p (w.slice b) a) :
    (p.run E.handle w).1 = .ok a ∧ ∀ b, (p.run E.handle w).2.stored b = w.stored b := by
  refine ⟨(h [] []).run.1, fun b => ?_⟩
  exact congrArg Slice.stored (h b []).run.2.1

/-! ### Saving the object -/

/-- The tokens of the object are always saved. -/
theorem does_saveTokens_own {α : Type} (hbl : E.Filled user bl) (hid : bl.id = some b) (hb : b ≠ [])
    {h : Hist} {f : Bool → Client α} {Post : Except Stop α → Slice → Hist → Prop}
    (hf : ∀ v' h', v'.stored = v.stored → E.Does b (f true) v' h' Post) :
    E.Does b (midHermesLlBlockSaveTokens bl [] >>= f) v h Post := by
  obtain ⟨rt, hrt, hrtne, k, hk⟩ := hbl.rtoken
  obtain ⟨wt, hwt, hwtne, kw, hkw⟩ := hbl.wtoken
  have hrto : rt.owner.id = user.id := hk.owner_eq
  have hwto : wt.owner.id = user.id := hkw.owner_eq
  simp only [midHermesLlBlockSaveTokens, midHermesLlRtokenSave, midHermesLlWtokenSave,
    hid, hrt, hwt, Option.getD_some, Prog.bind_assoc, hk.user_eq, hkw.user_eq, hrto, hwto]
  refine does_setRtoken hb user.id_ne_nil user.id_ne_nil hrtne (fun _ => ?_)
    fun hne => absurd rfl hne
  dsimp only
  rw [Prog.bind_assoc]
  refine does_setWtoken hb user.id_ne_nil user.id_ne_nil hwtne (fun e _ _ => ?_) fun hno => ?_
  · exact hf _ _ (by simp)
  · -- the entry has just been set
    rw [Slice.entry_setEntry, if_pos rfl] at hno
    rcases hno with ⟨hne, -⟩ | hno
    · exact absurd rfl hne
    · cases hno

/-- **A save that the data store accepts succeeds.** -/
theorem run_save_accepted {bl' : Block} {w₁ : World} (hbl : E.Filled user bl')
    (hid : bl'.id = some b) (hb : b ≠ [])
    (hdata : (midHermesLlBlockSaveData bl).run E.handle w = (.ok (true, bl'), w₁)) :
    ((BlockCall.save.prog bl).run E.handle w).1 = .ok (true, bl') ∧
      ((BlockCall.save.prog bl).run E.handle w).2.stored b = w₁.stored b := by
  have htokens : E.Does b (midHermesLlBlockSaveTokens bl' [] >>= fun ok => .ret (ok, bl'))
      (w₁.slice b) [] fun x v' _ => x = .ok (true, bl') ∧ v'.stored = w₁.stored b :=
    does_saveTokens_own hbl hid hb fun v' h' hv' => ⟨rfl, hv'⟩
  have hrun : (BlockCall.save.prog bl).run E.handle w =
      (midHermesLlBlockSaveTokens bl' [] >>= fun ok => .ret (ok, bl')).run E.handle w₁ :=
    Prog.run_bind_of_ok hdata
  rw [hrun]
  exact htokens.run

/-- A save that the data store refuses fails. -/
theorem run_save_refused {bl' : Block} {w₁ : World}
    (hdata : (midHermesLlBlockSaveData bl).run E.handle w = (.ok (false, bl'), w₁)) :
    (BlockCall.save.prog bl).run E.handle w = (.ok (false, bl'), w₁) :=
  Prog.run_bind_of_ok hdata

/-- What the data store part of a save does when the data store accepts it. -/
def SaveAccepted (E : Env) (bl : Block) (w : World) : Prop :=
  ∃ b blk mt mac w₁, b ≠ [] ∧ bl.block = some blk ∧ bl.metadata = some mt ∧ bl.mac = some mac ∧
    (midHermesLlBlockSaveData bl).run E.handle w =
      (.ok (true, { bl with id := some b, oldMac := none }), w₁) ∧
    w₁.stored b = some ⟨blk, mt, mac⟩

/-- **Without an `old_mac`**, the data store accepts an object that it does not have. -/
theorem saveAccepted_create (hbl : E.Filled user bl) (hmeta : bl.metadata ≠ some [])
    (hold : bl.oldMac = none) (habsent : ∀ b, bl.id = some b → b ≠ [] ∧ w.stored b = none) :
    SaveAccepted E bl w := by
  obtain ⟨blk, hblk, hblkne⟩ := hbl.block
  obtain ⟨mt, hmt⟩ := hbl.metadata
  obtain ⟨mac, hmac, hmacne⟩ := hbl.mac
  have hmtne : mt ≠ [] := fun h0 => hmeta (by rw [hmt, h0])
  obtain ⟨u, id, blk', d, mt', old, mac', rt, wt⟩ := bl
  cases hblk
  cases hmt
  cases hmac
  cases hold
  cases id with
  | none =>
    have hne : ¬(blk = [] ∨ mt = [] ∨ mac = []) := by tauto
    refine ⟨w.data.freshId E.ids, blk, mt, mac,
      (w.setStored (w.data.freshId E.ids) (some ⟨blk, mt, mac⟩)).invent, E.ids.pick_ne_nil _ _, rfl,
      rfl, rfl, ?_, ?_⟩
    · simp only [midHermesLlBlockSaveData, hermesDataStoreSetBlock, if_neg hne, Prog.req_bind,
        Prog.run_req, handle_createBlock]
      rfl
    · rw [stored_invent, stored_setStored, if_pos rfl]
  | some b =>
    obtain ⟨hb, hnone⟩ := habsent b rfl
    have hne : ¬(blk = [] ∨ mt = [] ∨ mac = []) := by tauto
    have hne' : ¬(blk = [] ∨ mt = [] ∨ mac = [] ∨ b = []) := by tauto
    refine ⟨b, blk, mt, mac, w.setStored b (some ⟨blk, mt, mac⟩), hb, rfl, rfl, rfl, ?_, ?_⟩
    · simp only [midHermesLlBlockSaveData, hermesDataStoreSetBlock, if_neg hne, Prog.req_bind,
        Prog.run_req, handle_createBlockWithId, if_neg hne', hnone]
      rfl
    · rw [stored_setStored, if_pos rfl]

/-- **With an `old_mac`**, the data store accepts an object whose stored version has this mac. -/
theorem saveAccepted_update (hbl : E.Filled user bl) (hmeta : bl.metadata ≠ some [])
    {s : StoredBlock} (hold : bl.oldMac = some s.mac) (holdne : s.mac ≠ [])
    (hid : bl.id = some b) (hb : b ≠ []) (hs : w.stored b = some s) : SaveAccepted E bl w := by
  obtain ⟨blk, hblk, hblkne⟩ := hbl.block
  obtain ⟨mt, hmt⟩ := hbl.metadata
  obtain ⟨mac, hmac, hmacne⟩ := hbl.mac
  have hmtne : mt ≠ [] := fun h0 => hmeta (by rw [hmt, h0])
  obtain ⟨u, id, blk', d, mt', old, mac', rt, wt⟩ := bl
  cases hblk
  cases hmt
  cases hmac
  cases hold
  cases hid
  have hne : ¬(blk = [] ∨ mt = [] ∨ mac = []) := by tauto
  have hne' : ¬(b = [] ∨ blk = [] ∨ mt = [] ∨ mac = [] ∨ s.mac = []) := by tauto
  refine ⟨b, blk, mt, mac, w.setStored b (some ⟨blk, mt, mac⟩), hb, rfl, rfl, rfl, ?_, ?_⟩
  · simp only [midHermesLlBlockSaveData, hermesDataStoreSetBlock, if_neg hne, Prog.req_bind,
      Prog.run_req, Option.getD_some, handle_updateBlock, if_neg hne', hs, if_true]
    rfl
  · rw [stored_setStored, if_pos rfl]

/-- **When the data store refuses an object**: its meta is empty, or there is no `old_mac` and
the data store has the object, or the version it has, if any, has another mac. -/
theorem saveData_refused (hbl : E.Filled user bl)
    (hno : bl.metadata = some [] ∨
      (bl.oldMac = none ∧ ∃ b s, bl.id = some b ∧ w.stored b = some s) ∨
      ∃ old, bl.oldMac = some old ∧ ∀ b s, bl.id = some b → w.stored b = some s → s.mac ≠ old) :
    ∃ w₁, (midHermesLlBlockSaveData bl).run E.handle w = (.ok (false, bl), w₁) := by
  obtain ⟨blk, hblk, hblkne⟩ := hbl.block
  obtain ⟨mt, hmt⟩ := hbl.metadata
  obtain ⟨mac, hmac, hmacne⟩ := hbl.mac
  obtain ⟨u, id, blk', d, mt', old, mac', rt, wt⟩ := bl
  cases hblk
  cases hmt
  cases hmac
  -- an empty meta is refused before anything is sent
  by_cases hmtne : mt = []
  · refine ⟨w, ?_⟩
    simp only [midHermesLlBlockSaveData, hermesDataStoreSetBlock, if_pos (Or.inr (Or.inl hmtne))]
    rfl
  have hne : ¬(blk = [] ∨ mt = [] ∨ mac = []) := by tauto
  -- a creation under an id that is taken, or an update by a mac that is not stored
  rcases hno with hno | ⟨hold, b, s, hid, hs⟩ | ⟨old, hold, hno⟩
  · exact absurd (Option.some.inj hno) hmtne
  · cases hold
    cases hid
    refine ⟨w, ?_⟩
    simp only [midHermesLlBlockSaveData, hermesDataStoreSetBlock, if_neg hne, Prog.req_bind,
      Prog.run_req, handle_createBlockWithId, hs]
    split_ifs <;> rfl
  · cases hold
    refine ⟨w, ?_⟩
    simp only [midHermesLlBlockSaveData, hermesDataStoreSetBlock, if_neg hne, Prog.req_bind,
      Prog.run_req, handle_updateBlock]
    cases id with
    | none =>
      rw [Option.getD_none, if_pos (Or.inl rfl)]
      rfl
    | some b =>
      rw [Option.getD_some]
      cases hs : w.stored b with
      | none => split_ifs <;> rfl
      | some s =>
        simp only [if_neg (hno b s rfl hs)]
        split_ifs <;> rfl

/-! ### Sequences of calls -/

/-- The tracking does not depend on anything but the block of the object. -/
theorem Tracks.elsewhere {w' : World} {stored changed hasMeta : Bool} {fits : Prop}
    (h : E.Tracks user bl w stored changed hasMeta fits)
    (hw : ∀ b, bl.id = some b → w'.stored b = w.stored b) :
    E.Tracks user bl w' stored changed hasMeta fits := by
  refine ⟨h.filled, h.changed, h.hasMeta, fun hs b hid => ?_, fun hs => ?_⟩
  · rw [hw b hid]
    exact h.absent hs b hid
  · obtain ⟨b, s, hid, hb, hstored, hmac⟩ := h.present hs
    exact ⟨b, s, hid, hb, (hw b hid).trans hstored, hmac⟩

/-- A new version of the object in memory: the mac that was its own, or else its `old_mac`, is
now its `old_mac`. -/
theorem Tracks.change {bl' : Block} {w' : World} {stored changed hasMeta hasMeta' : Bool}
    {fits : Prop} (h : E.Tracks user bl w stored changed hasMeta fits) (hbl : E.Filled user bl')
    (hid : bl'.id = bl.id) (hold : bl'.oldMac = bl.oldMac.or bl.mac)
    (hmeta : hasMeta' = true ↔ bl'.metadata ≠ some []) (hw : ∀ b, w'.stored b = w.stored b) :
    E.Tracks user bl' w' stored true hasMeta' fits := by
  obtain ⟨mac, hmac, -⟩ := h.filled.mac
  obtain ⟨old, hor⟩ : ∃ old, bl.oldMac.or bl.mac = some old := by
    rw [hmac]
    cases bl.oldMac <;> exact ⟨_, rfl⟩
  refine ⟨hbl, by rw [hold, hor]; rfl, hmeta, fun hs b hb => ?_, fun hs => ?_⟩
  · rw [hw]
    exact h.absent hs b (hid ▸ hb)
  · obtain ⟨b, s, hb, hbne, hstored, hmacne, hfits⟩ := h.present hs
    refine ⟨b, s, hid.trans hb, hbne, (hw b).trans hstored, hmacne, ?_⟩
    rw [← hfits, hold, hor]
    rfl

/-- **The step lemma for an update.** -/
theorem Tracks.update (hreg : E.Registered user) {stored changed hasMeta : Bool} {fits : Prop}
    (h : E.Tracks user bl w stored changed hasMeta fits) (data metadata : Bytes) :
    ∃ ok bl', (((BlockCall.update data metadata).prog bl).run E.handle w).1 = .ok (ok, bl') ∧
      E.Tracks user bl' (((BlockCall.update data metadata).prog bl).run E.handle w).2 stored
        (if data = [] then changed else true)
        (if data = [] then hasMeta else decide (metadata ≠ [])) fits := by
  by_cases hdata : data = []
  · subst hdata
    have hrun : ∀ b, E.Computes b ((BlockCall.update [] metadata).prog bl)
        (w.slice b) (false, bl) :=
      fun b => (computes_update_nil hreg h.filled).trans (computes_ret _)
    obtain ⟨hret, hsame⟩ := run_of_computes hrun
    exact ⟨false, bl, hret, by simpa using h.elsewhere fun b _ => hsame b⟩
  · obtain ⟨rt, hrt, -, k, hk⟩ := h.filled.rtoken
    obtain ⟨wt, hwt, -, kw, hkw⟩ := h.filled.wtoken
    obtain ⟨hret, hsame⟩ := run_of_computes (w := w) (p := (BlockCall.update data metadata).prog bl)
      fun b => (computes_update hreg hrt hwt hk hkw hdata metadata).trans (computes_ret _)
    refine ⟨true, _, hret, ?_⟩
    rw [if_neg hdata, if_neg hdata]
    refine h.change ?_ rfl rfl (by simp) hsame
    exact { h.filled with
      block := ⟨_, rfl, E.themis.encryptSeal_ne_nil _ _ _⟩
      data := ⟨data, rfl, hdata⟩
      metadata := ⟨metadata, rfl⟩
      mac := ⟨_, rfl, E.themis.hmac_ne_nil _ _⟩ }

/-- **The step lemma for a rotation.** -/
theorem Tracks.rotate (hreg : E.Registered user) {stored changed hasMeta : Bool} {fits : Prop}
    (h : E.Tracks user bl w stored changed hasMeta fits) (rights : List RightsListNode) :
    ∃ ok bl', (((BlockCall.rotate rights).prog bl).run E.handle w).1 = .ok (ok, bl') ∧
      E.Tracks user bl' (((BlockCall.rotate rights).prog bl).run E.handle w).2 stored true hasMeta
        fits := by
  have hrun : ∀ b, E.Does b _ (w.slice b) [] _ := fun b => does_rotate hreg h.filled rights
  obtain ⟨-, ok, blk, mac, rt, wt, hret, hblk, hmac, hrt, hwt⟩ := (hrun []).run
  refine ⟨ok, _, hret, h.change ?_ rfl rfl h.hasMeta fun b => congrArg Slice.stored (hrun b).run.1⟩
  exact { h.filled with
    block := ⟨blk, rfl, hblk⟩
    mac := ⟨mac, rfl, hmac⟩
    rtoken := ⟨rt, rfl, hrt⟩
    wtoken := ⟨wt, rfl, hwt⟩ }

/-- **The step lemma for a save** that comes in order: it succeeds, and the object is what is
stored. -/
theorem Tracks.save {stored changed hasMeta : Bool} {fits : Prop}
    (h : E.Tracks user bl w stored changed hasMeta fits) (horder : stored = changed)
    (hmeta : hasMeta = true) (hfits : stored = true → fits) :
    ∃ bl', ((BlockCall.save.prog bl).run E.handle w).1 = .ok (true, bl') ∧
      HoldsCurrent ((BlockCall.save.prog bl).run E.handle w).2 bl' ∧
      E.Tracks user bl' ((BlockCall.save.prog bl).run E.handle w).2 true false hasMeta True := by
  have hmeta' := h.hasMeta.mp hmeta
  obtain ⟨b, blk, mt, mac, w₁, hb, hblk, hmt, hmac, hdata, hstored⟩ : SaveAccepted E bl w := by
    subst horder
    cases stored with
    | false =>
      have hold : bl.oldMac = none :=
        Option.isSome_eq_false_iff.mp h.changed |> Option.isNone_iff_eq_none.mp
      exact saveAccepted_create h.filled hmeta' hold (h.absent rfl)
    | true =>
      obtain ⟨b, s, hid, hb, hs, hne, hmac⟩ := h.present rfl
      obtain ⟨old, hold⟩ := Option.isSome_iff_exists.mp h.changed
      have heq : bl.oldMac = some s.mac := by
        have hor := hmac.mpr (hfits rfl)
        rwa [hold, Option.some_or, ← hold] at hor
      exact saveAccepted_update h.filled hmeta' heq hne hid hb hs
  have hfilled : E.Filled user { bl with id := some b, oldMac := none } := { h.filled with }
  obtain ⟨mac', hmac', hmacne⟩ := h.filled.mac
  cases hmac.symm.trans hmac'
  obtain ⟨hret, hsame⟩ := run_save_accepted hfilled rfl hb hdata
  refine ⟨_, hret, ⟨b, blk, mt, mac, rfl, hblk, hmt, hmac, hsame.trans hstored⟩, hfilled, rfl,
    h.hasMeta, by simp, fun _ => ⟨b, _, rfl, hb, hsame.trans hstored, hmacne, ?_⟩⟩
  simp [hmac]

/-- **A save that does not come in order fails.** -/
theorem Tracks.save_fails {stored changed hasMeta : Bool} {fits : Prop}
    (h : E.Tracks user bl w stored changed hasMeta fits)
    (hno : ¬(stored = changed ∧ hasMeta = true ∧ (stored = true → fits))) :
    ((BlockCall.save.prog bl).run E.handle w).1 = .ok (false, bl) := by
  have hrefused : ∃ w₁, (midHermesLlBlockSaveData bl).run E.handle w = (.ok (false, bl), w₁) := by
    refine saveData_refused h.filled ?_
    by_cases hmeta : hasMeta = true
    · refine Or.inr ?_
      cases hold : bl.oldMac with
      | none =>
        -- nothing has changed, so the object is in the data store
        have hchanged : changed = false := by rw [← h.changed, hold]; rfl
        have hstored : stored = true := by
          by_contra hs
          rw [Bool.not_eq_true] at hs
          exact hno ⟨hs.trans hchanged.symm, hmeta, by simp [hs]⟩
        obtain ⟨b, s, hid, -, hs, -, -⟩ := h.present hstored
        exact Or.inl ⟨rfl, b, s, hid, hs⟩
      | some old =>
        have hchanged : changed = true := by rw [← h.changed, hold]; rfl
        refine Or.inr ⟨old, rfl, fun b s hid hs hmac => ?_⟩
        cases hst : stored with
        | false =>
          have habsent := (h.absent hst b hid).2
          rw [hs] at habsent
          cases habsent
        | true =>
          obtain ⟨b', s', hid', -, hs', -, hfits⟩ := h.present hst
          cases hid.symm.trans hid'
          cases hs.symm.trans hs'
          rw [hold, Option.some_or, hmac] at hfits
          exact hno ⟨hst.trans hchanged.symm, hmeta, fun _ => hfits.mp rfl⟩
    · exact Or.inl (not_not.mp fun h' => hmeta (h.hasMeta.mpr h'))
  obtain ⟨w₁, hdata⟩ := hrefused
  rw [run_save_refused hdata]

/-- **The run lemma**: every save succeeds exactly if they come in order. -/
theorem Tracks.savesCurrent_iff (hreg : E.Registered user) {calls : List BlockCall}
    {stored changed hasMeta : Bool} {fits : Prop}
    (h : E.Tracks user bl w stored changed hasMeta fits) :
    E.SavesCurrent calls bl w ↔ SavesInOrder calls stored changed hasMeta ∧
      (stored = true → BlockCall.save ∈ calls → fits) := by
  induction calls generalizing bl w stored changed hasMeta fits with
  | nil => simp [SavesCurrent, SavesInOrder]
  | cons c calls ih =>
    -- a call that is not a save leaves an object that tracks the data store
    have hother : ∀ {changed' hasMeta' : Bool}, c ≠ .save →
        (∀ w', (∀ b, bl.id = some b → w'.stored b = w.stored b) →
          ∃ ok bl', ((c.prog bl).run E.handle w').1 = .ok (ok, bl') ∧
            E.Tracks user bl' ((c.prog bl).run E.handle w').2 stored changed' hasMeta' fits) →
        (E.SavesCurrent (c :: calls) bl w ↔ SavesInOrder calls stored changed' hasMeta' ∧
          (stored = true → BlockCall.save ∈ c :: calls → fits)) := by
      intro changed' hasMeta' hc hstep
      have hmem : BlockCall.save ∈ c :: calls ↔ BlockCall.save ∈ calls := by
        simp [Ne.symm hc]
      rw [hmem]
      constructor
      · intro hs
        obtain ⟨ok, bl', hret, -, hrest⟩ := hs w fun _ _ => rfl
        obtain ⟨ok', bl'', hret', htracks⟩ := hstep w fun _ _ => rfl
        cases hret.symm.trans hret'
        exact (ih htracks).mp hrest
      · intro horder w' hw'
        obtain ⟨ok, bl', hret, htracks⟩ := hstep w' hw'
        exact ⟨ok, bl', hret, fun h0 => absurd h0 hc, (ih htracks).mpr horder⟩
    cases c with
    | update data metadata =>
      rw [hother (by simp) fun w' hw' => (h.elsewhere hw').update hreg data metadata]
      simp only [SavesInOrder]
      split_ifs <;> rfl
    | rotate rights =>
      exact hother (by simp) fun w' hw' => (h.elsewhere hw').rotate hreg rights
    | save =>
      constructor
      · intro hs
        obtain ⟨ok, bl', hret, hsaved, hrest⟩ := hs w fun _ _ => rfl
        obtain ⟨rfl, -⟩ := hsaved rfl
        by_cases hok : stored = changed ∧ hasMeta = true ∧ (stored = true → fits)
        · obtain ⟨horder, hmeta, hfits⟩ := hok
          obtain ⟨bl'', hret', -, htracks⟩ := h.save horder hmeta hfits
          cases hret.symm.trans hret'
          exact ⟨⟨horder, hmeta, ((ih htracks).mp hrest).1⟩, fun hst _ => hfits hst⟩
        · cases hret.symm.trans (h.save_fails hok)
      · rintro ⟨⟨horder, hmeta, hrest⟩, hfits⟩ w' hw'
        obtain ⟨bl', hret, hholds, htracks⟩ :=
          (h.elsewhere hw').save horder hmeta fun hst => hfits hst List.mem_cons_self
        exact ⟨true, bl', hret, fun _ => ⟨rfl, hholds⟩,
          (ih htracks).mpr ⟨hrest, fun _ _ => trivial⟩⟩

/-! ### Where objects come from -/

/-- **What a creation without tokens makes**, if anything. -/
theorem does_blockCreate (hreg : E.Registered user) (id : Option Bytes) (data metadata : Bytes) :
    E.Does b (midHermesLlBlockCreate user id data metadata none none) v [] fun x v' _ => v' = v ∧
      ∀ bl, x = .ok (some bl) → E.Filled user bl ∧ bl.id = id ∧ bl.oldMac = none ∧
        bl.metadata = some metadata := by
  obtain ⟨sk, -, hsk, -⟩ := hreg.sk_eq
  simp only [midHermesLlBlockCreate, midHermesLlBlockInit, midHermesLlBlockInitTokens,
    midHermesLlBlockCreateEmpty, Prog.bind_assoc]
  refine does_tokenGenerate hreg hsk tokensFrom_nil fun k h₁ hk hh₁ => ?_
  refine does_tokenGenerate hreg hsk hh₁ fun kw h₂ hkw _ => ?_
  have hrt := computes_getData (b := b) (v := v) hreg (holdsKey_newToken hreg hsk hk)
  have hwt := computes_getData (b := b) (v := v) hreg (holdsKey_newToken hreg hsk hkw)
  simp only [Option.isNone_some, Bool.or_self, Bool.false_eq_true, if_false, Prog.pure_eq,
    Prog.ret_bind, midHermesLlBlockInitData, Option.none_or, midHermesLlTokenGetDataOf,
    Option.isSome_none, Prog.bind_assoc]
  refine hrt.does fun l₁ _ => ?_
  simp only [Prog.bind_assoc]
  -- empty data cannot be encrypted
  by_cases hdata : data = []
  · have hnone : E.Computes b (hmEncrypt k data metadata) v (.error .invalidParameter) := by
      rw [hmEncrypt, if_pos (Or.inr hdata)]
      exact computes_ret _
    exact hnone.does fun l₂ _ => ⟨rfl, fun bl hbl => by cases hbl⟩
  · refine (computes_encrypt hk hdata).does fun l₂ _ => ?_
    simp only [Prog.ret_bind, midHermesLlBlockInitMac, Option.isSome_none, Option.isSome_some,
      Bool.or_true, if_true, Option.none_or, midHermesLlTokenGetDataOf, Bool.false_eq_true,
      if_false, Prog.bind_assoc]
    refine hwt.does fun l₃ _ => ?_
    simp only [Prog.bind_assoc]
    refine (computes_macCreate hkw hdata).does fun l₄ _ => ⟨rfl, fun bl hbl => ?_⟩
    cases hbl
    exact ⟨{ user_eq := rfl
             block := ⟨_, rfl, E.themis.encryptSeal_ne_nil _ _ _⟩
             data := ⟨data, rfl, hdata⟩
             metadata := ⟨metadata, rfl⟩
             mac := ⟨_, rfl, E.themis.hmac_ne_nil _ _⟩
             rtoken := ⟨_, rfl, selfMade_newToken hreg hsk hk⟩
             wtoken := ⟨_, rfl, selfMade_newToken hreg hsk hkw⟩ }, rfl, rfl, rfl⟩

/-- A token object of the user that it has made itself. -/
theorem HoldsKey.selfMade {x : Bytes × Bytes} {k : Bytes} {tok : Token}
    (h : E.HoldsKey user x k tok) (hx : x.1 ≠ []) (howner : tok.owner.id = user.id) :
    E.SelfMade user tok := by
  obtain ⟨t, o⟩ := x
  obtain rfl : tok.token = t := h.token_eq
  obtain rfl : o = user.id := h.owner_eq.symm.trans howner
  exact ⟨hx, k, h⟩

/-- What is loaded has the write token that the loading was given, if any. -/
theorem init_wtoken {bl₀ : Block} {u : User} {id : Option Bytes} {data metadata : Bytes}
    {rt : Token} {wt : Option Token} {w₁ : World}
    (h : (midHermesLlBlockInit bl₀ u id data metadata (some rt) wt).run E.handle w =
      (.ok (some bl), w₁)) : bl.wtoken = wt := by
  obtain ⟨o₁, s₁, -, h⟩ := Prog.run_bind_eq_ok.mp h
  match o₁, h with
  | some bl₁, h =>
    obtain ⟨o₂, s₂, -, h⟩ := Prog.run_bind_eq_ok.mp h
    match o₂, h with
    | some bl₂, h =>
      obtain ⟨o₃, s₃, -, h⟩ := Prog.run_bind_eq_ok.mp h
      match o₃, h with
      | some bl₃, h =>
        cases h
        rfl

/-- It is the one the user has in the key store. -/
theorem load_wtoken {bl₀ : Block} {w₁ : World} (hb : b ≠ [])
    (h : (midHermesLlBlockLoad bl₀ b).run E.handle w = (.ok (some bl), w₁)) :
    bl.wtoken = E.ownToken bl₀.user ((w.slice b).token true bl₀.user.id) := by
  obtain ⟨rt, s₁, h₁, h⟩ := Prog.run_bind_eq_ok.mp h
  obtain ⟨wt, s₂, h₂, h⟩ := Prog.run_bind_eq_ok.mp h
  match rt, h with
  | some rt, h =>
    obtain ⟨r, s₃, -, h⟩ := Prog.run_bind_eq_ok.mp h
    match r, h with
    | .ok (data, metadata), h =>
      -- nothing is written before the write token is asked for
      have hread : E.Computes b (midHermesLlTokenLoad bl₀.user b false) (w.slice b) _ :=
        computes_tokenLoad hb false
      have hwrite : E.Computes b (midHermesLlTokenLoad bl₀.user b true) (w.slice b) _ :=
        computes_tokenLoad hb true
      have hslice : s₁.slice b = w.slice b :=
        (congrArg (fun r => World.slice b r.2) h₁).symm.trans (hread []).run.2.1
      rw [← hslice] at hwrite
      have hwt := (congrArg Prod.fst h₂).symm.trans (hwrite []).run.1
      rw [hslice] at hwt
      exact (init_wtoken h).trans (Except.ok.inj hwt)

/-- **An object that a block was loaded into tracks the data store**: the mac it presents is the
stored one if its `old_mac` is, or without one, if the tokens of the user fit. -/
theorem tracks_of_load (hreg : E.Registered user) (hw : E.WellFormed w) {w₁ : World} {bl₀ : Block}
    (hu : bl₀.user = user)
    (hrun : (midHermesLlBlockLoad bl₀ b).run E.handle w = (.ok (some bl), w₁)) {rt wt : Token}
    (hrt : bl.rtoken = some rt) (hwt : bl.wtoken = some wt) (hrto : rt.owner.id = user.id)
    (hwto : wt.owner.id = user.id) :
    E.Tracks user bl w₁ true bl.oldMac.isSome true (E.PresentsStored user bl w₁) := by
  by_cases hb : b = []
  · -- no token is loaded for an empty id
    subst hb
    have hnone : (midHermesLlBlockLoad bl₀ []).run E.handle w = (.ok none, w) := by
      simp [midHermesLlBlockLoad, midHermesLlTokenLoad, hermesKeyStoreGetToken]
    rw [hnone] at hrun
    cases hrun
  -- a block is loaded only if the user can read what is stored
  by_cases hread : ∃ d mt, E.Readable (w.slice b) user.id d mt
  · obtain ⟨d, mt, e, s, k, kw, he, hs, hk, hsealed, rfl⟩ := hread
    have hwt' := load_wtoken hb hrun
    rw [hwt, hu] at hwt'
    obtain ⟨x, hx⟩ : ∃ x, e.wtoken = some x := by
      cases hx : e.wtoken with
      | none => simp [Slice.token, he, writeToken, hx, ownToken] at hwt'
      | some x => exact ⟨x, rfl⟩
    obtain ⟨rt', wt', kwu, hheld, hkwu, hheld', hload⟩ :=
      computes_load_into hu hreg (hw.at b) hb he hs hk hsealed hx
    obtain ⟨hret, hsame, -⟩ := (hload []).run
    have hslice : w₁.slice b = w.slice b :=
      (congrArg (fun r => World.slice b r.2) hrun).symm.trans hsame
    rw [hrun] at hret
    cases hret
    cases hrt
    cases hwt
    have hs₁ : w₁.stored b = some s := (congrArg Slice.stored hslice).trans hs
    have hmac : s.mac ≠ [] := by
      rw [hsealed.version.2]
      exact E.themis.hmac_ne_nil _ _
    refine ⟨⟨rfl, ⟨_, rfl, ?_⟩, ⟨d, rfl, hsealed.data_ne⟩, ⟨_, rfl⟩,
      ⟨_, rfl, E.themis.hmac_ne_nil _ _⟩, ⟨rt, rfl, hheld.selfMade hk.token_ne hrto⟩,
      ⟨wt, rfl, hheld'.selfMade hkwu.token_ne hwto⟩⟩, rfl, by simpa using hsealed.meta_ne, by simp,
      fun _ => ⟨b, s, rfl, hb, hs₁, hmac, ?_⟩⟩
    · rw [hsealed.version.1]
      exact E.themis.encryptSeal_ne_nil _ _ _
    · cases hold : bl₀.oldMac with
      | none =>
        -- the mac of the object is the stored one if the write token fits
        have hfits := fits_iff_mac he hs hk hsealed hx hkwu
        rw [Option.none_or, Option.some_inj, eq_comm, ← hfits]
        constructor
        · rintro h b' hb'
          cases hb'
          show E.Fits (w₁.slice b) user.id
          rwa [hslice]
        · intro h
          have hb' : E.Fits (w₁.slice b) user.id := h b rfl
          rwa [hslice] at hb'
      | some old =>
        rw [Option.some_or, Option.some_inj]
        constructor
        · rintro rfl b' hb'
          cases hb'
          exact ⟨s, hs₁, rfl⟩
        · intro h
          obtain ⟨s', hs', rfl⟩ : ∃ s', w₁.stored b = some s' ∧ s'.mac = old := h b rfl
          cases hs₁.symm.trans hs'
          rfl
  · have hload := (computes_load_into_none hu hreg (hw.at b) hb hread []).run.1
    rw [hrun] at hload
    cases hload

/-- An object that has just been obtained tracks the data store. -/
theorem Obtained.tracks (hreg : E.Registered user) {stored : Bool}
    (hbl : E.Obtained user stored bl w) :
    E.Tracks user bl w stored bl.oldMac.isSome (bl.metadata ≠ some [])
      (E.PresentsStored user bl w) := by
  cases hbl with
  | @created id data metadata w₀ _ _ hid hrun =>
    have hdoes : ∀ b, E.Does b _ (w₀.slice b) [] _ := fun b =>
      does_blockCreate hreg id data metadata
    have hsame : ∀ b, w.stored b = w₀.stored b := fun b => by
      have hslice := (hdoes b).run.1
      rw [hrun] at hslice
      exact congrArg Slice.stored hslice
    obtain ⟨hfilled, rfl, -, -⟩ := (hdoes []).run.2 bl (by rw [hrun])
    refine ⟨hfilled, rfl, by simp, fun _ b hb => ?_, by simp⟩
    rw [hsame]
    exact hid b hb
  | @loaded b w₀ _ bl₀ _ rt wt hw hu hrun hrt hwt hrto hwto =>
    have htracks := tracks_of_load hreg hw hu hrun hrt hwt hrto hwto
    have hmeta : decide (bl.metadata ≠ some []) = true := decide_eq_true (htracks.hasMeta.mp rfl)
    rw [hmeta]
    exact htracks

/-- **A block object always saves against the stored version if and only if** its saves come in
order, and, when it was loaded, the mac it presents is the stored one. -/
theorem saves_current_iff (hreg : E.Registered user) {stored : Bool}
    (hbl : E.Obtained user stored bl w) (calls : List BlockCall) :
    E.SavesCurrent calls bl w ↔
      SavesInOrder calls stored bl.oldMac.isSome (bl.metadata ≠ some []) ∧
        (stored = true → BlockCall.save ∈ calls → E.PresentsStored user bl w) :=
  (hbl.tracks hreg).savesCurrent_iff hreg

end Env

/-! ### An object that is changed before it is saved -/

/-- The creation of an object by Alice, with an id. -/
def demoCreation : Except Stop (Option Block) × World :=
  (midHermesLlBlockCreate alice (some [9]) [1] [2] none none).run demoEnv.handle
    (World.empty demoRands)

/-- The object. -/
def demoObject : Block :=
  match demoCreation.1 with
  | .ok (some bl) => bl
  | _ => midHermesLlBlockCreateEmpty alice

theorem obtained_demoObject : demoEnv.Obtained alice false demoObject demoCreation.2 := by
  have hobject : demoCreation.1 = .ok (some demoObject) := by decide +kernel
  have hrun : (midHermesLlBlockCreate alice (some [9]) [1] [2] none none).run demoEnv.handle
      (World.empty demoRands) = (.ok (some demoObject), demoCreation.2) := Prod.ext hobject rfl
  refine .created (fun b hb => ?_) hrun
  cases hb
  exact ⟨by decide, rfl⟩

theorem metadata_demoObject : demoObject.metadata = some [2] := by decide +kernel

theorem oldMac_demoObject : demoObject.oldMac = none := by decide +kernel

/-- **Alice changes a new object before its first save**, which then fails. -/
theorem Env.not_savesAgainstStored : ¬demoEnv.SavesAgainstStored := by
  intro h
  have hsaves := h alice false demoObject demoCreation.2 [.update [3] [4], .save] registered_alice
    obtained_demoObject (by simp [SavesDue])
  rw [(obtained_demoObject.tracks registered_alice).savesCurrent_iff registered_alice] at hsaves
  simp [SavesInOrder] at hsaves

/-- When she saves it first, she can change it and save it again. -/
theorem Env.saves_current_iff_demoObject :
    demoEnv.SavesCurrent [.save, .update [3] [4], .rotate [], .save] demoObject demoCreation.2 := by
  rw [Env.saves_current_iff registered_alice obtained_demoObject, metadata_demoObject,
    oldMac_demoObject]
  simp [SavesInOrder]

end Hermes

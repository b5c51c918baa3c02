import Hermes.Provenance.Operations
import Hermes.Slice

/-!
# What a call touches

A call that is given a block reads nothing of any other one, whatever it is answered
(`Hermes.Env.reads_prog`), and nothing that a call asks for changes any other one, unless the
call has had the data store make up an id for it (`Hermes.Env.slice_of_justified`). So a request
acts on one slice of the stores (`Hermes.Env.handle_congr`), but for the random values, which all
calls draw from (`Hermes.Env.handle_rands`).
-/

namespace Hermes

open Interleave

/-! ### What a call reads -/

/-- The request reads nothing in the stores but this block. -/
def Req.ReadsOf (b : Bytes) : Req → Prop
  | .ks (.getRtoken b' _) => b' = b
  | .ks (.getWtoken b' _) => b' = b
  | .ks (.getIndexedRights b' _) => b' = b
  | .ds (.readBlock b') => b' = b
  | _ => True

theorem Req.IsThemis.readsOf {b : Bytes} {r : Req} (hr : r.IsThemis) : r.ReadsOf b := by
  cases r with
  | themis _ => trivial
  | ks _ => exact hr.elim
  | ds _ => exact hr.elim
  | getPubKeyById _ => exact hr.elim

section Programs

variable {b : Bytes}

theorem load_readsOf {user : User} :
    (midHermesLlBlockLoad (midHermesLlBlockCreateEmpty user) b).Only (Req.ReadsOf b) :=
  load_only rfl rfl (fun _ => trivial) rfl (.of_themis fun _ => trivial) (fun _ _ => trivial)
    fun _ _ _ => trivial

theorem accessRights_readsOf {bl : Block} (hid : bl.id = some b) (fuel : ℕ) :
    (midHermesLlBlockAccessRights fuel bl).Only (Req.ReadsOf b) := by
  refine accessRights_only (fun b' hb' => ?_) fun _ => trivial
  obtain rfl : b' = b := Option.some.inj (hb'.symm.trans hid)
  exact ⟨fun _ => rfl, fun _ => rfl, fun _ => rfl⟩

/-- Saving and deleting read nothing. -/
theorem save_readsOf (bl : Block) (rights : List RightsListNode) :
    (midHermesLlBlockSave bl rights true true).Only (Req.ReadsOf b) := by
  refine save_only (saveRtoken_only (fun _ _ _ _ => trivial) fun _ _ _ => trivial)
    (saveWtoken_only (fun _ _ _ _ => trivial) fun _ _ _ => trivial) (fun r hr => ?_) bl rights
  cases r with
  | createBlock _ _ _ => trivial
  | createBlockWithId _ _ _ _ => trivial
  | updateBlock _ _ _ _ _ => trivial
  | readBlock _ => exact hr.elim
  | deleteBlock _ _ => exact hr.elim

theorem blockDelete_readsOf (bl : Block) (rights : List RightsListNode) :
    (midHermesLlBlockDelete bl rights true true).Only (Req.ReadsOf b) :=
  blockDelete_only (fun _ _ _ => trivial) (fun _ _ _ => trivial) (fun _ _ => trivial) bl rights

theorem createBlock_readsOf (user : User) (id : Option Bytes) (d mt : Bytes) :
    (midHermesCreateBlock user id d mt).Only (Req.ReadsOf b) := by
  unfold midHermesCreateBlock
  split_ifs
  · trivial
  · refine Prog.Only.bind (blockCreate_only.mono fun _ => Req.IsThemis.readsOf) fun r => ?_
    cases r with
    | none => trivial
    | some bl =>
      refine Prog.Only.bind (save_readsOf bl []) fun r => ?_
      rcases r with ⟨_ | _, bl⟩ <;> trivial

theorem readBlock_readsOf (user : User) :
    (midHermesReadBlock user b).Only (Req.ReadsOf b) := by
  unfold midHermesReadBlock
  split_ifs
  · trivial
  · exact Prog.Only.bind load_readsOf fun r => by cases r <;> trivial

theorem updateBlock_readsOf (user : User) (d mt : Bytes) :
    (midHermesUpdateBlock user b d mt).Only (Req.ReadsOf b) := by
  unfold midHermesUpdateBlock
  split_ifs
  · trivial
  · refine Prog.Only.bind load_readsOf fun r => ?_
    cases r with
    | none => trivial
    | some bl =>
      refine Prog.Only.bind ((update_only bl d mt).mono fun _ => Req.IsThemis.readsOf) fun r => ?_
      cases r with
      | none => trivial
      | some bl =>
        refine Prog.Only.bind (save_readsOf bl []) fun r => ?_
        rcases r with ⟨_ | _, bl⟩ <;> trivial

theorem grantAccess_readsOf {tokenFor : Block → User → Client (Option Token)}
    (hfor : ∀ bl w, (tokenFor bl w).Only Req.IsThemis) (isUpdate : Bool) (user : User)
    (v : Bytes) : (midHermesGrantAccess tokenFor isUpdate user b v).Only (Req.ReadsOf b) := by
  unfold midHermesGrantAccess
  split_ifs
  · trivial
  · refine Prog.Only.bind load_readsOf fun r => ?_
    cases r with
    | none => trivial
    | some bl =>
      refine Prog.Only.bind (userLoadC_only fun _ => trivial) fun r => ?_
      cases r with
      | none => trivial
      | some w =>
        refine Prog.Only.bind ((hfor bl w).mono fun _ => Req.IsThemis.readsOf) fun r => ?_
        cases r with
        | none => trivial
        | some t =>
          refine Prog.Only.bind ?_ fun r => by cases r <;> trivial
          cases isUpdate with
          | false => exact setRtoken_only (fun _ => trivial) fun _ => trivial
          | true => exact setWtoken_only (fun _ => trivial) fun _ => trivial

theorem denyAccess_readsOf (isUpdate : Bool) (user : User) (v : Bytes) :
    (midHermesDenyAccess isUpdate user b v).Only (Req.ReadsOf b) := by
  unfold midHermesDenyAccess
  split_ifs
  · trivial
  · refine Prog.Only.bind load_readsOf fun r => ?_
    cases r with
    | none => trivial
    | some bl =>
      refine Prog.Only.bind (userLoadC_only fun _ => trivial) fun r => ?_
      cases r with
      | none => trivial
      | some w =>
        refine Prog.Only.bind ((wtokenFor_only bl w).mono fun _ => Req.IsThemis.readsOf)
          fun r => ?_
        cases r with
        | none => trivial
        | some t =>
          refine Prog.Only.bind ?_ fun r => by cases r <;> trivial
          refine Prog.Only.bind (setWtoken_only (fun _ => trivial) fun _ => trivial) fun r => ?_
          cases isUpdate with
          | false => exact setRtoken_only (fun _ => trivial) fun _ => trivial
          | true => trivial

end Programs

namespace Env

variable {E : Env}

/-- A program that reads nothing of other blocks, whatever it is answered. -/
abbrev ReadsOf (E : Env) {α : Type} (b : Bytes) (p : Client α) (h : Hist) : Prop :=
  p.Within E.Sound (fun _ r => r.ReadsOf b) (fun _ _ => True) h

theorem readsOf_of_only {α : Type} {b : Bytes} {p : Client α} {h : Hist}
    (hp : p.Only (Req.ReadsOf b)) : E.ReadsOf b p h :=
  hp.within fun _ _ hr => hr

/-- A call that loads its block, and goes on with it. -/
theorem readsOf_loaded {α : Type} {c : Call} {b : Bytes} {f : Option Block → Client α}
    (hb : c.op.blockId = some b) (hnone : ∀ h, E.ReadsOf b (f none) h)
    (hsome : ∀ h bl, bl.id = some b → E.ReadsOf b (f (some bl)) h) :
    E.ReadsOf b (midHermesLlBlockLoad (midHermesLlBlockCreateEmpty c.user) b >>= f) [] := by
  refine ((asks_load (E := E) (c := c) rfl hb fun e he => by simp at he).and
    (readsOf_of_only load_readsOf)).bind fun h₁ r _ hr => ?_
  cases r with
  | none => exact hnone h₁
  | some bl => exact hsome h₁ bl (hr.1 bl rfl).id_eq.1

theorem readsOf_deleteBlock {user : User} {b : Bytes} (fuel : ℕ) :
    E.ReadsOf b (midHermesDeleteBlock fuel user b) [] := by
  unfold midHermesDeleteBlock
  split_ifs
  · trivial
  · refine readsOf_loaded (c := ⟨user, .deleteBlock b⟩) rfl (fun h => trivial)
      fun h bl hid => readsOf_of_only ?_
    refine Prog.Only.bind (accessRights_readsOf hid fuel) fun rights => ?_
    exact Prog.Only.bind (blockDelete_readsOf bl _) fun r => by cases r <;> trivial

theorem readsOf_rotateBlock {user : User} {b : Bytes} (fuel : ℕ) :
    E.ReadsOf b (midHermesRotateBlock fuel user b) [] := by
  unfold midHermesRotateBlock
  split_ifs
  · trivial
  · refine readsOf_loaded (c := ⟨user, .rotateBlock b⟩) rfl (fun h => trivial)
      fun h bl hid => readsOf_of_only ?_
    refine Prog.Only.bind (accessRights_readsOf hid fuel) fun rights => ?_
    cases rights with
    | none => trivial
    | some rights =>
      refine Prog.Only.bind ((rotate_only bl rights).mono fun _ => Req.IsThemis.readsOf) fun r => ?_
      obtain ⟨_ | _, bl', rights'⟩ := r
      · trivial
      · refine Prog.Only.bind (save_readsOf bl' rights') fun r => ?_
        rcases r with ⟨_ | _, bl⟩ <;> trivial

/-- **A call that is given a block reads nothing of the others.** -/
theorem readsOf_prog {c : Call} {b : Bytes} (hb : c.op.blockId = some b) (fuel : ℕ) :
    E.ReadsOf b (c.prog fuel) [] := by
  obtain ⟨user, op⟩ := c
  cases op with
  | createBlock id d mt =>
    exact readsOf_of_only (Prog.Only.bind (createBlock_readsOf user id d mt) fun _ => trivial)
  | readBlock b' =>
    cases hb
    exact readsOf_of_only (Prog.Only.bind (readBlock_readsOf user) fun _ => trivial)
  | updateBlock b' d mt =>
    cases hb
    exact readsOf_of_only (Prog.Only.bind (updateBlock_readsOf user d mt) fun _ => trivial)
  | deleteBlock b' =>
    cases hb
    exact (readsOf_deleteBlock fuel).bind fun _ _ _ _ => trivial
  | rotateBlock b' =>
    cases hb
    exact (readsOf_rotateBlock fuel).bind fun _ _ _ _ => trivial
  | grantReadAccess b' v =>
    cases hb
    exact readsOf_of_only (Prog.Only.bind (grantAccess_readsOf rtokenFor_only false user v)
      fun _ => trivial)
  | grantUpdateAccess b' v =>
    cases hb
    exact readsOf_of_only (Prog.Only.bind (grantAccess_readsOf wtokenFor_only true user v)
      fun _ => trivial)
  | denyReadAccess b' v =>
    cases hb
    exact readsOf_of_only (Prog.Only.bind (denyAccess_readsOf false user v) fun _ => trivial)
  | denyUpdateAccess b' v =>
    cases hb
    exact readsOf_of_only (Prog.Only.bind (denyAccess_readsOf true user v) fun _ => trivial)

end Env

/-! ### What a call writes -/

/-- The block a request names. -/
def Req.block? : Req → Option Bytes
  | .ks (.setRtoken b _ _ _) => some b
  | .ks (.setWtoken b _ _ _) => some b
  | .ks (.getRtoken b _) => some b
  | .ks (.getWtoken b _) => some b
  | .ks (.delRtoken b _ _) => some b
  | .ks (.delWtoken b _ _) => some b
  | .ks (.getIndexedRights b _) => some b
  | .ds (.createBlock ..) => none
  | .ds (.createBlockWithId b _ _ _) => some b
  | .ds (.readBlock b) => some b
  | .ds (.updateBlock b _ _ _ _) => some b
  | .ds (.deleteBlock b _) => some b
  | .getPubKeyById _ => none
  | .themis _ => none

/-- The id the data store made up for a block, in such an exchange. -/
def madeUp : Event Req.Answer → Option Bytes
  | ⟨.ds (.createBlock ..), .ok b⟩ => some b
  | _ => none

section Writes

variable {E : Env} {c : Call} {h : Hist} {b : Bytes}

theorem Env.Saves.blockId {isUpdate : Bool} {u o t : Bytes} (hs : E.Saves c h isUpdate b u o t) :
    c.op.blockId = some b ∨ c.op.blockId = none ∧ ∃ e ∈ h, madeUp e = some b := by
  rcases hs.cases with ⟨id, d, mt, hop, -, -, -, k, kw, blk, mac, sk, hcr, -⟩ | ⟨d, mt, hop, -⟩ |
    ⟨hop, -⟩ | ⟨hop, -⟩
  · cases id with
    | none => exact Or.inr ⟨by rw [hop]; rfl, _, hcr, rfl⟩
    | some id =>
      rw [hop]
      exact Or.inl (congrArg some hcr.1)
  · rw [hop]
    exact Or.inl rfl
  · rw [hop]
    exact Or.inl rfl
  · rw [hop]
    cases isUpdate <;> exact Or.inl rfl

theorem removes_blockId {isUpdate : Bool} {u o : Bytes} (hr : Removes c isUpdate b u o) :
    c.op.blockId = some b := by
  rcases removes_cases hr with hop | hop | hop <;> rw [hop] <;> rfl

theorem Env.Updates.blockId {blk mt mac old : Bytes} (hs : E.Updates c h b blk mt mac old) :
    c.op.blockId = some b := by
  rcases hs.cases with ⟨d, hop, -⟩ | ⟨hop, -⟩ <;> rw [hop] <;> rfl

/-- **What a call writes to** is the block it is given, or the one it has created. -/
theorem blockId_of_justified {r : Req} (hJ : E.Justified c h r) (hr : ¬r.Reads)
    (hb : r.block? = some b) :
    c.op.blockId = some b ∨ c.op.blockId = none ∧ ∃ e ∈ h, madeUp e = some b := by
  match r with
  | .ks (.setRtoken b' u o t) =>
    cases hb
    have hsaves : E.Saves c h false b u o t := hJ
    exact hsaves.blockId
  | .ks (.setWtoken b' u o t) =>
    cases hb
    have hsaves : E.Saves c h true b u o t := hJ
    exact hsaves.blockId
  | .ks (.delRtoken b' u o) =>
    cases hb
    have hremoves : Removes c false b u o := hJ
    exact Or.inl (removes_blockId hremoves)
  | .ks (.delWtoken b' u o) =>
    cases hb
    have hremoves : Removes c true b u o := hJ
    exact Or.inl (removes_blockId hremoves)
  | .ds (.createBlockWithId b' blk mt mac) =>
    cases hb
    obtain ⟨d, -, hop, -⟩ : E.Creates c h (some b) blk mt mac := hJ
    rw [hop]
    exact Or.inl rfl
  | .ds (.updateBlock b' blk mt mac old) =>
    cases hb
    exact Or.inl (Env.Updates.blockId hJ)
  | .ds (.deleteBlock b' old) =>
    cases hb
    obtain ⟨hop, -⟩ : c.op = .deleteBlock b ∧ E.LoadedMac h c.user b old := hJ
    rw [hop]
    exact Or.inl rfl
  | .ks (.getRtoken ..) => exact absurd trivial hr
  | .ks (.getWtoken ..) => exact absurd trivial hr
  | .ks (.getIndexedRights ..) => exact absurd trivial hr
  | .ds (.readBlock _) => exact absurd trivial hr

/-- **All that a call which is given a block asks of the stores** is about this block. -/
theorem block?_of_justified {r : Req} {b' : Bytes} (hJ : E.Justified c h r) (hr : r.ReadsOf b)
    (hc : c.op.blockId = some b) (hb : r.block? = some b') : b' = b := by
  by_cases hreads : r.Reads
  · match r with
    | .ks (.getRtoken ..) => exact (Option.some.inj hb).symm.trans hr
    | .ks (.getWtoken ..) => exact (Option.some.inj hb).symm.trans hr
    | .ks (.getIndexedRights ..) => exact (Option.some.inj hb).symm.trans hr
    | .ds (.readBlock _) => exact (Option.some.inj hb).symm.trans hr
  · rcases blockId_of_justified hJ hreads hb with hb' | ⟨hnone, -⟩
    · exact Option.some.inj (hb'.symm.trans hc)
    · cases hc.symm.trans hnone

/-- Such a call has no id made up. -/
theorem madeUp_of_justified {r : Req} (hJ : E.Justified c h r) (hc : c.op.blockId ≠ none)
    (a : r.Answer) : madeUp ⟨r, a⟩ = none := by
  match r with
  | .ds (.createBlock blk mt mac) =>
    obtain ⟨d, -, hop, -⟩ : E.Creates c h none blk mt mac := hJ
    rw [hop] at hc
    exact absurd rfl hc
  | .ds (.createBlockWithId ..) => rfl
  | .ds (.readBlock _) => rfl
  | .ds (.updateBlock ..) => rfl
  | .ds (.deleteBlock ..) => rfl
  | .ks _ => rfl
  | .getPubKeyById _ => rfl
  | .themis _ => rfl

end Writes

/-! ### What the stores do -/

section Stores

variable {E : Env} {w w' : World} {r : Req} {b : Bytes}

theorem slice_setEntry_of_ne {b' : Bytes} (hne : b' ≠ b) (u : Bytes) (e : Option Entry) :
    (w.setEntry b u e).slice b' = w.slice b' := by
  cases e <;> simp [World.slice, World.setEntry, KeyDb.setEntry, World.stored, hne]

theorem slice_setStored_of_ne {b' : Bytes} (hne : b' ≠ b) (s : Option StoredBlock) :
    (w.setStored b s).slice b' = w.slice b' := by
  have hs : (w.setStored b s).stored b' = w.stored b' := by rw [stored_setStored, if_neg hne]
  simp only [World.slice, hs]
  rfl

/-- A request to the key store that names another block leaves this one alone. -/
theorem slice_keyStore {r : KeyStoreReq} (hr : (Req.ks r).block? ≠ some b) :
    (E.handle w (.ks r)).2.slice b = w.slice b := by
  by_cases hreads : (Req.ks r).Reads
  · exact slice_of_reads hreads b
  match r with
  | .setRtoken b' u o t =>
    have hne : b ≠ b' := fun h => hr (congrArg some h.symm)
    rw [handle_setRtoken]
    split_ifs
    · rfl
    · rfl
    · exact slice_setEntry_of_ne hne _ _
  | .setWtoken b' u o t =>
    have hne : b ≠ b' := fun h => hr (congrArg some h.symm)
    rw [handle_setWtoken]
    split_ifs
    · rfl
    · rfl
    · cases w.entry b' u with
      | none => rfl
      | some e => exact slice_setEntry_of_ne hne _ _
  | .delRtoken b' u o =>
    have hne : b ≠ b' := fun h => hr (congrArg some h.symm)
    rw [handle_delRtoken]
    split_ifs
    · rfl
    · rfl
    · exact slice_setEntry_of_ne hne _ _
  | .delWtoken b' u o =>
    have hne : b ≠ b' := fun h => hr (congrArg some h.symm)
    rw [handle_delWtoken]
    split_ifs
    · rfl
    · rfl
    · cases w.entry b' u with
      | none => rfl
      | some e => exact slice_setEntry_of_ne hne _ _
  | .getRtoken _ _ => exact absurd trivial hreads
  | .getWtoken _ _ => exact absurd trivial hreads
  | .getIndexedRights _ _ => exact absurd trivial hreads

/-- The same for the data store, unless it makes up the id of this block. -/
theorem slice_dataStore {r : DataStoreReq} (hr : (Req.ds r).block? ≠ some b)
    (hnew : madeUp ⟨.ds r, (E.handle w (.ds r)).1⟩ ≠ some b) :
    (E.handle w (.ds r)).2.slice b = w.slice b := by
  match r with
  | .createBlock blk mt mac =>
    rw [handle_createBlock] at hnew ⊢
    split_ifs with hne
    · rfl
    · rw [if_neg hne] at hnew
      show (w.setStored (w.data.freshId E.ids) (some ⟨blk, mt, mac⟩)).slice b = w.slice b
      exact slice_setStored_of_ne (fun h => hnew (congrArg some h.symm)) _
  | .createBlockWithId b' blk mt mac =>
    have hne : b ≠ b' := fun h => hr (congrArg some h.symm)
    rw [handle_createBlockWithId]
    split_ifs
    · rfl
    · cases w.stored b' with
      | some s => rfl
      | none => exact slice_setStored_of_ne hne _
  | .readBlock id => exact slice_of_reads (r := .ds (.readBlock id)) trivial b
  | .updateBlock b' blk mt mac old =>
    have hne : b ≠ b' := fun h => hr (congrArg some h.symm)
    rw [handle_updateBlock]
    split_ifs
    · rfl
    · cases w.stored b' with
      | none => rfl
      | some s =>
        dsimp only
        split_ifs
        · exact slice_setStored_of_ne hne _
        · rfl
  | .deleteBlock b' old =>
    have hne : b ≠ b' := fun h => hr (congrArg some h.symm)
    rw [handle_deleteBlock]
    split_ifs
    · rfl
    · cases w.stored b' with
      | none => rfl
      | some s =>
        dsimp only
        split_ifs
        · exact slice_setStored_of_ne hne _
        · rfl

/-- **A request that names another block leaves this one alone**, unless it is the one that the
data store makes up. -/
theorem slice_elsewhere (hr : r.block? ≠ some b)
    (hnew : madeUp ⟨r, (E.handle w r).1⟩ ≠ some b) : (E.handle w r).2.slice b = w.slice b := by
  cases r with
  | ks r => exact slice_keyStore hr
  | ds r => exact slice_dataStore hr hnew
  | getPubKeyById _ => rfl
  | themis _ => rfl

/-- **A call leaves alone** what it is not given and has not created. -/
theorem slice_of_justified {c : Call} {h : Hist} (hJ : E.Justified c h r)
    (hc : c.op.blockId ≠ some b)
    (hnew : ∀ e ∈ (⟨r, (E.handle w r).1⟩ : Event Req.Answer) :: h, madeUp e ≠ some b) :
    (E.handle w r).2.slice b = w.slice b := by
  by_cases hreads : r.Reads
  · exact slice_of_reads hreads b
  · refine slice_elsewhere (fun hb => ?_) (hnew _ List.mem_cons_self)
    rcases blockId_of_justified hJ hreads hb with hb' | ⟨-, e, he, hmade⟩
    · exact hc hb'
    · exact hnew e (List.mem_cons_of_mem _ he) hmade

/-- The same for a call that is given another block. -/
theorem slice_of_justified_ne {c : Call} {h : Hist} {b' : Bytes} (hJ : E.Justified c h r)
    (hc : c.op.blockId = some b') (hne : b ≠ b') : (E.handle w r).2.slice b = w.slice b := by
  by_cases hreads : r.Reads
  · exact slice_of_reads hreads b
  · refine slice_elsewhere (fun hb => ?_) ?_
    · rcases blockId_of_justified hJ hreads hb with hb' | ⟨hnone, -⟩
      · exact hne (Option.some.inj (hb'.symm.trans hc))
      · cases hc.symm.trans hnone
    · rw [madeUp_of_justified hJ (by rw [hc]; exact Option.some_ne_none b')]
      exact (Option.some_ne_none b).symm

/-- What the key store does for a block is a function of its slice. -/
theorem keyStore_congr {r : KeyStoreReq} (hb : (Req.ks r).block? = some b)
    (hs : w'.slice b = w.slice b) : (E.handle w' (.ks r)).1 = (E.handle w (.ks r)).1 ∧
      (E.handle w' (.ks r)).2.slice b = (E.handle w (.ks r)).2.slice b := by
  have hentry : ∀ u, w'.entry b u = w.entry b u := fun u =>
    congrArg (fun v => Slice.entry v u) hs
  have hset : ∀ u e, (w'.setEntry b u e).slice b = (w.setEntry b u e).slice b := fun u e => by
    rw [slice_setEntry, slice_setEntry, hs]
  match r with
  | .setRtoken b' u o t =>
    cases hb
    simp only [handle_setRtoken, hentry]
    split_ifs
    · exact ⟨rfl, hs⟩
    · exact ⟨rfl, hs⟩
    · exact ⟨rfl, hset _ _⟩
  | .setWtoken b' u o t =>
    cases hb
    simp only [handle_setWtoken, hentry]
    split_ifs
    · exact ⟨rfl, hs⟩
    · exact ⟨rfl, hs⟩
    · cases w.entry b u with
      | none => exact ⟨rfl, hs⟩
      | some e => exact ⟨rfl, hset _ _⟩
  | .getRtoken b' u =>
    cases hb
    simp only [handle_getRtoken, hentry]
    split_ifs
    · exact ⟨rfl, hs⟩
    · cases w.entry b u <;> exact ⟨rfl, hs⟩
  | .getWtoken b' u =>
    cases hb
    simp only [handle_getWtoken, hentry]
    split_ifs
    · exact ⟨rfl, hs⟩
    · cases writeToken (w.entry b u) <;> exact ⟨rfl, hs⟩
  | .delRtoken b' u o =>
    cases hb
    simp only [handle_delRtoken, hentry]
    split_ifs
    · exact ⟨rfl, hs⟩
    · exact ⟨rfl, hs⟩
    · exact ⟨rfl, hset _ _⟩
  | .delWtoken b' u o =>
    cases hb
    simp only [handle_delWtoken, hentry]
    split_ifs
    · exact ⟨rfl, hs⟩
    · exact ⟨rfl, hs⟩
    · cases w.entry b u with
      | none => exact ⟨rfl, hs⟩
      | some e => exact ⟨rfl, hset _ _⟩
  | .getIndexedRights b' n =>
    -- the order in which users are listed is one of the table, not only of its entries
    cases hb
    have husers : w'.keys b = w.keys b := congrArg Slice.users hs
    refine ⟨?_, by rw [handle_getIndexedRights, handle_getIndexedRights, hs]⟩
    show (hmKeyStoreGetIndexedRights (testKeyStoreDb E.enumerate) b n w'.keys).1 =
      (hmKeyStoreGetIndexedRights (testKeyStoreDb E.enumerate) b n w.keys).1
    simp only [hmKeyStoreGetIndexedRights, testKeyStoreDb, dbGetIndexedRights, husers]
    split_ifs
    · rfl
    · cases (E.enumerate (w.keys b).keys)[n]? <;> rfl

/-- What the data store does for a block is a function of its slice. -/
theorem dataStore_congr {r : DataStoreReq} (hb : (Req.ds r).block? = some b)
    (hs : w'.slice b = w.slice b) : (E.handle w' (.ds r)).1 = (E.handle w (.ds r)).1 ∧
      (E.handle w' (.ds r)).2.slice b = (E.handle w (.ds r)).2.slice b := by
  have hstored : w'.stored b = w.stored b := congrArg Slice.stored hs
  have hset : ∀ s, (w'.setStored b s).slice b = (w.setStored b s).slice b := fun s => by
    rw [slice_setStored, slice_setStored, hs]
  match r with
  | .createBlockWithId b' blk mt mac =>
    cases hb
    simp only [handle_createBlockWithId, hstored]
    split_ifs
    · exact ⟨rfl, hs⟩
    · cases w.stored b with
      | some s => exact ⟨rfl, hs⟩
      | none => exact ⟨rfl, hset _⟩
  | .readBlock b' =>
    cases hb
    simp only [handle_readBlock, hstored]
    split_ifs
    · exact ⟨rfl, hs⟩
    · cases w.stored b <;> exact ⟨rfl, hs⟩
  | .updateBlock b' blk mt mac old =>
    cases hb
    simp only [handle_updateBlock, hstored]
    split_ifs
    · exact ⟨rfl, hs⟩
    · cases w.stored b with
      | none => exact ⟨rfl, hs⟩
      | some s =>
        dsimp only
        split_ifs
        · exact ⟨rfl, hset _⟩
        · exact ⟨rfl, hs⟩
  | .deleteBlock b' old =>
    cases hb
    simp only [handle_deleteBlock, hstored]
    split_ifs
    · exact ⟨rfl, hs⟩
    · cases w.stored b with
      | none => exact ⟨rfl, hs⟩
      | some s =>
        dsimp only
        split_ifs
        · exact ⟨rfl, hset _⟩
        · exact ⟨rfl, hs⟩

/-- **A request that names a block acts on its slice**: what it is answered, and what it leaves,
are functions of it. -/
theorem handle_congr (hb : r.block? = some b) (hs : w'.slice b = w.slice b) :
    (E.handle w' r).1 = (E.handle w r).1 ∧
      (E.handle w' r).2.slice b = (E.handle w r).2.slice b := by
  cases r with
  | ks r => exact keyStore_congr hb hs
  | ds r => exact dataStore_congr hb hs
  | getPubKeyById _ => cases hb
  | themis _ => cases hb

/-- What a call which is given a block is answered depends on the block alone, unless it draws. -/
theorem answer_congr {c : Call} {h : Hist} (hJ : E.Justified c h r) (hr : r.ReadsOf b)
    (hc : c.op.blockId = some b) (hrand : r ≠ .themis .rand) (hs : w'.slice b = w.slice b) :
    (E.handle w' r).1 = (E.handle w r).1 := by
  cases hb : r.block? with
  | some b' =>
    obtain rfl := block?_of_justified hJ hr hc hb
    exact (handle_congr hb hs).1
  | none =>
    match r with
    | .ds (.createBlock blk mt mac) =>
      obtain ⟨d, -, hop, -⟩ : E.Creates c h none blk mt mac := hJ
      rw [hop] at hc
      cases hc
    | .getPubKeyById _ => rfl
    | .themis .rand => exact absurd rfl hrand
    | .themis (.encryptSeal ..) => rfl
    | .themis (.decryptSeal ..) => rfl
    | .themis (.wrap ..) => rfl
    | .themis (.unwrapSize ..) => rfl
    | .themis (.unwrap ..) => rfl
    | .themis (.hmac ..) => rfl

/-- The state with other random values to be drawn. -/
def World.withRands (w : World) (rands : ℕ → HmToken) : World := { w with rands := rands }

/-- What is not a draw does not depend on the values that are still to be drawn. -/
theorem handle_withRands (hr : r ≠ .themis .rand) (rands : ℕ → HmToken) :
    E.handle (w.withRands rands) r =
      ((E.handle w r).1, (E.handle w r).2.withRands rands) := by
  match r with
  | .ks _ => rfl
  | .ds _ => rfl
  | .getPubKeyById _ => rfl
  | .themis .rand => exact absurd rfl hr
  | .themis (.encryptSeal ..) => rfl
  | .themis (.decryptSeal ..) => rfl
  | .themis (.wrap ..) => rfl
  | .themis (.unwrapSize ..) => rfl
  | .themis (.unwrap ..) => rfl
  | .themis (.hmac ..) => rfl

end Stores

/-- **A block that no call is given** is as it was in the beginning, if all calls are given one. -/
theorem Env.Reachable.slice_untouched {E : Env} {allowed : Call → Prop} {P : Clients} {b : Bytes}
    (hP : E.Reachable allowed P)
    (hother : ∀ c, allowed c → ∃ b', c.op.blockId = some b' ∧ b ≠ b') :
    P.state.slice b = ⟨∅, none⟩ := by
  refine hP.invariant (I := fun P => P.state.slice b = ⟨∅, none⟩) (fun _ => rfl)
    (fun _ _ _ hs _ _ => hs) fun P i c h r k hhonest hs hi => ?_
  have ht := hhonest _ (List.mem_of_getElem? hi)
  obtain ⟨b', hcb, hne⟩ := hother c ht.allowed
  exact (slice_of_justified_ne ht.justified hcb hne).trans hs

end Hermes

import Hermes.Completeness
import Hermes.RotationFaults

/-!
# Rotations of a block whose rights list may be short

A rotation gives the new keys to the user who rotates and to those on the rights list, and what
is saved is what is on the list. So if some of the requests for the list fail
(`Hermes.Env.flaky`), whether a rotation that reports `HM_SUCCESS` has left somebody out is
decided when the list is made: if the list is complete, every entry of the block wraps the new
keys afterwards (`Hermes.Env.nobodyLeftOut`). When it is, or is `NULL`, is said by
`Hermes.Env.accessRights_kept_iff`.
-/

namespace Hermes

open Interleave

/-- No request fails. -/
def noFailure : Choice := ⟨fun _ => none, fun _ _ => none⟩

/-- The request for the second user fails. -/
def secondUserFails : Choice := ⟨fun k => if k = 1 then some .fail else none, fun _ _ => none⟩

/-- The second half of `mid_hermes_rotate_block`: what it does with the rights list. -/
def rotateAndSave (bl : Block) (rightsList : List RightsListNode) : Client HermesStatus := do
  let (rotated, bl, rightsList) ← midHermesLlBlockRotate bl rightsList
  if !rotated then return hmFail
  else
    let (saved, _) ← midHermesLlBlockSave bl rightsList true true
    if !saved then return hmFail else return hmSuccess

theorem midHermesRotateBlock_eq (fuel : ℕ) (user : User) (b : Bytes) :
    midHermesRotateBlock fuel user b = if b = [] then .ret hmInvalidParameter else
      midHermesLlBlockLoad (midHermesLlBlockCreateEmpty user) b >>= fun
        | none => .ret hmFail
        | some bl => midHermesLlBlockAccessRights fuel bl >>= fun
          | none => .ret hmFail
          | some rightsList => rotateAndSave bl rightsList := rfl

/-- The request is none of those with which a rights list is made. -/
def Req.Unlisted (r : Req) : Prop := r.index? = none ∧ r.loads = false

theorem Req.IsThemis.reads {r : Req} (hr : r.IsThemis) : r.Reads := by
  match r with
  | .themis _ => trivial

theorem Req.IsThemis.unlisted {r : Req} (hr : r.IsThemis) : r.Unlisted := by
  match r with
  | .themis _ => exact ⟨rfl, rfl⟩

namespace Env

/-- **Nobody is left out**: if the rotation reports a success, the stored block is sealed and
authenticated with two keys that every entry of the block wraps, the write key if the entry had
a write token. -/
def NobodyLeftOut (E : Env) (fuel : ℕ) (user : User) (b : Bytes) (c : Choice) (w : World) :
    Prop :=
  ∀ s, (midHermesRotateBlock fuel user b).run (E.flaky c) (w, none) = (.ok hmSuccess, s) →
    ∃ sk k kw d s', user.sk = some sk ∧ s.1.stored b = some s' ∧
      E.Version k kw d s'.metadata s'.block s'.mac ∧
      ∀ u, s.1.entry b u = (w.entry b u).map (E.rekeyed user sk k kw u)

variable {E : Env} {c : Choice} {w w' : World} {b : Bytes} {user : User} {bl bl' : Block}

/-! ### Runs in which nothing fails -/

/-- A program that only reads leaves the slices as they are. -/
theorem slice_run {α : Type} {p : Client α} (hp : p.Only Req.Reads) (w : World) (b : Bytes) :
    (p.run E.handle w).2.slice b = w.slice b :=
  (hp.run_eq E.handle E.handle id (I := fun t => t.slice b = w.slice b) (fun _ _ ht hr =>
    ⟨rfl, rfl, (slice_of_reads hr b).trans ht⟩) w rfl).2.2

/-- Before the rights list is made, nothing fails. -/
theorem run_load_flaky (c : Choice) (w : World) (user : User) (b : Bytes) :
    (midHermesLlBlockLoad (midHermesLlBlockCreateEmpty user) b).run (E.flaky c) (w, none) =
      (((midHermesLlBlockLoad (midHermesLlBlockCreateEmpty user) b).run E.handle w).1,
        ((midHermesLlBlockLoad (midHermesLlBlockCreateEmpty user) b).run E.handle w).2, none) := by
  have honly : (midHermesLlBlockLoad (midHermesLlBlockCreateEmpty user) b).Only
      fun r => r.index? = none :=
    load_only rfl rfl (fun _ => rfl) rfl (.of_themis fun _ => rfl) (fun _ _ => rfl) fun _ _ _ => rfl
  obtain ⟨hres, hst, hnone⟩ := honly.run_eq (E.flaky c) E.handle Prod.fst
    (I := fun t => t.2 = none) (fun t r ht hr => by simp [flaky, ht, hr]) (w, none) rfl
  exact Prod.ext hres (Prod.ext hst hnone)

/-- After it is made, nothing fails. -/
theorem run_unlisted_flaky {α : Type} {p : Client α} (hp : p.Only Req.Unlisted) (c : Choice)
    (w : World) (o : Option (ℕ × ℕ)) :
    (p.run (E.flaky c) (w, o)).1 = (p.run E.handle w).1 ∧
      (p.run (E.flaky c) (w, o)).2.1 = (p.run E.handle w).2 := by
  have hstep : ∀ (t : World × Option (ℕ × ℕ)) (r : Req), True → r.Unlisted →
      (E.flaky c t r).1 = (E.handle t.1 r).1 ∧ (E.flaky c t r).2.1 = (E.handle t.1 r).2 ∧ True := by
    rintro ⟨w, _ | ⟨i, j⟩⟩ r - ⟨hi, hl⟩ <;> simp [flaky, hi, hl]
  obtain ⟨hres, hst, -⟩ := hp.run_eq (E.flaky c) E.handle Prod.fst hstep (w, o) trivial
  exact ⟨hres, hst⟩

/-- A cryptography of which no call fails. -/
theorem run_faulty_none {α : Type} (p : Client α) (w : World) :
    (p.run (E.faulty fun _ => false) (w, 0)).1 = (p.run E.handle w).1 := by
  refine ((Prog.only_true p).run_eq (E.faulty fun _ => false) E.handle Prod.fst
    (I := fun _ => True) (fun t r _ _ => ?_) (w, 0) trivial).1
  unfold faulty
  cases r.toStore <;> exact ⟨rfl, rfl, trivial⟩

/-! ### What the object has that was loaded -/

/-- A token that was loaded is in the key store. -/
theorem token_of_load {isUpdate : Bool} {t : Token}
    (h : (midHermesLlTokenLoad user b isUpdate).run E.handle w = (.ok (some t), w')) :
    (w.slice b).token isUpdate user.id ≠ none := by
  obtain ⟨r, w₁, hget, h⟩ := Prog.run_bind_eq_ok.mp h
  match r, h with
  | .ok x, h =>
    unfold hermesKeyStoreGetToken at hget
    split_ifs at hget with hne hup
    · cases hget
    · subst hup
      have hok : (E.handle w (.ks (.getWtoken b user.id))).1 = .ok x :=
        Except.ok.inj (congrArg Prod.fst hget)
      rw [Slice.token, if_pos rfl, entry_slice, getWtoken_ok hok]
      simp
    · have hok : (E.handle w (.ks (.getRtoken b user.id))).1 = .ok x :=
        Except.ok.inj (congrArg Prod.fst hget)
      obtain ⟨e, he, -⟩ := getRtoken_ok hok
      rw [Slice.token, if_neg hup, entry_slice, he]
      simp

theorem initMac_keeps {bd mt : Bytes} {rt wt : Option Token}
    (h : (midHermesLlBlockInitMac bl bd mt rt wt).run E.handle w = (.ok (some bl'), w')) :
    ∃ mac, bl' = { bl with mac := mac } := by
  unfold midHermesLlBlockInitMac at h
  by_cases hsome : wt.isSome || bl.wtoken.isSome
  · rw [if_pos hsome] at h
    obtain ⟨k, w₁, -, h⟩ := Prog.run_bind_eq_ok.mp h
    match k, h with
    | some k, h =>
      obtain ⟨mac, w₂, -, h⟩ := Prog.run_bind_eq_ok.mp h
      match mac, h with
      | .ok mac, h =>
        cases h
        exact ⟨_, rfl⟩
  · rw [if_neg hsome] at h
    cases h
    exact ⟨bl.mac, rfl⟩

theorem init_some_eq_some {id : Option Bytes} {bd mt : Bytes} {rt : Token} {wt : Option Token}
    (h : (midHermesLlBlockInit bl user id bd mt (some rt) wt).run E.handle w =
      (.ok (some bl'), w')) : bl'.user = user ∧ bl'.id = id ∧ bl'.wtoken = wt := by
  unfold midHermesLlBlockInit midHermesLlBlockInitTokens midHermesLlBlockInitData at h
  simp only [Prog.ret_bind, Option.some_or, Option.isSome_some, if_true] at h
  obtain ⟨bl₁, w₁, h₁, h⟩ := Prog.run_bind_eq_ok.mp h
  obtain ⟨k, w₂, -, h₁⟩ := Prog.run_bind_eq_ok.mp h₁
  match k, h₁ with
  | none, h₁ =>
    cases h₁
    cases h
  | some k, h₁ =>
    obtain ⟨d, w₃, -, h₁⟩ := Prog.run_bind_eq_ok.mp h₁
    match d, h₁ with
    | .error _, h₁ =>
      cases h₁
      cases h
    | .ok d, h₁ =>
      cases h₁
      obtain ⟨bl₂, w₄, hmac, h⟩ := Prog.run_bind_eq_ok.mp h
      match bl₂, h with
      | some bl₂, h =>
        obtain ⟨mac, rfl⟩ := initMac_keeps hmac
        cases h
        exact ⟨rfl, rfl, rfl⟩

/-- **What a loaded object has**: its user and id, and a write token only if the key store has
one. -/
theorem load_eq_some
    (h : (midHermesLlBlockLoad (midHermesLlBlockCreateEmpty user) b).run E.handle w =
      (.ok (some bl), w')) :
    bl.user = user ∧ bl.id = some b ∧
      (bl.wtoken ≠ none → writeToken (w.entry b user.id) ≠ none) := by
  obtain ⟨rt, w₁, hrt, h⟩ := Prog.run_bind_eq_ok.mp h
  obtain ⟨wt, w₂, hwt, h⟩ := Prog.run_bind_eq_ok.mp h
  match rt, h with
  | some rt, h =>
    obtain ⟨x, w₃, -, h⟩ := Prog.run_bind_eq_ok.mp h
    match x, h with
    | .ok (bd, mt), h =>
      obtain ⟨huser, hid, hw⟩ := init_some_eq_some h
      refine ⟨huser, hid, fun hne => ?_⟩
      obtain ⟨t, ht⟩ := Option.ne_none_iff_exists'.mp hne
      rw [hw.symm.trans ht] at hwt
      -- the write token was loaded after the read token, from the same entry
      have hslice : w₁.slice b = w.slice b := by
        have hread := slice_run (E := E) (p := midHermesLlTokenLoad
          (midHermesLlBlockCreateEmpty user).user b false)
          (tokenLoad_only trivial trivial fun _ => trivial) w b
        rwa [hrt] at hread
      have htoken := token_of_load hwt
      rw [hslice] at htoken
      exact htoken

/-! ### What is saved -/

variable {sk k kw : Bytes} {rights rights' : List RightsListNode}

/-- **A rotation that succeeds**: the object and the nodes have new tokens of the two keys that
were drawn. -/
theorem rotate_eq_true
    (h : (midHermesLlBlockRotate bl rights).run E.handle w = (.ok (true, bl', rights'), w')) :
    ∃ sk d mt, bl.wtoken ≠ none ∧ bl.user.sk = some sk ∧ bl.metadata = some mt ∧
      bl' = E.rekeyedBlock sk (w.rands 0).val (w.rands 1).val
        (E.themis.encryptSeal (w.rands 0).val mt d) (E.themis.hmac (w.rands 1).val [d, mt]) bl ∧
      rights' = rights.map (E.rekeyedNode bl.user sk (w.rands 0).val (w.rands 1).val) := by
  obtain ⟨s, hs⟩ : ∃ s, (midHermesLlBlockRotate bl rights).run (E.faulty fun _ => false) (w, 0) =
      (.ok (true, bl', rights'), s) := ⟨_, Prod.ext (by rw [run_faulty_none, h]) rfl⟩
  unfold midHermesLlBlockRotate at hs
  match hrt : bl.rtoken, hwt : bl.wtoken, hs with
  | some rt, some wt, hs =>
    obtain ⟨x, s₁, hkeys, hs⟩ := Prog.run_bind_eq_ok.mp hs
    match x, hs with
    | some x, hs =>
      obtain ⟨sk, d, mt, ⟨hsk, hpk⟩, ⟨-, -, hmt⟩, -, rfl, rfl⟩ := rotateKeys_eq_some.mp hkeys
      -- no call fails, so every node has its new tokens
      obtain ⟨r, s₂, hrun, hall, -⟩ := run_rotateRights (E := E) (fun _ => false)
        { w with rands := fun i => w.rands (i + 2) } hsk hpk (HmToken.val_ne_nil (w.rands 0))
        (HmToken.val_ne_nil (w.rands 1)) rights (0 + 10)
      obtain rfl := hall fun _ _ => rfl
      rw [Prog.run_bind_of_ok hrun] at hs
      cases hs
      exact ⟨sk, d, mt, Option.some_ne_none wt, hsk.2, hmt, rfl, rfl⟩

/-- A read token that is saved is in the entry of its user. -/
theorem saveRtoken_eq_ok {t : Token} {x : Unit} (hne : t.token ≠ [])
    (h : (midHermesLlRtokenSave b (some t)).run E.handle w = (.ok (.ok x), w')) :
    w' = w.setEntry b t.user.id
      (some ⟨t.token, t.owner.id, writeToken (w.entry b t.user.id)⟩) := by
  simp only [midHermesLlRtokenSave, hermesKeyStoreSetRtoken, if_pos hne] at h
  split_ifs at h
  · cases h
  · rw [Prog.run_req, handle_setRtoken] at h
    split_ifs at h
    · cases h
    · cases h
    · cases h
      rfl

/-- A write token that is saved is in the entry of its user. -/
theorem saveWtoken_eq_ok {t : Token} {x : Unit} (hne : t.token ≠ [])
    (h : (midHermesLlWtokenSave b (some t)).run E.handle w = (.ok (.ok x), w')) :
    ∃ e, w.entry b t.user.id = some e ∧
      w' = w.setEntry b t.user.id (some { e with wtoken := some (t.token, t.owner.id) }) := by
  simp only [midHermesLlWtokenSave, hermesKeyStoreSetWtoken, if_pos hne] at h
  split_ifs at h
  · cases h
  · rw [Prog.run_req, handle_setWtoken] at h
    split_ifs at h
    · cases h
    · cases h
    · cases he : w.entry b t.user.id with
      | none =>
        rw [he] at h
        cases h
      | some e =>
        rw [he] at h
        cases h
        exact ⟨e, rfl, rfl⟩

/-- The node of an entry: its user has the public key that the credential store has, and it has
a write token if the entry has one. -/
structure ListsEntry (E : Env) (b : Bytes) (w : World) (node : RightsListNode) : Prop where
  pk_eq : E.credentials node.user.id = some node.user.pk
  entry_ne : w.entry b node.user.id ≠ none
  wtoken_isSome : node.wtoken.isSome = (writeToken (w.entry b node.user.id)).isSome

theorem ListsEntry.congr {node : RightsListNode} (h : E.ListsEntry b w node)
    (heq : w'.entry b node.user.id = w.entry b node.user.id) : E.ListsEntry b w' node :=
  ⟨h.pk_eq, by rw [heq]; exact h.entry_ne, by rw [heq]; exact h.wtoken_isSome⟩

/-- One node: if its tokens are saved, its entry is the new one. -/
theorem saveNode_eq_true {node : RightsListNode} (hnode : E.ListsEntry b w node)
    (h : (midHermesLlBlockSaveRights b (E.rekeyedNode user sk k kw node :: rights)).run E.handle w =
      (.ok true, w')) :
    ∃ w₁, (midHermesLlBlockSaveRights b rights).run E.handle w₁ = (.ok true, w') ∧
      w₁.stored = w.stored ∧ ∀ u, w₁.entry b u = if u = node.user.id then
        (w.entry b u).map (E.rekeyed user sk k kw u) else w.entry b u := by
  obtain ⟨e, he⟩ := Option.ne_none_iff_exists'.mp hnode.entry_ne
  have hpk : (E.credentials node.user.id).getD [] = node.user.pk := by rw [hnode.pk_eq]; rfl
  have hsome := hnode.wtoken_isSome
  rw [he] at hsome
  have hsome : node.wtoken.isSome = e.wtoken.isSome := hsome
  rw [midHermesLlBlockSaveRights] at h
  obtain ⟨r, w₁, hr, h⟩ := Prog.run_bind_eq_ok.mp h
  cases r with
  | error s => cases h
  | ok x =>
    -- the run goes on, so the read token was accepted
    obtain rfl := saveRtoken_eq_ok (newToken_ne node.user k) hr
    dsimp only [rekeyedNode, newToken] at h
    by_cases hw : node.wtoken.isSome
    · simp only [hw, if_true, Option.isSome_some] at h
      obtain ⟨r, w₂, hr₂, h⟩ := Prog.run_bind_eq_ok.mp h
      cases r with
      | error s => cases h
      | ok x =>
        have hne : (E.newToken user sk node.user kw).token ≠ [] := newToken_ne node.user kw
        -- and so was the write token, into the entry that was just set
        obtain ⟨e', he', rfl⟩ := saveWtoken_eq_ok hne hr₂
        refine ⟨_, h, rfl, fun u => ?_⟩
        have he'' : some e' = some _ :=
          he'.symm.trans ((entry_setEntry ..).trans (if_pos ⟨rfl, rfl⟩))
        cases he''
        rw [entry_setEntry, entry_setEntry]
        by_cases hu : u = node.user.id
        · subst hu
          obtain ⟨y, hy⟩ := Option.isSome_iff_exists.mp (hsome.symm.trans hw)
          simp [he, rekeyed, hpk, hy, newToken]
        · simp [hu, newToken]
    · -- the read token is all there is to save
      simp only [hw, Bool.false_eq_true, if_false, Option.isSome_none] at h
      refine ⟨_, h, rfl, fun u => ?_⟩
      rw [entry_setEntry]
      by_cases hu : u = node.user.id
      · subst hu
        have hnone : e.wtoken = none := by
          rw [Bool.not_eq_true] at hw
          exact Option.isNone_iff_eq_none.mp (Option.isSome_eq_false_iff.mp (hsome.symm.trans hw))
        simp [he, rekeyed, hpk, hnone, writeToken]
      · simp [hu]

/-- **The loop of the saving**: if it succeeds, the entries of the listed users are new. -/
theorem saveRights_eq_true (hnodup : (rights.map fun node => node.user.id).Nodup)
    (hnodes : ∀ node ∈ rights, E.ListsEntry b w node)
    (h : (midHermesLlBlockSaveRights b (rights.map (E.rekeyedNode user sk k kw))).run E.handle w =
      (.ok true, w')) :
    w'.stored = w.stored ∧ ∀ u, w'.entry b u = if u ∈ rights.map fun node => node.user.id then
      (w.entry b u).map (E.rekeyed user sk k kw u) else w.entry b u := by
  induction rights generalizing w with
  | nil =>
    cases h
    exact ⟨rfl, fun u => by simp⟩
  | cons node rights ih =>
    obtain ⟨hnotin, hnodup⟩ := List.nodup_cons.mp hnodup
    obtain ⟨w₁, h, hstored, hentry⟩ := saveNode_eq_true (hnodes node List.mem_cons_self) h
    -- the users of the other nodes still have the entries they had
    have hrest : ∀ {u}, u ≠ node.user.id → w₁.entry b u = w.entry b u := fun hu => by
      rw [hentry, if_neg hu]
    have hnodes' : ∀ node' ∈ rights, E.ListsEntry b w₁ node' := fun node' hnode' =>
      (hnodes node' (List.mem_cons_of_mem _ hnode')).congr <| hrest fun heq =>
        hnotin (List.mem_map.mpr ⟨node', hnode', heq⟩)
    obtain ⟨hstored', hentry'⟩ := ih hnodup hnodes' h
    refine ⟨hstored'.trans hstored, fun u => ?_⟩
    rw [hentry']
    by_cases hu : u = node.user.id
    · subst hu
      rw [if_neg hnotin, hentry, if_pos rfl, if_pos (by simp)]
    · rw [hrest hu]
      simp only [List.map_cons, List.mem_cons, hu, false_or]

/-- The tokens of the object are saved as those of one more node. -/
theorem saveTokens_eq (bl : Block) (hid : bl.id = some b) {rt wt : Token}
    (hrt : bl.rtoken = some rt) (hwt : bl.wtoken = some wt) (rights : List RightsListNode) :
    midHermesLlBlockSaveTokens bl rights =
      midHermesLlBlockSaveRights b (⟨bl.user, rt, some wt⟩ :: rights) := by
  simp [midHermesLlBlockSaveTokens, midHermesLlBlockSaveRights, hid, hrt, hwt]

/-- The block of an object with an old mac takes the place of the one that is stored. -/
theorem saveData_eq_true {blk mt mac old : Bytes} (hid : bl.id = some b)
    (hblk : bl.block = some blk ∧ bl.metadata = some mt ∧ bl.mac = some mac)
    (hold : bl.oldMac = some old)
    (h : (midHermesLlBlockSaveData bl).run E.handle w = (.ok (true, bl'), w')) :
    bl' = { bl with oldMac := none } ∧ w' = w.setStored b (some ⟨blk, mt, mac⟩) := by
  obtain ⟨hblk, hmt, hmac⟩ := hblk
  simp only [midHermesLlBlockSaveData, hblk, hmt, hmac] at h
  obtain ⟨r, w₁, hr, h⟩ := Prog.run_bind_eq_ok.mp h
  simp only [hermesDataStoreSetBlock, hid, hold] at hr
  split_ifs at hr
  · cases hr
    cases h
  · rw [Prog.run_req, handle_updateBlock] at hr
    simp only [Option.getD_some] at hr
    split_ifs at hr
    · cases hr
      cases h
    · cases hs : w.stored b with
      | none =>
        rw [hs] at hr
        cases hr
        cases h
      | some s =>
        rw [hs] at hr
        dsimp only at hr
        split_ifs at hr
        · cases hr
          cases h
          exact ⟨by simp [hid, hblk, hmt, hmac], rfl⟩
        · cases hr
          cases h

/-- **A rotated object that is saved**: the block is stored, and the entries of the listed users
and of the user of the object are new. -/
theorem save_eq_true {blk mt mac : Bytes} {self : RightsListNode} (hself : self.user = bl.user)
    (hwriter : self.wtoken.isSome) (hid : bl.id = some b) (hmac : bl.mac ≠ none)
    (hmt : bl.metadata = some mt)
    (hnodup : ((self :: rights).map fun node => node.user.id).Nodup)
    (hnodes : ∀ node ∈ self :: rights, E.ListsEntry b w node)
    (h : (midHermesLlBlockSave (E.rekeyedBlock sk k kw blk mac bl)
      (rights.map (E.rekeyedNode bl.user sk k kw)) true true).run E.handle w =
        (.ok (true, bl'), w')) :
    w'.stored b = some ⟨blk, mt, mac⟩ ∧ ∀ u, w'.entry b u =
      if u ∈ (self :: rights).map fun node => node.user.id then
        (w.entry b u).map (E.rekeyed bl.user sk k kw u) else w.entry b u := by
  -- the object had a mac, so the block is replaced and not created
  obtain ⟨old, hold⟩ : ∃ old, (E.rekeyedBlock sk k kw blk mac bl).oldMac = some old := by
    rw [rekeyedBlock, ← Option.isSome_iff_exists, Option.isSome_or, Bool.or_eq_true]
    exact Or.inr (Option.isSome_iff_ne_none.mpr hmac)
  obtain ⟨⟨ok, bl₁⟩, w₁, hdata, h⟩ := Prog.run_bind_eq_ok.mp h
  cases ok with
  | false => cases h
  | true =>
    have hid' : (E.rekeyedBlock sk k kw blk mac bl).id = some b := hid
    obtain ⟨rfl, rfl⟩ := saveData_eq_true hid' ⟨rfl, hmt, rfl⟩ hold hdata
    obtain ⟨saved, w₂, htokens, h⟩ := Prog.run_bind_eq_ok.mp h
    cases h
    -- the tokens of the object are saved like those of another node
    have hlist : midHermesLlBlockSaveTokens
        { E.rekeyedBlock sk k kw blk mac bl with oldMac := none }
        (rights.map (E.rekeyedNode bl.user sk k kw)) =
        midHermesLlBlockSaveRights b ((self :: rights).map (E.rekeyedNode bl.user sk k kw)) := by
      refine (saveTokens_eq { E.rekeyedBlock sk k kw blk mac bl with oldMac := none } hid rfl rfl
        _).trans (congrArg _ ?_)
      simp [rekeyedNode, rekeyedBlock, hself, hwriter]
    rw [hlist] at htokens
    have hnodes' : ∀ node ∈ self :: rights,
        E.ListsEntry b (w.setStored b (some ⟨blk, mt, mac⟩)) node := fun node hnode =>
      (hnodes node hnode).congr rfl
    obtain ⟨hstored, hentry⟩ := saveRights_eq_true hnodup hnodes' htokens
    refine ⟨?_, hentry⟩
    rw [hstored, stored_setStored, if_pos rfl]

/-! ### The list and the rotation -/

/-- After the rights list is made, a program that succeeds does so in stores that do not fail. -/
theorem run_unlisted_ok {α : Type} {p : Client α} {a : α} {o : Option (ℕ × ℕ)}
    {s : World × Option (ℕ × ℕ)} (hp : p.Only Req.Unlisted)
    (h : p.run (E.flaky c) (w, o) = (.ok a, s)) : p.run E.handle w = (.ok a, s.1) := by
  obtain ⟨hres, hst⟩ := run_unlisted_flaky (E := E) hp c w o
  rw [h] at hres hst
  exact Prod.ext hres.symm hst.symm

theorem rotateAndSave_only (bl : Block) (rights : List RightsListNode) :
    (rotateAndSave bl rights).Only Req.Unlisted := by
  refine Prog.Only.bind ((rotate_only bl rights).mono fun _ => Req.IsThemis.unlisted) fun x => ?_
  rcases x with ⟨_ | _, bl, rights⟩
  · trivial
  · have hr := fun b tok => saveRtoken_only (C := Req.Unlisted) (fun _ _ _ _ => ⟨rfl, rfl⟩)
      (fun _ _ _ => ⟨rfl, rfl⟩) b tok
    have hw := fun b tok => saveWtoken_only (C := Req.Unlisted) (fun _ _ _ _ => ⟨rfl, rfl⟩)
      (fun _ _ _ => ⟨rfl, rfl⟩) b tok
    refine Prog.Only.bind (save_only hr hw (fun _ _ => ⟨rfl, rfl⟩) bl rights) fun y => ?_
    rcases y with ⟨_ | _, bl⟩ <;> trivial

theorem hmFail_ne_hmSuccess : hmFail ≠ hmSuccess := by decide

/-- A complete list has a node for every entry of the block but that of the caller. -/
theorem listsEntry_of_kept {caller : Bytes}
    (hpk : ∀ node ∈ rights, E.credentials node.user.id = some node.user.pk)
    (hlist : rights.map nodeHolds = othersHold (w.slice b) caller (E.userIds (w.slice b))) :
    (rights.map fun node => node.user.id) = (E.userIds (w.slice b)).filter (· ≠ caller) ∧
      ∀ node ∈ rights, E.ListsEntry b w node := by
  constructor
  · have hids := congrArg (List.map Prod.fst) hlist
    rwa [List.map_map, othersHold, List.map_map, Function.comp_def, Function.comp_def,
      List.map_id'] at hids
  · intro node hnode
    have hmem : nodeHolds node ∈ othersHold (w.slice b) caller (E.userIds (w.slice b)) :=
      hlist ▸ List.mem_map_of_mem hnode
    obtain ⟨u, hu, heq⟩ := List.mem_map.mp hmem
    obtain ⟨hid, hsome⟩ := Prod.mk.inj heq
    subst hid
    exact ⟨hpk node hnode, mem_userIds.mp (List.mem_of_mem_filter hu), hsome.symm⟩

/-- Nobody else has an entry. -/
theorem eq_or_mem_of_entry {caller u : Bytes}
    (hids : (rights.map fun node => node.user.id) =
      (E.userIds (w.slice b)).filter (· ≠ caller))
    (he : w.entry b u ≠ none) : u = caller ∨ u ∈ rights.map fun node => node.user.id := by
  rw [hids, or_iff_not_imp_left]
  intro hne
  exact List.mem_filter.mpr ⟨mem_userIds.mpr he, by simpa using hne⟩

/-- **A rotation that succeeds with a complete list** has given everybody the new keys. -/
theorem rotateAndSave_success
    (h : (rotateAndSave bl rights).run E.handle w = (.ok hmSuccess, w'))
    (hid : bl.id = some b) (hmac : bl.mac ≠ none)
    (hself : E.credentials bl.user.id = some bl.user.pk)
    (hwriter : bl.wtoken ≠ none → writeToken (w.entry b bl.user.id) ≠ none)
    (hpk : ∀ node ∈ rights, E.credentials node.user.id = some node.user.pk)
    (hlist : rights.map nodeHolds = othersHold (w.slice b) bl.user.id (E.userIds (w.slice b))) :
    ∃ sk k kw d s', bl.user.sk = some sk ∧ w'.stored b = some s' ∧
      E.Version k kw d s'.metadata s'.block s'.mac ∧
      ∀ u, w'.entry b u = (w.entry b u).map (E.rekeyed bl.user sk k kw u) := by
  obtain ⟨⟨ok, bl₁, rights₁⟩, w₁, hrotate, h⟩ := Prog.run_bind_eq_ok.mp h
  have hslice : w₁.slice b = w.slice b := by
    have hread := slice_run (E := E) ((rotate_only bl rights).mono fun _ => Req.IsThemis.reads) w b
    rwa [hrotate] at hread
  have hentry : ∀ u, w₁.entry b u = w.entry b u := fun u =>
    congrFun (congrArg Slice.entry hslice) u
  cases ok with
  | false => exact absurd (Except.ok.inj (congrArg Prod.fst h)) hmFail_ne_hmSuccess
  | true =>
    obtain ⟨sk, d, mt, hwt, hsk, hmt, rfl, rfl⟩ := rotate_eq_true hrotate
    obtain ⟨⟨saved, bl₂⟩, w₂, hsave, h⟩ := Prog.run_bind_eq_ok.mp h
    cases saved with
    | false => exact absurd (Except.ok.inj (congrArg Prod.fst h)) hmFail_ne_hmSuccess
    | true =>
      cases h
      obtain ⟨hids, hnodes⟩ := listsEntry_of_kept hpk hlist
      -- the user of the object is one more node, with a write token
      let self : RightsListNode := ⟨bl.user, E.newToken bl.user sk bl.user [],
        some (E.newToken bl.user sk bl.user [])⟩
      have hselfentry : E.ListsEntry b w self := by
        have hw := hwriter hwt
        refine ⟨hself, fun he => hw (by rw [he]; rfl), ?_⟩
        exact (Option.isSome_iff_ne_none.mpr hw).symm
      have hnodup : ((self :: rights).map fun node => node.user.id).Nodup := by
        rw [List.map_cons, hids]
        exact List.nodup_cons.mpr ⟨by simp [self], nodup_userIds.filter _⟩
      have hall : ∀ node ∈ self :: rights, E.ListsEntry b w₁ node := fun node hnode => by
        rcases List.mem_cons.mp hnode with rfl | hnode
        · exact hselfentry.congr (hentry _)
        · exact (hnodes node hnode).congr (hentry _)
      have huser : self.user = bl.user := rfl
      obtain ⟨hstored, hnew⟩ := save_eq_true huser rfl hid hmac hmt hnodup hall hsave
      refine ⟨sk, _, _, d, _, hsk, hstored, ⟨rfl, rfl⟩, fun u => ?_⟩
      rw [hnew u, hentry u]
      split_ifs with hu
      · rfl
      · have hnone : w.entry b u = none := by
          by_contra he
          exact hu (List.mem_cons.mpr (eq_or_mem_of_entry hids he))
        rw [hnone, Option.map_none]

/-- **With a list that can be relied on nobody is left out.** -/
theorem nobodyLeftOut {fuel : ℕ} (hb : b ≠ []) {u : Bytes} (hu : w.entry b u ≠ none)
    (hfuel : (w.keys b).keys.length ≤ fuel) (hreg : E.Registered user)
    (hc : E.Reliable c (w.slice b) user.id) : E.NobodyLeftOut fuel user b c w := by
  intro s h
  rw [midHermesRotateBlock_eq, if_neg hb] at h
  obtain ⟨r, s₁, hload, h⟩ := Prog.run_bind_eq_ok.mp h
  match r, h with
  | none, h => exact absurd (Except.ok.inj (congrArg Prod.fst h)) hmFail_ne_hmSuccess
  | some bl, h =>
    rw [run_load_flaky, Prod.mk.injEq] at hload
    obtain ⟨hres, rfl⟩ := hload
    -- loading changes nothing in the stores
    have hread := slice_run (E := E)
      (p := midHermesLlBlockLoad (midHermesLlBlockCreateEmpty user) b)
      (load_only trivial trivial (fun _ => trivial) trivial (.of_themis fun _ => trivial)
        (fun _ _ => trivial) fun _ _ _ => trivial) w b
    obtain ⟨rfl, hid, hwriter⟩ := load_eq_some (Prod.ext hres rfl)
    generalize ((midHermesLlBlockLoad (midHermesLlBlockCreateEmpty bl.user) b).run E.handle w).2 =
      w₁ at hread h
    have hentry : ∀ u, w₁.entry b u = w.entry b u := fun u =>
      congrFun (congrArg Slice.entry hread) u
    obtain ⟨r, s₂, hrights, h⟩ := Prog.run_bind_eq_ok.mp h
    match r, h with
    | none, h => exact absurd (Except.ok.inj (congrArg Prod.fst h)) hmFail_ne_hmSuccess
    | some rights, h =>
      -- a rights list is made for an object with a mac only
      have hmac : bl.mac ≠ none := by
        intro hmac
        unfold midHermesLlBlockAccessRights at hrights
        rw [hid, hmac] at hrights
        cases hrights
      have hlen : (w₁.keys b).keys.length ≤ fuel := by
        rwa [show w₁.keys b = w.keys b from congrArg Slice.users hread]
      obtain ⟨o, hrun⟩ := run_accessRights (E := E) hb hid hmac (u := u) (by rwa [hentry]) hlen c
      rw [hrun, hc.1, Prod.mk.injEq] at hrights
      obtain ⟨hrights, rfl⟩ := hrights
      have hrights := Except.ok.inj hrights
      obtain ⟨sk, k, kw, d, s', hsk, hstored, hversion, hnew⟩ := rotateAndSave_success
        (run_unlisted_ok (rotateAndSave_only bl rights) h) hid hmac hreg.pk_eq
        (fun hwt => by rw [hentry]; exact hwriter hwt)
        (fun node hnode => credentials_of_mem_loadedRights hrights hnode)
        (by rw [hread] at hrights ⊢; exact hc.map_loadedRights hrights)
      refine ⟨sk, k, kw, d, s', hsk, hstored, hversion, fun u => ?_⟩
      rw [hnew u, hentry u]

/-- **When a failure is not taken for missing rights**: the list is `NULL` or complete exactly
if it can be relied on (or the object has no mac, and `NULL` is returned at once); and a
rotation with such a list leaves nobody out. -/
theorem accessRights_kept_iff {fuel : ℕ} (hb : b ≠ []) (hid : bl.id = some b) {u : Bytes}
    (hu : w.entry b u ≠ none) (hfuel : (w.keys b).keys.length ≤ fuel) (c : Choice) :
    (E.Kept (w.slice b) bl.user.id
        ((midHermesLlBlockAccessRights fuel bl).run (E.flaky c) (w, none)).1 ↔
      bl.mac = none ∨ E.Reliable c (w.slice b) bl.user.id) ∧
    ∀ user, E.Registered user → E.Reliable c (w.slice b) user.id →
      E.NobodyLeftOut fuel user b c w :=
  ⟨kept_iff hb hid hu hfuel c, fun _ hreg hc => nobodyLeftOut hb hu hfuel hreg hc⟩

/-- Bob, if no request fails. -/
theorem accessRights_kept_iff_sharing :
    (demoEnv.Kept (sharing.state.slice [9]) bob.id ((midHermesLlBlockAccessRights 8
        (loadedObject bob)).run (demoEnv.flaky noFailure) (sharing.state, none)).1 ↔
      (loadedObject bob).mac = none ∨
        demoEnv.Reliable noFailure (sharing.state.slice [9]) bob.id) ∧
    ∀ user, demoEnv.Registered user →
      demoEnv.Reliable noFailure (sharing.state.slice [9]) user.id →
      demoEnv.NobodyLeftOut 8 user [9] noFailure sharing.state :=
  @accessRights_kept_iff demoEnv sharing.state [9] (loadedObject bob) 8 (by decide) rfl [1]
    (by decide +kernel) (by decide +kernel) noFailure

/-- Bob, if the request for the second user fails: he gets an empty list, and if he rotates
the block, he is told of a success, and Alice has the tokens of the old keys. -/
theorem accessRights_not_kept :
    ¬demoEnv.Kept (sharing.state.slice [9]) bob.id ((midHermesLlBlockAccessRights 8
        (loadedObject bob)).run (demoEnv.flaky secondUserFails) (sharing.state, none)).1 ∧
      ¬demoEnv.NobodyLeftOut 8 bob [9] secondUserFails sharing.state := by
  refine ⟨by decide +kernel, fun h => ?_⟩
  have hrun : ((midHermesRotateBlock 8 bob [9]).run (demoEnv.flaky secondUserFails)
        (sharing.state, none)).1 = .ok hmSuccess ∧
      ((((midHermesRotateBlock 8 bob [9]).run (demoEnv.flaky secondUserFails)
        (sharing.state, none)).2.1.entry [9] alice.id).map fun e => e.rtokenOwner) =
        some alice.id := by
    decide +kernel
  unfold NobodyLeftOut at h
  generalize (midHermesRotateBlock 8 bob [9]).run (demoEnv.flaky secondUserFails)
    (sharing.state, none) = x at h hrun
  obtain ⟨hsuccess, hold⟩ := hrun
  obtain ⟨sk, k, kw, d, s', -, -, -, hentry⟩ := h x.2 (Prod.ext hsuccess rfl)
  -- her token is still one that she has made herself
  rw [hentry alice.id, Option.map_map] at hold
  obtain ⟨e, -, howner⟩ := Option.map_eq_some_iff.mp hold
  have howner : bob.id = alice.id := howner
  exact absurd howner (by decide)

end Env

end Hermes

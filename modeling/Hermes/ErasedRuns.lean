import Hermes.Erasure
import Hermes.Footprint

/-!
# Calls one after the other, without cryptography

The main result is `Hermes.Env.erased`: from any state that honest clients have reached, by
whatever interleaving, calls that are executed one after the other return what
`Hermes.Ledger.perform` says, and leave the stores it says.

Three things come together. An operation on a block does what the ledger says
(`Hermes.Env.Shows.does_update` and its like); it leaves all other blocks alone
(`Hermes.Env.run_elsewhere`); and a creation, which has no block to start from, draws keys that no
token wraps yet (`Hermes.Env.Reachable.tokensDrawn`).
-/

namespace Hermes

open Interleave

namespace Env

variable {E : Env} {allowed : Call → Prop}

/-! ### Other blocks -/

/-- What the stores have for a block. -/
def SameAt (b : Bytes) (w w' : World) : Prop :=
  (∀ u, w'.entry b u = w.entry b u) ∧ w'.stored b = w.stored b

theorem SameAt.trans {b : Bytes} {w w' w'' : World} (h : SameAt b w w') (h' : SameAt b w' w'') :
    SameAt b w w'' :=
  ⟨fun u => (h'.1 u).trans (h.1 u), h'.2.trans h.2⟩

/-- **A request of a call about one block leaves the others alone.** -/
theorem sameAt_handle {w : World} {c : Call} {h : Hist} {r : Req} {b b' : Bytes}
    (hJ : E.Justified c h r) (hc : c.op.blockId = some b') (hne : b ≠ b') :
    SameAt b w (E.handle w r).2 := by
  have hslice : (E.handle w r).2.slice b = w.slice b := slice_of_justified_ne hJ hc hne
  exact ⟨fun u => congrArg (fun v => Slice.entry v u) hslice, congrArg Slice.stored hslice⟩

/-- **A call about one block leaves the others alone.** -/
theorem run_elsewhere {c : Call} (hreg : E.Registered c.user) (fuel : ℕ) (w : World) {b b' : Bytes}
    (hc : c.op.blockId = some b') (hne : b ≠ b') :
    SameAt b w ((c.prog fuel).run E.handle w).2 :=
  (asks_prog hreg fuel).run_invariant (sound_handle E) (I := fun _ w' => SameAt b w w') w
    ⟨fun _ => rfl, rfl⟩ fun _ _ _ hJ hI => hI.trans (sameAt_handle hJ hc hne)

/-! ### What tokens wrap -/

/-- Whatever a token wraps was drawn. -/
def WrapsDrawn (E : Env) (P : Clients) (tok : Bytes) : Prop :=
  ∀ sk pk k, tok = E.themis.wrap sk pk k → k ∈ drawnKeys P

/-- **All tokens wrap keys that were drawn**: those that are stored, and those that were read. -/
structure TokensDrawn (E : Env) (P : Clients) : Prop where
  token : ∀ {isUpdate b u x}, (P.state.slice b).token isUpdate u = some x → E.WrapsDrawn P x.1
  got : ∀ t ∈ P.threads, ∀ {isUpdate b u x}, GotToken t.hist isUpdate b u x → E.WrapsDrawn P x.1

theorem WrapsDrawn.mono {P P' : Clients} {tok : Bytes} (h : E.WrapsDrawn P tok)
    (hP : Extends P P') : E.WrapsDrawn P' tok :=
  fun sk pk k hk => mem_drawnKeys_mono hP (h sk pk k hk)

/-- A token that is saved wraps a key that was drawn, or is one that was read. -/
theorem TokensDrawn.of_saves {P : Clients} (hP : E.TokensDrawn P) {t : ClientThread}
    (ht : t ∈ P.threads) {isUpdate : Bool} {b u o tok : Bytes}
    (hs : E.Saves t.call t.hist isUpdate b u o tok) : E.WrapsDrawn P tok := by
  have hwrap : ∀ {sk pk k : Bytes}, k ∈ drawnKeys P → E.WrapsDrawn P (E.themis.wrap sk pk k) :=
    fun hk sk' pk' k' heq => (E.themis.wrap_inj heq).2.2 ▸ hk
  have hkey : ∀ {k kw : Bytes}, Drew t.hist 0 k → Drew t.hist 1 kw →
      keyFor isUpdate k kw ∈ drawnKeys P := by
    intro k kw hk hkw
    cases isUpdate
    · exact mem_drawnKeys_of_drew ht hk
    · exact mem_drawnKeys_of_drew ht hkw
  rcases hs.cases with ⟨id, d, mt, -, -, -, -, k, kw, blk, mac, sk, -, -, hk, hkw, -, rfl⟩ |
    ⟨d, mt, -, -, hg, -⟩ | ⟨-, -, -, k, kw, d, blk, mt, mac, old, sk, pk, -, -, hk, hkw, -, -, -,
    rfl⟩ | ⟨-, -, k, sk, pk, ⟨x, hx, sk', pk', -, -, hun⟩, -, -, -, rfl⟩
  · exact hwrap (hkey hk hkw)
  · exact hP.got t ht hg
  · exact hwrap (hkey hk hkw)
  · -- the key that is granted was in a token
    obtain ⟨a, -, hx'⟩ := E.themis.wrap_of_unwrap hun
    exact hwrap (hP.got t ht hx _ _ _ hx')

/-- **In every reachable pool all tokens wrap keys that were drawn.** -/
theorem Reachable.tokensDrawn {P : Clients} (hP : E.Reachable allowed P) : E.TokensDrawn P := by
  refine hP.invariant (I := E.TokensDrawn) (fun rands => ?_) (fun P c fuel hI _ _ => ?_)
    fun P i c h r k hhonest hI hi => ?_
  · exact ⟨fun {isUpdate b u x} hx => (by cases isUpdate <;> cases hx), fun t ht => by simp at ht⟩
  · have hext : Extends P (P.spawn c (c.prog fuel)) := fun t ht =>
      ⟨t, System.mem_spawn.mpr (Or.inl ht), rfl, List.suffix_refl _⟩
    refine ⟨fun hx => (hI.token hx).mono hext, fun t ht {isUpdate b u x} hx => ?_⟩
    rcases System.mem_spawn.mp ht with ht | rfl
    · exact (hI.got t ht hx).mono hext
    · exact (not_gotToken_nil hx).elim
  · have hmem := List.mem_of_getElem? hi
    have hext : Extends P (P.answered i (E.answeredThread P.state c h r k)
      (E.handle P.state r).2) :=
      extends_of_step (S := E.honest fun _ => True) (.request hi rfl)
    refine ⟨fun {isUpdate b u x} hx => WrapsDrawn.mono ?_ hext,
      fun t ht {isUpdate b u x} hx => WrapsDrawn.mono ?_ hext⟩
    · rcases token_handle hx with hx | rfl
      · exact hI.token hx
      · exact hI.of_saves hmem (justified_setToken.mp (hhonest _ hmem).justified)
    · rcases System.mem_answered ht with rfl | ht
      · rcases token_of_got hx with hold | ⟨rfl, e, he, rfl⟩ | ⟨rfl, hw⟩
        · exact hI.got _ hmem hold
        · have hread : (P.state.slice b).token false u = some (e.rtoken, e.rtokenOwner) :=
            Option.map_eq_some_iff.mpr ⟨e, he, rfl⟩
          exact hI.token hread
        · have hwrite : (P.state.slice b).token true u = some x := hw
          exact hI.token hwrite
      · exact hI.got t ht hx

/-! ### Creating -/

variable {user : User} {w : World} {b : Bytes}

/-- A new block object can always be made. -/
theorem does_newObject (hreg : E.Registered user) {id : Option Bytes} {d mt : Bytes} (hd : d ≠ [])
    {v : Slice} : E.Does b (midHermesLlBlockCreate user id d mt none none) v []
      fun x _ _ => ∃ bl, x = .ok (some bl) := by
  obtain ⟨sk, -, hsk, -⟩ := hreg.sk_eq
  simp only [midHermesLlBlockCreate, midHermesLlBlockInit, midHermesLlBlockInitTokens,
    Prog.bind_assoc, midHermesLlBlockCreateEmpty]
  refine does_tokenGenerate hreg hsk tokensFrom_nil fun k h₁ hk hh₁ => ?_
  refine does_tokenGenerate hreg hsk hh₁ fun kw h₂ hkw _ => ?_
  simp only [Option.isNone_some, Bool.or_self, Bool.false_eq_true, if_false, Prog.pure_eq,
    Prog.ret_bind, midHermesLlBlockInitData, Option.none_or, midHermesLlTokenGetDataOf,
    Prog.bind_assoc, Option.isSome_none]
  refine (computes_getData hreg (holdsKey_newToken hreg hsk hk)).does fun l₁ _ => ?_
  simp only [Prog.bind_assoc]
  refine (computes_encrypt hk hd).does fun l₂ _ => ?_
  simp only [Prog.ret_bind, midHermesLlBlockInitMac, Option.isSome_some, Bool.or_true, if_true,
    Option.none_or, midHermesLlTokenGetDataOf, Prog.bind_assoc]
  refine (computes_getData hreg (holdsKey_newToken hreg hsk hkw)).does fun l₃ _ => ?_
  simp only [Prog.bind_assoc]
  refine (computes_macCreate hkw hd).does fun l₄ _ => ?_
  exact ⟨_, rfl⟩

/-- Cryptography leaves the stores alone. -/
theorem stores_run {α : Type} {p : Client α} (hp : p.Only Req.IsThemis) (w : World) :
    (p.run E.handle w).2.keys = w.keys ∧ (p.run E.handle w).2.data = w.data := by
  refine (hp.run_eq E.handle E.handle id (I := fun w' => w'.keys = w.keys ∧ w'.data = w.data)
    (fun w' r hw' hr => ⟨rfl, rfl, ?_⟩) w ⟨rfl, rfl⟩).2.2
  cases r with
  | themis r => exact hw'
  | ks r => exact hr.elim
  | ds r => exact hr.elim
  | getPubKeyById id => exact hr.elim

/-- **A new block object**: it is made with two keys that were drawn, and the stores do not
change. -/
theorem run_blockCreate (hreg : E.Registered user) (id : Option Bytes) {d : Bytes} (hd : d ≠ [])
    (mt : Bytes) (w : World) : ∃ bl w',
      (midHermesLlBlockCreate user id d mt none none).run E.handle w = (.ok (some bl), w') ∧
        w'.keys = w.keys ∧ w'.data = w.data ∧
          E.IsNew ((midHermesLlBlockCreate user id d mt none none).events E.handle w []) user id d
            mt bl := by
  have hdoes : E.Does [] (midHermesLlBlockCreate user id d mt none none) (w.slice []) []
      fun x _ _ => ∃ bl, x = .ok (some bl) := does_newObject hreg hd
  obtain ⟨bl, hbl⟩ := hdoes.run
  have honly : (midHermesLlBlockCreate user id d mt none none).Only Req.IsThemis := blockCreate_only
  obtain ⟨hkeys, hdata⟩ := stores_run (E := E) honly w
  have hasks := (asks_blockCreate (E := E) (c := ⟨user, .createBlock id d mt⟩) (h := []) rfl rfl
    rfl).events (sound_handle E) trivial w
  exact ⟨bl, _, Prod.ext hbl rfl, hkeys, hdata, hasks.2 (some bl) _ (Prod.ext hbl rfl) bl rfl⟩

/-- The data part of a new block is saved, if nothing is stored under its id. -/
theorem run_saveData_new (user : User) {id : Option Bytes} {blk mt mac : Bytes} (d : Bytes)
    (rt wt : Option Token) (hblk : blk ≠ []) (hmt : mt ≠ []) (hmac : mac ≠ []) 
    (hid : id.getD (w.data.freshId E.ids) = b) (hb : b ≠ []) (hfree : w.stored b = none) :
    ∃ w', (midHermesLlBlockSaveData
        ⟨user, id, some blk, some d, some mt, none, some mac, rt, wt⟩).run E.handle w =
      (.ok (true, ⟨user, some b, some blk, some d, some mt, none, some mac, rt, wt⟩), w') ∧
      w'.entry = w.entry ∧
      ∀ b', w'.stored b' = if b' = b then some ⟨blk, mt, mac⟩ else w.stored b' := by
  have hne : ¬(blk = [] ∨ mt = [] ∨ mac = []) := by tauto
  subst hid
  cases id with
  | none =>
    refine ⟨(w.setStored (w.data.freshId E.ids) (some ⟨blk, mt, mac⟩)).invent, ?_, rfl,
      fun b' => stored_setStored _ _ b'⟩
    simp only [midHermesLlBlockSaveData, hermesDataStoreSetBlock, if_neg hne, Prog.req_bind,
      Prog.run_req, handle_createBlock]
    rfl
  | some id =>
    have hne' : ¬(blk = [] ∨ mt = [] ∨ mac = [] ∨ id = []) := by
      rw [Option.getD_some] at hb
      tauto
    rw [Option.getD_some] at hfree
    refine ⟨w.setStored id (some ⟨blk, mt, mac⟩), ?_, rfl, fun b' => stored_setStored _ _ b'⟩
    simp only [midHermesLlBlockSaveData, hermesDataStoreSetBlock, if_neg hne, Prog.req_bind,
      Prog.run_req, handle_createBlockWithId, if_neg hne', hfree]
    rfl

/-- It is not saved otherwise. -/
theorem run_saveData_taken (user : User) {id : Option Bytes} (blk d mt mac : Bytes)
    (rt wt : Option Token) (hid : id.getD (w.data.freshId E.ids) = b)
    (htaken : b = [] ∨ w.stored b ≠ none) :
    (midHermesLlBlockSaveData
      ⟨user, id, some blk, some d, some mt, none, some mac, rt, wt⟩).run E.handle w =
      (.ok (false, ⟨user, id, some blk, some d, some mt, none, some mac, rt, wt⟩), w) := by
  subst hid
  cases id with
  | none =>
    rcases htaken with h0 | hs
    · exact absurd h0 (E.ids.pick_ne_nil _ _)
    · exact absurd DataDb.stored_freshId hs
  | some id =>
    simp only [midHermesLlBlockSaveData, hermesDataStoreSetBlock]
    split_ifs with hne
    · rfl
    simp only [Prog.req_bind, Prog.run_req, handle_createBlockWithId]
    rw [Option.getD_some] at htaken
    split_ifs with hne'
    · rfl
    cases hs : w.stored id with
    | none =>
      rcases htaken with h0 | hs'
      · exact absurd (Or.inr (Or.inr (Or.inr h0))) hne'
      · exact absurd hs hs'
    | some s => rfl

/-- The tokens of a new block are saved. -/
theorem run_saveTokens_new (user : User) (blk d mt old mac : Option Bytes) {rt wt : Bytes}
    (hb : b ≠ []) (hrt : rt ≠ []) (hwt : wt ≠ []) (w : World) :
    ∃ w', (midHermesLlBlockSaveTokens
        ⟨user, some b, blk, d, mt, old, mac, some ⟨user, user, rt⟩, some ⟨user, user, wt⟩⟩
        []).run E.handle w = (.ok true, w') ∧ w'.stored = w.stored ∧
      ∀ b' u', w'.entry b' u' = if b' = b ∧ u' = user.id then
        some ⟨rt, user.id, some (wt, user.id)⟩ else w.entry b' u' := by
  have hu := user.id_ne_nil
  have hne : ¬(user.id = [] ∨ b = []) := by tauto
  have hne' : ∀ {t : Bytes}, t ≠ [] → ¬(b = [] ∨ user.id = [] ∨ user.id = [] ∨ t = []) := by tauto
  let w₁ := w.setEntry b user.id (some ⟨rt, user.id, writeToken (w.entry b user.id)⟩)
  have hw₁ : w₁.entry b user.id = some ⟨rt, user.id, writeToken (w.entry b user.id)⟩ := by
    rw [entry_setEntry, if_pos ⟨rfl, rfl⟩]
  refine ⟨w₁.setEntry b user.id (some ⟨rt, user.id, some (wt, user.id)⟩), ?_, rfl, fun b' u' => ?_⟩
  · have hset : E.handle w₁ (.ks (.setWtoken b user.id user.id wt)) =
        (.ok (), w₁.setEntry b user.id (some ⟨rt, user.id, some (wt, user.id)⟩)) := by
      rw [handle_setWtoken, if_neg (hne' hwt), if_neg fun h0 => h0.1 rfl, hw₁]
    simp only [midHermesLlBlockSaveTokens, midHermesLlRtokenSave, midHermesLlWtokenSave,
      Option.getD_some, hermesKeyStoreSetRtoken, hermesKeyStoreSetWtoken, if_neg hne, if_pos hrt,
      if_pos hwt, Prog.req_bind, Prog.run_req, handle_setRtoken, if_neg (hne' hrt), ne_eq,
      not_true_eq_false, false_and, if_false, Prog.ret_bind]
    rw [hset]
    rfl
  · rw [entry_setEntry]
    split_ifs with h0
    · rfl
    · rw [entry_setEntry, if_neg h0]

/-- What a creation leaves: the block under the id, sealed under two keys, with tokens of them for
its user. -/
structure NewBlock (E : Env) (user : User) (b d mt k kw : Bytes) (w w' : World) : Prop where
  stored : ∀ b', w'.stored b' = if b' = b then
    some ⟨E.themis.encryptSeal k mt d, mt, E.themis.hmac kw [d, mt]⟩ else w.stored b'
  entry : ∃ sk, user.sk = some sk ∧ ∀ b' u', w'.entry b' u' = if b' = b ∧ u' = user.id then
    some ⟨E.themis.wrap sk user.pk k, user.id, some (E.themis.wrap sk user.pk kw, user.id)⟩
    else w.entry b' u'

/-- **A creation** under an id that is free. -/
theorem run_createBlock (hreg : E.Registered user) {id : Option Bytes} {d mt : Bytes} (hd : d ≠ [])
    (hmt : mt ≠ []) (hid : id.getD (w.data.freshId E.ids) = b) (hb : b ≠ [])
    (hfree : w.stored b = none) :
    ∃ w' k kw, (midHermesCreateBlock user id d mt).run E.handle w = (.ok (hmSuccess, some b), w') ∧
      Drew ((midHermesCreateBlock user id d mt).events E.handle w []) 0 k ∧
      Drew ((midHermesCreateBlock user id d mt).events E.handle w []) 1 kw ∧
      E.NewBlock user b d mt k kw w w' := by
  obtain ⟨bl, w₀, hcreate, hkeys, hdata, k, kw, rt, wt, ⟨hk, sk, hsk, rfl⟩, ⟨hkw, sk', hsk', rfl⟩,
    rfl⟩ := run_blockCreate hreg id hd mt w
  cases hsk.symm.trans hsk'
  have hstored₀ : w₀.stored = w.stored := congrArg DataDb.stored hdata
  have hentry₀ : w₀.entry = w.entry := congrArg KeyDb.entry hkeys
  obtain ⟨w₁, hrun₁, hentry₁, hstored₁⟩ := run_saveData_new (E := E) (w := w₀) user d
    (some ⟨user, user, E.themis.wrap sk user.pk k⟩) (some ⟨user, user, E.themis.wrap sk user.pk kw⟩)
    (E.themis.encryptSeal_ne_nil k mt d) hmt (E.themis.hmac_ne_nil kw [d, mt]) (hdata ▸ hid) hb
    (by rw [hstored₀]; exact hfree)
  obtain ⟨w₂, hrun₂, hstored₂, hentry₂⟩ := run_saveTokens_new (E := E) user
    (some (E.themis.encryptSeal k mt d)) (some d) (some mt) none (some (E.themis.hmac kw [d, mt]))
    hb (E.themis.wrap_ne_nil sk user.pk k)
    (E.themis.wrap_ne_nil sk user.pk kw) w₁
  -- the call is these three runs, one after the other
  have hne : ¬(d = [] ∨ mt = []) := by tauto
  refine ⟨w₂, k, kw, ?_, ?_, ?_, ⟨fun b' => ?_, sk, hsk, fun b' u' => ?_⟩⟩
  · unfold midHermesCreateBlock midHermesLlBlockSave
    rw [if_neg hne, Prog.run_bind_of_ok hcreate]
    simp only [Bool.not_true, Bool.and_self, Bool.false_eq_true, if_false, if_true, Prog.bind_assoc]
    rw [Prog.run_bind_of_ok hrun₁]
    simp only [Bool.not_true, Bool.false_eq_true, if_false, Prog.bind_assoc]
    rw [Prog.run_bind_of_ok hrun₂]
    subst hid
    cases id <;> rfl
  · unfold midHermesCreateBlock
    rw [if_neg hne]
    exact hk.mono (Prog.suffix_events_bind _ _ _ _)
  · unfold midHermesCreateBlock
    rw [if_neg hne]
    exact hkw.mono (Prog.suffix_events_bind _ _ _ _)
  · rw [hstored₂, hstored₁, hstored₀]
  · rw [hentry₂, hentry₁, hentry₀]

/-- A creation under an id that is taken, or none, fails. -/
theorem run_createBlock_taken (hreg : E.Registered user) {id : Option Bytes} {d mt : Bytes}
    (hd : d ≠ []) (hmt : mt ≠ []) (hid : id.getD (w.data.freshId E.ids) = b)
    (htaken : b = [] ∨ w.stored b ≠ none) :
    ∃ w', (midHermesCreateBlock user id d mt).run E.handle w = (.ok (hmFail, id), w') ∧
      w'.keys = w.keys ∧ w'.data = w.data := by
  obtain ⟨bl, w₀, hcreate, hkeys, hdata, k, kw, rt, wt, -, -, rfl⟩ :=
    run_blockCreate hreg id hd mt w
  have htaken₀ : b = [] ∨ w₀.stored b ≠ none := by
    rwa [show w₀.stored b = w.stored b from congrArg (fun s => DataDb.stored s b) hdata]
  have hrun := run_saveData_taken (E := E) (w := w₀) user (E.themis.encryptSeal k mt d) d mt
    (E.themis.hmac kw [d, mt]) (some rt) (some wt) (hdata ▸ hid) htaken₀
  refine ⟨w₀, ?_, hkeys, hdata⟩
  unfold midHermesCreateBlock midHermesLlBlockSave
  rw [if_neg (by tauto), Prog.run_bind_of_ok hcreate]
  simp only [Bool.not_true, Bool.and_self, Bool.false_eq_true, if_false, if_true, Prog.bind_assoc]
  rw [Prog.run_bind_of_ok hrun]
  rfl

/-- A block that was created, with tokens left of an earlier one that are not to it: what the
ledger says. -/
theorem Shows.create {v v' : Slice} {D : Doc} {sk k kw d : Bytes} {s : StoredBlock}
    (hD : E.Shows v D) (hreg : E.Registered user) (hsk : user.sk = some sk)
    (hsealed : E.Sealed k kw d s) (hstored : v'.stored = some s)
    (hentry : ∀ u, v'.entry u = if u = user.id then
      some ⟨E.themis.wrap sk user.pk k, user.id, some (E.themis.wrap sk user.pk kw, user.id)⟩
      else v.entry u)
    (hold : ∀ isUpdate u x, v.token isUpdate u = some x → ¬E.ToStored (some s) isUpdate u x) :
    E.Shows v' (D.createBlock user.id d s.metadata) where
  content {d₁ mt₁} := by
    rw [hstored]
    constructor
    · intro heq
      cases heq
      exact ⟨s, k, kw, rfl, hsealed, rfl⟩
    · rintro ⟨s₁, k₁, kw₁, hs₁, hsealed₁, rfl⟩
      cases hs₁
      rw [(hsealed.unique hsealed₁).2.2]
      rfl
  right u := by
    rw [hstored, hentry, Doc.createBlock]
    split_ifs with hu
    · subst hu
      rw [AList.lookup_insert]
      have hfits : ∀ isUpdate, E.ShowsGrant (some s) isUpdate user.id
          (E.themis.wrap sk user.pk (keyFor isUpdate k kw), user.id) ⟨user.id, true⟩ := by
        intro isUpdate
        have hfor := tokenFor_wrap hreg hsk hreg.pk_eq user.pk_ne_nil
          (k := keyFor isUpdate k kw) (keyFor_ne_nil hsealed.key_ne hsealed.mac_key_ne)
        exact ⟨rfl, fun _ => ⟨s, k, kw, d, rfl, hsealed, hfor⟩, fun _ => rfl⟩
      exact .some ⟨hfits false, .some (hfits true)⟩
    · rw [AList.lookup_insert_ne hu, Doc.lookup_mapRights]
      have hright := hD.right u
      -- what others still have does not fit the new block
      have hstale : ∀ e, v.entry u = some e → ∀ isUpdate x,
          (if isUpdate then e.wtoken else some (e.rtoken, e.rtokenOwner)) = some x →
            ¬E.ToStored (some s) isUpdate u x := by
        intro e he isUpdate x hx
        refine hold isUpdate u x ?_
        rw [Slice.token, he]
        cases isUpdate with
        | false => exact hx
        | true => exact hx
      generalize v.entry u = o at hright hstale ⊢
      generalize D.rights.lookup u = o' at hright ⊢
      cases hright with
      | none => exact .none
      | some hr => exact .some (hr.stale (hstale _ rfl))

/-! ### One call -/

/-- The stores show a ledger: every block does. -/
def ShowsLedger (E : Env) (w : World) (L : Ledger) : Prop := ∀ b, E.Shows (w.slice b) (L b)

variable {L : Ledger} {c : Call} {fuel : ℕ}

/-- The stores that a call leaves show the ledger, if they do for the block it is about. -/
theorem ShowsLedger.update (hL : E.ShowsLedger w L) {w' : World} {D : Doc}
    (hother : ∀ b', b' ≠ b → SameAt b' w w') (hD : E.Shows (w'.slice b) D) :
    E.ShowsLedger w' (Function.update L b D) := by
  intro b'
  rcases eq_or_ne b' b with rfl | hne
  · rwa [Function.update_self]
  · rw [Function.update_of_ne hne]
    exact (hL b').congr (hother b' hne).2 (hother b' hne).1

/-- A status is returned as a result. -/
theorem Gives.run {g : Client HermesStatus} {p : HermesStatus × Doc}
    (h : E.Does b g (w.slice b) [] (E.Gives p)) :
    ((g >>= fun status => .ret (Result.ofStatus status)).run E.handle w).1 =
        .ok (.ofStatus p.1) ∧
      E.Shows (((g >>= fun status => .ret (Result.ofStatus status)).run E.handle w).2.slice b)
        p.2 := by
  obtain ⟨hret, hshows⟩ := h.run
  rw [Prog.run_bind_of_ok (Prod.ext hret rfl)]
  exact ⟨rfl, hshows⟩

/-- **An operation on one block**, against the ledger. -/
theorem ShowsLedger.act (hL : E.ShowsLedger w L) (hreg : E.Registered c.user)
    (hc : c.op.blockId = some b) {g : Client HermesStatus} (f : Doc → HermesStatus × Doc)
    (hprog : c.prog fuel = g >>= fun status => .ret (Result.ofStatus status))
    (h : E.Does b g (w.slice b) [] (E.Gives (f (L b)))) :
    ((c.prog fuel).run E.handle w).1 = .ok (L.act b f).1 ∧
      E.ShowsLedger ((c.prog fuel).run E.handle w).2 (L.act b f).2 := by
  have hother := fun b' hne => run_elsewhere (E := E) (b := b') hreg fuel w hc hne
  obtain ⟨hret, hshows⟩ := Gives.run h
  rw [← hprog] at hret hshows
  exact ⟨hret, hL.update hother hshows⟩

/-- A call of a pool whose call is executed at once. -/
def alone (E : Env) (fuel : ℕ) (P : Clients) (c : Call) : Clients :=
  ⟨((c.prog fuel).run E.handle P.state).2, P.threads ++
    [⟨c, (c.prog fuel).events E.handle P.state [],
      System.residue ((c.prog fuel).run E.handle P.state).1⟩]⟩

/-- What is stored is a content. -/
theorem Shows.content_eq_none_iff {v : Slice} {D : Doc} (hD : E.Shows v D)
    (hv : E.WellFormedAt v) : D.content = none ↔ v.stored = none := by
  constructor
  · intro hx
    by_contra hne
    obtain ⟨s, hs⟩ := Option.ne_none_iff_exists'.mp hne
    obtain ⟨k, kw, d, hsealed⟩ := hv.stored hs
    have hsome := hD.content.mpr ⟨s, k, kw, hs, hsealed, rfl⟩
    rw [hx] at hsome
    cases hsome
  · intro hs
    rw [Option.eq_none_iff_forall_ne_some]
    rintro ⟨d, mt⟩ hx
    obtain ⟨s, k, kw, hs', -⟩ := hD.content.mp hx
    rw [hs] at hs'
    cases hs'

/-- What a call draws when it is executed at once was not drawn before. -/
theorem notMem_drawnKeys {P : Clients} (hfresh : FreshKeys (E.alone fuel P c)) {n : ℕ} {k : Bytes}
    (hk : Drew ((c.prog fuel).events E.handle P.state []) n k) : k ∉ drawnKeys P := by
  rw [FreshKeys, drawnKeys, alone, List.flatMap_append] at hfresh
  intro hold
  refine List.disjoint_of_nodup_append hfresh hold ?_
  rw [List.flatMap_singleton]
  exact mem_of_drew hk

/-- What the call of a creation returns. -/
theorem run_callCreate {id id' : Option Bytes} {d mt : Bytes} {status : HermesStatus} {w' : World}
    (h : (midHermesCreateBlock user id d mt).run E.handle w = (.ok (status, id'), w')) :
    (Call.prog fuel ⟨user, .createBlock id d mt⟩).run E.handle w =
      (.ok ⟨status, id', none⟩, w') := Prog.run_bind_of_ok h

/-- **A creation**, against the ledger: what tokens there are of an earlier block of this id wrap
keys that were drawn before, and so not the new ones. -/
theorem ShowsLedger.create {P : Clients} (hP : E.Reachable allowed P)
    (hL : E.ShowsLedger P.state L) (hreg : E.Registered user) {id : Option Bytes} {d mt : Bytes}
    (hfresh : FreshKeys (E.alone fuel P ⟨user, .createBlock id d mt⟩)) :
    ((Call.prog fuel ⟨user, .createBlock id d mt⟩).run E.handle P.state).1 =
        .ok (L.perform E.knows (P.state.data.freshId E.ids) ⟨user, .createBlock id d mt⟩).1 ∧
      E.ShowsLedger ((Call.prog fuel ⟨user, .createBlock id d mt⟩).run E.handle P.state).2
        (L.perform E.knows (P.state.data.freshId E.ids) ⟨user, .createBlock id d mt⟩).2 := by
  simp only [Ledger.perform]
  split_ifs with hparam htaken
  · -- an argument is empty, and nothing is asked
    have hinvalid : (midHermesCreateBlock user id d mt).run E.handle P.state =
        (.ok (hmInvalidParameter, id), P.state) := by
      rw [midHermesCreateBlock, if_pos hparam, Prog.run_ret]
    rw [run_callCreate hinvalid]
    exact ⟨rfl, hL⟩
  · -- the id is taken
    obtain ⟨hd, hmt⟩ := not_or.mp hparam
    have htaken' : id.getD (P.state.data.freshId E.ids) = [] ∨
        P.state.stored (id.getD (P.state.data.freshId E.ids)) ≠ none := by
      refine htaken.imp_right fun hsome => ?_
      rw [Option.isSome_iff_ne_none] at hsome
      exact fun hs => hsome (((hL _).content_eq_none_iff (hP.wellFormed.1.at _)).mpr hs)
    obtain ⟨w', hrun, hkeys, hdata⟩ := run_createBlock_taken hreg hd hmt rfl htaken'
    rw [run_callCreate hrun]
    refine ⟨rfl, fun b => (hL b).congr ?_ fun u => ?_⟩
    · exact congrArg (fun db => DataDb.stored db b) hdata
    · exact congrArg (fun db => KeyDb.entry db b u) hkeys
  · obtain ⟨hd, hmt⟩ := not_or.mp hparam
    -- the id is free, so the new block and its two tokens are all there is of it
    obtain ⟨hb, hfree⟩ := not_or.mp htaken
    rw [Option.not_isSome_iff_eq_none, (hL _).content_eq_none_iff (hP.wellFormed.1.at _)] at hfree
    obtain ⟨w', k, kw, hrun, hk, hkw, hnew, sk, hsk, hentry⟩ :=
      run_createBlock hreg hd hmt rfl hb hfree
    have hsuffix : (midHermesCreateBlock user id d mt).events E.handle P.state [] <:+
        (Call.prog fuel ⟨user, .createBlock id d mt⟩).events E.handle P.state [] :=
      Prog.suffix_events_bind _ _ _ _
    rw [run_callCreate hrun]
    generalize id.getD (P.state.data.freshId E.ids) = b at hb hfree hnew hentry
    refine ⟨rfl, hL.update (fun b' hne => ⟨fun u => ?_, ?_⟩) ?_⟩
    · rw [hentry, if_neg fun h0 => hne h0.1]
    · rw [hnew, if_neg hne]
    · have hsealed : E.Sealed k kw d
          ⟨E.themis.encryptSeal k mt d, mt, E.themis.hmac kw [d, mt]⟩ :=
        ⟨hk.ne_nil, hkw.ne_nil, hd, hmt, rfl, rfl⟩
      refine (hL b).create hreg hsk hsealed ?_ (fun u => ?_) fun isUpdate u x hx hto => ?_
      · show w'.stored b = _
        rw [hnew, if_pos rfl]
      · show w'.entry b u = _
        rw [hentry]
        simp only [true_and]
        rfl
      · -- an entry that was left behind would wrap a key that is drawn only now
        obtain ⟨s, k', kw', d', heq, hsealed', hfor⟩ := hto
        cases heq
        obtain ⟨rfl, rfl, -⟩ := hsealed.unique hsealed'
        obtain ⟨sk', pk, -, -, -, hwrap⟩ := hfor.wrapped
        have hold := hP.tokensDrawn.token hx _ _ _ hwrap
        cases isUpdate with
        | false => exact notMem_drawnKeys hfresh (hk.mono hsuffix) hold
        | true => exact notMem_drawnKeys hfresh (hkw.mono hsuffix) hold

/-- Wrong arguments change nothing. -/
theorem ShowsLedger.refused (hL : E.ShowsLedger w L) {g : Client HermesStatus}
    {status : HermesStatus} (hg : g = .ret status)
    (hprog : c.prog fuel = g >>= fun status => .ret (Result.ofStatus status)) :
    ((c.prog fuel).run E.handle w).1 = .ok (Result.ofStatus status, L).1 ∧
      E.ShowsLedger ((c.prog fuel).run E.handle w).2 (Result.ofStatus status, L).2 := by
  rw [hprog, hg]
  exact ⟨rfl, hL⟩

/-- **A reading**, against the ledger. -/
theorem ShowsLedger.read (hL : E.ShowsLedger w L) (hreg : E.Registered user)
    (hw : E.WellFormed w) (fresh b : Bytes) :
    ((Call.prog fuel ⟨user, .readBlock b⟩).run E.handle w).1 =
        .ok (L.perform E.knows fresh ⟨user, .readBlock b⟩).1 ∧
      E.ShowsLedger ((Call.prog fuel ⟨user, .readBlock b⟩).run E.handle w).2
        (L.perform E.knows fresh ⟨user, .readBlock b⟩).2 := by
  simp only [Ledger.perform]
  split_ifs with hb
  · have hinvalid : midHermesReadBlock user b = .ret (hmInvalidParameter, none) := if_pos hb
    simp only [Call.prog, hinvalid, Prog.ret_bind]
    exact ⟨rfl, hL⟩
  · obtain ⟨hret, hslice, -⟩ := ((hL b).computes_read hreg (hw.at b) hb []).run
    have hrun : (Call.prog fuel ⟨user, .readBlock b⟩).run E.handle w = (.ok
        ⟨if ((L b).opens user.id).isSome then hmSuccess else hmFail, none, (L b).opens user.id⟩,
        ((midHermesReadBlock user b).run E.handle w).2) :=
      Prog.run_bind_of_ok (Prod.ext hret rfl)
    have hshows : E.ShowsLedger ((Call.prog fuel ⟨user, .readBlock b⟩).run E.handle w).2 L := by
      rw [← Function.update_eq_self b L]
      refine hL.update (fun b' hne => run_elsewhere hreg fuel w rfl hne) ?_
      rw [hrun, hslice]
      exact hL b
    cases hx : (L b).opens user.id with
    | none =>
      rw [hx] at hrun
      exact ⟨by rw [hrun]; rfl, hshows⟩
    | some x =>
      rw [hx] at hrun
      exact ⟨by rw [hrun]; rfl, hshows⟩

/-- **One call does what the ledger says**: it returns that result, and the stores it leaves show
that ledger. -/
theorem ShowsLedger.perform {P : Clients} (hP : E.Reachable allowed P)
    (hL : E.ShowsLedger P.state L) (hreg : E.Registered c.user)
    (hfuel : ∀ b, (P.state.keys b).keys.length ≤ fuel) (hfresh : FreshKeys (E.alone fuel P c)) :
    ((c.prog fuel).run E.handle P.state).1 =
        .ok (L.perform E.knows (P.state.data.freshId E.ids) c).1 ∧
      E.ShowsLedger ((c.prog fuel).run E.handle P.state).2
        (L.perform E.knows (P.state.data.freshId E.ids) c).2 := by
  have hv : ∀ b, E.WellFormedAt (P.state.slice b) := hP.wellFormed.1.at
  -- each operation checks its arguments, and then does to one document what the ledger says
  obtain ⟨user, op⟩ := c
  cases op with
  | createBlock id d mt => exact hL.create hP hreg hfresh
  | readBlock b => exact hL.read hreg hP.wellFormed.1 _ b
  | updateBlock b d mt =>
    simp only [Ledger.perform]
    split_ifs with hparam
    · exact hL.refused (if_pos hparam) rfl
    · exact hL.act hreg rfl (fun D => D.updateBlock user.id d mt) rfl
        ((hL b).does_update hreg (hv b) (by tauto) (by tauto) (by tauto))
  | deleteBlock b =>
    simp only [Ledger.perform]
    split_ifs with hparam
    · exact hL.refused (if_pos hparam) rfl
    · exact hL.act hreg rfl (fun D => D.deleteBlock user.id) rfl
        ((hL b).does_delete hreg (hv b) hparam (hfuel b))
  | rotateBlock b =>
    simp only [Ledger.perform]
    split_ifs with hparam
    · exact hL.refused (if_pos hparam) rfl
    · exact hL.act hreg rfl (fun D => D.rotateBlock user.id) rfl
        ((hL b).does_rotate hreg (hv b) hparam (hfuel b))
  | grantReadAccess b u =>
    simp only [Ledger.perform]
    split_ifs with hparam
    · exact hL.refused (if_pos hparam) rfl
    · exact hL.act hreg rfl (fun D => D.grantReadAccess E.knows user.id u) rfl
        ((hL b).does_grantRead hreg (hv b) (by tauto) (by tauto))
  | grantUpdateAccess b u =>
    simp only [Ledger.perform]
    split_ifs with hparam
    · exact hL.refused (if_pos hparam) rfl
    · exact hL.act hreg rfl (fun D => D.grantUpdateAccess E.knows user.id u) rfl
        ((hL b).does_grantUpdate hreg (hv b) (by tauto) (by tauto))
  | denyReadAccess b u =>
    simp only [Ledger.perform]
    split_ifs with hparam
    · exact hL.refused (if_pos hparam) rfl
    · exact hL.act hreg rfl (fun D => D.denyReadAccess E.knows user.id u) rfl
        ((hL b).does_denyRead hreg (hv b) (by tauto) (by tauto))
  | denyUpdateAccess b u =>
    simp only [Ledger.perform]
    split_ifs with hparam
    · exact hL.refused (if_pos hparam) rfl
    · exact hL.act hreg rfl (fun D => D.denyUpdateAccess E.knows user.id u) rfl
        ((hL b).does_denyUpdate hreg (hv b) (by tauto) (by tauto))

/-! ### Calls one after the other -/

/-- Such a pool is reachable. -/
theorem Reachable.alone {P : Clients} (hP : E.Reachable allowed P) (hreg : E.Registered c.user)
    (hc : allowed c) : E.Reachable allowed (E.alone fuel P c) := by
  obtain ⟨rands, hrun⟩ := hP.spawn hreg hc fuel
  have hlast : (P.spawn c (c.prog fuel)).threads[P.threads.length]? =
      some ⟨c, [], c.prog fuel⟩ := by
    simp [Pool.spawn]
  have hstay : (E.honest allowed).RunsWithin (fun _ => True) _ _ :=
    System.runsWithin_of_run honest_handle hlast fun _ _ _ => trivial
  have heq : E.alone fuel P c = (P.spawn c (c.prog fuel)).answered P.threads.length
      ⟨c, (c.prog fuel).events E.handle P.state [],
        System.residue ((c.prog fuel).run E.handle P.state).1⟩
      ((c.prog fuel).run E.handle P.state).2 := by
    simp [Env.alone, Pool.answered, Pool.spawn]
  exact ⟨rands, heq ▸ hrun.trans hstay.runs⟩

/-- The threads of calls that are executed one after the other come after those there were. -/
theorem threads_alone (fuel : ℕ) (P : Clients) (cs : List Call) :
    ∃ ts, (cs.foldl (E.alone fuel) P).threads = P.threads ++ ts := by
  induction cs generalizing P with
  | nil => exact ⟨[], (List.append_nil _).symm⟩
  | cons c cs ih =>
    obtain ⟨ts, hts⟩ := ih (E.alone fuel P c)
    exact ⟨_ :: ts, hts.trans (List.append_assoc _ _ _)⟩

/-- What is fresh in the end was fresh before. -/
theorem freshKeys_alone {P : Clients} {cs : List Call}
    (h : FreshKeys (cs.foldl (E.alone fuel) P)) : FreshKeys P := by
  obtain ⟨ts, hts⟩ := threads_alone (E := E) fuel P cs
  rw [FreshKeys, drawnKeys, hts, List.flatMap_append] at h
  exact (List.nodup_append.mp h).1

/-- Calls one after the other, against the ledger. -/
theorem ShowsLedger.performs {cs : List Call} {P : Clients} (hP : E.Reachable allowed P)
    (hL : E.ShowsLedger P.state L) (hcs : ∀ c ∈ cs, E.Registered c.user ∧ allowed c)
    (hfuel : ∀ b, (P.state.keys b).keys.length + cs.length ≤ fuel)
    (hfresh : FreshKeys (cs.foldl (E.alone fuel) P)) :
    ∃ rs L', Ledger.Performs E.knows L cs rs L' ∧
      E.ShowsLedger (cs.foldl (E.alone fuel) P).state L' ∧
      ((cs.foldl (E.alone fuel) P).threads.drop P.threads.length).map (fun t => t.prog.value?) =
        rs.map some := by
  induction cs generalizing P L with
  | nil => exact ⟨[], L, .nil, hL, by simp⟩
  | cons c cs ih =>
    obtain ⟨hreg, hc⟩ := hcs c List.mem_cons_self
    obtain ⟨hret, hL'⟩ := hL.perform hP hreg (fun b => le_trans (Nat.le_add_right _ _) (hfuel b))
      (freshKeys_alone hfresh)
    have hfuel' : ∀ b, ((E.alone fuel P c).state.keys b).keys.length + cs.length ≤ fuel := by
      intro b
      have hgrown := Ledger.length_keys_perform (L := L) E.knows (P.state.data.freshId E.ids) c b
      rw [(hL b).length_keys, (hL' b).length_keys] at hgrown
      have hbound : (P.state.slice b).users.keys.length + (cs.length + 1) ≤ fuel := hfuel b
      have hnext : (((c.prog fuel).run E.handle P.state).2.slice b).users.keys.length + cs.length ≤
          fuel := by omega
      exact hnext
    obtain ⟨rs, L', hperf, hend, hrs⟩ := ih (hP.alone hreg hc) hL'
      (fun c' hc' => hcs c' (List.mem_cons_of_mem _ hc')) hfuel' hfresh
    have hcontent : (L (P.state.data.freshId E.ids)).content = none :=
      ((hL _).content_eq_none_iff (hP.wellFormed.1.at _)).mpr DataDb.stored_freshId
    refine ⟨_, L', .cons (E.ids.pick_ne_nil _ _) hcontent hperf, hend, ?_⟩
    obtain ⟨ts, hts⟩ := threads_alone (E := E) fuel (E.alone fuel P c) cs
    rw [hts, List.drop_left] at hrs
    rw [List.foldl_cons, hts, alone, List.append_assoc, List.drop_left, List.map_append, hrs, hret]
    rfl

/-! ### The ledger of stores -/

section Classical

open Classical

variable (E)

/-- A token as a right. -/
noncomputable def grantOf (s : Option StoredBlock) (isUpdate : Bool) (u : Bytes)
    (x : Bytes × Bytes) : Grant := ⟨x.2, decide (E.ToStored s isUpdate u x)⟩

/-- An entry as the rights of its user. -/
noncomputable def rightOf (s : Option StoredBlock) (u : Bytes) (e : Entry) : Right :=
  ⟨E.grantOf s false u (e.rtoken, e.rtokenOwner), e.wtoken.map (E.grantOf s true u)⟩

/-- What is sealed in what is stored. -/
noncomputable def sealedContent (s : Option StoredBlock) : Option (Bytes × Bytes) :=
  s.bind fun s => if h : ∃ d k kw, E.Sealed k kw d s then some (h.choose, s.metadata) else none

/-- The ledger that stores show. -/
noncomputable def ledgerOf (w : World) : Ledger := fun b =>
  ⟨E.sealedContent (w.stored b), ⟨(w.keys b).entries.map (Sigma.map id (E.rightOf (w.stored b))),
    List.NodupKeys.map₂ _ _ (w.keys b).nodupKeys⟩⟩

variable {E}

theorem lookup_ledgerOf (w : World) (b u : Bytes) : (E.ledgerOf w b).rights.lookup u =
    (w.entry b u).map (E.rightOf (w.stored b) u) := List.dlookup_map₂ u

theorem showsGrant_grantOf (s : Option StoredBlock) (isUpdate : Bool) (u : Bytes)
    (x : Bytes × Bytes) : E.ShowsGrant s isUpdate u x (E.grantOf s isUpdate u x) :=
  ⟨rfl, decide_eq_true_iff⟩

/-- **All stores show a ledger.** -/
theorem showsLedger_ledgerOf (w : World) : E.ShowsLedger w (E.ledgerOf w) := by
  intro b
  refine ⟨fun {d mt} => ?_, fun u => ?_⟩
  · show E.sealedContent (w.stored b) = some (d, mt) ↔ _
    rw [sealedContent, Option.bind_eq_some_iff]
    refine exists_congr fun s => ?_
    rw [Option.dite_none_right_eq_some]
    constructor
    · rintro ⟨hs, h, heq⟩
      obtain ⟨k, kw, hsealed⟩ := h.choose_spec
      obtain ⟨hd, hmt⟩ := Prod.mk.inj (Option.some.inj heq)
      exact ⟨k, kw, hs, hd ▸ hsealed, hmt⟩
    · rintro ⟨k, kw, hs, hsealed, rfl⟩
      have h : ∃ d k kw, E.Sealed k kw d s := ⟨d, k, kw, hsealed⟩
      obtain ⟨k', kw', hsealed'⟩ := h.choose_spec
      exact ⟨hs, h, by rw [(hsealed'.unique hsealed).2.2]⟩
  · rw [lookup_ledgerOf]
    show Option.Rel _ (w.entry b u) _
    cases w.entry b u with
    | none => exact .none
    | some e =>
      refine .some ⟨showsGrant_grantOf _ _ _ _, ?_⟩
      show Option.Rel _ e.wtoken (e.wtoken.map _)
      cases e.wtoken with
      | none => exact .none
      | some x => exact .some (showsGrant_grantOf _ _ _ _)

end Classical

/-- **The cryptography can be erased.** Calls of registered users, one after the other, return what
the ledger says, whatever state honest calls have reached before and whatever keys and tokens there
are; and the stores they leave show the ledger that they say. The keys that were drawn have to
differ, and the fuel has to be enough for the users of any block. -/
theorem erased {P : Clients} (hP : E.Reachable allowed P) {cs : List Call}
    (hcs : ∀ c ∈ cs, E.Registered c.user ∧ allowed c)
    (hfuel : ∀ b, (P.state.keys b).keys.length + cs.length ≤ fuel)
    (hfresh : FreshKeys (cs.foldl (E.alone fuel) P)) :
    (∃ L, E.ShowsLedger P.state L) ∧
      ∀ L, E.ShowsLedger P.state L → ∃ rs L', Ledger.Performs E.knows L cs rs L' ∧
        E.ShowsLedger (cs.foldl (E.alone fuel) P).state L' ∧
        ((cs.foldl (E.alone fuel) P).threads.drop P.threads.length).map (fun t => t.prog.value?) =
          rs.map some :=
  ⟨⟨_, showsLedger_ledgerOf _⟩, fun _ hL => hL.performs hP hcs hfuel hfresh⟩

end Env

/-- Alice lets Bob read a block, updates it and rotates it, all at the same time; the rotation is
still under way. -/
def overlapped : Clients :=
  demoPlay (Move.oneByOne 13 [⟨alice, .createBlock (some [9]) [1] [2]⟩] 0 ++
    Move.inTurns 18 [⟨alice, .grantReadAccess [9] bob.id⟩, ⟨alice, .updateBlock [9] [3] [4]⟩,
      ⟨alice, .rotateBlock [9]⟩] 1)

theorem reachable_overlapped :
    demoEnv.Reachable (fun c => c.op.blockId = some [9]) overlapped := by
  refine Env.reachable_play fun c hc => ?_
  rw [Move.starts_append, Move.starts_oneByOne, Move.starts_inTurns] at hc
  simp only [List.cons_append, List.nil_append, List.mem_cons, List.not_mem_nil, or_false] at hc
  rcases hc with rfl | rfl | rfl | rfl <;> exact ⟨registered_alice, rfl⟩

/-- Then Bob reads the block and is let write it, which he does; Alice rotates it again and denies
him, and creates it again after its deletion; Bob tries to read it. -/
def demoCalls : List Call :=
  [⟨bob, .readBlock [9]⟩, ⟨alice, .grantUpdateAccess [9] bob.id⟩, ⟨bob, .updateBlock [9] [5] [6]⟩,
    ⟨alice, .rotateBlock [9]⟩, ⟨alice, .denyUpdateAccess [9] bob.id⟩, ⟨alice, .deleteBlock [9]⟩,
    ⟨alice, .createBlock (some [9]) [7] [8]⟩, ⟨bob, .readBlock [9]⟩]

theorem Env.erased_demoCalls :
    (∃ L, demoEnv.ShowsLedger overlapped.state L) ∧
      ∀ L, demoEnv.ShowsLedger overlapped.state L → ∃ rs L',
        Ledger.Performs demoEnv.knows L demoCalls rs L' ∧
        demoEnv.ShowsLedger (demoCalls.foldl (demoEnv.alone 10) overlapped).state L' ∧
        ((demoCalls.foldl (demoEnv.alone 10) overlapped).threads.drop
          overlapped.threads.length).map (fun t => t.prog.value?) = rs.map some := by
  have hcalls : ∀ c ∈ demoCalls, demoEnv.Registered c.user ∧ c.op.blockId = some [9] := by
    simp [demoCalls, registered_alice, registered_bob, Op.blockId]
  have hfuel : ∀ b, (overlapped.state.keys b).keys.length + demoCalls.length ≤ 10 := by
    intro b
    by_cases hb : b = [9]
    · subst hb
      decide +kernel
    · have hslice := reachable_overlapped.slice_untouched (b := b) fun c hc => ⟨[9], hc, hb⟩
      have hkeys : ∀ w : World, w.slice b = ⟨∅, none⟩ → w.keys b = ∅ := fun _ =>
        congrArg Slice.users
      rw [hkeys _ hslice]
      decide
  exact Env.erased reachable_overlapped hcalls hfuel (by unfold FreshKeys; decide +kernel)

end Hermes

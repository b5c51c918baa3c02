import Hermes.Provenance.Blocks

/-!
# What every operation asks

The last step from the objects to the calls: `Hermes.asks_prog` says that every request
of every call is justified (`Hermes.Env.Justified`), and so is what it returns
(`Hermes.Env.Returned`), whatever the stores answer. From here on the programs of the
clients are not looked at any more when it comes to what can happen in a run.
-/

namespace Hermes

open Interleave

variable {E : Env} {c : Call} {h : Hist}

/-! ### Saving -/

theorem asks_rtokenSave {b : Bytes} {tok : Token} (hne : tok.token ≠ [])
    (hJ : E.Saves c h false b tok.user.id tok.owner.id tok.token) :
    E.Asks c (midHermesLlRtokenSave b (some tok)) h fun _ _ => True := by
  simp only [midHermesLlRtokenSave, hermesKeyStoreSetRtoken]
  split_ifs
  · trivial
  · exact ⟨hJ, fun _ _ => trivial⟩

theorem asks_wtokenSave {b : Bytes} {tok : Token} (hne : tok.token ≠ [])
    (hJ : E.Saves c h true b tok.user.id tok.owner.id tok.token) :
    E.Asks c (midHermesLlWtokenSave b (some tok)) h fun _ _ => True := by
  simp only [midHermesLlWtokenSave, hermesKeyStoreSetWtoken]
  split_ifs
  · trivial
  · exact ⟨hJ, fun _ _ => trivial⟩

/-- The requests by which a block is set. -/
def DataStoreReq.SetsBlock : DataStoreReq → Prop
  | .createBlock .. => True
  | .createBlockWithId .. => True
  | .updateBlock .. => True
  | _ => False

/-- The kinds of requests a saving to the data store has. -/
theorem saveData_only {bl : Block} {C : Req → Prop} (hds : ∀ r, r.SetsBlock → C (.ds r)) :
    (midHermesLlBlockSaveData bl).Only C := by
  unfold midHermesLlBlockSaveData
  split
  · refine Prog.Only.bind ?_ fun r => by cases r <;> trivial
    unfold hermesDataStoreSetBlock
    split_ifs
    · trivial
    · split <;> exact ⟨hds _ trivial, fun _ => trivial⟩
  · trivial

/-- What holds of a saved object holds together with the kind of the requests so far. -/
theorem Env.Asks.saved_all {p : Client (Bool × Block)} {Q : Hist → Block → Prop} {C : Req → Prop}
    (hp : E.Asks c p h fun h' r => ∀ bl, r = (true, bl) → Q h' bl) (hC : p.Only C)
    (hh : ∀ e ∈ h, C e.1) : E.Asks c p h fun h' r => ∀ bl, r = (true, bl) →
      Q h' bl ∧ ∀ e ∈ h', C e.1 :=
  (hp.all hC hh).mono fun _ _ _ hr bl hbl => ⟨hr.1 bl hbl, hr.2⟩

/-- The kinds of requests the saving of a read token has, unless it is empty. -/
theorem rtokenSave_only {b : Bytes} {tok : Token} {C : Req → Prop}
    (hset : ∀ b u o t, C (.ks (.setRtoken b u o t))) (hne : tok.token ≠ []) :
    (midHermesLlRtokenSave b (some tok)).Only C :=
  setRtoken_only (fun _ => hset _ _ _ _) fun h => absurd h hne

theorem saveRtoken_only {C : Req → Prop} (hset : ∀ b u o t, C (.ks (.setRtoken b u o t)))
    (hdel : ∀ b u o, C (.ks (.delRtoken b u o))) (b : Bytes) (tok : Option Token) :
    (midHermesLlRtokenSave b tok).Only C := by
  cases tok with
  | none => trivial
  | some tok => exact setRtoken_only (fun _ => hset _ _ _ _) fun _ => hdel _ _ _

theorem saveWtoken_only {C : Req → Prop} (hset : ∀ b u o t, C (.ks (.setWtoken b u o t)))
    (hdel : ∀ b u o, C (.ks (.delWtoken b u o))) (b : Bytes) (tok : Option Token) :
    (midHermesLlWtokenSave b tok).Only C := by
  cases tok with
  | none => trivial
  | some tok => exact setWtoken_only (fun _ => hset _ _ _ _) fun _ => hdel _ _ _

section Saving

variable {C : Req → Prop} (hr : ∀ b tok, (midHermesLlRtokenSave b tok).Only C)
  (hw : ∀ b tok, (midHermesLlWtokenSave b tok).Only C)
include hr hw

theorem saveRights_only (b : Bytes) (rights : List RightsListNode) :
    (midHermesLlBlockSaveRights b rights).Only C := by
  induction rights with
  | nil => trivial
  | cons node rights ih =>
    refine Prog.Only.bind (hr b _) fun r => ?_
    cases r with
    | error _ => trivial
    | ok _ =>
      dsimp only
      split_ifs
      · refine Prog.Only.bind (hw b _) fun r => ?_
        cases r with
        | error _ => trivial
        | ok _ => exact ih
      · exact ih

theorem saveTokens_only (bl : Block) (rights : List RightsListNode) :
    (midHermesLlBlockSaveTokens bl rights).Only C := by
  refine Prog.Only.bind (hr _ _) fun r => ?_
  cases r with
  | error _ => trivial
  | ok _ =>
    refine Prog.Only.bind (hw _ _) fun r => ?_
    cases r with
    | error _ => trivial
    | ok _ => exact saveRights_only hr hw _ rights

/-- The kinds of requests a saving to both stores has. -/
theorem save_only (hds : ∀ r, r.SetsBlock → C (.ds r)) (bl : Block) (rights : List RightsListNode) :
    (midHermesLlBlockSave bl rights true true).Only C := by
  refine Prog.Only.bind (saveData_only hds) fun r => ?_
  rcases r with ⟨_ | _, bl⟩
  · trivial
  · exact Prog.Only.bind (saveTokens_only hr hw bl rights) fun r => trivial

end Saving

section Deleting

variable {C : Req → Prop} (hr : ∀ b u o, C (.ks (.delRtoken b u o)))
  (hw : ∀ b u o, C (.ks (.delWtoken b u o)))

include hr in
theorem rtokenDelete_only (bl : Block) (b : Bytes) (tok : Option Token) :
    (midHermesLlRtokenDelete bl b tok).Only C := by
  cases tok with
  | none => trivial
  | some tok => exact setRtoken_only (fun h => absurd rfl h) fun _ => hr _ _ _

include hw in
theorem wtokenDelete_only (b : Bytes) (tok : Option Token) :
    (midHermesLlWtokenDelete b tok).Only C := by
  cases tok with
  | none => trivial
  | some tok => exact setWtoken_only (fun h => absurd rfl h) fun _ => hw _ _ _

include hr hw

theorem deleteRights_only (bl : Block) (b : Bytes) (rights : List RightsListNode) :
    (midHermesLlBlockDeleteRights bl b rights).Only C := by
  induction rights with
  | nil => trivial
  | cons node rights ih =>
    refine Prog.Only.bind (rtokenDelete_only hr bl b _) fun r => ?_
    cases r with
    | error _ => trivial
    | ok _ =>
      dsimp only
      split_ifs
      · refine Prog.Only.bind (wtokenDelete_only hw b _) fun r => ?_
        cases r with
        | error _ => trivial
        | ok _ => exact ih
      · exact ih

/-- The kinds of requests a deletion from both stores has. -/
theorem blockDelete_only (hds : ∀ b old, C (.ds (.deleteBlock b old))) (bl : Block)
    (rights : List RightsListNode) : (midHermesLlBlockDelete bl rights true true).Only C := by
  unfold midHermesLlBlockDelete
  split
  · simp only [Bool.not_true, Bool.and_self, Bool.false_eq_true, if_false, if_true]
    refine Prog.Only.bind ?_ fun r => ?_
    · unfold hermesDataStoreRemBlock
      split_ifs
      · trivial
      · exact ⟨hds _ _, fun _ => trivial⟩
    · cases r with
      | error _ => trivial
      | ok _ =>
        refine Prog.Only.bind (rtokenDelete_only hr bl _ _) fun r => ?_
        cases r with
        | error _ => trivial
        | ok _ => exact deleteRights_only hr hw bl _ rights
  · trivial

end Deleting

/-- A token that may be saved after any history that extends this one. -/
def Env.Savable (E : Env) (c : Call) (h : Hist) (isUpdate : Bool) (b : Bytes) (tok : Token) :
    Prop :=
  tok.token ≠ [] ∧
    ∀ h', h <:+ h' → E.Saves c h' isUpdate b tok.user.id tok.owner.id tok.token

theorem Env.Savable.mono {h' : Hist} {isUpdate : Bool} {b : Bytes} {tok : Token}
    (ht : E.Savable c h isUpdate b tok) (hs : h <:+ h') : E.Savable c h' isUpdate b tok :=
  ⟨ht.1, fun h'' hs' => ht.2 h'' (hs.trans hs')⟩

theorem asks_saveRights {b : Bytes} (rights : List RightsListNode)
    (hr : ∀ n ∈ rights, E.Savable c h false b n.rtoken ∧
      ∀ wt, n.wtoken = some wt → E.Savable c h true b wt) :
    E.Asks c (midHermesLlBlockSaveRights b rights) h fun _ _ => True := by
  induction rights generalizing h with
  | nil => trivial
  | cons n rights ih =>
    obtain ⟨⟨hne, hJ⟩, hw⟩ := hr n List.mem_cons_self
    have hrest : ∀ h', h <:+ h' →
        E.Asks c (midHermesLlBlockSaveRights b rights) h' fun _ _ => True := fun h' hs =>
      ih fun m hm => ⟨(hr m (List.mem_cons_of_mem _ hm)).1.mono hs,
        fun wt hwt => ((hr m (List.mem_cons_of_mem _ hm)).2 wt hwt).mono hs⟩
    refine (asks_rtokenSave hne (hJ h (List.suffix_refl _))).bind fun h₁ r hs₁ _ => ?_
    cases r with
    | error _ => trivial
    | ok _ =>
      cases hwt : n.wtoken with
      | none => simpa [hwt] using hrest h₁ hs₁
      | some wt =>
        obtain ⟨hne', hJ'⟩ := hw wt hwt
        simp only [Option.isSome_some, if_true]
        refine (asks_wtokenSave hne' (hJ' h₁ hs₁)).bind fun h₂ r hs₂ _ => ?_
        cases r with
        | error _ => trivial
        | ok _ => exact hrest h₂ (hs₁.trans hs₂)

theorem asks_saveTokens {b : Bytes} {bl : Block} {rt wt : Token} {rights : List RightsListNode}
    (hid : bl.id = some b) (hrt : bl.rtoken = some rt) (hwt : bl.wtoken = some wt)
    (hr : E.Savable c h false b rt) (hw : E.Savable c h true b wt)
    (hrights : ∀ n ∈ rights, E.Savable c h false b n.rtoken ∧
      ∀ wt, n.wtoken = some wt → E.Savable c h true b wt) :
    E.Asks c (midHermesLlBlockSaveTokens bl rights) h fun _ _ => True := by
  simp only [midHermesLlBlockSaveTokens, hid, hrt, hwt, Option.getD_some]
  refine (asks_rtokenSave hr.1 (hr.2 h (List.suffix_refl _))).bind fun h₁ r hs₁ _ => ?_
  cases r with
  | error _ => trivial
  | ok _ =>
    refine (asks_wtokenSave hw.1 (hw.2 h₁ hs₁)).bind fun h₂ r hs₂ _ => ?_
    cases r with
    | error _ => trivial
    | ok _ =>
      have hs := hs₁.trans hs₂
      exact asks_saveRights rights fun n hn =>
        ⟨(hrights n hn).1.mono hs, fun wt hwt => ((hrights n hn).2 wt hwt).mono hs⟩

/-- The block is sent to the data store, and the object keeps the id it has there. -/
theorem asks_saveData {u : User} {id data : Option Bytes} {x mt mac : Bytes}
    {old : Option Bytes} {rt wt : Option Token}
    (hnew : old = none → E.Creates c h id x mt mac)
    (hold : ∀ o, old = some o → ∃ b, id = some b ∧ E.Updates c h b x mt mac o) :
    E.Asks c (midHermesLlBlockSaveData ⟨u, id, some x, data, some mt, old, some mac, rt, wt⟩) h
      fun h' r => ∀ bl, r = (true, bl) → ∃ b,
        bl = ⟨u, some b, some x, data, some mt, none, some mac, rt, wt⟩ ∧
        (old = none → Created h' b x mt mac id) ∧
        ∀ o, old = some o → id = some b ∧ Got h' (.ds (.updateBlock b x mt mac o)) (.ok ()) := by
  -- the old mac and the id decide which of the three requests is sent
  refine Prog.Within.bind (Q := fun h' r => ∀ id', r = .ok id' → ∃ b, id' = some b ∧
      (old = none → Created h' b x mt mac id) ∧
      ∀ o, old = some o → id = some b ∧ Got h' (.ds (.updateBlock b x mt mac o)) (.ok ())) ?_ ?_
  · unfold hermesDataStoreSetBlock
    split_ifs
    · exact fun id' hid => by cases hid
    · cases old with
      | none =>
        cases id with
        | none =>
          refine ⟨hnew rfl, fun a _ id' hid => ?_⟩
          cases a with
          | error _ => cases hid
          | ok b =>
            cases hid
            exact ⟨b, rfl, fun _ => got_head, fun o ho => by cases ho⟩
        | some b =>
          refine ⟨hnew rfl, fun a _ id' hid => ?_⟩
          cases a with
          | error _ => cases hid
          | ok _ =>
            cases hid
            exact ⟨b, rfl, fun _ => ⟨rfl, got_head⟩, fun o ho => by cases ho⟩
      | some o =>
        obtain ⟨b, rfl, hup⟩ := hold o rfl
        refine ⟨hup, fun a _ id' hid => ?_⟩
        cases a with
        | error _ => cases hid
        | ok _ =>
          cases hid
          refine ⟨b, rfl, fun ho => ?_, fun o' ho => ?_⟩
          · cases ho
          · cases ho
            exact ⟨rfl, got_head⟩
  · intro h₁ r _ hr
    cases r with
    | error _ => exact fun bl hbl => by cases hbl
    | ok id' =>
      obtain ⟨b, rfl, hb⟩ := hr id' rfl
      intro bl hbl
      cases hbl
      exact ⟨b, rfl, hb⟩

/-- Saving with both stores: what has to hold is what the two parts need. -/
theorem asks_save {bl : Block} {rights : List RightsListNode} {Q : Hist → Block → Prop}
    (hdata : E.Asks c (midHermesLlBlockSaveData bl) h fun h' r => ∀ bl', r = (true, bl') → Q h' bl')
    (htokens : ∀ h' bl', h <:+ h' → Q h' bl' →
      E.Asks c (midHermesLlBlockSaveTokens bl' rights) h' fun _ _ => True) :
    E.Asks c (midHermesLlBlockSave bl rights true true) h fun _ _ => True := by
  simp only [midHermesLlBlockSave, Bool.not_true, Bool.and_self, Bool.false_eq_true, if_false,
    if_true]
  refine hdata.bind fun h₁ r hs₁ hr => ?_
  obtain ⟨ok, bl'⟩ := r
  cases ok with
  | false => trivial
  | true => exact (htokens h₁ bl' hs₁ (hr bl' rfl)).bind fun _ _ _ _ => trivial

/-- A part of a call whose result does not matter any more. -/
theorem Env.Asks.trivial {α : Type} {p : Client α} {Q : Hist → α → Prop} (hp : E.Asks c p h Q) :
    E.Asks c p h fun _ _ => True :=
  hp.mono fun _ _ _ _ => True.intro

/-! ### The operations -/

theorem asks_createBlock {id : Option Bytes} {d mt : Bytes} (hop : c.op = .createBlock id d mt) :
    E.Asks c (midHermesCreateBlock c.user id d mt) [] fun _ _ => True := by
  unfold midHermesCreateBlock
  split_ifs with hne
  · trivial
  · refine ((asks_blockCreate rfl hop rfl).all blockCreate_only fun e he => by simp at he).bind
      fun h₁ r hs₁ hr => ?_
    cases r with
    | none => trivial
    | some bl =>
      obtain ⟨k, kw, rt, wt, hrt, hwt, rfl⟩ := hr.1 bl rfl
      obtain ⟨hk, sk, hsk, rfl⟩ := hrt
      obtain ⟨hkw, sk', hsk', rfl⟩ := hwt
      have hv : E.Version k kw d mt (E.themis.encryptSeal k mt d) (E.themis.hmac kw [d, mt]) :=
        ⟨rfl, rfl⟩
      -- nobody has a write token of the block yet, which is what makes the call its creator
      have hset : ∀ e ∈ h₁, ¬e.1.SetsWtoken := fun e he => (hr.2 e he).not_setsWtoken
      refine (asks_save ((asks_saveData (c := c)
        (fun _ => ⟨d, (not_or.mp hne).1, hop, hr.2, k, kw, hv, hk, hkw⟩)
        fun o ho => by cases ho).saved_all (C := fun r => ¬r.SetsWtoken)
          (saveData_only fun _ _ hs => hs) hset) ?_).bind ?_
      · rintro h₂ bl' hs₂ ⟨⟨b, rfl, hcr, -⟩, hset₂⟩
        -- both tokens carry the keys of the version that the call has just stored
        have hsav : ∀ {h' : Hist} {sk : Bytes} (isUpdate : Bool), h₂ <:+ h' →
            (∀ e ∈ h', ¬e.1.SetsWtoken) → c.user.sk = some sk →
            E.Saves c h' isUpdate b c.user.id c.user.id
              (E.themis.wrap sk c.user.pk (keyFor isUpdate k kw)) := by
          intro h' sk isUpdate hs hset' hsk
          simp only [Env.Saves, hop, true_and]
          exact ⟨hset', k, kw, _, _, sk, (hcr rfl).mono hs, hv, (hk.mono hs₂).mono hs,
            (hkw.mono hs₂).mono hs, hsk, rfl⟩
        simp only [midHermesLlBlockSaveTokens, Option.getD_some]
        refine ((asks_rtokenSave (c := c) (E.themis.wrap_ne_nil _ _ _)
          (hsav false (List.suffix_refl _) hset₂ hsk)).all (C := fun r => ¬r.SetsWtoken)
            (rtokenSave_only (fun _ _ _ _ hs => hs) (E.themis.wrap_ne_nil _ _ _)) hset₂).bind
              fun h₃ r hs₃ hr₃ => ?_
        cases r with
        | error _ => trivial
        | ok _ =>
          refine (asks_wtokenSave (c := c) (E.themis.wrap_ne_nil _ _ _)
            (hsav true hs₃ hr₃.2 hsk')).bind fun h₄ r _ _ => ?_
          cases r <;> trivial
      · rintro h₂ ⟨saved, bl⟩ - -
        cases saved <;> trivial

theorem asks_readBlock {b : Bytes} (hop : c.op = .readBlock b) :
    E.Asks c (midHermesReadBlock c.user b) [] fun h' r => r.1 = hmSuccess →
      ∃ k d mt, r.2 = some (d, mt) ∧ E.Loaded h' c.user b k d mt := by
  unfold midHermesReadBlock
  split_ifs
  · exact fun hs => absurd hs (by decide)
  · refine (asks_load rfl (by rw [hop]; rfl) fun e he => by simp at he).bind fun h₁ r _ hr => ?_
    cases r with
    | none => exact fun hs => absurd hs (by decide)
    | some bl =>
      obtain ⟨x, k, d, mt, rt, wt, mac, rfl, -, hld, -⟩ := hr bl rfl
      exact fun _ => ⟨k, d, mt, rfl, hld⟩

theorem asks_updateBlock {b d mt : Bytes} (hop : c.op = .updateBlock b d mt) :
    E.Asks c (midHermesUpdateBlock c.user b d mt) [] fun _ _ => True := by
  unfold midHermesUpdateBlock
  split_ifs with hne
  · trivial
  · refine (asks_load rfl (by rw [hop]; rfl) fun e he => by simp at he).bind fun h₁ r _ hr => ?_
    cases r with
    | none => trivial
    | some bl =>
      refine (asks_update rfl hop (hr bl rfl)).bind fun h₂ r _ hr => ?_
      cases r with
      | none => trivial
      | some bl =>
        obtain ⟨k, kw, rt, wt, old, rfl, hrt, hwt, hold⟩ := hr bl rfl
        refine (asks_save (asks_saveData (c := c) (fun ho => by cases ho) fun o ho => ?_)
          ?_).bind ?_
        · cases ho
          refine ⟨b, rfl, hold, ?_⟩
          simp only [hop, true_and]
          exact ⟨fun hd => hne (Or.inr (Or.inl hd)), k, kw, hrt.keyOf, hwt.keyOf, rfl, rfl⟩
        · rintro h₃ bl' hs₃ ⟨b', rfl, -, hup⟩
          obtain ⟨hb, hup⟩ := hup old rfl
          cases hb
          refine asks_saveTokens rfl rfl rfl ⟨hrt.token_ne_nil, fun h₄ hs₄ => ?_⟩
            ⟨hwt.token_ne_nil, fun h₄ hs₄ => ?_⟩ fun n hn => by simp at hn
          · simp only [Env.Saves, hop, true_and, hrt.user_eq]
            exact ⟨(hrt.user_eq ▸ hrt.held.got.mono hs₃).mono hs₄, _, _, _, _, hup.mono hs₄⟩
          · simp only [Env.Saves, hop, true_and, hwt.user_eq]
            exact ⟨(hwt.user_eq ▸ hwt.held.got.mono hs₃).mono hs₄, _, _, _, _, hup.mono hs₄⟩
        · rintro h₃ ⟨saved, bl⟩ - -
          cases saved <;> trivial

theorem asks_rotateBlock {b : Bytes} (hop : c.op = .rotateBlock b) (hreg : E.Registered c.user)
    (fuel : ℕ) : E.Asks c (midHermesRotateBlock fuel c.user b) [] fun _ _ => True := by
  unfold midHermesRotateBlock
  split_ifs
  · trivial
  · have hload := (asks_load (E := E) (c := c) (h := []) rfl (by rw [hop]; rfl)
      fun e he => by simp at he).draws_eq (load_only (b := b) id id (fun _ => id) id
        ⟨fun _ _ _ => id, fun _ _ _ => id⟩ (fun _ _ => id) fun _ _ _ => id)
    refine hload.bind fun h₁ r _ hr => ?_
    cases r with
    | none => trivial
    | some bl =>
      obtain ⟨hbl, hdr₁⟩ := hr
      have hbl := hbl bl rfl
      have hid : bl.id = some b := by
        obtain ⟨x₀, k₀, d, mt, rt₀, wt₀, mac₀, rfl, -⟩ := hbl
        rfl
      refine ((asks_accessRights (c := c) (h := h₁) fuel hid).draws_eq
        (accessRights_only (fun _ _ => .of_ks (fun _ => id) _) fun _ => id)).bind
          fun h₂ r hs₂ hr₂ => ?_
      cases r with
      | none => trivial
      | some rights =>
        obtain ⟨hnodes, hdr₂⟩ := hr₂
        refine (asks_rotate rfl hop (hbl.mono hs₂) (hdr₂.trans hdr₁) rights
          (hnodes rights rfl)).bind ?_
        rintro h₃ ⟨ok, bl', ns⟩ hs₃ hrot
        cases ok with
        | false => trivial
        | true =>
          obtain ⟨k, kw, k₀, d, mt, rt, wt, old, rfl, hrt, hwt, hld, hold, hw, hns⟩ :=
            hrot bl' ns rfl
          have hv : E.Version k kw d mt (E.themis.encryptSeal k mt d) (E.themis.hmac kw [d, mt]) :=
            ⟨rfl, rfl⟩
          refine (asks_save (asks_saveData (c := c) (fun ho => by cases ho) fun o ho => ?_) ?_).bind
            ?_
          · cases ho
            refine ⟨b, rfl, hold, ?_⟩
            simp only [hop, true_and]
            exact ⟨k₀, d, k, kw, hld, hrt.1, hwt.1, hv⟩
          · rintro h₄ bl' hs₄ ⟨b', rfl, -, hup⟩
            obtain ⟨hb, hup⟩ := hup old rfl
            cases hb
            -- every token of the rotation wraps one of the two keys for a user who has one
            have hsav : ∀ (isUpdate : Bool) (v : User) (sk : Bytes), c.user.sk = some sk →
                E.credentials v.id = some v.pk → (∃ x, GotToken h₃ isUpdate b v.id x) →
                E.Savable c h₄ isUpdate b
                  ⟨v, c.user, E.themis.wrap sk v.pk (keyFor isUpdate k kw)⟩ := by
              intro isUpdate v sk hsk hpk ⟨x, hx⟩
              refine ⟨E.themis.wrap_ne_nil _ _ _, fun h₅ hs₅ => ?_⟩
              simp only [Env.Saves, hop, true_and]
              exact ⟨⟨x, (hx.mono hs₄).mono hs₅⟩, k, kw, d, _, mt, _, old, sk, v.pk, hup.mono hs₅,
                hv, (hrt.1.mono hs₄).mono hs₅, (hwt.1.mono hs₄).mono hs₅, hsk, hpk, v.pk_ne_nil,
                rfl⟩
            obtain ⟨hk, sk, hsk, rfl⟩ := hrt
            obtain ⟨hkw, sk', hsk', rfl⟩ := hwt
            have hown := hld.1
            obtain ⟨x₁, hx₁, -⟩ := hown
            refine asks_saveTokens rfl rfl rfl (hsav false c.user sk hsk hreg.pk_eq ⟨x₁, hx₁⟩)
              (hsav true c.user sk' hsk' hreg.pk_eq hw) fun n hn => ?_
            have hn := hns n hn
            obtain ⟨skn, hskn, hrn⟩ := hn.rtoken_eq
            refine ⟨hrn ▸ hsav false n.user skn hskn hn.pk_eq hn.rtoken, fun wt hwt => ?_⟩
            obtain ⟨skn', hskn', rfl⟩ := hn.wtoken_eq wt hwt
            exact hsav true n.user skn' hskn' hn.pk_eq (hn.wtoken (by rw [hwt]; rfl))
          · rintro h₄ ⟨saved, bl⟩ - -
            cases saved <;> trivial

/-- A block object that was loaded is one of the block and of the user. -/
theorem Env.IsLoaded.id_eq {u : User} {b : Bytes} {bl : Block} (hbl : E.IsLoaded h u b bl) :
    bl.id = some b ∧ bl.user = u := by
  obtain ⟨x₀, k₀, d, mt, rt₀, wt₀, mac₀, rfl, -⟩ := hbl
  exact ⟨rfl, rfl⟩

theorem asks_grantAccess {b v : Bytes} {isUpdate : Bool}
    {tokenFor : Block → User → Client (Option Token)} (hb : c.op.blockId = some b)
    (hfor : ∀ h bl w, E.IsLoaded h c.user b bl → E.credentials v = some w.pk →
      E.Asks c (tokenFor bl w) h fun h' r => ∀ t, r = some t → ∃ sk k,
        E.KeyOf h' isUpdate c.user b k ∧ c.user.sk = some sk ∧
        t = ⟨w, c.user, E.themis.wrap sk w.pk k⟩)
    (hJ : ∀ h t, E.Grants c h isUpdate b v c.user.id t → E.Saves c h isUpdate b v c.user.id t) :
    E.Asks c (midHermesGrantAccess tokenFor isUpdate c.user b v) [] fun _ _ => True := by
  unfold midHermesGrantAccess
  split_ifs
  · trivial
  · refine (asks_load rfl hb fun e he => by simp at he).bind fun h₁ r _ hr => ?_
    cases r with
    | none => trivial
    | some bl =>
      refine (asks_userLoadC v).bind fun h₂ r hs₂ hu => ?_
      cases r with
      | none => trivial
      | some w =>
        obtain ⟨rfl, hpk⟩ := hu w rfl
        have hbl := (hr bl rfl).mono hs₂
        refine (hfor h₂ bl w hbl hpk).bind fun h₃ r hs₃ ht => ?_
        cases r with
        | none => trivial
        | some t =>
          obtain ⟨sk, k, hk, hsk, rfl⟩ := ht t rfl
          -- the key was opened in the caller's own entry, and is wrapped for the other user
          have hgrant : E.Grants c h₃ isUpdate b w.id c.user.id (E.themis.wrap sk w.pk k) :=
            ⟨rfl, k, sk, w.pk, hk, hsk, hpk, w.pk_ne_nil, rfl⟩
          have hsave := hJ h₃ _ hgrant
          rw [hbl.id_eq.1]
          refine Prog.Within.bind (Q := fun _ _ => True) ?_ fun h₄ r _ _ => ?_
          · cases isUpdate with
            | false => exact asks_rtokenSave (E.themis.wrap_ne_nil _ _ _) hsave
            | true => exact asks_wtokenSave (E.themis.wrap_ne_nil _ _ _) hsave
          · cases r <;> trivial

theorem asks_grantReadAccess {b v : Bytes} (hop : c.op = .grantReadAccess b v) :
    E.Asks c (midHermesGrantReadAccess c.user b v) [] fun _ _ => True := by
  refine asks_grantAccess (by rw [hop]; rfl) (fun h bl w hbl hpk => asks_rtokenFor hbl ?_) ?_
  · intro h' sk k hsk hk
    simp only [Env.Wraps, hop]
    exact ⟨hsk, hpk, hk⟩
  · intro h t ht
    simp only [Env.Saves, hop, true_and]
    exact ht

theorem asks_grantUpdateAccess {b v : Bytes} (hop : c.op = .grantUpdateAccess b v) :
    E.Asks c (midHermesGrantUpdateAccess c.user b v) [] fun _ _ => True := by
  refine asks_grantAccess (by rw [hop]; rfl) (fun h bl w hbl hpk => asks_wtokenFor hbl ?_) ?_
  · intro h' sk k hsk hk
    simp only [Env.Wraps, hop]
    exact ⟨hsk, hpk, hk⟩
  · intro h t ht
    simp only [Env.Saves, hop, true_and]
    exact ht

/-- Asking the key store for a removal. -/
theorem asks_delRtoken {b v o : Bytes} (hJ : Removes c false b v o) :
    E.Asks c (hermesKeyStoreSetRtoken v b [] o) h fun h' r =>
      ∀ x, r = .ok x → h' = (⟨.ks (.delRtoken b v o), .ok ()⟩ : Event Req.Answer) :: h := by
  simp only [hermesKeyStoreSetRtoken, ne_eq, not_true_eq_false, if_false]
  split_ifs
  · exact fun x hx => by cases hx
  · refine ⟨hJ, fun a _ x hx => ?_⟩
    subst hx
    rfl

theorem asks_delWtoken {b v o : Bytes} (hJ : Removes c true b v o) :
    E.Asks c (hermesKeyStoreSetWtoken v b [] o) h fun _ _ => True := by
  simp only [hermesKeyStoreSetWtoken, ne_eq, not_true_eq_false, if_false]
  split_ifs
  · trivial
  · exact ⟨hJ, fun _ _ => trivial⟩

theorem asks_denyAccess {b v : Bytes} (isUpdate : Bool) (hb : c.op.blockId = some b)
    (hw : ∀ h sk k pk, c.user.sk = some sk → E.credentials v = some pk →
      E.KeyOf h true c.user b k → E.Wraps c h sk pk k)
    (hr : isUpdate = false → Removes c false b v c.user.id)
    (hrw : Removes c true b v c.user.id) :
    E.Asks c (midHermesDenyAccess isUpdate c.user b v) [] fun h' s =>
      s = hmSuccess → isUpdate = false →
        ∃ h₀, h' = (⟨.ks (.delRtoken b v c.user.id), .ok ()⟩ : Event Req.Answer) :: h₀ := by
  unfold midHermesDenyAccess
  split_ifs
  · exact fun hs => absurd hs (by decide)
  · refine (asks_load rfl hb fun e he => by simp at he).bind fun h₁ r _ hr₁ => ?_
    cases r with
    | none => exact fun hs => absurd hs (by decide)
    | some bl =>
      refine (asks_userLoadC v).bind fun h₂ r hs₂ hu => ?_
      cases r with
      | none => exact fun hs => absurd hs (by decide)
      | some w =>
        obtain ⟨rfl, hpk⟩ := hu w rfl
        have hbl := (hr₁ bl rfl).mono hs₂
        refine (asks_wtokenFor (v := w) hbl fun h' sk k hsk hk => hw h' sk k _ hsk hpk hk).bind
          fun h₃ r _ _ => ?_
        cases r with
        | none => exact fun hs => absurd hs (by decide)
        | some t =>
          simp only [hbl.id_eq, Option.getD_some]
          refine Prog.Within.bind (Q := fun h' r => ∀ x, r = .ok x → isUpdate = false → ∃ h₀,
            h' = (⟨.ks (.delRtoken b w.id c.user.id), .ok ()⟩ : Event Req.Answer) :: h₀) ?_
            fun h₄ r _ hdel => ?_
          · refine (asks_delWtoken hrw).bind fun h₄ r _ _ => ?_
            cases isUpdate with
            | false => exact (asks_delRtoken (hr rfl)).mono fun _ _ _ hd x hx _ => ⟨h₄, hd x hx⟩
            | true => exact fun x _ hf => by cases hf
          · cases r with
            | error _ => exact fun hs => absurd hs (by decide)
            | ok x => exact fun _ hu => hdel x rfl hu

theorem asks_denyReadAccess {b v : Bytes} (hop : c.op = .denyReadAccess b v) :
    E.Asks c (midHermesDenyReadAccess c.user b v) [] fun h' s => s = hmSuccess →
      ∃ h₀, h' = (⟨.ks (.delRtoken b v c.user.id), .ok ()⟩ : Event Req.Answer) :: h₀ := by
  refine (asks_denyAccess false (by rw [hop]; rfl) ?_ ?_ ?_).mono fun _ _ _ hs h => hs h rfl
  · intro h sk k pk hsk hpk hk
    simp only [Env.Wraps, hop]
    exact ⟨hsk, hpk, hk⟩
  · simp [Removes, hop]
  · simp [Removes, hop]

theorem asks_denyUpdateAccess {b v : Bytes} (hop : c.op = .denyUpdateAccess b v) :
    E.Asks c (midHermesDenyUpdateAccess c.user b v) [] fun _ _ => True := by
  refine (asks_denyAccess true (by rw [hop]; rfl) ?_ ?_ ?_).trivial
  · intro h sk k pk hsk hpk hk
    simp only [Env.Wraps, hop]
    exact ⟨hsk, hpk, hk⟩
  · exact fun hf => by cases hf
  · simp [Removes, hop]

theorem asks_deleteRights {b : Bytes} {bl : Block} (hop : c.op = .deleteBlock b)
    (rights : List RightsListNode) :
    E.Asks c (midHermesLlBlockDeleteRights bl b rights) h fun _ _ => True := by
  have hrem : ∀ isUpdate u o, Removes c isUpdate b u o := fun _ _ _ => by simp [Removes, hop]
  induction rights generalizing h with
  | nil => trivial
  | cons n rights ih =>
    refine (asks_delRtoken (hrem _ _ _)).trivial.bind fun h₁ r _ _ => ?_
    cases r with
    | error _ => trivial
    | ok _ =>
      cases hwt : n.wtoken with
      | none => simpa [hwt] using ih
      | some wt =>
        simp only [Option.isSome_some, if_true]
        refine (asks_delWtoken (hrem _ _ _)).bind fun h₂ r _ _ => ?_
        cases r with
        | error _ => trivial
        | ok _ => exact ih

theorem asks_deleteBlock {b : Bytes} (hop : c.op = .deleteBlock b) (fuel : ℕ) :
    E.Asks c (midHermesDeleteBlock fuel c.user b) [] fun _ _ => True := by
  unfold midHermesDeleteBlock
  split_ifs
  · trivial
  · refine (asks_load rfl (by rw [hop]; rfl) fun e he => by simp at he).bind fun h₁ r _ hr => ?_
    cases r with
    | none => trivial
    | some bl =>
      have hbl := hr bl rfl
      refine (asks_accessRights (c := c) fuel hbl.id_eq.1).trivial.bind fun h₂ rights hs₂ _ => ?_
      refine Prog.Within.bind (Q := fun _ _ => True) ?_ fun h₃ r _ _ => by cases r <;> trivial
      obtain ⟨x₀, k, d, mt, rt, wt, mac, rfl, hrt, hld, hmac⟩ := hbl.mono hs₂
      cases wt with
      | none => cases hmac; trivial
      | some wt =>
        obtain ⟨kw, hwt, rfl⟩ := hmac
        simp only [midHermesLlBlockDelete, Bool.not_true, Bool.and_self, Bool.false_eq_true,
          if_false, if_true, Option.getD_none]
        refine Prog.Within.bind (Q := fun _ _ => True) ?_ fun h₃ r _ _ => ?_
        · unfold hermesDataStoreRemBlock
          split_ifs
          · trivial
          · exact ⟨⟨hop, k, kw, d, mt, hld, hwt.keyOf, rfl⟩, fun _ _ => trivial⟩
        · cases r with
          | error _ => trivial
          | ok _ =>
            refine (asks_delRtoken (by simp [Removes, hop])).trivial.bind fun h₄ r _ _ => ?_
            cases r with
            | error _ => trivial
            | ok _ => exact asks_deleteRights hop _

/-- **Every request of every call is justified by what the call was answered before, and
so is its result.** -/
theorem asks_prog (hreg : E.Registered c.user) (fuel : ℕ) :
    E.Asks c (c.prog fuel) [] (E.Returned c) := by
  unfold Call.prog
  cases hop : c.op with
  | createBlock id d mt =>
    refine (asks_createBlock hop).bind fun h' r _ _ => ?_
    simp [Env.Returned, hop]
  | readBlock b =>
    refine (asks_readBlock hop).bind fun h' r _ hr => ?_
    simpa [Env.Returned, hop] using hr
  | updateBlock b d mt =>
    refine (asks_updateBlock hop).bind fun h' r _ _ => ?_
    simp [Env.Returned, hop]
  | deleteBlock b =>
    refine (asks_deleteBlock hop fuel).bind fun h' r _ _ => ?_
    simp [Env.Returned, hop]
  | rotateBlock b =>
    refine (asks_rotateBlock hop hreg fuel).bind fun h' r _ _ => ?_
    simp [Env.Returned, hop]
  | grantReadAccess b v =>
    refine (asks_grantReadAccess hop).bind fun h' r _ _ => ?_
    simp [Env.Returned, hop]
  | grantUpdateAccess b v =>
    refine (asks_grantUpdateAccess hop).bind fun h' r _ _ => ?_
    simp [Env.Returned, hop]
  | denyReadAccess b v =>
    refine (asks_denyReadAccess hop).bind fun h' r _ hr => ?_
    simpa [Env.Returned, hop, Result.ofStatus] using hr
  | denyUpdateAccess b v =>
    refine (asks_denyUpdateAccess hop).bind fun h' r _ _ => ?_
    simp [Env.Returned, hop]

end Hermes

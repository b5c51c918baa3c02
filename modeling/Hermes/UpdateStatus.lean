import Hermes.Creation
import Hermes.Sequential
import Hermes.Writing

/-!
# Does the status of an update tell the truth?

An update first sends the new version to the data store, and then saves the two tokens it
has loaded, in the names of their owners: the users who granted them. The key store checks
the rights of the owners. So an update whose user was granted access by somebody who has
lost it in the meantime is carried out, and reports a failure
(`Hermes.Env.not_updateTellsTruth`).

`Hermes.Env.updateTruthful_iff` says when the status is right: exactly if the update does
not get as far as that, or both owners still have what they gave.
-/

namespace Hermes

open Interleave

namespace Env

variable (E : Env)

/-- In the call, the data store has taken a version of the block with this content, which is
what it has in the end. -/
def Became (w : World) (h : Hist) (b d mt : Bytes) : Prop :=
  ∃ blk mac old k kw, Got h (.ds (.updateBlock b blk mt mac old)) (.ok ()) ∧
    E.Version k kw d mt blk mac ∧ w.stored b = some ⟨blk, mt, mac⟩

/-- **The status of an update, executed alone, tells the truth**: it is `HM_SUCCESS` exactly
if the stored content became the given one; and if it is not, the stores are as before. -/
def UpdateTruthful (w : World) (user : User) (b d mt : Bytes) : Prop :=
  let p := midHermesUpdateBlock user b d mt
  let w' := (p.run E.handle w).2
  ∃ st, (p.run E.handle w).1 = .ok st ∧
    (st = hmSuccess ↔ E.Became w' (p.events E.handle w []) b d mt) ∧
    (st ≠ hmSuccess → w'.entry = w.entry ∧ w'.stored = w.stored)

/-- **It always does**, in every state that completed calls of honest users have left. -/
def UpdateTellsTruth : Prop :=
  ∀ rands log w user b d mt, E.Sequential Call.KeepsBlocks rands log w → E.Registered user →
    E.UpdateTruthful w user b d mt

/-- The owners of the tokens of a user may still give them: each is the user itself, or has
a token of this kind. -/
def OwnersKept (v : Slice) (u : Bytes) : Prop :=
  ∀ e, v.entry u = some e → (u = e.rtokenOwner ∨ v.entry e.rtokenOwner ≠ none) ∧
    ∀ x, e.wtoken = some x → u = x.2 ∨ writeToken (v.entry x.2) ≠ none

/-- The outcome of an update that the data store accepts. -/
def UpdateAccepted (v : Slice) (b u d mt : Bytes) (x : Except Stop HermesStatus) (v' : Slice)
    (h : Hist) : Prop :=
  (∃ blk mac old k kw, Got h (.ds (.updateBlock b blk mt mac old)) (.ok ()) ∧
    E.Version k kw d mt blk mac ∧ v'.stored = some ⟨blk, mt, mac⟩) ∧
  ((OwnersKept v u ∧ x = .ok hmSuccess) ∨ (¬OwnersKept v u ∧ x = .ok 1))

variable {E} {v : Slice} {b : Bytes} {user : User}

/-- Saving the tokens of an update: the entry is what it was, unless an owner has lost its
rights. -/
theorem does_saveTokens {x : Bytes × Bytes} {e : Entry} {k kw : Bytes} {rt wt : Token}
    (hb : b ≠ []) (he : v.entry user.id = some e) (hw : e.wtoken = some x)
    (hk : E.TokenFor user.id (e.rtoken, e.rtokenOwner) k) (hkw : E.TokenFor user.id x kw)
    (hrt : E.HoldsKey user (e.rtoken, e.rtokenOwner) k rt) (hwt : E.HoldsKey user x kw wt)
    {h : Hist} {blk data metadata oldMac mac : Option Bytes}
    {Q : Except Stop Bool → Slice → Hist → Prop}
    (hok : OwnersKept v user.id → ∀ v' l, v'.stored = v.stored → Q (.ok true) v' (l ++ h))
    (hfail : ¬OwnersKept v user.id → ∀ v' l, v'.stored = v.stored →
      Q (.ok false) v' (l ++ h)) :
    E.Does b (midHermesLlBlockSaveTokens
      ⟨user, some b, blk, data, metadata, oldMac, mac, some rt, some wt⟩ []) v h Q := by
  simp only [midHermesLlBlockSaveTokens, midHermesLlRtokenSave, midHermesLlWtokenSave,
    Option.getD_some, hrt.user_eq, hrt.token_eq, hrt.owner_eq, hwt.user_eq, hwt.token_eq,
    hwt.owner_eq]
  refine does_setRtoken hb user.id_ne_nil hk.owner_ne hk.token_ne (fun hown => ?_)
    fun hne hno => ?_
  · -- the entry is written back as it was
    have hentry : (v.setEntry user.id (some ⟨e.rtoken, e.rtokenOwner,
        writeToken (v.entry user.id)⟩)).entry = v.entry := by
      funext u
      rw [Slice.entry_setEntry]
      split_ifs with hu
      · rw [hu, he]
        rfl
      · rfl
    -- then the write token is, if its owner has one
    refine does_setWtoken hb user.id_ne_nil hkw.owner_ne hkw.token_ne (fun e' hown' he' => ?_)
      fun hno => ?_
    · refine hok (fun e₁ he₁ => ?_) _ [_, _] (by simp)
      rw [he] at he₁
      cases he₁
      refine ⟨hown, fun x' hx' => ?_⟩
      rw [hw] at hx'
      cases hx'
      rwa [hentry] at hown'
    · refine hfail (fun hkept => ?_) _ [_, _] (by simp)
      rw [hentry] at hno
      rcases hno with ⟨hne, hno⟩ | hno
      · rcases (hkept e he).2 x hw with heq | hsome
        · exact hne heq
        · exact hsome hno
      · rw [he] at hno
        cases hno
  · -- the owner of the read token has no entry any more
    refine hfail (fun hkept => ?_) v [_] rfl
    rcases (hkept e he).1 with heq | hsome
    · exact hne heq
    · exact hsome hno

/-- **What an update does, executed alone**: it is refused, or the tokens of its user fit the
stored block and it is accepted. -/
theorem does_updateBlock_call (hreg : E.Registered user) (hv : E.WellFormedAt v) {d mt : Bytes}
    (hb : b ≠ []) (hd : d ≠ []) (hmt : mt ≠ []) :
    E.Does b (midHermesUpdateBlock user b d mt) v [] fun x v' h' =>
      (¬E.Fits v user.id ∧ Refused x h') ∨
        (E.Fits v user.id ∧ E.UpdateAccepted v b user.id d mt x v' h') := by
  have hone : (1 : HermesStatus) ≠ hmSuccess := by decide
  unfold midHermesUpdateBlock
  rw [if_neg (by tauto)]
  by_cases hread : ∃ d mt, E.Readable v user.id d mt
  · obtain ⟨d₀, mt₀, e, s, k, kw, he, hs, hk, hsealed, rfl⟩ := hread
    obtain ⟨rt, wt, mac, hrt, hmac, hload⟩ := computes_load hreg hv hb he hs hk hsealed
    refine hload.does fun l hl => ?_
    cases wt with
    | none =>
      -- without a write token there is no new version
      refine Or.inl ⟨?_, ⟨1, hone, rfl⟩, fun e he => idle_of_readAt hl e (by simpa using he)⟩
      rintro ⟨e', s', k', kw', d', x, he', -, -, -, hx, -⟩
      rw [he] at he'
      cases he'
      rw [hmac.1] at hx
      cases hx
    | some wt =>
      obtain ⟨x, kwu, hx, hkw, hwt, rfl⟩ := hmac
      refine (computes_update hreg rfl rfl hrt hwt hd mt).does fun l' hl' => ?_
      have hfits := fits_iff_mac he hs hk hsealed hx hkw
      have hl₀ : ∀ e ∈ l' ++ (l ++ []), Idle e := fun e he =>
        (List.mem_append.mp he).elim (idle_of_readAt hl' e) fun he =>
          idle_of_readAt hl e (by simpa using he)
      refine does_save hb (E.themis.encryptSeal_ne_nil _ _ _) hmt (E.themis.hmac_ne_nil _ _)
        (E.themis.hmac_ne_nil _ _) hs (fun hm => ?_) fun hm => ?_
      · -- the tokens are saved in a slice with the same entries
        let blk := E.themis.encryptSeal k mt d
        let mac := E.themis.hmac kwu [d, mt]
        let got : Event Req.Answer := ⟨.ds (.updateBlock b blk mt mac
          (E.themis.hmac kwu [d₀, s.metadata])), .ok ()⟩
        refine (does_saveTokens (v := v.setStored (some ⟨blk, mt, mac⟩)) (Q := fun x' v' h' =>
          got ∈ h' ∧ v'.stored = some ⟨blk, mt, mac⟩ ∧ ((OwnersKept v user.id ∧ x' = .ok true) ∨
            (¬OwnersKept v user.id ∧ x' = .ok false))) hb he hx hk hkw hrt hwt
          (fun hown v' l hv' => ⟨by simp [got, blk, mac], hv', Or.inl ⟨hown, rfl⟩⟩)
          (fun hown v' l hv' => ⟨by simp [got, blk, mac], hv', Or.inr ⟨hown, rfl⟩⟩)).bind ?_ ?_
        · rintro ok v' h' ⟨hgot, hv', hown⟩
          rcases hown with ⟨hown, hok⟩ | ⟨hown, hok⟩ <;> cases hok
          · exact Or.inr ⟨hfits.mpr hm, ⟨_, _, _, _, _, hgot, ⟨rfl, rfl⟩, hv'⟩, Or.inl ⟨hown, rfl⟩⟩
          · exact Or.inr ⟨hfits.mpr hm, ⟨_, _, _, _, _, hgot, ⟨rfl, rfl⟩, hv'⟩, Or.inr ⟨hown, rfl⟩⟩
        · rintro w v' h' ⟨-, -, ⟨-, hw⟩ | ⟨-, hw⟩⟩ <;> cases hw
      · refine Or.inl ⟨fun hf => hm (hfits.mp hf), ⟨1, hone, rfl⟩, fun e he => ?_⟩
        rcases List.mem_cons.mp he with rfl | he
        · exact ⟨fun _ _ _ => rfl, fun _ _ => rfl⟩
        · exact hl₀ e he
  · refine (computes_load_none hreg hv hb hread).does fun l hl => ?_
    exact Or.inl ⟨fun hf => hread hf.readable, ⟨1, hone, rfl⟩,
      fun e he => idle_of_readAt hl e (by simpa using he)⟩

/-- **When the status of an update is right.** Its arguments are refused; or the tokens of its
user do not fit the stored block, and nothing happens; or the owners of these tokens still
have what they gave. -/
theorem updateTruthful_iff {w : World} (hw : E.WellFormed w) (hreg : E.Registered user)
    {d mt : Bytes} :
    E.UpdateTruthful w user b d mt ↔ (b = [] ∨ d = [] ∨ mt = []) ∨
      ¬E.Fits (w.slice b) user.id ∨ OwnersKept (w.slice b) user.id := by
  by_cases hnull : b = [] ∨ d = [] ∨ mt = []
  · have hp : midHermesUpdateBlock user b d mt = .ret hmInvalidParameter := if_pos hnull
    refine ⟨fun _ => Or.inl hnull, fun _ => ?_⟩
    rw [UpdateTruthful, hp]
    refine ⟨_, rfl, ⟨fun h => absurd h (by decide), ?_⟩, fun _ => ⟨rfl, rfl⟩⟩
    rintro ⟨_, _, _, _, _, hgot, -⟩
    exact (not_got_nil hgot).elim
  simp only [not_or] at hnull
  obtain ⟨hb, hd, hmt⟩ := hnull
  have hrun := (does_updateBlock_call hreg (hw.at b) hb hd hmt).run
  simp only [hb, hd, hmt, or_self, false_or]
  rcases hrun with ⟨hfits, ⟨st, hst, hret⟩, hidle⟩ |
    ⟨hfits, ⟨blk, mac, old, k, kw, hgot, hversion, hstored⟩, hend⟩
  · -- it was refused, so nothing happened
    refine ⟨fun _ => Or.inl hfits, fun _ => ⟨st, hret, ⟨fun h => absurd h hst, ?_⟩, fun _ => ?_⟩⟩
    · rintro ⟨_, _, _, _, _, hgot, -⟩
      have hdata := (hidle _ hgot).2 (fun _ => none) b
      simp [dataAfter] at hdata
    · exact run_idle _ _ _ hidle
  · have hbecame : E.Became _ _ b d mt := ⟨blk, mac, old, k, kw, hgot, hversion, hstored⟩
    rcases hend with ⟨hown, hret⟩ | ⟨hown, hret⟩
    · exact ⟨fun _ => Or.inr hown, fun _ =>
        ⟨hmSuccess, hret, ⟨fun _ => hbecame, fun _ => rfl⟩, fun h => absurd rfl h⟩⟩
    · refine ⟨?_, fun h => (h.elim (· hfits) hown).elim⟩
      rintro ⟨st, hst, hiff, -⟩
      -- a failure is reported, although the content is the new one
      cases hret.symm.trans hst
      exact absurd (hiff.mpr hbecame) (by decide)

/-- **The status of an update tells the truth if and only if** the update is refused or the
owners of its user's tokens still have what they gave, in every reachable state. -/
theorem update_status_truthful_iff {allowed : Call → Prop} {P : Clients}
    (hP : E.Reachable allowed P) (hreg : E.Registered user) {d mt : Bytes} :
    E.UpdateTruthful P.state user b d mt ↔ (b = [] ∨ d = [] ∨ mt = []) ∨
      ¬E.Fits (P.state.slice b) user.id ∨ OwnersKept (P.state.slice b) user.id :=
  updateTruthful_iff hP.wellFormed.1 hreg

end Env

/-! ### An update with the token of a user who has lost access -/

/-- Alice lets Bob update a block of hers, Bob lets Carol, and Alice denies Bob. -/
def granterDenied : List Call :=
  [⟨alice, .createBlock (some [9]) [1] [2]⟩, ⟨alice, .grantReadAccess [9] bob.id⟩,
    ⟨alice, .grantUpdateAccess [9] bob.id⟩, ⟨bob, .grantReadAccess [9] carol.id⟩,
    ⟨bob, .grantUpdateAccess [9] carol.id⟩, ⟨alice, .denyReadAccess [9] bob.id⟩]

theorem registered_granterDenied :
    ∀ c ∈ granterDenied, demoEnv.Registered c.user ∧ c.KeepsBlocks := by
  simp [granterDenied, registered_alice, registered_bob, Call.KeepsBlocks]

/-- **Carol's update is carried out, and reports a failure.** -/
theorem Env.not_updateTellsTruth : ¬demoEnv.UpdateTellsTruth := by
  intro h
  obtain ⟨log, hlog⟩ := sequential_demoWorld registered_granterDenied (by decide +kernel)
  obtain ⟨st, hst, -, hsame⟩ := h _ _ _ carol [9] [5] [6] hlog registered_carol
  have hfail : ((midHermesUpdateBlock carol [9] [5] [6]).run demoEnv.handle
      (demoWorld granterDenied)).1 = .ok 1 := by decide +kernel
  cases hfail.symm.trans hst
  have hstored := congrFun (hsame (by decide)).2 [9]
  exact absurd hstored (by decide +kernel)

/-- In the same state, an update of Alice is reported as it is. -/
theorem Env.update_status_truthful_alice :
    demoEnv.UpdateTruthful (demoWorld granterDenied) alice [9] [5] [6] := by
  obtain ⟨log, hlog⟩ := sequential_demoWorld registered_granterDenied (by decide +kernel)
  obtain ⟨P, hP, -, hstate⟩ := hlog.reachable
  rw [← hstate]
  refine (Env.update_status_truthful_iff hP registered_alice).mpr (Or.inr (Or.inr ?_))
  -- she has given herself what she has
  have howner : ((demoWorld granterDenied).entry [9] alice.id).all (fun e =>
      alice.id = e.rtokenOwner ∧ e.wtoken.all fun x => alice.id = x.2) = true := by decide +kernel
  rw [hstate]
  intro e he
  rw [show (demoWorld granterDenied).entry [9] alice.id = some e from he] at howner
  obtain ⟨hr, hw⟩ := of_decide_eq_true howner
  refine ⟨Or.inl hr, fun x hx => Or.inl ?_⟩
  rw [hx] at hw
  exact of_decide_eq_true hw

end Hermes

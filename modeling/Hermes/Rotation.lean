import Hermes.Creation
import Hermes.Instance
import Hermes.Keys
import Hermes.Rekeying

/-!
# A rotation gives new keys to those who have access, and to nobody else

The main result of the file is `Hermes.Env.rotate_block_rekeys`: after a rotation that
reports `HM_SUCCESS` the content is what it was, under keys that the call has drawn; who
had a token of either kind has one of the new key, who had none has none, and the new keys
were wrapped for nobody else. What anybody has kept of old tokens opens to keys that were
drawn before (`Hermes.Env.KeysDrawn`), so if the keys of the rotation are fresh it neither
opens the new block nor makes its mac.
-/

namespace Hermes

open Interleave

namespace Env

variable (E : Env)

/-- Somebody has, or has had, this token: it is stored, or a client was given it, or has made
it. -/
def Seen (P : Clients) (tok : Bytes) : Prop :=
  (∃ isUpdate b u x, (P.state.slice b).token isUpdate u = some x ∧ x.1 = tok) ∨
    ∃ t ∈ P.threads, (∃ isUpdate b u x, GotToken t.hist isUpdate b u x ∧ x.1 = tok) ∨
      ∃ sk pk k, Got t.hist (.themis (.wrap sk pk k)) (some tok)

/-- Whatever the token opens to, with this private key, neither opens the block nor makes its
mac. -/
def Useless (s : StoredBlock) (sk tok : Bytes) : Prop :=
  ∀ pk k, E.themis.unwrap sk pk tok = some k →
    (∀ c, E.themis.decryptSeal k c s.block = none) ∧ ∀ xs, E.themis.hmac k xs ≠ s.mac

/-- **A rotation re-keys exactly to the current holders.** -/
structure Rotated (P : Clients) (user : User) (b : Bytes) (w' : World) (h : Hist) (k kw : Bytes) :
    Prop where
  /-- The content is what it was, under the new keys. -/
  content : ∃ s s' k₀ kw₀ d, P.state.stored b = some s ∧ E.Sealed k₀ kw₀ d s ∧
    w'.stored b = some s' ∧ E.Sealed k kw d s' ∧ s'.metadata = s.metadata
  /-- The keys were drawn by this call. -/
  drew : Drew h 0 k ∧ Drew h 1 kw
  /-- The user is one of the holders. -/
  caller : ∀ isUpdate, (P.state.slice b).token isUpdate user.id ≠ none
  /-- Who has a token is who had one. -/
  holders : ∀ isUpdate u, (w'.slice b).token isUpdate u = none ↔
    (P.state.slice b).token isUpdate u = none
  /-- The tokens are of the new keys. -/
  tokens : ∀ isUpdate u x, (w'.slice b).token isUpdate u = some x →
    E.TokenFor u x (keyFor isUpdate k kw)
  /-- The new keys were wrapped for the holders only. -/
  wrapped : ∀ isUpdate sk pk a, Got h (.themis (.wrap sk pk (keyFor isUpdate k kw))) a →
    ∃ u, E.credentials u = some pk ∧ (P.state.slice b).token isUpdate u ≠ none
  /-- Old tokens are useless, to anybody. -/
  old : ∀ s' tok sk, w'.stored b = some s' → Seen P tok → E.Useless s' sk tok
  /-- New ones are useless to those whose private key is not that of a holder. -/
  new : ∀ s' tok sk, w'.stored b = some s' →
    (∀ u, P.state.entry b u ≠ none → E.credentials u ≠ some (E.themis.pub sk)) →
    ((∃ isUpdate u x, (w'.slice b).token isUpdate u = some x ∧ x.1 = tok) ∨
      ∃ sk' pk k', Got h (.themis (.wrap sk' pk k')) (some tok)) → E.Useless s' sk tok

variable {E} {allowed : Call → Prop} {P : Clients} {user : User} {b : Bytes}

/-! ### What old tokens open to -/

/-- **What a token that was seen opens to was drawn.** -/
theorem Seen.opensToDrawn {tok : Bytes} (hP : E.Reachable allowed P) (h : Seen P tok) :
    E.OpensToDrawn P tok := by
  have hdrawn := hP.keysDrawn
  rcases h with ⟨isUpdate, b, u, x, hx, rfl⟩ | ⟨t, ht, ⟨isUpdate, b, u, x, hx, rfl⟩ |
    ⟨sk, pk, k, hg⟩⟩
  · exact hdrawn.token hx
  · exact hdrawn.got t ht hx
  · have hhonest := hP.honest t ht
    obtain ⟨h', -, hsound, -⟩ := hhonest.accounts.1.of_mem hg
    have htok : tok = E.themis.wrap sk pk k := hsound
    intro sk' pk' k' hun
    rw [htok] at hun
    rw [E.themis.unwrap_wrap_eq hun]
    exact hdrawn.of_wrapped ht hhonest hg

/-- A token that opens to another key is useless. -/
theorem useless_of_ne {s : StoredBlock} {sk tok k kw d : Bytes} (hs : E.Sealed k kw d s)
    (hne : ∀ pk k', E.themis.unwrap sk pk tok = some k' → k' ≠ k ∧ k' ≠ kw) :
    E.Useless s sk tok := by
  intro pk k' hun
  obtain ⟨hk, hkw⟩ := hne pk k' hun
  refine ⟨fun c => ?_, fun xs heq => ?_⟩
  · rw [Option.eq_none_iff_forall_ne_some]
    intro d' hd
    rw [hs.version.1, E.themis.decryptSeal_encryptSeal_eq_some] at hd
    exact hk hd.1
  · rw [hs.version.2] at heq
    exact hkw (E.themis.hmac_inj heq).1

/-! ### The rotation -/

/-- What the exchanges of a rotation have behind them. -/
theorem rotation_accounted {fuel : ℕ} (hreg : E.Registered user) (w : World) :
    Prog.Accounted E.Sound (E.Justified ⟨user, .rotateBlock b⟩)
      ((midHermesRotateBlock fuel user b).events E.handle w []) :=
  ((asks_rotateBlock (c := ⟨user, .rotateBlock b⟩) rfl hreg fuel).events (sound_handle E) trivial
    w).1

/-- The keys of the new version are the two the call has drawn. -/
theorem drew_of_rotated {h : Hist}
    (hacc : Prog.Accounted E.Sound (E.Justified ⟨user, .rotateBlock b⟩) h)
    {blk mt mac old k kw d : Bytes} (hgot : Got h (.ds (.updateBlock b blk mt mac old)) (.ok ()))
    (hv : E.Version k kw d mt blk mac) : Drew h 0 k ∧ Drew h 1 kw := by
  obtain ⟨h', hs, -, hJ⟩ := hacc.of_mem hgot
  obtain ⟨-, -, k₀, d', k', kw', -, hk, hkw, hv'⟩ := hJ
  obtain ⟨rfl, -, -⟩ := E.themis.encryptSeal_inj (hv.1.symm.trans hv'.1)
  obtain ⟨rfl, -⟩ := E.themis.hmac_inj (hv.2.symm.trans hv'.2)
  exact ⟨hk.mono hs, hkw.mono hs⟩

/-- **The keys a rotation wraps are wrapped for holders of the same kind of token.** -/
theorem holder_of_wrapped {h : Hist} {v : Slice}
    (hacc : Prog.Accounted E.Sound (E.Justified ⟨user, .rotateBlock b⟩) h)
    (hreg : E.Registered user) (htokens : TokensFrom b v h)
    (hcaller : ∀ isUpdate, v.token isUpdate user.id ≠ none) {sk pk k : Bytes}
    {a : ThemisReq.Answer (.wrap sk pk k)} (hg : Got h (.themis (.wrap sk pk k)) a) :
    ∃ isUpdate u, Drew h (if isUpdate then 1 else 0) k ∧ E.credentials u = some pk ∧
      v.token isUpdate u ≠ none := by
  obtain ⟨h', hs, -, hJ⟩ := hacc.of_mem hg
  obtain ⟨-, isUpdate, hd, hpk⟩ := hJ
  rcases hpk with rfl | ⟨u, x, hu, hx⟩
  · exact ⟨isUpdate, user.id, hd.mono hs, hreg.pk_eq, hcaller isUpdate⟩
  · refine ⟨isUpdate, u, hd.mono hs, hu, ?_⟩
    rw [htokens isUpdate u x (hx.mono hs)]
    simp

/-- **A rotation that succeeds re-keys the block to its current holders**, from every
reachable state, if the keys it draws are fresh. -/
theorem rotate_block_rekeys {fuel : ℕ} (hP : E.Reachable allowed P) (hreg : E.Registered user)
    (hsuccess : ((midHermesRotateBlock fuel user b).run E.handle P.state).1 = .ok hmSuccess)
    (hfresh : (((midHermesRotateBlock fuel user b).events E.handle P.state []).filterMap drawnKey ++
      drawnKeys P).Nodup) :
    ∃ k kw, E.Rotated P user b ((midHermesRotateBlock fuel user b).run E.handle P.state).2
      ((midHermesRotateBlock fuel user b).events E.handle P.state []) k kw := by
  have hb : b ≠ [] := by
    rintro rfl
    have hinvalid : (Except.ok hmInvalidParameter : Except Stop HermesStatus) = .ok hmSuccess :=
      hsuccess
    exact absurd (Except.ok.inj hinvalid) (by decide)
  have hw := hP.wellFormed.1
  have hacc : Prog.Accounted E.Sound (E.Justified ⟨user, .rotateBlock b⟩)
      ((midHermesRotateBlock fuel user b).events E.handle P.state []) := rotation_accounted hreg _
  have hdoes : E.Does b (midHermesRotateBlock fuel user b) (P.state.slice b) [] _ :=
    does_rotateBlock hreg (hw.at b) hb
  obtain ⟨htokens, ⟨-, hno⟩ | ⟨-, hwriter, sk, k, kw, s, k₀, kw₀, d, blk, mac, hsk, hk, hkw, hs,
    hsealed, hversion, hgot, hstored, hentry⟩⟩ := hdoes.run
  · exact absurd hsuccess hno
  generalize (midHermesRotateBlock fuel user b).events E.handle P.state [] = h at *
  generalize ((midHermesRotateBlock fuel user b).run E.handle P.state).2 = w' at *
  obtain ⟨hnodup, -, hdisj⟩ := List.nodup_append.mp hfresh
  have hdrew := drew_of_rotated hacc hgot hversion
  have hkkw : k ≠ kw := ne_of_drew hnodup hdrew.1 hdrew.2 Nat.zero_lt_one
  have hsealed' : E.Sealed k kw d ⟨blk, s.metadata, mac⟩ :=
    ⟨hk, hkw, hsealed.data_ne, hsealed.meta_ne, hversion⟩
  have hcaller : ∀ isUpdate, (P.state.slice b).token isUpdate user.id ≠ none := by
    rintro (_ | _)
    · rw [Slice.token, if_neg (by decide), ne_eq, Option.map_eq_none_iff]
      intro he
      exact hwriter (by rw [he]; rfl)
    · exact hwriter
  have htoken := token_rekeyed hentry
  have hnew : ∀ isUpdate u x, (w'.slice b).token isUpdate u = some x →
      E.TokenFor u x (keyFor isUpdate k kw) :=
    fun isUpdate u x hx => tokenFor_rekeyed hreg hsk (hw.at b) hk hkw hentry hx
  -- what was wrapped is one of the new keys, and the kind of token tells which
  have hwrapped : ∀ isUpdate sk' pk a, Got h (.themis (.wrap sk' pk (keyFor isUpdate k kw))) a →
      ∃ u, E.credentials u = some pk ∧ (P.state.slice b).token isUpdate u ≠ none := by
    intro isUpdate sk' pk a hg
    obtain ⟨kind, u, hd, hu, hhold⟩ := holder_of_wrapped hacc hreg htokens hcaller hg
    cases isUpdate <;> cases kind
    · exact ⟨u, hu, hhold⟩
    · exact absurd (hd.unique hdrew.2) hkkw
    · exact absurd (hdrew.1.unique hd) hkkw
    · exact ⟨u, hu, hhold⟩
  refine ⟨k, kw, ⟨s, _, k₀, kw₀, d, hs, hsealed, hstored, hsealed', rfl⟩, hdrew, hcaller,
    fun isUpdate u => ?_, hnew, hwrapped, fun s' tok sk' hs' hseen => ?_,
    fun s' tok sk' hs' hnone hmade => ?_⟩
  · rw [htoken, Option.map_eq_none_iff]
  · cases hs'.symm.trans hstored
    refine useless_of_ne hsealed' fun pk k' hun => ?_
    have hold := hseen.opensToDrawn hP sk' pk k' hun
    exact ⟨fun heq => hdisj k (mem_of_drew hdrew.1) k' hold heq.symm,
      fun heq => hdisj kw (mem_of_drew hdrew.2) k' hold heq.symm⟩
  · cases hs'.symm.trans hstored
    -- who opens it has the private key of a holder
    refine fun pk k' hun => (?_ : False).elim
    obtain ⟨sk₀, -, htok⟩ := E.themis.wrap_of_unwrap hun
    have hholder : ∃ isUpdate u, E.credentials u = some (E.themis.pub sk') ∧
        (P.state.slice b).token isUpdate u ≠ none := by
      rcases hmade with ⟨isUpdate, u, x, hx, rfl⟩ | ⟨sk₁, pk₁, k₁, hg⟩
      · obtain ⟨sk₂, pk₂, -, hpk₂, -, hx₁⟩ := (hnew isUpdate u x hx).wrapped
        rw [(E.themis.wrap_inj (hx₁.symm.trans htok)).2.1] at hpk₂
        refine ⟨isUpdate, u, hpk₂, fun h0 => ?_⟩
        rw [htoken, h0] at hx
        cases hx
      · obtain ⟨h', -, hsound, -⟩ := hacc.of_mem hg
        have hsound : tok = E.themis.wrap sk₁ pk₁ k₁ := hsound
        obtain ⟨isUpdate, u, -, hu, hhold⟩ := holder_of_wrapped hacc hreg htokens hcaller hg
        rw [(E.themis.wrap_inj (hsound.symm.trans htok)).2.1] at hu
        exact ⟨isUpdate, u, hu, hhold⟩
    obtain ⟨isUpdate, u, hu, hhold⟩ := hholder
    exact hnone u (fun he => hhold (Slice.token_eq_none (v := P.state.slice b) he isUpdate)) hu

end Env

/-- Alice rotates the block she shares. -/
theorem Env.rotate_block_rekeys_sharing : ∃ k kw, demoEnv.Rotated sharing alice [9]
    ((midHermesRotateBlock 8 alice [9]).run demoEnv.handle sharing.state).2
    ((midHermesRotateBlock 8 alice [9]).events demoEnv.handle sharing.state []) k kw := by
  exact Env.rotate_block_rekeys reachable_sharing registered_alice (by decide +kernel)
    (by decide +kernel)

end Hermes

import Hermes.Rights
import Hermes.Sequential

/-!
# Does a deletion remove a block completely?

A deletion removes the block, then the entry of the user who deletes, and then those of the
other users; each of these removals the key store allows to users with a write token only.
So once its own entry is gone, the key store refuses whatever else the deletion asks for:
a block that anybody else has an entry for is removed from the data store, the others keep
their entries, and the deletion reports a failure (`Hermes.Env.not_deletionComplete`).

`Hermes.Env.delete_block_complete_iff` says when a deletion is complete, and
`Hermes.Env.delete_block_failure_iff` when a failed one leaves everything as it was.
-/

namespace Hermes

open Interleave

namespace Env

variable (E : Env)

/-- A deletion that has reported a failure has changed nothing. -/
def UnchangedOnFailure (fuel : ℕ) (w : World) (user : User) (b : Bytes) : Prop :=
  let p := midHermesDeleteBlock fuel user b
  ∀ st, (p.run E.handle w).1 = .ok st → st ≠ hmSuccess →
    (p.run E.handle w).2.entry = w.entry ∧ (p.run E.handle w).2.stored = w.stored

/-- **A deletion, executed alone, is complete**: it succeeds, and nothing is left of the
block. And if it fails, everything is as it was. -/
def DeletesCompletely (fuel : ℕ) (w : World) (user : User) (b : Bytes) : Prop :=
  let p := midHermesDeleteBlock fuel user b
  ((p.run E.handle w).1 = .ok hmSuccess ∧ (p.run E.handle w).2.stored b = none ∧
    ∀ u, (p.run E.handle w).2.entry b u = none) ∧ E.UnchangedOnFailure fuel w user b

/-- **Every deletion is complete** by a user who has both tokens, in every state that
completed calls of honest users have left. -/
def DeletionComplete : Prop :=
  ∀ rands log w fuel user b, E.Sequential (fun _ => True) rands log w → E.Registered user →
    writeToken (w.entry b user.id) ≠ none → (w.keys b).keys.length ≤ fuel →
    E.DeletesCompletely fuel w user b

/-- Nobody but the user has an entry. -/
def Alone (v : Slice) (u : Bytes) : Prop := ∀ u', u' ≠ u → v.entry u' = none

/-- The outcome of a deletion that the data store accepts. -/
def Deleted (v : Slice) (u : Bytes) (x : Except Stop HermesStatus) (v' : Slice) : Prop :=
  v'.stored = none ∧ (∀ u', v'.entry u' = if u' = u then none else v.entry u') ∧
    ((Alone v u ∧ x = .ok hmSuccess) ∨ (¬Alone v u ∧ x = .ok hmFail))

variable {E} {v : Slice} {b : Bytes} {user : User} {fuel : ℕ}

/-- Without a write token of the one who deletes, no other entry is removed. -/
theorem does_deleteRights {bl : Block} (hb : b ≠ []) (hno : writeToken (v.entry bl.user.id) = none)
    {rights : List RightsListNode} {h : Hist} {Post : Except Stop Bool → Slice → Hist → Prop}
    (hnil : rights = [] → Post (.ok true) v h)
    (hcons : rights ≠ [] → ∀ h', Post (.ok false) v h') :
    E.Does b (midHermesLlBlockDeleteRights bl b rights) v h Post := by
  cases rights with
  | nil => exact hnil rfl
  | cons node rights =>
    refine does_delRtoken hb node.rtoken.user.id_ne_nil bl.user.id_ne_nil (fun hw => ?_) fun _ => ?_
    · exact absurd hno hw
    · exact hcons (by simp) _

/-- The key store part of a deletion: the own entry is removed, and nothing after it. -/
theorem does_deleteEntries (bl : Block) {rt : Token} (hb : b ≠ []) (hrt : rt.user = bl.user)
    (hw : writeToken (v.entry bl.user.id) ≠ none) {rights : List RightsListNode} {h : Hist}
    {Q : Except Stop Bool → Slice → Hist → Prop}
    (hnil : rights = [] → ∀ h', Q (.ok true) (v.setEntry bl.user.id none) h')
    (hcons : rights ≠ [] → ∀ h', Q (.ok false) (v.setEntry bl.user.id none) h') :
    E.Does b (midHermesLlRtokenDelete bl b (some rt) >>= fun
      | .error _ => .ret false
      | .ok _ => midHermesLlBlockDeleteRights bl b rights) v h Q := by
  simp only [midHermesLlRtokenDelete, hrt]
  refine does_delRtoken hb bl.user.id_ne_nil bl.user.id_ne_nil (fun _ _ => ?_) fun hno => ?_
  · refine does_deleteRights hb ?_ (fun h0 => hnil h0 _) hcons
    simp [Slice.entry_setEntry, writeToken]
  · -- who has a write token has an entry
    rcases hno with hno | hno
    · exact absurd hno hw
    · exact absurd (by rw [hno]; rfl) hw

/-- **What a deletion does, executed alone**: it is refused, or the tokens of its user fit the
stored block, which is removed with the entry of the user and nothing else. -/
theorem does_deleteBlock_call (hreg : E.Registered user) (hv : E.WellFormedAt v) (hb : b ≠ [])
    (hwriter : writeToken (v.entry user.id) ≠ none) (hfuel : v.users.keys.length ≤ fuel) :
    E.Does b (midHermesDeleteBlock fuel user b) v [] fun x v' h' =>
      (¬E.Fits v user.id ∧ Refused x h') ∨ (E.Fits v user.id ∧ Deleted v user.id x v') := by
  unfold midHermesDeleteBlock
  rw [if_neg hb]
  -- the block is loaded if its user can read what is stored
  by_cases hread : ∃ d mt, E.Readable v user.id d mt
  · obtain ⟨d, mt, e, s, k, kw, he, hs, hk, hsealed, rfl⟩ := hread
    obtain ⟨x, hx⟩ := Option.ne_none_iff_exists'.mp hwriter
    have hentry : v.entry user.id ≠ none := by rw [he]; simp
    have hx : e.wtoken = some x := by rw [he] at hx; exact hx
    obtain ⟨rt, wt, mac, hrt, hmac, hload⟩ := computes_load hreg hv hb he hs hk hsealed
    refine hload.does fun l hl => ?_
    cases wt with
    | none => rw [hmac.1] at hx; cases hx
    | some wt =>
      obtain ⟨x', kwu, hx', hkw, hwt, rfl⟩ := hmac
      refine (computes_accessRights hv hb rfl rfl hentry hfuel).does fun l' hl' => ?_
      have hfits := fits_iff_mac he hs hk hsealed hx' hkw
      have hl₀ : ∀ e ∈ l' ++ (l ++ []), Idle e := fun e he =>
        (List.mem_append.mp he).elim (idle_of_readAt hl' e) fun he =>
          idle_of_readAt hl e (by simpa using he)
      simp only [midHermesLlBlockDelete, Bool.not_true, Bool.and_self, Bool.false_eq_true,
        if_false, if_true, Option.getD_none, Option.getD_some, Prog.bind_assoc]
      refine does_remBlock hb (E.themis.hmac_ne_nil _ _) hs (fun hm => ?_) fun hm => ?_
      · -- the block is gone, and the own entry goes next
        refine (does_deleteEntries (v := v.setStored none)
          ⟨user, some b, some s.block, some d, some s.metadata, none,
            some (E.themis.hmac kwu [d, s.metadata]), some rt, some wt⟩ (Q := fun x' v' _ =>
          v' = (v.setStored none).setEntry user.id none ∧
            ((Alone v user.id ∧ x' = .ok true) ∨ (¬Alone v user.id ∧ x' = .ok false))) hb
          hrt.user_eq hwriter (fun h0 _ => ⟨rfl, Or.inl ⟨(rightsList_eq_nil hv).mp h0, rfl⟩⟩)
          (fun h0 _ => ⟨rfl, Or.inr ⟨fun ha => h0 ((rightsList_eq_nil hv).mpr ha), rfl⟩⟩)).bind
          ?_ ?_
        · rintro ok v' h' ⟨rfl, hend⟩
          have hentries : ∀ u, ((v.setStored none).setEntry user.id none).entry u =
              if u = user.id then none else v.entry u := fun u => Slice.entry_setEntry _ _ _
          rcases hend with ⟨halone, hok⟩ | ⟨halone, hok⟩ <;> cases hok
          · exact Or.inr ⟨hfits.mpr hm, by simp, hentries, Or.inl ⟨halone, rfl⟩⟩
          · exact Or.inr ⟨hfits.mpr hm, by simp, hentries, Or.inr ⟨halone, rfl⟩⟩
        · rintro w v' h' ⟨-, ⟨-, hw⟩ | ⟨-, hw⟩⟩ <;> cases hw
      · -- the data store refuses the mac
        refine Or.inl ⟨fun hf => hm (hfits.mp hf), ⟨hmFail, by decide, rfl⟩, fun e he => ?_⟩
        rcases List.mem_cons.mp he with rfl | he
        · exact ⟨fun _ _ _ => rfl, fun _ _ => rfl⟩
        · exact hl₀ e he
  · refine (computes_load_none hreg hv hb hread).does fun l hl => ?_
    exact Or.inl ⟨fun hf => hread hf.readable, ⟨1, by decide, rfl⟩,
      fun e he => idle_of_readAt hl e (by simpa using he)⟩

variable {w : World}

/-- **When a deletion by a user with both tokens is complete**: its tokens fit the stored
block, and nobody else has an entry. -/
theorem deletesCompletely_iff (hw : E.WellFormed w) (hreg : E.Registered user) (hb : b ≠ [])
    (hwriter : writeToken (w.entry b user.id) ≠ none) (hfuel : (w.keys b).keys.length ≤ fuel) :
    E.DeletesCompletely fuel w user b ↔
      E.Fits (w.slice b) user.id ∧ Alone (w.slice b) user.id := by
  rcases (does_deleteBlock_call hreg (hw.at b) hb hwriter hfuel).run with
    ⟨hfits, ⟨st, hst, hret⟩, -⟩ | ⟨hfits, hstored, hentry, hend⟩
  · refine ⟨fun h => ?_, fun h => absurd h.1 hfits⟩
    cases hret.symm.trans h.1.1
    exact absurd rfl hst
  · rcases hend with ⟨halone, hret⟩ | ⟨halone, hret⟩
    · refine ⟨fun _ => ⟨hfits, halone⟩, fun _ => ⟨⟨hret, hstored, fun u => ?_⟩,
        fun st hst hne => ?_⟩⟩
      · refine (hentry u).trans ?_
        split_ifs with hu
        · rfl
        · exact halone u hu
      · cases hret.symm.trans hst
        exact absurd rfl hne
    · refine ⟨fun h => ?_, fun h => absurd h.2 halone⟩
      cases hret.symm.trans h.1.1

/-- When a deletion that fails has changed nothing: the data store has refused it, or
nobody else has an entry. -/
theorem unchangedOnFailure_iff (hw : E.WellFormed w) (hreg : E.Registered user) (hb : b ≠ [])
    (hwriter : writeToken (w.entry b user.id) ≠ none) (hfuel : (w.keys b).keys.length ≤ fuel) :
    E.UnchangedOnFailure fuel w user b ↔
      ¬E.Fits (w.slice b) user.id ∨ Alone (w.slice b) user.id := by
  rcases (does_deleteBlock_call hreg (hw.at b) hb hwriter hfuel).run with
    ⟨hfits, -, hidle⟩ | ⟨hfits, hstored, -, hend⟩
  · exact ⟨fun _ => Or.inl hfits, fun _ _ _ _ => run_idle _ _ _ hidle⟩
  · rcases hend with ⟨halone, hret⟩ | ⟨halone, hret⟩
    · refine ⟨fun _ => Or.inr halone, fun _ st hst hne => ?_⟩
      cases hret.symm.trans hst
      exact absurd rfl hne
    · refine ⟨fun h => ?_, fun h => (h.elim (· hfits) halone).elim⟩
      -- the block is gone, and was there
      obtain ⟨_, s, _, _, _, _, -, hs, -⟩ := hfits
      have hsame := congrFun (h _ hret (by decide)).2 b
      rw [show w.stored b = some s from hs] at hsame
      cases hsame.symm.trans hstored

/-- **A deletion is complete if and only if** the tokens of its user fit the stored block and
nobody else has an entry, in every reachable state. -/
theorem delete_block_complete_iff {allowed : Call → Prop} {P : Clients}
    (hP : E.Reachable allowed P) (hreg : E.Registered user)
    (hwriter : writeToken (P.state.entry b user.id) ≠ none)
    (hfuel : (P.state.keys b).keys.length ≤ fuel) :
    E.DeletesCompletely fuel P.state user b ↔
      E.Fits (P.state.slice b) user.id ∧ Alone (P.state.slice b) user.id := by
  have hw := hP.wellFormed.1
  refine deletesCompletely_iff hw hreg ?_ hwriter hfuel
  cases he : P.state.entry b user.id with
  | none => exact absurd (by rw [he]; rfl) hwriter
  | some e => exact (hw.rtoken he).1.1

end Env

/-! ### A block that two users have -/

/-- **Alice deletes a block that Bob can read**, and nothing but her own entry and the block
itself goes. -/
theorem Env.not_deletionComplete : ¬demoEnv.DeletionComplete := by
  intro h
  obtain ⟨log, hlog⟩ := sequential_demoWorld (registered_true (registered_sharedWithBob (b := [9])))
    (by decide +kernel)
  obtain ⟨⟨hret, -⟩, -⟩ := h _ _ _ 8 alice [9] hlog registered_alice (by decide +kernel)
    (by decide +kernel)
  have hfail : ((midHermesDeleteBlock 8 alice [9]).run demoEnv.handle
      (demoWorld (sharedWithBob [9]))).1 = .ok hmFail := by decide +kernel
  cases hfail.symm.trans hret

/-- The same, from the condition: Bob has an entry. -/
theorem Env.delete_block_complete_sharedWithBob :
    ¬demoEnv.DeletesCompletely 8 (demoWorld (sharedWithBob [9])) alice [9] := by
  obtain ⟨log, hlog⟩ := sequential_demoWorld (registered_true (registered_sharedWithBob (b := [9])))
    (by decide +kernel)
  obtain ⟨P, hP, -, hstate⟩ := hlog.reachable
  rw [← hstate]
  rw [Env.delete_block_complete_iff hP registered_alice (by rw [hstate]; decide +kernel)
    (by rw [hstate]; decide +kernel), hstate]
  rintro ⟨-, halone⟩
  exact absurd (halone bob.id (by decide)) (by decide +kernel)

end Hermes

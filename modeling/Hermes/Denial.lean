import Hermes.Rights
import Hermes.Sequential

/-!
# Is a denial of read access all or nothing?

A denial removes the write token of the other user, whatever becomes of that, and then its
entry; the key store allows both to users with a write token only. So it is all or nothing,
unless a user denies itself: then the first removal takes away the right to the second, and
the denial reports a failure after it has removed the write token
(`Hermes.Env.not_denialAllOrNothing`).

`Hermes.Env.deny_read_access_all_or_nothing_iff` says exactly when it is.
-/

namespace Hermes

open Interleave

namespace Env

variable (E : Env)

/-- **A denial of read access, executed alone, is all or nothing**: it succeeds, and nothing
but the entry of the other user has gone; or it fails, and all entries are as they were. -/
def DeniesAllOrNothing (w : World) (user : User) (b v : Bytes) : Prop :=
  let p := midHermesDenyReadAccess user b v
  ((p.run E.handle w).1 = .ok hmSuccess ∧ (p.run E.handle w).2.entry b v = none ∧
    ∀ b' u, ¬(b' = b ∧ u = v) → (p.run E.handle w).2.entry b' u = w.entry b' u) ∨
  ((∃ st, st ≠ hmSuccess ∧ (p.run E.handle w).1 = .ok st) ∧
    (p.run E.handle w).2.entry = w.entry)

/-- **Every denial is all or nothing** by a user who has both tokens and for a registered user
with an entry, in every state that completed calls of honest users have left. -/
def DenialAllOrNothing : Prop :=
  ∀ rands log w user b v, E.Sequential (fun _ => True) rands log w → E.Registered user →
    writeToken (w.entry b user.id) ≠ none → E.credentials v ≠ none → w.entry b v ≠ none →
    E.DeniesAllOrNothing w user b v

/-- The outcome of a denial whose user can open the block. -/
def DenialEnd (v : Slice) (user : User) (b u : Bytes) (x : Except Stop HermesStatus) (v' : Slice)
    (h : Hist) : Prop :=
  (∀ e ∈ h, Spares b u e) ∧
    ((u ≠ user.id ∧ x = .ok hmSuccess ∧ v'.entry u = none) ∨
      (u = user.id ∧ x = .ok hmFail ∧ v'.entry u ≠ v.entry u))

variable {E} {v : Slice} {b u : Bytes} {user : User}

theorem spares_delRtoken {o : Bytes} {a : Reply Unit} : Spares b u ⟨.ks (.delRtoken b u o), a⟩ := by
  intro m b' u' hne
  cases a with
  | ok _ => exact if_neg hne
  | error _ => rfl

theorem spares_delWtoken {o : Bytes} {a : Reply Unit} : Spares b u ⟨.ks (.delWtoken b u o), a⟩ := by
  intro m b' u' hne
  cases a with
  | ok _ => exact if_neg hne
  | error _ => rfl

/-- **The two removals**, in the name of a user with a write token. -/
theorem does_tokenDel {α : Type} {forUser owner : User} (hb : b ≠ [])
    (hwriter : writeToken (v.entry owner.id) ≠ none) (hentry : v.entry forUser.id ≠ none) {h : Hist}
    (hh : ∀ e ∈ h, Spares b forUser.id e) {k : Reply Unit → Client α}
    {Post : Except Stop α → Slice → Hist → Prop}
    (hother : forUser.id ≠ owner.id → ∀ v' h', v'.entry forUser.id = none →
      (∀ e ∈ h', Spares b forUser.id e) → E.Does b (k (.ok ())) v' h' Post)
    (hself : forUser.id = owner.id → ∀ v' h', v'.entry forUser.id ≠ v.entry forUser.id →
      (∀ e ∈ h', Spares b forUser.id e) → E.Does b (k (.error .fail)) v' h' Post) :
    E.Does b (midHermesLlTokenDel forUser owner b false >>= k) v h Post := by
  unfold midHermesLlTokenDel
  rw [Prog.bind_assoc]
  refine does_delWtoken hb forUser.id_ne_nil owner.id_ne_nil (fun e _ he => ?_) fun hno => ?_
  · have hspares : ∀ e ∈ (⟨.ks (.delWtoken b forUser.id owner.id), .ok ()⟩ : Event Req.Answer) :: h,
        Spares b forUser.id e := List.forall_mem_cons.mpr ⟨spares_delWtoken, hh⟩
    refine does_delRtoken hb forUser.id_ne_nil owner.id_ne_nil (fun hw' _ => ?_) fun hno => ?_
    · refine hother (fun heq => hw' ?_) _ _ ?_
        (List.forall_mem_cons.mpr ⟨spares_delRtoken, hspares⟩)
      · -- the write token of the one who denies has just been removed
        rw [Slice.entry_setEntry, if_pos heq.symm]
        rfl
      · rw [Slice.entry_setEntry, if_pos rfl]
    · have heq : forUser.id = owner.id := by
        by_contra hne
        rw [Slice.entry_setEntry, Slice.entry_setEntry, if_neg (Ne.symm hne), if_pos rfl] at hno
        exact hno.elim hwriter (by simp)
      refine hself heq _ _ ?_ (List.forall_mem_cons.mpr ⟨spares_delRtoken, hspares⟩)
      rw [Slice.entry_setEntry, if_pos rfl]
      intro hsame
      rw [← heq, ← hsame] at hwriter
      exact hwriter rfl
  · exact (hno.elim hwriter hentry).elim

/-- **What a denial does, executed alone**: it is refused if its user cannot open the block. -/
theorem does_denyReadAccess_call (hreg : E.Registered user) (hv : E.WellFormedAt v) (hb : b ≠ [])
    (hwriter : writeToken (v.entry user.id) ≠ none) (hentry : v.entry u ≠ none) :
    E.Does b (midHermesDenyReadAccess user b u) v [] fun x v' h' =>
      ((¬∃ d mt, E.Readable v user.id d mt) ∧ Refused x h') ∨
        ((∃ d mt, E.Readable v user.id d mt) ∧ DenialEnd v user b u x v' h') := by
  obtain ⟨e', he'⟩ := Option.ne_none_iff_exists'.mp hentry
  obtain ⟨hu, ku, hku⟩ := hv.rtoken he'
  unfold midHermesDenyReadAccess midHermesDenyAccess
  rw [if_neg (by tauto)]
  by_cases hread : ∃ d mt, E.Readable v user.id d mt
  · have hread' := hread
    obtain ⟨d, mt, e, s, k, kw, he, hs, hk, hsealed, rfl⟩ := hread'
    obtain ⟨x, hx⟩ := Option.ne_none_iff_exists'.mp hwriter
    have hx : e.wtoken = some x := by rw [he] at hx; exact hx
    obtain ⟨rt, wt, mac, -, hmac, hload⟩ := computes_load hreg hv hb he hs hk hsealed
    refine hload.does fun l hl => ?_
    cases wt with
    | none => rw [hmac.1] at hx; cases hx
    | some wt =>
      obtain ⟨x', kwu, -, -, hwt, rfl⟩ := hmac
      obtain ⟨⟨forUser, hfor⟩, -⟩ := hku.loadUser hu
      obtain ⟨rfl, -, -⟩ := loadUser_eq_some hfor
      obtain ⟨sk, hne, hsk, -⟩ := hreg.sk_eq
      have hforUser := computes_userLoadC (E := E) (b := b) (v := v) forUser.id
      rw [hfor] at hforUser
      refine hforUser.does fun l' hl' => ?_
      refine (computes_getTokenForUser hreg hsk hwt).does fun l'' hl'' => ?_
      -- all that was asked so far spares the entry of the other user
      have hidle : ∀ e ∈ l'' ++ (l' ++ (l ++ [])), Spares b forUser.id e := fun e he => by
        simp only [List.mem_append, List.not_mem_nil, or_false] at he
        rcases he with he | he | he
        · exact (idle_of_readAt hl'' e he).spares _ _
        · exact (idle_of_readAt hl' e he).spares _ _
        · exact (idle_of_readAt hl e he).spares _ _
      refine does_tokenDel hb hwriter hentry hidle (fun hne v' h' he hspares => ?_)
        fun heq v' h' he hspares => ?_
      · exact Or.inr ⟨hread, hspares, Or.inl ⟨hne, rfl, he⟩⟩
      · exact Or.inr ⟨hread, hspares, Or.inr ⟨heq, rfl, he⟩⟩
  · -- the block cannot be loaded
    refine (computes_load_none hreg hv hb hread).does fun l hl => ?_
    exact Or.inl ⟨hread, ⟨hmFail, by decide, rfl⟩,
      fun e he => idle_of_readAt hl e (by simpa using he)⟩

/-- **A denial of read access is all or nothing if and only if** it is not one of the user
itself for a block that it can open, in every reachable state. -/
theorem deny_read_access_all_or_nothing_iff {allowed : Call → Prop} {P : Clients}
    (hP : E.Reachable allowed P) (hreg : E.Registered user)
    (hwriter : writeToken (P.state.entry b user.id) ≠ none) (hentry : P.state.entry b u ≠ none) :
    E.DeniesAllOrNothing P.state user b u ↔
      (u = user.id → ¬∃ d mt, E.Readable (P.state.slice b) user.id d mt) := by
  have hw := hP.wellFormed.1
  have hb : b ≠ [] := by
    obtain ⟨e, he⟩ := Option.ne_none_iff_exists'.mp hentry
    exact (hw.rtoken he).1.1
  rcases (does_denyReadAccess_call (u := u) hreg (hw.at b) hb hwriter hentry).run with
    ⟨hno, hst, hidle⟩ | ⟨hread, hspares, ⟨hne, hret, hgone⟩ | ⟨heq, hret, hchanged⟩⟩
  · exact ⟨fun _ _ => hno, fun _ => Or.inr ⟨hst, (run_idle _ _ _ hidle).1⟩⟩
  · refine ⟨fun _ heq => absurd heq hne, fun _ => Or.inl ⟨hret, hgone, fun b' u' hne' => ?_⟩⟩
    exact run_spares _ _ _ hspares hne'
  · refine ⟨fun h => ?_, fun h => absurd hread (h heq)⟩
    rcases h with ⟨hsuccess, -, -⟩ | ⟨-, hsame⟩
    · cases hret.symm.trans hsuccess
    · exact absurd (congrFun (congrFun hsame b) u) hchanged

end Env

/-! ### A user who denies itself -/

/-- **Alice denies herself**: her write token is removed, her entry is not. -/
theorem Env.not_denialAllOrNothing : ¬demoEnv.DenialAllOrNothing := by
  intro h
  obtain ⟨log, hlog⟩ := sequential_demoWorld (registered_true (registered_sharedWithBob (b := [9])))
    (by decide +kernel)
  have hfail : ((midHermesDenyReadAccess alice [9] alice.id).run demoEnv.handle
      (demoWorld (sharedWithBob [9]))).1 = .ok hmFail := by decide +kernel
  have hchanged : ((midHermesDenyReadAccess alice [9] alice.id).run demoEnv.handle
      (demoWorld (sharedWithBob [9]))).2.entry [9] alice.id ≠
        (demoWorld (sharedWithBob [9])).entry [9] alice.id := by decide +kernel
  rcases h _ _ _ alice [9] alice.id hlog registered_alice (by decide +kernel) (by simp [demoEnv])
    (by decide +kernel) with ⟨hret, -⟩ | ⟨-, hsame⟩
  · cases hfail.symm.trans hret
  · exact hchanged (congrFun (congrFun hsame [9]) alice.id)

/-- The same denial for Bob is all or nothing. -/
theorem Env.deny_read_access_all_or_nothing_bob :
    demoEnv.DeniesAllOrNothing (demoWorld (sharedWithBob [9])) alice [9] bob.id := by
  obtain ⟨log, hlog⟩ := sequential_demoWorld (registered_true (registered_sharedWithBob (b := [9])))
    (by decide +kernel)
  obtain ⟨P, hP, -, hstate⟩ := hlog.reachable
  rw [← hstate]
  rw [Env.deny_read_access_all_or_nothing_iff hP registered_alice (by rw [hstate]; decide +kernel)
    (by rw [hstate]; decide +kernel)]
  exact fun heq => absurd heq (by decide)

end Hermes

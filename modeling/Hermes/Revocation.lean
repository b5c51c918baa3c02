import Hermes.Creation
import Hermes.Instance

/-!
# Is a revocation durable?

A denial of read access removes the entry of the user in one request, and nothing in the
key store remembers that it did. An update writes the tokens back that it loaded before,
and so does a rotation for every user of its rights list. So a denial that falls between
the loading and the saving of such a call is undone by it, although both report success
(`Hermes.Env.not_revocationDurable`).

What the key store does guarantee is `Hermes.Env.deny_read_access_durable`: if, when the
denial returns, no call in progress holds a token of the user that it may still write back
(`Hermes.Restores`), then the user has no entry from then on, until somebody starts to
grant one. A call that holds such a token and has sent all the read tokens it will send does
no harm: a write token alone gives nobody an entry.
-/

namespace Hermes

open Interleave

/-- The operation grants a user access to a block. -/
def Op.Grants (b v : Bytes) : Op → Prop
  | .grantReadAccess b' v' => b' = b ∧ v' = v
  | .grantUpdateAccess b' v' => b' = b ∧ v' = v
  | _ => False

instance (b v : Bytes) : DecidablePred (Op.Grants b v) := fun op => by
  cases op <;> unfold Op.Grants <;> infer_instance

/-- A request for the key store to set the read token of a user. -/
def Req.SetsRtokenOf (b v : Bytes) : Req → Prop
  | .ks (.setRtoken b' v' _ _) => b' = b ∧ v' = v
  | _ => False

/-- A call has what it takes to give a user an entry for a block: it is a grant of one; or an
update of this user that has loaded its write token; or a rotation of the block that has
loaded its read token. -/
def Supplied (b v : Bytes) (c : Call) (h : Hist) : Prop :=
  match c.op with
  | .grantReadAccess b' v' => b' = b ∧ v' = v
  | .grantUpdateAccess b' v' => b' = b ∧ v' = v
  | .updateBlock b' _ _ => b' = b ∧ c.user.id = v ∧ ∃ x, GotToken h true b v x
  | .rotateBlock b' => b' = b ∧ ∃ x, GotToken h false b v x
  | _ => False

/-- The call of a thread may give a user an entry for a block: it has what it takes, and may
still send the read token. -/
def Restores (b v : Bytes) (t : ClientThread) : Prop :=
  Supplied b v t.call t.hist ∧ t.prog.MaySend (Req.SetsRtokenOf b v)

/-- **Who may bring an entry back**: a grant, whatever it has loaded, and a call that has loaded
a token of the user, however it got there. -/
theorem Supplied.cases {b v : Bytes} {c : Call} {h : Hist} (hr : Supplied b v c h) :
    c.op.Grants b v ∨ ∃ isUpdate x, GotToken h isUpdate b v x ∧
      ∀ h', GotToken h' isUpdate b v x → Supplied b v c h' := by
  obtain ⟨user, op⟩ := c
  cases op with
  | grantReadAccess b' v' => exact Or.inl hr
  | grantUpdateAccess b' v' => exact Or.inl hr
  | updateBlock b' d mt =>
    obtain ⟨hb, hu, x, hx⟩ := hr
    exact Or.inr ⟨true, x, hx, fun h' hx' => ⟨hb, hu, x, hx'⟩⟩
  | rotateBlock b' =>
    obtain ⟨hb, x, hx⟩ := hr
    exact Or.inr ⟨false, x, hx, fun h' hx' => ⟨hb, x, hx'⟩⟩
  | createBlock id d mt => exact hr.elim
  | readBlock b' => exact hr.elim
  | deleteBlock b' => exact hr.elim
  | denyReadAccess b' v' => exact hr.elim
  | denyUpdateAccess b' v' => exact hr.elim

theorem supplied_of_grants {b v : Bytes} {c : Call} {h : Hist} (hg : c.op.Grants b v) :
    Supplied b v c h := by
  obtain ⟨user, op⟩ := c
  cases op with
  | grantReadAccess b' v' => exact hg
  | grantUpdateAccess b' v' => exact hg
  | _ => exact hg.elim

namespace Env

variable (E : Env)

/-- In a step, a denial of read access to a block for a user returns `HM_SUCCESS`. -/
def Denied (b v : Bytes) (P P' : Clients) : Prop :=
  ∃ i user res, res.status = hmSuccess ∧
    (E.honest Call.KeepsBlocks).Returns P P' i ⟨user, .denyReadAccess b v⟩ res

/-- **Revocation is durable**: once a denial has returned `HM_SUCCESS`, and as long as no
grant is in progress or starts later, the user has no entry when all calls have finished. -/
def RevocationDurable : Prop :=
  ∀ b v P P' P'', E.Reachable Call.KeepsBlocks P → E.Denied b v P P' →
    (∀ t ∈ P'.threads, t.Live → ¬t.call.op.Grants b v) →
    (E.honest fun c => c.KeepsBlocks ∧ ¬c.op.Grants b v).Runs P' P'' → P''.Quiescent →
    P''.state.entry b v = none

variable {E}

/-! ### What a denial leaves -/

/-- What has to hold for an entry to stay away. -/
structure Revoked (b v : Bytes) (P : Clients) : Prop where
  entry : P.state.entry b v = none
  restores : ∀ t ∈ P.threads, t.Live → ¬Restores b v t
  stored : P.state.stored b ≠ none
  settled : ∀ t ∈ P.threads, ¬Unsettled b t

/-- An update that may save a token has loaded its write token. -/
theorem got_wtoken_of_saves {c : Call} {h : Hist} {isUpdate : Bool} {b u o t d mt : Bytes}
    (hs : E.Saves c h isUpdate b u o t) (hop : c.op = .updateBlock b d mt)
    (hacc : Prog.Accounted E.Sound (E.Justified c) h) : ∃ x, GotToken h true b u x := by
  obtain ⟨user, op⟩ := c
  dsimp only at hop
  subst hop
  obtain ⟨-, hu, -, blk, mt', mac, old, hup⟩ := hs
  obtain ⟨h', hs', -, hJ⟩ := hacc.of_mem hup
  obtain ⟨⟨k, kw, d', mt'', -, ⟨x, hx, -⟩, -⟩, -⟩ := hJ
  exact ⟨x, hu ▸ hx.mono hs'⟩

/-- **The step lemma**: no request of a call that keeps blocks brings the entry back. -/
theorem Revoked.answered {P : Clients} {i : ℕ} {c : Call} {h : Hist} {r : Req} {b v : Bytes}
    {k : r.Answer → Client Result} (hP : Revoked b v P)
    (ht : E.Honest Call.KeepsBlocks ⟨c, h, .req r k⟩)
    (hi : P.threads[i]? = some ⟨c, h, .req r k⟩) :
    Revoked b v (P.answered i (E.answeredThread P.state c h r k) (E.handle P.state r).2) := by
  have hmem := List.mem_of_getElem? hi
  have hnot : ¬Restores b v ⟨c, h, .req r k⟩ := hP.restores _ hmem id
  refine ⟨?_, fun t ht' hlive hres => ?_, stored_ne_none ht.justified ht.allowed hP.stored,
    fun t ht' hun => ?_⟩
  · -- only a call that restores the entry could set it, and there is none
    show (E.handle P.state r).2.entry b v = none
    rcases entry_cases P.state r b v with heq | ⟨o, t, hr, -, -, -⟩ |
      ⟨o, t, e, -, -, -, he, -⟩ | ⟨o, -, -, heq⟩ | ⟨o, e, -, -, he, -⟩
    · rw [heq]
      exact hP.entry
    · -- the entry is set by a call that may set it
      obtain rfl := congrArg Sigma.fst hr
      have hs : E.Saves c h false b v o t := ht.justified
      have hsend : Req.SetsRtokenOf b v (.ks (.setRtoken b v o t)) := ⟨rfl, rfl⟩
      refine absurd ⟨?_, Prog.MaySend.now hsend⟩ hnot
      rcases hs.cases with ⟨id, d, mt, -, -, -, hset, k', kw, blk, mac, sk, hcr, -⟩ |
        ⟨d, mt, hop, hv, -⟩ | ⟨hop, -, hg, -⟩ | ⟨hop, -⟩
      · exact (hP.settled _ hmem ⟨makes_of_created hcr, hset⟩).elim
      · simp only [Supplied, hop, true_and]
        exact ⟨hv.symm, got_wtoken_of_saves hs hop ht.accounts.1⟩
      · simpa only [Supplied, hop, true_and] using hg
      · simp [Supplied, hop]
    · rw [hP.entry] at he
      cases he
    · exact heq
    · rw [hP.entry] at he
      cases he
  · rcases System.mem_answered ht' with rfl | ht'
    · -- nothing was loaded now, for there is nothing to load
      refine hnot ⟨?_, hres.2.later⟩
      rcases hres.1.cases with hg | ⟨isUpdate, x, hx, hback⟩
      · exact supplied_of_grants hg
      · rcases token_of_got hx with hx | ⟨-, e, he, -⟩ | ⟨-, hw⟩
        · exact hback _ hx
        · rw [hP.entry] at he
          cases he
        · rw [hP.entry] at hw
          cases hw
    · exact hP.restores t ht' hlive hres
  · rcases System.mem_answered ht' with rfl | ht'
    · -- a creation would need the id to be free
      rcases unsettled_of_answered hun with hun | hm
      · exact hP.settled _ hmem hun
      · exact hP.stored (stored_of_makes hm).1
    · exact hP.settled t ht' hun

/-- A call that is not a grant keeps it when it starts. -/
theorem Revoked.spawn {P : Clients} {c : Call} {p : Client Result} {b v : Bytes}
    (hP : Revoked b v P) (hc : ¬c.op.Grants b v) : Revoked b v (P.spawn c p) := by
  refine ⟨hP.entry, fun t ht hlive hres => ?_, hP.stored, fun t ht hun => ?_⟩
  · rcases System.mem_spawn.mp ht with ht | rfl
    · exact hP.restores t ht hlive hres
    · rcases hres.1.cases with hg | ⟨isUpdate, x, hx, -⟩
      · exact hc hg
      · exact not_gotToken_nil hx
  · rcases System.mem_spawn.mp ht with ht | rfl
    · exact hP.settled t ht hun
    · exact not_unsettled_nil hun

/-- A denial that returns `HM_SUCCESS` has just removed the entry. -/
theorem Denied.revoked {b v : Bytes} {P P' : Clients} (hP : E.Reachable Call.KeepsBlocks P)
    (hd : E.Denied b v P P') (hquiet : ∀ t ∈ P'.threads, t.Live → ¬Restores b v t) :
    Revoked b v P' := by
  obtain ⟨i, user, res, hres, hret⟩ := hd
  obtain ⟨h, r, k, a, w, hi, hk, ha, rfl⟩ := hret.request
  obtain ⟨rfl, rfl⟩ := honest_answer ha
  have hmem := List.mem_of_getElem? hi
  have ht := hP.honest _ hmem
  -- the last exchange of the denial is the removal
  have hlast := (ht.answered (sound_handle E P.state r)).asks
  dsimp only at hlast
  rw [hk] at hlast
  obtain ⟨h₀, heq⟩ := hlast hres
  obtain ⟨heq, -⟩ := List.cons.inj heq
  obtain rfl := congrArg Sigma.fst heq
  have hok : (E.handle P.state (.ks (.delRtoken b v user.id))).1 = .ok () :=
    eq_of_heq (Sigma.mk.inj heq).2
  have honce := hP.createdOnce (fun _ hc => hc) b
  have hwriter : ¬NoWriters b P := fun hno => (delRtoken_ok hok).1 (hno.entry _)
  refine ⟨?_, hquiet, ?_, fun t ht' hun => ?_⟩
  · show (E.handle P.state (.ks (.delRtoken b v user.id))).2.entry b v = none
    rw [entry_handle, hok]
    simp [keysAfter]
  · exact stored_ne_none ht.justified ht.allowed fun hs => hwriter (honce.noWriters (Or.inl hs))
  · refine hwriter (honce.noWriters (Or.inr ?_))
    rcases System.mem_answered ht' with rfl | ht'
    · obtain ⟨⟨e, he, hm⟩, hset⟩ := hun
      rcases List.mem_cons.mp he with rfl | he
      · exact hm.elim
      · exact ⟨_, hmem, ⟨e, he, hm⟩, fun e he => hset e (List.mem_cons_of_mem _ he)⟩
    · exact ⟨t, ht', hun⟩

/-- **A revocation is durable if nothing is in progress that would undo it.** When a denial
returns `HM_SUCCESS` and no call in progress that may still send a read token of the user is a
grant to the user, an update of the user that has loaded its write token, or a rotation that
has loaded its read token, then the user has no entry, at any later moment before a grant to
it is started. -/
theorem deny_read_access_durable {b v : Bytes} {P P' P'' : Clients}
    (hP : E.Reachable Call.KeepsBlocks P) (hd : E.Denied b v P P')
    (hquiet : ∀ t ∈ P'.threads, t.Live → ¬Restores b v t)
    (hrun : (E.honest fun c => c.KeepsBlocks ∧ ¬c.op.Grants b v).Runs P' P'') :
    P''.state.entry b v = none := by
  have hhonest : ∀ t ∈ P'.threads, E.Honest Call.KeepsBlocks t := by
    obtain ⟨_, _, _, -, hret⟩ := hd
    exact honest_threads (fun _ _ h => h) honest_sound (.single hret.step) hP.honest
  have hrev := (honest_invariant (I := Revoked b v) (runs_within hrun) (fun _ hc => hc.1) hhonest
    (hd.revoked hP hquiet) (fun P c fuel hI _ hc _ => hI.spawn hc.2)
    (fun P i c h r k hP hI hi _ => hI.answered (hP _ (List.mem_of_getElem? hi)) hi)).2
  exact hrev.entry

end Env

/-! ### An update against a denial -/

theorem keepsBlocks_sharedWithBob {b : Bytes} : ∀ c ∈ sharedWithBob b, c.KeepsBlocks := by
  simp [sharedWithBob, Call.KeepsBlocks]

/-- Bob's update has been accepted by the data store and its tokens are still to be saved,
when Alice's denial has one more request to make. -/
def updateThenDenial : List (Move Call) :=
  Move.oneByOne 16 (sharedWithBob [9]) 0 ++
    (.start ⟨bob, .updateBlock [9] [3] [4]⟩ :: List.replicate 18 (.step 3)) ++
    (.start ⟨alice, .denyReadAccess [9] bob.id⟩ :: List.replicate 16 (.step 4))

theorem registered_updateThenDenial :
    ∀ c ∈ Move.starts updateThenDenial, demoEnv.Registered c.user ∧ c.KeepsBlocks := by
  intro c hc
  simp only [updateThenDenial, Move.starts_append, Move.starts_oneByOne, Move.starts_start,
    Move.starts_replicate, List.mem_append, List.mem_singleton] at hc
  rcases hc with (hc | rfl) | rfl
  · exact ⟨registered_sharedWithBob c hc, keepsBlocks_sharedWithBob c hc⟩
  · exact ⟨registered_bob, trivial⟩
  · exact ⟨registered_alice, trivial⟩

/-- **An update can undo a denial**: Bob's update writes the read token back that it loaded
before the denial, on the strength of Alice's. -/
theorem Env.not_revocationDurable : ¬demoEnv.RevocationDurable := by
  intro hdurable
  have hentry := hdurable [9] bob.id (demoPlay updateThenDenial)
    ((demoPlay updateThenDenial).move demoEnv.handle (Call.prog 8) (.step 4))
    (((demoPlay updateThenDenial).move demoEnv.handle (Call.prog 8) (.step 4)).play demoEnv.handle
      (Call.prog 8) (List.replicate 3 (.step 3)))
    (reachable_play registered_updateThenDenial)
    ⟨4, alice, .ofStatus hmSuccess, rfl, System.returns_move (fun _ _ => rfl)
      (by decide +kernel) (by decide +kernel)⟩
    (by decide +kernel)
    (System.runs_play (fun _ _ => rfl) _ (by simp) _)
    (by decide +kernel)
  exact absurd hentry (by decide +kernel)

/-- The same denial among calls that do it no harm: Bob reads the block and has loaded his
tokens, Alice updates it and has her tokens to save, and an update of Bob's has just loaded
his read token. -/
def denial : List (Move Call) :=
  Move.oneByOne 16 (sharedWithBob [9]) 0 ++
    (.start ⟨bob, .readBlock [9]⟩ :: List.replicate 4 (.step 3)) ++
    (.start ⟨alice, .updateBlock [9] [3] [4]⟩ :: List.replicate 18 (.step 4)) ++
    (.start ⟨bob, .updateBlock [9] [5] [6]⟩ :: List.replicate 2 (.step 5)) ++
    (.start ⟨alice, .denyReadAccess [9] bob.id⟩ :: List.replicate 16 (.step 6))

theorem registered_denial :
    ∀ c ∈ Move.starts denial, demoEnv.Registered c.user ∧ c.KeepsBlocks := by
  intro c hc
  simp only [denial, Move.starts_append, Move.starts_oneByOne, Move.starts_start,
    Move.starts_replicate, List.mem_append, List.mem_singleton] at hc
  rcases hc with (((hc | rfl) | rfl) | rfl) | rfl
  · exact ⟨registered_sharedWithBob c hc, keepsBlocks_sharedWithBob c hc⟩
  · exact ⟨registered_bob, trivial⟩
  · exact ⟨registered_alice, trivial⟩
  · exact ⟨registered_bob, trivial⟩
  · exact ⟨registered_alice, trivial⟩

/-- What happens after it: these calls go on, and Bob starts one more update. -/
def afterDenial : List (Move Call) :=
  List.replicate 9 (.step 3) ++ List.replicate 2 (.step 4) ++ List.replicate 20 (.step 5) ++
    (.start ⟨bob, .updateBlock [9] [7] [8]⟩ :: List.replicate 20 (.step 7))

/-- After that denial, no update by Bob gives him anything back. -/
theorem Env.deny_read_access_durable_denial :
    (((demoPlay denial).move demoEnv.handle (Call.prog 8) (.step 6)).play demoEnv.handle
      (Call.prog 8) afterDenial).state.entry [9] bob.id = none := by
  have hdenied : demoEnv.Denied [9] bob.id (demoPlay denial)
      ((demoPlay denial).move demoEnv.handle (Call.prog 8) (.step 6)) :=
    ⟨6, alice, .ofStatus hmSuccess, rfl, System.returns_move (fun _ _ => rfl)
      (by decide +kernel) (by decide +kernel)⟩
  -- three calls are in progress
  have hlive : ∀ t ∈ ((demoPlay denial).move demoEnv.handle (Call.prog 8) (.step 6)).threads,
      t.Live → t.call = ⟨bob, .readBlock [9]⟩ ∨ t.call = ⟨alice, .updateBlock [9] [3] [4]⟩ ∨
        t.call = ⟨bob, .updateBlock [9] [5] [6]⟩ ∧
          .ks (.getWtoken [9] bob.id) ∉ t.hist.map Sigma.fst := by decide +kernel
  refine Env.deny_read_access_durable (Env.reachable_play registered_denial) hdenied
    (fun t ht hl hres => ?_) (System.runs_play Env.honest_handle _ ?_ _)
  · have hsup := hres.1
    rcases hlive t ht hl with hc | hc | ⟨hc, hnot⟩
    · rw [hc] at hsup
      exact hsup
    · rw [hc] at hsup
      exact absurd hsup.2.1 (by decide)
    · rw [hc] at hsup
      obtain ⟨-, -, x, hx⟩ := hsup
      exact hnot (List.mem_map_of_mem (f := Sigma.fst) hx)
  · simp only [afterDenial, Move.starts_append, Move.starts_start, Move.starts_replicate,
      List.append_nil, List.nil_append, List.mem_singleton, forall_eq]
    exact ⟨⟨registered_bob, trivial, fun h => h⟩, 8, rfl⟩

end Hermes

import Hermes.Keyed
import Hermes.Sequential

/-!
# What a reading returns

The main result of the file, `Hermes.Env.sequential_read_iff`, is about calls executed one
after the other, none of which deletes a block: after any number of them, whoever made
them, a user can read a block exactly if the user has an entry for it, and reads what the
last creation or update that the data store took has written
(`Hermes.lastWritten`).

Behind it is one invariant, `Hermes.Env.Tells`: the block is not there, or it is keyed and
its content is that of the log.
-/

namespace Hermes

open Interleave

/-- What a call has written to a block: its arguments, if the data store took them. -/
def contentWritten (b : Bytes) (e : Call × Hist) : Option (Bytes × Bytes) :=
  match e.1.op with
  | .createBlock _ d mt => if ∃ x ∈ e.2, TookVersion b x then some (d, mt) else none
  | .updateBlock _ d mt => if ∃ x ∈ e.2, TookVersion b x then some (d, mt) else none
  | _ => none

/-- What the calls of a log have written to a block last. -/
def lastWritten (b : Bytes) : Log → Option (Bytes × Bytes)
  | [] => none
  | e :: log => (contentWritten b e).or (lastWritten b log)

/-- An exchange that took no version adds nothing to what the call has written. -/
theorem contentWritten_cons_of_not {b : Bytes} {c : Call} {h : Hist} {e : Event Req.Answer}
    (he : ¬TookVersion b e) : contentWritten b (c, e :: h) = contentWritten b (c, h) := by
  have hiff : (∃ x ∈ e :: h, TookVersion b x) ↔ ∃ x ∈ h, TookVersion b x :=
    (List.exists_mem_cons_iff _ e h).trans (or_iff_right he)
  simp only [contentWritten, hiff]

/-- A call that has asked nothing has written nothing. -/
theorem contentWritten_nil {b : Bytes} {c : Call} : contentWritten b (c, []) = none := by
  obtain ⟨user, op⟩ := c
  cases op <;> simp [contentWritten]

/-- A rotation writes nothing new. -/
theorem contentWritten_rotateBlock {b b' : Bytes} {user : User} {h : Hist} :
    contentWritten b (⟨user, .rotateBlock b'⟩, h) = none := rfl

namespace Env

variable (E : Env)

/-- The block is keyed, and has this content. -/
def Keeps (v : Slice) (k kw : Bytes) (x : Option (Bytes × Bytes)) : Prop :=
  E.KeyedBy v k kw ∧ ∃ s d, v.stored = some s ∧ E.Sealed k kw d s ∧ x = some (d, s.metadata)

/-- **What the stores tell of a block is what the log does.** -/
def Tells (v : Slice) (x : Option (Bytes × Bytes)) : Prop :=
  v.Untouched ∨ ∃ k kw, E.Keeps v k kw x

/-- The same in the middle of a call, which knows the keys and may have written itself. -/
def TellsDuring (b : Bytes) (x : Option (Bytes × Bytes)) (c : Call) (h : Hist) (v : Slice) : Prop :=
  (v.Untouched ∧ KnowsNothing b h) ∨
    ∃ k kw, E.Keeps v k kw ((contentWritten b (c, h)).or x) ∧ E.KnowsKeys b h k kw

variable {E} {w : World} {c : Call} {h : Hist} {r : Req} {b k kw : Bytes}
  {x : Option (Bytes × Bytes)}

/-- **A request keeps what the stores tell**, unless it is one of a rotation of the block. -/
theorem TellsDuring.handle (hw : E.TellsDuring b x c h (w.slice b)) (hreg : E.Registered c.user)
    (hc : c.KeepsBlocks) (hop : c.op ≠ .rotateBlock b) (hJ : E.Justified c h r) :
    E.TellsDuring b x c (⟨r, (E.handle w r).1⟩ :: h) ((E.handle w r).2.slice b) := by
  rcases hw with ⟨hv, hh⟩ | ⟨k, kw, ⟨hkeyed, s, d, hs, hsealed, hx⟩, hh⟩
  · rcases untouched_handle hv hh hJ with hsame | ⟨hm, k, kw, s, d, mt, id, hcr, hs, hsealed, rfl,
      hkeyed, hh'⟩
    · exact Or.inl hsame
    · -- the block is created now, of the arguments of the call
      refine Or.inr ⟨k, kw, ⟨hkeyed, s, d, hs, hsealed, ?_⟩, hh'⟩
      simp [contentWritten, hcr, tookVersion_of_makes hm]
  · have hkeyed' := hkeyed.handle hh hreg hc hop hJ
    refine Or.inr ⟨k, kw, ⟨hkeyed', ?_⟩, KnowsKeys.handle hkeyed hh⟩
    have hs : w.stored b = some s := hs
    by_cases ht : TookVersion b ⟨r, (E.handle w r).1⟩
    · rcases tookVersion_cases ht with hm | ⟨blk, mt, mac, old, rfl, hmt, hs'⟩
      · rw [(stored_of_makes hm).1] at hs
        cases hs
      · -- the next version, of the arguments of the call
        obtain ⟨d', hup, hsealed'⟩ := Updates.sealed hJ hop hh hmt
        refine ⟨_, d', hs', hsealed', ?_⟩
        simp [contentWritten, hup, ht]
    · rw [contentWritten_cons_of_not ht]
      refine ⟨s, d, ?_, hsealed, hx⟩
      rcases stored_cases w r b with heq | ⟨blk, mt, mac, -, -, hnone, -⟩ |
        ⟨blk, mt, mac, old, s', hr, -, -, -, -⟩ | ⟨old, s', hr, -, -, -⟩
      · exact heq.trans hs
      · rw [hs] at hnone
        cases hnone
      · rw [hr] at ht
        exact absurd rfl ht
      · obtain rfl := congrArg Sigma.fst hr
        exact absurd hc (by simp [Call.KeepsBlocks, hJ.1])

/-! ### Whole calls -/

theorem Tells.during (hw : E.Tells (w.slice b) x) : E.TellsDuring b x c [] (w.slice b) := by
  rcases hw with hv | ⟨k, kw, hkeeps⟩
  · exact Or.inl ⟨hv, knowsNothing_nil⟩
  · refine Or.inr ⟨k, kw, ?_, knowsKeys_of_knowsNothing knowsNothing_nil⟩
    rwa [contentWritten_nil, Option.none_or]

theorem TellsDuring.tells {v : Slice} (hw : E.TellsDuring b x c h v) :
    E.Tells v ((contentWritten b (c, h)).or x) := by
  rcases hw with ⟨hv, -⟩ | ⟨k, kw, hkeeps, -⟩
  · exact Or.inl hv
  · exact Or.inr ⟨k, kw, hkeeps⟩

/-- **A rotation keeps what the stores tell.** -/
theorem Tells.rotateBlock {fuel : ℕ} {user : User} (hw : E.Tells (w.slice b) x)
    (hwf : E.WellFormed w) (hreg : E.Registered user) (hb : b ≠ []) :
    E.Tells (((Call.prog fuel ⟨user, .rotateBlock b⟩).run E.handle w).2.slice b) x := by
  have hdoes : E.Does b (Call.prog fuel ⟨user, .rotateBlock b⟩) (w.slice b) [] _ :=
    does_rotateBlock_prog hreg (hwf.at b) hb
  rcases hdoes.run with heq | hr
  · rwa [heq]
  · obtain ⟨k, kw, hkeyed⟩ := hr.keyedBy hreg (hwf.at b)
    obtain ⟨-, sk, k₁, kw₁, s, k₀, kw₀, d, blk, mac, -, hk₁, hkw₁, hs, hsealed,
      hversion, -, hstored, -⟩ := hr
    rcases hw with hv | ⟨k', kw', -, s', d', hs', hsealed', hx⟩
    · rw [hv.stored] at hs
      cases hs
    · -- the content that is sealed again is the one that was sealed before
      obtain rfl := Option.some.inj (hs.symm.trans hs')
      obtain ⟨-, -, rfl⟩ := hsealed.unique hsealed'
      have hnew : E.Sealed k₁ kw₁ d ⟨blk, s.metadata, mac⟩ :=
        ⟨hk₁, hkw₁, hsealed.data_ne, hsealed.meta_ne, hversion⟩
      obtain ⟨s'', d'', hs'', hsealed''⟩ := hkeyed.stored
      cases hs''.symm.trans hstored
      obtain ⟨rfl, rfl, -⟩ := hnew.unique hsealed''
      exact Or.inr ⟨k₁, kw₁, hkeyed, _, d, hstored, hnew, hx⟩

/-- Every other call leaves what it has written, if it has. -/
theorem Tells.call {fuel : ℕ} (hw : E.Tells (w.slice b) x) (hreg : E.Registered c.user)
    (hc : c.KeepsBlocks) (hop : c.op ≠ .rotateBlock b) :
    E.Tells (((c.prog fuel).run E.handle w).2.slice b)
      ((contentWritten b (c, (c.prog fuel).events E.handle w [])).or x) := by
  have hasks : E.Asks c (c.prog fuel) [] (E.Returned c) := asks_prog hreg fuel
  refine TellsDuring.tells (hasks.run_invariant (I := fun h w => E.TellsDuring b x c h (w.slice b))
    (sound_handle E) w hw.during ?_)
  intro h w' r hJ hI
  exact hI.handle hreg hc hop hJ

/-! ### One call after the other -/

variable {rands : ℕ → HmToken} {log : Log} {user : User}

/-- **What the stores tell is what the calls have written.** -/
theorem Sequential.tells (hseq : E.Sequential Call.KeepsBlocks rands log w) (hb : b ≠ []) :
    E.Tells (w.slice b) (lastWritten b log) := by
  induction hseq with
  | empty => exact Or.inl ⟨rfl, fun _ => rfl⟩
  | @call log w c fuel hw hc hend ih =>
    by_cases hop : c.op = .rotateBlock b
    · obtain ⟨user, op⟩ := c
      obtain rfl : op = .rotateBlock b := hop
      rw [lastWritten, contentWritten_rotateBlock, Option.none_or]
      exact ih.rotateBlock hw.wellFormed hc.1 hb
    · exact ih.call hc.1 hc.2 hop

/-- **What a reading returns, after any calls one after the other**: it succeeds exactly for
who has an entry, with what was written last. -/
theorem sequential_read_iff (hseq : E.Sequential Call.KeepsBlocks rands log w)
    (hb : w.stored b ≠ none) (hreg : E.Registered user) :
    ((∃ out, ((midHermesReadBlock user b).run E.handle w).1 = .ok (hmSuccess, out)) ↔
        w.entry b user.id ≠ none) ∧
      ∀ out, ((midHermesReadBlock user b).run E.handle w).1 = .ok (hmSuccess, out) →
        out ≠ none ∧ out = lastWritten b log := by
  have hwf := hseq.wellFormed
  obtain ⟨s, hs⟩ := Option.ne_none_iff_exists'.mp hb
  have hne : b ≠ [] := (hwf.stored hs).1
  rcases hseq.tells hne with hv | ⟨k, kw, hkeyed, s', d, hs', hsealed, hlast⟩
  · exact absurd hv.stored hb
  · cases he : w.entry b user.id with
    | some e =>
      have hread : E.Readable (w.slice b) user.id d s'.metadata :=
        ⟨e, s', k, kw, he, hs', hkeyed.rtoken he,
          hsealed, rfl⟩
      have hrun := run_readBlock (computes_readBlock hreg (hwf.at b) hne hread)
      refine ⟨⟨fun _ => by simp, fun _ => ⟨_, hrun⟩⟩, fun out hout => ?_⟩
      rw [hrun] at hout
      cases hout
      exact ⟨by simp, hlast.symm⟩
    | none =>
      -- without an entry there is no token to open the block with
      have hno : ¬∃ d mt, E.Readable (w.slice b) user.id d mt := by
        rintro ⟨d', mt', e', s'', k', kw', he', -⟩
        have he' : w.entry b user.id = some e' := he'
        rw [he] at he'
        cases he'
      have hrun := run_readBlock (computes_readBlock_fail hreg (hwf.at b) hne hno)
      have hfail : ∀ out,
          ((midHermesReadBlock user b).run E.handle w).1 ≠ .ok (hmSuccess, out) := by
        intro out hout
        rw [hrun] at hout
        have hstatus : hmFail = hmSuccess := congrArg Prod.fst (Except.ok.inj hout)
        exact absurd hstatus (by decide)
      exact ⟨⟨fun ⟨out, hout⟩ => absurd hout (hfail out), fun h => absurd rfl h⟩,
        fun out hout => absurd hout (hfail out)⟩

end Env

/-- Bob updates the block he may update, and Alice rotates it and takes the right back. -/
def editedByBob : List Call :=
  sharedWithBob [9] ++ [⟨bob, .updateBlock [9] [3] [4]⟩, ⟨alice, .rotateBlock [9]⟩,
    ⟨alice, .denyUpdateAccess [9] bob.id⟩]

/-- What Bob reads is what he wrote, under keys he was given after that. -/
theorem Env.sequential_read_iff_editedByBob : ∃ log, lastWritten [9] log = some ([3], [4]) ∧
    ((∃ out, ((midHermesReadBlock bob [9]).run demoEnv.handle (demoWorld editedByBob)).1 =
        .ok (hmSuccess, out)) ↔ (demoWorld editedByBob).entry [9] bob.id ≠ none) ∧
      ∀ out, ((midHermesReadBlock bob [9]).run demoEnv.handle (demoWorld editedByBob)).1 =
        .ok (hmSuccess, out) → out ≠ none ∧ out = lastWritten [9] log := by
  have hcs : ∀ c ∈ editedByBob, demoEnv.Registered c.user ∧ c.KeepsBlocks := by
    simp [editedByBob, sharedWithBob, registered_alice, registered_bob, Call.KeepsBlocks]
  have hseq : demoEnv.Sequential Call.KeepsBlocks demoRands
      (demoEnv.perform 8 editedByBob ([], World.empty demoRands)).1 (demoWorld editedByBob) :=
    Env.sequential_perform .empty hcs (by decide +kernel)
  exact ⟨_, by decide +kernel, Env.sequential_read_iff hseq (by decide +kernel) registered_bob⟩

end Hermes

import Hermes.Instance
import Hermes.Keyed

/-!
# Rotations against other writers

The keys of a block are in two stores and are written by separate requests, with nothing to
hold them together: a grant, an update or a rotation saves tokens made of a state it has
read before. So a rotation that overlaps one of them can leave a token of a key nobody
uses any more (`Hermes.Env.not_keyCoherence`).

If no rotation of a block overlaps another call that writes the block
(`Hermes.Exclusive`), then, whatever else overlaps, everybody's tokens fit the block whenever
no rotation of it is in progress (`Hermes.Env.key_coherence`). The invariant
(`Hermes.Env.InPhase`) has three phases: nobody knows of the block; it is keyed, and everybody
who will write it knows its keys and no others; a rotation has it for itself, and will
leave it keyed.
-/

namespace Hermes

open Interleave

/-- The call of a thread is in progress and rotates the block. -/
def RotatesNow (b : Bytes) (t : ClientThread) : Prop := t.Live ∧ t.call.op = .rotateBlock b

/-- The call of a thread may write the block: it is in progress and writes it, or has created
it and not sent its write token yet. The second of these is asked for by the proof, and not by
a run that goes wrong: before the write token is sent nobody can rotate the block, but a
rotation can have begun to load what it needs, and what it has loaded is not followed through
the change of the block under it. -/
def Busy (b : Bytes) (t : ClientThread) : Prop :=
  (t.Live ∧ t.call.op.Writes b) ∨ Unsettled b t

instance (b : Bytes) (t : ClientThread) : Decidable (RotatesNow b t) :=
  inferInstanceAs (Decidable (t.Live ∧ t.call.op = .rotateBlock b))

instance (b : Bytes) (t : ClientThread) : Decidable (Busy b t) :=
  inferInstanceAs (Decidable ((t.Live ∧ t.call.op.Writes b) ∨ Unsettled b t))

/-- **A rotation has a block for itself**: while it is in progress no other call may write the
block. -/
def Exclusive (b : Bytes) (P : Clients) : Prop :=
  P.threads.Pairwise fun t t' =>
    ¬(RotatesNow b t ∧ Busy b t') ∧ ¬(RotatesNow b t' ∧ Busy b t)

instance (b : Bytes) (P : Clients) : Decidable (Exclusive b P) :=
  inferInstanceAs (Decidable (P.threads.Pairwise fun t t' =>
    ¬(RotatesNow b t ∧ Busy b t') ∧ ¬(RotatesNow b t' ∧ Busy b t)))

theorem RotatesNow.busy {b : Bytes} {t : ClientThread} (h : RotatesNow b t) : Busy b t :=
  Or.inl ⟨h.1, by rw [h.2]; exact rfl⟩

/-- Who is busy while a rotation is in progress is the rotation. -/
theorem Exclusive.eq {b : Bytes} {P : Clients} (hP : Exclusive b P) {i j : ℕ} {t t' : ClientThread}
    (hi : P.threads[i]? = some t) (hj : P.threads[j]? = some t') (ht : RotatesNow b t)
    (ht' : Busy b t') : j = i := by
  obtain ⟨hilt, rfl⟩ := List.getElem?_eq_some_iff.mp hi
  obtain ⟨hjlt, rfl⟩ := List.getElem?_eq_some_iff.mp hj
  have hpair := List.pairwise_iff_getElem.mp hP
  rcases lt_trichotomy i j with hlt | heq | hlt
  · exact absurd ⟨ht, ht'⟩ (hpair i j hilt hjlt hlt).1
  · exact heq.symm
  · exact absurd ⟨ht, ht'⟩ (hpair j i hjlt hilt hlt).2

namespace Env

variable (E : Env)

/-- **The tokens of a user fit the stored block**: they open to the keys it was made with, so
the user can read it. -/
def CoherentFor (w : World) (b : Bytes) (user : User) : Prop :=
  ∃ e s k kw d, w.entry b user.id = some e ∧ w.stored b = some s ∧ E.Sealed k kw d s ∧
    E.Opens user (e.rtoken, e.rtokenOwner) k ∧ (∀ x, e.wtoken = some x → E.Opens user x kw) ∧
    ((midHermesReadBlock user b).run E.handle w).1 = .ok (hmSuccess, some (d, s.metadata))

/-- **Key coherence.** Whenever nothing is in progress, the tokens of every user of every
block fit it. -/
def KeyCoherence : Prop :=
  ∀ P, E.Reachable Call.KeepsBlocks P → P.Quiescent → ∀ b user, E.Registered user →
    P.state.entry b user.id ≠ none → E.CoherentFor P.state b user

/-- Nobody knows of the block. -/
structure Unknown (b : Bytes) (P : Clients) : Prop where
  untouched : (P.state.slice b).Untouched
  knows : ∀ t ∈ P.threads, KnowsNothing b t.hist

/-- The block is keyed, and who may write it knows its keys. -/
structure Settled (b k kw : Bytes) (P : Clients) : Prop where
  keyed : E.KeyedBy (P.state.slice b) k kw
  knows : ∀ t ∈ P.threads, Busy b t → E.KnowsKeys b t.hist k kw
  still : ∀ t ∈ P.threads, ¬RotatesNow b t

/-- A rotation is in progress, and will leave the block keyed if it is left alone. -/
def Rotating (b : Bytes) (P : Clients) : Prop :=
  ∃ (i : ℕ) (t : ClientThread), P.threads[i]? = some t ∧ RotatesNow b t ∧ P.state.stored b ≠ none ∧
    E.Does b t.prog (P.state.slice b) t.hist fun _ v' _ => ∃ k kw, E.KeyedBy v' k kw

/-- **The invariant**: the block is in one of three phases. -/
def InPhase (b : Bytes) (P : Clients) : Prop :=
  Unknown b P ∨ (∃ k kw, E.Settled b k kw P) ∨ E.Rotating b P

variable {E} {allowed : Call → Prop} {P : Clients} {b k kw : Bytes}

/-! ### What follows from it -/

/-- **The tokens in a keyed block fit it.** -/
theorem KeyedBy.coherentFor {w : World} {user : User} (hw : E.KeyedBy (w.slice b) k kw)
    (hwf : E.WellFormed w) (hreg : E.Registered user) (he : w.entry b user.id ≠ none) :
    E.CoherentFor w b user := by
  obtain ⟨e, he⟩ := Option.ne_none_iff_exists'.mp he
  obtain ⟨s, d, hs, hsealed⟩ := hw.stored
  have hk : E.TokenFor user.id (e.rtoken, e.rtokenOwner) k := hw.rtoken he
  refine ⟨e, s, k, kw, d, he, hs, hsealed, hk.opens hreg, fun x hx => ?_, ?_⟩
  · exact (hw.wtoken he hx).opens hreg
  · exact (readBlock_eq_ok_iff hreg hwf (hwf.stored hs).1).mpr
      ⟨e, s, k, kw, he, hs, hk, hsealed, rfl⟩

/-! ### Calls that start -/

/-- Before there is a block, any call may start. -/
theorem Unknown.spawn {c : Call} {p : Client Result} (hP : Unknown b P) :
    Unknown b (P.spawn c p) := by
  refine ⟨hP.untouched, fun t ht => ?_⟩
  rcases System.mem_spawn.mp ht with ht | rfl
  · exact hP.knows t ht
  · exact knowsNothing_nil

/-- A keyed block stays so when a call starts, or a rotation has it for itself now. -/
theorem Settled.spawn {c : Call} {fuel : ℕ} (hP : E.Settled b k kw P) (hwf : E.WellFormed P.state)
    (hreg : E.Registered c.user) : E.InPhase b (P.spawn c (c.prog fuel)) := by
  obtain ⟨s, d, hs, -⟩ := hP.keyed.stored
  have hs : P.state.stored b = some s := hs
  by_cases hrot : RotatesNow b ⟨c, [], c.prog fuel⟩
  · obtain ⟨user, op⟩ := c
    obtain rfl : op = .rotateBlock b := hrot.2
    refine Or.inr (Or.inr ⟨P.threads.length, _, ?_, hrot, by simp [Pool.spawn, hs], ?_⟩)
    · simp [Pool.spawn]
    · refine (does_rotateBlock_prog hreg (hwf.at b) (hwf.stored hs).1).mono ?_
      rintro x v' h' (rfl | hr)
      · exact ⟨k, kw, hP.keyed⟩
      · exact hr.keyedBy hreg (hwf.at b)
  · refine Or.inr (Or.inl ⟨k, kw, hP.keyed, fun t ht hbusy => ?_, fun t ht => ?_⟩)
    · rcases System.mem_spawn.mp ht with ht | rfl
      · exact hP.knows t ht hbusy
      · exact knowsKeys_of_knowsNothing knowsNothing_nil
    · rcases System.mem_spawn.mp ht with ht | rfl
      · exact hP.still t ht
      · exact hrot

/-- A rotation in progress stays so when a call starts. -/
theorem Rotating.spawn {c : Call} {p : Client Result} (hP : E.Rotating b P) :
    E.Rotating b (P.spawn c p) := by
  obtain ⟨i, t, hi, hrot, hs, hdoes⟩ := hP
  have hlt : i < P.threads.length := (List.getElem?_eq_some_iff.mp hi).1
  exact ⟨i, t, by simp [Pool.spawn, List.getElem?_append_left hlt, hi], hrot, hs, hdoes⟩

/-! ### Requests that are answered -/

section Step

variable {i : ℕ} {c : Call} {h : Hist} {r : Req} {κ : r.Answer → Client Result}

/-- Who is busy with a block that is there was so before. -/
theorem busy_of_answered (hs : P.state.stored b ≠ none)
    (hbusy : Busy b (E.answeredThread P.state c h r κ)) : Busy b ⟨c, h, .req r κ⟩ := by
  rcases hbusy with ⟨-, hop⟩ | hu
  · exact Or.inl ⟨id, hop⟩
  · rcases unsettled_of_answered hu with hu | hm
    · exact Or.inr hu
    · exact absurd (stored_of_makes hm).1 hs

/-- **A block comes into being keyed**, known to its creator only. -/
theorem Unknown.answered (hP : Unknown b P) (hhonest : ∀ t ∈ P.threads, E.Honest allowed t)
    (hi : P.threads[i]? = some ⟨c, h, .req r κ⟩)
    (hOk : Exclusive b (P.answered i (E.answeredThread P.state c h r κ) (E.handle P.state r).2)) :
    E.InPhase b (P.answered i (E.answeredThread P.state c h r κ) (E.handle P.state r).2) := by
  have hmem := List.mem_of_getElem? hi
  have hJ := (hhonest _ hmem).justified
  rcases untouched_handle hP.untouched (hP.knows _ hmem) hJ with ⟨hv, hh⟩ |
    ⟨hm, k, kw, s, d, mt, id, hop, hs, -, -, hkeyed, hh⟩
  · refine Or.inl ⟨hv, fun t ht => ?_⟩
    rcases System.mem_answered ht with rfl | ht
    · exact hh
    · exact hP.knows t ht
  · -- the creator is busy from now on, so no rotation is in progress
    have hself : (P.answered i (E.answeredThread P.state c h r κ)
        (E.handle P.state r).2).threads[i]? = some (E.answeredThread P.state c h r κ) :=
      System.answered_getElem?_self hi
    have hbusy : Busy b (E.answeredThread P.state c h r κ) := by
      refine Or.inr ⟨⟨_, List.mem_cons_self, hm⟩, fun e he => ?_⟩
      obtain ⟨hnot, -, -, -, -, -, -, -, hthemis, -⟩ := creates_of_makes (e := ⟨r, _⟩) hJ hm
      rcases List.mem_cons.mp he with rfl | he
      · exact hnot
      · exact (hthemis e he).not_setsWtoken
    refine Or.inr (Or.inl ⟨k, kw, hkeyed, fun t ht _ => ?_, fun t ht hrot => ?_⟩)
    · rcases System.mem_answered ht with rfl | ht
      · exact hh
      · exact knowsKeys_of_knowsNothing (hP.knows t ht)
    · obtain ⟨j, hj⟩ := List.getElem?_of_mem ht
      obtain rfl := hOk.eq hj hself hrot hbusy
      cases hj.symm.trans hself
      have hop' : c.op = .rotateBlock b := hrot.2
      rw [hop] at hop'
      cases hop'

/-- **A keyed block stays so.** -/
theorem Settled.answered (hP : E.Settled b k kw P)
    (hhonest : ∀ t ∈ P.threads, E.Honest Call.KeepsBlocks t)
    (hi : P.threads[i]? = some ⟨c, h, .req r κ⟩) :
    E.Settled b k kw (P.answered i (E.answeredThread P.state c h r κ) (E.handle P.state r).2) := by
  have hmem := List.mem_of_getElem? hi
  have ht := hhonest _ hmem
  obtain ⟨s, d, hs, -⟩ := hP.keyed.stored
  have hs : P.state.stored b ≠ none := Option.ne_none_iff_exists'.mpr ⟨s, hs⟩
  have hop : c.op ≠ .rotateBlock b := fun hop => hP.still _ hmem ⟨id, hop⟩
  refine ⟨?_, fun t' ht' hbusy => ?_, fun t' ht' hrot => ?_⟩
  · by_cases hbusy : Busy b ⟨c, h, .req r κ⟩
    · exact hP.keyed.handle (hP.knows _ hmem hbusy) ht.registered ht.allowed hop ht.justified
    · have heq : (E.handle P.state r).2.slice b = P.state.slice b :=
        slice_handle_of_not_writes hs ht.allowed (fun hw => hbusy (Or.inl ⟨id, hw⟩))
          (fun hu => hbusy (Or.inr hu)) ht.justified
      show E.KeyedBy ((E.handle P.state r).2.slice b) k kw
      rw [heq]
      exact hP.keyed
  · rcases System.mem_answered ht' with rfl | ht'
    · exact KnowsKeys.handle hP.keyed (hP.knows _ hmem (busy_of_answered hs hbusy))
    · exact hP.knows t' ht' hbusy
  · rcases System.mem_answered ht' with rfl | ht'
    · exact hop hrot.2
    · exact hP.still t' ht' hrot

/-- **A rotation goes on, or has left the block keyed**; the others leave the block alone. -/
theorem Rotating.answered (hP : E.Rotating b P) (hOk : Exclusive b P)
    (hhonest : ∀ t ∈ P.threads, E.Honest Call.KeepsBlocks t)
    (hi : P.threads[i]? = some ⟨c, h, .req r κ⟩) :
    E.InPhase b (P.answered i (E.answeredThread P.state c h r κ) (E.handle P.state r).2) := by
  have hmem := List.mem_of_getElem? hi
  have ht := hhonest _ hmem
  obtain ⟨j, t, hj, hrot, hs, hdoes⟩ := hP
  have hs' : (E.handle P.state r).2.stored b ≠ none := stored_ne_none ht.justified ht.allowed hs
  -- the rotation itself moves, or another call, which then is not busy with the block
  rcases eq_or_ne j i with rfl | hne
  · cases hj.symm.trans hi
    have hnext : E.Does b (κ (E.handle P.state r).1) ((E.handle P.state r).2.slice b) _ _ :=
      hdoes P.state rfl
    have hself : (P.answered j (E.answeredThread P.state c h r κ)
        (E.handle P.state r).2).threads[j]? = some (E.answeredThread P.state c h r κ) :=
      System.answered_getElem?_self hi
    by_cases hlive : (E.answeredThread P.state c h r κ).Live
    · exact Or.inr (Or.inr ⟨j, _, hself, ⟨hlive, hrot.2⟩, hs', hnext⟩)
    · -- the rotation is over, and nobody else was busy
      obtain ⟨-, k, kw, hkeyed⟩ := Prog.Ensures.of_finished hnext (not_not.mp hlive)
      have hidle : ∀ t' ∈ (P.answered j (E.answeredThread P.state c h r κ)
          (E.handle P.state r).2).threads, ¬Busy b t' := by
        intro t' ht' hbusy
        obtain ⟨i, hi'⟩ := List.getElem?_of_mem ht'
        rcases System.of_getElem?_answered hi' with ⟨rfl, rfl⟩ | ⟨hne, hi'⟩
        · rcases hbusy with ⟨hl, -⟩ | hu
          · exact hlive hl
          · obtain ⟨id, d, mt, hop⟩ :=
              (ht.answered (sound_handle E P.state r)).op_of_madeBy hu.1
            exact absurd (hrot.2.symm.trans hop) (by simp)
        · exact hne (hOk.eq hj hi' hrot hbusy)
      exact Or.inr (Or.inl ⟨k, kw, hkeyed, fun t' ht' hbusy => absurd hbusy (hidle t' ht'),
        fun t' ht' hrot' => hidle t' ht' hrot'.busy⟩)
  · have hbusy : ¬Busy b ⟨c, h, .req r κ⟩ := fun hbusy => hne.symm (hOk.eq hj hi hrot hbusy)
    have heq : (E.handle P.state r).2.slice b = P.state.slice b :=
      slice_handle_of_not_writes hs ht.allowed (fun hw => hbusy (Or.inl ⟨id, hw⟩))
        (fun hu => hbusy (Or.inr hu)) ht.justified
    refine Or.inr (Or.inr ⟨j, t, ?_, hrot, hs', ?_⟩)
    · rw [System.answered_getElem?_of_ne hne.symm]
      exact hj
    · show E.Does b t.prog ((E.handle P.state r).2.slice b) t.hist _
      rw [heq]
      exact hdoes

end Step

/-! ### Whole runs -/

/-- **The block is in one of the phases in every pool** that is reached while rotations have it
for themselves. -/
theorem inPhase {rands : ℕ → HmToken}
    (hrun : (E.honest Call.KeepsBlocks).RunsWithin (Exclusive b) ⟨World.empty rands, []⟩ P) :
    E.Reachable Call.KeepsBlocks P ∧ E.InPhase b P := by
  have hall := (honest_invariant
    (I := fun P => E.Reachable Call.KeepsBlocks P ∧ Exclusive b P ∧ E.InPhase b P) hrun
    (fun _ h => h) (fun t ht => by simp at ht) ?_ ?_ ?_).2
  · exact ⟨hall.1, hall.2.2⟩
  · exact ⟨⟨rands, .refl⟩, List.Pairwise.nil,
      Or.inl ⟨⟨rfl, fun _ => rfl⟩, fun t ht => by simp at ht⟩⟩
  · rintro P c fuel ⟨hP, -, hphase⟩ hreg hc hOk
    refine ⟨hP.spawn hreg hc fuel, hOk, ?_⟩
    rcases hphase with hun | ⟨k, kw, hset⟩ | hrot
    · exact Or.inl hun.spawn
    · exact hset.spawn hP.wellFormed.1 hreg
    · exact Or.inr (Or.inr hrot.spawn)
  · rintro P i c h r k hhonest ⟨hP, hex, hphase⟩ hi hOk
    refine ⟨hP.answered hi, hOk, ?_⟩
    rcases hphase with hun | ⟨k, kw, hset⟩ | hrot
    · exact hun.answered hhonest hi hOk
    · exact Or.inr (Or.inl ⟨k, kw, hset.answered hhonest hi⟩)
    · exact hrot.answered hex hhonest hi

/-- **Key coherence, when rotations have a block for themselves**: whatever calls of whatever
users overlap otherwise, whenever no rotation of the block is in progress, the tokens of
every user of the block fit it. -/
theorem key_coherence {rands : ℕ → HmToken} {user : User}
    (hrun : (E.honest Call.KeepsBlocks).RunsWithin (Exclusive b) ⟨World.empty rands, []⟩ P)
    (hstill : ∀ t ∈ P.threads, ¬RotatesNow b t) (hreg : E.Registered user)
    (he : P.state.entry b user.id ≠ none) : E.CoherentFor P.state b user := by
  obtain ⟨hP, hun | ⟨k, kw, hset⟩ | ⟨i, t, hi, hrot, -⟩⟩ := inPhase hrun
  · exact absurd (hun.untouched.entry user.id) he
  · exact hset.keyed.coherentFor hP.wellFormed.1 hreg he
  · exact absurd hrot (hstill t (List.mem_of_getElem? hi))

end Env

/-! ### A grant against a rotation -/

/-- Alice lets Bob read her block, and rotates the block when she has loaded her key for him
and not saved it yet. -/
def rotationInGrant : List (Move Call) :=
  Move.oneByOne 13 [⟨alice, .createBlock (some [9]) [1] [2]⟩] 0 ++
    (.start ⟨alice, .grantReadAccess [9] bob.id⟩ :: List.replicate 15 (.step 1)) ++
    (.start ⟨alice, .rotateBlock [9]⟩ :: List.replicate 50 (.step 2)) ++
    [.step 1]

/-- **A grant can save a key that a rotation has replaced**: both report success, and Bob has a
token that opens nothing. -/
theorem Env.not_keyCoherence : ¬demoEnv.KeyCoherence := by
  intro hcoherent
  have hcalls : ∀ c ∈ Move.starts rotationInGrant, demoEnv.Registered c.user ∧ c.KeepsBlocks := by
    simp [rotationInGrant, registered_alice, Call.KeepsBlocks]
  obtain ⟨e, s, k, kw, d, -, -, -, -, -, hread⟩ := hcoherent (demoPlay rotationInGrant)
    (reachable_play hcalls) (by decide +kernel) [9] bob registered_bob (by decide +kernel)
  have hfail : ((midHermesReadBlock bob [9]).run demoEnv.handle
      (demoPlay rotationInGrant).state).1.toOption.map Prod.fst = some hmFail := by decide +kernel
  rw [hread] at hfail
  have hstatus : hmSuccess = hmFail := Option.some.inj hfail
  exact absurd hstatus (by decide)

/-- Alice shares a block with Bob and lets Carol read it while Bob updates it, and rotates it
when both are done. -/
def rotationAfterGrant : List (Move Call) :=
  Move.oneByOne 16 (sharedWithBob [9]) 0 ++
    (.start ⟨alice, .grantReadAccess [9] carol.id⟩ :: List.replicate 12 (.step 3)) ++
    (.start ⟨bob, .updateBlock [9] [3] [4]⟩ :: List.replicate 20 (.step 4)) ++
    List.replicate 4 (.step 3) ++
    (.start ⟨alice, .rotateBlock [9]⟩ :: List.replicate 60 (.step 5))

/-- Then Carol's token fits the rotated block. -/
theorem Env.key_coherence_rotationAfterGrant :
    demoEnv.CoherentFor (demoPlay rotationAfterGrant).state [9] carol := by
  have hcalls : ∀ c ∈ Move.starts rotationAfterGrant,
      demoEnv.Registered c.user ∧ c.KeepsBlocks := by
    simp [rotationAfterGrant, sharedWithBob, registered_alice, registered_bob, Call.KeepsBlocks]
  have hrun : (demoEnv.honest Call.KeepsBlocks).RunsWithin (Exclusive [9])
      ⟨World.empty demoRands, []⟩ (demoPlay rotationAfterGrant) :=
    System.runsWithin_play (fun P (h : decide (Exclusive [9] P) = true) => of_decide_eq_true h)
      honest_handle _ (fun c hc => ⟨hcalls c hc, 8, rfl⟩) _ (by decide +kernel)
  exact Env.key_coherence hrun (by decide +kernel) registered_carol (by decide +kernel)

end Hermes

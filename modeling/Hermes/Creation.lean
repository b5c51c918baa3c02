import Hermes.WellFormed

/-!
# A block is created once

A creation takes three requests: the data store takes the block, and then the key store takes a
read token and a write token of the creator, one after the other. In between, other calls may
find the block in the data store and nobody who can write it, or a creator who can only read
it. Such a creation is unsettled (`Hermes.Unsettled`).

In the runs of this file no block is deleted (`Hermes.Call.KeepsBlocks`). Then a block that is
stored stays so, it is created by one call, and until this call has sent its write token nobody
has one, in the key store or loaded (`Hermes.Env.CreatedOnce`,
`Hermes.Env.Reachable.createdOnce`). The three clauses hold each other up: that the creation is
the only one needs that the block was absent before it; that nobody has a write token needs
that the creation is the only one, for an unsettled creation of another call could send its own;
and that a block is absent before its creation needs that a creation is refused where there is
a block, which is what the data store checks.

Deletions are left out because they undo all of it: an id that is free again can be created a
second time, by another user, while tokens of the first block are still on their way, and the
entries of other users that a deletion leaves behind (`Hermes.Env.not_deletionComplete`) are
taken for entries of the new block. This is why the results about keys and about revocations are
about calls that keep blocks.

A creation is recognised in a history by the exchange in which the data store took the block
(`Hermes.Makes`), under an id that was given or that the data store has made up; an update is
the other way to have a version taken (`Hermes.TookVersion`).
-/

namespace Hermes

open Interleave

/-- The call deletes no block. -/
def Call.KeepsBlocks (c : Call) : Prop :=
  match c.op with
  | .deleteBlock _ => False
  | _ => True

instance (c : Call) : Decidable c.KeepsBlocks := by
  unfold Call.KeepsBlocks
  cases c.op <;> infer_instance

/-- The exchange created the block, under the id it was given or one the data store made up. -/
def Makes (b : Bytes) : Event Req.Answer → Prop
  | ⟨.ds (.createBlock ..), .ok id⟩ => id = b
  | ⟨.ds (.createBlockWithId id ..), .ok _⟩ => id = b
  | _ => False

instance (b : Bytes) : DecidablePred (Makes b) := fun e =>
  match e with
  | ⟨.ds (.createBlock ..), .ok id⟩ => inferInstanceAs (Decidable (id = b))
  | ⟨.ds (.createBlockWithId id ..), .ok _⟩ => inferInstanceAs (Decidable (id = b))
  | ⟨.ds (.createBlock ..), .error _⟩ => isFalse id
  | ⟨.ds (.createBlockWithId ..), .error _⟩ => isFalse id
  | ⟨.ds (.readBlock _), _⟩ => isFalse id
  | ⟨.ds (.updateBlock ..), _⟩ => isFalse id
  | ⟨.ds (.deleteBlock ..), _⟩ => isFalse id
  | ⟨.ks _, _⟩ => isFalse id
  | ⟨.getPubKeyById _, _⟩ => isFalse id
  | ⟨.themis _, _⟩ => isFalse id

/-- The data store took a version of the block, its first one or another. -/
def TookVersion (b : Bytes) : Event Req.Answer → Prop
  | ⟨.ds (.createBlock ..), .ok id⟩ => id = b
  | ⟨.ds (.createBlockWithId id ..), .ok _⟩ => id = b
  | ⟨.ds (.updateBlock id ..), .ok _⟩ => id = b
  | _ => False

instance (b : Bytes) : DecidablePred (TookVersion b) := fun e =>
  match e with
  | ⟨.ds (.createBlock ..), .ok id⟩ => inferInstanceAs (Decidable (id = b))
  | ⟨.ds (.createBlockWithId id ..), .ok _⟩ => inferInstanceAs (Decidable (id = b))
  | ⟨.ds (.updateBlock id ..), .ok _⟩ => inferInstanceAs (Decidable (id = b))
  | ⟨.ds (.createBlock ..), .error _⟩ => isFalse id
  | ⟨.ds (.createBlockWithId ..), .error _⟩ => isFalse id
  | ⟨.ds (.updateBlock ..), .error _⟩ => isFalse id
  | ⟨.ds (.readBlock _), _⟩ => isFalse id
  | ⟨.ds (.deleteBlock ..), _⟩ => isFalse id
  | ⟨.ks _, _⟩ => isFalse id
  | ⟨.getPubKeyById _, _⟩ => isFalse id
  | ⟨.themis _, _⟩ => isFalse id

/-- The call of a thread has created the block. -/
def MadeBy (b : Bytes) (t : ClientThread) : Prop := ∃ e ∈ t.hist, Makes b e

/-- It has, and has not sent its write token to the key store yet. -/
def Unsettled (b : Bytes) (t : ClientThread) : Prop :=
  MadeBy b t ∧ ∀ e ∈ t.hist, ¬e.1.SetsWtoken

instance (b : Bytes) (t : ClientThread) : Decidable (MadeBy b t) :=
  inferInstanceAs (Decidable (∃ e ∈ t.hist, Makes b e))

instance (b : Bytes) (t : ClientThread) : Decidable (Unsettled b t) :=
  inferInstanceAs (Decidable (MadeBy b t ∧ ∀ e ∈ t.hist, ¬e.1.SetsWtoken))

theorem not_madeBy_nil {b : Bytes} {c : Call} {p : Client Result} : ¬MadeBy b ⟨c, [], p⟩ := by
  rintro ⟨e, he, -⟩
  simp at he

theorem not_unsettled_nil {b : Bytes} {c : Call} {p : Client Result} :
    ¬Unsettled b ⟨c, [], p⟩ := fun hu => not_madeBy_nil hu.1

/-- Nobody has a write token of the block, and nobody ever had one. -/
structure NoWriters (b : Bytes) (P : Clients) : Prop where
  entry : ∀ u, writeToken (P.state.entry b u) = none
  got : ∀ t ∈ P.threads, ∀ u x, ¬GotToken t.hist true b u x

/-- **A block is created once**, and has no writers until its creation has sent a write
token. -/
structure Env.CreatedOnce (b : Bytes) (P : Clients) : Prop where
  absent : P.state.stored b = none → ∀ t ∈ P.threads, ¬MadeBy b t
  unique : ∀ {i j : ℕ} {t t'}, P.threads[i]? = some t → P.threads[j]? = some t' →
    MadeBy b t → MadeBy b t' → i = j
  noWriters : (P.state.stored b = none ∨ ∃ t ∈ P.threads, Unsettled b t) → NoWriters b P

namespace Env

variable {E : Env} {allowed : Call → Prop}

theorem makes_of_created {h : Hist} {b blk mt mac : Bytes} {id : Option Bytes}
    (hcr : Created h b blk mt mac id) : ∃ e ∈ h, Makes b e := by
  cases id with
  | none => exact ⟨_, hcr, rfl⟩
  | some id => exact ⟨_, hcr.2, rfl⟩

/-- The creations of a block are those under its id and those the data store made up its id
for. -/
theorem makes_iff {b : Bytes} {e : Event Req.Answer} : Makes b e ↔ ∃ blk mt mac,
    e = ⟨.ds (.createBlock blk mt mac), .ok b⟩ ∨
      e = ⟨.ds (.createBlockWithId b blk mt mac), .ok ()⟩ := by
  constructor
  · intro hm
    obtain ⟨r, a⟩ := e
    match r, a with
    | .ds (.createBlock blk mt mac), .ok id =>
      obtain rfl : id = b := hm
      exact ⟨blk, mt, mac, Or.inl rfl⟩
    | .ds (.createBlockWithId id blk mt mac), .ok _ =>
      obtain rfl : id = b := hm
      exact ⟨blk, mt, mac, Or.inr rfl⟩
    | .ds (.createBlock ..), .error _ => exact hm.elim
    | .ds (.createBlockWithId ..), .error _ => exact hm.elim
    | .ds (.readBlock _), _ => exact hm.elim
    | .ds (.updateBlock ..), _ => exact hm.elim
    | .ds (.deleteBlock ..), _ => exact hm.elim
    | .ks _, _ => exact hm.elim
    | .getPubKeyById _, _ => exact hm.elim
    | .themis _, _ => exact hm.elim
  · rintro ⟨blk, mt, mac, rfl | rfl⟩ <;> rfl

/-- A block is created where there was none. -/
theorem stored_of_makes {w : World} {r : Req} {b : Bytes} (h : Makes b ⟨r, (E.handle w r).1⟩) :
    w.stored b = none ∧ (E.handle w r).2.stored b ≠ none := by
  rw [stored_handle]
  obtain ⟨blk, mt, mac, heq | heq⟩ := makes_iff.mp h
  · rw [heq]
    obtain rfl := congrArg Sigma.fst heq
    exact ⟨(createBlock_ok (eq_of_heq (Sigma.mk.inj heq).2)).1, by simp [dataAfter]⟩
  · rw [heq]
    obtain rfl := congrArg Sigma.fst heq
    exact ⟨createBlockWithId_ok (eq_of_heq (Sigma.mk.inj heq).2), by simp [dataAfter]⟩

/-- The data store takes a version where there is no block, or in place of another one. -/
theorem tookVersion_cases {w : World} {r : Req} {b : Bytes}
    (ht : TookVersion b ⟨r, (E.handle w r).1⟩) :
    Makes b ⟨r, (E.handle w r).1⟩ ∨ ∃ blk mt mac old, r = .ds (.updateBlock b blk mt mac old) ∧
      mt ≠ [] ∧ (E.handle w r).2.stored b = some ⟨blk, mt, mac⟩ := by
  match r with
  | .ds (.createBlock blk mt mac) =>
    left
    cases ha : (E.handle w (.ds (.createBlock blk mt mac))).1 with
    | error _ => rw [ha] at ht; exact ht.elim
    | ok id => rw [ha] at ht; exact ht
  | .ds (.createBlockWithId id blk mt mac) =>
    left
    cases ha : (E.handle w (.ds (.createBlockWithId id blk mt mac))).1 with
    | error _ => rw [ha] at ht; exact ht.elim
    | ok _ => rw [ha] at ht; exact ht
  | .ds (.updateBlock id blk mt mac old) =>
    right
    rw [stored_handle]
    cases ha : (E.handle w (.ds (.updateBlock id blk mt mac old))).1 with
    | error _ => rw [ha] at ht; exact ht.elim
    | ok _ =>
      rw [ha] at ht
      obtain rfl : id = b := ht
      refine ⟨blk, mt, mac, old, rfl, ?_, if_pos rfl⟩
      rintro rfl
      rw [handle_updateBlock] at ha
      simp at ha
  | .ds (.readBlock _) => exact ht.elim
  | .ds (.deleteBlock ..) => exact ht.elim
  | .ks _ => exact ht.elim
  | .getPubKeyById _ => exact ht.elim
  | .themis _ => exact ht.elim

/-- A creation is the taking of a version. -/
theorem tookVersion_of_makes {e : Event Req.Answer} {b : Bytes} (hm : Makes b e) :
    TookVersion b e := by
  obtain ⟨blk, mt, mac, rfl | rfl⟩ := makes_iff.mp hm
  · exact rfl
  · exact rfl

/-- Who creates a block was justified in doing so. -/
theorem creates_of_makes {c : Call} {h : Hist} {e : Event Req.Answer} {b : Bytes}
    (hJ : E.Justified c h e.1) (hm : Makes b e) :
    ¬e.1.SetsWtoken ∧ ∃ id blk mt mac, E.Creates c h id blk mt mac := by
  obtain ⟨blk, mt, mac, he⟩ := makes_iff.mp hm
  obtain ⟨cid, hcr⟩ := creates_of_event he hJ
  refine ⟨?_, cid, blk, mt, mac, hcr⟩
  rcases he with rfl | rfl <;> exact id

/-- A block is created by a call for its creation. -/
theorem Honest.op_of_madeBy {t : ClientThread} {b : Bytes} (ht : E.Honest allowed t)
    (hm : MadeBy b t) : ∃ id d mt, t.call.op = .createBlock id d mt := by
  obtain ⟨e, he, hm⟩ := hm
  obtain ⟨h', -, -, hJ⟩ := ht.accounts.1.of_mem he
  obtain ⟨-, id, blk, mt, mac, d, -, hop, -⟩ := creates_of_makes hJ hm
  exact ⟨id, d, mt, hop⟩

/-- A call that keeps blocks never removes one. -/
theorem stored_ne_none {w : World} {c : Call} {h : Hist} {r : Req} {b : Bytes}
    (hJ : E.Justified c h r) (hc : c.KeepsBlocks) (hw : w.stored b ≠ none) :
    (E.handle w r).2.stored b ≠ none := by
  rcases stored_cases w r b with heq | ⟨blk, mt, mac, -, -, -, heq⟩ |
    ⟨blk, mt, mac, old, s, -, -, -, -, heq⟩ | ⟨old, s, hr, -, -, -⟩
  · rwa [heq]
  · simp [heq]
  · simp [heq]
  · obtain rfl := congrArg Sigma.fst hr
    exact absurd hc (by simp [Call.KeepsBlocks, hJ.1])

/-- **Who saves a token** was given one, or has created the block and not sent its write token
yet. -/
theorem Saves.known {c : Call} {h : Hist} {isUpdate : Bool} {b u o t : Bytes}
    (hs : E.Saves c h isUpdate b u o t) :
    (∃ u' x, GotToken h isUpdate b u' x) ∨ ((∃ e ∈ h, Makes b e) ∧ ∀ e ∈ h, ¬e.1.SetsWtoken) := by
  rcases hs.cases with ⟨id, d, mt, -, -, -, hset, k, kw, blk, mac, sk, hcr, -⟩ |
    ⟨d, mt, -, -, hg, -⟩ | ⟨-, -, ⟨x, hg⟩, -⟩ | ⟨-, -, k, sk, pk, ⟨x, hg, -⟩, -⟩
  · exact Or.inr ⟨makes_of_created hcr, hset⟩
  · exact Or.inl ⟨_, _, hg⟩
  · exact Or.inl ⟨_, x, hg⟩
  · exact Or.inl ⟨_, x, hg⟩

/-- The creations of a pool in which a request was answered: an old one, or the answer is
the creation. -/
theorem madeBy_answered {P : Clients} {i j : ℕ} {c : Call} {h : Hist} {r : Req} {b : Bytes}
    {k : r.Answer → Client Result} {t : ClientThread}
    (hi : P.threads[i]? = some ⟨c, h, .req r k⟩)
    (hj : (P.answered i (E.answeredThread P.state c h r k) (E.handle P.state r).2).threads[j]? =
      some t) (ht : MadeBy b t) :
    (∃ t', P.threads[j]? = some t' ∧ MadeBy b t') ∨
      (j = i ∧ Makes b ⟨r, (E.handle P.state r).1⟩) := by
  rcases System.of_getElem?_answered hj with ⟨rfl, rfl⟩ | ⟨-, hj⟩
  · obtain ⟨e, he, hm⟩ := ht
    rcases List.mem_cons.mp he with rfl | he
    · exact Or.inr ⟨rfl, hm⟩
    · exact Or.inl ⟨_, hi, e, he, hm⟩
  · exact Or.inl ⟨t, hj, ht⟩

/-- An unsettled creation whose request was answered was unsettled, or creates the block now. -/
theorem unsettled_of_answered {w : World} {c : Call} {h : Hist} {r : Req} {b : Bytes}
    {k : r.Answer → Client Result} (hu : Unsettled b (E.answeredThread w c h r k)) :
    Unsettled b ⟨c, h, .req r k⟩ ∨ Makes b ⟨r, (E.handle w r).1⟩ := by
  obtain ⟨⟨e, he, hm⟩, hset⟩ := hu
  rcases List.mem_cons.mp he with rfl | he
  · exact Or.inr hm
  · exact Or.inl ⟨⟨e, he, hm⟩, fun e he => hset e (List.mem_cons_of_mem _ he)⟩

/-- **The step lemma**: a request of a call that keeps blocks keeps the invariant. -/
theorem CreatedOnce.answered {P : Clients} {i : ℕ} {c : Call} {h : Hist} {r : Req} {b : Bytes}
    {k : r.Answer → Client Result} (hP : CreatedOnce b P) (hc : c.KeepsBlocks)
    (hJ : E.Justified c h r) (hi : P.threads[i]? = some ⟨c, h, .req r k⟩) :
    CreatedOnce b (P.answered i (E.answeredThread P.state c h r k) (E.handle P.state r).2) := by
  have hmem := List.mem_of_getElem? hi
  refine ⟨fun hs t ht hmade => ?_, fun {j j' t t'} hj hj' hmade hmade' => ?_, fun hun => ?_⟩
  · -- a creation, old or new, would have left a block
    have hnone : P.state.stored b = none := by
      by_contra hw
      exact stored_ne_none hJ hc hw hs
    obtain ⟨j, hj⟩ := List.getElem?_of_mem ht
    rcases madeBy_answered hi hj hmade with ⟨t', ht', hm⟩ | ⟨-, hm⟩
    · exact hP.absent hnone t' (List.mem_of_getElem? ht') hm
    · exact (stored_of_makes hm).2 hs
  · -- of two creations at most one is new, and a new one has found nothing there
    rcases madeBy_answered hi hj hmade with ⟨u, hu, hm⟩ | ⟨rfl, hm⟩ <;>
      rcases madeBy_answered hi hj' hmade' with ⟨u', hu', hm'⟩ | ⟨rfl, hm'⟩
    · exact hP.unique hu hu' hm hm'
    · exact absurd hm (hP.absent (stored_of_makes hm').1 u (List.mem_of_getElem? hu))
    · exact absurd hm' (hP.absent (stored_of_makes hm).1 u' (List.mem_of_getElem? hu'))
    · rfl
  · have hold : P.state.stored b = none ∨ ∃ t ∈ P.threads, Unsettled b t := by
      rcases hun with hs | ⟨t, ht, hu⟩
      · left
        by_contra hw
        exact stored_ne_none hJ hc hw hs
      · rcases System.mem_answered ht with rfl | ht
        · rcases unsettled_of_answered hu with hu | hm
          · exact Or.inr ⟨_, hmem, hu⟩
          · exact Or.inl (stored_of_makes hm).1
        · exact Or.inr ⟨t, ht, hu⟩
    have hno := hP.noWriters hold
    -- nobody had a write token, so only the creation itself can save one
    refine ⟨fun u => ?_, fun t ht u x hx => ?_⟩
    · show writeToken ((E.handle P.state r).2.entry b u) = none
      rcases entry_cases P.state r b u with heq | ⟨o, t, -, -, -, heq⟩ |
        ⟨o, t, e, hr, -, -, -, -⟩ | ⟨o, -, -, heq⟩ | ⟨o, e, -, -, -, heq⟩
      · rw [heq]
        exact hno.entry u
      · rw [heq]
        exact hno.entry u
      · obtain rfl := congrArg Sigma.fst hr
        have hsaves : E.Saves c h true b u o t := hJ
        rcases hsaves.known with ⟨u', x, hx⟩ | ⟨hmade, hset⟩
        · exact absurd hx (hno.got _ hmem u' x)
        · -- the creation that settles now was the only one, so none is left unsettled
          rcases hun with hs | ⟨t', ht', hmade', hset'⟩
          · exact absurd hmade (hP.absent hs _ hmem)
          · obtain ⟨j, hj⟩ := List.getElem?_of_mem ht'
            rcases System.of_getElem?_answered hj with ⟨rfl, rfl⟩ | ⟨hne, hj⟩
            · exact (hset' _ List.mem_cons_self trivial).elim
            · exact absurd (hP.unique hj hi hmade' hmade) hne
      · rw [heq]
        rfl
      · rw [heq]
        rfl
    · rcases System.mem_answered ht with rfl | ht
      · rcases token_of_got hx with hx | ⟨hf, -⟩ | ⟨-, hx⟩
        · exact hno.got _ hmem u x hx
        · cases hf
        · rw [hno.entry u] at hx
          cases hx
      · exact hno.got t ht u x hx

/-- A call that starts has created nothing and read nothing. -/
theorem CreatedOnce.spawn {P : Clients} {c : Call} {p : Client Result} {b : Bytes}
    (hP : CreatedOnce b P) : CreatedOnce b (P.spawn c p) := by
  have hnew : ¬MadeBy b (⟨c, [], p⟩ : ClientThread) := not_madeBy_nil
  refine ⟨fun hs t ht => ?_, fun {i j t t'} hi hj hm hm' => ?_, fun hun => ?_⟩
  · rcases System.mem_spawn.mp ht with ht | rfl
    · exact hP.absent hs t ht
    · exact hnew
  · rcases System.of_getElem?_spawn hi with hi | ⟨-, rfl⟩
    · rcases System.of_getElem?_spawn hj with hj | ⟨-, rfl⟩
      · exact hP.unique hi hj hm hm'
      · exact absurd hm' hnew
    · exact absurd hm hnew
  · have hno := hP.noWriters (hun.imp_right fun ⟨t, ht, hu⟩ =>
      (System.mem_spawn.mp ht).elim (fun ht => ⟨t, ht, hu⟩) fun h => (hnew (h ▸ hu.1)).elim)
    refine ⟨hno.entry, fun t ht u x hx => ?_⟩
    rcases System.mem_spawn.mp ht with ht | rfl
    · exact hno.got t ht u x hx
    · exact not_gotToken_nil hx

theorem createdOnce_empty (b : Bytes) (rands : ℕ → HmToken) :
    CreatedOnce b (⟨World.empty rands, []⟩ : Clients) :=
  ⟨fun _ t ht => by simp at ht, fun hi => by simp at hi,
    fun _ => ⟨fun _ => rfl, fun t ht => by simp at ht⟩⟩

/-- **Every reachable pool has it**, as long as no block is deleted. -/
theorem Reachable.createdOnce {P : Clients} (hP : E.Reachable allowed P)
    (hkeep : ∀ c, allowed c → c.KeepsBlocks) (b : Bytes) : CreatedOnce b P :=
  hP.invariant (createdOnce_empty b) (fun _ _ _ hI _ _ => hI.spawn)
    fun _ _ c _ _ _ hhonest hI hi =>
      have ht := hhonest _ (List.mem_of_getElem? hi)
      hI.answered (hkeep c ht.allowed) ht.justified hi

end Env

end Hermes

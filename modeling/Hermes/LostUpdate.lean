import Hermes.Instance
import Hermes.WellFormed

/-!
# No update is lost

A client never sees the mac the data store has: it computes it again from the data and the
meta it has opened, with its own write key, and presents it as the old mac of an update, a
rotation or a deletion. So the comparison the data store makes is one of contents: what
is replaced or removed is what the client had loaded (`Hermes.Env.no_lost_update`).

This holds whatever the other clients do meanwhile, under the assumption that the mac is
an injective function of the key, the data and the meta. It also depends on a client
opening one block only, so that there is one content it has loaded
(`Hermes.Opened.unique`).
-/

namespace Hermes

open Interleave

/-- The data store has accepted to replace a block, or to remove it. -/
def Replaced (b : Bytes) : Event Req.Answer → Prop
  | ⟨.ds (.updateBlock b' _ _ _ _), .ok _⟩ => b' = b
  | ⟨.ds (.deleteBlock b' _), .ok _⟩ => b' = b
  | _ => False

instance (b : Bytes) : DecidablePred (Replaced b) := fun e =>
  match e with
  | ⟨.ds (.updateBlock b' _ _ _ _), .ok _⟩ => inferInstanceAs (Decidable (b' = b))
  | ⟨.ds (.deleteBlock b' _), .ok _⟩ => inferInstanceAs (Decidable (b' = b))
  | ⟨.ds (.updateBlock ..), .error _⟩ => isFalse id
  | ⟨.ds (.deleteBlock ..), .error _⟩ => isFalse id
  | ⟨.ds (.createBlock ..), _⟩ => isFalse id
  | ⟨.ds (.createBlockWithId ..), _⟩ => isFalse id
  | ⟨.ds (.readBlock _), _⟩ => isFalse id
  | ⟨.ks _, _⟩ => isFalse id
  | ⟨.getPubKeyById _, _⟩ => isFalse id
  | ⟨.themis _, _⟩ => isFalse id

/-- The client has read a block and opened it to this content. -/
def Opened (h : Hist) (b d mt : Bytes) : Prop :=
  ∃ k x, Got h (.ds (.readBlock b)) (.ok (x, mt)) ∧ Got h (.themis (.decryptSeal k mt x)) (some d)

/-- A call opens one block, to one content. -/
theorem Opened.unique {E : Env} {c : Call} {h : Hist} {b d mt b' d' mt' : Bytes}
    (hacc : Prog.Accounted E.Sound (E.Justified c) h) (ho : Opened h b d mt)
    (ho' : Opened h b' d' mt') : d = d' ∧ mt = mt' := by
  obtain ⟨k, x, -, hd⟩ := ho
  obtain ⟨k', x', -, hd'⟩ := ho'
  have honce : ∀ h r, E.Justified c h r → r.IsOpening → ∀ e ∈ h, ¬e.1.IsOpening := by
    intro h r hJ hr
    match r with
    | .themis (.decryptSeal k mt x) => exact hJ.1
    | .themis .rand => exact hr.elim
    | .themis (.encryptSeal ..) => exact hr.elim
    | .themis (.wrap ..) => exact hr.elim
    | .themis (.unwrapSize ..) => exact hr.elim
    | .themis (.unwrap ..) => exact hr.elim
    | .themis (.hmac ..) => exact hr.elim
    | .ks _ => exact hr.elim
    | .ds _ => exact hr.elim
    | .getPubKeyById _ => exact hr.elim
  have heq := hacc.eq_of_mem (C := Req.IsOpening) honce hd hd' trivial trivial
  simp only [Sigma.mk.injEq, Req.themis.injEq, ThemisReq.decryptSeal.injEq] at heq
  obtain ⟨⟨rfl, rfl, rfl⟩, heq⟩ := heq
  exact ⟨Option.some.inj (eq_of_heq heq), rfl⟩

namespace Env

variable {E : Env} {allowed : Call → Prop}

theorem Loaded.opened {h : Hist} {u : User} {b k d mt : Bytes} (hl : E.Loaded h u b k d mt) :
    Opened h b d mt := by
  obtain ⟨-, x, hr, hd⟩ := hl
  exact ⟨k, x, hr, hd⟩

/-- An accepted replacement presents the mac that is stored, and this is the mac of what the
client has loaded. -/
theorem loadedMac_of_replaced {w : World} {c : Call} {h : Hist} {r : Req} {b : Bytes}
    (hJ : E.Justified c h r) (hr : Replaced b ⟨r, (E.handle w r).1⟩) :
    ∃ s, w.stored b = some s ∧ E.LoadedMac h c.user b s.mac := by
  match r with
  | .ds (.updateBlock b' blk mt mac old) =>
    cases ha : (E.handle w (.ds (.updateBlock b' blk mt mac old))).1 with
    | error _ => rw [ha] at hr; exact hr.elim
    | ok _ =>
      rw [ha] at hr
      obtain rfl : b' = b := hr
      obtain ⟨s, hs, rfl⟩ := updateBlock_ok ha
      exact ⟨s, hs, hJ.1⟩
  | .ds (.deleteBlock b' old) =>
    cases ha : (E.handle w (.ds (.deleteBlock b' old))).1 with
    | error _ => rw [ha] at hr; exact hr.elim
    | ok _ =>
      rw [ha] at hr
      obtain rfl : b' = b := hr
      obtain ⟨s, hs, rfl⟩ := deleteBlock_ok ha
      exact ⟨s, hs, hJ.2⟩
  | .ds (.createBlock ..) => exact hr.elim
  | .ds (.createBlockWithId ..) => exact hr.elim
  | .ds (.readBlock _) => exact hr.elim
  | .ks _ => exact hr.elim
  | .getPubKeyById _ => exact hr.elim
  | .themis _ => exact hr.elim

/-- **No update is lost.** When the data store accepts to replace or to remove a block, in
any pool that is reachable by any calls, the client that asks for it has loaded a content,
and the block that is stored at this moment has this content. -/
theorem no_lost_update
    (hmac : ∀ {k d mt k' d' mt'}, E.themis.hmac k [d, mt] = E.themis.hmac k' [d', mt'] →
      k = k' ∧ d = d' ∧ mt = mt')
    {P : Clients} (hP : E.Reachable allowed P) {i : ℕ} {c : Call} {h : Hist} {r : Req}
    {k : r.Answer → Client Result} (hi : P.threads[i]? = some ⟨c, h, .req r k⟩) {b : Bytes}
    (hr : Replaced b ⟨r, (E.handle P.state r).1⟩) :
    (∃ d mt, Opened h b d mt) ∧ ∀ d mt, Opened h b d mt →
      ∃ s key, P.state.stored b = some s ∧ s.metadata = mt ∧
        s.block = E.themis.encryptSeal key mt d := by
  have ht := hP.honest _ (List.mem_of_getElem? hi)
  obtain ⟨s, hs, k', kw, d', mt', hl, -, hmac'⟩ := loadedMac_of_replaced ht.justified hr
  refine ⟨⟨d', mt', hl.opened⟩, fun d mt ho => ?_⟩
  obtain ⟨rfl, rfl⟩ := ho.unique ht.accounts.1 hl.opened
  -- the stored mac is one of the stored content, so the contents agree
  obtain ⟨-, key, kw', d₀, hsealed⟩ := hP.wellFormed.1.stored hs
  obtain ⟨hblock, hmac₀⟩ := hsealed.version
  obtain ⟨-, rfl, hmt⟩ := hmac (hmac₀.symm.trans hmac')
  exact ⟨s, key, hs, hmt, hmt ▸ hblock⟩

end Env

/-- In `Hermes.idealThemis` the chunks of a mac are told apart. -/
theorem idealThemis_hmac_inj {k d mt k' d' mt' : Bytes}
    (h : idealThemis.hmac k [d, mt] = idealThemis.hmac k' [d', mt']) :
    k = k' ∧ d = d' ∧ mt = mt' := by
  obtain ⟨hk, h⟩ := frame_append_inj h
  have hxs := flatten_map_frame_inj h
  simp only [List.cons.injEq, and_true] at hxs
  exact ⟨hk, hxs⟩

/-- Alice updates a block of hers, and is about to send it to the data store. -/
def updateInFlight : List (Move Call) :=
  Move.oneByOne 13 [⟨alice, .createBlock (some [9]) [1] [2]⟩] 0 ++
    (.start ⟨alice, .updateBlock [9] [3] [4]⟩ :: List.replicate 17 (.step 1))

/-- The content Alice has loaded is the one that is stored when her update is accepted. -/
theorem Env.no_lost_update_inFlight :
    ∃ t, (demoPlay updateInFlight).threads[1]? = some t ∧ (∃ d mt, Opened t.hist [9] d mt) ∧
      ∀ d mt, Opened t.hist [9] d mt → ∃ s key,
        (demoPlay updateInFlight).state.stored [9] = some s ∧ s.metadata = mt ∧
        s.block = idealThemis.encryptSeal key mt d := by
  have hreach : demoEnv.Reachable (fun _ => True) (demoPlay updateInFlight) := by
    refine Env.reachable_play fun c hc => ?_
    simp only [updateInFlight, Move.starts_append, Move.starts_oneByOne, Move.starts_start,
      Move.starts_replicate, List.mem_append, List.mem_singleton] at hc
    rcases hc with rfl | rfl <;> exact ⟨registered_alice, trivial⟩
  -- the request that is pending is an update the data store will accept
  have hpending : (demoPlay updateInFlight).threads[1]?.any (fun t => t.prog.pending?.any
      fun r => Replaced [9] ⟨r, (demoEnv.handle (demoPlay updateInFlight).state r).1⟩) = true := by
    decide +kernel
  obtain ⟨⟨c, h, p⟩, ht, hp⟩ := (Option.any_eq_true _ _).mp hpending
  obtain ⟨r, hr, hrep⟩ := (Option.any_eq_true _ _).mp hp
  obtain ⟨k, rfl⟩ := Prog.eq_req_of_pending? hr
  exact ⟨_, ht, Env.no_lost_update idealThemis_hmac_inj hreach ht (of_decide_eq_true hrep)⟩

end Hermes

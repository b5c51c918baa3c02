import Hermes.EndToEnd
import Hermes.LostUpdate

/-!
# Calls in which a request fails

One call of an honest user, in any reachable state, of which one store request fails without
effect while all others are served (`Hermes.Env.failing`). A creation and a rotation send
the block to the data store first and the tokens to the key store after that, and take
nothing back. So what a failure leaves depends on whether the data store had taken the
block: if it had not, nothing has changed; if it had, a created block is there, and a
rotated one can be read by those whose new read token was saved
(`Hermes.Env.failure_leaves`).
-/

namespace Hermes

open Interleave

/-- The request goes to a store, and not into the cryptography. -/
def Req.toStore : Req → Bool
  | .themis _ => false
  | _ => true

/-- What a request that fails is answered. -/
def Req.failed (f : Failure) : (r : Req) → r.Answer
  | .ks (.setRtoken ..) => .error f
  | .ks (.setWtoken ..) => .error f
  | .ks (.getRtoken ..) => .error f
  | .ks (.getWtoken ..) => .error f
  | .ks (.delRtoken ..) => .error f
  | .ks (.delWtoken ..) => .error f
  | .ks (.getIndexedRights ..) => .error f
  | .ds (.createBlock ..) => .error f
  | .ds (.createBlockWithId ..) => .error f
  | .ds (.readBlock _) => .error f
  | .ds (.updateBlock ..) => .error f
  | .ds (.deleteBlock ..) => .error f
  | .getPubKeyById _ => .error f
  | .themis .rand => none
  | .themis (.encryptSeal ..) => none
  | .themis (.decryptSeal ..) => none
  | .themis (.wrap ..) => none
  | .themis (.unwrapSize ..) => none
  | .themis (.unwrap ..) => none
  | .themis (.hmac ..) => none

/-- A request that fails with this status changes nothing; without one it is served. -/
def Env.attempt (E : Env) (f : Option Failure) (w : World) (r : Req) : r.Answer × World :=
  match f with
  | some f => (r.failed f, w)
  | none => E.handle w r

/-- The data store took a version of the block in one of these exchanges. -/
def Took (b : Bytes) (h : Hist) : Prop := ∃ e ∈ h, TookVersion b e

instance (b : Bytes) (h : Hist) : Decidable (Took b h) :=
  inferInstanceAs (Decidable (∃ e ∈ h, TookVersion b e))

/-- The key store took a read token of the user. -/
def TookRtoken (b u : Bytes) : Event Req.Answer → Prop
  | ⟨.ks (.setRtoken b' u' _ _), .ok _⟩ => b' = b ∧ u' = u
  | _ => False

instance (b u : Bytes) : DecidablePred (TookRtoken b u) := fun e =>
  match e with
  | ⟨.ks (.setRtoken b' u' _ _), .ok _⟩ => inferInstanceAs (Decidable (b' = b ∧ u' = u))
  | ⟨.ks (.setRtoken ..), .error _⟩ => isFalse id
  | ⟨.ks (.setWtoken ..), _⟩ => isFalse id
  | ⟨.ks (.getRtoken ..), _⟩ => isFalse id
  | ⟨.ks (.getWtoken ..), _⟩ => isFalse id
  | ⟨.ks (.delRtoken ..), _⟩ => isFalse id
  | ⟨.ks (.delWtoken ..), _⟩ => isFalse id
  | ⟨.ks (.getIndexedRights ..), _⟩ => isFalse id
  | ⟨.ds _, _⟩ => isFalse id
  | ⟨.getPubKeyById _, _⟩ => isFalse id
  | ⟨.themis _, _⟩ => isFalse id

/-- The key store took a read token of the user in one of these exchanges. -/
def SavedRtoken (b u : Bytes) (h : Hist) : Prop := ∃ e ∈ h, TookRtoken b u e

instance (b u : Bytes) (h : Hist) : Decidable (SavedRtoken b u h) :=
  inferInstanceAs (Decidable (∃ e ∈ h, TookRtoken b u e))

theorem tookRtoken_iff {b u : Bytes} {e : Event Req.Answer} : TookRtoken b u e ↔
    ∃ o t, e = ⟨.ks (.setRtoken b u o t), .ok ()⟩ := by
  constructor
  · intro he
    obtain ⟨r, a⟩ := e
    match r, a with
    | .ks (.setRtoken b' u' o t), .ok _ =>
      obtain ⟨rfl, rfl⟩ := he
      exact ⟨o, t, rfl⟩
    | .ks (.setRtoken ..), .error _ => exact he.elim
    | .ks (.setWtoken ..), _ => exact he.elim
    | .ks (.getRtoken ..), _ => exact he.elim
    | .ks (.getWtoken ..), _ => exact he.elim
    | .ks (.delRtoken ..), _ => exact he.elim
    | .ks (.delWtoken ..), _ => exact he.elim
    | .ks (.getIndexedRights ..), _ => exact he.elim
    | .ds _, _ => exact he.elim
    | .getPubKeyById _, _ => exact he.elim
    | .themis _, _ => exact he.elim
  · rintro ⟨o, t, rfl⟩
    exact ⟨rfl, rfl⟩

theorem savedRtoken_iff {b u : Bytes} {h : Hist} : SavedRtoken b u h ↔
    ∃ o t, Got h (.ks (.setRtoken b u o t)) (.ok ()) := by
  constructor
  · rintro ⟨e, he, ht⟩
    obtain ⟨o, t, rfl⟩ := tookRtoken_iff.mp ht
    exact ⟨o, t, he⟩
  · rintro ⟨o, t, hg⟩
    exact ⟨_, hg, tookRtoken_iff.mpr ⟨o, t, rfl⟩⟩

section Failed

variable {f : Failure} {r : Req} {h : Hist} {b u : Bytes}

/-- A request that fails took no version. -/
theorem not_tookVersion_failed : ¬TookVersion b ⟨r, r.failed f⟩ := by
  intro ht
  match r with
  | .ds (.createBlock ..) => exact ht
  | .ds (.createBlockWithId ..) => exact ht
  | .ds (.readBlock _) => exact ht
  | .ds (.updateBlock ..) => exact ht
  | .ds (.deleteBlock ..) => exact ht
  | .ks _ => exact ht
  | .getPubKeyById _ => exact ht
  | .themis _ => exact ht

/-- What was answered was answered before, unless it is the failure. -/
theorem got_of_failed {r' : Req} {a : r'.Answer} (hg : Got (⟨r, r.failed f⟩ :: h) r' a)
    (hne : a ≠ r'.failed f) : Got h r' a := by
  rcases List.mem_cons.mp hg with heq | hg
  · obtain rfl := congrArg Sigma.fst heq
    exact absurd (eq_of_heq (Sigma.mk.inj heq).2) hne
  · exact hg

theorem gotToken_of_failed {isUpdate : Bool} {x : Bytes × Bytes}
    (hg : GotToken (⟨r, r.failed f⟩ :: h) isUpdate b u x) : GotToken h isUpdate b u x := by
  cases isUpdate
  · exact got_of_failed hg nofun
  · exact got_of_failed hg nofun

theorem took_cons_of_not {e : Event Req.Answer} (he : ¬TookVersion b e) :
    Took b (e :: h) ↔ Took b h :=
  (List.exists_mem_cons_iff _ e h).trans (or_iff_right he)

theorem Took.mono {h' : Hist} (ht : Took b h) (hs : h <:+ h') : Took b h' := by
  obtain ⟨e, he, ht⟩ := ht
  exact ⟨e, hs.subset he, ht⟩

theorem Opened.mono {h' : Hist} {d mt : Bytes} (ho : Opened h b d mt) (hs : h <:+ h') :
    Opened h' b d mt := by
  obtain ⟨k, x, hr, hd⟩ := ho
  exact ⟨k, x, hr.mono hs, hd.mono hs⟩

end Failed

namespace Env

variable (E : Env)

/-- The stores, one of which fails to serve a request. -/
def failing (f : Failure) : World × Option ℕ → (r : Req) → r.Answer × (World × Option ℕ) :=
  Prog.failing E.handle Req.toStore (Req.failed f)

variable {E} {f : Failure}

theorem sound_failed {r : Req} (hr : r.toStore = true) : E.Sound ⟨r, r.failed f⟩ := by
  match r with
  | .ks _ => trivial
  | .ds _ => trivial
  | .getPubKeyById _ => trivial
  | .themis _ => cases hr

/-- **The invariant rule for a call in which a request fails.** The stores stay well-formed. -/
theorem run_failing {α : Type} {c : Call} {p : Client α} {Q : Hist → α → Prop}
    {I : Hist → World → Prop} (hp : E.Asks c p [] Q) (hreg : E.Registered c.user) {w : World}
    (hw : E.WellFormed w) (m : Option ℕ) (h0 : I [] w)
    (hstep : ∀ h w r, Prog.Accounted E.Sound (E.Justified c) h → E.WellFormed w →
      E.Justified c h r → I h w → I (⟨r, (E.handle w r).1⟩ :: h) (E.handle w r).2)
    (hfail : ∀ h w r, I h w → I (⟨r, r.failed f⟩ :: h) w) :
    E.WellFormed (p.run (E.failing f) (w, m)).2.1 ∧
      I (p.events (E.failing f) (w, m) []) (p.run (E.failing f) (w, m)).2.1 := by
  have hall := hp.run_failing Req.toStore (Req.failed f)
    (I := fun h w => (Prog.Accounted E.Sound (E.Justified c) h ∧ E.WellFormed w ∧ E.WellRead h) ∧
      I h w) (sound_handle E) (fun r hr => sound_failed hr) w m ⟨⟨trivial, hw, wellRead_nil⟩, h0⟩
      ?_ ?_
  · exact ⟨hall.1.2.1, hall.2⟩
  · rintro h w r hJ ⟨⟨hacc, hw, hh⟩, hI⟩
    exact ⟨⟨⟨⟨sound_handle E w r, hJ⟩, hacc⟩, hw.handle hh hreg hacc hJ, WellRead.handle hw hh⟩,
      hstep h w r hacc hw hJ hI⟩
  · rintro h w r hJ hr ⟨⟨hacc, hw, hh⟩, hI⟩
    refine ⟨⟨⟨⟨sound_failed hr, hJ⟩, hacc⟩, hw, ?_, ?_⟩, hfail h w r hI⟩
    · exact fun hg => hh.token (gotToken_of_failed hg)
    · exact fun hg => hh.block (got_of_failed hg nofun)

/-! ### Creations -/

/-- What there is of a block after a part of a creation. -/
def CreationLeaves (b : Bytes) (s : Option StoredBlock) (h : Hist) (w : World) : Prop :=
  (¬Took b h ∧ w.stored b = s) ∨ (Took b h ∧ s = none ∧ w.stored b ≠ none)

/-- **A creation changes what is stored exactly if the data store takes the block**, and then
there was none before. -/
theorem createBlock_failing {w : World} (hw : E.WellFormed w) {user : User}
    (hreg : E.Registered user) {b : Bytes} {id : Option Bytes} {d mt : Bytes} (m : Option ℕ) :
    CreationLeaves b (w.stored b)
      ((midHermesCreateBlock user id d mt).events (E.failing f) (w, m) [])
      ((midHermesCreateBlock user id d mt).run (E.failing f) (w, m)).2.1 := by
  have hasks : E.Asks ⟨user, .createBlock id d mt⟩ (midHermesCreateBlock user id d mt) [] _ :=
    asks_createBlock rfl
  refine (run_failing (I := CreationLeaves b (w.stored b)) hasks hreg hw m
    (Or.inl ⟨by simp [Took], rfl⟩) ?_ ?_).2
  · intro h w' r hacc hw' hJ hI
    by_cases ht : TookVersion b ⟨r, (E.handle w' r).1⟩
    · rcases tookVersion_cases ht with hm | ⟨blk, mt, mac, old, rfl, -, -⟩
      · obtain ⟨hnone, hsome⟩ := stored_of_makes hm
        rcases hI with ⟨-, hs⟩ | ⟨-, -, hs⟩
        · exact Or.inr ⟨⟨_, List.mem_cons_self, ht⟩, hs.symm.trans hnone, hsome⟩
        · exact absurd hnone hs
      · exact False.elim hJ.2
    · rcases hI with ⟨hno, hs⟩ | ⟨⟨e, he, hte⟩, hnone, hs⟩
      · refine Or.inl ⟨fun hnew => hno ((took_cons_of_not ht).mp hnew), ?_⟩
        rcases stored_cases w' r b with heq | ⟨blk, mt, mac, hr, -, -, -⟩ |
          ⟨blk, mt, mac, old, s', hr, -, -, -, -⟩ | ⟨old, s', hr, -, -, -⟩
        · exact heq.trans hs
        · rcases hr with hr | hr <;> rw [hr] at ht <;> exact absurd rfl ht
        · rw [hr] at ht
          exact absurd rfl ht
        · obtain rfl := congrArg Sigma.fst hr
          exact absurd hJ.1 (by simp)
      · exact Or.inr ⟨⟨e, List.mem_cons_of_mem _ he, hte⟩, hnone, stored_ne_none hJ trivial hs⟩
  · rintro h w' r (⟨hno, hs⟩ | ⟨⟨e, he, hte⟩, hnone, hs⟩)
    · exact Or.inl ⟨fun hnew => hno ((took_cons_of_not not_tookVersion_failed).mp hnew), hs⟩
    · exact Or.inr ⟨⟨e, List.mem_cons_of_mem _ he, hte⟩, hnone, hs⟩

/-! ### Rotations -/

variable (E)

/-- Before the data store takes the new version, a rotation has changed nothing, and has read
what is there. -/
structure BeforeVersion (b : Bytes) (v : Slice) (h : Hist) (w : World) : Prop where
  notTook : ¬Took b h
  slice : w.slice b = v
  read : ∀ {x mt}, Got h (.ds (.readBlock b)) (.ok (x, mt)) →
    ∃ s, v.stored = some s ∧ x = s.block ∧ mt = s.metadata

/-- After that, the content is what it was, under a key that every read token saved since
wraps. -/
def AfterVersion (b : Bytes) (v : Slice) (h : Hist) (w : World) : Prop :=
  ∃ s s' k kw k₀ kw₀ d, v.stored = some s ∧ E.Sealed k₀ kw₀ d s ∧ w.stored b = some s' ∧
    E.Sealed k kw d s' ∧ s'.metadata = s.metadata ∧ Took b h ∧ Drew h 0 k ∧ Drew h 1 kw ∧
    Opened h b d s.metadata ∧ ∀ u o t, Got h (.ks (.setRtoken b u o t)) (.ok ()) →
      ∃ e, w.entry b u = some e ∧ E.TokenFor u (e.rtoken, e.rtokenOwner) k

variable {E} {w : World} {user : User} {b : Bytes} {h : Hist} {r : Req} {v : Slice}

/-- A rotation saves tokens once the data store has taken the new version. -/
theorem took_of_saves {isUpdate : Bool} {u o t : Bytes}
    (hs : E.Saves ⟨user, .rotateBlock b⟩ h isUpdate b u o t) : Took b h := by
  obtain ⟨-, -, -, k, kw, d, blk, mt, mac, old, sk, pk, hgot, -⟩ := hs
  exact ⟨_, hgot, rfl⟩

/-- The tokens a rotation saves are of the keys it has drawn. -/
theorem Saves.tokenFor_drawn {isUpdate : Bool} {u o t k kw : Bytes}
    (hs : E.Saves ⟨user, .rotateBlock b⟩ h isUpdate b u o t) (hreg : E.Registered user)
    (hk : Drew h 0 k) (hkw : Drew h 1 kw) : E.TokenFor u (t, o) (keyFor isUpdate k kw) := by
  obtain ⟨-, rfl, -, k', kw', d, blk, mt, mac, old, sk, pk, -, -, hk', hkw',
    hsk, hpk, hne, rfl⟩ := hs
  obtain rfl := hk'.unique hk
  obtain rfl := hkw'.unique hkw
  exact tokenFor_wrap hreg hsk hpk hne (keyFor_ne_nil hk.ne_nil hkw.ne_nil)

/-- **Up to the new version** a rotation changes nothing. -/
theorem BeforeVersion.handle (hI : BeforeVersion b v h w)
    (hacc : Prog.Accounted E.Sound (E.Justified ⟨user, .rotateBlock b⟩) h) (hwf : E.WellFormed w)
    (hJ : E.Justified ⟨user, .rotateBlock b⟩ h r) :
    BeforeVersion b v (⟨r, (E.handle w r).1⟩ :: h) (E.handle w r).2 ∨
      E.AfterVersion b v (⟨r, (E.handle w r).1⟩ :: h) (E.handle w r).2 := by
  obtain ⟨hno, rfl, hread⟩ := hI
  have hsaved : ∀ u o t, ¬Got h (.ks (.setRtoken b u o t)) (.ok ()) := by
    intro u o t hg
    obtain ⟨h', hs, -, hJ'⟩ := hacc.of_mem hg
    have hsaves : E.Saves ⟨user, .rotateBlock b⟩ h' false b u o t := hJ'
    exact hno ((took_of_saves hsaves).mono hs)
  by_cases ht : TookVersion b ⟨r, (E.handle w r).1⟩
  · rcases tookVersion_cases ht with hm | ⟨blk, mt, mac, old, rfl, hmt, hs'⟩
    · obtain ⟨-, id, blk, mt, mac, d, -, hop, -⟩ := creates_of_makes (e := ⟨r, _⟩) hJ hm
      cases hop
    · right
      obtain ⟨-, -, k₀, d, k, kw, hl, hk, hkw, hv⟩ := hJ
      -- what the call has opened is what is stored
      obtain ⟨-, x, hx, hdec⟩ := id hl
      obtain ⟨s, hs, rfl, rfl⟩ := hread hx
      obtain ⟨-, k₁, kw₁, d₁, hsealed⟩ := hwf.stored hs
      obtain ⟨-, -, hsound, -⟩ := hacc.of_mem hdec
      obtain ⟨rfl, -, rfl⟩ := E.themis.encryptSeal_inj (hsealed.version.1.symm.trans hsound)
      have hsuf := List.suffix_cons
        (⟨_, (E.handle w (.ds (.updateBlock b blk s.metadata mac old))).1⟩ : Event Req.Answer) h
      refine ⟨s, _, k, kw, k₁, kw₁, d₁, hs, hsealed, hs',
        ⟨hk.ne_nil, hkw.ne_nil, hsealed.data_ne, hmt, hv⟩, rfl, ⟨_, List.mem_cons_self, ht⟩,
        hk.mono hsuf, hkw.mono hsuf, hl.opened.mono hsuf, ?_⟩
      intro u o t hg
      rcases List.mem_cons.mp hg with heq | hg
      · cases congrArg Sigma.fst heq
      · exact absurd hg (hsaved u o t)
  · left
    refine ⟨fun hnew => hno ((took_cons_of_not ht).mp hnew), congrArg₂ Slice.mk ?_ ?_, ?_⟩
    · rcases keys_handle (E := E) w r b with heq | ⟨isUpdate, u, o, t, rfl⟩ | ⟨u, o, rfl⟩ |
        ⟨u, o, rfl⟩
      · exact heq
      · exact absurd (took_of_saves (justified_setToken.mp hJ)) hno
      · exact False.elim hJ
      · exact False.elim hJ
    · rcases stored_cases w r b with heq | ⟨blk, mt, mac, hr, -, -, -⟩ |
        ⟨blk, mt, mac, old, s', hr, -, -, -, -⟩ | ⟨old, s', hr, -, -, -⟩
      · exact heq
      · rcases hr with hr | hr <;> rw [hr] at ht <;> exact absurd rfl ht
      · rw [hr] at ht
        exact absurd rfl ht
      · obtain rfl := congrArg Sigma.fst hr
        exact absurd hJ.1 (by simp)
    · intro x mt hg
      rcases List.mem_cons.mp hg with heq | hg
      · obtain rfl := congrArg Sigma.fst heq
        obtain ⟨s, hs, hx⟩ := readBlock_ok (eq_of_heq (Sigma.mk.inj heq).2).symm
        cases hx
        exact ⟨s, hs, rfl, rfl⟩
      · exact hread hg

/-- **From then on** it saves tokens of the new keys. -/
theorem AfterVersion.handle (hI : E.AfterVersion b v h w)
    (hacc : Prog.Accounted E.Sound (E.Justified ⟨user, .rotateBlock b⟩) h)
    (hreg : E.Registered user) (hJ : E.Justified ⟨user, .rotateBlock b⟩ h r) :
    E.AfterVersion b v (⟨r, (E.handle w r).1⟩ :: h) (E.handle w r).2 := by
  obtain ⟨s, s', k, kw, k₀, kw₀, d, hs, hsealed, hs', hsealed', hmeta, ht, hk, hkw, ho,
    htokens⟩ := hI
  have hsuf := List.suffix_cons (⟨r, (E.handle w r).1⟩ : Event Req.Answer) h
  -- what is stored stays a version of one content under the same keys
  obtain ⟨s'', hs'', hsealed'', hmeta'⟩ : ∃ s'', (E.handle w r).2.stored b = some s'' ∧
      E.Sealed k kw d s'' ∧ s''.metadata = s.metadata := by
    rcases stored_cases w r b with heq | ⟨blk, mt, mac, -, -, hnone, -⟩ |
      ⟨blk, mt, mac, old, s₁, hr, -, -, -, heq⟩ | ⟨old, s₁, hr, -, -, -⟩
    · exact ⟨s', heq.trans hs', hsealed', hmeta⟩
    · rw [hs'] at hnone
      cases hnone
    · -- another version would have the same content and keys
      obtain rfl := congrArg Sigma.fst hr
      obtain ⟨-, -, k₁, d₁, k₂, kw₂, hl, hk₂, hkw₂, hv⟩ := hJ
      obtain ⟨rfl, rfl⟩ := ho.unique hacc hl.opened
      obtain rfl := hk.unique hk₂
      obtain rfl := hkw.unique hkw₂
      exact ⟨_, heq, ⟨hk.ne_nil, hkw.ne_nil, hsealed.data_ne, hsealed.meta_ne, hv⟩, rfl⟩
    · obtain rfl := congrArg Sigma.fst hr
      exact absurd hJ.1 (by simp)
  refine ⟨s, s'', k, kw, k₀, kw₀, d, hs, hsealed, hs'', hsealed'', hmeta', ht.mono hsuf,
    hk.mono hsuf, hkw.mono hsuf, ho.mono hsuf, ?_⟩
  intro u o t hg
  rcases List.mem_cons.mp hg with heq | hg
  · -- the token that is saved now
    obtain rfl := congrArg Sigma.fst heq
    have hok := eq_of_heq (Sigma.mk.inj heq).2
    have hsaves : E.Saves ⟨user, .rotateBlock b⟩ h false b u o t := hJ
    refine ⟨⟨t, o, writeToken (w.entry b u)⟩, ?_, hsaves.tokenFor_drawn hreg hk hkw⟩
    rw [entry_handle, ← hok]
    simp [keysAfter]
  · -- a token that was saved before is kept, or replaced by one of the same key
    obtain ⟨e, he, hfor⟩ := htokens u o t hg
    rcases entry_cases w r b u with heq | ⟨o', t', hr, -, -, heq⟩ |
      ⟨o', t', e', -, -, -, he', heq⟩ | ⟨o', hr, -, -⟩ | ⟨o', e', hr, -, -, -⟩
    · exact ⟨e, heq.trans he, hfor⟩
    · obtain rfl := congrArg Sigma.fst hr
      have hsaves : E.Saves ⟨user, .rotateBlock b⟩ h false b u o' t' := hJ
      exact ⟨_, heq, hsaves.tokenFor_drawn hreg hk hkw⟩
    · rw [he] at he'
      cases he'
      exact ⟨_, heq, hfor⟩
    · obtain rfl := congrArg Sigma.fst hr
      exact False.elim hJ
    · obtain rfl := congrArg Sigma.fst hr
      exact False.elim hJ

/-- **What a rotation leaves in which a request fails.** -/
theorem rotateBlock_failing (hw : E.WellFormed w) (hreg : E.Registered user) (fuel : ℕ)
    (m : Option ℕ) :
    E.WellFormed ((midHermesRotateBlock fuel user b).run (E.failing f) (w, m)).2.1 ∧
      (BeforeVersion b (w.slice b)
          ((midHermesRotateBlock fuel user b).events (E.failing f) (w, m) [])
          ((midHermesRotateBlock fuel user b).run (E.failing f) (w, m)).2.1 ∨
        E.AfterVersion b (w.slice b)
          ((midHermesRotateBlock fuel user b).events (E.failing f) (w, m) [])
          ((midHermesRotateBlock fuel user b).run (E.failing f) (w, m)).2.1) := by
  have hasks : E.Asks ⟨user, .rotateBlock b⟩ (midHermesRotateBlock fuel user b) [] _ :=
    asks_rotateBlock rfl hreg fuel
  refine run_failing (I := fun h w' => BeforeVersion b (w.slice b) h w' ∨
    E.AfterVersion b (w.slice b) h w') hasks hreg hw m
    (Or.inl ⟨by simp [Took], rfl, fun hg => (not_got_nil hg).elim⟩) ?_ ?_
  · rintro h w' r hacc hw' hJ (hI | hI)
    · exact hI.handle hacc hw' hJ
    · exact Or.inr (hI.handle hacc hreg hJ)
  · rintro h w' r (⟨hno, hslice, hread⟩ | ⟨s, s', k, kw, k₀, kw₀, d, hs, hsealed, hs',
      hsealed', hmeta, ht, hk, hkw, ho, htokens⟩)
    · refine Or.inl ⟨fun hnew => hno ((took_cons_of_not not_tookVersion_failed).mp hnew), hslice,
        fun hg => hread (got_of_failed hg nofun)⟩
    · have hsuf := List.suffix_cons (⟨r, r.failed f⟩ : Event Req.Answer) h
      refine Or.inr ⟨s, s', k, kw, k₀, kw₀, d, hs, hsealed, hs', hsealed', hmeta, ht.mono hsuf,
        hk.mono hsuf, hkw.mono hsuf, ho.mono hsuf, ?_⟩
      intro u o t hg
      exact htokens u o t (got_of_failed hg nofun)

/-! ### What a failure leaves -/

variable (E)

/-- A reading by the user succeeds with this content. -/
def ReadsAs (w : World) (user : User) (b d mt : Bytes) : Prop :=
  ((midHermesReadBlock user b).run E.handle w).1 = .ok (hmSuccess, some (d, mt))

/-- What a call returns and leaves, of which the store request after `n` others fails. -/
def runFailing {α : Type} (f : Failure) (n : ℕ) (p : Client α) (w : World) :
    Except Stop α × World :=
  ((p.run (E.failing f) (w, some n)).1, (p.run (E.failing f) (w, some n)).2.1)

/-- The exchanges of such a call. -/
def eventsFailing {α : Type} (f : Failure) (n : ℕ) (p : Client α) (w : World) : Hist :=
  p.events (E.failing f) (w, some n) []

/-- **A rotation that fails takes nothing from anybody**: who could read the block still can. -/
def RotationAtomic : Prop :=
  ∀ P, E.Reachable (fun _ => True) P → ∀ f n fuel user b st, E.Registered user →
    (E.runFailing f n (midHermesRotateBlock fuel user b) P.state).1 = .ok st → st ≠ hmSuccess →
    ∀ v d mt, E.Registered v → E.ReadsAs P.state v b d mt →
      E.ReadsAs (E.runFailing f n (midHermesRotateBlock fuel user b) P.state).2 v b d mt

/-- **A creation that fails leaves no block.** -/
def CreationAtomic : Prop :=
  ∀ P, E.Reachable (fun _ => True) P → ∀ f n user b d mt st id, E.Registered user →
    (E.runFailing f n (midHermesCreateBlock user (some b) d mt) P.state).1 = .ok (st, id) →
    st ≠ hmSuccess → P.state.stored b = none →
      (E.runFailing f n (midHermesCreateBlock user (some b) d mt) P.state).2.stored b = none

variable {E} {allowed : Call → Prop} {P : Clients}

/-- Reading is what it was where the slice is, and after a rotation for those who have its new
read key. -/
theorem readsAs_of_rotation {w' : World} {reader : User} {d mt : Bytes} (hw : E.WellFormed w)
    (hw' : E.WellFormed w') (hreg : E.Registered reader) (hr : E.ReadsAs w reader b d mt)
    (hleaves : BeforeVersion b (w.slice b) h w' ∨
      E.AfterVersion b (w.slice b) h w' ∧ SavedRtoken b reader.id h) :
    E.ReadsAs w' reader b d mt := by
  have hb : b ≠ [] := by
    rintro rfl
    have hstatus : hmInvalidParameter = hmSuccess := congrArg Prod.fst (Except.ok.inj hr)
    exact absurd hstatus (by decide)
  have hread := (readBlock_eq_ok_iff hreg hw hb).mp hr
  refine (readBlock_eq_ok_iff hreg hw' hb).mpr ?_
  rcases hleaves with hbefore | ⟨⟨s, s', k, kw, k₀, kw₀, d', hs, hsealed, hs',
      hsealed', hmeta, -, -, -, -, htokens⟩, hsaved⟩
  · rwa [hbefore.slice]
  · obtain ⟨e₁, s₁, k₁, kw₁, -, hs₁, -, hsealed₁, rfl⟩ := hread
    cases hs.symm.trans hs₁
    obtain ⟨-, -, rfl⟩ := hsealed.unique hsealed₁
    obtain ⟨o, t, hg⟩ := savedRtoken_iff.mp hsaved
    obtain ⟨e, he, hfor⟩ := htokens _ o t hg
    exact ⟨e, s', k, kw, he, hs', hfor, hsealed', hmeta⟩

/-- **What a failure leaves.** Whichever store request of a rotation fails, who could read the
block still reads the same, unless the data store had taken the new version and the user's
new read token was not saved. Whichever request of a creation fails, nothing is stored
unless the data store had taken the block, and then there was none before. -/
theorem failure_leaves {fuel : ℕ} (hP : E.Reachable allowed P) (hreg : E.Registered user)
    (f : Failure) (n : ℕ) :
    (∀ reader d mt, E.Registered reader → E.ReadsAs P.state reader b d mt →
      ¬Took b (E.eventsFailing f n (midHermesRotateBlock fuel user b) P.state) ∨
        SavedRtoken b reader.id (E.eventsFailing f n (midHermesRotateBlock fuel user b) P.state) →
      E.ReadsAs (E.runFailing f n (midHermesRotateBlock fuel user b) P.state).2 reader b d mt) ∧
    ∀ d mt, CreationLeaves b (P.state.stored b)
      (E.eventsFailing f n (midHermesCreateBlock user (some b) d mt) P.state)
      (E.runFailing f n (midHermesCreateBlock user (some b) d mt) P.state).2 := by
  have hwf := hP.wellFormed.1
  refine ⟨fun reader d mt hreader hread hcond => ?_, fun d mt => createBlock_failing hwf hreg _⟩
  obtain ⟨hwf', hleaves⟩ := rotateBlock_failing (f := f) (b := b) hwf hreg fuel (some n)
  refine readsAs_of_rotation
    (h := E.eventsFailing f n (midHermesRotateBlock fuel user b) P.state) hwf hwf' hreader hread ?_
  rcases hleaves with hbefore | hafter
  · exact Or.inl hbefore
  · refine Or.inr ⟨hafter, hcond.resolve_left fun hno => ?_⟩
    obtain ⟨s, s', k, kw, k₀, kw₀, d', -, -, -, -, -, htook, -⟩ := hafter
    exact hno htook

end Env

/-- **Nothing is taken back**: Alice's rotation fails when her new read token is to be saved, and
then neither Bob nor she can read the block; her creation fails when her read token is to
be saved, and the block is there. -/
theorem Env.not_failureAtomic : ¬demoEnv.RotationAtomic ∧ ¬demoEnv.CreationAtomic := by
  refine ⟨fun hatomic => ?_, fun hatomic => ?_⟩
  · have hread := hatomic sharing reachable_sharing .fail 17 8 alice [9] hmFail registered_alice
      (by decide +kernel) (by decide) bob [1] [2] registered_bob (by unfold ReadsAs; decide +kernel)
    unfold ReadsAs at hread
    exact absurd hread (by decide +kernel)
  · have hnone := hatomic sharing reachable_sharing .fail 1 alice [7] [1] [2] hmFail (some [7])
      registered_alice (by decide +kernel) (by decide) (by decide +kernel)
    exact absurd hnone (by decide +kernel)

/-- When only her write token cannot be saved, Alice still reads what she could read. -/
theorem Env.failure_leaves_sharing : demoEnv.ReadsAs
    (demoEnv.runFailing .fail 18 (midHermesRotateBlock 8 alice [9]) sharing.state).2
    alice [9] [1] [2] := by
  have hread : demoEnv.ReadsAs sharing.state alice [9] [1] [2] := by
    unfold ReadsAs
    decide +kernel
  exact (Env.failure_leaves reachable_sharing registered_alice .fail 18).1 alice [1] [2]
    registered_alice hread (Or.inr (by decide +kernel))

end Hermes

import Hermes.Creation
import Hermes.Rekeying

/-!
# Blocks whose tokens fit

A block is *keyed* when it was made with two keys and everybody's tokens wrap these two
(`Hermes.Env.KeyedBy`). Every operation but a rotation keeps the keys of a block: it saves
tokens it has read, or keys it has read wrapped anew, and makes the next version with the
keys in its tokens. So it keeps the block keyed as long as what it has read was keyed by
the same keys (`Hermes.Env.KnowsKeys`, `Hermes.Env.KeyedBy.handle`). A rotation, with
nobody else writing, replaces the keys as a whole (`Hermes.Env.does_rotateBlock_prog`,
`Hermes.Env.Rekeyed.keyedBy`).
-/

namespace Hermes

open Interleave

/-- The operation writes what the stores have for a block that exists. -/
def Op.Writes (b : Bytes) : Op → Prop
  | .updateBlock b' _ _ => b' = b
  | .rotateBlock b' => b' = b
  | .grantReadAccess b' _ => b' = b
  | .grantUpdateAccess b' _ => b' = b
  | .denyReadAccess b' _ => b' = b
  | .denyUpdateAccess b' _ => b' = b
  | _ => False

instance (b : Bytes) (op : Op) : Decidable (op.Writes b) :=
  match op with
  | .updateBlock b' _ _ => inferInstanceAs (Decidable (b' = b))
  | .rotateBlock b' => inferInstanceAs (Decidable (b' = b))
  | .grantReadAccess b' _ => inferInstanceAs (Decidable (b' = b))
  | .grantUpdateAccess b' _ => inferInstanceAs (Decidable (b' = b))
  | .denyReadAccess b' _ => inferInstanceAs (Decidable (b' = b))
  | .denyUpdateAccess b' _ => inferInstanceAs (Decidable (b' = b))
  | .createBlock _ _ _ => isFalse id
  | .readBlock _ => isFalse id
  | .deleteBlock _ => isFalse id

/-- The stores have nothing for the block. -/
structure Slice.Untouched (v : Slice) : Prop where
  stored : v.stored = none
  entry : ∀ u, v.entry u = none

/-- The client was given no token of the block, and has not created it. -/
structure KnowsNothing (b : Bytes) (h : Hist) : Prop where
  got : ∀ isUpdate u x, ¬GotToken h isUpdate b u x
  made : ∀ e ∈ h, ¬Makes b e

namespace Env

variable (E : Env)

/-- **All tokens fit**: the stored version was made with these two keys, and every token
wraps the one of its kind. -/
structure KeyedBy (v : Slice) (k kw : Bytes) : Prop where
  stored : ∃ s d, v.stored = some s ∧ E.Sealed k kw d s
  token : ∀ {isUpdate u x}, v.token isUpdate u = some x → E.TokenFor u x (keyFor isUpdate k kw)

/-- All a client can know of the keys of a block are these two. -/
structure KnowsKeys (b : Bytes) (h : Hist) (k kw : Bytes) : Prop where
  got : ∀ {isUpdate u x}, GotToken h isUpdate b u x → E.TokenFor u x (keyFor isUpdate k kw)
  made : (∃ e ∈ h, Makes b e) → Drew h 0 k ∧ Drew h 1 kw

variable {E} {w : World} {c : Call} {h : Hist} {r : Req} {b k kw : Bytes}

theorem KeyedBy.rtoken {v : Slice} {u : Bytes} {e : Entry} (hv : E.KeyedBy v k kw)
    (he : v.entry u = some e) : E.TokenFor u (e.rtoken, e.rtokenOwner) k := by
  have hx : v.token false u = some (e.rtoken, e.rtokenOwner) := by simp [Slice.token, he]
  exact hv.token hx

theorem KeyedBy.wtoken {v : Slice} {u : Bytes} {e : Entry} {x : Bytes × Bytes}
    (hv : E.KeyedBy v k kw) (he : v.entry u = some e) (hx : e.wtoken = some x) :
    E.TokenFor u x kw := by
  have hx : v.token true u = some x := by simp [Slice.token, he, writeToken, hx]
  exact hv.token hx

theorem knowsNothing_nil : KnowsNothing b [] :=
  ⟨fun _ _ _ => not_gotToken_nil, fun e he => by simp at he⟩

/-- Who knows nothing knows no other keys. -/
theorem knowsKeys_of_knowsNothing (hh : KnowsNothing b h) : E.KnowsKeys b h k kw :=
  ⟨fun hx => (hh.got _ _ _ hx).elim, fun ⟨e, he, hm⟩ => (hh.made e he hm).elim⟩

/-! ### What a request needs to know -/

/-- The operation of who saves a token writes the block, or has created it and not sent its
write token yet. -/
theorem Saves.writes {isUpdate : Bool} {u o t : Bytes} (hs : E.Saves c h isUpdate b u o t) :
    c.op.Writes b ∨ ((∃ e ∈ h, Makes b e) ∧ ∀ e ∈ h, ¬e.1.SetsWtoken) := by
  rcases hs.cases with ⟨id, d, mt, -, -, -, hset, k, kw, blk, mac, sk, hcr, -⟩ | ⟨d, mt, hop, -⟩ |
    ⟨hop, -⟩ | ⟨hop, -⟩
  · exact Or.inr ⟨makes_of_created hcr, hset⟩
  · exact Or.inl (hop ▸ rfl)
  · exact Or.inl (hop ▸ rfl)
  · refine Or.inl ?_
    rw [hop]
    cases isUpdate
    · exact rfl
    · exact rfl

/-- So does the operation of who removes one. -/
theorem removes_writes {isUpdate : Bool} {u o : Bytes} (hr : Removes c isUpdate b u o)
    (hc : c.KeepsBlocks) : c.op.Writes b := by
  rcases removes_cases hr with hop | hop | hop
  · exact hop ▸ rfl
  · exact hop ▸ rfl
  · exact absurd hc (by simp [Call.KeepsBlocks, hop])

/-- And of who replaces the block. -/
theorem Updates.writes {blk mt mac old : Bytes} (hu : E.Updates c h b blk mt mac old) :
    c.op.Writes b := by
  rcases hu.cases with ⟨d, hop, -⟩ | ⟨hop, -⟩
  · exact hop ▸ rfl
  · exact hop ▸ rfl

/-- **A token that is saved wraps the key the client knows.** -/
theorem Saves.keyed {isUpdate : Bool} {u o t : Bytes} (hs : E.Saves c h isUpdate b u o t)
    (hreg : E.Registered c.user) (hop : c.op ≠ .rotateBlock b) (hh : E.KnowsKeys b h k kw) :
    E.TokenFor u (t, o) (keyFor isUpdate k kw) := by
  rcases hs.cases with ⟨id, d, mt, -, rfl, rfl, -, k', kw', blk, mac, sk, hcr,
    -, hk, hkw, hsk, rfl⟩ |
    ⟨d, mt, -, -, hg, -⟩ | ⟨hop', -⟩ | ⟨-, rfl, k', sk, pk, ⟨x, hg, ho⟩, hsk, hpk, hne, rfl⟩
  · -- the keys of the creation are those it has drawn
    obtain ⟨hdk, hdkw⟩ := hh.made (makes_of_created hcr)
    obtain rfl := hk.unique hdk
    obtain rfl := hkw.unique hdkw
    exact tokenFor_wrap hreg hsk hreg.pk_eq c.user.pk_ne_nil (keyFor_ne_nil hk.ne_nil hkw.ne_nil)
  · exact hh.got hg
  · exact absurd hop' hop
  · have hfor := hh.got hg
    obtain rfl := ho.eq_of_tokenFor hfor
    exact tokenFor_wrap hreg hsk hpk hne hfor.key_ne

/-- **The next version has the keys the client knows.** -/
theorem Updates.sealed {blk mt mac old : Bytes} (hu : E.Updates c h b blk mt mac old)
    (hop : c.op ≠ .rotateBlock b) (hh : E.KnowsKeys b h k kw) (hmt : mt ≠ []) :
    ∃ d, c.op = .updateBlock b d mt ∧ E.Sealed k kw d ⟨blk, mt, mac⟩ := by
  rcases hu.cases with ⟨d, hup, hd, k', kw', ⟨x, hx, ho⟩, ⟨xw, hxw, how⟩, hv⟩ | ⟨hop', -⟩
  · have hk := hh.got hx
    have hkw := hh.got hxw
    obtain rfl : k' = k := ho.eq_of_tokenFor hk
    obtain rfl : kw' = kw := how.eq_of_tokenFor hkw
    exact ⟨d, hup, hk.key_ne, hkw.key_ne, hd, hmt, hv⟩
  · exact absurd hop' hop

/-! ### Requests -/

/-- A token the key store gives is one it has, as the slice has it. -/
theorem slice_token_of_got {isUpdate : Bool} {u : Bytes} {x : Bytes × Bytes}
    (hg : GotToken (⟨r, (E.handle w r).1⟩ :: h) isUpdate b u x) :
    GotToken h isUpdate b u x ∨ (w.slice b).token isUpdate u = some x := by
  rcases token_of_got hg with hg | ⟨rfl, e, he, rfl⟩ | ⟨rfl, hx⟩
  · exact Or.inl hg
  · exact Or.inr (Option.map_eq_some_iff.mpr ⟨e, he, rfl⟩)
  · exact Or.inr hx

/-- **A request keeps a block keyed**, unless it is one of a rotation. -/
theorem KeyedBy.handle (hw : E.KeyedBy (w.slice b) k kw) (hh : E.KnowsKeys b h k kw)
    (hreg : E.Registered c.user) (hc : c.KeepsBlocks) (hop : c.op ≠ .rotateBlock b)
    (hJ : E.Justified c h r) : E.KeyedBy ((E.handle w r).2.slice b) k kw := by
  obtain ⟨s, d, hs, hsealed⟩ := hw.stored
  have hs : w.stored b = some s := hs
  refine ⟨?_, fun {isUpdate u x} hx => ?_⟩
  · rcases stored_cases w r b with heq | ⟨blk, mt, mac, -, -, hnone, -⟩ |
      ⟨blk, mt, mac, old, s', hr, hmt, -, -, heq⟩ | ⟨old, s', hr, -, -, -⟩
    · exact ⟨s, d, heq.trans hs, hsealed⟩
    · rw [hs] at hnone
      cases hnone
    · obtain rfl := congrArg Sigma.fst hr
      obtain ⟨d', -, hsealed'⟩ := Updates.sealed hJ hop hh hmt
      exact ⟨_, d', heq, hsealed'⟩
    · obtain rfl := congrArg Sigma.fst hr
      exact absurd hc (by simp [Call.KeepsBlocks, hJ.1])
  · rcases token_handle hx with hx | rfl
    · exact hw.token hx
    · exact (justified_setToken.mp hJ).keyed hreg hop hh

/-- What is read of a keyed block is keyed. -/
theorem KnowsKeys.handle (hw : E.KeyedBy (w.slice b) k kw) (hh : E.KnowsKeys b h k kw) :
    E.KnowsKeys b (⟨r, (E.handle w r).1⟩ :: h) k kw where
  got hx := by
    rcases slice_token_of_got hx with hx | hx
    · exact hh.got hx
    · exact hw.token hx
  made := by
    rintro ⟨e, he, hm⟩
    obtain ⟨s, d, hs, -⟩ := hw.stored
    have hold : Drew h 0 k ∧ Drew h 1 kw := by
      rcases List.mem_cons.mp he with rfl | he
      · have hs : w.stored b = some s := hs
        rw [(stored_of_makes hm).1] at hs
        cases hs
      · exact hh.made ⟨e, he, hm⟩
    exact ⟨hold.1.mono (List.suffix_cons _ _), hold.2.mono (List.suffix_cons _ _)⟩

/-- **A creation makes a keyed block**, and nothing else does anything to a block that is
not there. -/
theorem untouched_handle (hw : (w.slice b).Untouched) (hh : KnowsNothing b h)
    (hJ : E.Justified c h r) :
    (((E.handle w r).2.slice b).Untouched ∧ KnowsNothing b (⟨r, (E.handle w r).1⟩ :: h)) ∨
      (Makes b ⟨r, (E.handle w r).1⟩ ∧ ∃ k kw s d mt id, c.op = .createBlock id d mt ∧
        (E.handle w r).2.stored b = some s ∧ E.Sealed k kw d s ∧ s.metadata = mt ∧
        E.KeyedBy ((E.handle w r).2.slice b) k kw ∧
        E.KnowsKeys b (⟨r, (E.handle w r).1⟩ :: h) k kw) := by
  have hs : w.stored b = none := hw.stored
  have he : ∀ u, w.entry b u = none := hw.entry
  have hentry : ∀ u, (E.handle w r).2.entry b u = none := by
    intro u
    rcases entry_cases w r b u with heq | ⟨o, t, hr, -, -, -⟩ | ⟨o, t, e, -, -, -, he', -⟩ |
      ⟨o, -, -, heq⟩ | ⟨o, e, -, -, he', -⟩
    · rw [heq, he u]
    · -- who saves a token has one, or has created the block
      obtain rfl := congrArg Sigma.fst hr
      have hs : E.Saves c h false b u o t := hJ
      rcases hs.known with ⟨_, _, hx⟩ | ⟨⟨e, hmem, hm⟩, -⟩
      · exact absurd hx (hh.got _ _ _)
      · exact absurd hm (hh.made e hmem)
    · rw [he u] at he'
      cases he'
    · exact heq
    · rw [he u] at he'
      cases he'
  -- and without an entry no token is given out
  have hgot : ∀ isUpdate u x, ¬GotToken (⟨r, (E.handle w r).1⟩ :: h) isUpdate b u x := by
    intro isUpdate u x hx
    rcases slice_token_of_got hx with hx | hx
    · exact hh.got _ _ _ hx
    · rw [Slice.token_eq_none (v := w.slice b) (he u)] at hx
      cases hx
  rcases stored_cases w r b with heq | ⟨blk, mt, mac, hr, hne, -, heq⟩ |
    ⟨blk, mt, mac, old, s, -, -, hs', -, -⟩ | ⟨old, s, -, hs', -, -⟩
  · left
    refine ⟨⟨heq.trans hs, hentry⟩, hgot, fun e hmem hm => ?_⟩
    rcases List.mem_cons.mp hmem with rfl | hmem
    · exact (stored_of_makes hm).2 (heq.trans hs)
    · exact hh.made e hmem hm
  · right
    have hm : Makes b ⟨r, (E.handle w r).1⟩ := makes_iff.mpr ⟨blk, mt, mac, hr⟩
    obtain ⟨id, d, hd, hop, -, k, kw, hv, hk, hkw⟩ := creates_of_event hr hJ
    have hsealed : E.Sealed k kw d ⟨blk, mt, mac⟩ := ⟨hk.ne_nil, hkw.ne_nil, hd, hne.2, hv⟩
    refine ⟨hm, k, kw, _, d, mt, id, hop, heq, hsealed, rfl, ⟨⟨_, d, heq, hsealed⟩, ?_⟩,
      fun hx => (hgot _ _ _ hx).elim, fun _ => ?_⟩
    · intro isUpdate u x hx
      rw [Slice.token_eq_none (v := (E.handle w r).2.slice b) (hentry u)] at hx
      cases hx
    · exact ⟨hk.mono (List.suffix_cons _ _), hkw.mono (List.suffix_cons _ _)⟩
  · rw [hs] at hs'
    cases hs'
  · rw [hs] at hs'
    cases hs'

/-! ### Requests of others -/

/-- The users of a block change with the requests about them. -/
theorem keys_handle (w : World) (r : Req) (b : Bytes) :
    (E.handle w r).2.keys b = w.keys b ∨ (∃ isUpdate u o t, r = Req.setToken isUpdate b u o t) ∨
      (∃ u o, r = .ks (.delRtoken b u o)) ∨ ∃ u o, r = .ks (.delWtoken b u o) := by
  -- the four requests that set something set it for their own block
  have hother : ∀ {b' u e}, b' ≠ b → (w.setEntry b' u e).keys b = w.keys b := by
    rintro b' u (_ | e) hne <;>
      simp [World.setEntry, KeyDb.setEntry, Function.update_of_ne hne.symm]
  cases r with
  | ks r =>
    cases r with
    | setRtoken b' u o t =>
      by_cases hb : b' = b
      · exact Or.inr (Or.inl ⟨false, u, o, t, by rw [hb]; rfl⟩)
      · rw [handle_setRtoken]
        split_ifs
        · exact Or.inl rfl
        · exact Or.inl rfl
        · exact Or.inl (hother hb)
    | setWtoken b' u o t =>
      by_cases hb : b' = b
      · exact Or.inr (Or.inl ⟨true, u, o, t, by rw [hb]; rfl⟩)
      · rw [handle_setWtoken]
        split_ifs
        · exact Or.inl rfl
        · exact Or.inl rfl
        · cases w.entry b' u with
          | none => exact Or.inl rfl
          | some e => exact Or.inl (hother hb)
    | delRtoken b' u o =>
      by_cases hb : b' = b
      · exact Or.inr (Or.inr (Or.inl ⟨u, o, by rw [hb]⟩))
      · rw [handle_delRtoken]
        split_ifs
        · exact Or.inl rfl
        · exact Or.inl rfl
        · exact Or.inl (hother hb)
    | delWtoken b' u o =>
      by_cases hb : b' = b
      · exact Or.inr (Or.inr (Or.inr ⟨u, o, by rw [hb]⟩))
      · rw [handle_delWtoken]
        split_ifs
        · exact Or.inl rfl
        · exact Or.inl rfl
        · cases w.entry b' u with
          | none => exact Or.inl rfl
          | some e => exact Or.inl (hother hb)
    | getRtoken b' u =>
      rw [handle_getRtoken]
      split_ifs
      · exact Or.inl rfl
      · cases w.entry b' u <;> exact Or.inl rfl
    | getWtoken b' u =>
      rw [handle_getWtoken]
      split_ifs
      · exact Or.inl rfl
      · cases writeToken (w.entry b' u) <;> exact Or.inl rfl
    | getIndexedRights b' i => exact Or.inl (by rw [handle_getIndexedRights])
  | ds _ => exact Or.inl rfl
  | getPubKeyById _ => exact Or.inl rfl
  | themis _ => exact Or.inl rfl

/-- **A request of a call that does not write the block leaves it as it is.** -/
theorem slice_handle_of_not_writes (hw : w.stored b ≠ none) (hc : c.KeepsBlocks)
    (hop : ¬c.op.Writes b) (hset : ¬((∃ e ∈ h, Makes b e) ∧ ∀ e ∈ h, ¬e.1.SetsWtoken))
    (hJ : E.Justified c h r) : (E.handle w r).2.slice b = w.slice b := by
  have hkeys : (E.handle w r).2.keys b = w.keys b := by
    rcases keys_handle (E := E) w r b with heq | ⟨isUpdate, u, o, t, rfl⟩ | ⟨u, o, rfl⟩ |
      ⟨u, o, rfl⟩
    · exact heq
    · rcases (justified_setToken.mp hJ).writes with hw | hmade
      · exact absurd hw hop
      · exact absurd hmade hset
    · exact absurd (removes_writes hJ hc) hop
    · exact absurd (removes_writes hJ hc) hop
  have hstored : (E.handle w r).2.stored b = w.stored b := by
    rcases stored_cases w r b with heq | ⟨blk, mt, mac, -, -, hnone, -⟩ |
      ⟨blk, mt, mac, old, s, hr, -, -, -, -⟩ | ⟨old, s, hr, -, -, -⟩
    · exact heq
    · exact absurd hnone hw
    · obtain rfl := congrArg Sigma.fst hr
      exact absurd (Updates.writes hJ) hop
    · obtain rfl := congrArg Sigma.fst hr
      exact absurd hc (by simp [Call.KeepsBlocks, hJ.1])
  exact congrArg₂ Slice.mk hkeys hstored

/-! ### Rotations -/

/-- New keys for everybody are two keys that fit. -/
theorem Rekeyed.keyedBy {v v' : Slice} {user : User} (hr : E.Rekeyed b v user v' h)
    (hreg : E.Registered user) (hv : E.WellFormedAt v) : ∃ k kw, E.KeyedBy v' k kw := by
  obtain ⟨-, sk, k, kw, s, k₀, kw₀, d, blk, mac, hsk, hk, hkw, -, hsealed, hversion, -, hstored,
    hentry⟩ := hr
  refine ⟨k, kw, ⟨_, d, hstored, hk, hkw, hsealed.data_ne, hsealed.meta_ne, hversion⟩, ?_⟩
  intro isUpdate u x hx
  exact tokenFor_rekeyed hreg hsk hv hk hkw hentry hx

/-- **A rotation**, with nobody else acting on the block, leaves the block as it was or gives
everybody new keys, whatever becomes of it. -/
theorem does_rotateBlock_prog {fuel : ℕ} {v : Slice} {user : User} (hreg : E.Registered user)
    (hv : E.WellFormedAt v) (hb : b ≠ []) :
    E.Does b (Call.prog fuel ⟨user, .rotateBlock b⟩) v []
      (fun _ v' h => v' = v ∨ E.Rekeyed b v user v' h) := by
  have hends : ∀ {x v' h}, E.RotationEnds b v user x v' h → v' = v ∨ E.Rekeyed b v user v' h :=
    fun h => h.2.imp And.left And.right
  exact Prog.Ensures.bind (does_rotateBlock hreg hv hb) (fun _ _ _ => hends) fun _ _ _ => hends

end Env

end Hermes

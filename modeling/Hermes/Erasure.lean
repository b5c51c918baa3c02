import Hermes.Deletion
import Hermes.Keys
import Hermes.Ledger
import Hermes.Rekeying
import Hermes.UpdateStatus

/-!
# What is left when the cryptography is erased

Two stores show a ledger (`Hermes.Env.Shows`) when they have the same blocks with the same
users, each with tokens from those who gave the rights; and a right fits exactly if the token
wraps the key that the stored block is sealed under, or that its mac was made with. With nobody
else acting on a block, an operation does to the stores what `Hermes.Ledger.perform` does to the
ledger they show, and reports the same.

Keys, tokens and macs are gone from the ledger, so what the results of any calls are does not
depend on them. This needs that no key is drawn twice: only then does an old token never fit a
block that is created again.
-/

namespace Hermes

open Interleave

namespace Env

variable (E : Env)

/-- A token wraps the key of what is stored. -/
def ToStored (s : Option StoredBlock) (isUpdate : Bool) (u : Bytes) (x : Bytes × Bytes) : Prop :=
  ∃ s' k kw d, s = some s' ∧ E.Sealed k kw d s' ∧ E.TokenFor u x (keyFor isUpdate k kw)

/-- A token, seen as a right. -/
structure ShowsGrant (s : Option StoredBlock) (isUpdate : Bool) (u : Bytes) (x : Bytes × Bytes)
    (g : Grant) : Prop where
  giver : x.2 = g.giver
  fits : g.fits = true ↔ E.ToStored s isUpdate u x

/-- An entry, seen as the rights of its user. -/
structure ShowsRight (s : Option StoredBlock) (u : Bytes) (e : Entry) (r : Right) : Prop where
  read : E.ShowsGrant s false u (e.rtoken, e.rtokenOwner) r.read
  update : Option.Rel (E.ShowsGrant s true u) e.wtoken r.update

/-- **What the stores have for a block, seen without cryptography.** -/
structure Shows (v : Slice) (D : Doc) : Prop where
  content : ∀ {d mt}, D.content = some (d, mt) ↔
    ∃ s k kw, v.stored = some s ∧ E.Sealed k kw d s ∧ s.metadata = mt
  right : ∀ u, Option.Rel (E.ShowsRight v.stored u) (v.entry u) (D.rights.lookup u)

/-- The credential store has the user. -/
def knows (u : Bytes) : Bool := (E.loadUser u).isSome

variable {E} {v v' : Slice} {D : Doc} {u : Bytes}

/-- A token of a known key is one to what is stored if this is the key. -/
theorem toStored_iff {s : StoredBlock} {k kw d k' : Bytes} {isUpdate : Bool} {x : Bytes × Bytes}
    (hs : E.Sealed k kw d s) (hx : E.TokenFor u x k') :
    E.ToStored (some s) isUpdate u x ↔ k' = keyFor isUpdate k kw := by
  constructor
  · rintro ⟨s', k₁, kw₁, d₁, heq, hs₁, hx₁⟩
    cases heq
    obtain ⟨rfl, rfl, -⟩ := hs.unique hs₁
    exact hx.unique hx₁
  · rintro rfl
    exact ⟨s, k, kw, d, rfl, hs, hx⟩

/-- What is stored under the same keys has the same tokens. -/
theorem toStored_congr {s s' : StoredBlock} {k kw d d' : Bytes} (hs : E.Sealed k kw d s)
    (hs' : E.Sealed k kw d' s') (isUpdate : Bool) (x : Bytes × Bytes) :
    E.ToStored (some s') isUpdate u x ↔ E.ToStored (some s) isUpdate u x := by
  constructor
  · rintro ⟨s₁, k₁, kw₁, d₁, heq, hs₁, hx⟩
    cases heq
    obtain ⟨rfl, rfl, -⟩ := hs₁.unique hs'
    exact ⟨s, k₁, kw₁, d, rfl, hs, hx⟩
  · rintro ⟨s₁, k₁, kw₁, d₁, heq, hs₁, hx⟩
    cases heq
    obtain ⟨rfl, rfl, -⟩ := hs₁.unique hs
    exact ⟨s', k₁, kw₁, d', rfl, hs', hx⟩

namespace Shows

variable (hD : E.Shows v D)

include hD

theorem of_entry {e : Entry} (he : v.entry u = some e) :
    ∃ r, D.rights.lookup u = some r ∧ E.ShowsRight v.stored u e r := by
  have hr := hD.right u
  rw [he] at hr
  generalize hl : D.rights.lookup u = o at hr
  cases hr with
  | some hr => exact ⟨_, rfl, hr⟩

theorem of_right {r : Right} (hr : D.rights.lookup u = some r) :
    ∃ e, v.entry u = some e ∧ E.ShowsRight v.stored u e r := by
  have he := hD.right u
  rw [hr] at he
  generalize hl : v.entry u = o at he
  cases he with
  | some he => exact ⟨_, rfl, he⟩

theorem entry_eq_none_iff : v.entry u = none ↔ D.rights.lookup u = none := by
  constructor
  · intro he
    by_contra hne
    obtain ⟨r, hr⟩ := Option.ne_none_iff_exists'.mp hne
    obtain ⟨e, he', -⟩ := hD.of_right hr
    rw [he] at he'
    cases he'
  · intro hr
    by_contra hne
    obtain ⟨e, he⟩ := Option.ne_none_iff_exists'.mp hne
    obtain ⟨r, hr', -⟩ := hD.of_entry he
    rw [hr] at hr'
    cases hr'

/-- Only what is stored and who has which token matters. -/
theorem congr (hstored : v'.stored = v.stored) (hentry : ∀ u, v'.entry u = v.entry u) :
    E.Shows v' D where
  content := by
    rw [hstored]
    exact hD.content
  right u := by
    rw [hstored, hentry]
    exact hD.right u

theorem setRight {e : Entry} {r : Right} (hr : E.ShowsRight v.stored u e r) :
    E.Shows (v.setEntry u (some e)) (D.setRight u r) where
  content := by
    rw [Slice.stored_setEntry, Doc.content_setRight]
    exact hD.content
  right u' := by
    rw [Slice.stored_setEntry, Slice.entry_setEntry, Doc.lookup_setRight]
    split_ifs with h
    · subst h
      exact .some hr
    · exact hD.right u'

theorem erase (u : Bytes) :
    E.Shows (v.setEntry u none) { D with rights := D.rights.erase u } where
  content := by
    rw [Slice.stored_setEntry]
    exact hD.content
  right u' := by
    rw [Slice.stored_setEntry, Slice.entry_setEntry]
    split_ifs with h
    · subst h
      rw [AList.lookup_erase]
      exact .none
    · rw [AList.lookup_erase_ne h]
      exact hD.right u'

/-! ### The same questions, asked of the stores and of the ledger -/

/-- **What a user can read is what it opens.** -/
theorem opens_iff {d mt : Bytes} : D.opens u = some (d, mt) ↔ E.Readable v u d mt := by
  rw [Doc.opens_eq_some, hD.content]
  constructor
  · rintro ⟨r, hr, hfits, s, k, kw, hs, hsealed, rfl⟩
    obtain ⟨e, he, hread, -⟩ := hD.of_right hr
    obtain ⟨s', k', kw', d', hs', hsealed', hx⟩ := hread.fits.mp hfits
    cases hs.symm.trans hs'
    obtain ⟨rfl, -, -⟩ := hsealed.unique hsealed'
    exact ⟨e, s, k, kw, he, hs, hx, hsealed, rfl⟩
  · rintro ⟨e, s, k, kw, he, hs, hx, hsealed, rfl⟩
    obtain ⟨r, hr, hread, -⟩ := hD.of_entry he
    exact ⟨r, hr, hread.fits.mpr ⟨s, k, kw, d, hs, hsealed, hx⟩, s, k, kw, hs, hsealed, rfl⟩

theorem opens_eq_none (h : ¬∃ d mt, E.Readable v u d mt) : D.opens u = none := by
  rw [Option.eq_none_iff_forall_ne_some]
  rintro ⟨d, mt⟩ hx
  exact h ⟨d, mt, hD.opens_iff.mp hx⟩

/-- The rights of a user with an entry. -/
theorem grant_eq {e : Entry} (he : v.entry u = some e) : ∃ r, D.rights.lookup u = some r ∧
    E.ShowsRight v.stored u e r ∧ D.grant false u = some r.read ∧ D.grant true u = r.update := by
  obtain ⟨r, hr, hright⟩ := hD.of_entry he
  exact ⟨r, hr, hright, by rw [Doc.grant, hr]; rfl, by rw [Doc.grant, hr]; rfl⟩

/-- Who has a token of a kind has a right of this kind. -/
theorem isSome_grant (isUpdate : Bool) (u : Bytes) :
    (D.grant isUpdate u).isSome = (v.token isUpdate u).isSome := by
  cases he : v.entry u with
  | none =>
    rw [Slice.token_eq_none he, Doc.grant, hD.entry_eq_none_iff.mp he]
    rfl
  | some e =>
    obtain ⟨r, -, hright, hread, hup⟩ := hD.grant_eq he
    cases isUpdate with
    | false =>
      rw [hread, Slice.token, if_neg (by decide), he]
      rfl
    | true =>
      rw [hup, Slice.token, if_pos rfl, he]
      have hrel := hright.update
      generalize r.update = o at hrel ⊢
      show o.isSome = e.wtoken.isSome
      generalize e.wtoken = o' at hrel ⊢
      cases hrel <;> rfl

/-- A user with a right of a kind has such a token, of the same giver. -/
theorem giver_eq {isUpdate : Bool} {x : Bytes × Bytes} (hx : v.token isUpdate u = some x) :
    ∃ g, D.grant isUpdate u = some g ∧ g.giver = x.2 := by
  cases isUpdate with
  | false =>
    obtain ⟨e, he, rfl⟩ := Option.map_eq_some_iff.mp hx
    obtain ⟨r, -, hright, hread, -⟩ := hD.grant_eq he
    exact ⟨r.read, hread, hright.read.giver.symm⟩
  | true =>
    obtain ⟨e, he, hw⟩ := Option.bind_eq_some_iff.mp hx
    obtain ⟨r, -, hright, -, hup⟩ := hD.grant_eq he
    have hrel := hright.update
    rw [hw] at hrel
    rw [hup]
    generalize r.update = o at hrel ⊢
    cases hrel with
    | some hg => exact ⟨_, rfl, hg.giver.symm⟩

/-- The giver of a right still has one exactly if it has a token. -/
theorem giverKept_iff (isUpdate : Bool) (u : Bytes) : D.giverKept isUpdate u = true ↔
    ∀ x, v.token isUpdate u = some x → u = x.2 ∨ v.token isUpdate x.2 ≠ none := by
  rw [Doc.giverKept, Option.all_eq_true]
  have hmem : ∀ g : Grant, (g.giver = u || (D.grant isUpdate g.giver).isSome) = true ↔
      u = g.giver ∨ v.token isUpdate g.giver ≠ none := by
    intro g
    rw [Bool.or_eq_true, decide_eq_true_eq, hD.isSome_grant, ← Option.isSome_iff_ne_none, eq_comm]
  constructor
  · intro h x hx
    obtain ⟨g, hg, hgiver⟩ := hD.giver_eq hx
    rw [← hgiver]
    exact (hmem g).mp (h g hg)
  · intro h g hg
    have hsome : (v.token isUpdate u).isSome = true := by
      rw [← hD.isSome_grant, hg]
      rfl
    obtain ⟨x, hx⟩ := Option.isSome_iff_exists.mp hsome
    obtain ⟨g', hg', hgiver⟩ := hD.giver_eq hx
    cases hg.symm.trans hg'
    rw [hmem, hgiver]
    exact h x hx

/-- **Owners keep what they gave exactly if givers do.** -/
theorem giversKept_iff {e : Entry} (he : v.entry u = some e) :
    (D.giverKept false u && D.giverKept true u) = true ↔ OwnersKept v u := by
  have hread : ∀ u', v.token false u' ≠ none ↔ v.entry u' ≠ none := fun u' =>
    not_congr Option.map_eq_none_iff
  rw [Bool.and_eq_true, hD.giverKept_iff, hD.giverKept_iff]
  constructor
  · rintro ⟨hr, hw⟩ e' he'
    cases he.symm.trans he'
    refine ⟨?_, fun x hx => hw x ?_⟩
    · rw [← hread]
      exact hr (e.rtoken, e.rtokenOwner) (Option.map_eq_some_iff.mpr ⟨e, he, rfl⟩)
    · exact Option.bind_eq_some_iff.mpr ⟨e, he, hx⟩
  · intro h
    obtain ⟨hr, hw⟩ := h e he
    refine ⟨fun x hx => ?_, fun x hx => hw x ?_⟩
    · obtain ⟨e', he', rfl⟩ := Option.map_eq_some_iff.mp hx
      cases he.symm.trans he'
      rw [hread]
      exact hr
    · obtain ⟨e', he', hx⟩ := Option.bind_eq_some_iff.mp hx
      cases he.symm.trans he'
      exact hx

theorem alone_iff : D.alone u = true ↔ Alone v u := by
  simp only [Doc.alone, List.all_eq_true, decide_eq_true_eq, Alone]
  refine forall_congr' fun u' => ?_
  rw [hD.entry_eq_none_iff, AList.lookup_eq_none, AList.mem_keys]
  tauto

/-- Both have the same number of users. -/
theorem length_keys : D.rights.keys.length = v.users.keys.length := by
  refine List.Perm.length_eq ((List.perm_ext_iff_of_nodup D.rights.keys_nodup
    v.users.keys_nodup).mpr fun u => ?_)
  have h := not_congr (hD.entry_eq_none_iff (u := u))
  rw [Slice.entry, AList.lookup_eq_none, AList.lookup_eq_none, not_not, not_not] at h
  exact h.symm

end Shows

/-! ### Loading -/

/-- The block opens for a user, whose entry and read token these are. -/
structure Opened (E : Env) (v : Slice) (user : User) (e : Entry) (s : StoredBlock) (k kw d : Bytes)
    (rt : Token) : Prop where
  entry : v.entry user.id = some e
  stored : v.stored = some s
  tokenFor : E.TokenFor user.id (e.rtoken, e.rtokenOwner) k
  sealedIn : E.Sealed k kw d s
  holds : E.HoldsKey user (e.rtoken, e.rtokenOwner) k rt

/-- The write token of such a user, and the key in it. -/
structure Writing (E : Env) (user : User) (e : Entry) (x : Bytes × Bytes) (kwu : Bytes)
    (wt : Token) : Prop where
  wtoken : e.wtoken = some x
  tokenFor : E.TokenFor user.id x kwu
  holds : E.HoldsKey user x kwu wt

variable {b : Bytes} {user : User} {h : Hist}

/-- **What is loaded, as the ledger has it**: nothing, a block without a write token, or a block
with one. -/
theorem Shows.load_cases (hD : E.Shows v D) (hreg : E.Registered user) (hv : E.WellFormedAt v)
    (hb : b ≠ []) :
    (D.opens user.id = none ∧
      E.Computes b (midHermesLlBlockLoad (midHermesLlBlockCreateEmpty user) b) v none) ∨
    ∃ e s k kw d rt, E.Opened v user e s k kw d rt ∧ D.opens user.id = some (d, s.metadata) ∧
      ((e.wtoken = none ∧ D.grant true user.id = none ∧
        E.Computes b (midHermesLlBlockLoad (midHermesLlBlockCreateEmpty user) b) v
          (some ⟨user, some b, some s.block, some d, some s.metadata, none, none, some rt, none⟩)) ∨
      ∃ x kwu wt g, E.Writing user e x kwu wt ∧ D.grant true user.id = some g ∧
        (g.fits = true ↔ kwu = kw) ∧
        E.Computes b (midHermesLlBlockLoad (midHermesLlBlockCreateEmpty user) b) v
          (some ⟨user, some b, some s.block, some d, some s.metadata, none,
            some (E.themis.hmac kwu [d, s.metadata]), some rt, some wt⟩)) := by
  by_cases hread : ∃ d mt, E.Readable v user.id d mt
  · right
    obtain ⟨d, mt, hread⟩ := hread
    have hopens := hD.opens_iff.mpr hread
    obtain ⟨e, s, k, kw, he, hs, hk, hsealed, rfl⟩ := hread
    obtain ⟨rt, wt, mac, hrt, hmac, hload⟩ := computes_load hreg hv hb he hs hk hsealed
    obtain ⟨r, hr, hright, -, hup⟩ := hD.grant_eq he
    refine ⟨e, s, k, kw, d, rt, ⟨he, hs, hk, hsealed, hrt⟩, hopens, ?_⟩
    have hrel := hright.update
    rw [hup]
    -- the write token decides whether the object has a mac
    generalize r.update = o at hrel ⊢
    cases wt with
    | none =>
      obtain ⟨hw, rfl⟩ := hmac
      rw [hw] at hrel
      cases hrel
      exact Or.inl ⟨hw, rfl, hload⟩
    | some wt =>
      obtain ⟨x, kwu, hx, hkw, hwt, rfl⟩ := hmac
      rw [hx] at hrel
      cases hrel with
      | some hg =>
        refine Or.inr ⟨x, kwu, wt, _, ⟨hx, hkw, hwt⟩, rfl, ?_, hload⟩
        rw [hg.fits, hs, toStored_iff hsealed hkw]
        rfl
  · exact Or.inl ⟨hD.opens_eq_none hread, computes_load_none hreg hv hb hread⟩

/-- The mac that was loaded is the stored one exactly if the write key is. -/
theorem Opened.mac_iff {e : Entry} {s : StoredBlock} {k kw d kwu : Bytes} {rt : Token}
    (ho : E.Opened v user e s k kw d rt) :
    s.mac = E.themis.hmac kwu [d, s.metadata] ↔ kwu = kw := by
  rw [ho.sealedIn.version.2]
  constructor
  · intro hm
    exact (E.themis.hmac_inj hm).1.symm
  · rintro rfl
    rfl

/-! ### The operations -/

/-- A program ends with the status of a pair, in stores that show the block in it. -/
def Gives (E : Env) (p : HermesStatus × Doc) : Except Stop HermesStatus → Slice → Hist → Prop :=
  fun x v' _ => x = .ok p.1 ∧ E.Shows v' p.2

/-- **A reading** returns what the user opens. -/
theorem Shows.computes_read (hD : E.Shows v D) (hreg : E.Registered user) (hv : E.WellFormedAt v)
    (hb : b ≠ []) : E.Computes b (midHermesReadBlock user b) v
      (if (D.opens user.id).isSome then hmSuccess else hmFail, D.opens user.id) := by
  by_cases hread : ∃ d mt, E.Readable v user.id d mt
  · obtain ⟨d, mt, hread⟩ := hread
    rw [hD.opens_iff.mpr hread]
    exact computes_readBlock hreg hv hb hread
  · rw [hD.opens_eq_none hread]
    exact computes_readBlock_fail hreg hv hb hread

/-- Saving the tokens that were loaded: the entries stay what they are, and it fails if an owner
has lost its rights. -/
theorem does_saveTokens_same {α : Type} {e : Entry} {x : Bytes × Bytes} {k kwu : Bytes}
    {rt wt : Token} (hb : b ≠ []) (he : v.entry user.id = some e)
    (hk : E.TokenFor user.id (e.rtoken, e.rtokenOwner) k)
    (hrt : E.HoldsKey user (e.rtoken, e.rtokenOwner) k rt) (hw : E.Writing user e x kwu wt)
    {blk data metadata oldMac mac : Option Bytes} {f : Bool → Client α}
    {Post : Except Stop α → Slice → Hist → Prop}
    (hf : ∀ ok v' h', (ok = true ↔ OwnersKept v user.id) → v'.stored = v.stored →
      (∀ u, v'.entry u = v.entry u) → E.Does b (f ok) v' h' Post) :
    E.Does b (midHermesLlBlockSaveTokens
      ⟨user, some b, blk, data, metadata, oldMac, mac, some rt, some wt⟩ [] >>= f) v h Post := by
  simp only [midHermesLlBlockSaveTokens, midHermesLlRtokenSave, midHermesLlWtokenSave,
    Option.getD_some, hrt.user_eq, hrt.token_eq, hrt.owner_eq, hw.holds.user_eq, hw.holds.token_eq,
    hw.holds.owner_eq, Prog.bind_assoc]
  refine does_setRtoken hb user.id_ne_nil hk.owner_ne hk.token_ne (fun hown => ?_)
    fun hne hno => ?_
  · -- the entry is written back as it was
    have hentry : ∀ u, (v.setEntry user.id (some ⟨e.rtoken, e.rtokenOwner,
        writeToken (v.entry user.id)⟩)).entry u = v.entry u := by
      intro u
      rw [Slice.entry_setEntry]
      split_ifs with hu
      · rw [hu, he]
        rfl
      · rfl
    dsimp only
    rw [Prog.bind_assoc]
    -- the write token is next, if its owner may still set it
    refine does_setWtoken hb user.id_ne_nil hw.tokenFor.owner_ne hw.tokenFor.token_ne
      (fun e' hown' he' => ?_) fun hno => ?_
    · rw [hentry] at he' hown'
      cases he.symm.trans he'
      refine hf true _ _ ⟨fun _ => ?_, fun _ => rfl⟩ (by simp) fun u => ?_
      · intro e₁ he₁
        cases he.symm.trans he₁
        refine ⟨hown, fun x' hx' => ?_⟩
        cases hw.wtoken.symm.trans hx'
        exact hown'
      · rw [Slice.entry_setEntry]
        split_ifs with hu
        · rw [hu, he, ← hw.wtoken]
        · exact hentry u
    · rw [hentry, hentry] at hno
      refine hf false _ _ ⟨fun h0 => absurd h0 (by decide), fun hkept => ?_⟩ (by simp) hentry
      obtain ⟨-, hkept⟩ := hkept e he
      rcases hno with ⟨hne, hno⟩ | hno
      · exact absurd hno ((hkept x hw.wtoken).resolve_left hne)
      · rw [he] at hno
        cases hno
  · -- the owner of the read token has no entry any more
    refine hf false _ _ ⟨fun h0 => absurd h0 (by decide), fun hkept => ?_⟩ rfl fun _ => rfl
    exact absurd hno ((hkept e he).1.resolve_left hne)

/-- Another version under the same keys shows the other content, with the same rights. -/
theorem Shows.setStored {s s' : StoredBlock} {k kw d d' : Bytes} (hD : E.Shows v D)
    (hs : v.stored = some s) (hsealed : E.Sealed k kw d s) (hsealed' : E.Sealed k kw d' s') :
    E.Shows (v.setStored (some s')) { D with content := some (d', s'.metadata) } where
  content {d₁ mt₁} := by
    constructor
    · intro heq
      cases heq
      exact ⟨s', k, kw, rfl, hsealed', rfl⟩
    · rintro ⟨s₁, k₁, kw₁, hs₁, hsealed₁, rfl⟩
      cases hs₁
      rw [(hsealed'.unique hsealed₁).2.2]
  right u := by
    have hright := hD.right u
    rw [hs] at hright
    show Option.Rel (E.ShowsRight (some s') u) (v.entry u) (D.rights.lookup u)
    have hgrant : ∀ {isUpdate x g}, E.ShowsGrant (some s) isUpdate u x g →
        E.ShowsGrant (some s') isUpdate u x g := fun hg =>
      ⟨hg.giver, hg.fits.trans (toStored_congr hsealed hsealed' _ _).symm⟩
    generalize v.entry u = o at hright ⊢
    generalize D.rights.lookup u = o' at hright ⊢
    cases hright with
    | none => exact .none
    | some hr =>
      refine .some ⟨hgrant hr.read, ?_⟩
      have hup := hr.update
      generalize Entry.wtoken _ = o at hup ⊢
      generalize Right.update _ = o' at hup ⊢
      cases hup with
      | none => exact .none
      | some hg => exact .some (hgrant hg)

/-- **An update** does what the ledger says. -/
theorem Shows.does_update (hD : E.Shows v D) (hreg : E.Registered user) (hv : E.WellFormedAt v)
    {d' mt : Bytes} (hb : b ≠ []) (hd : d' ≠ []) (hmt : mt ≠ []) :
    E.Does b (midHermesUpdateBlock user b d' mt) v h (E.Gives (D.updateBlock user.id d' mt)) := by
  unfold midHermesUpdateBlock
  rw [if_neg (by tauto)]
  rcases hD.load_cases hreg hv hb with ⟨hno, hload⟩ |
    ⟨e, s, k, kw, d, rt, ho, hopens, ⟨-, hnone, hload⟩ | ⟨x, kwu, wt, g, hw, hg, hfits, hload⟩⟩
  · refine hload.does fun l _ => ⟨?_, ?_⟩ <;> simp [Doc.updateBlock, Doc.masters, hno, hD]
  · refine hload.does fun l _ => ⟨?_, ?_⟩ <;> simp [Doc.updateBlock, Doc.masters, hnone, hD]
  · have hmasters : D.masters user.id = g.fits := by rw [Doc.masters_eq hopens, hg]; rfl
    refine hload.does fun l _ => ?_
    refine (computes_update hreg rfl rfl ho.holds hw.holds hd mt).does fun l' _ => ?_
    refine does_save hb (E.themis.encryptSeal_ne_nil _ _ _) hmt (E.themis.hmac_ne_nil _ _)
      (E.themis.hmac_ne_nil _ _) ho.stored (fun hm => ?_) fun hm => ?_
    · -- the data store has taken the version, whatever becomes of the tokens
      obtain rfl := ho.mac_iff.mp hm
      rw [Doc.updateBlock, hmasters, hfits.mpr rfl, if_pos rfl]
      have hsealed' : E.Sealed k kwu d' ⟨E.themis.encryptSeal k mt d', mt,
          E.themis.hmac kwu [d', mt]⟩ :=
        ⟨ho.sealedIn.key_ne, ho.sealedIn.mac_key_ne, hd, hmt, rfl, rfl⟩
      have hshows := hD.setStored ho.stored ho.sealedIn hsealed'
      refine does_saveTokens_same (v := v.setStored (some ⟨E.themis.encryptSeal k mt d', mt,
          E.themis.hmac kwu [d', mt]⟩)) hb ho.entry ho.tokenFor ho.holds hw
        fun ok v' h' hok hstored hentry => ?_
      have hkept : ok = (D.giverKept false user.id && D.giverKept true user.id) := by
        rw [Bool.eq_iff_iff, hok, hD.giversKept_iff ho.entry]
        exact Iff.rfl
      rw [← hkept]
      have hend := hshows.congr hstored hentry
      cases ok with
      | true => exact ⟨rfl, hend⟩
      | false => exact ⟨rfl, hend⟩
    · have hno : g.fits ≠ true := fun h0 => hm (ho.mac_iff.mpr (hfits.mp h0))
      rw [Doc.updateBlock, hmasters, if_neg hno]
      exact ⟨rfl, hD⟩

/-- Everybody with new keys shows the same rights, given again. -/
theorem Shows.regiven {sk k kw d : Bytes} {s s' : StoredBlock} {k₀ kw₀ : Bytes} (hD : E.Shows v D)
    (hreg : E.Registered user) (hsk : user.sk = some sk) (hv : E.WellFormedAt v)
    (hs : v.stored = some s) (hsealed : E.Sealed k₀ kw₀ d s) (hs' : v'.stored = some s')
    (hsealed' : E.Sealed k kw d s') (hmt : s'.metadata = s.metadata)
    (hentry : ∀ u, v'.entry u = (v.entry u).map (E.rekeyed user sk k kw u)) :
    E.Shows v' { D with rights := D.mapRights (Right.regiven user.id) } where
  content {d₁ mt₁} := by
    -- both versions are of one content, so they show the same
    refine hD.content.trans ?_
    constructor
    · rintro ⟨s₁, k₁, kw₁, hs₁, hsealed₁, rfl⟩
      cases hs.symm.trans hs₁
      rw [(hsealed₁.unique hsealed).2.2]
      exact ⟨s', k, kw, hs', hsealed', hmt⟩
    · rintro ⟨s₁, k₁, kw₁, hs₁, hsealed₁, rfl⟩
      cases hs'.symm.trans hs₁
      rw [(hsealed₁.unique hsealed').2.2, hmt]
      exact ⟨s, k₀, kw₀, hs, hsealed, rfl⟩
  right u := by
    -- every new token is one of the user itself, and fits what is stored
    have hgrant : ∀ {isUpdate x}, v'.token isUpdate u = some x → x.2 = user.id →
        E.ShowsGrant v'.stored isUpdate u x ⟨user.id, true⟩ := fun hx howner =>
      ⟨howner, fun _ => ⟨s', k, kw, d, hs', hsealed',
        tokenFor_rekeyed hreg hsk hv hsealed'.key_ne hsealed'.mac_key_ne hentry hx⟩, fun _ => rfl⟩
    rw [Doc.lookup_mapRights]
    cases he : v.entry u with
    | none =>
      rw [hentry, he, hD.entry_eq_none_iff.mp he]
      exact .none
    | some e =>
      obtain ⟨r, hr, hright⟩ := hD.of_entry he
      have he' : v'.entry u = some (E.rekeyed user sk k kw u e) := by rw [hentry, he]; rfl
      rw [he', hr]
      refine .some ⟨hgrant ?_ rfl, ?_⟩
      · exact Option.map_eq_some_iff.mpr ⟨_, he', rfl⟩
      · have hup := hright.update
        show Option.Rel _ (e.wtoken.map _) (r.update.map _)
        have hw : ∀ x, e.wtoken = some x → v'.token true u =
            some (E.themis.wrap sk ((E.credentials u).getD []) kw, user.id) := by
          intro x hx
          refine Option.bind_eq_some_iff.mpr ⟨_, he', ?_⟩
          show e.wtoken.map _ = _
          rw [hx]
          rfl
        generalize e.wtoken = o at hup hw ⊢
        generalize r.update = o' at hup ⊢
        cases hup with
        | none => exact .none
        | some _ => exact .some (hgrant (hw _ rfl) rfl)

/-- **A rotation** does what the ledger says. -/
theorem Shows.does_rotate {fuel : ℕ} (hD : E.Shows v D) (hreg : E.Registered user)
    (hv : E.WellFormedAt v) (hb : b ≠ []) (hfuel : v.users.keys.length ≤ fuel) :
    E.Does b (midHermesRotateBlock fuel user b) v [] (E.Gives (D.rotateBlock user.id)) := by
  obtain ⟨sk, -, hsk, -⟩ := hreg.sk_eq
  unfold midHermesRotateBlock
  rw [if_neg hb]
  rcases hD.load_cases hreg hv hb with ⟨hno, hload⟩ |
    ⟨e, s, k₀, kw₀, d, rt, ho, hopens, ⟨-, hnone, hload⟩ | ⟨x, kwu, wt, g, hw, hg, hfits, hload⟩⟩
  · refine hload.does fun l _ => ⟨?_, ?_⟩ <;> simp [Doc.rotateBlock, Doc.masters, hno, hD]
  · -- without a mac there is no rights list
    refine hload.does fun l _ => ⟨?_, ?_⟩ <;> simp [Doc.rotateBlock, Doc.masters, hnone, hD]
  · -- the block is sealed with fresh keys, and saved if the old mac is still the stored one
    have hmasters : D.masters user.id = g.fits := by rw [Doc.masters_eq hopens, hg]; rfl
    have hwriter : writeToken (v.entry user.id) ≠ none := by
      rw [ho.entry]
      simp [writeToken, hw.wtoken]
    refine hload.does fun l hl => ?_
    have hh := tokensFrom_append hl (tokensFrom_nil (b := b) (v := v))
    refine (computes_accessRights hv hb rfl rfl (by rw [ho.entry]; simp) hfuel).does
      fun l₁ hl₁ => ?_
    have hh₁ := tokensFrom_append hl₁ hh
    simp only [midHermesLlBlockRotate, Prog.bind_assoc]
    refine does_rotateKeys hreg hsk rfl rfl rfl ho.sealedIn.data_ne hh₁ fun k kw h₂ hk hkw hh₂ => ?_
    simp only [Prog.bind_assoc]
    refine (computes_rotateRights hreg hsk hk hkw _).does fun l₃ hl₃ => ?_
    have hh₃ := tokensFrom_append hl₃ hh₂
    dsimp only
    simp only [Prog.pure_eq, Prog.ret_bind, Bool.not_true, Bool.false_eq_true, if_false,
      Option.none_or]
    refine does_save hb (E.themis.encryptSeal_ne_nil _ _ _) ho.sealedIn.meta_ne
      (E.themis.hmac_ne_nil _ _) (E.themis.hmac_ne_nil _ _) ho.stored (fun hm => ?_) fun hm => ?_
    · rw [Doc.rotateBlock, hmasters, hfits.mpr (ho.mac_iff.mp hm), if_pos rfl]
      have hentries : (v.setStored (some ⟨E.themis.encryptSeal k s.metadata d, s.metadata,
          E.themis.hmac kw [d, s.metadata]⟩)).entry = v.entry := rfl
      refine does_saveTokens_rekeyed hreg hb hv hentries hwriter rfl rfl rfl
        (hh₃.cons (r := .ds (.updateBlock ..)) id) fun v' l₄ hstored hentry _ => ?_
      exact ⟨rfl, hD.regiven hreg hsk hv ho.stored ho.sealedIn hstored
        ⟨hk, hkw, ho.sealedIn.data_ne, ho.sealedIn.meta_ne, rfl, rfl⟩ rfl hentry⟩
    · -- the data store refuses the new block, and nothing has changed
      have hno : g.fits ≠ true := fun h0 => hm (ho.mac_iff.mpr (hfits.mp h0))
      rw [Doc.rotateBlock, hmasters, if_neg hno]
      exact ⟨rfl, hD⟩

/-- What is not there any more has no tokens. -/
theorem not_toStored_none {isUpdate : Bool} {x : Bytes × Bytes} :
    ¬E.ToStored none isUpdate u x := by
  rintro ⟨s, k, kw, d, hs, -⟩
  cases hs

/-- An entry whose tokens are not to what is stored shows stale rights. -/
theorem ShowsRight.stale {s s' : Option StoredBlock} {e : Entry} {r : Right}
    (hr : E.ShowsRight s u e r)
    (hold : ∀ isUpdate x, (if isUpdate then e.wtoken else some (e.rtoken, e.rtokenOwner)) = some x →
      ¬E.ToStored s' isUpdate u x) : E.ShowsRight s' u e r.stale := by
  refine ⟨⟨hr.read.giver, fun h0 => (Bool.false_ne_true h0).elim,
    fun h0 => (hold false _ rfl h0).elim⟩, ?_⟩
  have hup := hr.update
  show Option.Rel _ e.wtoken (r.update.map _)
  have hw : ∀ x, e.wtoken = some x → ¬E.ToStored s' true u x := fun x hx => hold true x hx
  generalize e.wtoken = o at hup hw ⊢
  generalize r.update = o' at hup ⊢
  cases hup with
  | none => exact .none
  | some hg =>
    exact .some ⟨hg.giver, fun h0 => (Bool.false_ne_true h0).elim, fun h0 => (hw _ rfl h0).elim⟩

/-- **A deletion** does what the ledger says. -/
theorem Shows.does_delete {fuel : ℕ} (hD : E.Shows v D) (hreg : E.Registered user)
    (hv : E.WellFormedAt v) (hb : b ≠ []) (hfuel : v.users.keys.length ≤ fuel) :
    E.Does b (midHermesDeleteBlock fuel user b) v h (E.Gives (D.deleteBlock user.id)) := by
  unfold midHermesDeleteBlock
  rw [if_neg hb]
  rcases hD.load_cases hreg hv hb with ⟨hno, hload⟩ |
    ⟨e, s, k, kw, d, rt, ho, hopens, ⟨-, hnone, hload⟩ | ⟨x, kwu, wt, g, hw, hg, hfits, hload⟩⟩
  · -- the block cannot be loaded
    refine hload.does fun l _ => ⟨?_, ?_⟩ <;> simp [Doc.deleteBlock, Doc.masters, hno, hD]
  · -- it can, but without a write token there is no mac to delete it by
    refine hload.does fun l _ => ⟨?_, ?_⟩ <;>
      simp [Doc.deleteBlock, Doc.masters, hnone, hopens, hD]
  · -- the deletion is accepted if the write token fits what is stored
    have hmasters : D.masters user.id = g.fits := by rw [Doc.masters_eq hopens, hg]; rfl
    have hwriter : writeToken (v.entry user.id) ≠ none := by
      rw [ho.entry]
      simp [writeToken, hw.wtoken]
    refine hload.does fun l _ => ?_
    refine (computes_accessRights hv hb rfl rfl (by rw [ho.entry]; simp) hfuel).does fun l₁ _ => ?_
    simp only [midHermesLlBlockDelete, Bool.not_true, Bool.and_self, Bool.false_eq_true,
      if_false, if_true, Option.getD_none, Option.getD_some, Prog.bind_assoc]
    refine does_remBlock hb (E.themis.hmac_ne_nil _ _) ho.stored (fun hm => ?_) fun hm => ?_
    · rw [Doc.deleteBlock, hmasters, hfits.mpr (ho.mac_iff.mp hm), if_pos rfl]
      -- nothing is stored now, so no right fits it, and the own entry is gone
      have hshows : E.Shows ((v.setStored none).setEntry user.id none)
          ⟨none, (D.mapRights Right.stale).erase user.id⟩ := by
        refine Shows.erase (v := v.setStored none) (D := ⟨none, D.mapRights Right.stale⟩)
          ⟨fun {d mt} => ⟨fun h0 => (by cases h0), fun h0 => ?_⟩, fun u => ?_⟩ user.id
        · obtain ⟨s', k', kw', hs', -⟩ := h0
          cases hs'
        · rw [Doc.lookup_mapRights]
          have hright := hD.right u
          show Option.Rel _ (v.entry u) _
          generalize v.entry u = o at hright ⊢
          generalize D.rights.lookup u = o' at hright ⊢
          cases hright with
          | none => exact .none
          | some hr => exact .some (hr.stale fun isUpdate x _ => not_toStored_none)
      -- the entries of others can no longer be removed, so only who is alone succeeds
      have halone : E.rightsList v user.id = [] ↔ D.alone user.id = true :=
        (rightsList_eq_nil hv).trans hD.alone_iff.symm
      refine (does_deleteEntries (v := v.setStored none)
        ⟨user, some b, some s.block, some d, some s.metadata, none,
          some (E.themis.hmac kwu [d, s.metadata]), some rt, some wt⟩ (Q := fun x' v' _ =>
          x' = .ok (D.alone user.id) ∧ v' = (v.setStored none).setEntry user.id none) hb
        ho.holds.user_eq hwriter (fun h0 _ => ⟨?_, rfl⟩) (fun h0 _ => ⟨?_, rfl⟩)).bind ?_ ?_
      · rw [halone.mp h0]
      · rw [Bool.eq_false_iff.mpr fun h1 => h0 (halone.mpr h1)]
      · rintro ok v' h' ⟨hok, rfl⟩
        cases hok
        cases D.alone user.id with
        | true => exact ⟨rfl, hshows⟩
        | false => exact ⟨rfl, hshows⟩
      · rintro w v' h' ⟨hw, -⟩
        cases hw
    · have hno : g.fits ≠ true := fun h0 => hm (ho.mac_iff.mpr (hfits.mp h0))
      rw [Doc.deleteBlock, hmasters, if_neg hno, hopens]
      exact ⟨rfl, hD⟩

/-- The write token of a user, and its right to update. -/
theorem Shows.wtoken_rel (hD : E.Shows v D) (u : Bytes) :
    Option.Rel (E.ShowsGrant v.stored true u) (writeToken (v.entry u)) (D.grant true u) := by
  have hright := hD.right u
  rw [Doc.grant]
  generalize v.entry u = o at hright ⊢
  generalize D.rights.lookup u = o' at hright ⊢
  cases hright with
  | none => exact .none
  | some hr => exact hr.update

/-- A block that is loaded, and what can be read of it in any case. -/
theorem Shows.load_opened (hD : E.Shows v D) (hreg : E.Registered user) (hv : E.WellFormedAt v)
    (hb : b ≠ []) :
    (D.opens user.id = none ∧
      E.Computes b (midHermesLlBlockLoad (midHermesLlBlockCreateEmpty user) b) v none) ∨
    ∃ e s k kw d rt bl, E.Opened v user e s k kw d rt ∧ (D.opens user.id).isSome = true ∧
      bl.user = user ∧ bl.id = some b ∧ bl.rtoken = some rt ∧
      E.Computes b (midHermesLlBlockLoad (midHermesLlBlockCreateEmpty user) b) v (some bl) ∧
      ((bl.wtoken = none ∧ D.grant true user.id = none) ∨
        ∃ x kwu wt g, E.Writing user e x kwu wt ∧ bl.wtoken = some wt ∧
          D.grant true user.id = some g ∧ (g.fits = true ↔ kwu = kw)) := by
  rcases hD.load_cases hreg hv hb with hno |
    ⟨e, s, k, kw, d, rt, ho, hopens, ⟨-, hnone, hload⟩ | ⟨x, kwu, wt, g, hw, hg, hfits, hload⟩⟩
  · exact Or.inl hno
  · exact Or.inr ⟨e, s, k, kw, d, rt, _, ho, by rw [hopens]; rfl, rfl, rfl, rfl, hload,
      Or.inl ⟨rfl, hnone⟩⟩
  · exact Or.inr ⟨e, s, k, kw, d, rt, _, ho, by rw [hopens]; rfl, rfl, rfl, rfl, hload,
      Or.inr ⟨x, kwu, wt, g, hw, rfl, hg, hfits⟩⟩

/-- The key of what is stored, wrapped for a user, is a right that fits. -/
theorem showsGrant_wrap {s : StoredBlock} {sk k kw d k' : Bytes} {isUpdate : Bool} {forUser : User}
    {fits : Bool} (hreg : E.Registered user) (hsk : user.sk = some sk)
    (hfor : E.loadUser u = some forUser) (hs : E.Sealed k kw d s) (hne : k' ≠ [])
    (hfits : fits = true ↔ k' = keyFor isUpdate k kw) :
    E.ShowsGrant (some s) isUpdate u (E.themis.wrap sk forUser.pk k', user.id) ⟨user.id, fits⟩ := by
  obtain ⟨-, hpk, -⟩ := loadUser_eq_some hfor
  refine ⟨rfl, ?_⟩
  rw [toStored_iff hs (tokenFor_wrap hreg hsk hpk forUser.pk_ne_nil hne)]
  exact hfits

/-- **Granting read access** does what the ledger says. -/
theorem Shows.does_grantRead (hD : E.Shows v D) (hreg : E.Registered user) (hv : E.WellFormedAt v)
    (hb : b ≠ []) (hu : u ≠ []) :
    E.Does b (midHermesGrantReadAccess user b u) v h
      (E.Gives (D.grantReadAccess E.knows user.id u)) := by
  obtain ⟨sk, -, hsk, -⟩ := hreg.sk_eq
  unfold midHermesGrantReadAccess midHermesGrantAccess
  rw [if_neg (by tauto)]
  rcases hD.load_opened hreg hv hb with ⟨hno, hload⟩ |
    ⟨e, s, k, kw, d, rt, bl, ho, hsome, -, hid, hrt, hload, -⟩
  · refine hload.does fun l _ => ⟨?_, ?_⟩ <;> simp [Doc.grantReadAccess, hno, hD]
  refine hload.does fun l _ => ?_
  refine (computes_userLoadC u).does fun l₁ _ => ?_
  cases hfor : E.loadUser u with
  | none =>
    have hrefused : D.grantReadAccess E.knows user.id u = (hmFail, D) := by
      simp [Doc.grantReadAccess, knows, hfor]
    rw [hrefused]
    exact ⟨rfl, hD⟩
  | some forUser =>
    obtain ⟨rfl, -, -⟩ := loadUser_eq_some hfor
    have hcond : ((D.opens user.id).isSome && E.knows forUser.id) = true := by
      rw [hsome, knows, hfor]
      rfl
    rw [Doc.grantReadAccess, if_pos hcond]
    simp only [midHermesLlBlockRtokenFor, hrt]
    refine (computes_getTokenForUser hreg hsk ho.holds).does fun l₂ _ => ?_
    simp only [midHermesLlTokenSave, hid, Option.getD_some, Bool.false_eq_true, if_false]
    refine does_setRtoken hb hu user.id_ne_nil (E.themis.wrap_ne_nil _ _ _) (fun _ => ?_)
      fun _ hno => ?_
    · refine ⟨rfl, hD.setRight ⟨?_, hD.wtoken_rel _⟩⟩
      rw [ho.stored]
      exact showsGrant_wrap hreg hsk hfor ho.sealedIn ho.holds.key_ne ⟨fun _ => rfl, fun _ => rfl⟩
    · rw [ho.entry] at hno
      cases hno

/-- **Granting update access** does what the ledger says. -/
theorem Shows.does_grantUpdate (hD : E.Shows v D) (hreg : E.Registered user)
    (hv : E.WellFormedAt v) (hb : b ≠ []) (hu : u ≠ []) :
    E.Does b (midHermesGrantUpdateAccess user b u) v h
      (E.Gives (D.grantUpdateAccess E.knows user.id u)) := by
  obtain ⟨sk, -, hsk, -⟩ := hreg.sk_eq
  unfold midHermesGrantUpdateAccess midHermesGrantAccess
  rw [if_neg (by tauto)]
  -- without a condition it is refused, and the ledger stays as it is
  have hrefuse : (¬∃ g r, D.grant true user.id = some g ∧ D.rights.lookup u = some r ∧
      ((D.opens user.id).isSome && E.knows u) = true) →
      D.grantUpdateAccess E.knows user.id u = (hmFail, D) := by
    intro hno
    unfold Doc.grantUpdateAccess
    split
    · next g r hg hr => rw [if_neg fun hc => hno ⟨g, r, hg, hr, hc⟩]
    · rfl
  rcases hD.load_opened hreg hv hb with ⟨hno, hload⟩ |
    ⟨e, s, k, kw, d, rt, bl, ho, hsome, -, hid, -, hload, hwrite⟩
  · refine hload.does fun l _ => ?_
    rw [hrefuse (by simp [hno])]
    exact ⟨rfl, hD⟩
  refine hload.does fun l _ => ?_
  refine (computes_userLoadC u).does fun l₁ _ => ?_
  cases hfor : E.loadUser u with
  | none =>
    rw [hrefuse (by simp [knows, hfor])]
    exact ⟨rfl, hD⟩
  | some forUser =>
    obtain ⟨rfl, -, -⟩ := loadUser_eq_some hfor
    have hcond : ((D.opens user.id).isSome && E.knows forUser.id) = true := by
      rw [hsome, knows, hfor]
      rfl
    rcases hwrite with ⟨hwt, hnone⟩ | ⟨x, kwu, wt, g, hw, hwt, hg, hfits⟩
    · simp only [midHermesLlBlockWtokenFor, hwt]
      rw [hrefuse (by simp [hnone])]
      exact ⟨rfl, hD⟩
    · simp only [midHermesLlBlockWtokenFor, hwt]
      refine (computes_getTokenForUser hreg hsk hw.holds).does fun l₂ _ => ?_
      simp only [midHermesLlTokenSave, hid, Option.getD_some, if_true]
      refine does_setWtoken hb hu user.id_ne_nil (E.themis.wrap_ne_nil _ _ _) (fun e' _ he' => ?_)
        fun hno => ?_
      · obtain ⟨r, hr, hright, -⟩ := hD.grant_eq he'
        have heq : D.grantUpdateAccess E.knows user.id forUser.id =
            (hmSuccess, D.setRight forUser.id { r with update := some ⟨user.id, g.fits⟩ }) := by
          unfold Doc.grantUpdateAccess
          rw [hg, hr]
          exact if_pos hcond
        rw [heq]
        refine ⟨rfl, hD.setRight ⟨hright.read, .some ?_⟩⟩
        rw [ho.stored]
        exact showsGrant_wrap hreg hsk hfor ho.sealedIn hw.holds.key_ne hfits
      · rcases hno with ⟨-, hno⟩ | hno
        · rw [ho.entry] at hno
          exact absurd (hw.wtoken.symm.trans hno) (by simp)
        · rw [hrefuse (by simp [hD.entry_eq_none_iff.mp hno])]
          exact ⟨rfl, hD⟩

/-- The start of a denial: it is refused, or its user has a write token and the other is known, and
what it then removes is left to do. -/
theorem Shows.does_denyAccess (hD : E.Shows v D) (hreg : E.Registered user) (hv : E.WellFormedAt v)
    (hb : b ≠ []) (hu : u ≠ []) (isUpdate : Bool)
    {Post : Except Stop HermesStatus → Slice → Hist → Prop}
    (hrefused : ∀ h', (D.writes user.id && E.knows u) = false → Post (.ok hmFail) v h')
    (hremove : ∀ (forUser : User) h', forUser.id = u → (D.writes user.id && E.knows u) = true →
      writeToken (v.entry user.id) ≠ none →
      E.Does b (midHermesLlTokenDel forUser user b isUpdate >>= fun
        | .error _ => .ret hmFail
        | .ok _ => .ret hmSuccess) v h' Post) :
    E.Does b (midHermesDenyAccess isUpdate user b u) v h Post := by
  obtain ⟨sk, -, hsk, -⟩ := hreg.sk_eq
  unfold midHermesDenyAccess
  rw [if_neg (by tauto)]
  rcases hD.load_opened hreg hv hb with ⟨hno, hload⟩ |
    ⟨e, s, k, kw, d, rt, bl, ho, hsome, huser, hid, -, hload, hwrite⟩
  · exact hload.does fun l _ => hrefused _ (by simp [Doc.writes, hno])
  refine hload.does fun l _ => ?_
  refine (computes_userLoadC u).does fun l₁ _ => ?_
  cases hfor : E.loadUser u with
  | none => exact hrefused _ (by simp [knows, hfor])
  | some forUser =>
    obtain ⟨hforid, -, -⟩ := loadUser_eq_some hfor
    rcases hwrite with ⟨hwt, hnone⟩ | ⟨x, kwu, wt, g, hw, hwt, hg, -⟩
    · simp only [midHermesLlBlockWtokenFor, hwt]
      exact hrefused _ (by simp [Doc.writes, hnone])
    · simp only [midHermesLlBlockWtokenFor, hwt]
      refine (computes_getTokenForUser hreg hsk hw.holds).does fun l₂ _ => ?_
      simp only [huser, hid, Option.getD_some]
      refine hremove forUser _ hforid ?_ ?_
      · rw [Doc.writes, hsome, hg, knows, hfor]
        rfl
      · rw [ho.entry]
        simp [writeToken, hw.wtoken]

/-- An entry without its write token shows the right to read only. -/
theorem Shows.removeUpdate (hD : E.Shows v D) {e : Entry} {r : Right} (he : v.entry u = some e)
    (hr : D.rights.lookup u = some r) :
    E.Shows (v.setEntry u (some { e with wtoken := none }))
      (D.setRight u { r with update := none }) := by
  obtain ⟨r', hr', hright, -⟩ := hD.grant_eq he
  cases hr.symm.trans hr'
  exact hD.setRight ⟨hright.read, .none⟩

/-- **Denying update access** does what the ledger says. -/
theorem Shows.does_denyUpdate (hD : E.Shows v D) (hreg : E.Registered user) (hv : E.WellFormedAt v)
    (hb : b ≠ []) (hu : u ≠ []) :
    E.Does b (midHermesDenyUpdateAccess user b u) v h
      (E.Gives (D.denyUpdateAccess E.knows user.id u)) := by
  refine hD.does_denyAccess hreg hv hb hu true (fun h' hno => ?_)
    fun forUser h' hforid hc hwriter => ?_
  · have heq : D.denyUpdateAccess E.knows user.id u = (hmFail, D) := by
      unfold Doc.denyUpdateAccess
      rw [hno]
      split <;> rfl
    rw [heq]
    exact ⟨rfl, hD⟩
  · subst hforid
    simp only [midHermesLlTokenDel, Bool.not_true, Bool.false_eq_true, if_false, Prog.bind_assoc]
    refine does_delWtoken hb hu user.id_ne_nil (fun e _ he => ?_) fun hno => ?_
    · obtain ⟨r, hr, -⟩ := hD.of_entry he
      have heq : D.denyUpdateAccess E.knows user.id forUser.id =
          (hmSuccess, D.setRight forUser.id { r with update := none }) := by
        unfold Doc.denyUpdateAccess
        rw [hr]
        exact if_pos hc
      rw [heq]
      exact ⟨rfl, hD.removeUpdate he hr⟩
    · have hnone := hD.entry_eq_none_iff.mp (hno.resolve_left hwriter)
      have heq : D.denyUpdateAccess E.knows user.id forUser.id = (hmFail, D) := by
        unfold Doc.denyUpdateAccess
        rw [hnone]
      rw [heq]
      exact ⟨rfl, hD⟩

/-- **Denying read access** does what the ledger says. -/
theorem Shows.does_denyRead (hD : E.Shows v D) (hreg : E.Registered user) (hv : E.WellFormedAt v)
    (hb : b ≠ []) (hu : u ≠ []) :
    E.Does b (midHermesDenyReadAccess user b u) v h
      (E.Gives (D.denyReadAccess E.knows user.id u)) := by
  refine hD.does_denyAccess hreg hv hb hu false (fun h' hno => ?_)
    fun forUser h' hforid hc hwriter => ?_
  · -- the call fails before it removes anything
    have heq : D.denyReadAccess E.knows user.id u = (hmFail, D) := by
      unfold Doc.denyReadAccess
      rw [hno]
      split <;> rfl
    rw [heq]
    exact ⟨rfl, hD⟩
  · -- the write token is removed first, and then the entry
    subst hforid
    simp only [midHermesLlTokenDel, Bool.not_false, if_true, Prog.bind_assoc]
    refine does_delWtoken hb hu user.id_ne_nil (fun e _ he => ?_) fun hno => ?_
    · obtain ⟨r, hr, -⟩ := hD.of_entry he
      have hshows := hD.removeUpdate he hr
      have heq : D.denyReadAccess E.knows user.id forUser.id = if forUser.id = user.id then
          (hmFail, D.setRight forUser.id { r with update := none })
          else (hmSuccess, { D with rights := D.rights.erase forUser.id }) := by
        unfold Doc.denyReadAccess
        rw [hr]
        exact if_pos hc
      rw [heq]
      refine does_delRtoken hb hu user.id_ne_nil (fun hkept _ => ?_) fun hno => ?_
      · -- the entry goes after its write token
        rw [Slice.entry_setEntry] at hkept
        split_ifs with hself
        · rw [if_pos hself.symm] at hkept
          exact absurd rfl hkept
        · have herase := hD.erase forUser.id
          refine ⟨rfl, herase.congr (by simp) fun u' => ?_⟩
          simp only [Slice.entry_setEntry]
          split_ifs <;> rfl
      · rw [Slice.entry_setEntry, Slice.entry_setEntry, if_pos rfl] at hno
        split_ifs with hself
        · exact ⟨rfl, hshows⟩
        · rw [if_neg fun h0 => hself h0.symm] at hno
          rcases hno with hno | hno
          · exact absurd hno hwriter
          · cases hno
    · -- the other user has no entry, so both removals are refused
      have hnone := hD.entry_eq_none_iff.mp (hno.resolve_left hwriter)
      have hentry : v.entry forUser.id = none := hno.resolve_left hwriter
      have heq : D.denyReadAccess E.knows user.id forUser.id = (hmFail, D) := by
        unfold Doc.denyReadAccess
        rw [hnone]
      rw [heq]
      refine does_delRtoken hb hu user.id_ne_nil (fun _ hkept => absurd hentry hkept) fun _ => ?_
      exact ⟨rfl, hD⟩

end Env

end Hermes

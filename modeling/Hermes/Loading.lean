import Hermes.Slice

/-!
# Loading a block

What `mid_hermes_ll_block_load` finds when nothing else acts on the block: the block opens
for a user exactly if the user has an entry whose read token wraps the key the block is
sealed under (`Hermes.Env.Readable`). The mac it computes is made with the user's write
key, which may or may not be the one the stored mac was made with.
-/

namespace Hermes

open Interleave

namespace Env

variable (E : Env)

/-- A slice of well-formed stores. -/
structure WellFormedAt (v : Slice) : Prop where
  rtoken : ∀ {u e}, v.entry u = some e →
    u ≠ [] ∧ ∃ k, E.TokenFor u (e.rtoken, e.rtokenOwner) k
  wtoken : ∀ {u x}, writeToken (v.entry u) = some x → ∃ k, E.TokenFor u x k
  stored : ∀ {s}, v.stored = some s → ∃ k kw d, E.Sealed k kw d s

/-- A user has a read token for the key under which the stored block is sealed. -/
def Readable (v : Slice) (u d mt : Bytes) : Prop :=
  ∃ e s k kw, v.entry u = some e ∧ v.stored = some s ∧
    E.TokenFor u (e.rtoken, e.rtokenOwner) k ∧ E.Sealed k kw d s ∧ s.metadata = mt

/-- The tokens of a user fit the stored block: it is sealed under the key in the one, and its
mac was made with the key in the other. -/
def Fits (v : Slice) (u : Bytes) : Prop :=
  ∃ e s k kw d x, v.entry u = some e ∧ v.stored = some s ∧
    E.TokenFor u (e.rtoken, e.rtokenOwner) k ∧ E.Sealed k kw d s ∧ e.wtoken = some x ∧
    E.TokenFor u x kw

/-- The write token of a loaded block, and its mac. -/
def IsLoadedMac (user : User) (e : Entry) (d mt : Bytes) : Option Token → Option Bytes → Prop
  | none, mac => e.wtoken = none ∧ mac = none
  | some wt, mac => ∃ x kw, e.wtoken = some x ∧ E.TokenFor user.id x kw ∧
      E.HoldsKey user x kw wt ∧ mac = some (E.themis.hmac kw [d, mt])

variable {E} {v : Slice} {b : Bytes} {user : User}

theorem WellFormed.at {w : World} (hw : E.WellFormed w) (b : Bytes) :
    E.WellFormedAt (w.slice b) where
  rtoken he := ⟨(hw.rtoken (b := b) he).1.2, (hw.rtoken (b := b) he).2⟩
  wtoken hx := hw.wtoken (b := b) hx
  stored hs := (hw.stored (b := b) hs).2

theorem WellFormedAt.token (hv : E.WellFormedAt v) {isUpdate : Bool} {u : Bytes}
    {x : Bytes × Bytes} (hx : v.token isUpdate u = some x) : ∃ k, E.TokenFor u x k := by
  cases isUpdate with
  | false =>
    obtain ⟨e, he, rfl⟩ := Option.map_eq_some_iff.mp hx
    exact (hv.rtoken he).2
  | true => exact hv.wtoken hx

/-- A block has one content. -/
theorem Sealed.unique {k kw d k' kw' d' : Bytes} {s : StoredBlock} (h : E.Sealed k kw d s)
    (h' : E.Sealed k' kw' d' s) : k = k' ∧ kw = kw' ∧ d = d' := by
  obtain ⟨hb, hm⟩ := h.version
  obtain ⟨hb', hm'⟩ := h'.version
  obtain ⟨hk, -, hd⟩ := E.themis.encryptSeal_inj (hb.symm.trans hb')
  exact ⟨hk, (E.themis.hmac_inj (hm.symm.trans hm')).1, hd⟩

/-- What a user can read is one content. -/
theorem Readable.unique {u d mt d' mt' : Bytes} (h : E.Readable v u d mt)
    (h' : E.Readable v u d' mt') : d = d' ∧ mt = mt' := by
  obtain ⟨e, s, k, kw, -, hs, -, hsealed, rfl⟩ := h
  obtain ⟨e', s', k', kw', -, hs', -, hsealed', rfl⟩ := h'
  cases hs.symm.trans hs'
  exact ⟨(hsealed.unique hsealed').2.2, rfl⟩

/-- Whether the tokens of a user fit can be told from the mac. -/
theorem fits_iff_mac {u : Bytes} {e : Entry} {s : StoredBlock} {k kw d kwu : Bytes}
    {x : Bytes × Bytes} (he : v.entry u = some e) (hs : v.stored = some s)
    (hk : E.TokenFor u (e.rtoken, e.rtokenOwner) k) (hsealed : E.Sealed k kw d s)
    (hx : e.wtoken = some x) (hkw : E.TokenFor u x kwu) :
    E.Fits v u ↔ s.mac = E.themis.hmac kwu [d, s.metadata] := by
  constructor
  · rintro ⟨e', s', k', kw', d', x', he', hs', hk', hsealed', hx', hkw'⟩
    rw [he] at he'
    rw [hs] at hs'
    cases he'
    cases hs'
    rw [hx] at hx'
    cases hx'
    obtain ⟨-, rfl, rfl⟩ := hsealed.unique hsealed'
    rw [hkw.unique hkw']
    exact hsealed.version.2
  · intro hm
    obtain ⟨rfl, -⟩ := E.themis.hmac_inj (hsealed.version.2.symm.trans hm)
    exact ⟨e, s, k, kw, d, x, he, hs, hk, hsealed, hx, hkw⟩

/-- A user whose tokens fit can read. -/
theorem Fits.readable {u : Bytes} (h : E.Fits v u) : ∃ d mt, E.Readable v u d mt := by
  obtain ⟨e, s, k, kw, d, x, he, hs, hk, hsealed, -, -⟩ := h
  exact ⟨d, s.metadata, e, s, k, kw, he, hs, hk, hsealed, rfl⟩

/-- What the data store answers to a reading. -/
def blockReply : Option StoredBlock → Reply (Bytes × Bytes)
  | some s => .ok (s.block, s.metadata)
  | none => .error .fail

theorem computes_getBlock (hb : b ≠ []) :
    E.Computes b (hermesDataStoreGetBlock b) v (blockReply v.stored) := by
  unfold hermesDataStoreGetBlock
  rw [if_neg hb]
  refine computes_req (fun w hw => ?_) trivial (computes_ret _)
  subst hw
  rw [handle_readBlock, if_neg hb, slice_stored]
  cases w.stored b <;> exact ⟨rfl, rfl⟩

/-- A block that opens for a user is loaded into an object of the user, up to the mac, which is
the same with a write token and without one. The object keeps its `old_mac`. -/
theorem computes_load_of_mac {bl : Block} (hu : bl.user = user) (hreg : E.Registered user)
    (hb : b ≠ []) {s : StoredBlock} {k kw d : Bytes} {x : Bytes × Bytes} {rt : Token}
    {wt : Option Token} {mac : Option Bytes} (hs : v.stored = some s) (hsealed : E.Sealed k kw d s)
    (hk : k ≠ []) (hrt : E.ownToken user (v.token false user.id) = some rt)
    (hheld : E.HoldsKey user x k rt) (hwt : E.ownToken user (v.token true user.id) = wt)
    (hmac : E.Computes b (midHermesLlBlockInitMac { bl with data := some d } s.block s.metadata
      (some rt) wt) v (some { bl with data := some d, mac := mac })) :
    E.Computes b (midHermesLlBlockLoad bl b) v
      (some ⟨user, some b, some s.block, some d, some s.metadata, bl.oldMac, mac, some rt,
        wt⟩) := by
  subst hu
  have hblock : E.themis.decryptSeal k s.metadata s.block = some d := by
    rw [hsealed.version.1]
    exact E.themis.decryptSeal_encryptSeal _ _ _
  have hne : s.block ≠ [] := by
    rw [hsealed.version.1]
    exact E.themis.encryptSeal_ne_nil _ _ _
  have hread : E.Computes b (midHermesLlTokenLoad bl.user b false) v _ :=
    computes_tokenLoad hb false
  have hwrite : E.Computes b (midHermesLlTokenLoad bl.user b true) v _ :=
    computes_tokenLoad hb true
  rw [hrt] at hread
  rw [hwt] at hwrite
  refine hread.trans (hwrite.trans ?_)
  have hget := computes_getBlock (E := E) (v := v) hb
  rw [hs] at hget
  refine hget.trans ?_
  show E.Computes b (midHermesLlBlockInit _ _ _ _ _ (some rt) wt) v _
  have hdec : E.Computes b (hmDecrypt k s.block s.metadata) v _ := computes_decrypt hk hne
  rw [hblock] at hdec
  unfold midHermesLlBlockInit midHermesLlBlockInitTokens midHermesLlBlockInitData
  refine (computes_ret _).trans (((computes_getData hreg hheld).trans ?_).trans
    (a := some { bl with data := some d }) ?_)
  · exact hdec.trans (computes_ret _)
  · exact hmac.trans (computes_ret _)

/-- **A block that opens for a user is loaded.** -/
theorem computes_load (hreg : E.Registered user) (hv : E.WellFormedAt v) (hb : b ≠ []) {e : Entry}
    {s : StoredBlock} {k kw d : Bytes} (he : v.entry user.id = some e) (hs : v.stored = some s)
    (hk : E.TokenFor user.id (e.rtoken, e.rtokenOwner) k) (hsealed : E.Sealed k kw d s) :
    ∃ rt wt mac, E.HoldsKey user (e.rtoken, e.rtokenOwner) k rt ∧
      E.IsLoadedMac user e d s.metadata wt mac ∧
      E.Computes b (midHermesLlBlockLoad (midHermesLlBlockCreateEmpty user) b) v
        (some ⟨user, some b, some s.block, some d, some s.metadata, none, mac, some rt, wt⟩) := by
  obtain ⟨rt, hrt, hheld⟩ := hk.holdsKey hreg
  have htok : E.ownToken user (v.token false user.id) = some rt := by
    simpa [Slice.token, he] using hrt
  have hu : (midHermesLlBlockCreateEmpty user).user = user := rfl
  cases hw : e.wtoken with
  | none =>
    refine ⟨rt, none, none, hheld, ⟨hw, rfl⟩,
      computes_load_of_mac hu hreg hb hs hsealed hk.key_ne htok hheld ?_ ?_⟩
    · simp [Slice.token, he, writeToken, hw, ownToken]
    · exact computes_ret _
  | some x =>
    obtain ⟨kw', hkw⟩ := hv.wtoken (u := user.id) (x := x) (by rw [he]; exact hw)
    obtain ⟨wt, hwt, hheld'⟩ := hkw.holdsKey hreg
    refine ⟨rt, some wt, some (E.themis.hmac kw' [d, s.metadata]), hheld,
      ⟨x, kw', hw, hkw, hheld', rfl⟩,
      computes_load_of_mac hu hreg hb hs hsealed hk.key_ne htok hheld ?_ ?_⟩
    · simpa [Slice.token, he, writeToken, hw] using hwt
    · exact (computes_getData hreg hheld').trans
        ((computes_macCreate hkw.key_ne hsealed.data_ne).trans (computes_ret _))

/-- **So it is into any object of the user**, if there is a write token: the object keeps its
`old_mac`, and nothing else of what it was. -/
theorem computes_load_into {bl : Block} (hu : bl.user = user) (hreg : E.Registered user)
    (hv : E.WellFormedAt v) (hb : b ≠ []) {e : Entry} {x : Bytes × Bytes} {s : StoredBlock}
    {k kw d : Bytes} (he : v.entry user.id = some e) (hs : v.stored = some s)
    (hk : E.TokenFor user.id (e.rtoken, e.rtokenOwner) k) (hsealed : E.Sealed k kw d s)
    (hx : e.wtoken = some x) :
    ∃ rt wt kw', E.HoldsKey user (e.rtoken, e.rtokenOwner) k rt ∧ E.TokenFor user.id x kw' ∧
      E.HoldsKey user x kw' wt ∧ E.Computes b (midHermesLlBlockLoad bl b) v
        (some ⟨user, some b, some s.block, some d, some s.metadata, bl.oldMac,
          some (E.themis.hmac kw' [d, s.metadata]), some rt, some wt⟩) := by
  obtain ⟨rt, hrt, hheld⟩ := hk.holdsKey hreg
  obtain ⟨kw', hkw⟩ := hv.wtoken (u := user.id) (x := x) (by rw [he]; exact hx)
  obtain ⟨wt, hwt, hheld'⟩ := hkw.holdsKey hreg
  refine ⟨rt, wt, kw', hheld, hkw, hheld',
    computes_load_of_mac hu hreg hb hs hsealed hk.key_ne ?_ hheld ?_ ?_⟩
  · simpa [Slice.token, he] using hrt
  · simpa [Slice.token, he, writeToken, hx] using hwt
  · exact (computes_getData hreg hheld').trans
      ((computes_macCreate hkw.key_ne hsealed.data_ne).trans (computes_ret _))

/-- **A block that does not open for a user is not loaded**, into no object. -/
theorem computes_load_into_none {bl : Block} (hu : bl.user = user) (hreg : E.Registered user)
    (hv : E.WellFormedAt v) (hb : b ≠ []) (hno : ¬∃ d mt, E.Readable v user.id d mt) :
    E.Computes b (midHermesLlBlockLoad bl b) v none := by
  subst hu
  have hread : E.Computes b (midHermesLlTokenLoad bl.user b false) v _ :=
    computes_tokenLoad hb false
  have hwrite : E.Computes b (midHermesLlTokenLoad bl.user b true) v _ :=
    computes_tokenLoad hb true
  cases he : v.entry bl.user.id with
  | none =>
    have htok : E.ownToken bl.user (v.token false bl.user.id) = none := by
      simp [Slice.token, he, ownToken]
    rw [htok] at hread
    exact hread.trans (hwrite.trans (computes_ret _))
  | some e =>
    obtain ⟨-, k, hk⟩ := hv.rtoken he
    obtain ⟨rt, hrt, hheld⟩ := hk.holdsKey hreg
    have htok : E.ownToken bl.user (v.token false bl.user.id) = some rt := by
      simpa [Slice.token, he] using hrt
    rw [htok] at hread
    refine hread.trans (hwrite.trans ?_)
    have hget := computes_getBlock (E := E) (v := v) hb
    cases hs : v.stored with
    | none =>
      rw [hs] at hget
      exact hget.trans (computes_ret _)
    | some s =>
      rw [hs] at hget
      refine hget.trans ?_
      obtain ⟨k', kw', d, hsealed⟩ := hv.stored hs
      -- the key in the token is not the one the block is sealed under
      have hblock : E.themis.decryptSeal k s.metadata s.block = none := by
        rw [Option.eq_none_iff_forall_ne_some]
        intro d' hd
        rw [hsealed.version.1, E.themis.decryptSeal_encryptSeal_eq_some] at hd
        obtain ⟨rfl, -, rfl⟩ := hd
        exact hno ⟨d', s.metadata, e, s, k, kw', he, hs, hk, hsealed, rfl⟩
      have hne : s.block ≠ [] := by
        rw [hsealed.version.1]
        exact E.themis.encryptSeal_ne_nil _ _ _
      have hdec : E.Computes b (hmDecrypt k s.block s.metadata) v _ :=
        computes_decrypt hk.key_ne hne
      rw [hblock] at hdec
      show E.Computes b (midHermesLlBlockInit _ _ _ _ _ (some rt) _) v _
      unfold midHermesLlBlockInit midHermesLlBlockInitTokens midHermesLlBlockInitData
      refine (computes_ret _).trans (((computes_getData hreg hheld).trans ?_).trans
        (a := none) ?_)
      · exact hdec.trans (computes_ret _)
      · exact computes_ret _

/-- Nor into an empty one. -/
theorem computes_load_none (hreg : E.Registered user) (hv : E.WellFormedAt v) (hb : b ≠ [])
    (hno : ¬∃ d mt, E.Readable v user.id d mt) :
    E.Computes b (midHermesLlBlockLoad (midHermesLlBlockCreateEmpty user) b) v none :=
  computes_load_into_none (rfl : (midHermesLlBlockCreateEmpty user).user = user) hreg hv hb hno

/-! ### Updating the object -/

/-- **The new version** is computed with the keys in the tokens of the object. -/
theorem computes_update (hreg : E.Registered user) {bl : Block} {x xw : Bytes × Bytes}
    {k kw : Bytes} {rt wt : Token} (hrt : bl.rtoken = some rt) (hwt : bl.wtoken = some wt)
    (hk : E.HoldsKey user x k rt) (hkw : E.HoldsKey user xw kw wt) {d : Bytes} (hd : d ≠ [])
    (mt : Bytes) :
    E.Computes b (midHermesLlBlockUpdate bl d mt) v (some { bl with
      metadata := some mt, data := some d, block := some (E.themis.encryptSeal k mt d),
      oldMac := bl.oldMac.or bl.mac, mac := some (E.themis.hmac kw [d, mt]) }) := by
  simp only [midHermesLlBlockUpdate, hrt, hwt]
  refine (computes_getData hreg hk).trans ((computes_getData hreg hkw).trans ?_)
  refine (computes_encrypt hk.key_ne hd).trans ((computes_macCreate hkw.key_ne hd).trans ?_)
  exact computes_ret _

/-! ### Reading -/

/-- **What a user can read is what a reading returns.** -/
theorem computes_readBlock (hreg : E.Registered user) (hv : E.WellFormedAt v) (hb : b ≠ [])
    {d mt : Bytes} (hd : E.Readable v user.id d mt) :
    E.Computes b (midHermesReadBlock user b) v (hmSuccess, some (d, mt)) := by
  obtain ⟨e, s, k, kw, he, hs, hk, hsealed, rfl⟩ := hd
  obtain ⟨rt, wt, mac, -, -, hload⟩ := computes_load hreg hv hb he hs hk hsealed
  unfold midHermesReadBlock
  rw [if_neg hb]
  exact hload.trans (computes_ret _)

/-- What a user cannot read, a reading does not return. -/
theorem computes_readBlock_fail (hreg : E.Registered user) (hv : E.WellFormedAt v) (hb : b ≠ [])
    (hno : ¬∃ d mt, E.Readable v user.id d mt) :
    E.Computes b (midHermesReadBlock user b) v (hmFail, none) := by
  unfold midHermesReadBlock
  rw [if_neg hb]
  exact (computes_load_none hreg hv hb hno).trans (computes_ret _)

/-- A reading, executed alone. -/
theorem run_readBlock {w : World} {a : HermesStatus × Option (Bytes × Bytes)}
    (h : E.Computes b (midHermesReadBlock user b) (w.slice b) a) :
    ((midHermesReadBlock user b).run E.handle w).1 = .ok a :=
  (h []).run.1

/-- **A reading succeeds exactly on what the user can read.** -/
theorem readBlock_eq_ok_iff (hreg : E.Registered user) {w : World} (hw : E.WellFormed w)
    (hb : b ≠ []) {d mt : Bytes} :
    ((midHermesReadBlock user b).run E.handle w).1 = .ok (hmSuccess, some (d, mt)) ↔
      E.Readable (w.slice b) user.id d mt := by
  constructor
  · intro h
    by_cases hno : ∃ d mt, E.Readable (w.slice b) user.id d mt
    · obtain ⟨d', mt', hd⟩ := hno
      rw [run_readBlock (computes_readBlock hreg (hw.at b) hb hd)] at h
      simp only [Except.ok.injEq, Prod.mk.injEq, Option.some.injEq, true_and] at h
      obtain ⟨rfl, rfl⟩ := h
      exact hd
    · rw [run_readBlock (computes_readBlock_fail hreg (hw.at b) hb hno)] at h
      simp at h
  · intro hd
    exact run_readBlock (computes_readBlock hreg (hw.at b) hb hd)

end Env

end Hermes

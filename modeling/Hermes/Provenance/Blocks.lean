import Hermes.Provenance.Objects

/-!
# What a block object is made of

The methods of the block object (`Hermes.Block`), one after the other, each with two things:
the requests it may send, and what it knows of its object when it returns, in terms of the
exchanges it has had. Nothing is assumed of the answers but that the cryptography is not wrong
(`Hermes.Env.Sound`): the stores may have been changed by others between any two requests, so
what is said of an object is said of the history that made it, never of what is stored.

* `Hermes.asks_load`: a block that was loaded (`Hermes.Env.IsLoaded`) has its data from an
  answer of the data store, opened with a key from an answer of the key store, and its mac, if
  it has one, was computed with the key in the write token that was loaded
  (`Hermes.Env.IsMac`).
* `Hermes.asks_blockCreate`: a new block (`Hermes.Env.IsNew`) is sealed and authenticated with
  the first two keys that the call has drawn.
* `Hermes.asks_update`: an update (`Hermes.Env.IsUpdated`) puts another content under the keys
  that were loaded, and keeps the loaded mac as the one to present to the data store.
* `Hermes.asks_rotate`: a rotation puts the loaded content under two fresh keys, and leaves
  each node of the rights list with tokens that wrap them (`Hermes.Env.IsRotated`), a write
  token only if it had one.

The delicate part is the key in a token. A history says which token was loaded, and the private
key of the user which key is in it; that the object was opened with *this* key needs that a
token opens to one key only (`Hermes.Env.OwnToken.eq_of_unwrap`), which is a law of the
cryptography and not a fact about the code. The operations of the clients, in
`Hermes.Provenance.Operations`, are made of these methods and take nothing else from them.
-/

namespace Hermes

open Interleave

variable {E : Env} {c : Call} {h : Hist}

/-- A loaded token of the user, with the key in it: some exchange has given it, and it opens to
this key for the user, whose private key the object of the user has. -/
structure Env.OwnToken (E : Env) (h : Hist) (isUpdate : Bool) (u : User) (b k : Bytes)
    (tok : Token) : Prop where
  user_eq : tok.user = u
  held : E.Held h isUpdate b tok
  opens : E.Opens u (tok.token, tok.owner.id) k

namespace Env.OwnToken

variable {h' : Hist} {isUpdate : Bool} {u : User} {b k : Bytes} {tok : Token}

theorem mono (ht : E.OwnToken h isUpdate u b k tok) (hs : h <:+ h') :
    E.OwnToken h' isUpdate u b k tok :=
  ⟨ht.user_eq, ht.held.mono hs, ht.opens⟩

theorem keyOf (ht : E.OwnToken h isUpdate u b k tok) : E.KeyOf h isUpdate u b k :=
  ⟨_, ht.user_eq ▸ ht.held.got, ht.opens⟩

/-- The token opens to one key only. -/
theorem eq_of_unwrap {sk k' : Bytes} (ht : E.OwnToken h isUpdate u b k tok)
    (hsk : tok.user.sk = some sk)
    (hk : E.themis.unwrap sk tok.owner.pk tok.token = some k') : k' = k := by
  obtain ⟨sk', pk, hsk', hpk, hk'⟩ := ht.opens
  rw [ht.user_eq, hsk'] at hsk
  have hpk' := ht.held.owner_pk
  rw [hpk] at hpk'
  cases hsk
  cases hpk'
  rw [hk'] at hk
  exact (Option.some.inj hk).symm

theorem token_ne_nil (ht : E.OwnToken h isUpdate u b k tok) : tok.token ≠ [] := by
  obtain ⟨sk, pk, -, -, hk⟩ := ht.opens
  obtain ⟨a, -, hx⟩ := E.themis.wrap_of_unwrap hk
  dsimp only at hx
  rw [hx]
  exact E.themis.wrap_ne_nil _ _ _

end Env.OwnToken

/-- The write token of a loaded block and the mac that was computed with it: both, or
neither. -/
def Env.IsMac (E : Env) (h : Hist) (u : User) (b d mt : Bytes) :
    Option Token → Option Bytes → Prop
  | none, mac => mac = none
  | some wt, mac => ∃ kw, E.OwnToken h true u b kw wt ∧ mac = some (E.themis.hmac kw [d, mt])

/-- A block object that was loaded: the data store has answered its encrypted data and its meta,
which open with the key in the read token that the key store has answered, and a mac goes with
a write token. -/
def Env.IsLoaded (E : Env) (h : Hist) (u : User) (b : Bytes) (bl : Block) : Prop :=
  ∃ x k d mt rt wt mac, bl = ⟨u, some b, some x, some d, some mt, none, mac, some rt, wt⟩ ∧
    E.OwnToken h false u b k rt ∧ E.Loaded h u b k d mt ∧ E.IsMac h u b d mt wt mac

/-- The object of a new block: two fresh tokens, and the data sealed and authenticated with
their keys. -/
def Env.IsNew (E : Env) (h : Hist) (u : User) (id : Option Bytes) (d mt : Bytes) (bl : Block) :
    Prop :=
  ∃ k kw rt wt, E.IsFresh h 0 u k rt ∧ E.IsFresh h 1 u kw wt ∧
    bl = ⟨u, id, some (E.themis.encryptSeal k mt d), some d, some mt, none,
      some (E.themis.hmac kw [d, mt]), some rt, some wt⟩

theorem Env.IsMac.mono {h' : Hist} {u : User} {b d mt : Bytes} {wt : Option Token}
    {mac : Option Bytes} (hm : E.IsMac h u b d mt wt mac) (hs : h <:+ h') :
    E.IsMac h' u b d mt wt mac := by
  cases wt with
  | none => exact hm
  | some wt =>
    obtain ⟨kw, hw, hmac⟩ := hm
    exact ⟨kw, hw.mono hs, hmac⟩

theorem Env.IsLoaded.mono {h' : Hist} {u : User} {b : Bytes} {bl : Block}
    (hl : E.IsLoaded h u b bl) (hs : h <:+ h') : E.IsLoaded h' u b bl := by
  obtain ⟨x, k, d, mt, rt, wt, mac, rfl, hrt, hld, hm⟩ := hl
  exact ⟨x, k, d, mt, rt, wt, mac, rfl, hrt.mono hs, hld.mono hs, hm.mono hs⟩

/-! ### Loading -/

/-- The mac of a block that is being loaded. -/
theorem asks_initMac_loaded {u : User} {b d mt x : Bytes} {rt : Token} {wt : Option Token}
    {bl : Block} (hd : bl.data = some d) (hbw : bl.wtoken = none)
    (hwt : ∀ tok, wt = some tok → E.Held h true b tok ∧ tok.user = u) :
    E.Asks c (midHermesLlBlockInitMac bl x mt (some rt) wt) h fun h' r => ∀ bl', r = some bl' →
      ∃ mac, E.IsMac h' u b d mt wt mac ∧ bl' = { bl with mac := mac.or bl.mac } := by
  unfold midHermesLlBlockInitMac
  cases wt with
  | none =>
    rw [if_neg (by simp [hbw])]
    intro bl' hbl
    cases hbl
    exact ⟨none, rfl, rfl⟩
  | some tok =>
    obtain ⟨hheld, huser⟩ := hwt tok rfl
    simp only [Option.isSome_some, Bool.true_or, if_true, Option.some_or, hd, Option.getD_some]
    refine (asks_getData tok).bind fun h₁ r hs₁ hr => ?_
    cases r with
    | none => exact fun bl' hbl => by cases hbl
    | some kw =>
      obtain ⟨sk, hsk, hkw⟩ := hr kw rfl
      refine (asks_macCreate kw d mt).bind fun h₂ r hs₂ hr => ?_
      cases r with
      | error _ => exact fun bl' hbl => by cases hbl
      | ok m =>
        intro bl' hbl
        cases hbl
        refine ⟨some m, ⟨kw, ⟨huser, (hheld.mono hs₁).mono hs₂, ?_⟩, by rw [hr m rfl]⟩, rfl⟩
        exact huser ▸ hheld.opens hsk hkw

/-- Reading the block, before any block was opened. -/
theorem asks_getBlock {b : Bytes} (hh : ∀ e ∈ h, ¬e.1.IsOpening) :
    E.Asks c (hermesDataStoreGetBlock b) h fun h' r => (∀ e ∈ h', ¬e.1.IsOpening) ∧
      ∀ x mt, r = .ok (x, mt) → Got h' (.ds (.readBlock b)) (.ok (x, mt)) := by
  unfold hermesDataStoreGetBlock
  split_ifs
  · exact ⟨hh, fun x mt hx => by cases hx⟩
  · refine ⟨trivial, fun a _ => ⟨fun e he => ?_, fun x mt hx => ?_⟩⟩
    · rcases List.mem_cons.mp he with rfl | he
      · exact id
      · exact hh e he
    · subst hx
      exact got_head

/-- Opening the block that was read, with the read token that was loaded. -/
theorem asks_initData_loaded {b x mt : Bytes} {rt : Token} {bl : Block}
    (hb : c.op.blockId = some b) (hheld : E.Held h false b rt) (huser : rt.user = c.user)
    (hread : Got h (.ds (.readBlock b)) (.ok (x, mt))) (hh : ∀ e ∈ h, ¬e.1.IsOpening) :
    E.Asks c (midHermesLlBlockInitData bl x mt (some rt)) h fun h' r => ∀ bl', r = some bl' →
      ∃ k d, E.OwnToken h' false c.user b k rt ∧ E.Loaded h' c.user b k d mt ∧
        bl' = { bl with data := some d } := by
  simp only [midHermesLlBlockInitData, Option.some_or, midHermesLlTokenGetDataOf,
    Option.isSome_some, if_true]
  refine ((asks_getData rt).all (C := fun r => ¬r.IsOpening)
    (getData_only ⟨fun _ _ _ => id, fun _ _ _ => id⟩) hh).bind fun h₁ r hs₁ hr₁ => ?_
  cases r with
  | none => exact fun bl' hbl => by cases hbl
  | some k =>
    obtain ⟨sk, hsk, hk⟩ := hr₁.1 k rfl
    have hown : E.OwnToken h₁ false c.user b k rt :=
      ⟨huser, hheld.mono hs₁, huser ▸ hheld.opens hsk hk⟩
    have hopens : E.OpensBlock c h₁ k mt x := ⟨hr₁.2, b, hb, hown.keyOf, hread.mono hs₁⟩
    refine (asks_decrypt hopens).bind fun h₂ r hs₂ hd => ?_
    cases r with
    | error _ => exact fun bl' hbl => by cases hbl
    | ok d =>
      intro bl' hbl
      cases hbl
      exact ⟨k, d, hown.mono hs₂,
        ⟨(hown.mono hs₂).keyOf, x, (hread.mono hs₁).mono hs₂, hd d rfl⟩, rfl⟩

theorem asks_load {u : User} {b : Bytes} (hu : c.user = u) (hb : c.op.blockId = some b)
    (hh : ∀ e ∈ h, ¬e.1.IsOpening) :
    E.Asks c (midHermesLlBlockLoad (midHermesLlBlockCreateEmpty u) b) h fun h' r =>
      ∀ bl, r = some bl → E.IsLoaded h' u b bl := by
  subst hu
  -- up to the opening of the block, no block is opened
  refine ((asks_tokenLoad c.user b false).all (C := fun r => ¬r.IsOpening)
    (tokenLoad_only id id fun _ => id) hh).bind fun h₁ rt _ hrt => ?_
  refine ((asks_tokenLoad c.user b true).all (C := fun r => ¬r.IsOpening)
    (tokenLoad_only id id fun _ => id) hrt.2).bind fun h₂ wt hs₂ hwt => ?_
  cases rt with
  | none => exact fun bl hbl => by cases hbl
  | some rt =>
    obtain ⟨hheld, huser⟩ := hrt.1 rt rfl
    refine (asks_getBlock hwt.2).bind fun h₃ r hs₃ hr => ?_
    rcases r with _ | ⟨x, mt⟩
    · exact fun bl hbl => by cases hbl
    · -- the read token is there, so the object is filled from what was read
      show E.Asks c (midHermesLlBlockInit _ _ _ _ _ (some rt) wt) h₃ _
      unfold midHermesLlBlockInit midHermesLlBlockInitTokens
      simp only [Prog.ret_bind, Option.isSome_some, if_true]
      refine (asks_initData_loaded hb ((hheld.mono hs₂).mono hs₃) huser (hr.2 x mt rfl)
        hr.1).bind fun h₄ r hs₄ hr₄ => ?_
      cases r with
      | none => exact fun bl hbl => by cases hbl
      | some bl =>
        obtain ⟨k, d, hown, hld, rfl⟩ := hr₄ bl rfl
        refine (asks_initMac_loaded (u := c.user) (b := b) (d := d) rfl rfl
          fun tok htok => ?_).bind fun h₅ r hs₅ hr₅ => ?_
        · obtain ⟨hw, hwu⟩ := hwt.1 tok htok
          exact ⟨(hw.mono hs₃).mono hs₄, hwu⟩
        · cases r with
          | none => exact fun bl hbl => by cases hbl
          | some bl =>
            obtain ⟨mac, hmac, rfl⟩ := hr₅ bl rfl
            intro bl hbl
            cases hbl
            exact ⟨x, k, d, mt, rt, wt, mac, by simp [midHermesLlBlockCreateEmpty],
              hown.mono hs₅, hld.mono hs₅, hmac⟩

theorem getDataOf_only {tok : Option Token} {C : Req → Prop} (hu : OpensTokens C) :
    (midHermesLlTokenGetDataOf tok).Only C := by
  cases tok with
  | none => trivial
  | some tok => exact getData_only hu

theorem initMac_only {bl : Block} {d mt : Bytes} {rt wt : Option Token} {C : Req → Prop}
    (hu : OpensTokens C) (hm : ∀ k xs, C (.themis (.hmac k xs))) :
    (midHermesLlBlockInitMac bl d mt rt wt).Only C := by
  unfold midHermesLlBlockInitMac
  split
  · refine Prog.Only.bind (getDataOf_only hu) fun r => ?_
    cases r with
    | none => trivial
    | some k =>
      refine Prog.Only.bind (macCreate_only (hm _ _)) fun r => ?_
      cases r <;> trivial
  · trivial

/-- The kinds of requests a loading has. -/
theorem load_only {u : User} {b : Bytes} {C : Req → Prop} (hrt : C (.ks (.getRtoken b u.id)))
    (hwt : C (.ks (.getWtoken b u.id))) (hc : ∀ id, C (.getPubKeyById id))
    (hr : C (.ds (.readBlock b)))
    (hu : OpensTokens C) (hm : ∀ k xs, C (.themis (.hmac k xs)))
    (hd : ∀ k mt x, C (.themis (.decryptSeal k mt x))) :
    (midHermesLlBlockLoad (midHermesLlBlockCreateEmpty u) b).Only C := by
  refine Prog.Only.bind (tokenLoad_only hrt hwt hc) fun rt => ?_
  refine Prog.Only.bind (tokenLoad_only hrt hwt hc) fun wt => ?_
  cases rt with
  | none => trivial
  | some rt =>
    refine Prog.Only.bind ?_ fun r => ?_
    · unfold hermesDataStoreGetBlock
      split_ifs
      · trivial
      · exact ⟨hr, fun _ => trivial⟩
    · rcases r with _ | ⟨x, mt⟩
      · trivial
      · refine Prog.Only.bind trivial fun r => ?_
        cases r with
        | none => trivial
        | some bl =>
          refine Prog.Only.bind (Prog.Only.bind (getData_only hu) fun r => ?_) fun r => ?_
          · cases r with
            | none => trivial
            | some k =>
              simp only [Option.isSome_some, if_true]
              refine Prog.Only.bind (decrypt_only (hd _ _ _)) fun r => ?_
              cases r <;> trivial
          · cases r with
            | none => trivial
            | some bl =>
              refine Prog.Only.bind (initMac_only hu hm) fun r => ?_
              cases r <;> trivial

/-- What is done with a block that was read is cryptography. -/
theorem init_only {bl : Block} {u : User} {id : Option Bytes} {x mt : Bytes} {rt : Token}
    {wt : Option Token} :
    (midHermesLlBlockInit bl u id x mt (some rt) wt).Only Req.IsThemis := by
  refine Prog.Only.bind trivial fun r => ?_
  cases r with
  | none => trivial
  | some bl =>
    refine Prog.Only.bind (Prog.Only.bind (getData_only opensTokens_isThemis) fun r => ?_)
      fun r => ?_
    · cases r with
      | none => trivial
      | some k =>
        refine Prog.Only.bind (decrypt_only trivial) fun r => ?_
        cases r <;> trivial
    · cases r with
      | none => trivial
      | some bl =>
        refine Prog.Only.bind (initMac_only opensTokens_isThemis fun _ _ => trivial) fun r => ?_
        cases r <;> trivial

theorem update_only (bl : Block) (d mt : Bytes) :
    (midHermesLlBlockUpdate bl d mt).Only Req.IsThemis := by
  unfold midHermesLlBlockUpdate
  split
  · refine Prog.Only.bind (getData_only opensTokens_isThemis) fun k => ?_
    refine Prog.Only.bind (getData_only opensTokens_isThemis) fun kw => ?_
    rcases k, kw with ⟨_ | k, _ | kw⟩ <;> try trivial
    refine Prog.Only.bind (encrypt_only trivial) fun r => ?_
    cases r with
    | error _ => trivial
    | ok x =>
      refine Prog.Only.bind (macCreate_only trivial) fun r => ?_
      cases r <;> trivial
  · trivial

theorem rtokenFor_only (bl : Block) (v : User) :
    (midHermesLlBlockRtokenFor bl v).Only Req.IsThemis := by
  unfold midHermesLlBlockRtokenFor
  cases bl.rtoken with
  | none => trivial
  | some t => exact getTokenForUser_only opensTokens_isThemis (fun _ _ _ => trivial) t v

theorem wtokenFor_only (bl : Block) (v : User) :
    (midHermesLlBlockWtokenFor bl v).Only Req.IsThemis := by
  unfold midHermesLlBlockWtokenFor
  cases bl.wtoken with
  | none => trivial
  | some t => exact getTokenForUser_only opensTokens_isThemis (fun _ _ _ => trivial) t v

/-! ### The kinds of requests a rotation has -/

theorem rotateKeys_only (bl : Block) : (midHermesLlBlockRotateKeys bl).Only Req.IsThemis := by
  refine Prog.Only.bind (generate_only trivial fun _ _ _ => trivial) fun rt => ?_
  refine Prog.Only.bind (generate_only trivial fun _ _ _ => trivial) fun wt => ?_
  refine Prog.Only.bind (getDataOf_only opensTokens_isThemis) fun k => ?_
  refine Prog.Only.bind (getDataOf_only opensTokens_isThemis) fun kw => ?_
  rcases rt, wt, k, kw with ⟨_ | rt, _ | wt, _ | k, _ | kw⟩ <;> try trivial
  dsimp only
  cases bl.data with
  | none => trivial
  | some d =>
    cases bl.metadata with
    | none => trivial
    | some mt =>
      refine Prog.Only.bind (encrypt_only trivial) fun r => ?_
      cases r with
      | error _ => trivial
      | ok blk =>
        refine Prog.Only.bind (macCreate_only trivial) fun r => ?_
        cases r <;> trivial

theorem rotateRights_only (rt wt : Token) (rights : List RightsListNode) :
    (midHermesLlBlockRotateRights rt wt rights).Only Req.IsThemis := by
  induction rights with
  | nil => trivial
  | cons node rights ih =>
    have htoken : ∀ token, (midHermesLlTokenGetTokenForUser token node.user).Only Req.IsThemis :=
      fun token => getTokenForUser_only opensTokens_isThemis (fun _ _ _ => trivial) token _
    refine Prog.Only.bind (htoken rt) fun nrt => ?_
    refine Prog.Only.bind ?_ fun nwt => ?_
    · split_ifs
      · exact htoken wt
      · trivial
    · cases nrt with
      | none => trivial
      | some nrt => exact Prog.Only.bind ih fun r => trivial

/-- A rotation of an object is cryptography alone. -/
theorem rotate_only (bl : Block) (rights : List RightsListNode) :
    (midHermesLlBlockRotate bl rights).Only Req.IsThemis := by
  unfold midHermesLlBlockRotate
  split
  · refine Prog.Only.bind (rotateKeys_only bl) fun r => ?_
    cases r with
    | none => trivial
    | some x => exact Prog.Only.bind (rotateRights_only _ _ rights) fun r => trivial
  · trivial

/-! ### Making a new block -/

/-- A new block is made by cryptography alone. -/
theorem blockCreate_only {u : User} {id : Option Bytes} {d mt : Bytes} :
    (midHermesLlBlockCreate u id d mt none none).Only Req.IsThemis := by
  refine Prog.Only.bind (Prog.Only.bind (generate_only trivial fun _ _ _ => trivial) fun rt =>
    Prog.Only.bind (generate_only trivial fun _ _ _ => trivial) fun wt => ?_) fun r => ?_
  · split <;> trivial
  · cases r with
    | none => trivial
    | some bl =>
      refine Prog.Only.bind (Prog.Only.bind (getDataOf_only opensTokens_isThemis) fun r => ?_)
        fun r => ?_
      · cases r with
        | none => trivial
        | some k =>
          refine Prog.Only.bind (encrypt_only trivial) fun r => ?_
          cases r <;> trivial
      · cases r with
        | none => trivial
        | some bl =>
          refine Prog.Only.bind (initMac_only opensTokens_isThemis fun _ _ => trivial) fun r => ?_
          cases r <;> trivial

/-- The fresh tokens of a new block. -/
theorem asks_initTokens_new {id : Option Bytes} {d mt : Bytes} {bl : Block}
    (hop : c.op = .createBlock id d mt) (hu : bl.user = c.user) (hh : draws h = 0) :
    E.Asks c (midHermesLlBlockInitTokens bl none) h fun h' r => ∀ bl', r = some bl' →
      ∃ k kw rt wt, E.IsFresh h' 0 c.user k rt ∧ E.IsFresh h' 1 c.user kw wt ∧
        bl' = { bl with rtoken := some rt, wtoken := some wt } := by
  have hwraps : ∀ h' n sk k, c.user.sk = some sk → Drew h' n k →
      E.Wraps c h' sk c.user.pk k := fun h' n sk k hsk hd => by
    simp only [Env.Wraps, hop, hsk, true_and]
    exact ⟨n, hd⟩
  simp only [midHermesLlBlockInitTokens, hu]
  refine (asks_generate hh fun h' sk k _ hsk hd => hwraps h' 0 sk k hsk hd).bind
    fun h₁ rt _ hrt => ?_
  refine (asks_generate hrt.1 fun h' sk k _ hsk hd => hwraps h' 1 sk k hsk hd).bind
    fun h₂ wt hs₂ hwt => ?_
  cases rt with
  | none => exact fun bl' hbl => by cases hbl
  | some rt =>
    cases wt with
    | none => exact fun bl' hbl => by cases hbl
    | some wt =>
      obtain ⟨k, hk⟩ := hrt.2 rt rfl
      obtain ⟨kw, hkw⟩ := hwt.2 wt rfl
      intro bl' hbl
      cases hbl
      exact ⟨k, kw, rt, wt, hk.mono hs₂, hkw, rfl⟩

/-- The data of a new block, sealed with the key in its read token. -/
theorem asks_initData_new {id : Option Bytes} {d mt k : Bytes} {rt : Token} {bl : Block}
    (hop : c.op = .createBlock id d mt) (hrt : bl.rtoken = some rt)
    (hk : E.IsFresh h 0 c.user k rt) :
    E.Asks c (midHermesLlBlockInitData bl d mt none) h fun _ r => ∀ bl', r = some bl' →
      bl' = { bl with block := some (E.themis.encryptSeal k mt d) } := by
  simp only [midHermesLlBlockInitData, Option.none_or, hrt, midHermesLlTokenGetDataOf,
    Option.isSome_none, Bool.false_eq_true, if_false]
  refine (asks_getData rt).bind fun h₁ r hs₁ hr => ?_
  cases r with
  | none => exact fun bl' hbl => by cases hbl
  | some k' =>
    obtain ⟨sk, -, hun⟩ := hr k' rfl
    obtain rfl := hk.eq_of_unwrap hun
    have hseals : E.Seals c h₁ k' mt d := by
      simp only [Env.Seals, hop, true_and]
      exact hk.1.mono hs₁
    refine (asks_encrypt hseals).bind fun h₂ r _ hx => ?_
    cases r with
    | error _ => exact fun bl' hbl => by cases hbl
    | ok x =>
      intro bl' hbl
      cases hbl
      rw [hx x rfl]

/-- The mac of a new block, computed with the key in its write token. -/
theorem asks_initMac_new {d mt kw : Bytes} {wt : Token} {bl : Block} (hwt : bl.wtoken = some wt)
    (hk : E.IsFresh h 1 c.user kw wt) :
    E.Asks c (midHermesLlBlockInitMac bl d mt none none) h fun _ r => ∀ bl', r = some bl' →
      bl' = { bl with mac := some (E.themis.hmac kw [d, mt]) } := by
  simp only [midHermesLlBlockInitMac, Option.isSome_none, hwt, Option.isSome_some, Bool.or_true,
    if_true, Option.none_or, midHermesLlTokenGetDataOf, Bool.false_eq_true, if_false]
  refine (asks_getData wt).bind fun h₁ r _ hr => ?_
  cases r with
  | none => exact fun bl' hbl => by cases hbl
  | some k' =>
    obtain ⟨sk, -, hun⟩ := hr k' rfl
    obtain rfl := hk.eq_of_unwrap hun
    refine (asks_macCreate k' d mt).bind fun h₂ r _ hx => ?_
    cases r with
    | error _ => exact fun bl' hbl => by cases hbl
    | ok x =>
      intro bl' hbl
      cases hbl
      rw [hx x rfl]

theorem asks_blockCreate {u : User} {id : Option Bytes} {d mt : Bytes} (hu : c.user = u)
    (hop : c.op = .createBlock id d mt) (hh : draws h = 0) :
    E.Asks c (midHermesLlBlockCreate u id d mt none none) h fun h' r =>
      ∀ bl, r = some bl → E.IsNew h' u id d mt bl := by
  subst hu
  unfold midHermesLlBlockCreate midHermesLlBlockInit
  refine (asks_initTokens_new hop rfl hh).bind fun h₁ r _ hr => ?_
  cases r with
  | none => exact fun bl hbl => by cases hbl
  | some bl =>
    obtain ⟨k, kw, rt, wt, hrt, hwt, rfl⟩ := hr bl rfl
    refine (asks_initData_new hop rfl hrt).bind fun h₂ r hs₂ hr => ?_
    cases r with
    | none => exact fun bl hbl => by cases hbl
    | some bl =>
      obtain rfl := hr bl rfl
      refine (asks_initMac_new rfl (hwt.mono hs₂)).bind fun h₃ r hs₃ hr => ?_
      cases r with
      | none => exact fun bl hbl => by cases hbl
      | some bl =>
        obtain rfl := hr bl rfl
        intro bl hbl
        cases hbl
        exact ⟨k, kw, rt, wt, (hrt.mono hs₂).mono hs₃, (hwt.mono hs₂).mono hs₃, rfl⟩

/-! ### Updating -/

/-- A loaded block object that got another content: under the keys that were loaded, and
with the mac of what was loaded kept. -/
def Env.IsUpdated (E : Env) (h : Hist) (u : User) (b d mt : Bytes) (bl : Block) : Prop :=
  ∃ k kw rt wt old, bl = ⟨u, some b, some (E.themis.encryptSeal k mt d), some d, some mt,
      some old, some (E.themis.hmac kw [d, mt]), some rt, some wt⟩ ∧
    E.OwnToken h false u b k rt ∧ E.OwnToken h true u b kw wt ∧ E.LoadedMac h u b old

theorem asks_update {u : User} {b d mt : Bytes} {bl : Block} (hu : c.user = u)
    (hop : c.op = .updateBlock b d mt) (hbl : E.IsLoaded h u b bl) :
    E.Asks c (midHermesLlBlockUpdate bl d mt) h fun h' r =>
      ∀ bl', r = some bl' → E.IsUpdated h' u b d mt bl' := by
  subst hu
  obtain ⟨x₀, k, d₀, mt₀, rt, wt, mac, rfl, hrt, hld, hmac⟩ := hbl
  cases wt with
  | none => exact fun bl' hbl => by cases hbl
  | some wt =>
    obtain ⟨kw, hwt, rfl⟩ := hmac
    refine (asks_getData rt).bind fun h₁ r₁ hs₁ hr₁ => ?_
    refine (asks_getData wt).bind fun h₂ r₂ hs₂ hr₂ => ?_
    cases r₁ with
    | none => exact fun bl' hbl => by cases hbl
    | some k' =>
      cases r₂ with
      | none => exact fun bl' hbl => by cases hbl
      | some kw' =>
        -- the keys are those of the tokens that were loaded
        obtain ⟨sk, hsk, hk⟩ := hr₁ k' rfl
        obtain rfl := hrt.eq_of_unwrap hsk hk
        obtain ⟨sk', hsk', hk'⟩ := hr₂ kw' rfl
        obtain rfl := hwt.eq_of_unwrap hsk' hk'
        refine (asks_encrypt (show E.Seals c _ k' mt d from ?_)).bind fun h₃ r hs₃ hx => ?_
        · simp only [Env.Seals, hop, true_and]
          exact ⟨((hrt.mono hs₁).mono hs₂).keyOf, kw', ((hwt.mono hs₁).mono hs₂).keyOf⟩
        · cases r with
          | error _ => exact fun bl' hbl => by cases hbl
          | ok x =>
            refine (asks_macCreate kw' d mt).bind fun h₄ r hs₄ hm => ?_
            cases r with
            | error _ => exact fun bl' hbl => by cases hbl
            | ok m =>
              have hs : h <:+ h₄ := ((hs₁.trans hs₂).trans hs₃).trans hs₄
              intro bl' hbl
              cases hbl
              refine ⟨k', kw', rt, wt, E.themis.hmac kw' [d₀, mt₀], ?_, hrt.mono hs, hwt.mono hs,
                k', kw', d₀, mt₀, hld.mono hs, (hwt.mono hs).keyOf, rfl⟩
              rw [hx x rfl, hm m rfl]
              rfl

/-! ### The rights list and the rotation -/

/-- A user of the block with its tokens, as the stores told. -/
structure Env.NodeOf (E : Env) (h : Hist) (b : Bytes) (n : RightsListNode) : Prop where
  pk_eq : E.credentials n.user.id = some n.user.pk
  rtoken : ∃ x, GotToken h false b n.user.id x
  wtoken : n.wtoken.isSome → ∃ x, GotToken h true b n.user.id x

theorem Env.NodeOf.mono {h' : Hist} {b : Bytes} {n : RightsListNode} (hn : E.NodeOf h b n)
    (hs : h <:+ h') : E.NodeOf h' b n :=
  ⟨hn.pk_eq, hn.rtoken.imp fun _ hx => hx.mono hs,
    fun hw => (hn.wtoken hw).imp fun _ hx => hx.mono hs⟩

theorem asks_accessRightsNode {bl : Block} {b u : Bytes} {rights : List RightsListNode}
    (hr : ∀ n ∈ rights, E.NodeOf h b n) :
    E.Asks c (midHermesLlBlockAccessRightsNode bl b u rights) h fun h' r =>
      ∀ ns, r = some ns → ∀ n ∈ ns, E.NodeOf h' b n := by
  refine (asks_userLoadC u).bind fun h₁ user hs₁ hu => ?_
  split_ifs
  · intro ns hns n hn
    cases hns
    exact (hr n hn).mono hs₁
  · refine (asks_tokenLoadC u b false).bind fun h₂ rtoken hs₂ hrt => ?_
    refine (asks_tokenLoadC u b true).bind fun h₃ wtoken hs₃ hwt => ?_
    cases user with
    | none => exact fun ns hns => by cases hns
    | some user =>
      cases rtoken with
      | none => exact fun ns hns => by cases hns
      | some rtoken =>
        intro ns hns n hn
        cases hns
        obtain ⟨rfl, hpk⟩ := hu user rfl
        obtain ⟨hheld, hid⟩ := hrt rtoken rfl
        rcases List.mem_append.mp hn with hn | hn
        · exact (((hr n hn).mono hs₁).mono hs₂).mono hs₃
        · rw [List.mem_singleton.mp hn]
          refine ⟨hpk, ⟨_, hid ▸ hheld.got.mono hs₃⟩, fun hw => ?_⟩
          obtain ⟨wtok, rfl⟩ := Option.isSome_iff_exists.mp hw
          obtain ⟨hheld', hid'⟩ := hwt wtok rfl
          exact ⟨_, hid' ▸ hheld'.got⟩

theorem asks_accessRightsLoop {bl : Block} {b : Bytes} (fuel : ℕ) (i : KeyStoreIterator)
    (rights : List RightsListNode) (hr : ∀ n ∈ rights, E.NodeOf h b n) :
    E.Asks c (midHermesLlBlockAccessRightsLoop bl b fuel i rights) h fun h' r =>
      ∀ ns, r = some ns → ∀ n ∈ ns, E.NodeOf h' b n := by
  induction fuel generalizing h i rights with
  | zero => trivial
  | succ fuel ih =>
    refine (asks_accessRightsNode hr).bind fun h₁ r _ hns => ?_
    cases r with
    | none => exact fun ns hns => by cases hns
    | some rights =>
      refine Prog.Within.bind (p := hermesKeyStoreIteratorNext i) (Q := fun h' _ => h₁ <:+ h')
        ⟨trivial, fun a _ => ?_⟩ fun h₂ r _ hs₂ => ?_
      · cases a <;> exact List.suffix_cons _ _
      · have hns₂ : ∀ n ∈ rights, E.NodeOf h₂ b n := fun n hn => (hns rights rfl n hn).mono hs₂
        cases r with
        | error _ => exact fun ns h => by cases h; exact hns₂
        | ok i => exact ih i rights hns₂

theorem asks_accessRights {bl : Block} {b : Bytes} (fuel : ℕ) (hid : bl.id = some b) :
    E.Asks c (midHermesLlBlockAccessRights fuel bl) h fun h' r =>
      ∀ ns, r = some ns → ∀ n ∈ ns, E.NodeOf h' b n := by
  unfold midHermesLlBlockAccessRights
  rw [hid]
  cases bl.mac with
  | none => exact fun ns hns => by cases hns
  | some mac =>
    refine Prog.Within.bind (p := hermesKeyStoreIteratorCreate b) (Q := fun _ _ => True) ?_
      fun h₁ r _ _ => ?_
    · unfold hermesKeyStoreIteratorCreate
      split_ifs
      · trivial
      · refine ⟨trivial, fun a _ => ?_⟩
        cases a <;> trivial
    · cases r with
      | none => trivial
      | some i => exact asks_accessRightsLoop fuel i [] fun n hn => by simp at hn

/-- The four things a rotation computes first: two fresh tokens, and the loaded content
under their keys. -/
theorem asks_rotateKeys {u : User} {b : Bytes} {bl : Block} (hu : c.user = u)
    (hop : c.op = .rotateBlock b) (hbl : E.IsLoaded h u b bl) (hh : draws h = 0) :
    E.Asks c (midHermesLlBlockRotateKeys bl) h fun h' r => ∀ rt wt x mac,
      r = some (rt, wt, x, mac) → ∃ k kw d mt, E.IsFresh h' 0 u k rt ∧ E.IsFresh h' 1 u kw wt ∧
        bl.data = some d ∧ bl.metadata = some mt ∧ E.Version k kw d mt x mac := by
  subst hu
  obtain ⟨x₀, k₀, d, mt, rt₀, wt₀, mac₀, rfl, -, hld, -⟩ := hbl
  have hwraps : ∀ (h' : Hist) (isUpdate : Bool) (sk k : Bytes), c.user.sk = some sk →
      Drew h' (if isUpdate then 1 else 0) k → E.Wraps c h' sk c.user.pk k :=
    fun h' isUpdate sk k hsk hd => by
      simp only [Env.Wraps, hop, hsk, true_and]
      exact ⟨isUpdate, hd, Or.inl trivial⟩
  refine (asks_generate hh fun h' sk k _ hsk hd => hwraps h' false sk k hsk hd).bind
    fun h₁ rt hs₁ hrt => ?_
  refine (asks_generate hrt.1 fun h' sk k _ hsk hd => hwraps h' true sk k hsk hd).bind
    fun h₂ wt hs₂ hwt => ?_
  -- both keys are opened before it is looked whether there are tokens
  have hget : ∀ {h : Hist} (tok : Option Token), E.Asks c (midHermesLlTokenGetDataOf tok) h
      fun _ r => ∀ k, r = some k → ∃ t sk, tok = some t ∧
        E.themis.unwrap sk t.owner.pk t.token = some k := fun tok => by
    cases tok with
    | none => exact fun k hk => by cases hk
    | some t =>
      exact (asks_getData t).mono fun _ r _ hr k hk =>
        (hr k hk).elim fun sk hsk => ⟨t, sk, rfl, hsk.2⟩
  refine (hget rt).bind fun h₃ r₃ hs₃ hr₃ => ?_
  refine (hget wt).bind fun h₄ r₄ hs₄ hr₄ => ?_
  cases rt with
  | none => exact fun _ _ _ _ h => by cases h
  | some rt =>
    cases wt with
    | none => exact fun _ _ _ _ h => by cases h
    | some wt =>
      cases r₃ with
      | none => exact fun _ _ _ _ h => by cases h
      | some k' =>
        cases r₄ with
        | none => exact fun _ _ _ _ h => by cases h
        | some kw' =>
          -- what a fresh token opens to is what was drawn for it
          obtain ⟨k, hk⟩ := hrt.2 rt rfl
          obtain ⟨kw, hkw⟩ := hwt.2 wt rfl
          obtain ⟨t, sk, ht, hunw⟩ := hr₃ k' rfl
          cases ht
          obtain rfl := hk.eq_of_unwrap hunw
          obtain ⟨t, sk, ht, hunw'⟩ := hr₄ kw' rfl
          cases ht
          obtain rfl := hkw.eq_of_unwrap hunw'
          have hs₁₄ : h₁ <:+ h₄ := (hs₂.trans hs₃).trans hs₄
          refine (asks_encrypt (show E.Seals c _ k' mt d from ?_)).bind fun h₅ r hs₅ hx => ?_
          · simp only [Env.Seals, hop]
            exact ⟨hk.1.mono hs₁₄, k₀, hld.mono (hs₁.trans hs₁₄)⟩
          · cases r with
            | error _ => exact fun _ _ _ _ h => by cases h
            | ok x =>
              refine (asks_macCreate kw' d mt).bind fun h₆ r hs₆ hm => ?_
              cases r with
              | error _ => exact fun _ _ _ _ h => by cases h
              | ok m =>
                intro rt' wt' x' mac' heq
                cases heq
                exact ⟨k', kw', d, mt, hk.mono ((hs₁₄.trans hs₅).trans hs₆),
                  hkw.mono (((hs₃.trans hs₄).trans hs₅).trans hs₆), rfl, rfl, hx x rfl, hm m rfl⟩

/-- A node of the rights list with new tokens, wrapping the fresh keys: a write token only
if the user had one. -/
structure Env.IsRotated (E : Env) (h : Hist) (u : User) (b k kw : Bytes) (n : RightsListNode) :
    Prop extends E.NodeOf h b n where
  rtoken_eq : ∃ sk, u.sk = some sk ∧ n.rtoken = ⟨n.user, u, E.themis.wrap sk n.user.pk k⟩
  wtoken_eq : ∀ wt, n.wtoken = some wt →
    ∃ sk, u.sk = some sk ∧ wt = ⟨n.user, u, E.themis.wrap sk n.user.pk kw⟩

theorem Env.IsRotated.mono {h' : Hist} {u : User} {b k kw : Bytes} {n : RightsListNode}
    (hn : E.IsRotated h u b k kw n) (hs : h <:+ h') : E.IsRotated h' u b k kw n :=
  ⟨hn.toNodeOf.mono hs, hn.rtoken_eq, hn.wtoken_eq⟩

/-- A fresh token, wrapped for a user who has a token of this kind. -/
theorem asks_rewrapFresh {b k : Bytes} {isUpdate : Bool} {tok : Token} {v : User}
    (hop : c.op = .rotateBlock b) (htok : E.IsFresh h (if isUpdate then 1 else 0) c.user k tok)
    (hpk : E.credentials v.id = some v.pk) (hgot : ∃ x, GotToken h isUpdate b v.id x) :
    E.Asks c (midHermesLlTokenGetTokenForUser tok v) h fun _ r => ∀ t, r = some t →
      ∃ sk, c.user.sk = some sk ∧ t = ⟨v, c.user, E.themis.wrap sk v.pk k⟩ := by
  refine (asks_getTokenForUser fun h' sk k' hs hsk hunw => ?_).mono fun h' r _ ht t htt => ?_
  · obtain rfl := htok.eq_of_unwrap hunw
    obtain ⟨hd, sk', hsk', rfl⟩ := htok
    simp only [Env.Wraps, hop]
    exact ⟨hsk, isUpdate, hd.mono hs, Or.inr (hgot.elim fun x hx => ⟨v.id, x, hpk, hx.mono hs⟩)⟩
  · obtain ⟨sk, k', hsk, hunw, rfl⟩ := ht t htt
    obtain rfl := htok.eq_of_unwrap hunw
    obtain ⟨-, sk', hsk', rfl⟩ := htok
    exact ⟨sk, hsk, rfl⟩

theorem asks_rotateRights {u : User} {b k kw : Bytes} {rt wt : Token} (hu : c.user = u)
    (hop : c.op = .rotateBlock b) (hrt : E.IsFresh h 0 u k rt) (hwt : E.IsFresh h 1 u kw wt)
    (rights : List RightsListNode) (hr : ∀ n ∈ rights, E.NodeOf h b n) :
    E.Asks c (midHermesLlBlockRotateRights rt wt rights) h fun h' r =>
      ∀ ns, r = (true, ns) → ∀ n ∈ ns, E.IsRotated h' u b k kw n := by
  subst hu
  induction rights generalizing h with
  | nil => exact fun ns hns n hn => by cases hns; simp at hn
  | cons n rights ih =>
    have hn := hr n List.mem_cons_self
    refine (asks_rewrapFresh hop hrt hn.pk_eq hn.rtoken).bind
      fun h₁ nrt hs₁ hnrt => ?_
    refine Prog.Within.bind (Q := fun _ r => ∀ t, r = some t → n.wtoken.isSome ∧
      ∃ sk, c.user.sk = some sk ∧ t = ⟨n.user, c.user, E.themis.wrap sk n.user.pk kw⟩) ?_
      fun h₂ nwt hs₂ hnwt => ?_
    · split_ifs with hw
      · -- the write token is renewed only for who had one
        refine (asks_rewrapFresh hop (hwt.mono hs₁) hn.pk_eq
          ((hn.wtoken hw).imp fun _ hx => hx.mono hs₁)).mono fun _ r _ ht t htt => ?_
        exact ⟨hw, ht t htt⟩
      · exact fun t ht => by cases ht
    · cases nrt with
      | none => exact fun ns hns => by cases hns
      | some nrt =>
        have hs₁₂ := hs₁.trans hs₂
        refine (ih (fun m hm => (hr m (List.mem_cons_of_mem _ hm)).mono hs₁₂) (hrt.mono hs₁₂)
          (hwt.mono hs₁₂)).bind fun h₃ r hs₃ hns => ?_
        obtain ⟨ok, ns'⟩ := r
        intro ns heq m hm
        cases heq
        rcases List.mem_cons.mp hm with rfl | hm
        · -- the first user's new tokens; what was known of the old ones is still in the history
          refine ⟨⟨hn.pk_eq, hn.rtoken.imp fun _ hx => hx.mono (hs₁₂.trans hs₃), fun hw => ?_⟩,
            hnrt nrt rfl, fun wt' hwt' => (hnwt wt' hwt').2⟩
          obtain ⟨t, ht⟩ := Option.isSome_iff_exists.mp hw
          exact (hn.wtoken (hnwt t ht).1).imp fun _ hx => hx.mono (hs₁₂.trans hs₃)
        · exact hns ns' rfl m hm

/-- A loaded block object under fresh keys, with the rights list under them: the content
and the old mac are those that were loaded, and the user itself has both tokens. -/
def Env.IsRotatedBlock (E : Env) (h : Hist) (u : User) (b : Bytes) (bl : Block)
    (ns : List RightsListNode) : Prop :=
  ∃ k kw k₀ d mt rt wt old, bl = ⟨u, some b, some (E.themis.encryptSeal k mt d), some d, some mt,
      some old, some (E.themis.hmac kw [d, mt]), some rt, some wt⟩ ∧
    E.IsFresh h 0 u k rt ∧ E.IsFresh h 1 u kw wt ∧ E.Loaded h u b k₀ d mt ∧
    E.LoadedMac h u b old ∧ (∃ x, GotToken h true b u.id x) ∧ ∀ n ∈ ns, E.IsRotated h u b k kw n

theorem asks_rotate {u : User} {b : Bytes} {bl : Block} (hu : c.user = u)
    (hop : c.op = .rotateBlock b) (hbl : E.IsLoaded h u b bl) (hh : draws h = 0)
    (rights : List RightsListNode) (hr : ∀ n ∈ rights, E.NodeOf h b n) :
    E.Asks c (midHermesLlBlockRotate bl rights) h fun h' r =>
      ∀ bl' ns, r = (true, bl', ns) → E.IsRotatedBlock h' u b bl' ns := by
  have hkeys := asks_rotateKeys hu hop hbl hh
  obtain ⟨x₀, k₀, d, mt, rt₀, wt₀, mac₀, rfl, hrt₀, hld, hmac₀⟩ := hbl
  cases wt₀ with
  | none => exact fun bl' ns heq => by cases heq
  | some wt₀ =>
    obtain ⟨kw₀, hwt₀, rfl⟩ := hmac₀
    refine hkeys.bind fun h₁ r hs₁ hr₁ => ?_
    rcases r with _ | ⟨rt, wt, x, mac⟩
    · exact fun bl' ns heq => by cases heq
    · obtain ⟨k, kw, d', mt', hrt, hwt, hd, hmt, hv⟩ := hr₁ rt wt x mac rfl
      cases hd
      cases hmt
      refine (asks_rotateRights hu hop hrt hwt rights fun n hn => (hr n hn).mono hs₁).bind
        fun h₂ r hs₂ hns => ?_
      obtain ⟨ok, ns⟩ := r
      intro bl' ns' heq
      cases heq
      have hs := hs₁.trans hs₂
      obtain ⟨rfl, rfl⟩ := hv
      exact ⟨k, kw, k₀, d, mt, rt, wt, E.themis.hmac kw₀ [d, mt], rfl, hrt.mono hs₂,
        hwt.mono hs₂, hld.mono hs, ⟨k₀, kw₀, d, mt, hld.mono hs, (hwt₀.mono hs).keyOf, rfl⟩,
        ⟨_, hwt₀.user_eq ▸ hwt₀.held.got.mono hs⟩, hns ns rfl⟩

/-! ### Tokens for other users -/

/-- A loaded token, wrapped for another user. -/
theorem asks_rewrap {u v : User} {b k : Bytes} {isUpdate : Bool} {tok : Token}
    (ht : E.OwnToken h isUpdate u b k tok)
    (hJ : ∀ h' sk, h <:+ h' → u.sk = some sk → E.Wraps c h' sk v.pk k) :
    E.Asks c (midHermesLlTokenGetTokenForUser tok v) h fun h' r => ∀ t, r = some t →
      E.KeyOf h' isUpdate u b k ∧
        ∃ sk, u.sk = some sk ∧ t = ⟨v, u, E.themis.wrap sk v.pk k⟩ := by
  refine (asks_getTokenForUser fun h' sk k' hs hsk hunw => ?_).mono fun h' r hs hr t htt => ?_
  · obtain rfl := ht.eq_of_unwrap hsk hunw
    exact hJ h' sk hs (ht.user_eq ▸ hsk)
  · obtain ⟨sk, k', hsk, hunw, rfl⟩ := hr t htt
    obtain rfl := ht.eq_of_unwrap hsk hunw
    exact ⟨(ht.mono hs).keyOf, sk, ht.user_eq ▸ hsk, by rw [ht.user_eq]⟩

theorem asks_rtokenFor {u v : User} {b : Bytes} {bl : Block} (hbl : E.IsLoaded h u b bl)
    (hJ : ∀ h' sk k, u.sk = some sk → E.KeyOf h' false u b k → E.Wraps c h' sk v.pk k) :
    E.Asks c (midHermesLlBlockRtokenFor bl v) h fun h' r => ∀ t, r = some t →
      ∃ sk k, E.KeyOf h' false u b k ∧ u.sk = some sk ∧ t = ⟨v, u, E.themis.wrap sk v.pk k⟩ := by
  obtain ⟨x₀, k, d, mt, rt, wt, mac, rfl, hrt, -, -⟩ := hbl
  refine (asks_rewrap hrt fun h' sk hs hsk => hJ h' sk k hsk (hrt.mono hs).keyOf).mono ?_
  intro h' r _ hr t htt
  obtain ⟨hk, sk, hsk, ht⟩ := hr t htt
  exact ⟨sk, k, hk, hsk, ht⟩

theorem asks_wtokenFor {u v : User} {b : Bytes} {bl : Block} (hbl : E.IsLoaded h u b bl)
    (hJ : ∀ h' sk k, u.sk = some sk → E.KeyOf h' true u b k → E.Wraps c h' sk v.pk k) :
    E.Asks c (midHermesLlBlockWtokenFor bl v) h fun h' r => ∀ t, r = some t →
      ∃ sk k, E.KeyOf h' true u b k ∧ u.sk = some sk ∧ t = ⟨v, u, E.themis.wrap sk v.pk k⟩ := by
  obtain ⟨x₀, k₀, d, mt, rt, wt, mac, rfl, -, -, hmac⟩ := hbl
  cases wt with
  | none => exact fun t ht => by cases ht
  | some wt =>
    obtain ⟨k, hwt, rfl⟩ := hmac
    refine (asks_rewrap hwt fun h' sk hs hsk => hJ h' sk k hsk (hwt.mono hs).keyOf).mono ?_
    intro h' r _ hr t htt
    obtain ⟨hk, sk, hsk, ht⟩ := hr t htt
    exact ⟨sk, k, hk, hsk, ht⟩

end Hermes

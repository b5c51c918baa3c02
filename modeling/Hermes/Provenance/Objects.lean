import Hermes.Provenance.Facts

/-!
# What the objects of a client are made of

The functions below an operation, each with the exchanges it leaves behind and what they
say of its result: a token that was loaded, a key that was opened, a block object that
was loaded or made, the tokens of a rights list.

A statement `E.Asks c p h Q` says of a part `p` of the call `c`, reached with the history
`h`, that its requests are justified and its result satisfies `Q`. The statements
`Only` say which kinds of requests a function issues at all.
-/

namespace Hermes

open Interleave

/-- After the history `h`, the program `p` of the call `c` issues justified requests only,
and what it returns satisfies `Q`. -/
abbrev Env.Asks (E : Env) {α : Type} (c : Call) (p : Client α) (h : Hist) (Q : Hist → α → Prop) :
    Prop :=
  p.Within E.Sound (E.Justified c) Q h

/-! ### The kinds of requests -/

section Kinds

variable {C : Req → Prop}

/-- A history of one kind stays so through a program with no other requests. -/
theorem Env.Asks.all {E : Env} {α : Type} {c : Call} {p : Client α} {h : Hist}
    {Q : Hist → α → Prop} (hp : E.Asks c p h Q) (hC : p.Only C) (hh : ∀ e ∈ h, C e.1) :
    E.Asks c p h fun h' a => Q h' a ∧ ∀ e ∈ h', C e.1 := by
  refine (hp.only hC).mono ?_
  rintro h' a - ⟨hq, l, rfl, hl⟩
  exact ⟨hq, fun e he => (List.mem_append.mp he).elim (hl e) (hh e)⟩

/-- A program that draws nothing leaves the number of draws alone. -/
theorem Env.Asks.draws_eq {E : Env} {α : Type} {c : Call} {p : Client α} {h : Hist}
    {Q : Hist → α → Prop} (hp : E.Asks c p h Q) (hC : p.Only fun r => ¬r.IsRand) :
    E.Asks c p h fun h' a => Q h' a ∧ draws h' = draws h := by
  refine (hp.only hC).mono ?_
  rintro h' a - ⟨hq, l, rfl, hl⟩
  exact ⟨hq, by rw [draws_append, draws_eq_zero hl, Nat.zero_add]⟩

theorem getToken_only {isUpdate : Bool} {u b : Bytes} (hr : C (.ks (.getRtoken b u)))
    (hw : C (.ks (.getWtoken b u))) : (hermesKeyStoreGetToken isUpdate u b).Only C := by
  unfold hermesKeyStoreGetToken
  split_ifs
  · trivial
  · exact ⟨hw, fun _ => trivial⟩
  · exact ⟨hr, fun _ => trivial⟩

theorem setRtoken_only {u b t o : Bytes} (hset : t ≠ [] → C (.ks (.setRtoken b u o t)))
    (hdel : t = [] → C (.ks (.delRtoken b u o))) : (hermesKeyStoreSetRtoken u b t o).Only C := by
  unfold hermesKeyStoreSetRtoken
  split_ifs with _ ht
  · trivial
  · exact ⟨hset ht, fun _ => trivial⟩
  · exact ⟨hdel (not_not.mp ht), fun _ => trivial⟩

theorem setWtoken_only {u b t o : Bytes} (hset : t ≠ [] → C (.ks (.setWtoken b u o t)))
    (hdel : t = [] → C (.ks (.delWtoken b u o))) : (hermesKeyStoreSetWtoken u b t o).Only C := by
  unfold hermesKeyStoreSetWtoken
  split_ifs with _ ht
  · trivial
  · exact ⟨hset ht, fun _ => trivial⟩
  · exact ⟨hdel (not_not.mp ht), fun _ => trivial⟩

theorem getPublicKey_only {u : Bytes} (hc : ∀ id, C (.getPubKeyById id)) :
    (hermesCredentialStoreGetPublicKey u).Only C := by
  unfold hermesCredentialStoreGetPublicKey
  split_ifs
  · trivial
  · exact ⟨hc _, fun _ => trivial⟩

theorem userLoad_only {u : Bytes} (hc : ∀ id, C (.getPubKeyById id)) :
    (midHermesLlUserLoad u).Only C := by
  refine Prog.Only.bind (getPublicKey_only hc) fun r => ?_
  cases r <;> trivial

theorem userLoadC_only {u : Bytes} (hc : ∀ id, C (.getPubKeyById id)) :
    (midHermesLlUserLoadC u).Only C := by
  unfold midHermesLlUserLoadC
  split_ifs
  · trivial
  · exact userLoad_only hc

/-- Requests of this kind may read the tokens of the block. -/
structure ReadsTokens (C : Req → Prop) (b : Bytes) : Prop where
  rtoken : ∀ u, C (.ks (.getRtoken b u))
  wtoken : ∀ u, C (.ks (.getWtoken b u))
  indexed : ∀ n, C (.ks (.getIndexedRights b n))

theorem ReadsTokens.of_ks (hk : ∀ r, C (.ks r)) (b : Bytes) : ReadsTokens C b :=
  ⟨fun _ => hk _, fun _ => hk _, fun _ => hk _⟩

theorem tokenLoadC_only {isUpdate : Bool} {u b : Bytes} (hb : ReadsTokens C b)
    (hc : ∀ id, C (.getPubKeyById id)) : (midHermesLlTokenLoadC u b isUpdate).Only C := by
  unfold midHermesLlTokenLoadC
  split_ifs
  · trivial
  · refine Prog.Only.bind (getToken_only (hb.rtoken u) (hb.wtoken u)) fun r => ?_
    rcases r with _ | ⟨t, o⟩
    · trivial
    · refine Prog.Only.bind (userLoadC_only hc) fun r => ?_
      cases r with
      | none => trivial
      | some user =>
        refine Prog.Only.bind (userLoad_only hc) fun r => ?_
        cases r <;> trivial

theorem tokenLoad_only {isUpdate : Bool} {user : User} {b : Bytes}
    (hr : C (.ks (.getRtoken b user.id))) (hw : C (.ks (.getWtoken b user.id)))
    (hc : ∀ id, C (.getPubKeyById id)) : (midHermesLlTokenLoad user b isUpdate).Only C := by
  refine Prog.Only.bind (getToken_only hr hw) fun r => ?_
  rcases r with _ | ⟨t, o⟩
  · trivial
  · refine Prog.Only.bind (getPublicKey_only hc) fun r => ?_
    rcases r with _ | pk
    · trivial
    · dsimp only
      cases midHermesLlUserCreate o pk <;> trivial

theorem accessRightsNode_only {bl : Block} {b u : Bytes} {rights : List RightsListNode}
    (hb : ReadsTokens C b) (hc : ∀ id, C (.getPubKeyById id)) :
    (midHermesLlBlockAccessRightsNode bl b u rights).Only C := by
  refine Prog.Only.bind (userLoadC_only hc) fun user => ?_
  split_ifs
  · trivial
  · refine Prog.Only.bind (tokenLoadC_only hb hc) fun rtoken => ?_
    refine Prog.Only.bind (tokenLoadC_only hb hc) fun wtoken => ?_
    cases user <;> cases rtoken <;> trivial

theorem accessRightsLoop_only {bl : Block} {b : Bytes} (hb : ReadsTokens C b)
    (hc : ∀ id, C (.getPubKeyById id)) (fuel : ℕ) (i : KeyStoreIterator) (hi : i.blockId = b)
    (rights : List RightsListNode) :
    (midHermesLlBlockAccessRightsLoop bl b fuel i rights).Only C := by
  induction fuel generalizing i rights with
  | zero => trivial
  | succ fuel ih =>
    refine Prog.Only.bind (accessRightsNode_only hb hc) fun r => ?_
    cases r with
    | none => trivial
    | some rights =>
      -- the iterator that comes next is one of the same block
      refine ⟨hi ▸ hb.indexed _, fun a => ?_⟩
      cases a with
      | error _ => trivial
      | ok x => exact ih ⟨i.blockId, x.1, x.2, i.currentIndex + 1⟩ hi rights

theorem accessRights_only {bl : Block} {fuel : ℕ} (hb : ∀ b, bl.id = some b → ReadsTokens C b)
    (hc : ∀ id, C (.getPubKeyById id)) : (midHermesLlBlockAccessRights fuel bl).Only C := by
  unfold midHermesLlBlockAccessRights
  split
  · next b mac hid hmac =>
    have hb := hb b hid
    unfold hermesKeyStoreIteratorCreate
    split_ifs
    · trivial
    · refine ⟨hb.indexed 0, fun a => ?_⟩
      cases a with
      | error _ => trivial
      | ok x => exact accessRightsLoop_only hb hc fuel ⟨b, x.1, x.2, 0⟩ rfl []
  · trivial

theorem encrypt_only {k d mt : Bytes} (hC : C (.themis (.encryptSeal k mt d))) :
    (hmEncrypt k d mt).Only C := by
  unfold hmEncrypt
  split_ifs
  · trivial
  · exact ⟨hC, fun _ => trivial⟩

theorem decrypt_only {k x mt : Bytes} (hC : C (.themis (.decryptSeal k mt x))) :
    (hmDecrypt k x mt).Only C := by
  unfold hmDecrypt
  split_ifs
  · trivial
  · exact ⟨hC, fun _ => trivial⟩

theorem macCreate_only {k d mt : Bytes} (hC : C (.themis (.hmac k [d, mt]))) :
    (hmMacCreate k d mt).Only C := by
  unfold hmMacCreate
  split_ifs
  · trivial
  · exact ⟨hC, fun _ => trivial⟩

theorem asymEncrypt_only {sk pk k : Bytes} (hC : C (.themis (.wrap sk pk k))) :
    (hmAsymEncrypt sk pk k).Only C := by
  unfold hmAsymEncrypt
  split_ifs
  · trivial
  · exact ⟨hC, fun _ => trivial⟩

/-- The calls that open tokens are of the kind `C`. -/
structure OpensTokens (C : Req → Prop) : Prop where
  size : ∀ sk pk x, C (.themis (.unwrapSize sk pk x))
  message : ∀ sk pk x, C (.themis (.unwrap sk pk x))

theorem OpensTokens.of_themis (hC : ∀ r, C (.themis r)) : OpensTokens C :=
  ⟨fun _ _ _ => hC _, fun _ _ _ => hC _⟩

theorem opensTokens_isThemis : OpensTokens Req.IsThemis := .of_themis fun _ => trivial

theorem asymDecrypt_only {sk pk x : Bytes} (hC : OpensTokens C) :
    (hmAsymDecrypt sk pk x).Only C := by
  unfold hmAsymDecrypt
  split_ifs
  · trivial
  · refine ⟨hC.size _ _ _, fun size => ?_⟩
    cases size with
    | none => trivial
    | some n =>
      refine ⟨hC.message _ _ _, fun a => ?_⟩
      cases a with
      | some _ => trivial
      | none =>
        dsimp only
        split_ifs <;> trivial

theorem generate_only {u : User} (hr : C (.themis .rand))
    (hC : ∀ sk pk k, C (.themis (.wrap sk pk k))) : (midHermesLlTokenGenerate u).Only C := by
  refine ⟨hr, fun a => ?_⟩
  cases a with
  | none => trivial
  | some key =>
    cases u.sk with
    | none => trivial
    | some sk =>
      refine Prog.Only.bind (asymEncrypt_only (hC _ _ _)) fun r => ?_
      cases r <;> trivial

theorem getData_only {token : Token} (hC : OpensTokens C) :
    (midHermesLlTokenGetData token).Only C := by
  unfold midHermesLlTokenGetData
  split
  · trivial
  · refine Prog.Only.bind (asymDecrypt_only hC) fun r => ?_
    cases r <;> trivial

theorem getTokenForUser_only (hu : OpensTokens C)
    (hw : ∀ sk pk k, C (.themis (.wrap sk pk k))) (token : Token) (forUser : User) :
    (midHermesLlTokenGetTokenForUser token forUser).Only C := by
  refine Prog.Only.bind (getData_only hu) fun r => ?_
  cases r with
  | none => trivial
  | some key =>
    dsimp only
    cases token.user.sk with
    | none => trivial
    | some sk =>
      refine Prog.Only.bind (asymEncrypt_only (hw _ _ _)) fun r => ?_
      cases r <;> trivial

end Kinds

/-! ### Keys, users and tokens -/

section Tokens

variable {E : Env} {c : Call} {h : Hist}

theorem asks_getPublicKey (id : Bytes) :
    E.Asks c (hermesCredentialStoreGetPublicKey id) h fun _ r =>
      ∀ pk, r = .ok pk → E.credentials id = some pk := by
  unfold hermesCredentialStoreGetPublicKey
  split_ifs
  · exact fun pk hpk => by cases hpk
  · refine ⟨trivial, fun a ha pk hpk => ?_⟩
    subst hpk
    exact ha

theorem userCreate_eq_some {id pk : Bytes} {v : User} (hv : midHermesLlUserCreate id pk = some v) :
    v.id = id ∧ v.pk = pk ∧ v.sk = none := by
  unfold midHermesLlUserCreate at hv
  split_ifs at hv
  cases hv
  exact ⟨rfl, rfl, rfl⟩

theorem asks_userLoad (id : Bytes) :
    E.Asks c (midHermesLlUserLoad id) h fun _ r =>
      ∀ v, r = some v → v.id = id ∧ E.credentials id = some v.pk := by
  refine (asks_getPublicKey id).bind fun h' r hs hr => ?_
  cases r with
  | error _ => exact fun v hv => by cases hv
  | ok pk =>
    intro v hv
    obtain ⟨hid, hpk, -⟩ := userCreate_eq_some hv
    exact ⟨hid, hpk ▸ hr pk rfl⟩

theorem asks_userLoadC (id : Bytes) :
    E.Asks c (midHermesLlUserLoadC id) h fun _ r =>
      ∀ v, r = some v → v.id = id ∧ E.credentials id = some v.pk := by
  unfold midHermesLlUserLoadC
  split_ifs
  · exact fun v hv => by cases hv
  · exact asks_userLoad id

theorem asks_getToken (isUpdate : Bool) (u b : Bytes) :
    E.Asks c (hermesKeyStoreGetToken isUpdate u b) h fun h' r =>
      ∀ x, r = .ok x → GotToken h' isUpdate b u x := by
  unfold hermesKeyStoreGetToken
  split_ifs with _ hu
  · exact fun x hx => by cases hx
  · subst hu
    refine ⟨trivial, fun a _ x hx => ?_⟩
    subst hx
    exact got_head
  · obtain rfl : isUpdate = false := by simpa using hu
    refine ⟨trivial, fun a _ x hx => ?_⟩
    subst hx
    exact got_head

/-- A token the key store gave, with its user and its owner as the credential store knows
them. -/
structure Env.Held (E : Env) (h : Hist) (isUpdate : Bool) (b : Bytes) (tok : Token) : Prop where
  got : GotToken h isUpdate b tok.user.id (tok.token, tok.owner.id)
  owner_pk : E.credentials tok.owner.id = some tok.owner.pk

theorem Env.Held.mono {h' : Hist} {isUpdate : Bool} {b : Bytes} {tok : Token}
    (ht : E.Held h isUpdate b tok) (hs : h <:+ h') : E.Held h' isUpdate b tok :=
  ⟨ht.got.mono hs, ht.owner_pk⟩

theorem asks_tokenLoadC (u b : Bytes) (isUpdate : Bool) :
    E.Asks c (midHermesLlTokenLoadC u b isUpdate) h fun h' r =>
      ∀ tok, r = some tok → E.Held h' isUpdate b tok ∧ tok.user.id = u := by
  unfold midHermesLlTokenLoadC
  split_ifs
  · exact fun tok ht => by cases ht
  · refine (asks_getToken isUpdate u b).bind fun h₁ r _ hr => ?_
    rcases r with _ | ⟨t, o⟩
    · exact fun tok ht => by cases ht
    · refine (asks_userLoadC u).bind fun h₂ r hs₂ hu => ?_
      cases r with
      | none => exact fun tok ht => by cases ht
      | some user =>
        refine (asks_userLoad o).bind fun h₃ r hs₃ ho => ?_
        cases r with
        | none => exact fun tok ht => by cases ht
        | some owner =>
          intro tok ht
          cases ht
          obtain ⟨hid, -⟩ := hu user rfl
          obtain ⟨rfl, hpk⟩ := ho owner rfl
          refine ⟨⟨?_, hpk⟩, hid⟩
          show GotToken h₃ isUpdate b user.id (t, owner.id)
          rw [hid]
          exact ((hr _ rfl).mono hs₂).mono hs₃

theorem asks_tokenLoad (user : User) (b : Bytes) (isUpdate : Bool) :
    E.Asks c (midHermesLlTokenLoad user b isUpdate) h fun h' r =>
      ∀ tok, r = some tok → E.Held h' isUpdate b tok ∧ tok.user = user := by
  refine (asks_getToken isUpdate user.id b).bind fun h₁ r _ hr => ?_
  rcases r with _ | ⟨t, o⟩
  · exact fun tok ht => by cases ht
  · refine (asks_getPublicKey o).bind fun h₂ r hs₂ ho => ?_
    cases r with
    | error _ => exact fun tok ht => by cases ht
    | ok pk =>
      cases hv : midHermesLlUserCreate o pk with
      | none => simp [hv]
      | some owner =>
        obtain ⟨rfl, rfl, -⟩ := userCreate_eq_some hv
        simp only [hv]
        intro tok ht
        cases ht
        exact ⟨⟨(hr _ rfl).mono hs₂, ho _ rfl⟩, rfl⟩

theorem asks_asymDecrypt (sk pk x : Bytes) :
    E.Asks c (hmAsymDecrypt sk pk x) h fun _ r =>
      ∀ k, r = .ok k → E.themis.unwrap sk pk x = some k := by
  unfold hmAsymDecrypt
  split_ifs
  · exact fun k hk => by cases hk
  · refine ⟨trivial, fun size _ => ?_⟩
    cases size with
    | none => exact fun k hk => by cases hk
    | some n =>
      refine ⟨trivial, fun a ha => ?_⟩
      cases a with
      | some k' => exact fun k hk => by cases hk; exact ha
      | none =>
        dsimp only
        split_ifs
        · exact fun k hk => by cases hk
        · trivial

theorem asks_getData (token : Token) :
    E.Asks c (midHermesLlTokenGetData token) h fun _ r => ∀ k, r = some k →
      ∃ sk, token.user.sk = some sk ∧ E.themis.unwrap sk token.owner.pk token.token = some k := by
  unfold midHermesLlTokenGetData
  split
  · trivial
  · next sk hsk =>
    refine (asks_asymDecrypt sk token.owner.pk token.token).bind fun h' r _ hr => ?_
    cases r with
    | error _ => exact fun k hk => by cases hk
    | ok k =>
      intro k' hk
      cases hk
      exact ⟨sk, hsk, hr k rfl⟩

/-- What a loaded token opens to is a key of its user. -/
theorem Env.Held.opens {isUpdate : Bool} {b : Bytes} {tok : Token} {sk k : Bytes}
    (ht : E.Held h isUpdate b tok) (hsk : tok.user.sk = some sk)
    (hk : E.themis.unwrap sk tok.owner.pk tok.token = some k) :
    E.Opens tok.user (tok.token, tok.owner.id) k :=
  ⟨sk, tok.owner.pk, hsk, ht.owner_pk, hk⟩

theorem asks_asymEncrypt {sk pk k : Bytes} (hJ : E.Wraps c h sk pk k) :
    E.Asks c (hmAsymEncrypt sk pk k) h fun _ r =>
      ∀ x, r = .ok x → x = E.themis.wrap sk pk k := by
  unfold hmAsymEncrypt
  split_ifs
  · exact fun x hx => by cases hx
  · refine ⟨hJ, fun a ha x hx => ?_⟩
    cases a with
    | none => cases hx
    | some x' => cases hx; exact ha

theorem asks_encrypt {k d mt : Bytes} (hJ : E.Seals c h k mt d) :
    E.Asks c (hmEncrypt k d mt) h fun _ r =>
      ∀ x, r = .ok x → x = E.themis.encryptSeal k mt d := by
  unfold hmEncrypt
  split_ifs
  · exact fun x hx => by cases hx
  · refine ⟨hJ, fun a ha x hx => ?_⟩
    cases a with
    | none => cases hx
    | some x' => cases hx; exact ha

theorem asks_decrypt {k x mt : Bytes} (hJ : E.OpensBlock c h k mt x) :
    E.Asks c (hmDecrypt k x mt) h fun h' r =>
      ∀ d, r = .ok d → Got h' (.themis (.decryptSeal k mt x)) (some d) := by
  unfold hmDecrypt
  split_ifs
  · exact fun d hd => by cases hd
  · refine ⟨hJ, fun a _ d hd => ?_⟩
    cases a with
    | none => cases hd
    | some d' => cases hd; exact got_head

theorem asks_macCreate (k d mt : Bytes) :
    E.Asks c (hmMacCreate k d mt) h fun _ r =>
      ∀ x, r = .ok x → x = E.themis.hmac k [d, mt] := by
  unfold hmMacCreate
  split_ifs
  · exact fun x hx => by cases hx
  · refine ⟨trivial, fun a ha x hx => ?_⟩
    cases a with
    | none => cases hx
    | some x' => cases hx; exact ha

/-- A fresh token: the user's own key, drawn after `n` others. -/
def Env.IsFresh (E : Env) (h : Hist) (n : ℕ) (u : User) (k : Bytes) (tok : Token) : Prop :=
  Drew h n k ∧ ∃ sk, u.sk = some sk ∧ tok = ⟨u, u, E.themis.wrap sk u.pk k⟩

theorem Env.IsFresh.mono {h' : Hist} {n : ℕ} {u : User} {k : Bytes} {tok : Token}
    (ht : E.IsFresh h n u k tok) (hs : h <:+ h') : E.IsFresh h' n u k tok :=
  ⟨ht.1.mono hs, ht.2⟩

/-- A fresh token opens to the key that was drawn. -/
theorem Env.IsFresh.eq_of_unwrap {n : ℕ} {u : User} {k k' sk : Bytes} {tok : Token}
    (ht : E.IsFresh h n u k tok) (hk : E.themis.unwrap sk tok.owner.pk tok.token = some k') :
    k' = k := by
  obtain ⟨-, sk', -, rfl⟩ := ht
  exact E.themis.unwrap_wrap_eq hk

theorem asks_generate {u : User} {n : ℕ} (hn : draws h = n)
    (hJ : ∀ h' sk k, h <:+ h' → u.sk = some sk → Drew h' n k → E.Wraps c h' sk u.pk k) :
    E.Asks c (midHermesLlTokenGenerate u) h fun h' r =>
      draws h' = n + 1 ∧ ∀ tok, r = some tok → ∃ k, E.IsFresh h' n u k tok := by
  refine ⟨trivial, fun a _ => ?_⟩
  have hn' : draws (⟨.themis .rand, a⟩ :: h) = n + 1 := by rw [draws_cons_rand, hn]
  cases a with
  | none => exact ⟨hn', fun tok ht => by cases ht⟩
  | some key =>
    have hd : Drew (⟨.themis .rand, some key⟩ :: h) n key.val := ⟨[], h, key, rfl, hn, rfl⟩
    cases hsk : u.sk with
    | none => trivial
    | some sk =>
      have hw := asks_asymEncrypt (c := c) (hJ _ sk _ (List.suffix_cons _ _) hsk hd)
      refine (hw.draws_eq (asymEncrypt_only id)).bind fun h₂ r hs₂ hr => ?_
      cases r with
      | error _ => exact ⟨hr.2.trans hn', fun tok ht => by cases ht⟩
      | ok x =>
        refine ⟨hr.2.trans hn', fun tok ht => ⟨key.val, hd.mono hs₂, sk, hsk, ?_⟩⟩
        cases ht
        rw [hr.1 x rfl]

theorem asks_getTokenForUser {token : Token} {v : User}
    (hJ : ∀ h' sk k, h <:+ h' → token.user.sk = some sk →
      E.themis.unwrap sk token.owner.pk token.token = some k → E.Wraps c h' sk v.pk k) :
    E.Asks c (midHermesLlTokenGetTokenForUser token v) h fun _ r => ∀ tok, r = some tok →
      ∃ sk k, token.user.sk = some sk ∧
        E.themis.unwrap sk token.owner.pk token.token = some k ∧
        tok = ⟨v, token.user, E.themis.wrap sk v.pk k⟩ := by
  refine (asks_getData token).bind fun h₁ r hs₁ hr => ?_
  cases r with
  | none => exact fun tok ht => by cases ht
  | some k =>
    obtain ⟨sk, hsk, hk⟩ := hr k rfl
    simp only [hsk]
    refine (asks_asymEncrypt (hJ h₁ sk k hs₁ hsk hk)).bind fun h₂ r _ hx => ?_
    cases r with
    | error _ => exact fun tok ht => by cases ht
    | ok x =>
      intro tok ht
      cases ht
      exact ⟨sk, k, rfl, hk, by rw [hx x rfl]⟩

end Tokens

end Hermes

import Mathlib.Logic.Relation
import Hermes.RotationFaults

/-!
# Coherent block objects

A block object holds its content three times, open, sealed and authenticated, and two tokens
whose keys should be those of the seal and of the mac (`Hermes.Env.Coherent`). There are three
ways to get one (`Hermes.Construction`) and two to change it (`Hermes.Env.Changes`), each of
them a program in which any call may fail.

Every successful update and rotation leaves a coherent object, and so does every construction
but one: a block created without a read token and with a write token gets its mac from the
token it is given, and keeps the one that was generated
(`Hermes.Env.construction_coherent_iff`).
-/

namespace Hermes

open Interleave

/-- How a caller gets a block object. -/
inductive Construction where
  /-- `mid_hermes_ll_block_create` -/
  | create (user : User) (id : Option Bytes) (block metadata : Bytes)
      (readToken writeToken : Option Token)
  /-- `mid_hermes_ll_block_create_new` -/
  | createNew (user : Option User) (id blockData metadata : Option Bytes)
      (readToken writeToken : Option Token)
  /-- `mid_hermes_ll_block_load`, of an object that is there. -/
  | load (bl : Block) (id : Bytes)

/-- The program of a construction. -/
def Construction.program : Construction → Client (Option Block)
  | .create user id block metadata readToken writeToken =>
    midHermesLlBlockCreate user id block metadata readToken writeToken
  | .createNew user id blockData metadata readToken writeToken =>
    midHermesLlBlockCreateNew user id blockData metadata readToken writeToken
  | .load bl id => midHermesLlBlockLoad bl id

namespace Env

variable (E : Env)

/-- The key in a token, for its user in its own process. -/
def OpensTo (t : Token) (k : Bytes) : Prop :=
  ∃ sk, t.user.sk = some sk ∧ E.themis.unwrap sk t.owner.pk t.token = some k

/-- **The object is coherent**: its encrypted block unseals to its data, under the key of its
read token and with its meta; and if it has a write token, its mac is made with the key of that
token. -/
def Coherent (bl : Block) : Prop :=
  ∃ rt k blk d mt, (bl.rtoken = some rt ∧ bl.block = some blk ∧ bl.data = some d ∧
      bl.metadata = some mt) ∧
    E.OpensTo rt k ∧ E.themis.decryptSeal k mt blk = some d ∧
    ∀ wt, bl.wtoken = some wt → ∃ kw, E.OpensTo wt kw ∧ bl.mac = some (E.themis.hmac kw [d, mt])

/-- The object becomes another one by an update or a rotation that succeeds, whatever fails on
the way. -/
inductive Changes (bl bl' : Block) : Prop where
  /-- `mid_hermes_ll_block_update` -/
  | update (data metadata : Bytes) (fails : ℕ → Bool) (s s' : World × ℕ)
      (h : (midHermesLlBlockUpdate bl data metadata).run (E.faulty fails) s = (.ok (some bl'), s'))
  /-- `mid_hermes_ll_block_rotate` -/
  | rotate (rights rights' : List RightsListNode) (fails : ℕ → Bool) (s s' : World × ℕ)
      (h : (midHermesLlBlockRotate bl rights).run (E.faulty fails) s =
        (.ok (true, bl', rights'), s'))

/-- The second value that is drawn is the key in the token. -/
def DrawsKeyOf (w : World) (t : Token) : Prop := E.OpensTo t (w.rands 1).val

/-- The mac of the new object will not be that of its write token: a block is created without
a read token, with a write token of another key than the one that is generated. -/
def Mismatched (w : World) : Construction → Prop
  | .create _ _ _ _ none (some wt) => ¬E.DrawsKeyOf w wt
  | _ => False

variable {E} {fails : ℕ → Bool} {w : World} {n : ℕ} {s s' : World × ℕ} {k x d mt : Bytes}

theorem OpensTo.unique {t : Token} {k' : Bytes} (h : E.OpensTo t k) (h' : E.OpensTo t k') :
    k = k' := by
  obtain ⟨sk, hsk, hun⟩ := h
  obtain ⟨sk', hsk', hun'⟩ := h'
  cases hsk.symm.trans hsk'
  exact Option.some.inj (hun.symm.trans hun')

/-- An object with two tokens is coherent if everything in it is made with their keys. -/
theorem coherent_of_keys {bl : Block} {rt wt : Token} {kw : Bytes}
    (htokens : bl.rtoken = some rt ∧ bl.wtoken = some wt)
    (hkeys : E.OpensTo rt k ∧ E.OpensTo wt kw)
    (hdata : bl.data = some d ∧ bl.metadata = some mt)
    (hmade : bl.block = some (E.themis.encryptSeal k mt d) ∧
      bl.mac = some (E.themis.hmac kw [d, mt])) : E.Coherent bl := by
  refine ⟨rt, k, _, d, mt, ⟨htokens.1, hmade.1, hdata⟩, hkeys.1,
    E.themis.decryptSeal_encryptSeal _ _ _, fun wt' hwt' => ?_⟩
  cases htokens.2.symm.trans hwt'
  exact ⟨kw, hkeys.2, hmade.2⟩

/-! ### What a successful call tells -/

theorem opensTo_of_getData {t : Token}
    (h : (midHermesLlTokenGetData t).run (E.faulty fails) s = (.ok (some k), s')) :
    E.OpensTo t k := by
  obtain ⟨sk, hsk, -, -, hun, -⟩ := getData_eq_some.mp h
  exact ⟨sk, hsk.2, hun⟩

/-- A call into the cryptography fails, or is answered. -/
theorem themis_cases {α : Type} {r : ThemisReq} {f : r.Answer → Client α} {a : Except Stop α}
    (h : (Prog.req (.themis r) f).run (E.faulty fails) s = (a, s')) :
    (∃ s₁, (f ((Req.themis r).failed .fail)).run (E.faulty fails) s₁ = (a, s')) ∨
      ∃ s₁, (f (serveThemis E.themis s.1.rands r)).run (E.faulty fails) s₁ = (a, s') := by
  rw [Prog.run_req, faulty_themis] at h
  cases hf : fails s.2 with
  | true =>
    rw [hf] at h
    exact Or.inl ⟨_, h⟩
  | false =>
    rw [hf] at h
    exact Or.inr ⟨_, h⟩

theorem encrypt_eq_ok (h : (hmEncrypt k d mt).run (E.faulty fails) s = (.ok (.ok x), s')) :
    d ≠ [] ∧ x = E.themis.encryptSeal k mt d := by
  unfold hmEncrypt at h
  split_ifs at h with hne
  · cases h
  · rcases themis_cases h with ⟨s₁, h⟩ | ⟨s₁, h⟩
    · cases h
    · cases h
      exact ⟨fun hd => hne (Or.inr hd), rfl⟩

theorem decrypt_eq_ok (h : (hmDecrypt k x mt).run (E.faulty fails) s = (.ok (.ok d), s')) :
    E.themis.decryptSeal k mt x = some d := by
  unfold hmDecrypt at h
  split_ifs at h
  · cases h
  · rcases themis_cases h with ⟨s₁, h⟩ | ⟨s₁, h⟩
    · cases h
    · simp only [serveThemis] at h
      cases hd : E.themis.decryptSeal k mt x with
      | none =>
        rw [hd] at h
        cases h
      | some d' =>
        rw [hd] at h
        cases h
        rfl

theorem macCreate_eq_ok (h : (hmMacCreate k d mt).run (E.faulty fails) s = (.ok (.ok x), s')) :
    x = E.themis.hmac k [d, mt] := by
  unfold hmMacCreate at h
  split_ifs at h
  · cases h
  · rcases themis_cases h with ⟨s₁, h⟩ | ⟨s₁, h⟩
    · cases h
    · cases h
      rfl

/-! ### Changing an object -/

/-- **A successful update leaves a coherent object**, whatever it was before. -/
theorem coherent_of_update {bl bl' : Block}
    (h : (midHermesLlBlockUpdate bl d mt).run (E.faulty fails) s = (.ok (some bl'), s')) :
    E.Coherent bl' := by
  unfold midHermesLlBlockUpdate at h
  match hrt : bl.rtoken, hwt : bl.wtoken, h with
  | some rt, some wt, h =>
    obtain ⟨k, s₁, hk, h⟩ := Prog.run_bind_eq_ok.mp h
    obtain ⟨kw, s₂, hkw, h⟩ := Prog.run_bind_eq_ok.mp h
    match k, kw, h with
    | some k, some kw, h =>
      obtain ⟨blk, s₃, hblk, h⟩ := Prog.run_bind_eq_ok.mp h
      match blk, h with
      | .ok blk, h =>
        obtain ⟨mac, s₄, hmac, h⟩ := Prog.run_bind_eq_ok.mp h
        match mac, h with
        | .ok mac, h =>
          cases h
          obtain ⟨-, rfl⟩ := encrypt_eq_ok hblk
          exact coherent_of_keys ⟨rfl, rfl⟩ ⟨opensTo_of_getData hk, opensTo_of_getData hkw⟩
            ⟨rfl, rfl⟩ ⟨rfl, congrArg some (macCreate_eq_ok hmac)⟩

theorem opensTo_newToken {user : User} {sk : Bytes} (hsk : user.sk = some sk)
    (hpk : user.pk = E.themis.pub sk) (k : Bytes) : E.OpensTo (E.newToken user sk user k) k :=
  ⟨sk, hsk, unwrap_newToken.mpr ⟨hpk, rfl⟩⟩

/-- **A successful rotation leaves a coherent object**, whatever it was before. -/
theorem coherent_of_rotate {bl bl' : Block} {rights rights' : List RightsListNode}
    (h : (midHermesLlBlockRotate bl rights).run (E.faulty fails) s =
      (.ok (true, bl', rights'), s')) : E.Coherent bl' := by
  unfold midHermesLlBlockRotate at h
  match hrt : bl.rtoken, hwt : bl.wtoken, h with
  | some rt, some wt, h =>
    obtain ⟨x, s₁, hkeys, h⟩ := Prog.run_bind_eq_ok.mp h
    match x, h with
    | some x, h =>
      obtain ⟨sk, d, mt, ⟨hsk, hpk⟩, ⟨-, hd, hmt⟩, -, rfl, -⟩ := rotateKeys_eq_some.mp hkeys
      obtain ⟨⟨ok, rights₁⟩, s₂, -, h⟩ := Prog.run_bind_eq_ok.mp h
      cases h
      exact coherent_of_keys ⟨rfl, rfl⟩
        ⟨opensTo_newToken hsk.2 hpk _, opensTo_newToken hsk.2 hpk _⟩ ⟨hd, hmt⟩ ⟨rfl, rfl⟩

/-- The step: what is left is coherent. -/
theorem Changes.coherent {bl bl' : Block} (h : E.Changes bl bl') : E.Coherent bl' := by
  cases h with
  | update data metadata fails s s' h => exact coherent_of_update h
  | rotate rights rights' fails s s' h => exact coherent_of_rotate h

/-- The run: it is enough that the object is coherent at first. -/
theorem Coherent.changes {bl bl' : Block} (h : E.Coherent bl)
    (hrun : Relation.ReflTransGen E.Changes bl bl') : E.Coherent bl' := by
  induction hrun with
  | refl => exact h
  | tail _ hlast _ => exact hlast.coherent

/-! ### Getting an object -/

/-- **An object made with two given tokens is coherent.** -/
theorem coherent_of_createNew {user : Option User} {id blockData metadata : Option Bytes}
    {readToken writeToken : Option Token} {bl : Block}
    (h : (midHermesLlBlockCreateNew user id blockData metadata readToken writeToken).run
      (E.faulty fails) s = (.ok (some bl), s')) : E.Coherent bl := by
  unfold midHermesLlBlockCreateNew at h
  -- without one of the arguments nothing is returned
  rcases user with _ | user
  · cases h
  rcases id with _ | id
  · cases h
  rcases blockData with _ | d
  · cases h
  rcases metadata with _ | mt
  · cases h
  rcases readToken with _ | rt
  · cases h
  rcases writeToken with _ | wt
  · cases h
  obtain ⟨k, s₁, hk, h⟩ := Prog.run_bind_eq_ok.mp h
  match k, h with
  | some k, h =>
    obtain ⟨blk, s₂, hblk, h⟩ := Prog.run_bind_eq_ok.mp h
    match blk, h with
    | .ok blk, h =>
      obtain ⟨kw, s₃, hkw, h⟩ := Prog.run_bind_eq_ok.mp h
      match kw, h with
      | some kw, h =>
        obtain ⟨mac, s₄, hmac, h⟩ := Prog.run_bind_eq_ok.mp h
        match mac, h with
        | .ok mac, h =>
          cases h
          obtain ⟨-, rfl⟩ := encrypt_eq_ok hblk
          exact coherent_of_keys ⟨rfl, rfl⟩ ⟨opensTo_of_getData hk, opensTo_of_getData hkw⟩
            ⟨rfl, rfl⟩ ⟨rfl, congrArg some (macCreate_eq_ok hmac)⟩

/-- The mac of a new object: it is made with the key of the token that is given, or else of the
one the object has. -/
theorem initMac_eq_some {bl bl' : Block} {bd : Bytes} {readToken writeToken : Option Token}
    (h : (midHermesLlBlockInitMac bl bd mt readToken writeToken).run (E.faulty fails) s =
      (.ok (some bl'), s')) :
    (∃ mac, bl' = { bl with mac := mac }) ∧
      ∀ wt, writeToken.or bl.wtoken = some wt → ∃ kw, E.OpensTo wt kw ∧
        bl'.mac = some (E.themis.hmac kw
          [if readToken.isSome then bl.data.getD [] else bd, mt]) := by
  unfold midHermesLlBlockInitMac at h
  by_cases hsome : writeToken.isSome || bl.wtoken.isSome
  · rw [if_pos hsome] at h
    obtain ⟨kw, s₁, hkw, h⟩ := Prog.run_bind_eq_ok.mp h
    match kw, h with
    | some kw, h =>
      obtain ⟨mac, s₂, hmac, h⟩ := Prog.run_bind_eq_ok.mp h
      match mac, h with
      | .ok mac, h =>
        cases h
        refine ⟨⟨_, rfl⟩, fun wt hwt => ⟨kw, ?_, congrArg some (macCreate_eq_ok hmac)⟩⟩
        rw [hwt] at hkw
        exact opensTo_of_getData hkw
  · rw [if_neg hsome] at h
    cases h
    refine ⟨⟨bl.mac, rfl⟩, fun wt hwt => absurd ?_ hsome⟩
    rw [← Option.isSome_or, hwt]
    rfl

/-- **An object of a sealed block is coherent**: its tokens are those that are given. -/
theorem coherent_of_init_some {bl bl' : Block} {user : User} {id : Option Bytes} {bd : Bytes}
    {rt : Token} {writeToken : Option Token}
    (h : (midHermesLlBlockInit bl user id bd mt (some rt) writeToken).run (E.faulty fails) s =
      (.ok (some bl'), s')) : E.Coherent bl' := by
  unfold midHermesLlBlockInit midHermesLlBlockInitTokens midHermesLlBlockInitData at h
  simp only [Prog.ret_bind, Option.some_or, Option.isSome_some, if_true] at h
  obtain ⟨bl₁, s₁, h₁, h⟩ := Prog.run_bind_eq_ok.mp h
  obtain ⟨k, s₂, hk, h₁⟩ := Prog.run_bind_eq_ok.mp h₁
  match k, h₁ with
  | none, h₁ =>
    cases h₁
    cases h
  | some k, h₁ =>
    obtain ⟨d, s₃, hd, h₁⟩ := Prog.run_bind_eq_ok.mp h₁
    match d, h₁ with
    | .error _, h₁ =>
      cases h₁
      cases h
    | .ok d, h₁ =>
      cases h₁
      obtain ⟨bl₂, s₄, hmac, h⟩ := Prog.run_bind_eq_ok.mp h
      match bl₂, h with
      | some bl₂, h =>
        obtain ⟨⟨mac, rfl⟩, hwt⟩ := initMac_eq_some hmac
        cases h
        refine ⟨rt, k, bd, d, mt, ⟨rfl, rfl, rfl, rfl⟩, opensTo_of_getData hk, decrypt_eq_ok hd,
          fun wt heq => ?_⟩
        have heq : writeToken = some wt := heq
        exact hwt wt (by rw [heq, Option.some_or])

/-- **A loaded object is coherent**, whatever the stores have. -/
theorem coherent_of_load {bl bl' : Block} {id : Bytes}
    (h : (midHermesLlBlockLoad bl id).run (E.faulty fails) s = (.ok (some bl'), s')) :
    E.Coherent bl' := by
  unfold midHermesLlBlockLoad at h
  obtain ⟨rt, s₁, -, h⟩ := Prog.run_bind_eq_ok.mp h
  obtain ⟨wt, s₂, -, h⟩ := Prog.run_bind_eq_ok.mp h
  match rt, h with
  | some rt, h =>
    obtain ⟨x, s₃, -, h⟩ := Prog.run_bind_eq_ok.mp h
    match x, h with
    | .ok (bd, mt), h => exact coherent_of_init_some h

/-- The tokens of a new block. -/
theorem initTokens_none_eq_some {bl bl' : Block}
    (h : (midHermesLlBlockInitTokens bl none).run (E.faulty fails) (w, n) = (.ok (some bl'), s')) :
    ∃ sk, (sk ≠ [] ∧ bl.user.sk = some sk) ∧
      bl' = { bl with rtoken := some (E.newToken bl.user sk bl.user (w.rands 0).val)
                      wtoken := some (E.newToken bl.user sk bl.user (w.rands 1).val) } := by
  unfold midHermesLlBlockInitTokens at h
  obtain ⟨rt, s₁, hrt, h⟩ := Prog.run_bind_eq_ok.mp h
  obtain ⟨wt, s₂, hwt, h⟩ := Prog.run_bind_eq_ok.mp h
  match rt, wt, h with
  | some rt, some wt, h =>
    obtain ⟨sk, hsk, -, rfl, rfl⟩ := tokenGenerate_eq_some.mp hrt
    -- the second token is generated in the state the first one leaves: it gets the second value
    obtain ⟨sk', hsk', -, rfl, rfl⟩ := tokenGenerate_eq_some.mp hwt
    cases hsk.2.symm.trans hsk'.2
    cases h
    exact ⟨sk, hsk, rfl⟩

/-- The data of a new block is encrypted with the key of its read token, which is opened for
that: so the keys of the user belong together. -/
theorem initData_none_eq_some {bl bl' : Block} {user : User} {sk bd : Bytes}
    (hsk : sk ≠ [] ∧ user.sk = some sk) (hrt : bl.rtoken = some (E.newToken user sk user k))
    (h : (midHermesLlBlockInitData bl bd mt none).run (E.faulty fails) s = (.ok (some bl'), s')) :
    user.pk = E.themis.pub sk ∧ bl' = { bl with block := some (E.themis.encryptSeal k mt bd) } := by
  unfold midHermesLlBlockInitData at h
  rw [Option.none_or, hrt] at h
  obtain ⟨k', s₁, hk, h⟩ := Prog.run_bind_eq_ok.mp h
  match k', h with
  | some k', h =>
    obtain ⟨hpk, -, rfl, -⟩ := (getData_newToken hsk).mp hk
    obtain ⟨blk, s₂, hblk, h⟩ := Prog.run_bind_eq_ok.mp h
    match blk, h with
    | .ok blk, h =>
      cases h
      obtain ⟨-, rfl⟩ := encrypt_eq_ok hblk
      exact ⟨hpk, by rw [hrt]⟩

/-- An object of a new block: its tokens are the two that are generated, and its mac is made
with the key of the token that is given, if one is. -/
theorem init_none_eq_some {bl bl' : Block} {user : User} {id : Option Bytes} {bd : Bytes}
    {writeToken : Option Token}
    (h : (midHermesLlBlockInit bl user id bd mt none writeToken).run (E.faulty fails) (w, n) =
      (.ok (some bl'), s')) :
    ∃ rt wt, (bl'.rtoken = some rt ∧ bl'.wtoken = some wt ∧ bl'.data = some bd ∧
        bl'.metadata = some mt ∧
        bl'.block = some (E.themis.encryptSeal (w.rands 0).val mt bd)) ∧
      (E.OpensTo rt (w.rands 0).val ∧ E.OpensTo wt (w.rands 1).val) ∧
      ∃ kw, E.OpensTo (writeToken.getD wt) kw ∧ bl'.mac = some (E.themis.hmac kw [bd, mt]) := by
  unfold midHermesLlBlockInit at h
  obtain ⟨bl₁, s₁, htokens, h⟩ := Prog.run_bind_eq_ok.mp h
  match bl₁, h with
  | some bl₁, h =>
    obtain ⟨sk, hsk, rfl⟩ := initTokens_none_eq_some htokens
    obtain ⟨bl₂, s₂, hdata, h⟩ := Prog.run_bind_eq_ok.mp h
    match bl₂, h with
    | some bl₂, h =>
      have hsk : sk ≠ [] ∧ user.sk = some sk := hsk
      obtain ⟨hpk, rfl⟩ := initData_none_eq_some hsk rfl hdata
      obtain ⟨bl₃, s₃, hmac, h⟩ := Prog.run_bind_eq_ok.mp h
      match bl₃, h with
      | some bl₃, h =>
        obtain ⟨⟨mac, rfl⟩, hwt⟩ := initMac_eq_some hmac
        cases h
        refine ⟨_, _, ⟨rfl, rfl, rfl, rfl, rfl⟩, ⟨opensTo_newToken hsk.2 hpk _,
          opensTo_newToken hsk.2 hpk _⟩, hwt _ ?_⟩
        -- the given token comes first, and the generated one is what the object has
        cases writeToken <;> rfl

/-- A new block that is given a write token only is coherent if that token has the key of the
one that is generated. -/
theorem coherent_init_none {bl bl' : Block} {user : User} {id : Option Bytes} {bd : Bytes}
    {writeToken : Option Token}
    (h : (midHermesLlBlockInit bl user id bd mt none writeToken).run (E.faulty fails) (w, n) =
      (.ok (some bl'), s')) :
    E.Coherent bl' ↔ ∀ wt, writeToken = some wt → E.DrawsKeyOf w wt := by
  obtain ⟨rt, wt, ⟨hrt, hwt, hd, hmt, hblk⟩, ⟨hk, hkw⟩, kw, hmackey, hmac⟩ := init_none_eq_some h
  constructor
  · rintro ⟨-, -, -, d, mt', ⟨-, -, hd', hmt'⟩, -, -, hmac'⟩ wt' rfl
    obtain ⟨kw', hkw', hmac'⟩ := hmac' wt hwt
    obtain rfl := hkw'.unique hkw
    obtain ⟨rfl, -⟩ := E.themis.hmac_inj (Option.some.inj (hmac.symm.trans hmac'))
    exact hmackey
  · intro hgiven
    have hkey : kw = (w.rands 1).val := by
      cases writeToken with
      | none => exact hmackey.unique hkw
      | some wt' => exact hmackey.unique (hgiven wt' rfl)
    rw [hkey] at hmac
    exact coherent_of_keys ⟨hrt, hwt⟩ ⟨hk, hkw⟩ ⟨hd, hmt⟩ ⟨hblk, hmac⟩

/-- **When block objects stay coherent**: an object that was got in any of the three ways is
coherent, and stays so through all successful updates and rotations, unless it was created with
a write token and no read token. -/
theorem construction_coherent_iff {c : Construction} {bl : Block}
    (h : c.program.run (E.faulty fails) (w, n) = (.ok (some bl), s')) :
    (∀ bl', Relation.ReflTransGen E.Changes bl bl' → E.Coherent bl') ↔ ¬E.Mismatched w c := by
  have hfirst : E.Coherent bl ↔ ¬E.Mismatched w c := by
    match c, h with
    | .createNew user id blockData metadata readToken writeToken, h =>
      exact iff_of_true (coherent_of_createNew h) fun hf => hf
    | .load bl₀ id, h => exact iff_of_true (coherent_of_load h) fun hf => hf
    | .create user id bd mt (some rt) writeToken, h =>
      exact iff_of_true (coherent_of_init_some h) fun hf => hf
    | .create user id bd mt none none, h =>
      exact (coherent_init_none h).trans (iff_of_true nofun fun hf => hf)
    | .create user id bd mt none (some wt), h =>
      rw [coherent_init_none h]
      simp [Mismatched]
  rw [← hfirst]
  constructor
  · intro hall
    exact hall bl Relation.ReflTransGen.refl
  · intro hcoherent bl' hrun
    exact hcoherent.changes hrun

/-- A new block of Alice, without tokens. -/
theorem construction_coherent_iff_alice : ∃ bl s',
    (Construction.create alice (some [9]) [1] [2] none none).program.run
        (demoEnv.faulty fun _ => false) (World.empty demoRands, 0) = (.ok (some bl), s') ∧
      ((∀ bl', Relation.ReflTransGen demoEnv.Changes bl bl' → demoEnv.Coherent bl') ↔
        ¬demoEnv.Mismatched (World.empty demoRands)
          (.create alice (some [9]) [1] [2] none none)) := by
  obtain ⟨bl, s', hrun⟩ : ∃ bl s',
      (Construction.create alice (some [9]) [1] [2] none none).program.run
        (demoEnv.faulty fun _ => false) (World.empty demoRands, 0) = (.ok (some bl), s') :=
    ⟨_, _, rfl⟩
  exact ⟨bl, s', hrun, construction_coherent_iff hrun⟩

/-- Alice gives the write token of another block of hers with the data of a new one: the object
has a mac made with its key `[6]`, and a write token of another key. -/
theorem construction_not_coherent : ∃ bl s',
    (Construction.create alice (some [9]) [1] [2] none
        (some (demoEnv.newToken alice [1] alice [6]))).program.run
          (demoEnv.faulty fun _ => false) (World.empty demoRands, 0) = (.ok (some bl), s') ∧
      ¬demoEnv.Coherent bl := by
  obtain ⟨bl, s', hrun⟩ : ∃ bl s',
      (Construction.create alice (some [9]) [1] [2] none
        (some (demoEnv.newToken alice [1] alice [6]))).program.run
          (demoEnv.faulty fun _ => false) (World.empty demoRands, 0) = (.ok (some bl), s') :=
    ⟨_, _, rfl⟩
  refine ⟨bl, s', hrun, fun hcoherent => ?_⟩
  obtain ⟨sk, hsk, hun⟩ := (coherent_init_none hrun).mp hcoherent _ rfl
  cases hsk
  exact absurd hun (by decide)

end Env

end Hermes

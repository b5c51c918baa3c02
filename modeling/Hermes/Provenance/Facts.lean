import Hermes.World

/-!
# What an exchange has behind it

A client does not know the state of the stores: it only knows what it was answered. This
file says, of every request an operation issues, what its own earlier exchanges must have
been for it to issue this request (`Hermes.Env.Justified`): a token that is saved was
loaded, or wraps a key that was loaded or drawn; a mac that is presented to the data
store was computed from data and keys that were loaded; and so on.

All facts are about membership in a history, so they stay true as the history grows. The
values in them are the ones ideal cryptography makes of each other, which rests on the
one assumption about the environment, `Hermes.Env.Sound`: no call into the cryptography
returns a wrong result, and no public key is the wrong one. The stores may answer what
they like.
-/

namespace Hermes

open Interleave

/-! ### Exchanges that happened -/

/-- The request was issued, and answered so. -/
def Got (h : Hist) (r : Req) (a : r.Answer) : Prop := (⟨r, a⟩ : Event Req.Answer) ∈ h

theorem Got.mono {h h' : Hist} {r : Req} {a : r.Answer} (hg : Got h r a) (hs : h <:+ h') :
    Got h' r a :=
  hs.subset hg

theorem got_head {h : Hist} {r : Req} {a : r.Answer} : Got (⟨r, a⟩ :: h) r a :=
  List.mem_cons_self

/-- The key store gave the client a token of a user for a block, with the token's owner:
the read token, or with `isUpdate` the write token. -/
def GotToken (h : Hist) : Bool → Bytes → Bytes → Bytes × Bytes → Prop
  | false, b, u, x => Got h (.ks (.getRtoken b u)) (.ok x)
  | true, b, u, x => Got h (.ks (.getWtoken b u)) (.ok x)

theorem GotToken.mono {h h' : Hist} {isUpdate : Bool} {b u : Bytes} {x : Bytes × Bytes}
    (hg : GotToken h isUpdate b u x) (hs : h <:+ h') : GotToken h' isUpdate b u x := by
  cases isUpdate
  · exact Got.mono hg hs
  · exact Got.mono hg hs

theorem not_got_nil {r : Req} {a : r.Answer} : ¬Got [] r a := List.not_mem_nil

theorem not_gotToken_nil {isUpdate : Bool} {b u : Bytes} {x : Bytes × Bytes} :
    ¬GotToken [] isUpdate b u x := by
  cases isUpdate
  · exact not_got_nil
  · exact not_got_nil

/-- The request draws a random value. -/
def Req.IsRand : Req → Prop
  | .themis .rand => True
  | _ => False

instance : DecidablePred Req.IsRand := fun r =>
  match r with
  | .themis .rand => isTrue trivial
  | .themis (.encryptSeal ..) => isFalse id
  | .themis (.decryptSeal ..) => isFalse id
  | .themis (.wrap ..) => isFalse id
  | .themis (.unwrapSize ..) => isFalse id
  | .themis (.unwrap ..) => isFalse id
  | .themis (.hmac ..) => isFalse id
  | .ks _ => isFalse id
  | .ds _ => isFalse id
  | .getPubKeyById _ => isFalse id

/-- The request opens a sealed block. -/
def Req.IsOpening : Req → Prop
  | .themis (.decryptSeal ..) => True
  | _ => False

/-- The request is a call into the cryptography. -/
def Req.IsThemis : Req → Prop
  | .themis _ => True
  | _ => False

/-- The request sets a write token. -/
def Req.SetsWtoken : Req → Prop
  | .ks (.setWtoken ..) => True
  | _ => False

instance : DecidablePred Req.SetsWtoken := fun r =>
  match r with
  | .ks (.setWtoken ..) => isTrue trivial
  | .ks (.setRtoken ..) => isFalse id
  | .ks (.getRtoken ..) => isFalse id
  | .ks (.getWtoken ..) => isFalse id
  | .ks (.delRtoken ..) => isFalse id
  | .ks (.delWtoken ..) => isFalse id
  | .ks (.getIndexedRights ..) => isFalse id
  | .ds _ => isFalse id
  | .getPubKeyById _ => isFalse id
  | .themis _ => isFalse id

theorem Req.IsThemis.not_setsWtoken {r : Req} (h : r.IsThemis) : ¬r.SetsWtoken := by
  cases r with
  | themis _ => exact id
  | ks _ => exact h.elim
  | ds _ => exact h.elim
  | getPubKeyById _ => exact h.elim

/-- How many random values were asked for. -/
def draws (h : Hist) : ℕ := h.countP fun e => e.1.IsRand

theorem draws_append (l h : Hist) : draws (l ++ h) = draws l + draws h := List.countP_append

theorem draws_cons_rand (x : Option HmToken) (h : Hist) :
    draws (⟨.themis .rand, x⟩ :: h) = draws h + 1 :=
  List.countP_cons_of_pos (decide_eq_true trivial)

theorem draws_eq_zero {l : Hist} (hl : ∀ e ∈ l, ¬e.1.IsRand) : draws l = 0 := by
  simpa [draws, List.countP_eq_zero] using hl

/-- A key was drawn, after `n` others. -/
def Drew (h : Hist) (n : ℕ) (k : Bytes) : Prop :=
  ∃ l l' x, h = l ++ (⟨.themis .rand, some x⟩ : Event Req.Answer) :: l' ∧ draws l' = n ∧ x.val = k

theorem Drew.mono {h h' : Hist} {n : ℕ} {k : Bytes} (hd : Drew h n k) (hs : h <:+ h') :
    Drew h' n k := by
  obtain ⟨l, l', x, rfl, hn, hk⟩ := hd
  obtain ⟨l₀, rfl⟩ := hs
  exact ⟨l₀ ++ l, l', x, by simp, hn, hk⟩

theorem Drew.got {h : Hist} {n : ℕ} {k : Bytes} (hd : Drew h n k) :
    ∃ x : HmToken, x.val = k ∧ Got h (.themis .rand) (some x) := by
  obtain ⟨l, l', x, rfl, -, hk⟩ := hd
  exact ⟨x, hk, by simp [Got]⟩

theorem HmToken.val_ne_nil (x : HmToken) : x.val ≠ [] := by
  intro h0
  have hlen := x.2
  rw [h0] at hlen
  exact absurd hlen (by decide)

theorem Drew.ne_nil {h : Hist} {n : ℕ} {k : Bytes} (hd : Drew h n k) : k ≠ [] := by
  obtain ⟨x, rfl, -⟩ := hd.got
  exact HmToken.val_ne_nil x

/-- Of two draws with as many draws before them, one can only follow the other by being
it. -/
theorem draw_eq_of_suffix {l m : Hist} {x y : Option HmToken}
    (hs : (⟨.themis .rand, x⟩ : Event Req.Answer) :: l <:+ ⟨.themis .rand, y⟩ :: m)
    (hn : draws l = draws m) : x = y := by
  obtain ⟨t, ht⟩ := hs
  cases t with
  | nil => simpa using (List.cons.inj ht).1
  | cons e t =>
    have hc : draws (t ++ ⟨.themis .rand, x⟩ :: l) = draws m :=
      congrArg draws (List.cons.inj ht).2
    rw [draws_append, draws_cons_rand] at hc
    omega

/-- The `n`-th key drawn is one key. -/
theorem Drew.unique {h : Hist} {n : ℕ} {k k' : Bytes} (hd : Drew h n k) (hd' : Drew h n k') :
    k = k' := by
  obtain ⟨l, l', x, rfl, hn, rfl⟩ := hd
  obtain ⟨m, m', y, hm, hn', rfl⟩ := hd'
  have hx : (⟨.themis .rand, some x⟩ : Event Req.Answer) :: l' <:+
      l ++ ⟨.themis .rand, some x⟩ :: l' := List.suffix_append _ _
  have hy : (⟨.themis .rand, some y⟩ : Event Req.Answer) :: m' <:+
      l ++ ⟨.themis .rand, some x⟩ :: l' := hm ▸ List.suffix_append _ _
  -- the two tails are suffixes of one history, so one is a suffix of the other
  rcases List.suffix_or_suffix_of_suffix hx hy with hs | hs
  · rw [Option.some.inj (draw_eq_of_suffix hs (hn.trans hn'.symm))]
  · rw [Option.some.inj (draw_eq_of_suffix hs (hn'.trans hn.symm))]

/-- The data store created the block: under the id it was given, or under one of its
own. -/
def Created (h : Hist) (b blk mt mac : Bytes) : Option Bytes → Prop
  | none => Got h (.ds (.createBlock blk mt mac)) (.ok b)
  | some id => id = b ∧ Got h (.ds (.createBlockWithId b blk mt mac)) (.ok ())

theorem Created.mono {h h' : Hist} {id : Option Bytes} {b blk mt mac : Bytes}
    (hc : Created h b blk mt mac id) (hs : h <:+ h') : Created h' b blk mt mac id := by
  cases id with
  | none => exact Got.mono hc hs
  | some id => exact ⟨hc.1, hc.2.mono hs⟩

/-- The key a kind of token wraps. -/
def keyFor (isUpdate : Bool) (k kw : Bytes) : Bytes := if isUpdate then kw else k

theorem keyFor_ne_nil {isUpdate : Bool} {k kw : Bytes} (hk : k ≠ []) (hkw : kw ≠ []) :
    keyFor isUpdate k kw ≠ [] := by
  cases isUpdate
  · exact hk
  · exact hkw

/-- Removing a token. -/
def Removes (c : Call) (isUpdate : Bool) (b u o : Bytes) : Prop :=
  match c.op with
  | .denyReadAccess b' v => b = b' ∧ u = v ∧ o = c.user.id
  | .denyUpdateAccess b' v => isUpdate = true ∧ b = b' ∧ u = v ∧ o = c.user.id
  | .deleteBlock b' => b = b'
  | _ => False

namespace Env

variable (E : Env)

/-- No call into the cryptography returns a wrong result, and no public key is the wrong
one. Any call may fail, and the stores may answer anything. -/
def Sound : Event Req.Answer → Prop
  | ⟨.getPubKeyById id, .ok pk⟩ => E.credentials id = some pk
  | ⟨.themis (.encryptSeal k c m), some x⟩ => x = E.themis.encryptSeal k c m
  | ⟨.themis (.decryptSeal k c x), some m⟩ => x = E.themis.encryptSeal k c m
  | ⟨.themis (.wrap sk pk m), some x⟩ => x = E.themis.wrap sk pk m
  | ⟨.themis (.unwrap sk pk x), some m⟩ => E.themis.unwrap sk pk x = some m
  | ⟨.themis (.hmac k xs), some x⟩ => x = E.themis.hmac k xs
  | _ => True

theorem sound_handle (w : World) (r : Req) : E.Sound ⟨r, (E.handle w r).1⟩ := by
  match r with
  | .ks _ => trivial
  | .ds _ => trivial
  | .getPubKeyById id =>
    cases h : (E.handle w (.getPubKeyById id)).1 with
    | error f => trivial
    | ok pk => exact getPubKeyById_ok h
  | .themis .rand => trivial
  | .themis (.encryptSeal k c m) => exact rfl
  | .themis (.decryptSeal k c x) =>
    show E.Sound ⟨.themis (.decryptSeal k c x), E.themis.decryptSeal k c x⟩
    cases h : E.themis.decryptSeal k c x with
    | none => trivial
    | some m => exact E.themis.encryptSeal_of_decryptSeal h
  | .themis (.wrap sk pk m) => exact rfl
  | .themis (.unwrapSize ..) => trivial
  | .themis (.unwrap sk pk x) =>
    show E.Sound ⟨.themis (.unwrap sk pk x), E.themis.unwrap sk pk x⟩
    cases h : E.themis.unwrap sk pk x with
    | none => trivial
    | some m => exact h
  | .themis (.hmac k xs) => exact rfl

/-! ### Keys and contents a client has -/

/-- A token with its owner, as the key store keeps it, opens for a user to a key. -/
def Opens (u : User) (x : Bytes × Bytes) (k : Bytes) : Prop :=
  ∃ sk pk, u.sk = some sk ∧ E.credentials x.2 = some pk ∧ E.themis.unwrap sk pk x.1 = some k

/-- The client loaded its own token for a block, and this is the key in it. -/
def KeyOf (h : Hist) (isUpdate : Bool) (u : User) (b k : Bytes) : Prop :=
  ∃ x, GotToken h isUpdate b u.id x ∧ E.Opens u x k

/-- The client read a block and opened it with its read key. -/
def Loaded (h : Hist) (u : User) (b k d mt : Bytes) : Prop :=
  E.KeyOf h false u b k ∧ ∃ x, Got h (.ds (.readBlock b)) (.ok (x, mt)) ∧
    Got h (.themis (.decryptSeal k mt x)) (some d)

/-- The client read a block, and this is its mac as far as the client can tell. -/
def LoadedMac (h : Hist) (u : User) (b mac : Bytes) : Prop :=
  ∃ k kw d mt, E.Loaded h u b k d mt ∧ E.KeyOf h true u b kw ∧ mac = E.themis.hmac kw [d, mt]

/-- A sealed block and a mac made of one content, under a read key and a write key. -/
def Version (k kw d mt blk mac : Bytes) : Prop :=
  blk = E.themis.encryptSeal k mt d ∧ mac = E.themis.hmac kw [d, mt]

variable {E} {h h' : Hist} {isUpdate : Bool} {u : User} {b k d mt mac : Bytes}

theorem KeyOf.mono (hk : E.KeyOf h isUpdate u b k) (hs : h <:+ h') :
    E.KeyOf h' isUpdate u b k := by
  obtain ⟨x, hx, ho⟩ := hk
  exact ⟨x, hx.mono hs, ho⟩

theorem Loaded.mono (hl : E.Loaded h u b k d mt) (hs : h <:+ h') : E.Loaded h' u b k d mt := by
  obtain ⟨hk, x, hr, hd⟩ := hl
  exact ⟨hk.mono hs, x, hr.mono hs, hd.mono hs⟩

theorem LoadedMac.mono (hl : E.LoadedMac h u b mac) (hs : h <:+ h') : E.LoadedMac h' u b mac := by
  obtain ⟨k, kw, d, mt, hl, hk, hm⟩ := hl
  exact ⟨k, kw, d, mt, hl.mono hs, hk.mono hs, hm⟩

/-! ### The requests of each operation -/

variable (E)

/-- Saving a token of a granted key: the key the client has, wrapped for the other user. -/
def Grants (c : Call) (h : Hist) (isUpdate : Bool) (b u o t : Bytes) : Prop :=
  o = c.user.id ∧ ∃ k sk pk, E.KeyOf h isUpdate c.user b k ∧ c.user.sk = some sk ∧
    E.credentials u = some pk ∧ pk ≠ [] ∧ t = E.themis.wrap sk pk k

/-- **Saving a token.** A creation and a rotation save keys they have drawn, after the data
store took the block made with them, and the write token of a creation is the last thing
it saves; an update saves the tokens it has loaded; a grant saves a key it has loaded. -/
def Saves (c : Call) (h : Hist) (isUpdate : Bool) (b u o t : Bytes) : Prop :=
  match c.op with
  | .createBlock id d mt => u = c.user.id ∧ o = c.user.id ∧ (∀ e ∈ h, ¬e.1.SetsWtoken) ∧
      ∃ k kw blk mac sk, Created h b blk mt mac id ∧ E.Version k kw d mt blk mac ∧
      Drew h 0 k ∧ Drew h 1 kw ∧ c.user.sk = some sk ∧
      t = E.themis.wrap sk c.user.pk (keyFor isUpdate k kw)
  | .updateBlock b' _ _ => b = b' ∧ u = c.user.id ∧ GotToken h isUpdate b u (t, o) ∧
      ∃ blk mt mac old, Got h (.ds (.updateBlock b blk mt mac old)) (.ok ())
  | .rotateBlock b' => b = b' ∧ o = c.user.id ∧ (∃ x, GotToken h isUpdate b u x) ∧
      ∃ k kw d blk mt mac old sk pk, Got h (.ds (.updateBlock b blk mt mac old)) (.ok ()) ∧
      E.Version k kw d mt blk mac ∧ Drew h 0 k ∧ Drew h 1 kw ∧ c.user.sk = some sk ∧
      E.credentials u = some pk ∧ pk ≠ [] ∧ t = E.themis.wrap sk pk (keyFor isUpdate k kw)
  | .grantReadAccess b' v => isUpdate = false ∧ b = b' ∧ u = v ∧ E.Grants c h isUpdate b u o t
  | .grantUpdateAccess b' v => isUpdate = true ∧ b = b' ∧ u = v ∧ E.Grants c h isUpdate b u o t
  | _ => False

/-- Creating a block, under an id or without one: its keys were drawn, and nothing but
cryptography happened before. -/
def Creates (c : Call) (h : Hist) (id : Option Bytes) (blk mt mac : Bytes) : Prop :=
  ∃ d, d ≠ [] ∧ c.op = .createBlock id d mt ∧ (∀ e ∈ h, e.1.IsThemis) ∧
    ∃ k kw, E.Version k kw d mt blk mac ∧ Drew h 0 k ∧ Drew h 1 kw

/-- **Replacing a block.** The old mac is the one of the content the client has loaded. An
update makes the new block with the keys it has loaded, of its arguments; a rotation makes
it with keys it has drawn, of the content it has loaded. -/
def Updates (c : Call) (h : Hist) (b blk mt mac old : Bytes) : Prop :=
  E.LoadedMac h c.user b old ∧
  match c.op with
  | .updateBlock b' d mt' => b = b' ∧ mt = mt' ∧ d ≠ [] ∧ ∃ k kw, E.KeyOf h false c.user b k ∧
      E.KeyOf h true c.user b kw ∧ E.Version k kw d mt blk mac
  | .rotateBlock b' => b = b' ∧ ∃ k₀ d k kw, E.Loaded h c.user b k₀ d mt ∧ Drew h 0 k ∧
      Drew h 1 kw ∧ E.Version k kw d mt blk mac
  | _ => False

/-- Sealing data under a key. -/
def Seals (c : Call) (h : Hist) (k mt d : Bytes) : Prop :=
  match c.op with
  | .createBlock _ d' mt' => d = d' ∧ mt = mt' ∧ Drew h 0 k
  | .updateBlock b d' mt' => d = d' ∧ mt = mt' ∧ E.KeyOf h false c.user b k ∧
      ∃ kw, E.KeyOf h true c.user b kw
  | .rotateBlock b => Drew h 0 k ∧ ∃ k₀, E.Loaded h c.user b k₀ d mt
  | _ => False

/-- Opening a block: the one that was read, with the read key that was loaded, once. -/
def OpensBlock (c : Call) (h : Hist) (k mt x : Bytes) : Prop :=
  (∀ e ∈ h, ¬e.1.IsOpening) ∧ ∃ b, c.op.blockId = some b ∧ E.KeyOf h false c.user b k ∧
    Got h (.ds (.readBlock b)) (.ok (x, mt))

/-- Wrapping a key for a public key: a drawn key for the client itself, and in a rotation
for a user who has a token of this kind; a loaded key for the user of a grant, or of a
denial. -/
def Wraps (c : Call) (h : Hist) (sk pk k : Bytes) : Prop :=
  c.user.sk = some sk ∧
  match c.op with
  | .createBlock _ _ _ => pk = c.user.pk ∧ ∃ n, Drew h n k
  | .rotateBlock b => ∃ isUpdate, Drew h (if isUpdate then 1 else 0) k ∧ (pk = c.user.pk ∨
      ∃ u x, E.credentials u = some pk ∧ GotToken h isUpdate b u x)
  | .grantReadAccess b v => E.credentials v = some pk ∧ E.KeyOf h false c.user b k
  | .grantUpdateAccess b v => E.credentials v = some pk ∧ E.KeyOf h true c.user b k
  | .denyReadAccess b v => E.credentials v = some pk ∧ E.KeyOf h true c.user b k
  | .denyUpdateAccess b v => E.credentials v = some pk ∧ E.KeyOf h true c.user b k
  | _ => False

/-- **What a call must have been answered to issue a request.** -/
def Justified (c : Call) (h : Hist) : Req → Prop
  | .ks (.setRtoken b u o t) => E.Saves c h false b u o t
  | .ks (.setWtoken b u o t) => E.Saves c h true b u o t
  | .ks (.delRtoken b u o) => Removes c false b u o
  | .ks (.delWtoken b u o) => Removes c true b u o
  | .ds (.createBlock blk mt mac) => E.Creates c h none blk mt mac
  | .ds (.createBlockWithId id blk mt mac) => E.Creates c h (some id) blk mt mac
  | .ds (.updateBlock b blk mt mac old) => E.Updates c h b blk mt mac old
  | .ds (.deleteBlock b old) => c.op = .deleteBlock b ∧ E.LoadedMac h c.user b old
  | .themis (.encryptSeal k mt d) => E.Seals c h k mt d
  | .themis (.decryptSeal k mt x) => E.OpensBlock c h k mt x
  | .themis (.wrap sk pk k) => E.Wraps c h sk pk k
  | _ => True

/-- **What a call must have been answered to return a result.** A reading that succeeds
returns what it has loaded; a denial of read access that succeeds has just removed the
entry. -/
def Returned (c : Call) (h : Hist) (r : Result) : Prop :=
  match c.op with
  | .readBlock b => r.status = hmSuccess →
      ∃ k d mt, r.content = some (d, mt) ∧ E.Loaded h c.user b k d mt
  | .denyReadAccess b v => r.status = hmSuccess →
      ∃ h₀, h = (⟨.ks (.delRtoken b v c.user.id), .ok ()⟩ : Event Req.Answer) :: h₀
  | _ => True

/-! ### Which calls write -/

variable {E} {c : Call} {o t blk old : Bytes}

/-- **Who saves a token**: four kinds of calls, each for a reason of its own. -/
theorem Saves.cases {w : Bytes} (hs : E.Saves c h isUpdate b w o t) :
    (∃ id d mt, c.op = .createBlock id d mt ∧ w = c.user.id ∧ o = c.user.id ∧
      (∀ e ∈ h, ¬e.1.SetsWtoken) ∧ ∃ k kw blk mac sk, Created h b blk mt mac id ∧
      E.Version k kw d mt blk mac ∧ Drew h 0 k ∧ Drew h 1 kw ∧ c.user.sk = some sk ∧
      t = E.themis.wrap sk c.user.pk (keyFor isUpdate k kw)) ∨
    (∃ d mt, c.op = .updateBlock b d mt ∧ w = c.user.id ∧ GotToken h isUpdate b w (t, o) ∧
      ∃ blk mt mac old, Got h (.ds (.updateBlock b blk mt mac old)) (.ok ())) ∨
    (c.op = .rotateBlock b ∧ o = c.user.id ∧ (∃ x, GotToken h isUpdate b w x) ∧
      ∃ k kw d blk mt mac old sk pk, Got h (.ds (.updateBlock b blk mt mac old)) (.ok ()) ∧
      E.Version k kw d mt blk mac ∧ Drew h 0 k ∧ Drew h 1 kw ∧ c.user.sk = some sk ∧
      E.credentials w = some pk ∧ pk ≠ [] ∧ t = E.themis.wrap sk pk (keyFor isUpdate k kw)) ∨
    (c.op = (if isUpdate then .grantUpdateAccess b w else .grantReadAccess b w) ∧
      E.Grants c h isUpdate b w o t) := by
  obtain ⟨user, op⟩ := c
  cases op with
  | createBlock id d mt => exact Or.inl ⟨id, d, mt, rfl, hs⟩
  | updateBlock b' d mt =>
    obtain ⟨rfl, hs⟩ := hs
    exact Or.inr (Or.inl ⟨d, mt, rfl, hs⟩)
  | rotateBlock b' =>
    obtain ⟨rfl, hs⟩ := hs
    exact Or.inr (Or.inr (Or.inl ⟨rfl, hs⟩))
  | grantReadAccess b' v =>
    obtain ⟨rfl, rfl, rfl, hs⟩ := hs
    exact Or.inr (Or.inr (Or.inr ⟨rfl, hs⟩))
  | grantUpdateAccess b' v =>
    obtain ⟨rfl, rfl, rfl, hs⟩ := hs
    exact Or.inr (Or.inr (Or.inr ⟨rfl, hs⟩))
  | readBlock b' => exact hs.elim
  | deleteBlock b' => exact hs.elim
  | denyReadAccess b' v => exact hs.elim
  | denyUpdateAccess b' v => exact hs.elim

/-- **Who replaces a block**: an update, with the keys it has loaded, and a rotation, with keys
it has drawn. -/
theorem Updates.cases (hs : E.Updates c h b blk mt mac old) :
    (∃ d, c.op = .updateBlock b d mt ∧ d ≠ [] ∧ ∃ k kw, E.KeyOf h false c.user b k ∧
      E.KeyOf h true c.user b kw ∧ E.Version k kw d mt blk mac) ∨
    (c.op = .rotateBlock b ∧ ∃ k₀ d k kw, E.Loaded h c.user b k₀ d mt ∧ Drew h 0 k ∧
      Drew h 1 kw ∧ E.Version k kw d mt blk mac) := by
  obtain ⟨-, hs⟩ := hs
  obtain ⟨user, op⟩ := c
  cases op with
  | updateBlock b' d mt' =>
    obtain ⟨rfl, rfl, hs⟩ := hs
    exact Or.inl ⟨d, rfl, hs⟩
  | rotateBlock b' =>
    obtain ⟨rfl, hs⟩ := hs
    exact Or.inr ⟨rfl, hs⟩
  | createBlock _ _ _ => exact hs.elim
  | readBlock _ => exact hs.elim
  | deleteBlock _ => exact hs.elim
  | grantReadAccess _ _ => exact hs.elim
  | grantUpdateAccess _ _ => exact hs.elim
  | denyReadAccess _ _ => exact hs.elim
  | denyUpdateAccess _ _ => exact hs.elim

/-- A block that is created is created by a call for it, with keys it has drawn. -/
theorem creates_of_event {e : Event Req.Answer}
    (he : e = ⟨.ds (.createBlock blk mt mac), .ok b⟩ ∨
      e = ⟨.ds (.createBlockWithId b blk mt mac), .ok ()⟩) (hJ : E.Justified c h e.1) :
    ∃ id, E.Creates c h id blk mt mac := by
  rcases he with rfl | rfl
  · exact ⟨none, hJ⟩
  · exact ⟨some b, hJ⟩

/-- **Who seals a block**: a creation and a rotation, under a key they have drawn, and an
update, under the one it has loaded. -/
theorem Seals.cases (hs : E.Seals c h k mt d) :
    (∃ id, c.op = .createBlock id d mt ∧ Drew h 0 k) ∨
    (∃ b, c.op = .updateBlock b d mt ∧ E.KeyOf h false c.user b k ∧
      ∃ kw, E.KeyOf h true c.user b kw) ∨
    (∃ b, c.op = .rotateBlock b ∧ Drew h 0 k ∧ ∃ k₀, E.Loaded h c.user b k₀ d mt) := by
  obtain ⟨user, op⟩ := c
  cases op with
  | createBlock id d' mt' =>
    obtain ⟨rfl, rfl, hs⟩ := hs
    exact Or.inl ⟨id, rfl, hs⟩
  | updateBlock b d' mt' =>
    obtain ⟨rfl, rfl, hs⟩ := hs
    exact Or.inr (Or.inl ⟨b, rfl, hs⟩)
  | rotateBlock b => exact Or.inr (Or.inr ⟨b, rfl, hs⟩)
  | readBlock _ => exact hs.elim
  | deleteBlock _ => exact hs.elim
  | grantReadAccess _ _ => exact hs.elim
  | grantUpdateAccess _ _ => exact hs.elim
  | denyReadAccess _ _ => exact hs.elim
  | denyUpdateAccess _ _ => exact hs.elim

/-- **What is wrapped** was drawn, or loaded. -/
theorem Wraps.cases {sk pk : Bytes} (hs : E.Wraps c h sk pk k) :
    (∃ n, Drew h n k) ∨ ∃ isUpdate b, E.KeyOf h isUpdate c.user b k := by
  obtain ⟨-, hs⟩ := hs
  obtain ⟨user, op⟩ := c
  cases op with
  | createBlock _ _ _ => exact Or.inl hs.2
  | rotateBlock _ =>
    obtain ⟨isUpdate, hd, -⟩ := hs
    exact Or.inl ⟨_, hd⟩
  | grantReadAccess _ _ => exact Or.inr ⟨_, _, hs.2⟩
  | grantUpdateAccess _ _ => exact Or.inr ⟨_, _, hs.2⟩
  | denyReadAccess _ _ => exact Or.inr ⟨_, _, hs.2⟩
  | denyUpdateAccess _ _ => exact Or.inr ⟨_, _, hs.2⟩
  | readBlock _ => exact hs.elim
  | updateBlock _ _ _ => exact hs.elim
  | deleteBlock _ => exact hs.elim

end Env

/-- **Who removes a token**: a denial to its user, or a deletion. -/
theorem removes_cases {c : Call} {isUpdate : Bool} {b u o : Bytes} (hr : Removes c isUpdate b u o) :
    c.op = .denyReadAccess b u ∨ c.op = .denyUpdateAccess b u ∨ c.op = .deleteBlock b := by
  obtain ⟨user, op⟩ := c
  cases op with
  | denyReadAccess b' v =>
    obtain ⟨rfl, rfl, -⟩ := hr
    exact Or.inl rfl
  | denyUpdateAccess b' v =>
    obtain ⟨-, rfl, rfl, -⟩ := hr
    exact Or.inr (Or.inl rfl)
  | deleteBlock b' =>
    obtain rfl := hr
    exact Or.inr (Or.inr rfl)
  | createBlock _ _ _ => exact hr.elim
  | readBlock _ => exact hr.elim
  | updateBlock _ _ _ => exact hr.elim
  | rotateBlock _ => exact hr.elim
  | grantReadAccess _ _ => exact hr.elim
  | grantUpdateAccess _ _ => exact hr.elim

end Hermes

import Hermes.Interleave.Ensures
import Hermes.WellFormed

/-!
# The stores as one block sees them

An operation on a block acts on the entries of the block and on what is stored under its
id, and on nothing else (`Hermes.Slice`). This file evaluates the functions of a client
below the operations against such a slice, with nobody else acting on it: what they return
and what they leave are functions of the slice, given here one by one.

Functions that only read and compute are described by `Hermes.Env.Computes`.
-/

namespace Hermes

open Interleave

/-- What the two stores have for one block. -/
structure Slice where
  /-- The users of the block. -/
  users : Users
  /-- What is stored under its id. -/
  stored : Option StoredBlock

/-- What a state has for a block. -/
def World.slice (b : Bytes) (w : World) : Slice := ⟨w.keys b, w.stored b⟩

namespace Slice

/-- The entry of a user. -/
def entry (v : Slice) (u : Bytes) : Option Entry := v.users.lookup u

/-- The token of a user with its owner, of either kind. -/
def token (v : Slice) (isUpdate : Bool) (u : Bytes) : Option (Bytes × Bytes) :=
  if isUpdate then writeToken (v.entry u) else (v.entry u).map fun e => (e.rtoken, e.rtokenOwner)

/-- The slice with another entry, or none, for a user. -/
def setEntry (v : Slice) (u : Bytes) : Option Entry → Slice
  | some e => ⟨v.users.insert u e, v.stored⟩
  | none => ⟨v.users.erase u, v.stored⟩

/-- The slice with another stored block, or none. -/
def setStored (v : Slice) (s : Option StoredBlock) : Slice := ⟨v.users, s⟩

variable {v : Slice}

theorem entry_setEntry (u : Bytes) (e : Option Entry) (u' : Bytes) :
    (v.setEntry u e).entry u' = if u' = u then e else v.entry u' := by
  rcases eq_or_ne u' u with rfl | h
  · cases e <;> simp [entry, setEntry]
  · cases e <;> simp [entry, setEntry, h]

/-- Who has no entry has no token of either kind. -/
theorem token_eq_none {u : Bytes} (he : v.entry u = none) (isUpdate : Bool) :
    v.token isUpdate u = none := by
  cases isUpdate <;> simp [token, he, writeToken]

@[simp] theorem stored_setEntry (u : Bytes) (e : Option Entry) :
    (v.setEntry u e).stored = v.stored := by cases e <;> rfl

@[simp] theorem entry_setStored (s : Option StoredBlock) : (v.setStored s).entry = v.entry := rfl

@[simp] theorem stored_setStored (s : Option StoredBlock) : (v.setStored s).stored = s := rfl

end Slice

section Requests

variable {E : Env} {w : World} {b : Bytes}

@[simp] theorem entry_slice (u : Bytes) : (w.slice b).entry u = w.entry b u := rfl

@[simp] theorem slice_stored : (w.slice b).stored = w.stored b := rfl

theorem slice_setEntry (u : Bytes) (e : Option Entry) :
    (w.setEntry b u e).slice b = (w.slice b).setEntry u e := by
  cases e <;> simp [World.slice, World.setEntry, Slice.setEntry, KeyDb.setEntry, World.stored]

theorem slice_setStored (s : Option StoredBlock) :
    (w.setStored b s).slice b = (w.slice b).setStored s := by
  simp [World.slice, Slice.setStored, World.setStored, World.stored, DataDb.stored_setStored]

end Requests

/-- The request that sets a token. -/
def Req.setToken (isUpdate : Bool) (b u o t : Bytes) : Req :=
  if isUpdate then .ks (.setWtoken b u o t) else .ks (.setRtoken b u o t)

theorem justified_setToken {E : Env} {c : Call} {h : Hist} {isUpdate : Bool} {b u o t : Bytes} :
    E.Justified c h (Req.setToken isUpdate b u o t) ↔ E.Saves c h isUpdate b u o t := by
  cases isUpdate <;> exact Iff.rfl

/-- **A token is there because it was, or because it has just been set.** -/
theorem token_handle {E : Env} {w : World} {r : Req} {isUpdate : Bool} {b u : Bytes}
    {x : Bytes × Bytes} (hx : ((E.handle w r).2.slice b).token isUpdate u = some x) :
    (w.slice b).token isUpdate u = some x ∨ r = Req.setToken isUpdate b u x.2 x.1 := by
  cases isUpdate with
  | false =>
    obtain ⟨e, he, rfl⟩ := Option.map_eq_some_iff.mp hx
    have he : (E.handle w r).2.entry b u = some e := he
    have hkept : ∀ {e'}, w.entry b u = some e' → (e'.rtoken, e'.rtokenOwner) =
        (e.rtoken, e.rtokenOwner) → (w.slice b).token false u = some (e.rtoken, e.rtokenOwner) := by
      intro e' he' heq
      rw [← heq]
      exact Option.map_eq_some_iff.mpr ⟨e', he', rfl⟩
    rcases entry_cases w r b u with heq | ⟨o, t, hr, -, -, heq⟩ | ⟨o, t, e', -, -, -, he', heq⟩ |
      ⟨o, -, -, heq⟩ | ⟨o, e', -, -, he', heq⟩ <;> rw [he] at heq
    · exact Or.inl (hkept heq.symm rfl)
    · cases heq
      exact Or.inr (congrArg Sigma.fst hr)
    · cases heq
      exact Or.inl (hkept he' rfl)
    · cases heq
    · cases heq
      exact Or.inl (hkept he' rfl)
  | true =>
    have hx : writeToken ((E.handle w r).2.entry b u) = some x := hx
    rcases entry_cases w r b u with heq | ⟨o, t, -, -, -, heq⟩ | ⟨o, t, e', hr, -, -, -, heq⟩ |
      ⟨o, -, -, heq⟩ | ⟨o, e', -, -, -, heq⟩ <;> rw [heq] at hx
    · exact Or.inl hx
    · exact Or.inl hx
    · cases hx
      exact Or.inr (congrArg Sigma.fst hr)
    · cases hx
    · cases hx

/-- The request changes nothing in the stores. -/
def Req.Reads : Req → Prop
  | .ks (.getRtoken ..) => True
  | .ks (.getWtoken ..) => True
  | .ks (.getIndexedRights ..) => True
  | .ds (.readBlock _) => True
  | .getPubKeyById _ => True
  | .themis _ => True
  | _ => False

/-- Such a request leaves the slices as they are. -/
theorem slice_of_reads {E : Env} {w : World} {r : Req} (hr : r.Reads) (b : Bytes) :
    (E.handle w r).2.slice b = w.slice b := by
  match r with
  | .ks (.getRtoken b' u) =>
    rw [handle_getRtoken]
    split_ifs
    · rfl
    · cases w.entry b' u <;> rfl
  | .ks (.getWtoken b' u) =>
    rw [handle_getWtoken]
    split_ifs
    · rfl
    · cases writeToken (w.entry b' u) <;> rfl
  | .ks (.getIndexedRights b' n) => rw [handle_getIndexedRights]
  | .ds (.readBlock id) =>
    rw [handle_readBlock]
    split_ifs
    · rfl
    · cases w.stored id <;> rfl
  | .getPubKeyById _ => rfl
  | .themis _ => rfl

namespace Env

variable (E : Env)

/-- An exchange that only reads, with stores that have the slice `v` for the block `b`. -/
def ReadAt (b : Bytes) (v : Slice) (e : Event Req.Answer) : Prop :=
  e.1.Reads ∧ ∃ w : World, w.slice b = v ∧ (E.handle w e.1).1 = e.2

/-- Against the slice `v` of the block `b`, the program returns `a`, and only reads. -/
def Computes {α : Type} (b : Bytes) (p : Client α) (v : Slice) (a : α) : Prop :=
  p.Evals E.handle (World.slice b) (E.ReadAt b v) v a v

/-- Against the slice `v` of the block `b`, the program ends as `Post` says. -/
def Does {α : Type} (b : Bytes) (p : Client α) (v : Slice) (h : Hist)
    (Post : Except Stop α → Slice → Hist → Prop) : Prop :=
  p.Ensures E.handle (World.slice b) Post v h

variable {E} {α β : Type} {b : Bytes} {v : Slice}

theorem computes_ret (a : α) : E.Computes b (.ret a) v a := Prog.evals_ret a

theorem Computes.trans {p : Client α} {f : α → Client β} {a : α} {x : β} (hp : E.Computes b p v a)
    (hf : E.Computes b (f a) v x) : E.Computes b (p >>= f) v x :=
  Prog.Evals.trans hp hf

/-- A part that only reads, before one that does something. -/
theorem Computes.does {p : Client α} {f : α → Client β} {a : α} {h : Hist}
    {Post : Except Stop β → Slice → Hist → Prop} (hp : E.Computes b p v a)
    (hf : ∀ l : Hist, (∀ e ∈ l, E.ReadAt b v e) → E.Does b (f a) v (l ++ h) Post) :
    E.Does b (p >>= f) v h Post :=
  Prog.Evals.bind hp hf

/-- A request whose answer depends on the slice only, and that reads. -/
theorem computes_req {r : Req} {k : r.Answer → Client α} {x : r.Answer} {a : α}
    (hr : ∀ w : World, w.slice b = v → (E.handle w r).1 = x ∧ (E.handle w r).2.slice b = v)
    (hC : r.Reads) (hk : E.Computes b (k x) v a) : E.Computes b (.req r k) v a :=
  Prog.evals_req hr (fun w hw => ⟨hC, w, hw, rfl⟩) hk

/-! ### Tokens and users -/

/-- What the key store answers to the request for a token. -/
def tokenReply : Option (Bytes × Bytes) → Reply (Bytes × Bytes)
  | some x => .ok x
  | none => .error .fail

theorem computes_getToken {u : Bytes} (hb : b ≠ []) (hu : u ≠ []) (isUpdate : Bool) :
    E.Computes b (hermesKeyStoreGetToken isUpdate u b) v (tokenReply (v.token isUpdate u)) := by
  unfold hermesKeyStoreGetToken
  rw [if_neg (by tauto)]
  cases isUpdate with
  | true =>
    refine computes_req (fun w hw => ?_) trivial (computes_ret _)
    subst hw
    rw [handle_getWtoken, if_neg (by tauto)]
    simp only [Slice.token, if_true, entry_slice]
    cases writeToken (w.entry b u) <;> exact ⟨rfl, rfl⟩
  | false =>
    refine computes_req (fun w hw => ?_) trivial (computes_ret _)
    subst hw
    rw [handle_getRtoken, if_neg (by tauto)]
    simp only [Slice.token, Bool.false_eq_true, if_false, entry_slice]
    cases w.entry b u <;> exact ⟨rfl, rfl⟩

theorem computes_getPublicKey (id : Bytes) :
    E.Computes b (hermesCredentialStoreGetPublicKey id) v
      (hmCredentialStoreGetPubKeyById E.credentials id) := by
  unfold hermesCredentialStoreGetPublicKey
  split_ifs with h
  · rw [hmCredentialStoreGetPubKeyById, if_pos h]
    exact computes_ret _
  · exact computes_req (fun w hw => ⟨rfl, hw⟩) trivial (computes_ret _)

/-- The user object of an id. -/
def loadUser (E : Env) (id : Bytes) : Option User :=
  match hmCredentialStoreGetPubKeyById E.credentials id with
  | .ok pk => midHermesLlUserCreate id pk
  | .error _ => none

theorem computes_userLoad (id : Bytes) :
    E.Computes b (midHermesLlUserLoad id) v (E.loadUser id) := by
  refine (computes_getPublicKey id).trans ?_
  unfold loadUser
  cases hmCredentialStoreGetPubKeyById E.credentials id <;> exact computes_ret _

theorem computes_userLoadC (id : Bytes) :
    E.Computes b (midHermesLlUserLoadC id) v (E.loadUser id) := by
  unfold midHermesLlUserLoadC
  split_ifs with h
  · have hnone : E.loadUser id = none := by simp [loadUser, hmCredentialStoreGetPubKeyById, h]
    rw [hnone]
    exact computes_ret _
  · exact computes_userLoad id

/-- A user object is that of a registered id. -/
theorem loadUser_eq_some {id : Bytes} {u : User} (h : E.loadUser id = some u) :
    u.id = id ∧ E.credentials id = some u.pk ∧ u.sk = none := by
  unfold loadUser at h
  cases hc : hmCredentialStoreGetPubKeyById E.credentials id with
  | error _ => rw [hc] at h; cases h
  | ok pk =>
    rw [hc] at h
    obtain ⟨hid, hpk, hsk⟩ := userCreate_eq_some h
    exact ⟨hid, hpk ▸ getPubKeyById_ok (w := World.empty fun _ => ⟨List.replicate hmTokenLen 0, by
      simp⟩) hc, hsk⟩

/-- A registered id has a user object. -/
theorem exists_loadUser {id pk : Bytes} (hid : id ≠ []) (hpk : E.credentials id = some pk)
    (hne : pk ≠ []) : ∃ u, E.loadUser id = some u := by
  refine ⟨⟨id, pk, none, hid, hne⟩, ?_⟩
  simp [loadUser, hmCredentialStoreGetPubKeyById, hid, hpk, midHermesLlUserCreate, hne]

/-- The token object the client makes of a token of its own user. -/
def ownToken (E : Env) (user : User) (x : Option (Bytes × Bytes)) : Option Token :=
  x.bind fun x => (E.loadUser x.2).map fun owner => ⟨user, owner, x.1⟩

theorem computes_tokenLoad {user : User} (hb : b ≠ []) (isUpdate : Bool) :
    E.Computes b (midHermesLlTokenLoad user b isUpdate) v
      (E.ownToken user (v.token isUpdate user.id)) := by
  refine (computes_getToken hb user.id_ne_nil isUpdate).trans ?_
  cases v.token isUpdate user.id with
  | none => exact computes_ret _
  | some x =>
    refine (computes_getPublicKey x.2).trans ?_
    simp only [ownToken, Option.bind_some, loadUser]
    cases hmCredentialStoreGetPubKeyById E.credentials x.2 with
    | error _ => exact computes_ret _
    | ok pk =>
      dsimp only
      cases midHermesLlUserCreate x.2 pk <;> exact computes_ret _

/-- The token object the client makes of a token of another user. -/
def otherToken (E : Env) (u : Bytes) (x : Option (Bytes × Bytes)) : Option Token :=
  x.bind fun x => (E.loadUser u).bind fun user => (E.loadUser x.2).map fun owner =>
    ⟨user, owner, x.1⟩

theorem computes_tokenLoadC {u : Bytes} (hb : b ≠ []) (hu : u ≠ []) (isUpdate : Bool) :
    E.Computes b (midHermesLlTokenLoadC u b isUpdate) v
      (E.otherToken u (v.token isUpdate u)) := by
  unfold midHermesLlTokenLoadC
  rw [if_neg (by tauto)]
  refine (computes_getToken hb hu isUpdate).trans ?_
  cases v.token isUpdate u with
  | none => exact computes_ret _
  | some x =>
    refine (computes_userLoadC u).trans ?_
    simp only [otherToken, Option.bind_some]
    cases E.loadUser u with
    | none => exact computes_ret _
    | some user =>
      refine (computes_userLoad x.2).trans ?_
      cases E.loadUser x.2 <;> exact computes_ret _

/-! ### Cryptography -/

theorem computes_themis {r : ThemisReq} {k : r.Answer → Client α} {a : α} {x : r.Answer}
    (hx : ∀ rands, serveThemis E.themis rands r = x) (hk : E.Computes b (k x) v a) :
    E.Computes b (.req (.themis r) k) v a := by
  refine computes_req (r := .themis r) (x := x) (fun w hw => ⟨?_, hw⟩) trivial hk
  exact hx w.rands

theorem computes_encrypt {k d mt : Bytes} (hk : k ≠ []) (hd : d ≠ []) :
    E.Computes b (hmEncrypt k d mt) v (.ok (E.themis.encryptSeal k mt d)) := by
  unfold hmEncrypt
  rw [if_neg (by tauto)]
  exact computes_themis (fun _ => rfl) (computes_ret _)

theorem computes_decrypt {k x mt : Bytes} (hk : k ≠ []) (hx : x ≠ []) :
    E.Computes b (hmDecrypt k x mt) v (hmResult (E.themis.decryptSeal k mt x)) := by
  unfold hmDecrypt
  rw [if_neg (by tauto)]
  exact computes_themis (fun _ => rfl) (computes_ret _)

theorem computes_macCreate {k d mt : Bytes} (hk : k ≠ []) (hd : d ≠ []) :
    E.Computes b (hmMacCreate k d mt) v (.ok (E.themis.hmac k [d, mt])) := by
  unfold hmMacCreate
  rw [if_neg (by tauto)]
  exact computes_themis (fun _ => rfl) (computes_ret _)

theorem computes_asymEncrypt {sk pk k : Bytes} (hsk : sk ≠ []) (hpk : pk ≠ []) (hk : k ≠ []) :
    E.Computes b (hmAsymEncrypt sk pk k) v (.ok (E.themis.wrap sk pk k)) := by
  unfold hmAsymEncrypt
  rw [if_neg (by tauto)]
  exact computes_themis (fun _ => rfl) (computes_ret _)

/-- A token object of the user that wraps a key for it. -/
structure HoldsKey (E : Env) (user : User) (x : Bytes × Bytes) (k : Bytes) (tok : Token) :
    Prop where
  user_eq : tok.user = user
  token_eq : tok.token = x.1
  owner_eq : tok.owner.id = x.2
  key_ne : k ≠ []
  unwrap : ∀ sk, user.sk = some sk → E.themis.unwrap sk tok.owner.pk tok.token = some k

/-- A well-formed token gives such an object. -/
theorem TokenFor.holdsKey {user : User} {x : Bytes × Bytes} {k : Bytes} (hreg : E.Registered user)
    (hx : E.TokenFor user.id x k) :
    ∃ tok, E.ownToken user (some x) = some tok ∧ E.HoldsKey user x k tok := by
  obtain ⟨sko, pk, hcr, -, -, -⟩ := hx.wrapped
  obtain ⟨owner, howner⟩ := exists_loadUser hx.owner_ne hcr (E.themis.pub_ne_nil _)
  obtain ⟨hid, hpk, -⟩ := loadUser_eq_some howner
  refine ⟨⟨user, owner, x.1⟩, by simp [ownToken, howner], rfl, rfl, hid, hx.key_ne, ?_⟩
  intro sk hsk
  obtain ⟨sk', pk', hsk', hpk', hun⟩ := hx.opens hreg
  rw [hpk] at hpk'
  cases hpk'
  cases hsk.symm.trans hsk'
  exact hun

theorem computes_getData {user : User} {x : Bytes × Bytes} {k : Bytes} {tok : Token}
    (hreg : E.Registered user) (ht : E.HoldsKey user x k tok) :
    E.Computes b (midHermesLlTokenGetData tok) v (some k) := by
  obtain ⟨sk, hne, hsk, -⟩ := hreg.sk_eq
  have hun := ht.unwrap sk hsk
  have htok : tok.token ≠ [] := by
    obtain ⟨a, -, hx⟩ := E.themis.wrap_of_unwrap hun
    rw [hx]
    exact E.themis.wrap_ne_nil _ _ _
  unfold midHermesLlTokenGetData
  rw [ht.user_eq, hsk]
  have hdec : E.Computes b (hmAsymDecrypt sk tok.owner.pk tok.token) v (.ok k) := by
    unfold hmAsymDecrypt
    rw [if_neg (by have := tok.owner.pk_ne_nil; tauto)]
    refine computes_themis (x := some k.length)
      (fun _ => E.themis.unwrapSize_of_unwrap hun) ?_
    exact computes_themis (x := some k) (fun _ => hun) (computes_ret _)
  exact hdec.trans (computes_ret _)

/-- The key in a token, wrapped for another user. -/
theorem computes_getTokenForUser {user forUser : User} {x : Bytes × Bytes} {k sk : Bytes}
    {tok : Token} (hreg : E.Registered user) (hsk : user.sk = some sk)
    (ht : E.HoldsKey user x k tok) :
    E.Computes b (midHermesLlTokenGetTokenForUser tok forUser) v
      (some ⟨forUser, user, E.themis.wrap sk forUser.pk k⟩) := by
  obtain ⟨sk', hne, hsk', -⟩ := hreg.sk_eq
  cases hsk.symm.trans hsk'
  refine (computes_getData hreg ht).trans ?_
  dsimp only
  rw [ht.user_eq, hsk]
  refine (computes_asymEncrypt hne forUser.pk_ne_nil ht.key_ne).trans ?_
  exact computes_ret _

end Env

end Hermes

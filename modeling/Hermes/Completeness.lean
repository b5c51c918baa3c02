import Hermes.Faults

/-!
# Complete rights lists

The list that `mid_hermes_ll_block_access_rights` returns has a node for every user of the
block other than the one who asks, in the order in which the key store lists them, with the
tokens the key store has (`Hermes.Env.accessRights_complete`), if no request fails.

If some do (`Hermes.Env.flaky`), the list may be a shorter one, and the call does not tell.
What fails while a user or its read token is loaded makes the call fail. A failure to name the
next user is the end of the list, and a failure to load a write token is a user without one.
So the list is complete or `NULL` exactly if nobody is lost in one of these two ways, or some
failure is noticed (`Hermes.Env.kept_iff`).
-/

namespace Hermes

open Interleave

/-- Which requests fail, and with what status: those that name the user of an index, and, by
their number since one of them, those that load a token or a public key. -/
structure Choice where
  /-- The request for the user of an index. -/
  enumeration : ℕ → Option Failure
  /-- The loading of a number after the request for an index. -/
  request : ℕ → ℕ → Option Failure

/-- The enumeration of these users, from the index `i` on, gets to a user at which, with the
index and the users after it, `P` holds. -/
def Choice.Meets (c : Choice) (P : ℕ → Bytes → List Bytes → Prop) : ℕ → List Bytes → Prop
  | _, [] => False
  | i, u :: us => P i u us ∨ (c.enumeration (i + 1) = none ∧ c.Meets P (i + 1) us)

/-- The index of which the request asks for the user. -/
def Req.index? : Req → Option ℕ
  | .ks (.getIndexedRights _ k) => some k
  | _ => none

/-- The request loads a token or a public key. -/
def Req.loads : Req → Bool
  | .ks (.getRtoken ..) => true
  | .ks (.getWtoken ..) => true
  | .getPubKeyById _ => true
  | _ => false

/-- The object of the block with this id that a user has loaded, as far as the rights list
depends on it. -/
def loadedObject (user : User) : Block :=
  { midHermesLlBlockCreateEmpty user with id := some [9], mac := some [1] }

namespace Env

variable {E : Env} {v : Slice} {w : World} {b : Bytes} {bl : Block}

/-! ### Without failures -/

/-- The nodes of users say what their entries say. -/
theorem Known.map_rightsNode (hv : E.Known v) {us : List Bytes} (hus : ∀ u ∈ us, v.entry u ≠ none) :
    (us.filterMap (E.rightsNode v)).map (fun node => (node.user.id, some (nodeEntry node))) =
      us.map fun u => (u, v.entry u) := by
  induction us with
  | nil => rfl
  | cons u us ih =>
    obtain ⟨e, he⟩ := Option.ne_none_iff_exists'.mp (hus u List.mem_cons_self)
    obtain ⟨node, hnode, hn, hentry⟩ := hv.exists_rightsNode he
    rw [List.filterMap_cons_some hnode, List.map_cons, List.map_cons,
      ih fun u' hu' => hus u' (List.mem_cons_of_mem u hu'), hn.user_eq, hentry, he]

/-- **The rights list is complete**: for every user of the block other than that of the object,
in the order of the key store, one node, with the id, the read token and its owner, and the
write token and its owner if there is one. -/
theorem accessRights_complete {fuel : ℕ} (hv : E.Known (w.slice b)) (hb : b ≠ [])
    (hid : bl.id = some b) (hmac : bl.mac ≠ none) (hu : w.entry b bl.user.id ≠ none)
    (hfuel : (w.keys b).keys.length ≤ fuel) :
    ∃ rights w', (midHermesLlBlockAccessRights fuel bl).run E.handle w = (.ok (some rights), w') ∧
      w'.slice b = w.slice b ∧
      rights.map (fun node => (node.user.id, some (nodeEntry node))) =
        ((E.userIds (w.slice b)).filter (· ≠ bl.user.id)).map fun u => (u, w.entry b u) := by
  obtain ⟨mac, hmac⟩ := Option.ne_none_iff_exists'.mp hmac
  have hcomp := hv.computes_accessRights hb hid hmac hu hfuel
  obtain ⟨hrun, hslice, -⟩ := (hcomp []).run (s := w)
  refine ⟨_, _, Prod.ext hrun rfl, hslice, hv.map_rightsNode fun u hmem => ?_⟩
  exact mem_userIds.mp (List.mem_of_mem_filter hmem)

/-- Alice asks who has access to the block she shares with Bob. -/
theorem accessRights_complete_sharing : ∃ rights w',
    (midHermesLlBlockAccessRights 8 (loadedObject alice)).run demoEnv.handle sharing.state =
        (.ok (some rights), w') ∧ w'.slice [9] = sharing.state.slice [9] ∧
      rights.map (fun node => (node.user.id, some (nodeEntry node))) =
        ((demoEnv.userIds (sharing.state.slice [9])).filter (· ≠ alice.id)).map
          fun u => (u, sharing.state.entry [9] u) :=
  accessRights_complete (reachable_sharing.wellFormed.1.at [9]).known (by decide) rfl
    (by decide) (by decide +kernel) (by decide +kernel)

/-! ### With failures -/

/-- The stores, when some of the requests fail with which a rights list is made: those for its
users, and the loadings after the first of these. With the stores goes the index that was asked
for last, and the number of the loadings since, if one was asked for. -/
def flaky (E : Env) (c : Choice) (s : World × Option (ℕ × ℕ)) (r : Req) :
    r.Answer × World × Option (ℕ × ℕ) :=
  match r.index? with
  | some k => ((E.attempt (c.enumeration k) s.1 r).1, (E.attempt (c.enumeration k) s.1 r).2,
      some (k, 0))
  | none =>
    match s.2 with
    | none => ((E.handle s.1 r).1, (E.handle s.1 r).2, none)
    | some (i, j) =>
      if r.loads then ((E.attempt (c.request i j) s.1 r).1, (E.attempt (c.request i j) s.1 r).2,
        some (i, j + 1))
      else ((E.handle s.1 r).1, (E.handle s.1 r).2, some (i, j))

variable {c : Choice} {i j : ℕ}

/-- The user object of an id, if the `j`-th request after the `i`-th user was named does not
fail. -/
def loadedUser (E : Env) (c : Choice) (i j : ℕ) (id : Bytes) : Option User :=
  match c.request i j with
  | some _ => none
  | none => E.loadUser id

/-- The token object of a user, if none of the three requests for it fails. -/
def loadedToken (E : Env) (c : Choice) (i j : ℕ) (u : Bytes) (x : Option (Bytes × Bytes)) :
    Option Token :=
  match c.request i j with
  | some _ => none
  | none => x.bind fun x => (E.loadedUser c i (j + 1) u).bind fun user =>
      (E.loadedUser c i (j + 2) x.2).map fun owner => ⟨user, owner, x.1⟩

theorem loadUser_nil : E.loadUser [] = none := by
  simp [loadUser, hmCredentialStoreGetPubKeyById]

theorem loadedUser_nil : E.loadedUser c i j [] = none := by
  unfold loadedUser
  cases c.request i j with
  | some _ => rfl
  | none => exact loadUser_nil

theorem run_userLoad (c : Choice) (w : World) (i j : ℕ) (id : Bytes) :
    ∃ j', (midHermesLlUserLoad id).run (E.flaky c) (w, some (i, j)) =
        (.ok (E.loadedUser c i j id), w, some (i, j')) ∧
      ((E.loadedUser c i j id).isSome → j' = j + 1) := by
  unfold midHermesLlUserLoad hermesCredentialStoreGetPublicKey
  by_cases hid : id = []
  · subst hid
    rw [loadedUser_nil]
    exact ⟨j, rfl, by simp⟩
  · refine ⟨j + 1, ?_, fun _ => rfl⟩
    rw [if_neg hid, Prog.req_bind, Prog.run_req]
    simp only [flaky, attempt, Req.index?, Req.loads, if_true, loadedUser]
    cases c.request i j with
    | some f => rfl
    | none =>
      simp only [handle, loadUser, Prog.ret_bind]
      cases hmCredentialStoreGetPubKeyById E.credentials id <;> rfl

theorem run_userLoadC (c : Choice) (w : World) (i j : ℕ) (id : Bytes) :
    ∃ j', (midHermesLlUserLoadC id).run (E.flaky c) (w, some (i, j)) =
        (.ok (E.loadedUser c i j id), w, some (i, j')) ∧
      ((E.loadedUser c i j id).isSome → j' = j + 1) := by
  unfold midHermesLlUserLoadC
  by_cases hid : id = []
  · subst hid
    rw [if_pos rfl, loadedUser_nil]
    exact ⟨j, rfl, by simp⟩
  · rw [if_neg hid]
    exact run_userLoad c w i j id

/-- The key store is asked for a token once. -/
theorem run_getToken (hb : b ≠ []) {u : Bytes} (hu : u ≠ []) (c : Choice) (w : World) (i j : ℕ)
    (isUpdate : Bool) : ∃ r,
      (hermesKeyStoreGetToken isUpdate u b).run (E.flaky c) (w, some (i, j)) =
        (.ok r, w, some (i, j + 1)) ∧
      r.toOption = match c.request i j with
        | some _ => none
        | none => (w.slice b).token isUpdate u := by
  unfold hermesKeyStoreGetToken
  rw [if_neg (by tauto)]
  cases isUpdate with
  | true =>
    simp only [if_true, Prog.run_req, flaky, Req.index?, Req.loads, attempt]
    cases c.request i j with
    | some f => exact ⟨.error f, rfl, rfl⟩
    | none =>
      simp only [handle_getWtoken, if_neg (show ¬(b = [] ∨ u = []) by tauto), Slice.token,
        entry_slice]
      cases writeToken (w.entry b u) with
      | none => exact ⟨_, rfl, rfl⟩
      | some x => exact ⟨_, rfl, rfl⟩
  | false =>
    simp only [Bool.false_eq_true, if_false, if_true, Prog.run_req, flaky, Req.index?, Req.loads,
      attempt]
    cases c.request i j with
    | some f => exact ⟨.error f, rfl, rfl⟩
    | none =>
      simp only [handle_getRtoken, if_neg (show ¬(b = [] ∨ u = []) by tauto), Slice.token,
        entry_slice]
      cases w.entry b u with
      | none => exact ⟨_, rfl, rfl⟩
      | some e => exact ⟨_, rfl, rfl⟩

theorem run_tokenLoadC (hb : b ≠ []) (c : Choice) (w : World) (i j : ℕ) (u : Bytes)
    (isUpdate : Bool) :
    ∃ j', (midHermesLlTokenLoadC u b isUpdate).run (E.flaky c) (w, some (i, j)) =
        (.ok (E.loadedToken c i j u ((w.slice b).token isUpdate u)), w, some (i, j')) ∧
      ((E.loadedToken c i j u ((w.slice b).token isUpdate u)).isSome → j' = j + 3) := by
  unfold midHermesLlTokenLoadC
  by_cases hu : u = []
  · -- nothing is asked, and a user without id cannot be loaded either
    subst hu
    have hnone : E.loadedToken c i j [] ((w.slice b).token isUpdate []) = none := by
      unfold loadedToken
      cases c.request i j <;> simp [loadedUser_nil]
    rw [if_pos (Or.inl rfl), hnone]
    exact ⟨j, rfl, by simp⟩
  · rw [if_neg (by tauto)]
    obtain ⟨r, hget, hr⟩ := run_getToken (E := E) hb hu c w i j isUpdate
    rw [Prog.run_bind_of_ok hget]
    unfold loadedToken
    cases hc : c.request i j with
    | some f =>
      rw [hc] at hr
      cases r with
      | error f' => exact ⟨j + 1, rfl, by simp⟩
      | ok x => cases hr
    | none =>
      rw [hc] at hr
      dsimp only at hr ⊢
      rw [← hr]
      cases r with
      | error f => exact ⟨j + 1, rfl, by simp [Except.toOption]⟩
      | ok x =>
        -- the requests for the two users are counted from here, if each of them is made
        obtain ⟨j₁, huser, hj₁⟩ := run_userLoadC (E := E) c w i (j + 1) u
        obtain ⟨t, o⟩ := x
        dsimp only
        rw [Prog.run_bind_of_ok huser]
        simp only [Except.toOption, Option.bind_some]
        cases hl : E.loadedUser c i (j + 1) u with
        | none => exact ⟨j₁, rfl, by simp⟩
        | some user =>
          obtain rfl := hj₁ (by rw [hl]; rfl)
          obtain ⟨j₂, howner, hj₂⟩ := run_userLoad (E := E) c w i (j + 2) o
          dsimp only
          rw [Prog.run_bind_of_ok howner]
          cases ho : E.loadedUser c i (j + 2) o with
          | none => exact ⟨j₂, rfl, by simp⟩
          | some owner => exact ⟨j₂, by simp, fun _ => hj₂ (by rw [ho]; rfl)⟩

/-- What is appended to the list for the user of an index, if all that is needed can be
loaded. -/
def loadedNodes (E : Env) (c : Choice) (v : Slice) (caller : Bytes) (i : ℕ) (u : Bytes) :
    Option (List RightsListNode) :=
  (E.loadedUser c i 0 u).bind fun user =>
    if u = caller then some []
    else (E.loadedToken c i 1 u (v.token false u)).map fun rtoken =>
      [⟨user, rtoken, E.loadedToken c i 4 u (v.token true u)⟩]

/-- What is appended to the list from some index on, for the users from there on. -/
def loadedRights (E : Env) (c : Choice) (v : Slice) (caller : Bytes) :
    ℕ → List Bytes → Option (List RightsListNode)
  | _, [] => some []
  | i, u :: us => (E.loadedNodes c v caller i u).bind fun nodes =>
      match c.enumeration (i + 1) with
      | some _ => some nodes
      | none => (loadedRights E c v caller (i + 1) us).map fun rights => nodes ++ rights

/-- A user that is loaded has the public key the credential store has. -/
theorem credentials_of_loadedUser {u : Bytes} {user : User}
    (h : E.loadedUser c i j u = some user) :
    user.id = u ∧ E.credentials user.id = some user.pk := by
  unfold loadedUser at h
  cases hc : c.request i j with
  | some f =>
    rw [hc] at h
    cases h
  | none =>
    rw [hc] at h
    obtain ⟨hid, hpk, -⟩ := loadUser_eq_some h
    exact ⟨hid, hid ▸ hpk⟩

/-- One user. -/
theorem run_accessRightsNode (bl : Block) (hb : b ≠ []) (c : Choice) (w : World) (i : ℕ) (u : Bytes)
    (rights : List RightsListNode) : ∃ j',
      (midHermesLlBlockAccessRightsNode bl b u rights).run (E.flaky c) (w, some (i, 0)) =
        (.ok ((E.loadedNodes c (w.slice b) bl.user.id i u).map fun nodes => rights ++ nodes),
          w, some (i, j')) := by
  obtain ⟨j₁, huser, hj₁⟩ := run_userLoadC (E := E) c w i 0 u
  unfold midHermesLlBlockAccessRightsNode loadedNodes
  rw [Prog.run_bind_of_ok huser]
  cases hl : E.loadedUser c i 0 u with
  | none =>
    -- the tokens are loaded all the same, whatever their requests are numbered
    obtain ⟨j₂, hrt, -⟩ := run_tokenLoadC (E := E) hb c w i j₁ u false
    obtain ⟨j₃, hwt, -⟩ := run_tokenLoadC (E := E) hb c w i j₂ u true
    refine ⟨j₃, ?_⟩
    rw [Option.any_none, if_neg Bool.false_ne_true]
    exact (Prog.run_bind_of_ok hrt).trans (Prog.run_bind_of_ok hwt)
  | some user =>
    obtain rfl := hj₁ (by rw [hl]; rfl)
    by_cases hself : u = bl.user.id
    · have heq : (some user).any (midHermesLlUserIsEqual · bl.user) = true := by
        simp [midHermesLlUserIsEqual, (credentials_of_loadedUser hl).1, hself]
      refine ⟨1, ?_⟩
      rw [if_pos heq, Option.bind_some, if_pos hself, Option.map_some, List.append_nil]
      rfl
    · have hneq : ¬(some user).any (midHermesLlUserIsEqual · bl.user) = true := by
        simp [midHermesLlUserIsEqual, (credentials_of_loadedUser hl).1, hself]
      rw [if_neg hneq, Option.bind_some, if_neg hself]
      obtain ⟨j₂, hrt, hj₂⟩ := run_tokenLoadC (E := E) hb c w i 1 u false
      rw [show midHermesLlRtokenLoadC u b = midHermesLlTokenLoadC u b false from rfl,
        Prog.run_bind_of_ok hrt]
      cases hr : E.loadedToken c i 1 u ((w.slice b).token false u) with
      | none =>
        obtain ⟨j₃, hwt, -⟩ := run_tokenLoadC (E := E) hb c w i j₂ u true
        exact ⟨j₃, Prog.run_bind_of_ok hwt⟩
      | some rtoken =>
        obtain rfl := hj₂ (by rw [hr]; rfl)
        obtain ⟨j₃, hwt, -⟩ := run_tokenLoadC (E := E) hb c w i 4 u true
        exact ⟨j₃, Prog.run_bind_of_ok hwt⟩

/-- The request for the first user. -/
theorem run_iteratorCreate (hb : b ≠ []) (c : Choice) (w : World) (o : Option (ℕ × ℕ)) :
    (hermesKeyStoreIteratorCreate b).run (E.flaky c) (w, o) =
      (.ok (match c.enumeration 0 with
        | some _ => none
        | none => E.iteratorAt b (w.slice b) 0), w, some (0, 0)) := by
  unfold hermesKeyStoreIteratorCreate
  rw [if_neg hb]
  simp only [Prog.run_req, flaky, Req.index?, attempt]
  cases c.enumeration 0 with
  | some f => rfl
  | none =>
    dsimp only
    rw [handle_getIndexedRights, answer_getIndexedRights hb]
    cases hi : E.iteratorAt b (w.slice b) 0 with
    | none => rfl
    | some i =>
      obtain ⟨hid, hn, -⟩ := iteratorAt_eq_some hi
      obtain ⟨blockId, u, mask, n⟩ := i
      cases hid
      cases hn
      rfl

/-- The request for the next user. -/
theorem run_iteratorNext (hb : b ≠ []) (c : Choice) (w : World) (j : ℕ) {i : KeyStoreIterator}
    (hid : i.blockId = b) :
    (hermesKeyStoreIteratorNext i).run (E.flaky c) (w, some (i.currentIndex, j)) =
      (.ok (match c.enumeration (i.currentIndex + 1) with
        | some _ => .error .fail
        | none => (E.iteratorAt b (w.slice b) (i.currentIndex + 1)).elim (.error .fail) .ok),
        w, some (i.currentIndex + 1, 0)) := by
  unfold hermesKeyStoreIteratorNext
  rw [hid]
  simp only [Prog.run_req, flaky, Req.index?, attempt]
  cases c.enumeration (i.currentIndex + 1) with
  | some f => rfl
  | none =>
    dsimp only
    rw [handle_getIndexedRights, answer_getIndexedRights hb]
    cases hi : E.iteratorAt b (w.slice b) (i.currentIndex + 1) with
    | none => rfl
    | some i' =>
      obtain ⟨hid', hn', -⟩ := iteratorAt_eq_some hi
      obtain ⟨blockId, u, mask, n⟩ := i'
      cases hid'
      cases hn'
      rfl

/-- **The loop**, from the user it is at, with enough fuel. -/
theorem run_accessRightsLoop (bl : Block) (hb : b ≠ []) (c : Choice) (w : World) {fuel n : ℕ}
    {i : KeyStoreIterator} (hi : E.iteratorAt b (w.slice b) n = some i)
    (hfuel : (E.userIds (w.slice b)).length ≤ n + fuel) (rights : List RightsListNode) : ∃ o,
      (midHermesLlBlockAccessRightsLoop bl b fuel i rights).run (E.flaky c) (w, some (n, 0)) =
        (.ok ((E.loadedRights c (w.slice b) bl.user.id n ((E.userIds (w.slice b)).drop n)).map
          fun nodes => rights ++ nodes), w, o) := by
  induction fuel generalizing i n rights with
  | zero =>
    obtain ⟨-, -, hcur⟩ := iteratorAt_eq_some hi
    obtain ⟨hlt, -⟩ := List.getElem?_eq_some_iff.mp hcur
    omega
  | succ fuel ih =>
    obtain ⟨hid, rfl, hcur⟩ := iteratorAt_eq_some hi
    obtain ⟨hlt, hget⟩ := List.getElem?_eq_some_iff.mp hcur
    obtain ⟨j, hnode⟩ := run_accessRightsNode (E := E) bl hb c w i.currentIndex
      i.currentUserId rights
    rw [List.drop_eq_getElem_cons hlt, hget, loadedRights, midHermesLlBlockAccessRightsLoop,
      Prog.run_bind_of_ok hnode]
    cases E.loadedNodes c (w.slice b) bl.user.id i.currentIndex i.currentUserId with
    | none => exact ⟨_, rfl⟩
    | some nodes =>
      rw [Option.map_some, Option.bind_some]
      dsimp only
      rw [Prog.run_bind_of_ok (run_iteratorNext hb c w j hid)]
      cases c.enumeration (i.currentIndex + 1) with
      | some f => exact ⟨_, rfl⟩
      | none =>
        dsimp only
        cases hnext : E.iteratorAt b (w.slice b) (i.currentIndex + 1) with
        | none =>
          -- this refusal is the true end of the enumeration
          rw [List.drop_eq_nil_of_le (iteratorAt_eq_none.mp hnext), loadedRights, Option.map_some,
            List.append_nil]
          exact ⟨_, rfl⟩
        | some i' =>
          obtain ⟨o, hloop⟩ := ih hnext (by omega) (rights ++ nodes)
          refine ⟨o, hloop.trans ?_⟩
          rw [Option.map_map]
          simp only [Function.comp_def, List.append_assoc]

/-- The call, on a block that has a user and an object that has a mac. -/
theorem run_accessRights {fuel : ℕ} (hb : b ≠ []) (hid : bl.id = some b) (hmac : bl.mac ≠ none)
    {u : Bytes} (hu : w.entry b u ≠ none) (hfuel : (w.keys b).keys.length ≤ fuel) (c : Choice) :
    ∃ o, (midHermesLlBlockAccessRights fuel bl).run (E.flaky c) (w, none) =
      (match c.enumeration 0 with
        | some _ => .error .assertion
        | none => .ok (E.loadedRights c (w.slice b) bl.user.id 0 (E.userIds (w.slice b))),
        w, o) := by
  obtain ⟨mac, hmac⟩ := Option.ne_none_iff_exists'.mp hmac
  have hpos : 0 < (E.userIds (w.slice b)).length := List.length_pos_of_mem (mem_userIds.mpr hu)
  unfold midHermesLlBlockAccessRights
  simp only [hid, hmac]
  rw [Prog.run_bind_of_ok (run_iteratorCreate hb c w none)]
  cases c.enumeration 0 with
  | some f => exact ⟨_, rfl⟩
  | none =>
    dsimp only
    cases hi : E.iteratorAt b (w.slice b) 0 with
    | none =>
      have hle := iteratorAt_eq_none.mp hi
      omega
    | some i =>
      have hlen : (E.userIds (w.slice b)).length ≤ 0 + fuel := by
        rwa [length_userIds, Nat.zero_add]
      obtain ⟨o, hloop⟩ := run_accessRightsLoop bl hb c w hi hlen []
      refine ⟨o, hloop.trans ?_⟩
      simp

/-! ### What a failure does -/

/-- The user cannot be loaded by the `j`-th request after the `i`-th user was named. -/
def UserFails (E : Env) (c : Choice) (i j : ℕ) (id : Bytes) : Prop :=
  c.request i j ≠ none ∨ ¬E.Knows id

/-- The token of a user from this owner cannot be loaded by three requests, from the `j`-th
on. -/
def TokenFails (E : Env) (c : Choice) (i j : ℕ) (u owner : Bytes) : Prop :=
  c.request i j ≠ none ∨ E.UserFails c i (j + 1) u ∨ E.UserFails c i (j + 2) owner

/-- The call fails at the user of an index. -/
def NoticedAt (E : Env) (c : Choice) (v : Slice) (caller : Bytes) (i : ℕ) (u : Bytes) : Prop :=
  E.UserFails c i 0 u ∨
    (u ≠ caller ∧ ∀ e, v.entry u = some e → E.TokenFails c i 1 u e.rtokenOwner)

/-- The user of an index has a write token, and the list says that it has none. -/
def Unnoticed (E : Env) (c : Choice) (v : Slice) (caller : Bytes) (i : ℕ) (u : Bytes) : Prop :=
  u ≠ caller ∧ ∃ x, writeToken (v.entry u) = some x ∧ E.TokenFails c i 4 u x.2

/-- A write token is lost at the user of an index, or one of the users after it is. -/
def LostAt (E : Env) (c : Choice) (v : Slice) (caller : Bytes) (i : ℕ) (u : Bytes)
    (us : List Bytes) : Prop :=
  E.Unnoticed c v caller i u ∨ (c.enumeration (i + 1) ≠ none ∧ ∃ u' ∈ us, u' ≠ caller)

/-- What a node says of its user: who it is, and whether it has a write token. -/
def nodeHolds (node : RightsListNode) : Bytes × Bool := (node.user.id, node.wtoken.isSome)

/-- What the nodes should say of these users. -/
def othersHold (v : Slice) (caller : Bytes) (us : List Bytes) : List (Bytes × Bool) :=
  (us.filter (· ≠ caller)).map fun u => (u, (writeToken (v.entry u)).isSome)

/-- **Nobody is left out**: the call returns `NULL`, or a list with a node for every other
user of the block, and with a write token exactly where the key store has one. -/
def Kept (E : Env) (v : Slice) (caller : Bytes) :
    Except Stop (Option (List RightsListNode)) → Prop
  | .ok (some rights) => rights.map nodeHolds = othersHold v caller (E.userIds v)
  | .ok none => True
  | .error _ => False

instance (E : Env) (v : Slice) (caller : Bytes) (x : Except Stop (Option (List RightsListNode))) :
    Decidable (E.Kept v caller x) :=
  match x with
  | .ok (some _) => inferInstanceAs (Decidable (_ = _))
  | .ok none => isTrue trivial
  | .error _ => isFalse id

theorem loadUser_eq_none {id : Bytes} : E.loadUser id = none ↔ ¬E.Knows id := by
  constructor
  · intro hnone hknown
    obtain ⟨user, huser, -⟩ := hknown.loadUser
    rw [hnone] at huser
    cases huser
  · intro hunknown
    rw [Option.eq_none_iff_forall_ne_some]
    intro user huser
    obtain ⟨hid, hpk, -⟩ := loadUser_eq_some huser
    exact hunknown ⟨hid ▸ user.id_ne_nil, user.pk, user.pk_ne_nil, hpk⟩

theorem loadedUser_eq_none {id : Bytes} :
    E.loadedUser c i j id = none ↔ E.UserFails c i j id := by
  unfold loadedUser UserFails
  cases c.request i j with
  | some f => simp
  | none => simp [loadUser_eq_none]

theorem loadedToken_eq_none {u : Bytes} {x : Option (Bytes × Bytes)} :
    E.loadedToken c i j u x = none ↔ ∀ y, x = some y → E.TokenFails c i j u y.2 := by
  unfold loadedToken TokenFails
  cases c.request i j with
  | some f => simp
  | none =>
    cases x with
    | none => simp
    | some y =>
      simp only [Option.bind_some, Option.bind_eq_none_iff, Option.map_eq_none_iff,
        loadedUser_eq_none, ne_eq, not_true, false_or, Option.some.injEq, forall_eq']
      rw [← loadedUser_eq_none (j := j + 1)]
      cases E.loadedUser c i (j + 1) u <;> simp

theorem loadedNodes_eq_none {caller u : Bytes} :
    E.loadedNodes c v caller i u = none ↔ E.NoticedAt c v caller i u := by
  unfold loadedNodes NoticedAt
  rw [← loadedUser_eq_none]
  cases hl : E.loadedUser c i 0 u with
  | none => simp
  | some user =>
    by_cases hself : u = caller
    · simp [hself]
    · simp only [Option.bind_some, if_neg hself, Option.map_eq_none_iff, loadedToken_eq_none]
      simp [Slice.token, hself]

/-- One user: the list says what it should, unless the write token could not be loaded. -/
theorem map_loadedNodes {caller u : Bytes} {nodes : List RightsListNode}
    (h : E.loadedNodes c v caller i u = some nodes) :
    (nodes.map nodeHolds).length = (othersHold v caller [u]).length ∧
      (nodes.map nodeHolds = othersHold v caller [u] ↔ ¬E.Unnoticed c v caller i u) := by
  obtain ⟨user, huser, hnodes⟩ := Option.bind_eq_some_iff.mp h
  have hid := (credentials_of_loadedUser huser).1
  unfold othersHold Unnoticed
  by_cases hself : u = caller
  · rw [if_pos hself] at hnodes
    cases hnodes
    simp [hself]
  · rw [if_neg hself] at hnodes
    obtain ⟨rtoken, hrtoken, rfl⟩ := Option.map_eq_some_iff.mp hnodes
    have hnone := loadedToken_eq_none (E := E) (c := c) (i := i) (j := 4) (u := u)
      (x := v.token true u)
    rw [show v.token true u = writeToken (v.entry u) from rfl] at hnone ⊢
    rw [List.filter_cons_of_pos (by simpa using hself), List.filter_nil]
    refine ⟨rfl, ?_⟩
    simp only [List.map_cons, List.map_nil, nodeHolds, hid, List.cons.injEq, Prod.mk.injEq,
      true_and, and_true, hself, not_false_eq_true, ne_eq, not_exists, not_and]
    cases hw : writeToken (v.entry u) with
    | none =>
      rw [hw] at hnone
      simp [hnone.mpr]
    | some x =>
      rw [hw] at hnone
      simp only [Option.some.injEq, forall_eq'] at hnone ⊢
      rw [← hnone, Option.isSome_some, Option.isSome_iff_ne_none]

/-- The users of the nodes have the public keys the credential store has. -/
theorem credentials_of_mem_loadedRights {caller : Bytes} {us : List Bytes}
    {rights : List RightsListNode} (h : E.loadedRights c v caller i us = some rights)
    {node : RightsListNode} (hnode : node ∈ rights) :
    E.credentials node.user.id = some node.user.pk := by
  induction us generalizing i rights with
  | nil =>
    cases h
    cases hnode
  | cons u us ih =>
    rw [loadedRights] at h
    obtain ⟨nodes, hnodes, hrest⟩ := Option.bind_eq_some_iff.mp h
    have hfirst : node ∈ nodes → E.credentials node.user.id = some node.user.pk := by
      intro hmem
      obtain ⟨user, huser, hnodes⟩ := Option.bind_eq_some_iff.mp hnodes
      split_ifs at hnodes
      · cases hnodes
        cases hmem
      · obtain ⟨rtoken, -, rfl⟩ := Option.map_eq_some_iff.mp hnodes
        rw [List.mem_singleton.mp hmem]
        exact (credentials_of_loadedUser huser).2
    cases hc : c.enumeration (i + 1) with
    | some f =>
      rw [hc] at hrest
      cases hrest
      exact hfirst hnode
    | none =>
      rw [hc] at hrest
      obtain ⟨rights', hrights', rfl⟩ := Option.map_eq_some_iff.mp hrest
      exact (List.mem_append.mp hnode).elim hfirst (ih hrights')

theorem othersHold_eq_nil {caller : Bytes} {us : List Bytes} :
    othersHold v caller us = [] ↔ ¬∃ u ∈ us, u ≠ caller := by
  simp [othersHold]

/-- The loop fails if it gets to a user at which it notices a failure. -/
theorem loadedRights_eq_none {caller : Bytes} {us : List Bytes} :
    E.loadedRights c v caller i us = none ↔
      c.Meets (fun i u _ => E.NoticedAt c v caller i u) i us := by
  induction us generalizing i with
  | nil => simp [loadedRights, Choice.Meets]
  | cons u us ih =>
    rw [loadedRights, Choice.Meets, ← ih, ← loadedNodes_eq_none]
    cases E.loadedNodes c v caller i u with
    | none => simp
    | some nodes => cases c.enumeration (i + 1) <;> simp

/-- If it does not fail, the list says what it should, unless somebody is lost. -/
theorem map_loadedRights {caller : Bytes} {us : List Bytes} {rights : List RightsListNode}
    (h : E.loadedRights c v caller i us = some rights) :
    rights.map nodeHolds = othersHold v caller us ↔ ¬c.Meets (E.LostAt c v caller) i us := by
  induction us generalizing i rights with
  | nil =>
    cases h
    simp [Choice.Meets, othersHold]
  | cons u us ih =>
    rw [loadedRights] at h
    obtain ⟨nodes, hnodes, hrest⟩ := Option.bind_eq_some_iff.mp h
    obtain ⟨hlen, hone⟩ := map_loadedNodes hnodes
    have hsplit : othersHold v caller (u :: us) =
        othersHold v caller [u] ++ othersHold v caller us := by
      rw [othersHold, ← List.singleton_append, List.filter_append, List.map_append]
      rfl
    rw [hsplit, Choice.Meets, LostAt, not_or, not_or, ← hone]
    cases hc : c.enumeration (i + 1) with
    | some f =>
      rw [hc] at hrest
      cases hrest
      have hcut : (some f : Option Failure) ≠ none := nofun
      rw [and_iff_right hcut, ← othersHold_eq_nil (v := v)]
      simp only [hcut, false_and, not_false_eq_true, and_true]
      -- the list ends here: it is complete if nobody else is left
      constructor
      · intro heq
        rw [← List.append_nil (rights.map nodeHolds)] at heq
        obtain ⟨hfirst, hnil⟩ := List.append_inj heq hlen
        exact ⟨hfirst, hnil.symm⟩
      · rintro ⟨hfirst, hnil⟩
        rw [hfirst, hnil, List.append_nil]
    | none =>
      rw [hc] at hrest
      obtain ⟨rights', hrights', rfl⟩ := Option.map_eq_some_iff.mp hrest
      rw [List.map_append]
      simp only [ne_eq, not_true_eq_false, false_and, not_false_eq_true, and_true, true_and]
      rw [← ih hrights']
      constructor
      · intro heq
        exact List.append_inj heq hlen
      · rintro ⟨hfirst, hsecond⟩
        rw [hfirst, hsecond]

/-- **The failures do not cost anybody the rights**: the first user is named, and either some
failure is noticed, at a user the enumeration gets to, or nobody is lost, and no write token. -/
def Reliable (E : Env) (c : Choice) (v : Slice) (caller : Bytes) : Prop :=
  c.enumeration 0 = none ∧
    (c.Meets (fun i u _ => E.NoticedAt c v caller i u) 0 (E.userIds v) ∨
      ¬c.Meets (E.LostAt c v caller) 0 (E.userIds v))

/-- If they do not, the list has all the nodes it should have. -/
theorem Reliable.map_loadedRights {caller : Bytes} {rights : List RightsListNode}
    (hc : E.Reliable c v caller)
    (h : E.loadedRights c v caller 0 (E.userIds v) = some rights) :
    rights.map nodeHolds = othersHold v caller (E.userIds v) := by
  rcases hc.2 with hnoticed | hkept
  · rw [loadedRights_eq_none.mpr hnoticed] at h
    cases h
  · exact (Env.map_loadedRights h).mpr hkept

/-- **When the list is `NULL` or complete.** -/
theorem kept_iff {fuel : ℕ} (hb : b ≠ []) (hid : bl.id = some b) {u : Bytes}
    (hu : w.entry b u ≠ none) (hfuel : (w.keys b).keys.length ≤ fuel) (c : Choice) :
    E.Kept (w.slice b) bl.user.id
        ((midHermesLlBlockAccessRights fuel bl).run (E.flaky c) (w, none)).1 ↔
      bl.mac = none ∨ E.Reliable c (w.slice b) bl.user.id := by
  by_cases hmac : bl.mac = none
  · have hrun : midHermesLlBlockAccessRights fuel bl = .ret none := by
      unfold midHermesLlBlockAccessRights
      rw [hid, hmac]
    rw [hrun]
    exact ⟨fun _ => Or.inl hmac, fun _ => trivial⟩
  · obtain ⟨o, hrun⟩ := run_accessRights hb hid hmac hu hfuel c
    rw [hrun, or_iff_right hmac, Reliable, ← loadedRights_eq_none]
    cases c.enumeration 0 with
    | some f => simp [Kept]
    | none =>
      dsimp only
      cases hr : E.loadedRights c (w.slice b) bl.user.id 0 (E.userIds (w.slice b)) with
      | none => simp [Kept]
      | some rights => simp [Kept, Env.map_loadedRights hr]

end Env

end Hermes

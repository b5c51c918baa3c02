import Hermes.Writing

/-!
# The users of a block

What `mid_hermes_ll_block_access_rights` computes when nothing else acts on the block: a
node for every user with an entry, other than the one who asks, in the order in which the
key store lists them (`Hermes.Env.rightsList`). In well-formed stores every one of them can
be loaded, so the list is never cut short.
-/

namespace Hermes

open Interleave

namespace Env

variable (E : Env)

/-- The users of the block, in the order of the key store. -/
def userIds (v : Slice) : List Bytes := E.enumerate v.users.keys

/-- The node of a user, when its tokens and those who gave them can be loaded. -/
def rightsNode (v : Slice) (u : Bytes) : Option RightsListNode :=
  (E.loadUser u).bind fun user => (E.otherToken u (v.token false u)).map fun rtoken =>
    ⟨user, rtoken, E.otherToken u (v.token true u)⟩

/-- The nodes of the users other than the given one. -/
def rightsList (v : Slice) (u : Bytes) : List RightsListNode :=
  ((E.userIds v).filter (· ≠ u)).filterMap (E.rightsNode v)

/-- What a node holds of the entry of a user. -/
structure IsNode (v : Slice) (u : Bytes) (node : RightsListNode) : Prop where
  user_eq : node.user.id = u
  pk_eq : E.credentials u = some node.user.pk
  rtoken_user : node.rtoken.user = node.user
  wtoken_user : ∀ wt, node.wtoken = some wt → wt.user = node.user
  wtoken_isSome : node.wtoken.isSome = (writeToken (v.entry u)).isSome

variable {E} {v : Slice} {b : Bytes}

theorem mem_userIds {u : Bytes} : u ∈ E.userIds v ↔ v.entry u ≠ none := by
  rw [userIds, (E.enumerate_perm _).mem_iff, Slice.entry, ne_eq, AList.lookup_eq_none, not_not]
  exact AList.mem_keys.symm

theorem nodup_userIds : (E.userIds v).Nodup :=
  (E.enumerate_perm _).nodup_iff.mpr v.users.nodupKeys

theorem length_userIds : (E.userIds v).length = v.users.keys.length :=
  (E.enumerate_perm _).length_eq

/-- The credential store has a public key of the user. -/
def Knows (E : Env) (u : Bytes) : Prop := u ≠ [] ∧ ∃ pk, pk ≠ [] ∧ E.credentials u = some pk

/-- All users of the block are known, and all who gave them their tokens. -/
structure Known (E : Env) (v : Slice) : Prop where
  user : ∀ {u e}, v.entry u = some e → E.Knows u
  rowner : ∀ {u e}, v.entry u = some e → E.Knows e.rtokenOwner
  wowner : ∀ {u x}, writeToken (v.entry u) = some x → E.Knows x.2

theorem Knows.loadUser {u : Bytes} (h : E.Knows u) :
    ∃ user, E.loadUser u = some user ∧ user.id = u ∧ E.credentials u = some user.pk := by
  obtain ⟨hu, pk, hne, hpk⟩ := h
  obtain ⟨user, huser⟩ := exists_loadUser hu hpk hne
  obtain ⟨hid, hcr, -⟩ := loadUser_eq_some huser
  exact ⟨user, huser, hid, hcr⟩

/-- A user that appears in a token is known, and so is the owner. -/
theorem TokenFor.knows {u k : Bytes} {x : Bytes × Bytes} (h : E.TokenFor u x k) (hu : u ≠ []) :
    E.Knows u ∧ E.Knows x.2 := by
  obtain ⟨sk, pk, howner, huser, hpk, -⟩ := h.wrapped
  exact ⟨⟨hu, pk, hpk, huser⟩, h.owner_ne, _, E.themis.pub_ne_nil sk, howner⟩

/-- A user that appears in a token has a user object. -/
theorem TokenFor.loadUser {u k : Bytes} {x : Bytes × Bytes} (h : E.TokenFor u x k) (hu : u ≠ []) :
    (∃ user, E.loadUser u = some user) ∧ ∃ owner, E.loadUser x.2 = some owner := by
  obtain ⟨hknown, howner⟩ := h.knows hu
  obtain ⟨user, huser, -⟩ := hknown.loadUser
  obtain ⟨owner, howner, -⟩ := howner.loadUser
  exact ⟨⟨user, huser⟩, owner, howner⟩

/-- In well-formed stores everybody is known. -/
theorem WellFormedAt.known (hv : E.WellFormedAt v) : E.Known v where
  user he := by
    obtain ⟨hne, k, hk⟩ := hv.rtoken he
    exact (hk.knows hne).1
  rowner he := by
    obtain ⟨hne, k, hk⟩ := hv.rtoken he
    exact (hk.knows hne).2
  wowner {u x} hx := by
    obtain ⟨e, he, -⟩ := Option.bind_eq_some_iff.mp hx
    obtain ⟨kw, hkw⟩ := hv.wtoken hx
    exact (hkw.knows (hv.rtoken he).1).2

/-- What a node says of the entry of its user. -/
def nodeEntry (node : RightsListNode) : Entry :=
  ⟨node.rtoken.token, node.rtoken.owner.id, node.wtoken.map fun t => (t.token, t.owner.id)⟩

/-- **Every user of a block has a node**, if everybody is known: it says what the entry says. -/
theorem Known.exists_rightsNode (hv : E.Known v) {u : Bytes} {e : Entry}
    (he : v.entry u = some e) :
    ∃ node, E.rightsNode v u = some node ∧ E.IsNode v u node ∧ nodeEntry node = e := by
  obtain ⟨user, huser, hid, hpk⟩ := (hv.user he).loadUser
  obtain ⟨owner, howner, hoid, -⟩ := (hv.rowner he).loadUser
  have hrt : E.otherToken u (v.token false u) = some ⟨user, owner, e.rtoken⟩ := by
    simp [otherToken, Slice.token, he, huser, howner]
  have hwt : ∃ wt, E.otherToken u (v.token true u) = wt ∧ (∀ t, wt = some t → t.user = user) ∧
      wt.map (fun t => (t.token, t.owner.id)) = writeToken (v.entry u) := by
    cases hw : writeToken (v.entry u) with
    | none => exact ⟨none, by simp [otherToken, Slice.token, hw], by simp, rfl⟩
    | some x =>
      obtain ⟨o, ho, hxo, -⟩ := (hv.wowner hw).loadUser
      refine ⟨some ⟨user, o, x.1⟩, by simp [otherToken, Slice.token, hw, huser, ho], ?_, ?_⟩
      · rintro t ht
        cases ht
        rfl
      · rw [Option.map_some, hxo]
  obtain ⟨wt, hwt, hwuser, hwmap⟩ := hwt
  refine ⟨⟨user, ⟨user, owner, e.rtoken⟩, wt⟩, by simp [rightsNode, huser, hrt, hwt],
    ⟨hid, hpk, rfl, hwuser, ?_⟩, ?_⟩
  · rw [← hwmap, Option.isSome_map]
  · rw [nodeEntry, hwmap, hoid, he]
    rfl

theorem exists_rightsNode (hv : E.WellFormedAt v) {u : Bytes} (hu : v.entry u ≠ none) :
    ∃ node, E.rightsNode v u = some node ∧ E.IsNode v u node := by
  obtain ⟨e, he⟩ := Option.ne_none_iff_exists'.mp hu
  obtain ⟨node, hnode, hn, -⟩ := hv.known.exists_rightsNode he
  exact ⟨node, hnode, hn⟩

/-- **The nodes are those of the users with an entry.** -/
theorem map_rightsList (hv : E.WellFormedAt v) (u : Bytes) :
    (E.rightsList v u).map (fun node => node.user.id) = (E.userIds v).filter (· ≠ u) ∧
      ∀ node ∈ E.rightsList v u, E.IsNode v node.user.id node := by
  have hnode : ∀ u' ∈ (E.userIds v).filter (· ≠ u), ∃ node, E.rightsNode v u' = some node ∧
      E.IsNode v u' node := fun u' hu' =>
    exists_rightsNode hv (mem_userIds.mp (List.mem_filter.mp hu').1)
  rw [rightsList]
  generalize (E.userIds v).filter (· ≠ u) = ids at hnode ⊢
  induction ids with
  | nil => exact ⟨rfl, fun node h => by simp at h⟩
  | cons u' ids ih =>
    obtain ⟨node, hu', hn⟩ := hnode u' List.mem_cons_self
    obtain ⟨hmap, hall⟩ := ih fun u'' hu'' => hnode u'' (List.mem_cons_of_mem _ hu'')
    rw [List.filterMap_cons_some hu']
    refine ⟨by rw [List.map_cons, hmap, hn.user_eq], fun node' h => ?_⟩
    rcases List.mem_cons.mp h with rfl | h
    · rw [hn.user_eq]
      exact hn
    · exact hall node' h

/-- The rights list is empty exactly if nobody else has an entry. -/
theorem rightsList_eq_nil (hv : E.WellFormedAt v) {u : Bytes} :
    E.rightsList v u = [] ↔ ∀ u', u' ≠ u → v.entry u' = none := by
  rw [← List.map_eq_nil_iff (f := fun node => node.user.id), (map_rightsList hv u).1,
    List.filter_eq_nil_iff]
  refine forall_congr' fun u' => ?_
  rw [mem_userIds]
  simp only [decide_eq_true_eq]
  tauto

/-! ### Enumerating the users -/

/-- The iterator at the user of an index, if there is one. -/
def iteratorAt (E : Env) (b : Bytes) (v : Slice) (n : ℕ) : Option KeyStoreIterator :=
  (E.userIds v)[n]?.map fun u => ⟨b, u, if (writeToken (v.entry u)).isSome then 1 else 0, n⟩

theorem iteratorAt_eq_some {n : ℕ} {i : KeyStoreIterator} (h : E.iteratorAt b v n = some i) :
    i.blockId = b ∧ i.currentIndex = n ∧ (E.userIds v)[n]? = some i.currentUserId := by
  obtain ⟨u, hu, rfl⟩ := Option.map_eq_some_iff.mp h
  exact ⟨rfl, rfl, hu⟩

theorem iteratorAt_eq_none {n : ℕ} :
    E.iteratorAt b v n = none ↔ (E.userIds v).length ≤ n := by
  rw [iteratorAt, Option.map_eq_none_iff, List.getElem?_eq_none_iff]

/-- The key store names the user of an index, if there is one. -/
theorem answer_getIndexedRights (hb : b ≠ []) (w : World) (n : ℕ) :
    (E.handle w (.ks (.getIndexedRights b n))).1 =
      (E.iteratorAt b (w.slice b) n).elim (.error .fail)
        fun i => .ok (i.currentUserId, i.currentRightsMask) := by
  show (hmKeyStoreGetIndexedRights (testKeyStoreDb E.enumerate) b n w.keys).1 = _
  rw [hmKeyStoreGetIndexedRights, if_neg hb]
  show (dbGetIndexedRights E.enumerate b n w.keys).1 =
    (((E.enumerate (w.keys b).keys)[n]?).map _).elim _ _
  rw [dbGetIndexedRights]
  cases (E.enumerate (w.keys b).keys)[n]? <;> rfl

theorem computes_getIndexedRights {α : Type} (hb : b ≠ []) {n : ℕ} {a : α}
    {k : Reply (Bytes × UInt32) → Client α}
    (hk : E.Computes b (k ((E.iteratorAt b v n).elim (.error .fail)
      fun i => .ok (i.currentUserId, i.currentRightsMask))) v a) :
    E.Computes b (.req (.ks (.getIndexedRights b n)) k) v a := by
  refine computes_req (fun w hw => ⟨?_, by rw [handle_getIndexedRights, hw]⟩) trivial hk
  rw [answer_getIndexedRights hb, hw]

theorem computes_iteratorCreate (hb : b ≠ []) :
    E.Computes b (hermesKeyStoreIteratorCreate b) v (E.iteratorAt b v 0) := by
  unfold hermesKeyStoreIteratorCreate
  rw [if_neg hb]
  refine computes_getIndexedRights hb ?_
  cases hi : E.iteratorAt b v 0 with
  | none => exact computes_ret _
  | some i =>
    obtain ⟨hid, hn, -⟩ := iteratorAt_eq_some hi
    obtain ⟨blockId, u, mask, n⟩ := i
    cases hid
    cases hn
    exact computes_ret _

theorem computes_iteratorNext (hb : b ≠ []) {i : KeyStoreIterator} (hid : i.blockId = b) :
    E.Computes b (hermesKeyStoreIteratorNext i) v
      ((E.iteratorAt b v (i.currentIndex + 1)).elim (.error .fail) .ok) := by
  unfold hermesKeyStoreIteratorNext
  rw [hid]
  refine computes_getIndexedRights hb ?_
  cases hi : E.iteratorAt b v (i.currentIndex + 1) with
  | none => exact computes_ret _
  | some i' =>
    obtain ⟨hid', hn', -⟩ := iteratorAt_eq_some hi
    obtain ⟨blockId, u, mask, n⟩ := i'
    cases hid'
    cases hn'
    exact computes_ret _

/-- One user: the user of the object is passed over, another one gets its node. -/
theorem Known.computes_accessRightsNode (hv : E.Known v) (hb : b ≠ []) {bl : Block} {u : Bytes}
    (hu : v.entry u ≠ none) (rights : List RightsListNode) :
    E.Computes b (midHermesLlBlockAccessRightsNode bl b u rights) v
      (some (rights ++ ([u].filter (· ≠ bl.user.id)).filterMap (E.rightsNode v))) := by
  obtain ⟨e, he⟩ := Option.ne_none_iff_exists'.mp hu
  have hne : u ≠ [] := (hv.user he).1
  obtain ⟨user, huser, hid, -⟩ := (hv.user he).loadUser
  obtain ⟨owner, howner, -⟩ := (hv.rowner he).loadUser
  refine (computes_userLoadC u).trans ?_
  rw [huser]
  by_cases hself : u = bl.user.id
  · have heq : (some user).any (midHermesLlUserIsEqual · bl.user) = true := by
      simp [midHermesLlUserIsEqual, hid, hself]
    rw [if_pos heq, List.filter_cons_of_neg (by simpa using hself)]
    simpa using computes_ret _
  · have hneq : ¬(some user).any (midHermesLlUserIsEqual · bl.user) = true := by
      simp [midHermesLlUserIsEqual, hid, hself]
    rw [if_neg hneq, List.filter_cons_of_pos (by simpa using hself)]
    refine (computes_tokenLoadC hb hne false).trans ((computes_tokenLoadC hb hne true).trans ?_)
    have hrt : E.otherToken u (v.token false u) = some ⟨user, owner, e.rtoken⟩ := by
      simp [otherToken, Slice.token, he, huser, howner]
    have hnode : E.rightsNode v u =
        some ⟨user, ⟨user, owner, e.rtoken⟩, E.otherToken u (v.token true u)⟩ := by
      simp [rightsNode, huser, hrt]
    rw [hrt, List.filter_nil, List.filterMap_cons_some hnode]
    exact computes_ret _

/-- The loop, from the user it is at, with enough fuel. -/
theorem Known.computes_accessRightsLoop (hv : E.Known v) (hb : b ≠ []) {bl : Block} {fuel n : ℕ}
    {i : KeyStoreIterator} (hi : E.iteratorAt b v n = some i)
    (hfuel : (E.userIds v).length ≤ n + fuel) (rights : List RightsListNode) :
    E.Computes b (midHermesLlBlockAccessRightsLoop bl b fuel i rights) v
      (some (rights ++ (((E.userIds v).drop n).filter (· ≠ bl.user.id)).filterMap
        (E.rightsNode v))) := by
  induction fuel generalizing i n rights with
  | zero =>
    obtain ⟨-, -, hcur⟩ := iteratorAt_eq_some hi
    obtain ⟨hlt, -⟩ := List.getElem?_eq_some_iff.mp hcur
    omega
  | succ fuel ih =>
    obtain ⟨hid, rfl, hcur⟩ := iteratorAt_eq_some hi
    obtain ⟨hlt, hget⟩ := List.getElem?_eq_some_iff.mp hcur
    have hentry : v.entry i.currentUserId ≠ none := mem_userIds.mp (List.mem_of_getElem? hcur)
    rw [List.drop_eq_getElem_cons hlt, hget, ← List.singleton_append, List.filter_append,
      List.filterMap_append, ← List.append_assoc]
    refine (hv.computes_accessRightsNode hb hentry rights).trans ?_
    refine (computes_iteratorNext hb hid).trans ?_
    cases hnext : E.iteratorAt b v (i.currentIndex + 1) with
    | none =>
      rw [List.drop_eq_nil_of_le (iteratorAt_eq_none.mp hnext), List.filter_nil,
        List.filterMap_nil, List.append_nil]
      exact computes_ret _
    | some i' => exact ih hnext (by omega) _

/-- The loop, with too little fuel. -/
theorem does_accessRightsLoop_outOfFuel {α : Type} (hv : E.WellFormedAt v) (hb : b ≠ [])
    {bl : Block} {fuel n : ℕ} {i : KeyStoreIterator} (hi : E.iteratorAt b v n = some i)
    (hfuel : n + fuel < (E.userIds v).length) {rights : List RightsListNode} {h : Hist}
    {f : Option (List RightsListNode) → Client α} {Post : Except Stop α → Slice → Hist → Prop}
    (hpost : ∀ l : Hist, (∀ e ∈ l, E.ReadAt b v e) → Post (.error .outOfFuel) v (l ++ h)) :
    E.Does b (midHermesLlBlockAccessRightsLoop bl b fuel i rights >>= f) v h Post := by
  induction fuel generalizing i n rights h with
  | zero => exact hpost [] fun e he => by simp at he
  | succ fuel ih =>
    obtain ⟨hid, rfl, hcur⟩ := iteratorAt_eq_some hi
    have hentry : v.entry i.currentUserId ≠ none := mem_userIds.mp (List.mem_of_getElem? hcur)
    rw [midHermesLlBlockAccessRightsLoop, Prog.bind_assoc]
    refine (hv.known.computes_accessRightsNode hb hentry rights).does fun l hl => ?_
    dsimp only
    rw [Prog.bind_assoc]
    refine (computes_iteratorNext hb hid).does fun l' hl' => ?_
    cases hnext : E.iteratorAt b v (i.currentIndex + 1) with
    | none =>
      have hle := iteratorAt_eq_none.mp hnext
      omega
    | some i' =>
      refine ih hnext (by omega) fun l'' hl'' => ?_
      have hall : ∀ e ∈ l'' ++ l' ++ l, E.ReadAt b v e := fun e he => by
        rcases List.mem_append.mp he with he | he
        · exact (List.mem_append.mp he).elim (hl'' e) (hl' e)
        · exact hl e he
      simpa only [List.append_assoc] using hpost (l'' ++ l' ++ l) hall

/-- **The rights list of a block** that has a user and a mac. -/
theorem Known.computes_accessRights (hv : E.Known v) (hb : b ≠ []) {bl : Block} {mac : Bytes}
    {fuel : ℕ} (hid : bl.id = some b) (hmac : bl.mac = some mac) {u : Bytes}
    (hu : v.entry u ≠ none) (hfuel : v.users.keys.length ≤ fuel) :
    E.Computes b (midHermesLlBlockAccessRights fuel bl) v (some (E.rightsList v bl.user.id)) := by
  have hpos : 0 < (E.userIds v).length := List.length_pos_of_mem (mem_userIds.mpr hu)
  unfold midHermesLlBlockAccessRights
  simp only [hid, hmac]
  refine (computes_iteratorCreate hb).trans ?_
  cases hi : E.iteratorAt b v 0 with
  | none =>
    have hle := iteratorAt_eq_none.mp hi
    omega
  | some i =>
    have hloop : E.Computes b (midHermesLlBlockAccessRightsLoop bl b fuel i []) v _ :=
      hv.computes_accessRightsLoop hb hi (by rwa [length_userIds, Nat.zero_add]) []
    rw [List.drop_zero, List.nil_append] at hloop
    exact hloop

theorem computes_accessRights (hv : E.WellFormedAt v) (hb : b ≠ []) {bl : Block} {mac : Bytes}
    {fuel : ℕ} (hid : bl.id = some b) (hmac : bl.mac = some mac) {u : Bytes}
    (hu : v.entry u ≠ none) (hfuel : v.users.keys.length ≤ fuel) :
    E.Computes b (midHermesLlBlockAccessRights fuel bl) v (some (E.rightsList v bl.user.id)) :=
  hv.known.computes_accessRights hb hid hmac hu hfuel

/-- **The rights list, with any fuel**: the loop ends with it, or does not end. -/
theorem does_accessRights {α : Type} (hv : E.WellFormedAt v) (hb : b ≠ []) {bl : Block}
    {mac : Bytes} {fuel : ℕ} (hid : bl.id = some b) (hmac : bl.mac = some mac) {u : Bytes}
    (hu : v.entry u ≠ none) {h : Hist} {f : Option (List RightsListNode) → Client α}
    {Post : Except Stop α → Slice → Hist → Prop}
    (hrights : ∀ l : Hist, (∀ e ∈ l, E.ReadAt b v e) →
      E.Does b (f (some (E.rightsList v bl.user.id))) v (l ++ h) Post)
    (hfuel : fuel < v.users.keys.length → ∀ l : Hist, (∀ e ∈ l, E.ReadAt b v e) →
      Post (.error .outOfFuel) v (l ++ h)) :
    E.Does b (midHermesLlBlockAccessRights fuel bl >>= f) v h Post := by
  rcases Nat.lt_or_ge fuel v.users.keys.length with hlt | hge
  · have hpos : 0 < (E.userIds v).length := List.length_pos_of_mem (mem_userIds.mpr hu)
    simp only [midHermesLlBlockAccessRights, hid, hmac, Prog.bind_assoc]
    refine (computes_iteratorCreate hb).does fun l hl => ?_
    cases hi : E.iteratorAt b v 0 with
    | none =>
      have hle := iteratorAt_eq_none.mp hi
      omega
    | some i =>
      refine does_accessRightsLoop_outOfFuel hv hb hi (by rwa [length_userIds, Nat.zero_add])
        fun l' hl' => ?_
      have hall : ∀ e ∈ l' ++ l, E.ReadAt b v e := fun e he =>
        (List.mem_append.mp he).elim (hl' e) (hl e)
      simpa only [List.append_assoc] using hfuel hlt (l' ++ l) hall
  · exact (computes_accessRights hv hb hid hmac hu hge).does hrights

end Env

end Hermes

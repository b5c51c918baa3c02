import Hermes.Provenance.Operations

/-!
# Whom and what a client names

A request names a block and users. This file says where a client has the names from: they
are its own, or arguments of the call, or the key store has told them before, as the owner of
a token or as a user of the block (`Hermes.Env.names_prog`). It is about the requests
`Hermes.Env.Justified` says nothing of, the ones that read, and about removals, where it
says only of which block.
-/

namespace Hermes

open Interleave

/-- The ids in a request that reads or removes. -/
def Req.named : Req → List Bytes
  | .ks (.getRtoken b u) => [b, u]
  | .ks (.getWtoken b u) => [b, u]
  | .ks (.delRtoken b u o) => [b, u, o]
  | .ks (.delWtoken b u o) => [b, u, o]
  | .ks (.getIndexedRights b _) => [b]
  | .ds (.readBlock b) => [b]
  | .ds (.deleteBlock b _) => [b]
  | .getPubKeyById id => [id]
  | _ => []

/-- The ids an operation is given. -/
def Op.ids : Op → List Bytes
  | .createBlock id _ _ => id.toList
  | .readBlock b => [b]
  | .updateBlock b _ _ => [b]
  | .deleteBlock b => [b]
  | .rotateBlock b => [b]
  | .grantReadAccess b v => [b, v]
  | .grantUpdateAccess b v => [b, v]
  | .denyReadAccess b v => [b, v]
  | .denyUpdateAccess b v => [b, v]

/-- The key store has told the id: as the owner of a token, or as a user of a block. -/
def Told (h : Hist) (x : Bytes) : Prop :=
  (∃ isUpdate b u t, GotToken h isUpdate b u (t, x)) ∨
    ∃ b i mask, Got h (.ks (.getIndexedRights b i)) (.ok (x, mask))

/-- **A client may name** itself, what its call names, and what the key store has told. -/
def Nameable (c : Call) (h : Hist) (x : Bytes) : Prop :=
  x = c.user.id ∨ x ∈ c.op.ids ∨ Told h x

/-- What a call must have been answered to name what a request names. -/
def Names (c : Call) (h : Hist) (r : Req) : Prop := ∀ x ∈ r.named, Nameable c h x

theorem Told.mono {h h' : Hist} {x : Bytes} (ht : Told h x) (hs : h <:+ h') : Told h' x := by
  rcases ht with ⟨isUpdate, b, u, t, hg⟩ | ⟨b, i, mask, hg⟩
  · exact Or.inl ⟨isUpdate, b, u, t, hg.mono hs⟩
  · exact Or.inr ⟨b, i, mask, hg.mono hs⟩

theorem Nameable.mono {c : Call} {h h' : Hist} {x : Bytes} (hx : Nameable c h x) (hs : h <:+ h') :
    Nameable c h' x :=
  hx.imp_right fun hx => hx.imp_right fun hx => hx.mono hs

namespace Env

/-- What a program names in its justified requests, and what holds of what it returns. -/
abbrev NamesIn (E : Env) {α : Type} (c : Call) (p : Client α) (h : Hist) (Q : Hist → α → Prop) :
    Prop :=
  p.Within E.Sound (fun h r => E.Justified c h r → Names c h r) Q h

variable {E : Env} {c : Call} {h : Hist}

/-- A program whose justified requests neither read nor remove anything names nothing. -/
theorem names_of_only {α : Type} {p : Client α}
    (hp : p.Only fun r => ∀ h, E.Justified c h r → r.named = []) :
    E.NamesIn c p h fun _ _ => True :=
  hp.within fun h r hr hJ x hx => by rw [hr h hJ] at hx; cases hx

theorem named_themis {r : Req} (hr : r.IsThemis) (h : Hist) (_ : E.Justified c h r) :
    r.named = [] := by
  cases r with
  | themis _ => rfl
  | ks _ => exact hr.elim
  | ds _ => exact hr.elim
  | getPubKeyById _ => exact hr.elim

theorem names_themis {α : Type} {p : Client α} (hp : p.Only Req.IsThemis) :
    E.NamesIn c p h fun _ _ => True :=
  names_of_only (hp.mono fun _ => named_themis)

/-! ### Users and tokens -/

theorem names_getToken {isUpdate : Bool} {u b : Bytes} (hu : Nameable c h u)
    (hb : Nameable c h b) : E.NamesIn c (hermesKeyStoreGetToken isUpdate u b) h
      fun _ _ => True := by
  have hnames : ∀ x ∈ [b, u], Nameable c h x := by
    simp only [List.mem_cons, List.not_mem_nil, or_false, forall_eq_or_imp, forall_eq]
    exact ⟨hb, hu⟩
  unfold hermesKeyStoreGetToken
  split_ifs
  · trivial
  · exact ⟨fun _ => hnames, fun _ _ => trivial⟩
  · exact ⟨fun _ => hnames, fun _ _ => trivial⟩

theorem names_getPublicKey {id : Bytes} (hid : Nameable c h id) :
    E.NamesIn c (hermesCredentialStoreGetPublicKey id) h fun _ _ => True := by
  unfold hermesCredentialStoreGetPublicKey
  split_ifs
  · trivial
  · refine ⟨fun _ x hx => ?_, fun _ _ => trivial⟩
    rw [List.mem_singleton.mp hx]
    exact hid

theorem names_userLoad {id : Bytes} (hid : Nameable c h id) :
    E.NamesIn c (midHermesLlUserLoad id) h fun _ _ => True := by
  refine (names_getPublicKey hid).bind fun _ r _ _ => ?_
  cases r <;> trivial

theorem names_userLoadC {id : Bytes} (hid : Nameable c h id) :
    E.NamesIn c (midHermesLlUserLoadC id) h fun _ _ => True := by
  unfold midHermesLlUserLoadC
  split_ifs
  · trivial
  · exact names_userLoad hid

theorem told_of_gotToken {isUpdate : Bool} {b u : Bytes} {x : Bytes × Bytes}
    (hg : GotToken h isUpdate b u x) : Told h x.2 :=
  Or.inl ⟨isUpdate, b, u, x.1, hg⟩

theorem names_tokenLoadC {isUpdate : Bool} {u b : Bytes} (hu : Nameable c h u)
    (hb : Nameable c h b) :
    E.NamesIn c (midHermesLlTokenLoadC u b isUpdate) h fun _ _ => True := by
  unfold midHermesLlTokenLoadC
  split_ifs
  · trivial
  · refine ((asks_getToken (c := c) isUpdate u b).and (names_getToken hu hb)).bind
      fun h₁ r hs₁ hr => ?_
    rcases r with _ | ⟨t, o⟩
    · trivial
    · refine (names_userLoadC (hu.mono hs₁)).bind fun h₂ r hs₂ _ => ?_
      cases r with
      | none => trivial
      | some user =>
        have ho : Nameable c h₂ o := Or.inr (Or.inr ((told_of_gotToken (hr.1 _ rfl)).mono hs₂))
        refine (names_userLoad ho).bind fun h₃ r _ _ => ?_
        cases r <;> trivial

theorem names_tokenLoad {isUpdate : Bool} {user : User} {b : Bytes}
    (hu : Nameable c h user.id) (hb : Nameable c h b) :
    E.NamesIn c (midHermesLlTokenLoad user b isUpdate) h fun _ _ => True := by
  refine ((asks_getToken (c := c) isUpdate user.id b).and (names_getToken hu hb)).bind
    fun h₁ r hs₁ hr => ?_
  rcases r with _ | ⟨t, o⟩
  · trivial
  · have ho : Nameable c h₁ o := Or.inr (Or.inr (told_of_gotToken (hr.1 _ rfl)))
    refine (names_getPublicKey ho).bind fun h₂ r _ _ => ?_
    cases r with
    | error _ => trivial
    | ok pk =>
      dsimp only
      cases midHermesLlUserCreate o pk <;> trivial

/-! ### Blocks -/

theorem names_load {b : Bytes} (hb : Nameable c h b) :
    E.NamesIn c (midHermesLlBlockLoad (midHermesLlBlockCreateEmpty c.user) b) h
      fun _ _ => True := by
  refine (names_tokenLoad (Or.inl rfl) hb).bind fun h₁ rt hs₁ _ => ?_
  refine (names_tokenLoad (Or.inl rfl) (hb.mono hs₁)).bind fun h₂ wt hs₂ _ => ?_
  cases rt with
  | none => trivial
  | some rt =>
    refine Prog.Within.bind (Q := fun _ _ => True) ?_ fun h₃ r _ _ => ?_
    · unfold hermesDataStoreGetBlock
      split_ifs
      · trivial
      · refine ⟨fun _ x hx => ?_, fun _ _ => trivial⟩
        rw [List.mem_singleton.mp hx]
        exact (hb.mono hs₁).mono hs₂
    · rcases r with _ | ⟨x, mt⟩
      · trivial
      · exact names_themis init_only

/-- The users of a node may be named, and so may the owners of its tokens. -/
structure NodeNameable (c : Call) (h : Hist) (n : RightsListNode) : Prop where
  user : Nameable c h n.user.id
  rtoken : Nameable c h n.rtoken.user.id
  wtoken : ∀ t, n.wtoken = some t → Nameable c h t.user.id ∧ Nameable c h t.owner.id

theorem NodeNameable.mono {h' : Hist} {n : RightsListNode} (hn : NodeNameable c h n)
    (hs : h <:+ h') : NodeNameable c h' n :=
  ⟨hn.user.mono hs, hn.rtoken.mono hs, fun t ht =>
    ⟨(hn.wtoken t ht).1.mono hs, (hn.wtoken t ht).2.mono hs⟩⟩

theorem names_accessRightsNode {bl : Block} {b u : Bytes} {rights : List RightsListNode}
    (hb : Nameable c h b) (hu : Nameable c h u) (hr : ∀ n ∈ rights, NodeNameable c h n) :
    E.NamesIn c (midHermesLlBlockAccessRightsNode bl b u rights) h fun h' r =>
      ∀ ns, r = some ns → ∀ n ∈ ns, NodeNameable c h' n := by
  have htoken : ∀ {h'} isUpdate, h <:+ h' → E.NamesIn c (midHermesLlTokenLoadC u b isUpdate) h'
      fun h' r => (∀ tok, r = some tok → E.Held h' isUpdate b tok ∧ tok.user.id = u) ∧ True :=
    fun isUpdate hs =>
      (asks_tokenLoadC (c := c) u b isUpdate).and (names_tokenLoadC (hu.mono hs) (hb.mono hs))
  refine ((asks_userLoadC (c := c) u).and (names_userLoadC hu)).bind fun h₁ user hs₁ huser => ?_
  split_ifs
  · intro ns hns n hn
    cases hns
    exact (hr n hn).mono hs₁
  · refine (htoken false hs₁).bind fun h₂ rtoken hs₂ hrt => ?_
    refine (htoken true (hs₁.trans hs₂)).bind fun h₃ wtoken hs₃ hwt => ?_
    have hs := (hs₁.trans hs₂).trans hs₃
    cases user with
    | none => exact fun ns hns => by cases hns
    | some user =>
      cases rtoken with
      | none => exact fun ns hns => by cases hns
      | some rtoken =>
        intro ns hns n hn
        cases hns
        rcases List.mem_append.mp hn with hn | hn
        · exact (hr n hn).mono hs
        · rw [List.mem_singleton.mp hn]
          refine ⟨(huser.1 user rfl).1 ▸ hu.mono hs, (hrt.1 rtoken rfl).2 ▸ hu.mono hs, ?_⟩
          intro t ht
          obtain ⟨hheld, hid⟩ := hwt.1 t ht
          exact ⟨hid ▸ hu.mono hs, Or.inr (Or.inr (told_of_gotToken hheld.got))⟩

/-- An iterator at a user of a block. -/
def IteratorNameable (c : Call) (h : Hist) (i : KeyStoreIterator) : Prop :=
  Nameable c h i.blockId ∧ Nameable c h i.currentUserId

theorem names_getIndexedRights {α : Type} {b : Bytes} {n : ℕ}
    {k : Reply (Bytes × UInt32) → Client α} {Q : Hist → α → Prop} (hb : Nameable c h b)
    (hk : ∀ h' a, h <:+ h' → (∀ u mask, a = .ok (u, mask) → Nameable c h' u) →
      E.NamesIn c (k a) h' Q) :
    E.NamesIn c (.req (.ks (.getIndexedRights b n)) k) h Q := by
  refine ⟨fun _ x hx => ?_, fun a _ => hk _ a (List.suffix_cons _ _) fun u mask ha => ?_⟩
  · rw [List.mem_singleton.mp hx]
    exact hb
  · subst ha
    exact Or.inr (Or.inr (Or.inr ⟨b, n, mask, got_head⟩))

theorem names_accessRightsLoop {bl : Block} {b : Bytes} (fuel : ℕ) {i : KeyStoreIterator}
    {rights : List RightsListNode} (hb : Nameable c h b) (hi : IteratorNameable c h i)
    (hr : ∀ n ∈ rights, NodeNameable c h n) :
    E.NamesIn c (midHermesLlBlockAccessRightsLoop bl b fuel i rights) h fun h' r =>
      ∀ ns, r = some ns → ∀ n ∈ ns, NodeNameable c h' n := by
  induction fuel generalizing h i rights with
  | zero => trivial
  | succ fuel ih =>
    refine (names_accessRightsNode hb hi.2 hr).bind fun h₁ r hs₁ hns => ?_
    cases r with
    | none => exact fun ns hns => by cases hns
    | some rights =>
      refine Prog.Within.bind (p := hermesKeyStoreIteratorNext i) (Q := fun h' r => h₁ <:+ h' ∧
        ∀ i', r = .ok i' → IteratorNameable c h' i') ?_ fun h₂ r _ hr₂ => ?_
      · refine names_getIndexedRights (hi.1.mono hs₁) fun h' a hs' ha => ?_
        rcases a with _ | ⟨u, mask⟩
        · exact ⟨hs', fun i' hi' => by cases hi'⟩
        · refine ⟨hs', fun i' hi' => ?_⟩
          cases hi'
          exact ⟨(hi.1.mono hs₁).mono hs', ha u mask rfl⟩
      · obtain ⟨hs₂, hi₂⟩ := hr₂
        have hns₂ : ∀ n ∈ rights, NodeNameable c h₂ n := fun n hn => (hns rights rfl n hn).mono hs₂
        cases r with
        | error _ =>
          intro ns heq n hn
          cases heq
          exact hns₂ n hn
        | ok i' => exact ih ((hb.mono hs₁).mono hs₂) (hi₂ i' rfl) hns₂

theorem names_accessRights {bl : Block} {b : Bytes} (fuel : ℕ) (hid : bl.id = some b)
    (hb : Nameable c h b) :
    E.NamesIn c (midHermesLlBlockAccessRights fuel bl) h fun h' r =>
      ∀ ns, r = some ns → ∀ n ∈ ns, NodeNameable c h' n := by
  unfold midHermesLlBlockAccessRights
  rw [hid]
  cases bl.mac with
  | none => exact fun ns hns => by cases hns
  | some mac =>
    refine Prog.Within.bind (p := hermesKeyStoreIteratorCreate b) (Q := fun h' r => h <:+ h' ∧
      ∀ i, r = some i → IteratorNameable c h' i) ?_ fun h₁ r _ hr₁ => ?_
    · unfold hermesKeyStoreIteratorCreate
      split_ifs
      · exact ⟨List.suffix_refl _, fun i hi => by cases hi⟩
      · refine names_getIndexedRights hb fun h' a hs' ha => ?_
        rcases a with _ | ⟨u, mask⟩
        · exact ⟨hs', fun i hi => by cases hi⟩
        · refine ⟨hs', fun i hi => ?_⟩
          cases hi
          exact ⟨hb.mono hs', ha u mask rfl⟩
    · obtain ⟨hs₁, hi₁⟩ := hr₁
      cases r with
      | none => trivial
      | some i =>
        exact names_accessRightsLoop fuel (hb.mono hs₁) (hi₁ i rfl) fun n hn => by simp at hn

/-! ### Removals -/

/-- A request that removes a token of a user of the block. -/
theorem names_setRtoken_nil {b u o : Bytes} (hb : Nameable c h b) (hu : Nameable c h u)
    (ho : Nameable c h o) :
    E.NamesIn c (hermesKeyStoreSetRtoken u b [] o) h fun _ _ => True := by
  simp only [hermesKeyStoreSetRtoken, ne_eq, not_true_eq_false, if_false]
  split_ifs
  · trivial
  · refine ⟨fun _ => ?_, fun _ _ => trivial⟩
    simp only [Names, Req.named, List.mem_cons, List.not_mem_nil, or_false, forall_eq_or_imp,
      forall_eq]
    exact ⟨hb, hu, ho⟩

theorem names_setWtoken_nil {b u o : Bytes} (hb : Nameable c h b) (hu : Nameable c h u)
    (ho : Nameable c h o) :
    E.NamesIn c (hermesKeyStoreSetWtoken u b [] o) h fun _ _ => True := by
  simp only [hermesKeyStoreSetWtoken, ne_eq, not_true_eq_false, if_false]
  split_ifs
  · trivial
  · refine ⟨fun _ => ?_, fun _ _ => trivial⟩
    simp only [Names, Req.named, List.mem_cons, List.not_mem_nil, or_false, forall_eq_or_imp,
      forall_eq]
    exact ⟨hb, hu, ho⟩

theorem names_deleteRights {bl : Block} {b : Bytes} (hbl : bl.user = c.user)
    (hb : Nameable c h b) {rights : List RightsListNode}
    (hr : ∀ n ∈ rights, NodeNameable c h n) :
    E.NamesIn c (midHermesLlBlockDeleteRights bl b rights) h fun _ _ => True := by
  induction rights generalizing h with
  | nil => trivial
  | cons n rights ih =>
    have hn := hr n List.mem_cons_self
    have hrest : ∀ {h'}, h <:+ h' →
        E.NamesIn c (midHermesLlBlockDeleteRights bl b rights) h' fun _ _ => True := fun hs =>
      ih (hb.mono hs) fun m hm => (hr m (List.mem_cons_of_mem _ hm)).mono hs
    refine (names_setRtoken_nil hb hn.rtoken (Or.inl (by rw [hbl]))).bind fun h₁ r hs₁ _ => ?_
    cases r with
    | error _ => trivial
    | ok _ =>
      cases hwt : n.wtoken with
      | none => simpa [hwt] using hrest hs₁
      | some wt =>
        obtain ⟨hu, ho⟩ := hn.wtoken wt hwt
        simp only [Option.isSome_some, if_true]
        refine (names_setWtoken_nil (hb.mono hs₁) (hu.mono hs₁) (ho.mono hs₁)).bind
          fun h₂ r hs₂ _ => ?_
        cases r with
        | error _ => trivial
        | ok _ => exact hrest (hs₁.trans hs₂)

theorem names_blockDelete {b : Bytes} {bl : Block} (hid : bl.id = some b)
    (hbl : bl.user = c.user) (hrt : ∀ t, bl.rtoken = some t → t.user = c.user)
    (hb : Nameable c h b) {rights : List RightsListNode}
    (hr : ∀ n ∈ rights, NodeNameable c h n) :
    E.NamesIn c (midHermesLlBlockDelete bl rights true true) h fun _ _ => True := by
  unfold midHermesLlBlockDelete
  rw [hid]
  cases bl.mac with
  | none => trivial
  | some mac =>
    simp only [Bool.not_true, Bool.and_self, Bool.false_eq_true, if_false, if_true]
    refine Prog.Within.bind (Q := fun h' _ => h <:+ h') ?_ fun h₁ r _ hs₁ => ?_
    · unfold hermesDataStoreRemBlock
      split_ifs
      · exact List.suffix_refl _
      · refine ⟨fun _ x hx => ?_, fun _ _ => List.suffix_cons _ _⟩
        rw [List.mem_singleton.mp hx]
        exact hb
    · cases r with
      | error _ => trivial
      | ok _ =>
        refine Prog.Within.bind (Q := fun h' _ => h <:+ h') ?_ fun h₂ r _ hs₂ => ?_
        · cases hrtoken : bl.rtoken with
          | none => exact hs₁
          | some t =>
            have ht : t.user.id = c.user.id := by rw [hrt t hrtoken]
            refine (names_setRtoken_nil (hb.mono hs₁) (Or.inl ht) (Or.inl (by rw [hbl]))).mono ?_
            exact fun h' _ hs _ => hs₁.trans hs
        · cases r with
          | error _ => trivial
          | ok _ =>
            exact names_deleteRights hbl (hb.mono hs₂) fun n hn => (hr n hn).mono hs₂

/-! ### The operations -/

/-- A call that neither denies nor deletes removes nothing. -/
def Op.Keeps : Op → Prop
  | .deleteBlock _ | .denyReadAccess .. | .denyUpdateAccess .. => False
  | _ => True

theorem not_removes {isUpdate : Bool} {b u o : Bytes} (hop : Op.Keeps c.op) :
    ¬Removes c isUpdate b u o := by
  intro hr
  rcases removes_cases hr with heq | heq | heq <;>
  · rw [heq] at hop
    exact hop

/-- A request that saves or removes a token, in a call that removes nothing. -/
theorem named_of_keeps (hop : Op.Keeps c.op) (b : Bytes) (tok : Option Token) :
    ((midHermesLlRtokenSave b tok).Only fun r => ∀ h, E.Justified c h r → r.named = []) ∧
      (midHermesLlWtokenSave b tok).Only fun r => ∀ h, E.Justified c h r → r.named = [] :=
  ⟨saveRtoken_only (fun _ _ _ _ _ _ => rfl) (fun _ _ _ _ hr => absurd hr (not_removes hop)) b tok,
    saveWtoken_only (fun _ _ _ _ _ _ => rfl) (fun _ _ _ _ hr => absurd hr (not_removes hop)) b tok⟩

/-- A saving of a block names nothing. -/
theorem names_save (hop : Op.Keeps c.op) {bl : Block} {rights : List RightsListNode} :
    E.NamesIn c (midHermesLlBlockSave bl rights true true) h fun _ _ => True := by
  refine names_of_only (save_only (fun b tok => (named_of_keeps hop b tok).1)
    (fun b tok => (named_of_keeps hop b tok).2) (fun r hr h hJ => ?_) bl rights)
  cases r with
  | createBlock _ _ _ => rfl
  | createBlockWithId _ _ _ _ => rfl
  | updateBlock _ _ _ _ _ => rfl
  | readBlock _ => exact hr.elim
  | deleteBlock _ _ => exact hr.elim

/-- A call that loads the block it is given, and goes on with it. -/
theorem names_loaded {α : Type} {b : Bytes} {f : Option Block → Client α}
    {Q : Hist → α → Prop} (hb : c.op.blockId = some b) (hids : b ∈ c.op.ids)
    (hnone : ∀ h, E.NamesIn c (f none) h Q)
    (hsome : ∀ h bl, E.IsLoaded h c.user b bl → E.NamesIn c (f (some bl)) h Q) :
    E.NamesIn c (midHermesLlBlockLoad (midHermesLlBlockCreateEmpty c.user) b >>= f) [] Q := by
  refine ((asks_load (E := E) (c := c) rfl hb fun e he => by simp at he).and
    (names_load (Or.inr (Or.inl hids)))).bind fun h₁ r _ hr => ?_
  cases r with
  | none => exact hnone h₁
  | some bl => exact hsome h₁ bl (hr.1 bl rfl)

/-- What is asked of a loaded block. -/
theorem IsLoaded.rtoken_user {b : Bytes} {bl : Block} (hbl : E.IsLoaded h c.user b bl) :
    ∀ t, bl.rtoken = some t → t.user = c.user := by
  obtain ⟨x, k, d, mt, rt, wt, mac, rfl, hrt, -⟩ := hbl
  intro t ht
  cases ht
  exact hrt.user_eq

theorem names_grantAccess {b v : Bytes} {isUpdate : Bool}
    {tokenFor : Block → User → Client (Option Token)} (hop : Op.Keeps c.op)
    (hb : c.op.blockId = some b) (hids : b ∈ c.op.ids) (hv : v ∈ c.op.ids)
    (hfor : ∀ bl w, (tokenFor bl w).Only Req.IsThemis) :
    E.NamesIn c (midHermesGrantAccess tokenFor isUpdate c.user b v) [] fun _ _ => True := by
  unfold midHermesGrantAccess
  split_ifs
  · trivial
  · refine names_loaded hb hids (fun h => trivial) fun h₁ bl _ => ?_
    refine (names_userLoadC (Or.inr (Or.inl hv))).bind fun h₂ r _ _ => ?_
    cases r with
    | none => trivial
    | some w =>
      refine (names_themis (hfor bl w)).bind fun h₃ r _ _ => ?_
      cases r with
      | none => trivial
      | some t =>
        refine Prog.Within.bind (Q := fun _ _ => True) ?_ fun h₄ r _ _ => by cases r <;> trivial
        cases isUpdate with
        | false => exact names_of_only (named_of_keeps hop _ (some t)).1
        | true => exact names_of_only (named_of_keeps hop _ (some t)).2

theorem names_denyAccess {b v : Bytes} (isUpdate : Bool) (hb : c.op.blockId = some b)
    (hids : b ∈ c.op.ids) (hv : v ∈ c.op.ids) :
    E.NamesIn c (midHermesDenyAccess isUpdate c.user b v) [] fun _ _ => True := by
  unfold midHermesDenyAccess
  split_ifs
  · trivial
  · refine names_loaded hb hids (fun h => trivial) fun h₁ bl hbl => ?_
    refine ((asks_userLoadC (c := c) v).and (names_userLoadC (Or.inr (Or.inl hv)))).bind
      fun h₂ r _ hu => ?_
    cases r with
    | none => trivial
    | some w =>
      have hw : ∀ h, Nameable c h w.id := fun h => Or.inr (Or.inl ((hu.1 w rfl).1 ▸ hv))
      have hblock : ∀ h, Nameable c h b := fun h => Or.inr (Or.inl hids)
      refine (names_themis (wtokenFor_only bl w)).bind fun h₃ r _ _ => ?_
      cases r with
      | none => trivial
      | some t =>
        simp only [hbl.id_eq, Option.getD_some]
        refine Prog.Within.bind (Q := fun _ _ => True) ?_ fun h₄ r _ _ => by cases r <;> trivial
        refine (names_setWtoken_nil (hblock h₃) (hw h₃) (Or.inl rfl)).bind fun h₄ r _ _ => ?_
        cases isUpdate with
        | false => exact names_setRtoken_nil (hblock h₄) (hw h₄) (Or.inl rfl)
        | true => trivial

theorem names_createBlock {id : Option Bytes} {d mt : Bytes} (hop : Op.Keeps c.op) :
    E.NamesIn c (midHermesCreateBlock c.user id d mt) [] fun _ _ => True := by
  unfold midHermesCreateBlock
  split_ifs
  · trivial
  · refine (names_themis blockCreate_only).bind fun h₁ r _ _ => ?_
    cases r with
    | none => trivial
    | some bl =>
      refine (names_save hop).bind fun h₂ r _ _ => ?_
      rcases r with ⟨_ | _, bl⟩ <;> trivial

theorem names_readBlock {b : Bytes} (hb : c.op.blockId = some b) (hids : b ∈ c.op.ids) :
    E.NamesIn c (midHermesReadBlock c.user b) [] fun _ _ => True := by
  unfold midHermesReadBlock
  split_ifs
  · trivial
  · exact names_loaded hb hids (fun h => trivial) fun h bl _ => trivial

theorem names_updateBlock {b d mt : Bytes} (hop : Op.Keeps c.op) (hb : c.op.blockId = some b)
    (hids : b ∈ c.op.ids) :
    E.NamesIn c (midHermesUpdateBlock c.user b d mt) [] fun _ _ => True := by
  unfold midHermesUpdateBlock
  split_ifs
  · trivial
  · refine names_loaded hb hids (fun h => trivial) fun h₁ bl _ => ?_
    refine (names_themis (update_only bl d mt)).bind fun h₂ r _ _ => ?_
    cases r with
    | none => trivial
    | some bl =>
      refine (names_save hop).bind fun h₃ r _ _ => ?_
      rcases r with ⟨_ | _, bl⟩ <;> trivial

theorem names_deleteBlock {b : Bytes} (fuel : ℕ) (hb : c.op.blockId = some b)
    (hids : b ∈ c.op.ids) :
    E.NamesIn c (midHermesDeleteBlock fuel c.user b) [] fun _ _ => True := by
  unfold midHermesDeleteBlock
  split_ifs
  · trivial
  · refine names_loaded hb hids (fun h => trivial) fun h₁ bl hbl => ?_
    have hblock : ∀ h, Nameable c h b := fun h => Or.inr (Or.inl hids)
    refine (names_accessRights fuel hbl.id_eq.1 (hblock h₁)).bind fun h₂ r _ hr => ?_
    refine Prog.Within.bind (Q := fun _ _ => True) ?_ fun h₃ r _ _ => by cases r <;> trivial
    refine names_blockDelete hbl.id_eq.1 hbl.id_eq.2 hbl.rtoken_user (hblock h₂) fun n hn => ?_
    -- a walk that failed left no list, and nobody is deleted with the block
    cases r with
    | none => simp at hn
    | some ns => exact hr ns rfl n hn

theorem names_rotateBlock {b : Bytes} (fuel : ℕ) (hop : Op.Keeps c.op)
    (hb : c.op.blockId = some b) (hids : b ∈ c.op.ids) :
    E.NamesIn c (midHermesRotateBlock fuel c.user b) [] fun _ _ => True := by
  unfold midHermesRotateBlock
  split_ifs
  · trivial
  · refine names_loaded hb hids (fun h => trivial) fun h₁ bl hbl => ?_
    have hblock : Nameable c h₁ b := Or.inr (Or.inl hids)
    refine (names_accessRights fuel hbl.id_eq.1 hblock).bind fun h₂ r _ _ => ?_
    cases r with
    | none => trivial
    | some rights =>
      refine (names_themis (rotate_only bl rights)).bind fun h₃ r _ _ => ?_
      obtain ⟨_ | _, bl', rights'⟩ := r
      · trivial
      · refine (names_save hop).bind fun h₄ r _ _ => ?_
        rcases r with ⟨_ | _, bl⟩ <;> trivial

/-- **A client names nothing it was not given.** -/
theorem names_prog (c : Call) (fuel : ℕ) : E.NamesIn c (c.prog fuel) [] fun _ _ => True := by
  obtain ⟨user, op⟩ := c
  cases op with
  | createBlock id d mt =>
    refine Prog.Within.bind (Q := fun _ _ => True) ?_ fun _ _ _ _ => trivial
    exact names_createBlock (c := ⟨user, .createBlock id d mt⟩) trivial
  | readBlock b =>
    refine Prog.Within.bind (Q := fun _ _ => True) ?_ fun _ _ _ _ => trivial
    exact names_readBlock (c := ⟨user, .readBlock b⟩) rfl List.mem_cons_self
  | updateBlock b d mt =>
    refine Prog.Within.bind (Q := fun _ _ => True) ?_ fun _ _ _ _ => trivial
    exact names_updateBlock (c := ⟨user, .updateBlock b d mt⟩) trivial rfl List.mem_cons_self
  | deleteBlock b =>
    refine Prog.Within.bind (Q := fun _ _ => True) ?_ fun _ _ _ _ => trivial
    exact names_deleteBlock (c := ⟨user, .deleteBlock b⟩) fuel rfl List.mem_cons_self
  | rotateBlock b =>
    refine Prog.Within.bind (Q := fun _ _ => True) ?_ fun _ _ _ _ => trivial
    exact names_rotateBlock (c := ⟨user, .rotateBlock b⟩) fuel trivial rfl List.mem_cons_self
  | grantReadAccess b v =>
    refine Prog.Within.bind (Q := fun _ _ => True) ?_ fun _ _ _ _ => trivial
    exact names_grantAccess (c := ⟨user, .grantReadAccess b v⟩) trivial rfl List.mem_cons_self
      (List.mem_cons_of_mem _ List.mem_cons_self) rtokenFor_only
  | grantUpdateAccess b v =>
    refine Prog.Within.bind (Q := fun _ _ => True) ?_ fun _ _ _ _ => trivial
    exact names_grantAccess (c := ⟨user, .grantUpdateAccess b v⟩) trivial rfl List.mem_cons_self
      (List.mem_cons_of_mem _ List.mem_cons_self) wtokenFor_only
  | denyReadAccess b v =>
    refine Prog.Within.bind (Q := fun _ _ => True) ?_ fun _ _ _ _ => trivial
    exact names_denyAccess (c := ⟨user, .denyReadAccess b v⟩) false rfl List.mem_cons_self
      (List.mem_cons_of_mem _ List.mem_cons_self)
  | denyUpdateAccess b v =>
    refine Prog.Within.bind (Q := fun _ _ => True) ?_ fun _ _ _ _ => trivial
    exact names_denyAccess (c := ⟨user, .denyUpdateAccess b v⟩) true rfl List.mem_cons_self
      (List.mem_cons_of_mem _ List.mem_cons_self)

end Env

end Hermes

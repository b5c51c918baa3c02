import Hermes.Rights

/-!
# What a rotation does

A rotation, with nobody else acting on its block: it loads the block and the rights list,
draws two keys, seals the content again, and gives everybody the new keys. Either it leaves
the block as it was, or it reports `HM_SUCCESS` and has replaced every entry by one that
wraps the new keys, with a write token exactly where there was one
(`Hermes.Env.does_rotateBlock`).
-/

namespace Hermes

open Interleave

/-- The request asks the key store for a token. -/
def Req.GetsToken : Req → Prop
  | .ks (.getRtoken ..) => True
  | .ks (.getWtoken ..) => True
  | _ => False

/-- All tokens of a block that were read are those of the slice. -/
def TokensFrom (b : Bytes) (v : Slice) (h : Hist) : Prop :=
  ∀ isUpdate u x, GotToken h isUpdate b u x → v.token isUpdate u = some x

theorem tokensFrom_nil {b : Bytes} {v : Slice} : TokensFrom b v [] :=
  fun _ _ _ hx => (not_gotToken_nil hx).elim

theorem TokensFrom.cons {b : Bytes} {v : Slice} {h : Hist} {r : Req} {a : r.Answer}
    (hh : TokensFrom b v h) (hr : ¬r.GetsToken) : TokensFrom b v (⟨r, a⟩ :: h) := by
  rintro (_ | _) u x hx
  · rcases List.mem_cons.mp hx with heq | hx
    · obtain rfl := congrArg Sigma.fst heq
      exact (hr trivial).elim
    · exact hh false u x hx
  · rcases List.mem_cons.mp hx with heq | hx
    · obtain rfl := congrArg Sigma.fst heq
      exact (hr trivial).elim
    · exact hh true u x hx

namespace Env

variable (E : Env)

/-- The token a user makes of a key for another one. -/
def newToken (user : User) (sk : Bytes) (forUser : User) (k : Bytes) : Token :=
  ⟨forUser, user, E.themis.wrap sk forUser.pk k⟩

/-- The node of a user, with tokens of the new keys. -/
def rekeyedNode (user : User) (sk k kw : Bytes) (node : RightsListNode) : RightsListNode :=
  { node with rtoken := E.newToken user sk node.user k,
              wtoken := if node.wtoken.isSome then some (E.newToken user sk node.user kw) else none }

/-- The entry of a user, with tokens of the new keys. -/
def rekeyed (user : User) (sk k kw u : Bytes) (e : Entry) : Entry :=
  ⟨E.themis.wrap sk ((E.credentials u).getD []) k, user.id,
    e.wtoken.map fun _ => (E.themis.wrap sk ((E.credentials u).getD []) kw, user.id)⟩

/-- **What a rotation that succeeds leaves**: the content is sealed under a new read key, its
mac is made with a new write key, and every entry wraps them. -/
def Rekeyed (b : Bytes) (v : Slice) (user : User) (v' : Slice) (h : Hist) : Prop :=
  writeToken (v.entry user.id) ≠ none ∧
  ∃ sk k kw s k₀ kw₀ d blk mac, user.sk = some sk ∧ k ≠ [] ∧ kw ≠ [] ∧ v.stored = some s ∧
    E.Sealed k₀ kw₀ d s ∧ E.Version k kw d s.metadata blk mac ∧
    Got h (.ds (.updateBlock b blk s.metadata mac s.mac)) (.ok ()) ∧
    v'.stored = some ⟨blk, s.metadata, mac⟩ ∧
    ∀ u, v'.entry u = (v.entry u).map (E.rekeyed user sk k kw u)

variable {E} {α : Type} {v v₀ : Slice} {b : Bytes} {user : User} {sk : Bytes} {h : Hist}
  {Post : Except Stop α → Slice → Hist → Prop}

theorem tokensFrom_append {l : Hist} (hl : ∀ e ∈ l, E.ReadAt b v e) (hh : TokensFrom b v h) :
    TokensFrom b v (l ++ h) := by
  rintro (_ | _) u x hx
  · rcases List.mem_append.mp hx with hx | hx
    · obtain ⟨-, w, hw, ha⟩ := hl _ hx
      obtain ⟨e, he, rfl⟩ := getRtoken_ok ha
      subst hw
      simp [Slice.token, he]
    · exact hh false u x hx
  · rcases List.mem_append.mp hx with hx | hx
    · obtain ⟨-, w, hw, ha⟩ := hl _ hx
      subst hw
      exact getWtoken_ok ha
    · exact hh true u x hx

/-- The tokens in the new entries. -/
theorem token_rekeyed {v' : Slice} {k kw : Bytes}
    (hentry : ∀ u, v'.entry u = (v.entry u).map (E.rekeyed user sk k kw u)) (isUpdate : Bool)
    (u : Bytes) : v'.token isUpdate u = (v.token isUpdate u).map fun _ =>
      (E.themis.wrap sk ((E.credentials u).getD []) (keyFor isUpdate k kw), user.id) := by
  cases isUpdate with
  | false =>
    simp only [Slice.token, Bool.false_eq_true, if_false, hentry, Option.map_map]
    rfl
  | true =>
    simp only [Slice.token, if_true, hentry]
    cases v.entry u with
    | none => rfl
    | some e => rfl

/-- They wrap the new keys. -/
theorem tokenFor_rekeyed {v' : Slice} {k kw : Bytes} (hreg : E.Registered user)
    (hsk : user.sk = some sk) (hv : E.WellFormedAt v) (hk : k ≠ []) (hkw : kw ≠ [])
    (hentry : ∀ u, v'.entry u = (v.entry u).map (E.rekeyed user sk k kw u)) {isUpdate : Bool}
    {u : Bytes} {x : Bytes × Bytes} (hx : v'.token isUpdate u = some x) :
    E.TokenFor u x (keyFor isUpdate k kw) := by
  rw [token_rekeyed hentry] at hx
  obtain ⟨x₀, hx₀, rfl⟩ := Option.map_eq_some_iff.mp hx
  obtain ⟨k₁, hk₁⟩ := hv.token hx₀
  obtain ⟨-, pk, -, hpk, hne, -⟩ := hk₁.wrapped
  rw [hpk]
  exact tokenFor_wrap hreg hsk hpk hne (keyFor_ne_nil hk hkw)

/-! ### New keys -/

theorem holdsKey_newToken (hreg : E.Registered user) (hsk : user.sk = some sk) {k : Bytes}
    (hk : k ≠ []) :
    E.HoldsKey user (E.themis.wrap sk user.pk k, user.id) k (E.newToken user sk user k) := by
  obtain ⟨sk', -, hsk', hpk⟩ := hreg.sk_eq
  cases hsk.symm.trans hsk'
  refine ⟨rfl, rfl, rfl, hk, fun sk'' hsk'' => ?_⟩
  cases hsk.symm.trans hsk''
  rw [newToken, hpk]
  exact E.themis.unwrap_wrap _ _ _

/-- A token is generated with some key, wrapped by the user for itself. -/
theorem does_tokenGenerate (hreg : E.Registered user) (hsk : user.sk = some sk)
    {f : Option Token → Client α} (hh : TokensFrom b v h)
    (hf : ∀ (k : Bytes) (h' : Hist), k ≠ [] → TokensFrom b v h' →
      E.Does b (f (some (E.newToken user sk user k))) v h' Post) :
    E.Does b (midHermesLlTokenGenerate user >>= f) v h Post := by
  obtain ⟨sk', hne, hsk', -⟩ := hreg.sk_eq
  cases hsk.symm.trans hsk'
  simp only [midHermesLlTokenGenerate, hsk]
  intro w hw
  subst hw
  have hkey := HmToken.val_ne_nil (w.rands 0)
  change E.Does b ((hmAsymEncrypt sk user.pk (w.rands 0).val >>= _) >>= f) (w.slice b) _ Post
  rw [Prog.bind_assoc]
  refine (computes_asymEncrypt hne user.pk_ne_nil hkey).does fun l hl => ?_
  exact hf _ _ hkey (tokensFrom_append hl (hh.cons id))

/-- The keys of a rotation, and the content sealed with them. -/
theorem does_rotateKeys (hreg : E.Registered user) (hsk : user.sk = some sk) {bl : Block}
    {d mt : Bytes} (huser : bl.user = user) (hd : bl.data = some d) (hmt : bl.metadata = some mt)
    (hdne : d ≠ []) {f : Option (Token × Token × Bytes × Bytes) → Client α}
    (hh : TokensFrom b v h)
    (hf : ∀ (k kw : Bytes) (h' : Hist), k ≠ [] → kw ≠ [] → TokensFrom b v h' →
      E.Does b (f (some (E.newToken user sk user k, E.newToken user sk user kw,
        E.themis.encryptSeal k mt d, E.themis.hmac kw [d, mt]))) v h' Post) :
    E.Does b (midHermesLlBlockRotateKeys bl >>= f) v h Post := by
  simp only [midHermesLlBlockRotateKeys, Prog.bind_assoc, huser]
  refine does_tokenGenerate hreg hsk hh fun k h₁ hk hh₁ => ?_
  refine does_tokenGenerate hreg hsk hh₁ fun kw h₂ hkw hh₂ => ?_
  refine (computes_getData hreg (holdsKey_newToken hreg hsk hk)).does fun l₁ hl₁ => ?_
  refine (computes_getData hreg (holdsKey_newToken hreg hsk hkw)).does fun l₂ hl₂ => ?_
  simp only [hd, hmt, Prog.bind_assoc]
  refine (computes_encrypt hk hdne).does fun l₃ hl₃ => ?_
  dsimp only
  rw [Prog.bind_assoc]
  refine (computes_macCreate hkw hdne).does fun l₄ hl₄ => ?_
  exact hf k kw _ hk hkw (tokensFrom_append hl₄ (tokensFrom_append hl₃
    (tokensFrom_append hl₂ (tokensFrom_append hl₁ hh₂))))

/-- The new keys are wrapped for every node. -/
theorem computes_rotateRights (hreg : E.Registered user) (hsk : user.sk = some sk) {k kw : Bytes}
    (hk : k ≠ []) (hkw : kw ≠ []) (rights : List RightsListNode) :
    E.Computes b (midHermesLlBlockRotateRights (E.newToken user sk user k)
      (E.newToken user sk user kw) rights) v
      (true, rights.map (E.rekeyedNode user sk k kw)) := by
  induction rights with
  | nil => exact computes_ret _
  | cons node rights ih =>
    refine (computes_getTokenForUser hreg hsk (holdsKey_newToken hreg hsk hk)).trans ?_
    have hnode : E.rekeyedNode user sk k kw node = { node with
        rtoken := E.newToken user sk node.user k
        wtoken := if node.wtoken.isSome then some (E.newToken user sk node.user kw) else none } := rfl
    rw [List.map_cons, hnode]
    cases node.wtoken.isSome with
    | true =>
      refine (computes_getTokenForUser hreg hsk (holdsKey_newToken hreg hsk hkw)).trans ?_
      exact ih.trans (computes_ret _)
    | false => exact (computes_ret _).trans (ih.trans (computes_ret _))

/-! ### Saving them -/

theorem IsNode.congr {v' : Slice} {u : Bytes} {node : RightsListNode} (hn : E.IsNode v u node)
    (h : v'.entry u = v.entry u) : E.IsNode v' u node :=
  ⟨hn.user_eq, hn.pk_eq, hn.rtoken_user, hn.wtoken_user, by rw [hn.wtoken_isSome, h]⟩

/-- The new tokens are not empty. -/
theorem newToken_ne (forUser : User) (k : Bytes) : (E.newToken user sk forUser k).token ≠ [] :=
  E.themis.wrap_ne_nil _ _ _

/-- One node: its user gets the new tokens. -/
theorem does_saveNode {k kw : Bytes} (hb : b ≠ []) {node : RightsListNode}
    {rights : List RightsListNode} (hwriter : writeToken (v.entry user.id) ≠ none)
    (hnode : E.IsNode v node.user.id node) (hentry : v.entry node.user.id ≠ none)
    (hne : node.user.id ≠ user.id) {f : Bool → Client α} (hh : TokensFrom b v₀ h)
    (hf : ∀ (v' : Slice) (l : Hist), v'.stored = v.stored →
      (∀ u, v'.entry u = if u = node.user.id then
        (v.entry u).map (E.rekeyed user sk k kw u) else v.entry u) →
      TokensFrom b v₀ (l ++ h) →
      E.Does b (midHermesLlBlockSaveRights b rights >>= f) v' (l ++ h) Post) :
    E.Does b (midHermesLlBlockSaveRights b (E.rekeyedNode user sk k kw node :: rights) >>= f) v h
      Post := by
  obtain ⟨e, he⟩ := Option.ne_none_iff_exists'.mp hentry
  have howner : v.entry user.id ≠ none := fun h0 => hwriter (by rw [h0]; rfl)
  have hpk : (E.credentials node.user.id).getD [] = node.user.pk := by rw [hnode.pk_eq]; rfl
  have hsome := hnode.wtoken_isSome
  rw [he] at hsome
  simp only [midHermesLlBlockSaveRights, midHermesLlRtokenSave, Prog.bind_assoc, rekeyedNode]
  -- the read token goes first, and is accepted, for its owner has an entry
  refine does_setRtoken hb node.user.id_ne_nil user.id_ne_nil (newToken_ne _ _) (fun _ => ?_)
    fun _ hno => absurd hno howner
  dsimp only [newToken]
  rcases Bool.eq_false_or_eq_true node.wtoken.isSome with hw | hw
  rotate_left
  · -- the read token is all there is to save
    have hnone : e.wtoken = none := by
      rw [hw] at hsome
      exact Option.isSome_eq_false_iff.mp hsome.symm |> Option.isNone_iff_eq_none.mp
    simp only [hw, Bool.false_eq_true, if_false, Option.isSome_none]
    refine hf _ [_] (by simp) (fun u => ?_) (hh.cons id)
    rw [Slice.entry_setEntry]
    split_ifs with hu
    · rw [hu, he, Option.map_some, rekeyed, hpk, hnone]
      simp [writeToken, hnone]
    · rfl
  · -- the write token follows
    obtain ⟨x, hx⟩ : ∃ x, e.wtoken = some x := by
      rw [hw] at hsome
      exact Option.isSome_iff_exists.mp hsome.symm
    simp only [hw, if_true, Option.isSome_some, midHermesLlWtokenSave, Prog.bind_assoc]
    refine does_setWtoken hb node.user.id_ne_nil user.id_ne_nil (E.themis.wrap_ne_nil _ _ _)
      (fun e' _ he' => ?_) fun hno => ?_
    · refine hf _ [_, _] (by simp) (fun u => ?_) ((hh.cons id).cons id)
      rw [Slice.entry_setEntry, Slice.entry_setEntry]
      split_ifs with hu
      · rw [Slice.entry_setEntry, if_pos rfl] at he'
        cases he'
        rw [hu, he, Option.map_some, rekeyed, hpk, hx]
        rfl
      · rfl
    · -- it is accepted too, for its owner has a write token
      simp only [Slice.entry_setEntry, if_neg hne.symm] at hno
      rcases hno with ⟨-, hno⟩ | hno
      · exact absurd hno hwriter
      · simp at hno

/-- **The loop of the saving**: every node of the list gets its new tokens. -/
theorem does_saveRights {k kw : Bytes} (hb : b ≠ []) {rights : List RightsListNode}
    (hwriter : writeToken (v.entry user.id) ≠ none)
    (hnodup : (rights.map fun node => node.user.id).Nodup)
    (hnodes : ∀ node ∈ rights, E.IsNode v node.user.id node ∧ v.entry node.user.id ≠ none ∧
      node.user.id ≠ user.id)
    {f : Bool → Client α} (hh : TokensFrom b v₀ h)
    (hf : ∀ (v' : Slice) (l : Hist), v'.stored = v.stored →
      (∀ u, v'.entry u = if u ∈ rights.map fun node => node.user.id then
        (v.entry u).map (E.rekeyed user sk k kw u) else v.entry u) →
      TokensFrom b v₀ (l ++ h) → E.Does b (f true) v' (l ++ h) Post) :
    E.Does b (midHermesLlBlockSaveRights b (rights.map (E.rekeyedNode user sk k kw)) >>= f) v h
      Post := by
  induction rights generalizing v h with
  | nil => exact hf v [] rfl (fun u => by simp) hh
  | cons node rights ih =>
    obtain ⟨hnode, hentry, hne⟩ := hnodes node List.mem_cons_self
    obtain ⟨hnotin, hnodup⟩ := List.nodup_cons.mp hnodup
    refine does_saveNode hb hwriter hnode hentry hne hh fun v₁ l₁ hstored₁ hentry₁ hh₁ => ?_
    -- the users of the other nodes still have the entries they had
    have hrest : ∀ {u}, u ≠ node.user.id → v₁.entry u = v.entry u := fun hu => by
      rw [hentry₁, if_neg hu]
    refine ih (by rwa [hrest hne.symm]) hnodup (fun node' hnode' => ?_) hh₁
      fun v' l hstored' hentry' hh' => ?_
    · have hne' : node'.user.id ≠ node.user.id := fun heq =>
        hnotin (List.mem_map.mpr ⟨node', hnode', heq⟩)
      obtain ⟨h₁, h₂, h₃⟩ := hnodes node' (List.mem_cons_of_mem _ hnode')
      exact ⟨h₁.congr (hrest hne'), by rwa [hrest hne'], h₃⟩
    · have happ : l ++ (l₁ ++ h) = l ++ l₁ ++ h := by rw [List.append_assoc]
      rw [happ] at hh' ⊢
      refine hf v' (l ++ l₁) (hstored'.trans hstored₁) (fun u => ?_) hh'
      rw [hentry' u]
      rcases eq_or_ne u node.user.id with rfl | hu
      · rw [if_neg hnotin, hentry₁, if_pos rfl, if_pos (by simp)]
      · rw [hrest hu]
        simp only [List.map_cons, List.mem_cons, hu, false_or]

/-- Saving its two tokens makes the own entry of a writer the new one, and leaves all others
as they were. -/
theorem entry_saveOwn (sk k kw : Bytes) (hreg : E.Registered user) {e : Entry} {x : Bytes × Bytes}
    (he : v.entry user.id = some e) (hx : writeToken (v.entry user.id) = some x) (u : Bytes) :
    ((v.setEntry user.id (some ⟨E.themis.wrap sk user.pk k, user.id,
      writeToken (v.entry user.id)⟩)).setEntry user.id (some ⟨E.themis.wrap sk user.pk k, user.id,
      some (E.themis.wrap sk user.pk kw, user.id)⟩)).entry u =
        if u = user.id then (v.entry u).map (E.rekeyed user sk k kw u) else v.entry u := by
  have hpk : (E.credentials user.id).getD [] = user.pk := by rw [hreg.pk_eq]; rfl
  rw [Slice.entry_setEntry, Slice.entry_setEntry]
  split_ifs with hu
  · subst hu
    rw [he] at hx
    rw [he, Option.map_some, rekeyed, hpk, show e.wtoken = some x from hx]
    rfl
  · rfl

/-- **The key store part of the saving**: the user of the object and everybody in the rights
list get the new tokens. -/
theorem does_saveTokens_rekeyed (hreg : E.Registered user) {k kw : Bytes} (hb : b ≠ [])
    (hv : E.WellFormedAt v₀) (hentries : v.entry = v₀.entry)
    (hwriter : writeToken (v.entry user.id) ≠ none) {bl : Block} (hid : bl.id = some b)
    (hrt : bl.rtoken = some (E.newToken user sk user k))
    (hwt : bl.wtoken = some (E.newToken user sk user kw)) {f : Bool → Client α}
    (hh : TokensFrom b v₀ h)
    (hf : ∀ (v' : Slice) (l : Hist), v'.stored = v.stored →
      (∀ u, v'.entry u = (v₀.entry u).map (E.rekeyed user sk k kw u)) →
      TokensFrom b v₀ (l ++ h) → E.Does b (f true) v' (l ++ h) Post) :
    E.Does b (midHermesLlBlockSaveTokens bl
      ((E.rightsList v₀ user.id).map (E.rekeyedNode user sk k kw)) >>= f) v h Post := by
  obtain ⟨e, he⟩ : ∃ e, v.entry user.id = some e := by
    cases he : v.entry user.id with
    | none => exact absurd (by rw [he]; rfl) hwriter
    | some e => exact ⟨e, rfl⟩
  obtain ⟨x, hx⟩ := Option.ne_none_iff_exists'.mp hwriter
  obtain ⟨hmap, hnodes⟩ := map_rightsList hv user.id
  simp only [midHermesLlBlockSaveTokens, midHermesLlRtokenSave, midHermesLlWtokenSave,
    hid, hrt, hwt, Option.getD_some, Prog.bind_assoc, newToken]
  refine does_setRtoken hb user.id_ne_nil user.id_ne_nil (E.themis.wrap_ne_nil _ _ _) (fun _ => ?_)
    fun hne => absurd rfl hne
  dsimp only
  rw [Prog.bind_assoc]
  refine does_setWtoken hb user.id_ne_nil user.id_ne_nil (E.themis.wrap_ne_nil _ _ _)
    (fun e' _ he' => ?_) fun hno => ?_
  · rw [Slice.entry_setEntry, if_pos rfl] at he'
    cases he'
    dsimp only
    -- the user's own entry is new now, and the others are still to be replaced
    have hself := (entry_saveOwn sk k kw hreg he hx user.id).trans (if_pos rfl)
    have hother := fun u (hu : u ≠ user.id) =>
      (entry_saveOwn sk k kw hreg he hx u).trans (if_neg hu)
    refine does_saveRights hb ?_ ?_ (fun node hnode => ?_) ((hh.cons id).cons id)
      fun v' l hstored hentry hh' => ?_
    · rw [hself, he]
      simp only [Option.map_some, writeToken, Option.bind_some, rekeyed]
      rw [he] at hx
      rw [show e.wtoken = some x from hx]
      simp
    · rw [hmap]
      exact nodup_userIds.filter _
    · have hmem : node.user.id ∈ (E.userIds v₀).filter (· ≠ user.id) :=
        hmap ▸ List.mem_map_of_mem (f := fun node => node.user.id) hnode
      obtain ⟨hin, hne⟩ := List.mem_filter.mp hmem
      have hne : node.user.id ≠ user.id := by simpa using hne
      have heq := (hother _ hne).trans (congrFun hentries _)
      refine ⟨(hnodes node hnode).congr heq, ?_, hne⟩
      rw [heq]
      exact mem_userIds.mp hin
    · have happ : ∀ e₁ e₂ : Event Req.Answer, l ++ e₁ :: e₂ :: h = (l ++ [e₁, e₂]) ++ h :=
        fun e₁ e₂ => by simp
      rw [happ] at hh' ⊢
      refine hf v' _ (by simpa using hstored) (fun u => ?_) hh'
      rw [hentry u, hmap, ← hentries]
      rcases eq_or_ne u user.id with rfl | hu
      · rw [if_neg (by simp), hself]
      · rw [hother u hu]
        split_ifs with hin
        · rfl
        · cases hu' : v.entry u with
          | none => rfl
          | some e' =>
            refine absurd (List.mem_filter.mpr ⟨mem_userIds.mpr ?_, by simpa using hu⟩) hin
            rw [← hentries, hu']
            simp
  · rcases hno with ⟨hne, -⟩ | hno
    · exact absurd rfl hne
    · rw [Slice.entry_setEntry, if_pos rfl] at hno
      cases hno

/-! ### The whole rotation -/

/-- The outcome of a rotation: nothing has changed and it has not succeeded, or it has and
everybody has the new keys. -/
def RotationEnds (E : Env) (b : Bytes) (v : Slice) (user : User) (x : Except Stop HermesStatus)
    (v' : Slice) (h : Hist) : Prop :=
  TokensFrom b v h ∧ ((v' = v ∧ x ≠ .ok hmSuccess) ∨ (x = .ok hmSuccess ∧ E.Rekeyed b v user v' h))

/-- **What a rotation does**, with nobody else acting on the block. -/
theorem does_rotateBlock {fuel : ℕ} (hreg : E.Registered user) (hv : E.WellFormedAt v)
    (hb : b ≠ []) :
    E.Does b (midHermesRotateBlock fuel user b) v [] (E.RotationEnds b v user) := by
  have hfail : (Except.ok hmFail : Except Stop HermesStatus) ≠ .ok hmSuccess := by
    intro h
    exact absurd (Except.ok.inj h) (by decide)
  obtain ⟨sk, -, hsk, -⟩ := hreg.sk_eq
  unfold midHermesRotateBlock
  rw [if_neg hb]
  by_cases hread : ∃ d mt, E.Readable v user.id d mt
  · obtain ⟨d, mt, e, s, k₀, kw₀, he, hs, hk₀, hsealed, rfl⟩ := hread
    obtain ⟨rt, wt, mac, hrt, hmac, hload⟩ := computes_load hreg hv hb he hs hk₀ hsealed
    refine hload.does fun l hl => ?_
    have hh := tokensFrom_append hl (tokensFrom_nil (b := b) (v := v))
    cases wt with
    | none =>
      -- without a mac there is no rights list
      obtain ⟨-, rfl⟩ := hmac
      exact ⟨hh, Or.inl ⟨rfl, hfail⟩⟩
    | some wt =>
      obtain ⟨x, kwu, hx, hkwu, hwt, rfl⟩ := hmac
      have hwriter : writeToken (v.entry user.id) ≠ none := by
        rw [he]
        simp [writeToken, hx]
      refine does_accessRights hv hb rfl rfl (by rw [he]; simp) (fun l₁ hl₁ => ?_)
        fun _ l₁ hl₁ => ⟨tokensFrom_append hl₁ hh, Or.inl ⟨rfl, by simp⟩⟩
      have hh₁ := tokensFrom_append hl₁ hh
      simp only [midHermesLlBlockRotate, Prog.bind_assoc]
      refine does_rotateKeys hreg hsk rfl rfl rfl hsealed.data_ne hh₁ fun k kw h₂ hk hkw hh₂ => ?_
      simp only [Prog.bind_assoc]
      refine (computes_rotateRights hreg hsk hk hkw _).does fun l₃ hl₃ => ?_
      have hh₃ := tokensFrom_append hl₃ hh₂
      dsimp only
      simp only [Prog.pure_eq, Prog.ret_bind, Bool.not_true, Bool.false_eq_true, if_false,
        Option.none_or]
      refine does_save hb (E.themis.encryptSeal_ne_nil _ _ _) hsealed.meta_ne
        (E.themis.hmac_ne_nil _ _) (E.themis.hmac_ne_nil _ _) hs (fun hm => ?_)
        fun _ => ⟨hh₃.cons id, Or.inl ⟨rfl, hfail⟩⟩
      have hentries : (v.setStored (some ⟨E.themis.encryptSeal k s.metadata d, s.metadata,
          E.themis.hmac kw [d, s.metadata]⟩)).entry = v.entry := rfl
      refine does_saveTokens_rekeyed hreg hb hv hentries hwriter rfl rfl rfl
        (hh₃.cons (r := .ds (.updateBlock ..)) id) fun v' l₄ hstored hentry hh₄ => ?_
      refine ⟨hh₄, Or.inr ⟨rfl, hwriter, sk, k, kw, s, k₀, kw₀, d, _, _, hsk, hk, hkw, hs, hsealed,
        ⟨rfl, rfl⟩, ?_, hstored, hentry⟩⟩
      rw [hm]
      exact List.mem_append_right _ List.mem_cons_self
  · refine (computes_load_none hreg hv hb hread).does fun l hl => ?_
    exact ⟨tokensFrom_append hl tokensFrom_nil, Or.inl ⟨rfl, hfail⟩⟩

end Env

end Hermes

import Hermes.System

/-!
# Well-formed stores

What the two stores hold at any moment of any run of honest clients, whatever overlaps
(`Hermes.Env.Reachable.wellFormed`): every token wraps some key for its user, and every
stored block is some content, sealed under some key and authenticated under another. It
says nothing about whether these keys fit each other.

The invariant is kept by every justified request (`Hermes.Env.WellFormed.handle`), as
long as what the client has read was well-formed too (`Hermes.Env.WellRead`).
-/

namespace Hermes

open Interleave

namespace Env

variable (E : Env)

/-- A token, with its owner, that wraps a key for a user. -/
structure TokenFor (u : Bytes) (x : Bytes × Bytes) (k : Bytes) : Prop where
  owner_ne : x.2 ≠ []
  key_ne : k ≠ []
  wrapped : ∃ sk pk, E.credentials x.2 = some (E.themis.pub sk) ∧ E.credentials u = some pk ∧
    pk ≠ [] ∧ x.1 = E.themis.wrap sk pk k

/-- A stored block is the content `d`, with the meta stored next to it, sealed under `k` and
authenticated under `kw`. -/
structure Sealed (k kw d : Bytes) (s : StoredBlock) : Prop where
  key_ne : k ≠ []
  mac_key_ne : kw ≠ []
  data_ne : d ≠ []
  meta_ne : s.metadata ≠ []
  version : E.Version k kw d s.metadata s.block s.mac

/-- Every entry has well-formed tokens, and every block is well-formed. -/
structure WellFormed (w : World) : Prop where
  rtoken : ∀ {b u e}, w.entry b u = some e →
    (b ≠ [] ∧ u ≠ []) ∧ ∃ k, E.TokenFor u (e.rtoken, e.rtokenOwner) k
  wtoken : ∀ {b u x}, writeToken (w.entry b u) = some x → ∃ k, E.TokenFor u x k
  stored : ∀ {b s}, w.stored b = some s → b ≠ [] ∧ ∃ k kw d, E.Sealed k kw d s

/-- What a client has read was well-formed. -/
structure WellRead (h : Hist) : Prop where
  token : ∀ {isUpdate b u x}, GotToken h isUpdate b u x → ∃ k, E.TokenFor u x k
  block : ∀ {b x mt}, Got h (.ds (.readBlock b)) (.ok (x, mt)) →
    ∃ k d, d ≠ [] ∧ x = E.themis.encryptSeal k mt d

variable {E}

/-! ### Tokens and the keys in them -/

/-- A token wraps one key. -/
theorem TokenFor.unique {u k k' : Bytes} {x : Bytes × Bytes} (h : E.TokenFor u x k)
    (h' : E.TokenFor u x k') : k = k' := by
  obtain ⟨sk, pk, -, -, -, hx⟩ := h.wrapped
  obtain ⟨sk', pk', -, -, -, hx'⟩ := h'.wrapped
  exact (E.themis.wrap_inj (hx.symm.trans hx')).2.2

/-- A token is not empty. -/
theorem TokenFor.token_ne {u k : Bytes} {x : Bytes × Bytes} (h : E.TokenFor u x k) : x.1 ≠ [] := by
  obtain ⟨sk, pk, -, -, -, hx⟩ := h.wrapped
  rw [hx]
  exact E.themis.wrap_ne_nil _ _ _

/-- A token opens, for its user, to the key it wraps. -/
theorem TokenFor.opens {u : User} {k : Bytes} {x : Bytes × Bytes} (hu : E.Registered u)
    (h : E.TokenFor u.id x k) : E.Opens u x k := by
  obtain ⟨sko, pk, hcr, hpk, -, hx⟩ := h.wrapped
  obtain ⟨sk, -, hsk, hpub⟩ := hu.sk_eq
  have hpk' : u.pk = pk := Option.some.inj (hu.pk_eq.symm.trans hpk)
  refine ⟨sk, _, hsk, hcr, ?_⟩
  rw [hx, ← hpk', hpub]
  exact E.themis.unwrap_wrap _ _ _

/-- What a token opens to is the key it wraps. -/
theorem Opens.eq_of_tokenFor {u : User} {v k k' : Bytes} {x : Bytes × Bytes}
    (ho : E.Opens u x k') (h : E.TokenFor v x k) : k' = k := by
  obtain ⟨sko, pk, -, -, -, hx⟩ := h.wrapped
  obtain ⟨sk, pk', -, -, hun⟩ := ho
  rw [hx] at hun
  exact E.themis.unwrap_wrap_eq hun

/-- The public key of a registered user, as its process has it and as the credential store
does. -/
theorem Registered.credentials_eq {u : User} (hu : E.Registered u) {sk : Bytes}
    (hsk : u.sk = some sk) : E.credentials u.id = some (E.themis.pub sk) := by
  obtain ⟨sk', -, hsk', hpub⟩ := hu.sk_eq
  cases hsk.symm.trans hsk'
  rw [hu.pk_eq, hpub]

/-- A key the client has loaded is not empty. -/
theorem WellRead.key_ne {h : Hist} {isUpdate : Bool} {u : User} {b k : Bytes}
    (hh : E.WellRead h) (hk : E.KeyOf h isUpdate u b k) : k ≠ [] := by
  obtain ⟨x, hx, ho⟩ := hk
  obtain ⟨k', hk'⟩ := hh.token hx
  rw [ho.eq_of_tokenFor hk']
  exact hk'.key_ne

/-- The data a client has loaded is not empty. -/
theorem WellRead.data_ne {c : Call} {h : Hist} {u : User} {b k d mt : Bytes}
    (hh : E.WellRead h) (hacc : Prog.Accounted E.Sound (E.Justified c) h)
    (hl : E.Loaded h u b k d mt) : d ≠ [] := by
  obtain ⟨-, x, hr, hd⟩ := hl
  obtain ⟨k', d', hd', hx⟩ := hh.block hr
  obtain ⟨-, -, hs, -⟩ := hacc.of_mem hd
  have hs : x = E.themis.encryptSeal k mt d := hs
  rw [hs] at hx
  rw [(E.themis.encryptSeal_inj hx).2.2]
  exact hd'

/-- A key that a registered user wraps for another one. -/
theorem tokenFor_wrap {user : User} {sk pk k u : Bytes} (hreg : E.Registered user)
    (hsk : user.sk = some sk) (hpk : E.credentials u = some pk) (hne : pk ≠ []) (hk : k ≠ []) :
    E.TokenFor u (E.themis.wrap sk pk k, user.id) k :=
  ⟨user.id_ne_nil, hk, sk, pk, hreg.credentials_eq hsk, hpk, hne, rfl⟩

/-- **A token that is saved is well-formed.** -/
theorem Saves.tokenFor {c : Call} {h : Hist} {isUpdate : Bool} {b u o t : Bytes}
    (hs : E.Saves c h isUpdate b u o t) (hreg : E.Registered c.user) (hh : E.WellRead h) :
    ∃ k, E.TokenFor u (t, o) k := by
  rcases hs.cases with ⟨id, d, mt, -, rfl, rfl, -, k, kw, blk, mac, sk, -, -, hk, hkw, hsk, rfl⟩ |
    ⟨d, mt, -, -, hg, -⟩ | ⟨-, rfl, -, k, kw, d, blk, mt, mac, old, sk, pk, -, -, hk, hkw, hsk, hpk,
    hne, rfl⟩ | ⟨-, rfl, k, sk, pk, hk, hsk, hpk, hne, rfl⟩
  · -- a creation wraps keys it has drawn for its own user
    have hkey : keyFor isUpdate k kw ≠ [] := keyFor_ne_nil hk.ne_nil hkw.ne_nil
    exact ⟨_, tokenFor_wrap hreg hsk hreg.pk_eq c.user.pk_ne_nil hkey⟩
  · exact hh.token hg
  · have hkey : keyFor isUpdate k kw ≠ [] := keyFor_ne_nil hk.ne_nil hkw.ne_nil
    exact ⟨_, tokenFor_wrap hreg hsk hpk hne hkey⟩
  · exact ⟨k, tokenFor_wrap hreg hsk hpk hne (hh.key_ne hk)⟩

/-! ### The invariant -/

section Step

variable {w : World} {c : Call} {h : Hist} {r : Req}

/-- **A justified request keeps the stores well-formed.** -/
theorem WellFormed.handle (hw : E.WellFormed w) (hh : E.WellRead h) (hreg : E.Registered c.user)
    (hacc : Prog.Accounted E.Sound (E.Justified c) h) (hJ : E.Justified c h r) :
    E.WellFormed (E.handle w r).2 where
  rtoken := by
    intro b u e he
    rcases entry_cases w r b u with heq | ⟨o, t, hr, hne, -, heq⟩ | ⟨o, t, e', hr, -, -, he', heq⟩ |
      ⟨o, hr, -, heq⟩ | ⟨o, e', hr, -, he', heq⟩
    · exact hw.rtoken (heq ▸ he)
    · obtain rfl := congrArg Sigma.fst hr
      rw [he] at heq
      cases heq
      exact ⟨⟨hne.1, hne.2.1⟩, hJ.tokenFor hreg hh⟩
    · rw [he] at heq
      cases heq
      have hold := hw.rtoken he'
      exact hold
    · rw [he] at heq
      cases heq
    · rw [he] at heq
      cases heq
      have hold := hw.rtoken he'
      exact hold
  wtoken := by
    intro b u x hx
    rcases entry_cases w r b u with heq | ⟨o, t, hr, hne, -, heq⟩ | ⟨o, t, e', hr, -, -, he', heq⟩ |
      ⟨o, hr, -, heq⟩ | ⟨o, e', hr, -, he', heq⟩
    · exact hw.wtoken (heq ▸ hx)
    · rw [heq] at hx
      exact hw.wtoken hx
    · obtain rfl := congrArg Sigma.fst hr
      rw [heq] at hx
      cases hx
      exact hJ.tokenFor hreg hh
    · rw [heq] at hx
      cases hx
    · rw [heq] at hx
      cases hx
  stored := by
    intro b s hs
    rcases stored_cases w r b with heq | ⟨blk, mt, mac, hr, hne, -, heq⟩ |
      ⟨blk, mt, mac, old, s', hr, hne, hs', -, heq⟩ | ⟨old, s', hr, -, -, heq⟩
    · exact hw.stored (heq ▸ hs)
    · rw [hs] at heq
      cases heq
      obtain ⟨id, d, hd, -, -, k, kw, hv, hk, hkw⟩ := creates_of_event hr hJ
      exact ⟨hne.1, k, kw, d, hk.ne_nil, hkw.ne_nil, hd, hne.2, hv⟩
    · obtain rfl := congrArg Sigma.fst hr
      rw [hs] at heq
      cases heq
      refine ⟨(hw.stored hs').1, ?_⟩
      -- an update seals with keys that were read, a rotation with keys that were drawn
      rcases hJ.cases with ⟨d, -, hd, k, kw, hk, hkw, hv⟩ | ⟨-, k₀, d, k, kw, hl, hk, hkw, hv⟩
      · exact ⟨k, kw, d, hh.key_ne hk, hh.key_ne hkw, hd, hne, hv⟩
      · exact ⟨k, kw, d, hk.ne_nil, hkw.ne_nil, hh.data_ne hacc hl, hne, hv⟩
    · rw [hs] at heq
      cases heq

/-- A token the key store gives is one it has. -/
theorem token_of_got {isUpdate : Bool} {b u : Bytes} {x : Bytes × Bytes}
    (hg : GotToken (⟨r, (E.handle w r).1⟩ :: h) isUpdate b u x) :
    GotToken h isUpdate b u x ∨
      (isUpdate = false ∧ ∃ e, w.entry b u = some e ∧ x = (e.rtoken, e.rtokenOwner)) ∨
      (isUpdate = true ∧ writeToken (w.entry b u) = some x) := by
  cases isUpdate with
  | false =>
    rcases List.mem_cons.mp hg with heq | hg
    · obtain rfl := congrArg Sigma.fst heq
      exact Or.inr (Or.inl ⟨rfl, getRtoken_ok (eq_of_heq (Sigma.mk.inj heq).2).symm⟩)
    · exact Or.inl hg
  | true =>
    rcases List.mem_cons.mp hg with heq | hg
    · obtain rfl := congrArg Sigma.fst heq
      exact Or.inr (Or.inr ⟨rfl, getWtoken_ok (eq_of_heq (Sigma.mk.inj heq).2).symm⟩)
    · exact Or.inl hg

/-- What well-formed stores answer is well-formed. -/
theorem WellRead.handle (hw : E.WellFormed w) (hh : E.WellRead h) :
    E.WellRead (⟨r, (E.handle w r).1⟩ :: h) where
  token hg := by
    rcases token_of_got hg with hg | ⟨-, e, he, rfl⟩ | ⟨-, hx⟩
    · exact hh.token hg
    · exact (hw.rtoken he).2
    · exact hw.wtoken hx
  block {b x mt} hg := by
    rcases List.mem_cons.mp hg with heq | hg
    · obtain rfl := congrArg Sigma.fst heq
      obtain ⟨s, hs, hx⟩ := readBlock_ok (eq_of_heq (Sigma.mk.inj heq).2).symm
      cases hx
      obtain ⟨-, k, kw, d, hsealed⟩ := hw.stored hs
      exact ⟨k, d, hsealed.data_ne, hsealed.version.1⟩
    · exact hh.block hg

end Step

theorem wellFormed_empty (rands : ℕ → HmToken) : E.WellFormed (World.empty rands) where
  rtoken he := by cases he
  wtoken hx := by cases hx
  stored hs := by cases hs

theorem wellRead_nil : E.WellRead [] where
  token hg := (not_gotToken_nil hg).elim
  block hg := (not_got_nil hg).elim

/-- **The stores are well-formed in every reachable pool**, and so is what was read from
them. -/
theorem Reachable.wellFormed {allowed : Call → Prop} {P : Clients} (hP : E.Reachable allowed P) :
    E.WellFormed P.state ∧ ∀ t ∈ P.threads, E.WellRead t.hist := by
  refine hP.invariant (I := fun P => E.WellFormed P.state ∧ ∀ t ∈ P.threads, E.WellRead t.hist)
    (fun rands => ⟨wellFormed_empty rands, fun t ht => by simp at ht⟩) ?_ ?_
  · rintro P c fuel ⟨hw, hh⟩ - -
    refine ⟨hw, fun t ht => ?_⟩
    rcases System.mem_spawn.mp ht with ht | rfl
    · exact hh t ht
    · exact wellRead_nil
  · rintro P i c h r k hP ⟨hw, hh⟩ hi
    have ht := hP _ (List.mem_of_getElem? hi)
    have hh' := hh _ (List.mem_of_getElem? hi)
    refine ⟨hw.handle hh' ht.registered ht.accounts.1 ht.justified, fun t ht => ?_⟩
    rcases System.mem_answered ht with rfl | ht
    · exact WellRead.handle hw hh'
    · exact hh t ht

end Env

end Hermes

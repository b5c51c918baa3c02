import Hermes.Slice

/-!
# Where keys come from

Every key in a token was drawn, by some call that created a block or rotated one
(`Hermes.Env.Reachable.keysDrawn`). No request tells the stores a key, so this can only be said
of what a token opens to, for whoever has a private key that opens it
(`Hermes.Env.OpensToDrawn`), and the keys that were drawn are read off the histories of the
calls (`Hermes.drawnKeys`), not off any state.

The invariant (`Hermes.Env.KeysDrawn`) is about the tokens in the key store and about those that
calls have loaded and not yet used, since a token travels through the memory of a client: a
token that is saved wraps a key that the call has drawn, or is a token that was loaded, or wraps
the key in a token that was loaded (`Hermes.Env.Saves.cases`). In the last two cases the key was
drawn because the loaded token is covered by the invariant. A loaded token is one the key store
had at that moment, so the two halves feed each other.

What is drawn may repeat: the random generator is not told what it has given before. The
results that need different keys to be different assume that no key is drawn twice
(`Hermes.FreshKeys`), in the run at hand. Then a key belongs to one call
(`Hermes.eq_of_drew`) and, in this call, to one of its two tokens (`Hermes.ne_of_drew`): this is
how a key can stand for the block and the kind of token it was made for, in
`Hermes.Env.Authentic` and in what an attacker can learn.
-/

namespace Hermes

open Interleave

/-- The key an exchange has drawn: what `soter_rand` gave, if it did not fail. -/
def drawnKey : Event Req.Answer → Option Bytes
  | ⟨.themis .rand, some x⟩ => some x.val
  | _ => none

/-- The keys that were drawn, by all calls of a pool, with repetitions. -/
def drawnKeys (P : Clients) : List Bytes := P.threads.flatMap fun t => t.hist.filterMap drawnKey

/-- No key is drawn twice, neither by two calls nor by one. -/
def FreshKeys (P : Clients) : Prop := (drawnKeys P).Nodup

theorem mem_of_drew {h : Hist} {n : ℕ} {k : Bytes} (hd : Drew h n k) :
    k ∈ h.filterMap drawnKey := by
  obtain ⟨x, rfl, hx⟩ := hd.got
  exact List.mem_filterMap.mpr ⟨_, hx, rfl⟩

theorem mem_drawnKeys {P : Clients} {k : Bytes} :
    k ∈ drawnKeys P ↔ ∃ t ∈ P.threads, k ∈ t.hist.filterMap drawnKey := List.mem_flatMap

theorem mem_drawnKeys_of_drew {P : Clients} {t : ClientThread} {n : ℕ} {k : Bytes}
    (ht : t ∈ P.threads) (hd : Drew t.hist n k) : k ∈ drawnKeys P :=
  mem_drawnKeys.mpr ⟨t, ht, mem_of_drew hd⟩

theorem mem_drawnKeys_mono {P P' : Clients} (hP : Extends P P') {k : Bytes}
    (hk : k ∈ drawnKeys P) : k ∈ drawnKeys P' := by
  obtain ⟨t, ht, hk⟩ := mem_drawnKeys.mp hk
  obtain ⟨t', ht', -, hs⟩ := hP t ht
  exact mem_drawnKeys.mpr ⟨t', ht', (hs.sublist.filterMap _).subset hk⟩

/-- A key is drawn by one call. -/
theorem eq_of_drew {P : Clients} (hP : FreshKeys P) {t t' : ClientThread} {k : Bytes}
    {n m : ℕ} (ht : t ∈ P.threads) (ht' : t' ∈ P.threads) (hd : Drew t.hist n k)
    (hd' : Drew t'.hist m k) : t = t' := by
  by_contra hne
  have : Std.Symm (Function.onFun List.Disjoint
      fun t : ClientThread => t.hist.filterMap drawnKey) := ⟨fun _ _ h _ ha hb => h hb ha⟩
  exact (List.nodup_flatMap.mp hP).2.forall ht ht' hne (mem_of_drew hd) (mem_of_drew hd')

/-- A call that draws no key twice draws different keys. -/
theorem ne_of_drew {h : Hist} (hh : (h.filterMap drawnKey).Nodup) {n m : ℕ} {k k' : Bytes}
    (hd : Drew h n k) (hd' : Drew h m k') (hnm : n < m) : k ≠ k' := by
  rintro rfl
  obtain ⟨l, l', x, rfl, rfl, rfl⟩ := hd
  obtain ⟨l₁, l₁', y, heq, rfl, hxy⟩ := hd'
  -- the later draw has the earlier one before it, so the key is there twice
  have hx : (⟨.themis .rand, some x⟩ : Event Req.Answer) :: l' <:+
      l ++ ⟨.themis .rand, some x⟩ :: l' := List.suffix_append _ _
  have hy : (⟨.themis .rand, some y⟩ : Event Req.Answer) :: l₁' <:+
      l ++ ⟨.themis .rand, some x⟩ :: l' := heq ▸ List.suffix_append _ _
  rcases List.suffix_or_suffix_of_suffix hx hy with hs | hs
  · rcases List.suffix_cons_iff.mp hs with hs | hs
    · have hcount := congrArg draws (List.cons.inj hs).2
      omega
    · have hmem : x.val ∈ l₁'.filterMap drawnKey :=
        (hs.sublist.filterMap drawnKey).subset (by simp [drawnKey])
      rw [heq, List.filterMap_append, List.filterMap_cons_some (f := drawnKey)
        (b := y.val) rfl] at hh
      exact (List.nodup_cons.mp (List.nodup_append.mp hh).2.1).1 (hxy ▸ hmem)
  · obtain ⟨l₂, hl₂⟩ := hs
    have hcount := congrArg draws hl₂
    rw [draws_append, draws_cons_rand, draws_cons_rand] at hcount
    omega

namespace Env

variable (E : Env)

/-- What a token opens to, for anybody, was drawn. -/
def OpensToDrawn (P : Clients) (tok : Bytes) : Prop :=
  ∀ sk pk k, E.themis.unwrap sk pk tok = some k → k ∈ drawnKeys P

/-- **The keys in tokens were drawn**: in those that are stored, and in those that were read. -/
structure KeysDrawn (P : Clients) : Prop where
  token : ∀ {isUpdate b u x}, (P.state.slice b).token isUpdate u = some x → E.OpensToDrawn P x.1
  got : ∀ t ∈ P.threads, ∀ {isUpdate b u x}, GotToken t.hist isUpdate b u x → E.OpensToDrawn P x.1

variable {E} {allowed : Call → Prop}

theorem OpensToDrawn.mono {P P' : Clients} {tok : Bytes} (h : E.OpensToDrawn P tok)
    (hP : Extends P P') : E.OpensToDrawn P' tok :=
  fun sk pk k hk => mem_drawnKeys_mono hP (h sk pk k hk)

/-- A key a call has loaded was drawn. -/
theorem KeysDrawn.of_keyOf {P : Clients} (hP : E.KeysDrawn P) {t : ClientThread}
    (ht : t ∈ P.threads) {h : Hist} (hs : h <:+ t.hist) {isUpdate : Bool} {u : User} {b k : Bytes}
    (hk : E.KeyOf h isUpdate u b k) : k ∈ drawnKeys P := by
  obtain ⟨x, hx, sk, pk, -, -, hun⟩ := hk
  exact hP.got t ht (hx.mono hs) sk pk k hun

/-- **A key that was wrapped was drawn.** -/
theorem KeysDrawn.of_wrapped {P : Clients} (hP : E.KeysDrawn P) {t : ClientThread}
    (ht : t ∈ P.threads) (hhonest : E.Honest allowed t) {sk pk k : Bytes}
    {a : ThemisReq.Answer (.wrap sk pk k)} (hg : Got t.hist (.themis (.wrap sk pk k)) a) :
    k ∈ drawnKeys P := by
  obtain ⟨h', hs, -, hJ⟩ := hhonest.accounts.1.of_mem hg
  have hJ : E.Wraps t.call h' sk pk k := hJ
  rcases hJ.cases with ⟨n, hd⟩ | ⟨isUpdate, b, hk⟩
  · exact mem_drawnKeys_of_drew ht (hd.mono hs)
  · exact hP.of_keyOf ht hs hk

/-- **A token that is saved opens to a key that was drawn.** -/
theorem KeysDrawn.of_saves {P : Clients} (hP : E.KeysDrawn P) {t : ClientThread}
    (ht : t ∈ P.threads) {isUpdate : Bool} {b u o tok : Bytes}
    (hs : E.Saves t.call t.hist isUpdate b u o tok) : E.OpensToDrawn P tok := by
  have hwrap : ∀ {sk pk k : Bytes}, k ∈ drawnKeys P → E.OpensToDrawn P (E.themis.wrap sk pk k) :=
    fun hk sk' pk' k' hun => E.themis.unwrap_wrap_eq hun ▸ hk
  have hkey : ∀ {k kw : Bytes}, Drew t.hist 0 k → Drew t.hist 1 kw →
      keyFor isUpdate k kw ∈ drawnKeys P := by
    intro k kw hk hkw
    cases isUpdate
    · exact mem_drawnKeys_of_drew ht hk
    · exact mem_drawnKeys_of_drew ht hkw
  rcases hs.cases with ⟨id, d, mt, -, -, -, -, k, kw, blk, mac, sk, -, -, hk, hkw, -, rfl⟩ |
    ⟨d, mt, -, -, hg, -⟩ | ⟨-, -, -, k, kw, d, blk, mt, mac, old, sk, pk, -, -, hk, hkw, -, -, -,
    rfl⟩ | ⟨-, -, k, sk, pk, hk, -, -, -, rfl⟩
  · exact hwrap (hkey hk hkw)
  · exact hP.got t ht hg
  · exact hwrap (hkey hk hkw)
  · exact hwrap (hP.of_keyOf ht (List.suffix_refl _) hk)

/-- **The step lemma.** -/
theorem KeysDrawn.answered {P : Clients} (hP : E.KeysDrawn P) {i : ℕ} {c : Call} {h : Hist}
    {r : Req} {k : r.Answer → Client Result} (hhonest : E.Honest allowed ⟨c, h, .req r k⟩)
    (hi : P.threads[i]? = some ⟨c, h, .req r k⟩) :
    E.KeysDrawn (P.answered i (E.answeredThread P.state c h r k) (E.handle P.state r).2) := by
  have hmem := List.mem_of_getElem? hi
  have hext : Extends P (P.answered i (E.answeredThread P.state c h r k) (E.handle P.state r).2) :=
    extends_of_step (S := E.honest fun _ => True) (.request hi rfl)
  refine ⟨fun {isUpdate b u x} hx => OpensToDrawn.mono ?_ hext,
    fun t ht {isUpdate b u x} hx => OpensToDrawn.mono ?_ hext⟩
  · rcases token_handle hx with hx | rfl
    · exact hP.token hx
    · exact hP.of_saves hmem (justified_setToken.mp hhonest.justified)
  · rcases System.mem_answered ht with rfl | ht
    · rcases token_of_got hx with hold | ⟨rfl, e, he, rfl⟩ | ⟨rfl, hw⟩
      · exact hP.got _ hmem hold
      · have hread : (P.state.slice b).token false u = some (e.rtoken, e.rtokenOwner) :=
          Option.map_eq_some_iff.mpr ⟨e, he, rfl⟩
        exact hP.token hread
      · have hwrite : (P.state.slice b).token true u = some x := hw
        exact hP.token hwrite
    · exact hP.got t ht hx

/-- **In every reachable pool the keys in tokens were drawn.** -/
theorem Reachable.keysDrawn {P : Clients} (hP : E.Reachable allowed P) : E.KeysDrawn P := by
  refine hP.invariant (I := E.KeysDrawn) (fun rands => ?_) (fun P c fuel hI _ _ => ?_)
    fun P i c h r k hhonest hI hi => hI.answered (hhonest _ (List.mem_of_getElem? hi)) hi
  · exact ⟨fun {isUpdate b u x} hx => (by cases isUpdate <;> cases hx), fun t ht => by simp at ht⟩
  · have hext : Extends P (P.spawn c (c.prog fuel)) := fun t ht =>
      ⟨t, System.mem_spawn.mpr (Or.inl ht), rfl, List.suffix_refl _⟩
    refine ⟨fun hx => (hI.token hx).mono hext, fun t ht {isUpdate b u x} hx => ?_⟩
    rcases System.mem_spawn.mp ht with ht | rfl
    · exact (hI.got t ht hx).mono hext
    · exact (not_gotToken_nil hx).elim

end Env

end Hermes

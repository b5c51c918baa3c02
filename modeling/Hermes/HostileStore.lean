import Hermes.Instance
import Hermes.Keys

/-!
# A data store that cannot be trusted

Here the data store answers what it likes, to every request (`Hermes.Env.hostile`): any
bytes, blocks of other ids or of former times, success or failure, any id for a new
block. The key store and the credential store are honest, and so are the clients. Of the
cryptography it is assumed that no key is drawn twice, and that a cell that opens was
sealed by somebody, under the same key and with the same meta (`Hermes.IdealCrypto`).

Then what a reader gets is what a writer wrote (`Hermes.Env.read_block_authentic`). The
invariant behind it, `Hermes.Env.Authentic`, ties keys to blocks: a read token of a block
opens to a key that was drawn for this block, by a call that created it or that rotates
it; and whatever a rotation seals again was written. The content a rotation loads comes
from the hostile store, so this has to be shown of all calls at once.
-/

namespace Hermes

open Interleave

/-! ### What is assumed -/

/-- Every cell that was opened had been sealed, under the same key and context. -/
def Unforged (P : Clients) : Prop :=
  ∀ t ∈ P.threads, ∀ k c x m, Got t.hist (.themis (.decryptSeal k c x)) (some m) →
    ∃ t' ∈ P.threads, Got t'.hist (.themis (.encryptSeal k c m)) (some x)

/-- Ideal cryptography, as far as a pool tells. -/
structure IdealCrypto (P : Clients) : Prop where
  fresh : FreshKeys P
  unforged : Unforged P

namespace Env

variable (E : Env)

/-- Anything, from the data store; from all others what they answer. -/
def HostileAnswer (w : World) : (r : Req) → r.Answer → World → Prop
  | .ds _, _, w' => w'.keys = w.keys ∧ w'.rands = w.rands
  | .ks r, a, w' => (a, w') = E.handle w (.ks r)
  | .getPubKeyById id, a, w' => (a, w') = E.handle w (.getPubKeyById id)
  | .themis r, a, w' => (a, w') = E.handle w (.themis r)

/-- Calls of registered users, on a hostile data store. -/
def hostile (allowed : Call → Prop) : System World Req Req.Answer Call Result where
  starts c p := (E.Registered c.user ∧ allowed c) ∧ ∃ fuel, p = c.prog fuel
  answer P r a w := E.HostileAnswer P.state r a w

/-! ### What is shown -/

/-- The content was passed to a call that created the block, or to an update of the block by
a user whose write token for it the key store gave. -/
def Written (P : Clients) (b d mt : Bytes) : Prop :=
  ∃ t ∈ P.threads, (∃ id blk mac, t.call.op = .createBlock id d mt ∧
      Created t.hist b blk mt mac id) ∨
    (t.call.op = .updateBlock b d mt ∧ ∃ x, GotToken t.hist true b t.call.user.id x)

/-- The keys a call draws are for this block. -/
def KeysFor (b : Bytes) (t : ClientThread) : Prop :=
  (∃ id d mt blk mac, t.call.op = .createBlock id d mt ∧ Created t.hist b blk mt mac id) ∨
    t.call.op = .rotateBlock b

/-- A read key that was drawn for this block. -/
def ReadKeyOf (P : Clients) (b k : Bytes) : Prop :=
  ∃ t ∈ P.threads, Drew t.hist 0 k ∧ KeysFor b t

/-- A token that opens, for whoever it does, to a read key of this block. -/
def ReadTokenOf (P : Clients) (b : Bytes) (x : Bytes × Bytes) : Prop :=
  ∀ u k, E.Opens u x k → ReadKeyOf P b k

/-- **Keys are used for one block, and rotations seal what was written.** -/
structure Authentic (P : Clients) : Prop where
  entry : ∀ {b u e}, P.state.entry b u = some e → E.ReadTokenOf P b (e.rtoken, e.rtokenOwner)
  got : ∀ t ∈ P.threads, ∀ {b u x}, GotToken t.hist false b u x → E.ReadTokenOf P b x
  rotated : ∀ t ∈ P.threads, ∀ {b k mt d x}, t.call.op = .rotateBlock b →
    Got t.hist (.themis (.encryptSeal k mt d)) (some x) → Written P b d mt

variable {E} {allowed : Call → Prop}

/-! ### Everything only grows -/

theorem KeysFor.mono {b : Bytes} {t t' : ClientThread} (h : KeysFor b t) (hc : t'.call = t.call)
    (hs : t.hist <:+ t'.hist) : KeysFor b t' := by
  rw [KeysFor, hc]
  rcases h with ⟨id, d, mt, blk, mac, hop, hcr⟩ | hop
  · exact Or.inl ⟨id, d, mt, blk, mac, hop, hcr.mono hs⟩
  · exact Or.inr hop

theorem ReadKeyOf.mono {P P' : Clients} {b k : Bytes} (h : ReadKeyOf P b k) (hP : Extends P P') :
    ReadKeyOf P' b k := by
  obtain ⟨t, ht, hd, hk⟩ := h
  obtain ⟨t', ht', hc, hs⟩ := hP t ht
  exact ⟨t', ht', hd.mono hs, hk.mono hc hs⟩

theorem ReadTokenOf.mono {P P' : Clients} {b : Bytes} {x : Bytes × Bytes}
    (h : E.ReadTokenOf P b x) (hP : Extends P P') : E.ReadTokenOf P' b x :=
  fun u k ho => (h u k ho).mono hP

theorem Written.mono {P P' : Clients} {b d mt : Bytes} (h : Written P b d mt)
    (hP : Extends P P') : Written P' b d mt := by
  obtain ⟨t, ht, hw⟩ := h
  obtain ⟨t', ht', hc, hs⟩ := hP t ht
  refine ⟨t', ht', ?_⟩
  rw [hc]
  rcases hw with ⟨id, blk, mac, hop, hcr⟩ | ⟨hop, x, hx⟩
  · exact Or.inl ⟨id, blk, mac, hop, hcr.mono hs⟩
  · exact Or.inr ⟨hop, x, hx.mono hs⟩

/-! ### Honest clients on a hostile store -/

/-- What happens to the entries is what the answer tells, or nothing. -/
theorem HostileAnswer.cases {w w' : World} {r : Req} {a : r.Answer}
    (h : E.HostileAnswer w r a w') : (w'.entry = w.entry ∧ ∃ r', r = .ds r') ∨
      (a = (E.handle w r).1 ∧ w' = (E.handle w r).2) := by
  match r with
  | .ds r' =>
    refine Or.inl ⟨?_, r', rfl⟩
    funext b u
    exact congrArg (fun keys : KeyDb => keys.entry b u) h.1
  | .ks r' => exact Or.inr ⟨congrArg Prod.fst h, congrArg Prod.snd h⟩
  | .getPubKeyById id => exact Or.inr ⟨congrArg Prod.fst h, congrArg Prod.snd h⟩
  | .themis r' => exact Or.inr ⟨congrArg Prod.fst h, congrArg Prod.snd h⟩

theorem hostile_sound (P : Clients) (r : Req) (a : r.Answer) (w : World)
    (h : (E.hostile allowed).answer P r a w) : E.Sound ⟨r, a⟩ := by
  rcases HostileAnswer.cases h with ⟨-, r', rfl⟩ | ⟨rfl, -⟩
  · trivial
  · exact sound_handle E P.state r

/-- A call that creates a block does so once. -/
theorem created_unique {c : Call} {h : Hist} {id : Option Bytes}
    {b b' blk blk' mt mt' mac mac' : Bytes}
    (hacc : Prog.Accounted E.Sound (E.Justified c) h) (hc : Created h b blk mt mac id)
    (hc' : Created h b' blk' mt' mac' id) : b = b' := by
  cases id with
  | some id => exact hc.1.symm.trans hc'.1
  | none =>
    let C : Req → Prop := fun r => ∃ blk mt mac, r = .ds (.createBlock blk mt mac)
    have hfirst : ∀ h r, E.Justified c h r → C r → ∀ e ∈ h, ¬C e.1 := by
      rintro h _ hJ ⟨blk, mt, mac, rfl⟩ e he ⟨blk', mt', mac', heq⟩
      obtain ⟨d, -, -, honly, -⟩ := hJ
      have hthemis := honly e he
      rw [heq] at hthemis
      exact hthemis
    have heq := hacc.eq_of_mem (C := C) hfirst hc hc' ⟨_, _, _, rfl⟩ ⟨_, _, _, rfl⟩
    simp only [Sigma.mk.injEq, Req.ds.injEq, DataStoreReq.createBlock.injEq] at heq
    obtain ⟨⟨rfl, rfl, rfl⟩, heq⟩ := heq
    exact Except.ok.inj (eq_of_heq heq)

/-- The keys of a call are for one block. -/
theorem KeysFor.unique {t : ClientThread} {b b' : Bytes} (ht : E.Honest allowed t)
    (h : KeysFor b t) (h' : KeysFor b' t) : b = b' := by
  rcases h with ⟨id, d, mt, blk, mac, hop, hc⟩ | hop <;>
    rcases h' with ⟨id', d', mt', blk', mac', hop', hc'⟩ | hop' <;>
    rw [hop] at hop' <;> cases hop'
  · exact created_unique ht.accounts.1 hc hc'
  · rfl

/-- **What is sealed under a read key of a block was written to this block.** -/
theorem Authentic.written {P : Clients} (hP : E.Authentic P)
    (hhonest : ∀ t ∈ P.threads, E.Honest allowed t) (hfresh : FreshKeys P)
    {t : ClientThread} {b k mt d x : Bytes} (hkey : ReadKeyOf P b k) (ht : t ∈ P.threads)
    (hs : Got t.hist (.themis (.encryptSeal k mt d)) (some x)) : Written P b d mt := by
  obtain ⟨t₀, ht₀, hd₀, hfor⟩ := hkey
  obtain ⟨h', hsuf, -, hJ⟩ := (hhonest t ht).accounts.1.of_mem hs
  have hJ : E.Seals t.call h' k mt d := hJ
  -- a call that has drawn the key is the one whose keys are for the block
  have hsame : ∀ {n}, Drew h' n k → t₀ = t := fun hd =>
    eq_of_drew hfresh ht₀ ht hd₀ (hd.mono hsuf)
  rcases hJ.cases with ⟨id, hop, hd⟩ | ⟨b', hop, ⟨x, hx, ho⟩, kw, ⟨xw, hxw, -⟩⟩ | ⟨b', hop, hd, -⟩
  · obtain rfl := hsame hd
    rcases hfor with ⟨id', d', mt', blk, mac, hop', hcr⟩ | hop'
    · rw [hop] at hop'
      cases hop'
      exact ⟨t₀, ht₀, Or.inl ⟨id, blk, mac, hop, hcr⟩⟩
    · rw [hop] at hop'
      cases hop'
  · obtain ⟨t₁, ht₁, hd₁, hfor₁⟩ := hP.got t ht (hx.mono hsuf) _ _ ho
    obtain rfl := eq_of_drew hfresh ht₀ ht₁ hd₀ hd₁
    obtain rfl := hfor.unique (hhonest t₀ ht₀) hfor₁
    exact ⟨t, ht, Or.inr ⟨hop, xw, hxw.mono hsuf⟩⟩
  · obtain rfl := hsame hd
    rcases hfor with ⟨id', d', mt', blk, mac, hop', -⟩ | hop'
    · rw [hop] at hop'
      cases hop'
    · exact hP.rotated t₀ ht₀ hop' hs

/-- What a client has loaded from a hostile store was written. -/
theorem Authentic.written_of_loaded {P : Clients} (hP : E.Authentic P)
    (hhonest : ∀ t ∈ P.threads, E.Honest allowed t) (hideal : IdealCrypto P) {t : ClientThread}
    {h : Hist} {u : User} {b k d mt : Bytes} (ht : t ∈ P.threads) (hs : h <:+ t.hist)
    (hl : E.Loaded h u b k d mt) : Written P b d mt := by
  obtain ⟨⟨x, hx, ho⟩, cell, -, hdec⟩ := hl
  have hkey := hP.got t ht (hx.mono hs) _ _ ho
  obtain ⟨t', ht', hseal⟩ := hideal.unforged t ht _ _ _ _ (hdec.mono hs)
  exact hP.written hhonest hideal.fresh hkey ht' hseal

/-- **A read token that is saved opens to a read key of the block.** -/
theorem Authentic.readTokenOf {P : Clients} (hP : E.Authentic P) {t : ClientThread}
    (ht : t ∈ P.threads) {b u o tok : Bytes} (hs : E.Saves t.call t.hist false b u o tok) :
    E.ReadTokenOf P b (tok, o) := by
  -- who opens a wrapped key finds this key
  have hopens : ∀ {sk pk k k' : Bytes} {v : User}, E.Opens v (E.themis.wrap sk pk k, o) k' →
      k' = k := fun ho => by
    obtain ⟨sk', pk', -, -, hun⟩ := ho
    exact E.themis.unwrap_wrap_eq hun
  rcases hs.cases with ⟨id, d, mt, hop, -, -, -, k, kw, blk, mac, sk, hcr, -, hk, -, -, rfl⟩ |
    ⟨d, mt, -, -, hg, -⟩ | ⟨hop, -, -, k, kw, d, blk, mt, mac, old, sk, pk, -, -, hk, -, -, -, -,
    rfl⟩ | ⟨-, -, k, sk, pk, ⟨x, hx, hox⟩, -, -, -, rfl⟩
  · intro v k' ho
    rw [hopens ho]
    exact ⟨t, ht, hk, Or.inl ⟨id, d, mt, blk, mac, hop, hcr⟩⟩
  · exact hP.got t ht hg
  · intro v k' ho
    rw [hopens ho]
    exact ⟨t, ht, hk, Or.inr hop⟩
  · intro v k' ho
    rw [hopens ho]
    exact hP.got t ht hx _ _ hox

/-- **The step lemma.** -/
theorem Authentic.answered {P : Clients} (hP : E.Authentic P)
    (hhonest : ∀ t ∈ P.threads, E.Honest allowed t) (hideal : IdealCrypto P) {i : ℕ} {c : Call}
    {h : Hist} {r : Req} {k : r.Answer → Client Result} {a : r.Answer} {w : World}
    (hi : P.threads[i]? = some ⟨c, h, .req r k⟩) (ha : E.HostileAnswer P.state r a w) :
    E.Authentic (P.answered i ⟨c, ⟨r, a⟩ :: h, k a⟩ w) := by
  have hmem := List.mem_of_getElem? hi
  have hext : Extends P (P.answered i ⟨c, ⟨r, a⟩ :: h, k a⟩ w) :=
    extends_of_step (S := E.hostile allowed) (.request hi ha)
  have hJ := (hhonest _ hmem).justified
  -- whatever the data store answers, the key store and its tokens are those of an honest one
  refine ⟨fun {b u e} he => ?_, fun t ht {b u x} hx => ?_, fun t ht {b k' mt d x} hop hs => ?_⟩
  · refine ReadTokenOf.mono ?_ hext
    rcases ha.cases with ⟨hw, -⟩ | ⟨rfl, rfl⟩
    · exact hP.entry (by rw [← hw]; exact he)
    · have he : (E.handle P.state r).2.entry b u = some e := he
      rcases entry_cases P.state r b u with heq | ⟨o, t, hr, -, -, heq⟩ |
        ⟨o, t, e', -, -, -, he', heq⟩ | ⟨o, -, -, heq⟩ | ⟨o, e', -, -, he', heq⟩
      · exact hP.entry (heq ▸ he)
      · obtain rfl := congrArg Sigma.fst hr
        rw [he] at heq
        cases heq
        exact hP.readTokenOf hmem hJ
      · rw [he] at heq
        cases heq
        have hold := hP.entry he'
        exact hold
      · rw [he] at heq
        cases heq
      · rw [he] at heq
        cases heq
        have hold := hP.entry he'
        exact hold
  · refine ReadTokenOf.mono ?_ hext
    rcases System.mem_answered ht with rfl | ht
    · rcases ha.cases with ⟨-, r', rfl⟩ | ⟨rfl, rfl⟩
      · rcases List.mem_cons.mp hx with heq | hx
        · cases congrArg Sigma.fst heq
        · exact hP.got _ hmem (b := b) (u := u) (x := x) hx
      · rcases token_of_got hx with hx | ⟨-, e, he, rfl⟩ | ⟨hf, -⟩
        · exact hP.got _ hmem hx
        · exact hP.entry he
        · cases hf
    · exact hP.got t ht hx
  · refine Written.mono ?_ hext
    rcases System.mem_answered ht with rfl | ht
    · rcases List.mem_cons.mp hs with heq | hs
      · -- a rotation seals what it has loaded
        obtain rfl := congrArg Sigma.fst heq
        have hJ : E.Seals c h k' mt d := hJ
        have hop : c.op = .rotateBlock b := hop
        simp only [Env.Seals, hop] at hJ
        obtain ⟨-, k₀, hl⟩ := hJ
        exact hP.written_of_loaded hhonest hideal hmem (List.suffix_refl _) hl
      · exact hP.rotated _ hmem hop hs
    · exact hP.rotated t ht hop hs

theorem Authentic.spawn {P : Clients} (hP : E.Authentic P) {c : Call} {p : Client Result} :
    E.Authentic (P.spawn c p) := by
  have hext : Extends P (P.spawn c p) := fun t ht =>
    ⟨t, System.mem_spawn.mpr (Or.inl ht), rfl, List.suffix_refl _⟩
  refine ⟨fun he => (hP.entry he).mono hext, fun t ht {b u x} hx => ?_,
    fun t ht {b k mt d x} hop hs => ?_⟩
  · rcases System.mem_spawn.mp ht with ht | rfl
    · exact (hP.got t ht hx).mono hext
    · exact (not_gotToken_nil hx).elim
  · rcases System.mem_spawn.mp ht with ht | rfl
    · exact (hP.rotated t ht hop hs).mono hext
    · exact (not_got_nil hs).elim

theorem authentic_empty (rands : ℕ → HmToken) : E.Authentic ⟨World.empty rands, []⟩ where
  entry he := by cases he
  got t ht := by simp at ht
  rotated t ht := by simp at ht

/-- **Every run keeps it**, as long as the cryptography is ideal. -/
theorem authentic_of_runs {rands : ℕ → HmToken} {P : Clients}
    (hrun : (E.hostile allowed).RunsWithin IdealCrypto ⟨World.empty rands, []⟩ P) :
    (∀ t ∈ P.threads, E.Honest allowed t) ∧ IdealCrypto P ∧ E.Authentic P := by
  refine System.RunsWithin.invariant (I := fun P =>
    (∀ t ∈ P.threads, E.Honest allowed t) ∧ IdealCrypto P ∧ E.Authentic P) hrun ?_ ?_
  · exact ⟨fun t ht => by simp at ht, ⟨List.nodup_nil, fun t ht => by simp at ht⟩,
      authentic_empty rands⟩
  · rintro P P' ⟨hhonest, hideal, hP⟩ hs hideal'
    refine ⟨honest_threads (fun _ _ h => h) hostile_sound (.single hs) hhonest, hideal', ?_⟩
    cases hs with
    | start _ => exact hP.spawn
    | request hi ha => exact hP.answered hhonest hideal hi ha

/-- **Readers are safe from a hostile data store.** In a run in which the data store answers
anything and the cryptography is ideal, a reading that returns `HM_SUCCESS` returns a
content that was written to this block: the data and the meta were passed together to a
call that created it, or to an update of it by a user whose write token the key store
gave. -/
theorem read_block_authentic {rands : ℕ → HmToken} {P P' : Clients} {i : ℕ} {user : User}
    {b : Bytes} {res : Result}
    (hrun : (E.hostile allowed).RunsWithin IdealCrypto ⟨World.empty rands, []⟩ P)
    (hret : (E.hostile allowed).Returns P P' i ⟨user, .readBlock b⟩ res)
    (hideal : IdealCrypto P') (hres : res.status = hmSuccess) :
    ∃ d mt, res.content = some (d, mt) ∧ Written P' b d mt := by
  obtain ⟨hhonest, -, hP⟩ := authentic_of_runs
    (hrun.tail (b := P) (c := P') ⟨hret.step, hideal⟩)
  obtain ⟨h, hi⟩ := hret.returned
  have hmem := List.mem_of_getElem? hi
  obtain ⟨k, d, mt, hcontent, hl⟩ := (hhonest _ hmem).asks hres
  exact ⟨d, mt, hcontent, hP.written_of_loaded hhonest hideal hmem (List.suffix_refl _) hl⟩

end Env

/-! ### A run -/

/-- A test for ideal cryptography. -/
def isIdeal (P : Clients) : Bool :=
  decide (drawnKeys P).Nodup && P.threads.all fun t => t.hist.all fun
    | ⟨.themis (.decryptSeal k c x), some m⟩ => P.threads.any fun t' => t'.hist.any fun
      | ⟨.themis (.encryptSeal k' c' m'), some x'⟩ => k' = k ∧ c' = c ∧ m' = m ∧ x' = x
      | _ => false
    | _ => true

theorem idealCrypto_of_isIdeal {P : Clients} (h : isIdeal P = true) : IdealCrypto P := by
  simp only [isIdeal, Bool.and_eq_true, decide_eq_true_eq, List.all_eq_true] at h
  refine ⟨h.1, fun t ht k c x m hdec => ?_⟩
  obtain ⟨t', ht', hany⟩ := List.any_eq_true.mp (h.2 t ht _ hdec)
  obtain ⟨e, he, hseal⟩ := List.any_eq_true.mp hany
  split at hseal
  · obtain ⟨rfl, rfl, rfl, rfl⟩ := of_decide_eq_true hseal
    exact ⟨t', ht', he⟩
  · cases hseal

/-- A fault-free data store is one of the hostile ones. -/
theorem Env.hostileAnswer_handle {E : Env} (w : World) (r : Req) :
    E.HostileAnswer w r (E.handle w r).1 (E.handle w r).2 := by
  cases r with
  | ds r => exact ⟨rfl, rfl⟩
  | ks r => exact rfl
  | getPubKeyById id => exact rfl
  | themis r => exact rfl

/-- A data store that tells every writer that it took the update, and keeps the version it had. -/
def Env.forgetful (E : Env) (w : World) : (r : Req) → r.Answer × World
  | .ds (.updateBlock ..) => (.ok (), w)
  | r => E.handle w r

theorem Env.forgetful_cases {E : Env} (w : World) (r : Req) :
    E.forgetful w r = E.handle w r ∨
      ∃ b blk mt mac old, r = .ds (.updateBlock b blk mt mac old) := by
  match r with
  | .ds (.updateBlock b blk mt mac old) => exact Or.inr ⟨b, blk, mt, mac, old, rfl⟩
  | .ds (.createBlock ..) => exact Or.inl rfl
  | .ds (.createBlockWithId ..) => exact Or.inl rfl
  | .ds (.readBlock _) => exact Or.inl rfl
  | .ds (.deleteBlock ..) => exact Or.inl rfl
  | .ks _ => exact Or.inl rfl
  | .getPubKeyById _ => exact Or.inl rfl
  | .themis _ => exact Or.inl rfl

/-- It is one of the hostile ones, too. -/
theorem Env.hostileAnswer_forgetful {E : Env} (w : World) (r : Req) :
    E.HostileAnswer w r (E.forgetful w r).1 (E.forgetful w r).2 := by
  rcases forgetful_cases (E := E) w r with heq | ⟨b, blk, mt, mac, old, rfl⟩
  · rw [heq]
    exact hostileAnswer_handle w r
  · exact ⟨rfl, rfl⟩

/-- Alice creates a block and updates it, and is about to read it. -/
def updateThenReading : List (Move Call) :=
  Move.oneByOne 20
      [⟨alice, .createBlock (some [9]) [1] [2]⟩, ⟨alice, .updateBlock [9] [3] [4]⟩] 0 ++
    (.start ⟨alice, .readBlock [9]⟩ :: List.replicate 10 (.step 2))

/-- The pool this leads to when the data store forgets the update. -/
def forgottenUpdate : Clients :=
  (⟨World.empty demoRands, []⟩ : Clients).play demoEnv.forgetful (Call.prog 8) updateThenReading

/-- The update has succeeded, as far as Alice can tell. -/
example : forgottenUpdate.threads[1]?.any (fun t => t.prog.value? = some ⟨hmSuccess, none, none⟩) =
    true := by decide +kernel

/-- She reads what the block was created with: an old content, but one that was written. -/
theorem Env.read_block_authentic_forgottenUpdate :
    ∃ d mt, some (([1], [2]) : Bytes × Bytes) = some (d, mt) ∧
      Env.Written (forgottenUpdate.move demoEnv.forgetful (Call.prog 8) (.step 2)) [9] d mt := by
  have hrun : (demoEnv.hostile fun _ => True).RunsWithin IdealCrypto
      ⟨World.empty demoRands, []⟩ forgottenUpdate := by
    refine System.runsWithin_play (fun P => idealCrypto_of_isIdeal)
      (fun P r => Env.hostileAnswer_forgetful P.state r) _ (fun c hc => ?_) _ (by decide +kernel)
    simp only [updateThenReading, Move.starts_append, Move.starts_oneByOne, Move.starts_start,
      Move.starts_replicate, List.mem_append, List.mem_cons, List.not_mem_nil, or_false] at hc
    rcases hc with (rfl | rfl) | rfl <;> exact ⟨⟨registered_alice, trivial⟩, 8, rfl⟩
  have hret : (demoEnv.hostile fun _ => True).Returns forgottenUpdate
      (forgottenUpdate.move demoEnv.forgetful (Call.prog 8) (.step 2)) 2
      ⟨alice, .readBlock [9]⟩ ⟨hmSuccess, none, some ([1], [2])⟩ :=
    System.returns_move (fun P r => Env.hostileAnswer_forgetful P.state r)
      (by decide +kernel) (by decide +kernel)
  exact Env.read_block_authentic hrun hret (idealCrypto_of_isIdeal (by decide +kernel)) rfl

end Hermes

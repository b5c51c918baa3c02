import Hermes.HostileStore
import Hermes.Instance
import Hermes.Knowledge.Derivation
import Hermes.Provenance.Names
import Hermes.Rights

/-!
# What an attacker can learn

The reason for all the tokens is that the stores are not to be trusted with the data. Here
an attacker reads everything that clients send to any store, and *is* the data store: it
answers what it likes, as far as it can derive it (`Hermes.Env.watched`). It knows some
messages from the beginning, among them the private keys of users it has corrupted, and
can apply the cryptography to what it knows, but not break it
(`Knowledge.Algebra.Derives`). The key store is honest, and so are the programs that the
clients run, also those of the corrupted users.

It wants the data of one block. If no corrupted user creates the block, and nobody lets a
corrupted user read it (`Hermes.Attack.Allows`), then in no run, in whatever order things
happen, it can derive the data written to the block, a read key of the block or the private
key of a user it has not corrupted (`Hermes.Env.confidential`). Corrupted users may do
everything else: they may even write the block, if they are let.

All requests are shown to be harmless, in the sense of `Knowledge.Algebra.Harmless`, one by
one from what justifies them. That a token is harmless needs to know which key is in it: so
keys are tied to blocks, as in `Hermes.Env.Authentic`.

Any program that answers for the data store from what the stores hold is such an attacker
(`Hermes.Env.Informed.watched`): the fault-free data store is, and so is the one in the run at the
end of the file (`Hermes.forger`). That one forgets all updates, and forges the contents of the
blocks that the corrupted user may read.
-/

namespace Hermes

open Interleave

theorem Extends.trans {P P' P'' : Clients} (h : Extends P P') (h' : Extends P' P'') :
    Extends P P'' := by
  intro t ht
  obtain ⟨t', ht', hc, hs⟩ := h t ht
  obtain ⟨t'', ht'', hc', hs'⟩ := h' t' ht'
  exact ⟨t'', ht'', hc'.trans hc, hs.trans hs'⟩

/-! ### What is seen -/

/-- What the data store tells a client. -/
def dataTold : Event Req.Answer → List Bytes
  | ⟨.ds (.createBlock ..), .ok id⟩ => [id]
  | ⟨.ds (.readBlock _), .ok (x, mt)⟩ => [x, mt]
  | _ => []

/-- What an attacker has, and what it wants. -/
structure Attack where
  /-- The users it has corrupted, by their ids. -/
  corrupt : Set Bytes
  /-- What it knows from the beginning. -/
  initial : Set Bytes
  /-- The block it is after. -/
  block : Bytes
  /-- The data that is written to this block. -/
  data : Set Bytes

/-- What an operation writes. -/
def Op.content : Op → Option (Bytes × Bytes)
  | .createBlock _ d mt => some (d, mt)
  | .updateBlock _ d mt => some (d, mt)
  | _ => none

/-- **The calls that are made.** All ids and metas are public; all data is, unless it is written
to the block the attacker is after. This block is created by a user who is not corrupted, as
is any block that the data store chooses the id of, and nobody lets a corrupted user read
it. -/
structure Attack.Allows (A : Attack) (c : Call) : Prop where
  user : c.user.id ∈ A.initial
  ids : ∀ x ∈ c.op.ids, x ∈ A.initial
  metadata : ∀ {d mt}, c.op.content = some (d, mt) → mt ∈ A.initial
  data : ∀ {d mt}, c.op.content = some (d, mt) →
    d ∈ A.initial ∨ (d ∈ A.data ∧ c.op.blockId = some A.block)
  creator : ∀ {id d mt}, c.op = .createBlock id d mt → id = none ∨ id = some A.block →
    c.user.id ∉ A.corrupt
  reader : ∀ {v}, c.op = .grantReadAccess A.block v → v ∉ A.corrupt

namespace Env

variable (E : Env)

/-- The cryptography, as an attacker sees it. -/
def messages : Knowledge.Algebra Bytes where
  pub := E.themis.pub
  cell := E.themis.encryptSeal
  wrap := E.themis.wrap
  mac := E.themis.hmac

/-- What an attacker has seen. -/
def Overheard (I : Set Bytes) (P : Clients) : Set Bytes :=
  I ∪ {x | ∃ t ∈ P.threads, ∃ e ∈ t.hist, x ∈ e.1.sent}

/-- Calls of registered users, on a data store that answers whatever can be derived from what
is known. -/
def watched (I : Set Bytes) (allowed : Call → Prop) : System World Req Req.Answer Call Result where
  starts c p := (E.Registered c.user ∧ allowed c) ∧ ∃ fuel, p = c.prog fuel
  answer P r a w := E.HostileAnswer P.state r a w ∧
    ∀ x ∈ dataTold ⟨r, a⟩, E.messages.Derives (Overheard I P) x

/-- The read keys of the block: drawn to create it, or to rotate it. -/
def ReadKey (A : Attack) (P : Clients) (k : Bytes) : Prop :=
  ∃ t ∈ P.threads, Drew t.hist 0 k ∧
    (KeysFor A.block t ∨ ∃ d mt, t.call.op = .createBlock (some A.block) d mt)

/-- The private key of a user that is not corrupted. -/
def PrivateKey (A : Attack) (sk : Bytes) : Prop :=
  ∃ id, id ∉ A.corrupt ∧ E.credentials id = some (E.themis.pub sk)

/-- **What is to stay secret.** -/
def Secret (A : Attack) (P : Clients) : Set Bytes :=
  {x | E.PrivateKey A x ∨ ReadKey A P x ∨ x ∈ A.data}

/-- **Values of different kinds are different.** No message is built in two ways; keys and secret
data are not built at all, they differ, and nobody knows them from the beginning. -/
structure Separates (rands : ℕ → HmToken) (A : Attack) : Prop where
  free : E.messages.Free
  credentials : ∀ {id pk}, E.credentials id = some pk → ∃ sk, pk = E.themis.pub sk
  initial_ne_cell : ∀ x ∈ A.initial, ∀ k c m, x ≠ E.themis.encryptSeal k c m
  initial_ne_wrap : ∀ x ∈ A.initial, ∀ a p m, x ≠ E.themis.wrap a p m
  privateKey : ∀ {sk}, E.PrivateKey A sk → E.messages.Atom sk ∧ sk ∉ A.initial
  data : ∀ {d}, d ∈ A.data → E.messages.Atom d ∧ d ∉ A.initial
  rand : ∀ n, E.messages.Atom (rands n).val ∧ (rands n).val ∉ A.initial ∧
    (rands n).val ∉ A.data ∧ ¬E.PrivateKey A (rands n).val

variable {E} {allowed : Call → Prop}

/-! ### The runs of such a system -/

/-- The data store is one that may answer anything. -/
theorem watched_hostile {I : Set Bytes} {P P' : Clients} (h : (E.watched I allowed).Step P P') :
    (E.hostile allowed).Step P P' := by
  cases h with
  | start hc => exact .start hc
  | request hi ha => exact .request hi ha.1

theorem hostile_of_watched {I : Set Bytes} {P P' : Clients}
    (h : (E.watched I allowed).Runs P P') : (E.hostile allowed).Runs P P' :=
  Relation.ReflTransGen.mono (fun _ _ => watched_hostile) _ _ h

/-- An answer draws the next random value, or none. -/
theorem HostileAnswer.rands {w w' : World} {r : Req} {a : r.Answer}
    (h : E.HostileAnswer w r a w') :
    (w'.rands = w.rands ∧ drawnKey ⟨r, a⟩ = none) ∨
      ((∀ n, w'.rands n = w.rands (n + 1)) ∧ drawnKey ⟨r, a⟩ = some (w.rands 0).val) := by
  match r with
  | .ds _ => exact Or.inl ⟨h.2, rfl⟩
  | .ks r' =>
    obtain rfl : w' = (E.handle w (.ks r')).2 := congrArg Prod.snd h
    exact Or.inl ⟨rfl, rfl⟩
  | .getPubKeyById id =>
    obtain rfl : w' = w := congrArg Prod.snd h
    exact Or.inl ⟨rfl, rfl⟩
  | .themis .rand =>
    obtain rfl : a = some (w.rands 0) := congrArg Prod.fst h
    obtain rfl : w' = (E.handle w (.themis .rand)).2 := congrArg Prod.snd h
    exact Or.inr ⟨fun _ => rfl, rfl⟩
  | .themis (.encryptSeal k c m) =>
    obtain rfl : w' = w := congrArg Prod.snd h
    exact Or.inl ⟨rfl, rfl⟩
  | .themis (.decryptSeal k c x) =>
    obtain rfl : w' = w := congrArg Prod.snd h
    exact Or.inl ⟨rfl, rfl⟩
  | .themis (.wrap sk pk m) =>
    obtain rfl : w' = w := congrArg Prod.snd h
    exact Or.inl ⟨rfl, rfl⟩
  | .themis (.unwrapSize sk pk x) =>
    obtain rfl : w' = w := congrArg Prod.snd h
    exact Or.inl ⟨rfl, rfl⟩
  | .themis (.unwrap sk pk x) =>
    obtain rfl : w' = w := congrArg Prod.snd h
    exact Or.inl ⟨rfl, rfl⟩
  | .themis (.hmac k xs) =>
    obtain rfl : w' = w := congrArg Prod.snd h
    exact Or.inl ⟨rfl, rfl⟩

/-- The random values that are left are some of those that there were. -/
theorem rands_of_runs {rands : ℕ → HmToken} {P : Clients}
    (hrun : (E.hostile allowed).Runs ⟨World.empty rands, []⟩ P) :
    (∃ m, ∀ n, P.state.rands n = rands (m + n)) ∧ ∀ k ∈ drawnKeys P, ∃ n, k = (rands n).val := by
  refine hrun.invariant (I := fun P => (∃ m, ∀ n, P.state.rands n = rands (m + n)) ∧
    ∀ k ∈ drawnKeys P, ∃ n, k = (rands n).val) ?_ ?_
  · exact ⟨⟨0, fun n => by rw [Nat.zero_add]; rfl⟩, fun k hk => by simp [drawnKeys] at hk⟩
  · rintro P P' ⟨⟨m, hm⟩, hdrawn⟩ hs
    cases hs with
    | start _ =>
      refine ⟨⟨m, hm⟩, fun k hk => ?_⟩
      obtain ⟨t, ht, hk⟩ := mem_drawnKeys.mp hk
      rcases System.mem_spawn.mp ht with ht | rfl
      · exact hdrawn k (mem_drawnKeys.mpr ⟨t, ht, hk⟩)
      · simp at hk
    | @request i c h r k a w hi ha =>
      have hold : ∀ t ∈ P.threads, ∀ k ∈ t.hist.filterMap drawnKey, ∃ n, k = (rands n).val :=
        fun t ht k hk => hdrawn k (mem_drawnKeys.mpr ⟨t, ht, hk⟩)
      -- an answer either draws nothing, or takes the first of what is left
      have hnew : (∃ m, ∀ n, w.rands n = rands (m + n)) ∧
          ∀ k, drawnKey ⟨r, a⟩ = some k → ∃ n, k = (rands n).val := by
        rcases HostileAnswer.rands ha with ⟨hw, hno⟩ | ⟨hw, hyes⟩
        · refine ⟨⟨m, fun n => by rw [hw, hm]⟩, fun k hk => ?_⟩
          rw [hno] at hk
          cases hk
        · refine ⟨⟨m + 1, fun n => by rw [hw, hm, Nat.add_right_comm, Nat.add_assoc]⟩, ?_⟩
          intro k hk
          rw [hyes, hm] at hk
          exact ⟨_, (Option.some.inj hk).symm⟩
      refine ⟨hnew.1, fun k' hk' => ?_⟩
      obtain ⟨t, ht, hk'⟩ := mem_drawnKeys.mp hk'
      rcases System.mem_answered ht with rfl | ht
      · obtain ⟨e, he, hek⟩ := List.mem_filterMap.mp hk'
        rcases List.mem_cons.mp he with rfl | he
        · exact hnew.2 k' hek
        · exact hold _ (List.mem_of_getElem? hi) k' (List.mem_filterMap.mpr ⟨e, he, hek⟩)
      · exact hold t ht k' hk'

/-! ### Which key is in a token -/

/-- A key of a token of this kind, for this block: a read key was drawn first, to create the
block or to rotate it, and a write key was drawn second. -/
def KeyIn (P : Clients) : Bool → Bytes → Bytes → Prop
  | false, b, k => ReadKeyOf P b k
  | true, _, k => ∃ t ∈ P.threads, Drew t.hist 1 k

section Final

variable {A : Attack} {P : Clients} {isUpdate : Bool} {b k : Bytes}

theorem KeyIn.drawn (hk : KeyIn P isUpdate b k) : k ∈ drawnKeys P := by
  cases isUpdate with
  | false =>
    obtain ⟨t, ht, hd, -⟩ := hk
    exact mem_drawnKeys_of_drew ht hd
  | true =>
    obtain ⟨t, ht, hd⟩ := hk
    exact mem_drawnKeys_of_drew ht hd

/-- **A token with a read key of the block is a read token of the block.** -/
theorem KeyIn.eq_of_readKey (hfresh : FreshKeys P) (hhonest : ∀ t ∈ P.threads, E.Honest allowed t)
    (hk : KeyIn P isUpdate b k) (hr : ReadKey A P k) : isUpdate = false ∧ b = A.block := by
  obtain ⟨t', ht', hd', hfor'⟩ := hr
  cases isUpdate with
  | true =>
    obtain ⟨t, ht, hd⟩ := hk
    obtain rfl := eq_of_drew hfresh ht ht' hd hd'
    have hnodup : (t.hist.filterMap drawnKey).Nodup := (List.nodup_flatMap.mp hfresh).1 t ht
    exact absurd rfl (ne_of_drew hnodup hd' hd Nat.zero_lt_one)
  | false =>
    obtain ⟨t, ht, hd, hfor⟩ := hk
    obtain rfl := eq_of_drew hfresh ht ht' hd hd'
    refine ⟨rfl, ?_⟩
    rcases hfor' with hfor' | ⟨d, mt, hop⟩
    · exact hfor.unique (hhonest t ht) hfor'
    · rcases hfor with ⟨id, d', mt', blk, mac, hop', hcr⟩ | hop'
      · cases hop.symm.trans hop'
        exact hcr.1.symm
      · cases hop.symm.trans hop'

/-- **A cell of the block, as clients make it**: a call seals it under a key it has drawn to
create a block, or the content was written to the block. -/
def Genuine (E : Env) (A : Attack) (P : Clients) : Set Bytes :=
  {x | ∃ k d mt, x = E.themis.encryptSeal k mt d ∧ (Written P A.block d mt ∨
    ∃ t ∈ P.threads, (∃ id, t.call.op = .createBlock id d mt) ∧ Drew t.hist 0 k)}

/-- A harmless message, when the secrets are those of a pool. -/
abbrev Harmless (E : Env) (A : Attack) (P : Clients) (x : Bytes) : Prop :=
  E.messages.Harmless (E.Secret A P) (E.Genuine A P) x

/-- **The state of affairs in the end**: the cryptography keeps things apart, and no key was drawn
twice. -/
structure Fair (E : Env) (rands : ℕ → HmToken) (A : Attack) (P : Clients) : Prop where
  separates : E.Separates rands A
  fresh : FreshKeys P
  honest : ∀ t ∈ P.threads, E.Honest A.Allows t
  drawn : ∀ k ∈ drawnKeys P, ∃ n, k = (rands n).val

variable {rands : ℕ → HmToken} {x : Bytes}

theorem ReadKey.drawn (hk : ReadKey A P k) : k ∈ drawnKeys P := by
  obtain ⟨t, ht, hd, -⟩ := hk
  exact mem_drawnKeys_of_drew ht hd

section Fair

variable (hP : E.Fair rands A P)
include hP

/-- No operation makes a secret. -/
theorem Fair.atom : ∀ x ∈ E.Secret A P, E.messages.Atom x := by
  rintro x (hx | hx | hx)
  · exact (hP.separates.privateKey hx).1
  · obtain ⟨n, rfl⟩ := hP.drawn x hx.drawn
    exact (hP.separates.rand n).1
  · exact (hP.separates.data hx).1

theorem Fair.harmless_initial (hx : x ∈ A.initial) : E.Harmless A P x := by
  refine Knowledge.Algebra.harmless_of_ne ?_ (hP.separates.initial_ne_cell x hx)
    (hP.separates.initial_ne_wrap x hx)
  rintro (hs | hs | hs)
  · exact (hP.separates.privateKey hs).2 hx
  · obtain ⟨n, rfl⟩ := hP.drawn x hs.drawn
    exact (hP.separates.rand n).2.1 hx
  · exact (hP.separates.data hs).2 hx

/-- A drawn key is harmless, unless it is a read key of the block. -/
theorem Fair.harmless_drawn (hx : x ∈ drawnKeys P) (hr : ¬ReadKey A P x) : E.Harmless A P x := by
  obtain ⟨n, rfl⟩ := hP.drawn x hx
  obtain ⟨hatom, -, hdata, hprivate⟩ := hP.separates.rand n
  refine Knowledge.Algebra.harmless_of_ne ?_ hatom.ne_cell hatom.ne_wrap
  rintro (hs | hs | hs)
  · exact hprivate hs
  · exact hr hs
  · exact hdata hs

theorem Fair.harmless_mac (kw : Bytes) (xs : List Bytes) :
    E.Harmless A P (E.themis.hmac kw xs) :=
  Knowledge.Algebra.harmless_mac hP.separates.free hP.atom kw xs

theorem Fair.harmless_cell {k c m : Bytes}
    (h : E.Harmless A P m ∨ (k ∈ E.Secret A P ∧ m ∈ E.Secret A P))
    (hgenuine : k ∈ E.Secret A P → E.themis.encryptSeal k c m ∈ E.Genuine A P) :
    E.Harmless A P (E.themis.encryptSeal k c m) :=
  Knowledge.Algebra.harmless_cell hP.separates.free hP.atom h hgenuine

/-- A drawn key that is secret is a read key of the block. -/
theorem Fair.readKey (hx : x ∈ drawnKeys P) (hs : x ∈ E.Secret A P) : ReadKey A P x := by
  obtain ⟨n, rfl⟩ := hP.drawn x hx
  obtain ⟨-, -, hdata, hprivate⟩ := hP.separates.rand n
  rcases hs with hs | hs | hs
  · exact absurd hs hprivate
  · exact hs
  · exact absurd hs hdata

/-- **A genuine cell under a key for tokens of the block** has a content that was written to the
block: the call that drew the key to create a block has created this one. -/
theorem Fair.written {d mt : Bytes} (hk : KeyIn P false A.block k)
    (hx : E.themis.encryptSeal k mt d ∈ E.Genuine A P) : Written P A.block d mt := by
  obtain ⟨k', d', mt', heq, hw⟩ := hx
  obtain ⟨rfl, rfl, rfl⟩ := E.themis.encryptSeal_inj heq
  rcases hw with hw | ⟨t, ht, ⟨id, hop⟩, hd⟩
  · exact hw
  · obtain ⟨t', ht', hd', hfor⟩ := hk
    obtain rfl := eq_of_drew hP.fresh ht ht' hd hd'
    rcases hfor with ⟨id', d', mt', blk, mac, hop', hcr⟩ | hop'
    · cases hop.symm.trans hop'
      exact ⟨t, ht, Or.inl ⟨id, blk, mac, hop, hcr⟩⟩
    · cases hop.symm.trans hop'

/-- What is derived from what an attacker has seen is harmless, if what was sent is. -/
theorem Fair.harmless_of_derives {Q : Clients} (hsent : ∀ t ∈ Q.threads, ∀ e ∈ t.hist,
      ∀ x ∈ e.1.sent, E.Harmless A P x) (hx : E.messages.Derives (Overheard A.initial Q) x) :
    E.Harmless A P x := by
  refine Knowledge.Algebra.Harmless.of_derives hP.separates.free hP.atom ?_ hx
  rintro y (hy | ⟨t, ht, e, he, hy⟩)
  · exact hP.harmless_initial hy
  · exact hsent t ht e he y hy

end Fair

/-! ### Tokens -/

/-- What there is to know about a token of a user: which key is in it, and that a read token of
the block is one between users who are not corrupted. -/
structure TokenOk (E : Env) (A : Attack) (P : Clients) (isUpdate : Bool) (b u : Bytes)
    (x : Bytes × Bytes) : Prop where
  key : ∃ k, E.TokenFor u x k ∧ KeyIn P isUpdate b k
  user : E.Harmless A P u
  owner : E.Harmless A P x.2
  trusted : isUpdate = false → b = A.block → u ∉ A.corrupt ∧ x.2 ∉ A.corrupt

/-- **A token is harmless**: a read key of the block is in it only if neither its user nor its
owner is corrupted. -/
theorem TokenOk.harmless {u : Bytes} {x : Bytes × Bytes} (hP : E.Fair rands A P)
    (hx : E.TokenOk A P isUpdate b u x) : E.Harmless A P x.1 := by
  obtain ⟨k, htoken, hk⟩ := hx.key
  obtain ⟨sk, pk, howner, huser, -, heq⟩ := htoken.wrapped
  rw [heq]
  refine Knowledge.Algebra.harmless_wrap hP.separates.free hP.atom ?_
  by_cases hr : ReadKey A P k
  · obtain ⟨hkind, hblock⟩ := hk.eq_of_readKey hP.fresh hP.honest hr
    obtain ⟨hu, ho⟩ := hx.trusted hkind hblock
    obtain ⟨sk', rfl⟩ := hP.separates.credentials huser
    exact Or.inr ⟨Or.inl ⟨x.2, ho, howner⟩, ⟨sk', Or.inl ⟨u, hu, huser⟩, rfl⟩, Or.inr (Or.inl hr)⟩
  · exact Or.inl (hP.harmless_drawn hk.drawn hr)

/-- The key a token opens to. -/
theorem TokenOk.keyIn {u : User} {v : Bytes} {x : Bytes × Bytes}
    (hx : E.TokenOk A P isUpdate b v x) (ho : E.Opens u x k) : KeyIn P isUpdate b k ∧ k ≠ [] := by
  obtain ⟨k', htoken, hk⟩ := hx.key
  rw [ho.eq_of_tokenFor htoken]
  exact ⟨hk, htoken.key_ne⟩

end Final

/-! ### The invariant -/

/-- **Everything is harmless**: what was sent and what was told; and the tokens are as they
should be, the ones in the key store and the ones that were read. -/
structure AllHarmless (E : Env) (A : Attack) (P Q : Clients) : Prop where
  sent : ∀ t ∈ Q.threads, ∀ e ∈ t.hist, ∀ x ∈ e.1.sent, E.Harmless A P x
  told : ∀ t ∈ Q.threads, ∀ e ∈ t.hist, ∀ x ∈ dataTold e, E.Harmless A P x
  token : ∀ {isUpdate b u x}, (Q.state.slice b).token isUpdate u = some x →
    E.TokenOk A P isUpdate b u x
  got : ∀ t ∈ Q.threads, ∀ {isUpdate b u x}, GotToken t.hist isUpdate b u x →
    E.TokenOk A P isUpdate b u x
  listed : ∀ t ∈ Q.threads, ∀ {b i u mask},
    Got t.hist (.ks (.getIndexedRights b i)) (.ok (u, mask)) → E.Harmless A P u

section Requests

variable {A : Attack} {P Q : Clients} {rands : ℕ → HmToken} {isUpdate : Bool} {b k : Bytes}
  {t : ClientThread}

/-- What a client may name is harmless. -/
theorem AllHarmless.nameable (hQ : E.AllHarmless A P Q) (hP : E.Fair rands A P)
    (ht : t ∈ Q.threads) (hhonest : E.Honest A.Allows t) {x : Bytes}
    (hx : Nameable t.call t.hist x) : E.Harmless A P x := by
  rcases hx with rfl | hx | ⟨isUpdate, b, u, tok, hg⟩ | ⟨b, i, mask, hg⟩
  · exact hP.harmless_initial hhonest.allowed.user
  · exact hP.harmless_initial (hhonest.allowed.ids x hx)
  · have hok := hQ.got t ht hg
    exact hok.owner
  · exact hQ.listed t ht hg

/-- A key that a client has loaded. -/
theorem AllHarmless.keyIn (hQ : E.AllHarmless A P Q) (ht : t ∈ Q.threads) {h : Hist}
    (hs : h <:+ t.hist) {u : User} (hk : E.KeyOf h isUpdate u b k) :
    KeyIn P isUpdate b k ∧ k ≠ [] := by
  obtain ⟨x, hx, ho⟩ := hk
  have hok := hQ.got t ht (hx.mono hs)
  exact hok.keyIn ho

/-- Who has loaded a read key of the block is not corrupted. -/
theorem AllHarmless.trusted (hQ : E.AllHarmless A P Q) (ht : t ∈ Q.threads) {h : Hist}
    (hs : h <:+ t.hist) {u : User} (hk : E.KeyOf h false u A.block k) : u.id ∉ A.corrupt := by
  obtain ⟨x, hx, -⟩ := hk
  have hok := hQ.got t ht (hx.mono hs)
  exact (hok.trusted rfl rfl).1

/-- A key for a token of the block is a read key. -/
theorem readKey_of_keyIn (hk : KeyIn P false A.block k) : k ∈ E.Secret A P := by
  obtain ⟨t', ht', hd, hfor⟩ := hk
  exact Or.inr (Or.inl ⟨t', ht', hd, Or.inl hfor⟩)

section Fixed

variable (hP : E.Fair rands A P) (hQ : E.AllHarmless A P Q) (hext : Extends Q P)
  (ht : t ∈ Q.threads) (hhonest : E.Honest A.Allows t)
include hP hQ ht hhonest

/-- A block that a call has created has a harmless id. -/
theorem harmless_created {id : Option Bytes} {blk d mt mt' mac : Bytes}
    (hop : t.call.op = .createBlock id d mt') (hc : Created t.hist b blk mt mac id) :
    E.Harmless A P b := by
  cases id with
  | none =>
    have hin : b ∈ dataTold ⟨.ds (.createBlock blk mt mac), .ok b⟩ := List.mem_cons_self
    exact hQ.told t ht _ hc b hin
  | some id =>
    refine hP.harmless_initial (hhonest.allowed.ids b ?_)
    rw [hop, ← hc.1]
    exact List.mem_cons_self

/-- **What a client has loaded is harmless, or it is from the block**: a secret in a cell that
opens was sealed under a read key. And what it has loaded from the block was written there. -/
theorem harmless_loaded {h : Hist} {d mt : Bytes} (hs : h <:+ t.hist)
    (hl : E.Loaded h t.call.user b k d mt) :
    E.Harmless A P mt ∧ (E.Harmless A P d ∨ (b = A.block ∧ d ∈ E.Secret A P)) ∧
      (b = A.block → Written P A.block d mt) := by
  obtain ⟨hk, x, hr, hd⟩ := hl
  have hr := hr.mono hs
  have hin : x ∈ dataTold ⟨.ds (.readBlock b), .ok (x, mt)⟩ ∧
      mt ∈ dataTold ⟨.ds (.readBlock b), .ok (x, mt)⟩ :=
    ⟨List.mem_cons_self, List.mem_cons_of_mem _ List.mem_cons_self⟩
  refine ⟨hQ.told t ht _ hr mt hin.2, ?_⟩
  obtain ⟨-, -, hsound, -⟩ := hhonest.accounts.1.of_mem (hd.mono hs)
  obtain rfl : x = E.themis.encryptSeal k mt d := hsound
  have hx : E.Harmless A P (E.messages.cell k mt d) := hQ.told t ht _ hr _ hin.1
  have hkeyIn := (hQ.keyIn ht hs hk).1
  constructor
  · refine hx.of_cell.imp_right fun ⟨hkey, hsecret⟩ => ⟨?_, hsecret⟩
    exact (hkeyIn.eq_of_readKey hP.fresh hP.honest (hP.readKey hkeyIn.drawn hkey)).2
  · rintro rfl
    exact hP.written hkeyIn (hx.genuine (readKey_of_keyIn hkeyIn))

include hext

/-- **A token that is saved is as it should be**, and so are the ids it is saved under. -/
theorem tokenOk_of_saves {u o tok : Bytes} (hs : E.Saves t.call t.hist isUpdate b u o tok) :
    E.TokenOk A P isUpdate b u (tok, o) ∧ E.Harmless A P b := by
  have hreg := hhonest.registered
  have hself : E.Harmless A P t.call.user.id := hP.harmless_initial hhonest.allowed.user
  -- the keys a call has drawn are for the block it has created, or rotates
  have hdrawn : ∀ {k kw}, Drew t.hist 0 k → Drew t.hist 1 kw → KeysFor b t →
      KeyIn P isUpdate b (keyFor isUpdate k kw) := by
    intro k kw hk hkw hfor
    cases isUpdate with
    | false =>
      have hread : ReadKeyOf Q b k := ⟨t, ht, hk, hfor⟩
      exact hread.mono hext
    | true =>
      obtain ⟨t', ht', -, hsuf⟩ := hext t ht
      exact ⟨t', ht', hkw.mono hsuf⟩
  rcases hs.cases with ⟨id, d, mt, hop, rfl, rfl, -, k, kw, blk, mac, sk, hcr,
    -, hk, hkw, hsk, rfl⟩ |
    ⟨d, mt, hop, rfl, hg, -⟩ | ⟨hop, rfl, ⟨x, hx⟩, k, kw, d, blk, mt, mac, old, sk, pk, hup, -, hk,
    hkw, hsk, hpk, hne, rfl⟩ | ⟨hop, rfl, k, sk, pk, hk, hsk, hpk, hne, rfl⟩
  · refine ⟨⟨⟨_, tokenFor_wrap hreg hsk hreg.pk_eq t.call.user.pk_ne_nil
      (keyFor_ne_nil hk.ne_nil hkw.ne_nil), hdrawn hk hkw (Or.inl ⟨id, d, mt, blk, mac, hop, hcr⟩)⟩,
      hself, hself, fun _ hb => ?_⟩, harmless_created hP hQ ht hhonest hop hcr⟩
    have huser : t.call.user.id ∉ A.corrupt := by
      refine hhonest.allowed.creator hop ?_
      cases id with
      | none => exact Or.inl rfl
      | some id => exact Or.inr (by rw [hcr.1, hb])
    exact ⟨huser, huser⟩
  · have hid : b ∈ t.call.op.ids := by rw [hop]; exact List.mem_cons_self
    exact ⟨hQ.got t ht hg, hP.harmless_initial (hhonest.allowed.ids b hid)⟩
  · have hid : b ∈ t.call.op.ids := by rw [hop]; exact List.mem_cons_self
    have hold := hQ.got t ht hx
    refine ⟨⟨⟨_, tokenFor_wrap hreg hsk hpk hne (keyFor_ne_nil hk.ne_nil hkw.ne_nil),
      hdrawn hk hkw (Or.inr hop)⟩, hold.user, hself, fun hkind hb => ⟨?_, ?_⟩⟩,
      hP.harmless_initial (hhonest.allowed.ids b hid)⟩
    · exact (hold.trusted hkind hb).1
    · -- a rotation has loaded the block before it replaces it
      obtain ⟨h', hsuf, -, hJ⟩ := hhonest.accounts.1.of_mem hup
      obtain ⟨⟨k', kw', d', mt', hl, -⟩, -⟩ : E.Updates t.call h' b blk mt mac old := hJ
      subst hb
      exact hQ.trusted ht hsuf hl.1
  · have hids : b ∈ t.call.op.ids ∧ u ∈ t.call.op.ids := by
      rw [hop]
      cases isUpdate <;>
      exact ⟨List.mem_cons_self, List.mem_cons_of_mem _ List.mem_cons_self⟩
    obtain ⟨hkey, hk0⟩ := hQ.keyIn ht (List.suffix_refl _) hk
    refine ⟨⟨⟨k, tokenFor_wrap hreg hsk hpk hne hk0, hkey⟩,
      hP.harmless_initial (hhonest.allowed.ids u hids.2), hself, fun hkind hb => ?_⟩,
      hP.harmless_initial (hhonest.allowed.ids b hids.1)⟩
    subst hkind hb
    exact ⟨hhonest.allowed.reader hop, hQ.trusted ht (List.suffix_refl _) hk⟩

omit hQ in
/-- **A cell that creates a block is harmless**: secret data is sealed under a read key. -/
theorem harmless_creates {id : Option Bytes} {blk mt mac : Bytes}
    (hc : E.Creates t.call t.hist id blk mt mac) :
    E.Harmless A P blk ∧ E.Harmless A P mt ∧ E.Harmless A P mac := by
  obtain ⟨d, -, hop, -, k, kw, ⟨rfl, rfl⟩, hk, -⟩ := hc
  have hcontent : t.call.op.content = some (d, mt) := by rw [hop]; rfl
  obtain ⟨t', ht', hcall, hsuf⟩ := hext t ht
  refine ⟨hP.harmless_cell ?_ fun _ => ?_,
    hP.harmless_initial (hhonest.allowed.metadata hcontent), hP.harmless_mac _ _⟩
  · rcases hhonest.allowed.data hcontent with hd | ⟨hd, hid⟩
    · exact Or.inl (hP.harmless_initial hd)
    · have hop' : t'.call.op = .createBlock (some A.block) d mt := by
        rw [hcall, hop]
        rw [hop] at hid
        obtain rfl : id = some A.block := hid
        rfl
      exact Or.inr ⟨Or.inr (Or.inl ⟨t', ht', hk.mono hsuf, Or.inr ⟨d, mt, hop'⟩⟩),
        Or.inr (Or.inr hd)⟩
  · exact ⟨k, d, mt, rfl, Or.inr ⟨t', ht', ⟨id, by rw [hcall, hop]⟩, hk.mono hsuf⟩⟩

/-- **A cell that replaces a block is harmless.** -/
theorem harmless_updates {blk mt mac old : Bytes} (hu : E.Updates t.call t.hist b blk mt mac old) :
    E.Harmless A P b ∧ E.Harmless A P blk ∧ E.Harmless A P mt ∧ E.Harmless A P mac ∧
      E.Harmless A P old := by
  have hold : E.Harmless A P old := by
    obtain ⟨k, kw, d, mt', -, -, rfl⟩ := hu.1
    exact hP.harmless_mac _ _
  have hid : b ∈ t.call.op.ids → E.Harmless A P b := fun hb =>
    hP.harmless_initial (hhonest.allowed.ids b hb)
  obtain ⟨t', ht', hcall, hsuf⟩ := hext t ht
  rcases hu.cases with ⟨d, hop, -, k, kw, hk, hkw, ⟨rfl, rfl⟩⟩ |
    ⟨hop, k₀, d, k, kw, hl, hk, -, ⟨rfl, rfl⟩⟩
  · have hcontent : t.call.op.content = some (d, mt) := by rw [hop]; rfl
    have hkey := (hQ.keyIn ht (List.suffix_refl _) hk).1
    refine ⟨hid (by rw [hop]; exact List.mem_cons_self), hP.harmless_cell ?_ fun hs => ?_,
      hP.harmless_initial (hhonest.allowed.metadata hcontent), hP.harmless_mac _ _, hold⟩
    · rcases hhonest.allowed.data hcontent with hd | ⟨hd, hblock⟩
      · exact Or.inl (hP.harmless_initial hd)
      · rw [hop] at hblock
        obtain rfl : b = A.block := Option.some.inj hblock
        exact Or.inr ⟨readKey_of_keyIn hkey, Or.inr (Or.inr hd)⟩
    · obtain rfl :=
        (hkey.eq_of_readKey hP.fresh hP.honest (hP.readKey hkey.drawn hs)).2
      obtain ⟨x, hx, -⟩ := hkw
      exact ⟨k, d, mt, rfl, Or.inl ⟨t', ht', Or.inr ⟨by rw [hcall, hop],
        x, by rw [hcall]; exact hx.mono hsuf⟩⟩⟩
  · obtain ⟨hmt, hd, hwritten⟩ := harmless_loaded hP hQ ht hhonest (List.suffix_refl _) hl
    have hkey : KeyIn P false b k := ReadKeyOf.mono ⟨t, ht, hk, Or.inr hop⟩ hext
    refine ⟨hid (by rw [hop]; exact List.mem_cons_self), hP.harmless_cell ?_ fun hs => ?_, hmt,
      hP.harmless_mac _ _, hold⟩
    · rcases hd with hd | ⟨rfl, hd⟩
      · exact Or.inl hd
      · exact Or.inr ⟨readKey_of_keyIn hkey, hd⟩
    · obtain rfl :=
        (hkey.eq_of_readKey hP.fresh hP.honest (hP.readKey hkey.drawn hs)).2
      exact ⟨k, d, mt, rfl, Or.inl (hwritten rfl)⟩

/-- **Every request is harmless.** -/
theorem harmless_sent {r : Req} (hJ : E.Justified t.call t.hist r) (hN : Names t.call t.hist r) :
    ∀ x ∈ r.sent, E.Harmless A P x := by
  -- what a request names the call was given or was answered
  have hname : ∀ x ∈ r.named, E.Harmless A P x := fun x hx => hQ.nameable hP ht hhonest (hN x hx)
  have hsave : ∀ {isUpdate b u o tok}, E.Saves t.call t.hist isUpdate b u o tok →
      ∀ x ∈ [b, u, o, tok], E.Harmless A P x := by
    intro isUpdate b u o tok hs
    obtain ⟨hok, hb⟩ := tokenOk_of_saves hP hQ hext ht hhonest hs
    simp only [List.forall_mem_cons, List.not_mem_nil, false_imp_iff, implies_true, and_true]
    exact ⟨hb, hok.user, hok.owner, hok.harmless hP⟩
  match r with
  | .ks (.setRtoken b u o tok) => exact hsave hJ
  | .ks (.setWtoken b u o tok) => exact hsave hJ
  | .ks (.getRtoken b u) => exact hname
  | .ks (.getWtoken b u) => exact hname
  | .ks (.delRtoken b u o) => exact hname
  | .ks (.delWtoken b u o) => exact hname
  | .ks (.getIndexedRights b i) => exact hname
  | .ds (.createBlock blk mt mac) =>
    obtain ⟨hblk, hmt, hmac⟩ := harmless_creates hP hext ht hhonest hJ
    simp only [Req.sent, List.forall_mem_cons, List.not_mem_nil, false_imp_iff, implies_true,
      and_true]
    exact ⟨hblk, hmt, hmac⟩
  | .ds (.createBlockWithId id blk mt mac) =>
    obtain ⟨hblk, hmt, hmac⟩ := harmless_creates hP hext ht hhonest hJ
    obtain ⟨d, -, hop, -⟩ : E.Creates t.call t.hist (some id) blk mt mac := hJ
    have hid : id ∈ t.call.op.ids := by rw [hop]; exact List.mem_cons_self
    simp only [Req.sent, List.forall_mem_cons, List.not_mem_nil, false_imp_iff, implies_true,
      and_true]
    exact ⟨hP.harmless_initial (hhonest.allowed.ids id hid), hblk, hmt, hmac⟩
  | .ds (.readBlock b) => exact hname
  | .ds (.updateBlock b blk mt mac old) =>
    obtain ⟨hb, hblk, hmt, hmac, hold⟩ := harmless_updates hP hQ hext ht hhonest hJ
    simp only [Req.sent, List.forall_mem_cons, List.not_mem_nil, false_imp_iff, implies_true,
      and_true]
    exact ⟨hb, hblk, hmt, hmac, hold⟩
  | .ds (.deleteBlock b old) =>
    obtain ⟨-, k, kw, d, mt, -, -, rfl⟩ : _ ∧ E.LoadedMac t.hist t.call.user b old := hJ
    simp only [Req.sent, List.forall_mem_cons, List.not_mem_nil, false_imp_iff, implies_true,
      and_true]
    exact ⟨hname b List.mem_cons_self, hP.harmless_mac _ _⟩
  | .getPubKeyById id => exact hname
  | .themis _ => exact fun x hx => by cases hx

end Fixed

/-! ### Runs -/

theorem allHarmless_empty : E.AllHarmless A P ⟨World.empty rands, []⟩ where
  sent t ht := by simp at ht
  told t ht := by simp at ht
  token {isUpdate b u x} hx := by cases isUpdate <;> cases hx
  got t ht := by simp at ht
  listed t ht := by simp at ht

theorem AllHarmless.spawn (hQ : E.AllHarmless A P Q) (c : Call) (p : Client Result) :
    E.AllHarmless A P (Q.spawn c p) where
  sent t ht := by
    rcases System.mem_spawn.mp ht with ht | rfl
    · exact hQ.sent t ht
    · exact fun e he => by simp at he
  told t ht := by
    rcases System.mem_spawn.mp ht with ht | rfl
    · exact hQ.told t ht
    · exact fun e he => by simp at he
  token := hQ.token
  got t ht {isUpdate b u x} hx := by
    rcases System.mem_spawn.mp ht with ht | rfl
    · exact hQ.got t ht hx
    · exact (not_gotToken_nil hx).elim
  listed t ht {b i u mask} hg := by
    rcases System.mem_spawn.mp ht with ht | rfl
    · exact hQ.listed t ht hg
    · exact (not_got_nil hg).elim

/-- The tokens after an answer are those there were, and the one that was saved. -/
theorem token_of_hostileAnswer {w w' : World} {r : Req} {a : r.Answer} {u : Bytes}
    {x : Bytes × Bytes} (h : E.HostileAnswer w r a w')
    (hx : (w'.slice b).token isUpdate u = some x) :
    (w.slice b).token isUpdate u = some x ∨ r = Req.setToken isUpdate b u x.2 x.1 := by
  rcases h.cases with ⟨hw, -⟩ | ⟨-, rfl⟩
  · refine Or.inl ?_
    have hentry : ∀ u, (w'.slice b).entry u = (w.slice b).entry u := fun u => congrFun₂ hw b u
    simpa [Slice.token, hentry] using hx
  · exact token_handle hx

/-- A token the key store gives is one it has. -/
theorem token_of_got_hostile {w w' : World} {h : Hist} {r : Req} {a : r.Answer} {u : Bytes}
    {x : Bytes × Bytes} (ha : E.HostileAnswer w r a w')
    (hx : GotToken (⟨r, a⟩ :: h) isUpdate b u x) :
    GotToken h isUpdate b u x ∨ (w.slice b).token isUpdate u = some x := by
  rcases ha.cases with ⟨-, r', rfl⟩ | ⟨rfl, -⟩
  · refine Or.inl ?_
    cases isUpdate with
    | false => exact (List.mem_cons.mp hx).resolve_left fun heq => by cases congrArg Sigma.fst heq
    | true => exact (List.mem_cons.mp hx).resolve_left fun heq => by cases congrArg Sigma.fst heq
  · rcases token_of_got hx with hold | ⟨rfl, e, he, rfl⟩ | ⟨rfl, hw⟩
    · exact Or.inl hold
    · exact Or.inr (Option.map_eq_some_iff.mpr ⟨e, he, rfl⟩)
    · have hwrite : (w.slice b).token true u = some x := hw
      exact Or.inr hwrite

/-- Whom the key store lists has a token. -/
theorem token_of_listed {w : World} {u : Bytes} {i : ℕ} {mask : UInt32}
    (h : (E.handle w (.ks (.getIndexedRights b i))).1 = .ok (u, mask)) :
    ∃ x, (w.slice b).token false u = some x := by
  by_cases hb : b = []
  · subst hb
    cases h
  · rw [answer_getIndexedRights hb] at h
    cases hn : E.iteratorAt b (w.slice b) i with
    | none => rw [hn] at h; cases h
    | some it =>
      rw [hn] at h
      cases h
      have huser := List.mem_of_getElem? (iteratorAt_eq_some hn).2.2
      obtain ⟨e, he⟩ := Option.ne_none_iff_exists'.mp (mem_userIds.mp huser)
      exact ⟨_, Option.map_eq_some_iff.mpr ⟨e, he, rfl⟩⟩

/-- **The step lemma.** -/
theorem AllHarmless.answered (hQ : E.AllHarmless A P Q) (hP : E.Fair rands A P) {i : ℕ}
    {c : Call} {h : Hist} {r : Req} {k : r.Answer → Client Result} {a : r.Answer} {w : World}
    (hext : Extends (Q.answered i ⟨c, ⟨r, a⟩ :: h, k a⟩ w) P)
    (hi : Q.threads[i]? = some ⟨c, h, .req r k⟩) (hhonest : E.Honest A.Allows ⟨c, h, .req r k⟩)
    (hN : Names c h r) (ha : (E.watched A.initial A.Allows).answer Q r a w) :
    E.AllHarmless A P (Q.answered i ⟨c, ⟨r, a⟩ :: h, k a⟩ w) := by
  have hmem := List.mem_of_getElem? hi
  have hext' : Extends Q P := Extends.trans (extends_of_step (S := E.watched A.initial A.Allows)
    (.request hi ha)) hext
  -- only the thread that moves is new, and the entry that it may have set
  refine ⟨fun t ht e he => ?_, fun t ht e he => ?_, fun {isUpdate b u x} hx => ?_,
    fun t ht {isUpdate b u x} hx => ?_, fun t ht {b n u mask} hg => ?_⟩
  · rcases System.mem_answered ht with rfl | ht
    · rcases List.mem_cons.mp he with rfl | he
      · exact harmless_sent hP hQ hext' hmem hhonest hhonest.justified hN
      · exact hQ.sent _ hmem e he
    · exact hQ.sent t ht e he
  · rcases System.mem_answered ht with rfl | ht
    · rcases List.mem_cons.mp he with rfl | he
      · exact fun x hx => hP.harmless_of_derives hQ.sent (ha.2 x hx)
      · exact hQ.told _ hmem e he
    · exact hQ.told t ht e he
  · rcases token_of_hostileAnswer ha.1 hx with hx | rfl
    · exact hQ.token hx
    · have hs := justified_setToken.mp hhonest.justified
      exact (tokenOk_of_saves hP hQ hext' hmem hhonest hs).1
  · rcases System.mem_answered ht with rfl | ht
    · rcases token_of_got_hostile ha.1 hx with hx | hx
      · exact hQ.got _ hmem hx
      · exact hQ.token hx
    · exact hQ.got t ht hx
  · rcases System.mem_answered ht with rfl | ht
    · rcases List.mem_cons.mp hg with heq | hg
      · obtain rfl := congrArg Sigma.fst heq
        obtain rfl := eq_of_heq (Sigma.mk.inj heq).2
        obtain ⟨x, hx⟩ := token_of_listed (congrArg Prod.fst ha.1).symm
        exact (hQ.token hx).user
      · exact hQ.listed _ hmem hg
    · exact hQ.listed t ht hg

/-- What is left of the calls of a run names only what may be named. -/
theorem names_threads (hrun : (E.hostile allowed).Runs ⟨World.empty rands, []⟩ Q) :
    ∀ t ∈ Q.threads, E.NamesIn t.call t.prog t.hist fun _ _ => True := by
  refine hrun.threads (T := fun t => E.NamesIn t.call t.prog t.hist fun _ _ => True) ?_ ?_
    fun t ht => by simp at ht
  · rintro c p ⟨-, fuel, rfl⟩
    exact names_prog c fuel
  · intro P c h r k a w ha ht
    have hsound : E.Sound ⟨r, a⟩ := hostile_sound P r a w ha
    exact ht.2 a hsound

theorem honest_of_hostile (hrun : (E.hostile allowed).Runs ⟨World.empty rands, []⟩ Q) :
    ∀ t ∈ Q.threads, E.Honest allowed t :=
  honest_threads (fun _ _ h => h) hostile_sound hrun fun t ht => by simp at ht

/-- **Everything is harmless in every pool on the way**, seen from the end of a run. -/
theorem allHarmless_of_runs (hP : E.Fair rands A P)
    (hrun : (E.watched A.initial A.Allows).Runs ⟨World.empty rands, []⟩ Q) (hext : Extends Q P) :
    E.AllHarmless A P Q := by
  induction hrun with
  | refl => exact allHarmless_empty
  | @tail Q Q' hrun hs ih =>
    have hQ := ih (Extends.trans (extends_of_step hs) hext)
    have hhostile := hostile_of_watched hrun
    cases hs with
    | start _ => exact hQ.spawn _ _
    | @request i c h r k a w hi ha =>
      have hmem := List.mem_of_getElem? hi
      have hhonest := honest_of_hostile hhostile _ hmem
      have hN := (names_threads hhostile _ hmem).1 hhonest.justified
      exact hQ.answered hP hext hi hhonest hN ha

end Requests

/-- **Confidentiality.** An attacker reads all requests to all stores, answers for the data store,
and has corrupted some users. If none of them creates the block, and none is let read it, then
at no time it can derive what was written to the block as secret data, nor a read key of the
block, nor the private key of a user it has not corrupted. -/
theorem confidential {A : Attack} {rands : ℕ → HmToken} {P : Clients} (hA : E.Separates rands A)
    (hrun : (E.watched A.initial A.Allows).Runs ⟨World.empty rands, []⟩ P) (hfresh : FreshKeys P)
    {x : Bytes} (hx : x ∈ E.Secret A P) : ¬E.messages.Derives (Overheard A.initial P) x := by
  have hhostile := hostile_of_watched hrun
  have hP : E.Fair rands A P :=
    ⟨hA, hfresh, honest_of_hostile hhostile, (rands_of_runs hhostile).2⟩
  have hall := allHarmless_of_runs hP hrun fun t ht => ⟨t, ht, rfl, List.suffix_refl _⟩
  exact fun hderives => (hP.harmless_of_derives hall.sent hderives).not_secret hx

/-! ### The stores of an attacker -/

/-- What the stores hold that was sent to them: the cells and metas of the blocks, and the read
tokens. -/
def InStores (w : World) : Set Bytes :=
  {x | (∃ b s, w.stored b = some s ∧ (x = s.block ∨ x = s.metadata)) ∨
    ∃ b u e, w.entry b u = some e ∧ x = e.rtoken}

variable (E) in
/-- **An attacker as a program.** It answers for the data store from what the stores hold and from
what it knew from the beginning, and keeps in the data store only what it was sent. -/
structure Informed (I : Set Bytes) (H : World → (r : Req) → r.Answer × World) : Prop where
  hostile : ∀ w r, E.HostileAnswer w r (H w r).1 (H w r).2
  told : ∀ w r, ∀ x ∈ dataTold ⟨r, (H w r).1⟩, E.messages.Derives (I ∪ InStores w) x
  kept : ∀ w r b s, (H w r).2.stored b = some s →
    (∃ b', w.stored b' = some s) ∨ (s.block ∈ r.sent ∧ s.metadata ∈ r.sent)

variable (E) in
/-- Calls of registered users, on the stores of such a program. -/
def answering (H : World → (r : Req) → r.Answer × World) (allowed : Call → Prop) :
    System World Req Req.Answer Call Result where
  starts c p := (E.Registered c.user ∧ allowed c) ∧ ∃ fuel, p = c.prog fuel
  answer P r a w := (a, w) = H P.state r

variable {I : Set Bytes} {H : World → (r : Req) → r.Answer × World}

/-- After a request the stores hold what they held, and what was sent. -/
theorem Informed.inStores (hH : E.Informed I H) (w : World) (r : Req) :
    InStores (H w r).2 ⊆ InStores w ∪ {x | x ∈ r.sent} := by
  rintro x (⟨b, s, hs, hx⟩ | ⟨b, u, e, he, rfl⟩)
  · rcases hH.kept w r b s hs with ⟨b', hold⟩ | ⟨hblock, hmeta⟩
    · exact Or.inl (Or.inl ⟨b', s, hold, hx⟩)
    · rcases hx with rfl | rfl
      · exact Or.inr hblock
      · exact Or.inr hmeta
  · rcases (hH.hostile w r).cases with ⟨hsame, -⟩ | ⟨-, hw⟩
    · rw [hsame] at he
      exact Or.inl (Or.inr ⟨b, u, e, he, rfl⟩)
    · rw [hw] at he
      rcases entry_cases w r b u with heq | ⟨o, t, hr, -, -, heq⟩ | ⟨o, t, e', -, -, -, hold, heq⟩ |
        ⟨o, -, -, heq⟩ | ⟨o, e', -, -, hold, heq⟩ <;> rw [he] at heq
      · exact Or.inl (Or.inr ⟨b, u, e, heq.symm, rfl⟩)
      · cases heq
        obtain rfl := congrArg Sigma.fst hr
        exact Or.inr (by simp [Req.sent])
      · cases heq
        exact Or.inl (Or.inr ⟨b, u, e', hold, rfl⟩)
      · cases heq
      · cases heq
        exact Or.inl (Or.inr ⟨b, u, e', hold, rfl⟩)

/-- **The runs on the stores of such a program are runs of an attacker**: all it has read in the
stores it has seen on the way there. -/
theorem Informed.watched (hH : E.Informed I H) {rands : ℕ → HmToken} {P : Clients}
    (hrun : (E.answering H allowed).Runs ⟨World.empty rands, []⟩ P) :
    (E.watched I allowed).Runs ⟨World.empty rands, []⟩ P := by
  suffices h : (E.watched I allowed).Runs ⟨World.empty rands, []⟩ P ∧
      InStores P.state ⊆ Overheard I P from h.1
  refine hrun.invariant (I := fun P => (E.watched I allowed).Runs ⟨World.empty rands, []⟩ P ∧
    InStores P.state ⊆ Overheard I P) ⟨.refl, ?_⟩ ?_
  · rintro x (⟨b, s, hs, -⟩ | ⟨b, u, e, he, -⟩)
    · cases hs
    · cases he
  rintro P P' ⟨hruns, hin⟩ hs
  have hmono : Overheard I P ⊆ Overheard I P' := by
    rintro x (hx | ⟨t, ht, e, he, hx⟩)
    · exact Or.inl hx
    · obtain ⟨t', ht', -, hsuf⟩ := extends_of_step hs t ht
      exact Or.inr ⟨t', ht', e, hsuf.subset he, hx⟩
  cases hs with
  | start hc => exact ⟨hruns.tail (.start hc), hin.trans hmono⟩
  | @request i c h r k a w hi ha =>
    obtain ⟨rfl, rfl⟩ : a = (H P.state r).1 ∧ w = (H P.state r).2 :=
      ⟨congrArg Prod.fst ha, congrArg Prod.snd ha⟩
    have htold := fun x hx => (hH.told P.state r x hx).mono
      (Set.union_subset Set.subset_union_left hin)
    refine ⟨hruns.tail (.request hi ⟨hH.hostile _ r, htold⟩), fun x hx => ?_⟩
    rcases hH.inStores P.state r hx with hx | hx
    · exact hmono (hin hx)
    · exact Or.inr
        ⟨_, List.mem_of_getElem? (System.answered_getElem?_self hi), _, List.mem_cons_self, hx⟩

/-- What fault-free stores tell was told to them, up to the ids they make up. -/
theorem dataTold_handle {w : World} (hids : ∀ n ids, E.ids.pick n ids ∈ I) (r : Req) :
    ∀ x ∈ dataTold ⟨r, (E.handle w r).1⟩, x ∈ I ∪ InStores w := by
  match r with
  | .ks _ => exact fun x hx => by cases hx
  | .getPubKeyById _ => exact fun x hx => by cases hx
  | .themis _ => exact fun x hx => by cases hx
  | .ds (.createBlock blk mt mac) =>
    rw [handle_createBlock]
    split_ifs
    · exact fun x hx => by cases hx
    · intro x hx
      rw [List.mem_singleton.mp hx]
      exact Or.inl (hids _ _)
  | .ds (.readBlock b) =>
    cases ha : (E.handle w (.ds (.readBlock b))).1 with
    | error _ => exact fun x hx => by cases hx
    | ok y =>
      obtain ⟨s, hs, rfl⟩ := readBlock_ok ha
      simp only [dataTold, List.forall_mem_cons, List.not_mem_nil, false_imp_iff, implies_true,
        and_true]
      exact ⟨Or.inr (Or.inl ⟨b, s, hs, Or.inl rfl⟩), Or.inr (Or.inl ⟨b, s, hs, Or.inr rfl⟩)⟩
  | .ds (.createBlockWithId ..) => exact fun x hx => by cases hx
  | .ds (.updateBlock ..) => exact fun x hx => by cases hx
  | .ds (.deleteBlock ..) => exact fun x hx => by cases hx

/-- **An attacker may do what fault-free stores do**, if the ids they make up are known. -/
theorem informed_handle (hids : ∀ n ids, E.ids.pick n ids ∈ I) : E.Informed I E.handle where
  hostile := hostileAnswer_handle
  told w r x hx := .known (dataTold_handle hids r x hx)
  kept w r b s hs := by
    rcases stored_cases w r b with heq | ⟨blk, mt, mac, hr, -, -, heq⟩ |
      ⟨blk, mt, mac, old, s', hr, -, -, -, heq⟩ | ⟨old, s', -, -, -, heq⟩ <;> rw [hs] at heq
    · exact Or.inl ⟨b, heq.symm⟩
    · cases heq
      rcases hr with hr | hr <;>
      · obtain rfl := congrArg Sigma.fst hr
        exact Or.inr ⟨by simp [Req.sent], by simp [Req.sent]⟩
    · cases heq
      obtain rfl := congrArg Sigma.fst hr
      exact Or.inr ⟨by simp [Req.sent], by simp [Req.sent]⟩
    · cases heq

/-- It may forget what it was sent, too. -/
theorem informed_forgetful (hids : ∀ n ids, E.ids.pick n ids ∈ I) :
    E.Informed I E.forgetful where
  hostile := hostileAnswer_forgetful
  told w r := by
    rcases forgetful_cases (E := E) w r with heq | ⟨b, blk, mt, mac, old, rfl⟩
    · rw [heq]
      exact (informed_handle hids).told w r
    · exact fun x hx => by cases hx
  kept w r := by
    rcases forgetful_cases (E := E) w r with heq | ⟨b, blk, mt, mac, old, rfl⟩
    · rw [heq]
      exact (informed_handle hids).kept w r
    · exact fun b s hs => Or.inl ⟨b, hs⟩

end Env

/-! ### A run -/

/-- Cryptography as in `Hermes.idealThemis`, with a tag for what a message is. -/
def taggedThemis : Themis where
  pub := idealThemis.pub
  encryptSeal k c m := 2 :: idealThemis.encryptSeal k c m
  decryptSeal k c x := if x.head? = some 2 then idealThemis.decryptSeal k c x.tail else none
  wrap a p m := 3 :: idealThemis.wrap a p m
  unwrap b p x := if x.head? = some 3 then idealThemis.unwrap b p x.tail else none
  unwrapSize b p x := idealThemis.unwrapSize b p x.tail
  hmac k xs := 4 :: idealThemis.hmac k xs
  pub_inj := idealThemis.pub_inj
  pub_ne_nil := idealThemis.pub_ne_nil
  decryptSeal_encryptSeal k c m := idealThemis.decryptSeal_encryptSeal k c m
  encryptSeal_of_decryptSeal {k c x m} h := by
    split_ifs at h with hx
    obtain ⟨y, rfl⟩ := List.head?_eq_some_iff.mp hx
    exact congrArg _ (idealThemis.encryptSeal_of_decryptSeal h)
  encryptSeal_inj h := idealThemis.encryptSeal_inj (List.cons.inj h).2
  encryptSeal_ne_nil k c m := List.cons_ne_nil _ _
  unwrap_wrap a b m := idealThemis.unwrap_wrap a b m
  wrap_of_unwrap {b p x m} h := by
    split_ifs at h with hx
    obtain ⟨y, rfl⟩ := List.head?_eq_some_iff.mp hx
    obtain ⟨a, hp, hy⟩ := idealThemis.wrap_of_unwrap h
    exact ⟨a, hp, congrArg _ hy⟩
  wrap_inj h := idealThemis.wrap_inj (List.cons.inj h).2
  wrap_ne_nil a p m := List.cons_ne_nil _ _
  unwrapSize_of_unwrap {b p x m} h := by
    split_ifs at h
    exact idealThemis.unwrapSize_of_unwrap h
  hmac_inj h := idealThemis.hmac_inj (List.cons.inj h).2
  hmac_ne_nil k xs := List.cons_ne_nil _ _

/-- An environment in which the private key of a user is not its id. -/
def taggedEnv : Env where
  themis := taggedThemis
  enumerate := id
  enumerate_perm := List.Perm.refl
  ids := longerIds
  credentials id := some (taggedThemis.pub (200 :: id))

/-- The user of an id. -/
def taggedUser (id : Bytes) (h : id ≠ []) : User :=
  ⟨id, taggedThemis.pub (200 :: id), some (200 :: id), h, taggedThemis.pub_ne_nil (200 :: id)⟩

theorem registered_taggedUser (id : Bytes) (h : id ≠ []) :
    taggedEnv.Registered (taggedUser id h) :=
  ⟨rfl, 200 :: id, List.cons_ne_nil _ _, rfl, rfl⟩

/-- Random values with a tag. -/
def taggedRands (n : ℕ) : HmToken :=
  ⟨255 :: List.replicate (hmTokenLen - 1) (UInt8.ofNat n), by simp [hmTokenLen]⟩

/-- The attacker has corrupted the user `[13]`, and wants the data `[100, 1]` of the block `[9]`. It
knows everything but cells, wrappings, secrets and keys. -/
def demoAttack : Attack where
  corrupt := {[13]}
  initial := {x | (x.head? ≠ some 2 ∧ x.head? ≠ some 3 ∧ x.head? ≠ some 100 ∧ x.head? ≠ some 255) ∧
    ∀ id, id ≠ [13] → x ≠ 200 :: id}
  block := [9]
  data := {[100, 1]}

/-- A message with a head that no operation makes. -/
theorem atom_of_head {a : UInt8} {x : Bytes} (ha : a ≠ 0 ∧ a ≠ 2 ∧ a ≠ 3 ∧ a ≠ 4) :
    taggedEnv.messages.Atom (a :: x) where
  ne_pub _ heq := ha.1 (List.cons.inj heq).1
  ne_cell _ _ _ heq := ha.2.1 (List.cons.inj heq).1
  ne_wrap _ _ _ heq := ha.2.2.1 (List.cons.inj heq).1
  ne_mac _ _ heq := ha.2.2.2 (List.cons.inj heq).1

theorem free_taggedEnv : taggedEnv.messages.Free where
  pub_inj h := taggedThemis.pub_inj h
  cell_inj h := (taggedThemis.encryptSeal_inj h).imp_right And.right
  wrap_inj h := taggedThemis.wrap_inj h
  cell_ne_wrap _ _ _ _ _ _ h := absurd (List.cons.inj h).1 (by decide)
  pub_ne_cell _ _ _ _ h := absurd (List.cons.inj h).1 (by decide)
  pub_ne_wrap _ _ _ _ h := absurd (List.cons.inj h).1 (by decide)
  mac_ne_cell _ _ _ _ _ h := absurd (List.cons.inj h).1 (by decide)
  mac_ne_wrap _ _ _ _ _ h := absurd (List.cons.inj h).1 (by decide)

/-- The private keys that are not corrupted. -/
theorem privateKey_taggedEnv {sk : Bytes} :
    taggedEnv.PrivateKey demoAttack sk ↔ ∃ id, id ≠ [13] ∧ sk = 200 :: id := by
  refine exists_congr fun id => and_congr Iff.rfl ⟨fun h => ?_, fun h => ?_⟩
  · exact (taggedThemis.pub_inj (Option.some.inj h)).symm
  · rw [h]
    rfl

theorem separates_demoAttack : taggedEnv.Separates taggedRands demoAttack where
  free := free_taggedEnv
  credentials h := ⟨_, (Option.some.inj h).symm⟩
  initial_ne_cell _ hx _ _ _ heq := hx.1.1 (by rw [heq]; rfl)
  initial_ne_wrap _ hx _ _ _ heq := hx.1.2.1 (by rw [heq]; rfl)
  privateKey h := by
    obtain ⟨id, hid, rfl⟩ := privateKey_taggedEnv.mp h
    exact ⟨atom_of_head (by decide), fun hx => hx.2 id hid rfl⟩
  data h := by
    rw [Set.mem_singleton_iff.mp h]
    exact ⟨atom_of_head (by decide), fun hx => hx.1.2.2.1 rfl⟩
  rand n := by
    refine ⟨atom_of_head (by decide), fun hx => hx.1.2.2.2 rfl, fun h => ?_, fun h => ?_⟩
    · exact absurd (List.cons.inj (Set.mem_singleton_iff.mp h)).1 (by decide)
    · obtain ⟨id, -, heq⟩ := privateKey_taggedEnv.mp h
      exact absurd (List.cons.inj heq).1 (by decide)

/-- A user who owns the block. -/
def owner : User := taggedUser [11] (List.cons_ne_nil _ _)

/-- A user who is let read it. -/
def reader : User := taggedUser [12] (List.cons_ne_nil _ _)

/-- A user who is corrupted. -/
def spy : User := taggedUser [13] (List.cons_ne_nil _ _)

/-- A message that is known from the beginning. -/
theorem initial_of_head {a : UInt8} {x : Bytes}
    (ha : a ≠ 2 ∧ a ≠ 3 ∧ a ≠ 100 ∧ a ≠ 200 ∧ a ≠ 255) : a :: x ∈ demoAttack.initial := by
  obtain ⟨h2, h3, h100, h200, h255⟩ := ha
  refine ⟨⟨?_, ?_, ?_, ?_⟩, fun id _ heq => h200 (List.cons.inj heq).1⟩
  · exact fun h => h2 (Option.some.inj h)
  · exact fun h => h3 (Option.some.inj h)
  · exact fun h => h100 (Option.some.inj h)
  · exact fun h => h255 (Option.some.inj h)

theorem pick_mem_initial (n : ℕ) (ids : List Bytes) :
    taggedEnv.ids.pick n ids ∈ demoAttack.initial := by
  show longerId ids ∈ _
  rw [longerId, List.replicate_succ]
  exact initial_of_head (by decide)

/-- A creation under an id that is given. -/
theorem allows_createBlock {A : Attack} {u : User} {b d mt : Bytes} (hu : u.id ∈ A.initial)
    (hb : b ∈ A.initial) (hmt : mt ∈ A.initial)
    (hd : d ∈ A.initial ∨ (d ∈ A.data ∧ b = A.block)) (hc : b = A.block → u.id ∉ A.corrupt) :
    A.Allows ⟨u, .createBlock (some b) d mt⟩ where
  user := hu
  ids x hx := by
    rw [List.mem_singleton.mp hx]
    exact hb
  metadata h := by
    cases h
    exact hmt
  data h := by
    cases h
    exact hd.imp_right fun hd => ⟨hd.1, congrArg some hd.2⟩
  creator h hid := by
    cases h
    exact hc (Option.some.inj (hid.resolve_left (Option.some_ne_none b)))
  reader h := by cases h

/-- An update. -/
theorem allows_updateBlock {A : Attack} {u : User} {b d mt : Bytes} (hu : u.id ∈ A.initial)
    (hb : b ∈ A.initial) (hmt : mt ∈ A.initial)
    (hd : d ∈ A.initial ∨ (d ∈ A.data ∧ b = A.block)) : A.Allows ⟨u, .updateBlock b d mt⟩ where
  user := hu
  ids x hx := by
    rw [List.mem_singleton.mp hx]
    exact hb
  metadata h := by
    cases h
    exact hmt
  data h := by
    cases h
    exact hd.imp_right fun hd => ⟨hd.1, congrArg some hd.2⟩
  creator h := by cases h
  reader h := by cases h

/-- A call that writes nothing. -/
theorem allows_of_content {A : Attack} {c : Call} (hu : c.user.id ∈ A.initial)
    (hids : ∀ x ∈ c.op.ids, x ∈ A.initial) (hop : c.op.content = none)
    (hr : ∀ v, c.op = .grantReadAccess A.block v → v ∉ A.corrupt) : A.Allows c where
  user := hu
  ids := hids
  metadata h := by
    rw [hop] at h
    cases h
  data h := by
    rw [hop] at h
    cases h
  creator h := by
    rw [h] at hop
    cases hop
  reader h := hr _ h

/-- The key of a block, if the corrupted user has been given a token of it. -/
def leakedKey (w : World) (b : Bytes) : Option Bytes := do
  let e ← w.entry b [13]
  let pk ← taggedEnv.credentials e.rtokenOwner
  taggedThemis.unwrap (200 :: [13]) pk e.rtoken

/-- The attacker has the private key that opens this token. -/
theorem derives_leakedKey {w : World} {b k : Bytes} (hk : leakedKey w b = some k) :
    taggedEnv.messages.Derives (demoAttack.initial ∪ Env.InStores w) k := by
  obtain ⟨e, he, pk, -, hun⟩ : ∃ e, w.entry b [13] = some e ∧
      ∃ pk, taggedEnv.credentials e.rtokenOwner = some pk ∧
        taggedThemis.unwrap (200 :: [13]) pk e.rtoken = some k := by
    simpa only [leakedKey, Option.bind_eq_bind, Option.bind_eq_some_iff] using hk
  obtain ⟨a, -, htoken⟩ := taggedThemis.wrap_of_unwrap hun
  have hspy : 200 :: [13] ∈ demoAttack.initial :=
    ⟨by decide, fun id hid heq => hid (List.cons.inj heq).2.symm⟩
  have hwrap : taggedEnv.messages.Derives (demoAttack.initial ∪ Env.InStores w)
      (taggedEnv.messages.wrap a (taggedEnv.messages.pub (200 :: [13])) k) :=
    .known (Or.inr (Or.inr ⟨b, [13], e, he, htoken.symm⟩))
  exact hwrap.unwrap (.known (Or.inl hspy))

/-- The data store of the attacker. It forgets all updates; and if it can make a cell that opens, it
answers who reads the block with a content of its own. -/
def forger (w : World) : (r : Req) → r.Answer × World
  | .ds (.readBlock b) =>
    match leakedKey w b with
    | some k => (.ok (taggedThemis.encryptSeal k [66] [77], [66]), w)
    | none => taggedEnv.forgetful w (.ds (.readBlock b))
  | r => taggedEnv.forgetful w r

theorem forger_cases (w : World) (r : Req) : forger w r = taggedEnv.forgetful w r ∨
    ∃ b k, r = .ds (.readBlock b) ∧ leakedKey w b = some k := by
  match r with
  | .ds (.readBlock b) =>
    cases hk : leakedKey w b with
    | some k => exact Or.inr ⟨b, k, rfl, hk⟩
    | none => exact Or.inl (by simp only [forger, hk])
  | .ds (.createBlock ..) => exact Or.inl rfl
  | .ds (.createBlockWithId ..) => exact Or.inl rfl
  | .ds (.updateBlock ..) => exact Or.inl rfl
  | .ds (.deleteBlock ..) => exact Or.inl rfl
  | .ks _ => exact Or.inl rfl
  | .getPubKeyById _ => exact Or.inl rfl
  | .themis _ => exact Or.inl rfl

theorem forger_readBlock {w : World} {b k : Bytes} (hk : leakedKey w b = some k) :
    forger w (.ds (.readBlock b)) = (.ok (taggedThemis.encryptSeal k [66] [77], [66]), w) := by
  simp only [forger, hk]

/-- It is one an attacker can run: it can make the cells it tells. -/
theorem informed_forger : taggedEnv.Informed demoAttack.initial forger where
  hostile w r := by
    rcases forger_cases w r with heq | ⟨b, k, rfl, hk⟩
    · rw [heq]
      exact Env.hostileAnswer_forgetful w r
    · rw [forger_readBlock hk]
      exact ⟨rfl, rfl⟩
  told w r := by
    rcases forger_cases w r with heq | ⟨b, k, rfl, hk⟩
    · rw [heq]
      exact (Env.informed_forgetful pick_mem_initial).told w r
    · rw [forger_readBlock hk]
      have h66 : taggedEnv.messages.Derives (demoAttack.initial ∪ Env.InStores w) [66] :=
        .known (Or.inl (initial_of_head (by decide)))
      have h77 : taggedEnv.messages.Derives (demoAttack.initial ∪ Env.InStores w) [77] :=
        .known (Or.inl (initial_of_head (by decide)))
      intro x hx
      rcases List.mem_pair.mp hx with rfl | rfl
      · exact .cell (derives_leakedKey hk) h66 h77
      · exact h66
  kept w r := by
    rcases forger_cases w r with heq | ⟨b, k, rfl, hk⟩
    · rw [heq]
      exact (Env.informed_forgetful pick_mem_initial).kept w r
    · rw [forger_readBlock hk]
      exact fun b s hs => Or.inl ⟨b, hs⟩

/-- The owner creates the block, lets another user read it, and lets the corrupted user write it,
which fails; the corrupted user has a block of its own, which the owner may read. -/
def guardedCalls : List Call :=
  [⟨owner, .createBlock (some [9]) [100, 1] [21]⟩, ⟨owner, .grantReadAccess [9] [12]⟩,
    ⟨owner, .grantUpdateAccess [9] [13]⟩, ⟨spy, .createBlock (some [8]) [50] [21]⟩,
    ⟨spy, .grantReadAccess [8] [11]⟩]

/-- Then the owner reads the block of the corrupted user, and updates and rotates its own, while the
other user reads it. -/
def overlappingCalls : List Call :=
  [⟨owner, .readBlock [8]⟩, ⟨owner, .updateBlock [9] [100, 1] [22]⟩, ⟨reader, .readBlock [9]⟩,
    ⟨owner, .rotateBlock [9]⟩]

theorem allows_guardedCalls : ∀ c ∈ guardedCalls ++ overlappingCalls,
    taggedEnv.Registered c.user ∧ demoAttack.Allows c := by
  have howner : taggedEnv.Registered owner := registered_taggedUser _ _
  have hreader : taggedEnv.Registered reader := registered_taggedUser _ _
  have hspy : taggedEnv.Registered spy := registered_taggedUser _ _
  have hnot : ∀ a, a ≠ 13 → ([a] : Bytes) ∉ demoAttack.corrupt := by
    intro a ha h
    exact ha (List.cons.inj (Set.mem_singleton_iff.mp h)).1
  have hid : ∀ a, a ∈ demoAttack.initial → ∀ x ∈ [a], x ∈ demoAttack.initial := by
    intro a ha x hx
    rwa [List.mem_singleton.mp hx]
  have hids : ∀ a a', a ∈ demoAttack.initial → a' ∈ demoAttack.initial →
      ∀ x ∈ [a, a'], x ∈ demoAttack.initial := by
    intro a a' ha ha' x hx
    rcases List.mem_pair.mp hx with rfl | rfl
    · exact ha
    · exact ha'
  -- what the calls carry is all known from the start, but for the data
  have h8 : [8] ∈ demoAttack.initial := initial_of_head (by decide)
  have h9 : [9] ∈ demoAttack.initial := initial_of_head (by decide)
  have h11 : [11] ∈ demoAttack.initial := initial_of_head (by decide)
  have h12 : [12] ∈ demoAttack.initial := initial_of_head (by decide)
  have h13 : [13] ∈ demoAttack.initial := initial_of_head (by decide)
  have h21 : [21] ∈ demoAttack.initial := initial_of_head (by decide)
  have h22 : [22] ∈ demoAttack.initial := initial_of_head (by decide)
  have h50 : [50] ∈ demoAttack.initial := initial_of_head (by decide)
  simp only [guardedCalls, overlappingCalls, List.cons_append, List.nil_append,
    List.forall_mem_cons, List.not_mem_nil, false_imp_iff, implies_true, and_true]
  refine ⟨⟨howner, allows_createBlock h11 h9 h21 (Or.inr ⟨rfl, rfl⟩) fun _ => hnot 11 (by decide)⟩,
    ⟨howner, allows_of_content h11 (hids _ _ h9 h12) rfl fun v hv => ?_⟩,
    ⟨howner, allows_of_content h11 (hids _ _ h9 h13) rfl fun v hv => by cases hv⟩,
    ⟨hspy, allows_createBlock h13 h8 h21 (Or.inl h50) fun h => ?_⟩,
    ⟨hspy, allows_of_content h13 (hids _ _ h8 h11) rfl fun v hv => ?_⟩,
    ⟨howner, allows_of_content h11 (hid _ h8) rfl fun v hv => by cases hv⟩,
    ⟨howner, allows_updateBlock h11 h9 h22 (Or.inr ⟨rfl, rfl⟩)⟩,
    ⟨hreader, allows_of_content h12 (hid _ h9) rfl fun v hv => by cases hv⟩,
    ⟨howner, allows_of_content h11 (hid _ h9) rfl fun v hv => by cases hv⟩⟩
  · cases hv
    exact hnot 12 (by decide)
  · exact absurd (List.cons.inj h).1 (by decide)
  · exact absurd (List.cons.inj (Op.grantReadAccess.inj hv).1).1 (by decide)

/-- The pool after these calls, on the data store of the attacker. The last four of them overlap. -/
def guarded : Clients :=
  (⟨World.empty taggedRands, []⟩ : Clients).play forger (Call.prog 8)
    (Move.oneByOne 20 guardedCalls 0 ++ Move.inTurns 60 overlappingCalls 5)

/-- The owner was given a content that the attacker has made up for the block of the corrupted
user. -/
example : guarded.threads[5]?.any
    (fun t => t.prog.value? = some ⟨hmSuccess, none, some ([77], [66])⟩) = true := by
  decide +kernel

theorem watched_guarded : (taggedEnv.watched demoAttack.initial demoAttack.Allows).Runs
    ⟨World.empty taggedRands, []⟩ guarded := by
  refine informed_forger.watched (System.runs_play (fun P r => rfl) _ (fun c hc => ?_) _)
  rw [Move.starts_append, Move.starts_oneByOne, Move.starts_inTurns] at hc
  exact ⟨allows_guardedCalls c hc, 8, rfl⟩

theorem freshKeys_guarded : FreshKeys guarded := by
  show List.Nodup _
  decide +kernel

/-- The content of the owner's block it does not learn. -/
theorem Env.confidential_guarded :
    ¬taggedEnv.messages.Derives (Env.Overheard demoAttack.initial guarded) [100, 1] :=
  Env.confidential separates_demoAttack watched_guarded freshKeys_guarded (Or.inr (Or.inr rfl))

end Hermes

import Mathlib.Algebra.GroupWithZero.Nat
import Hermes.Faults
import Hermes.Instance
import Hermes.Rekeying

/-!
# Rotations in which the cryptography fails

A rotation of a block object draws two keys, opens the tokens it has made of them, seals the
content again, and then gives the keys to everybody on the rights list, all of it by calls that
can fail. Here any of them may (`Hermes.Env.faulty`). Until the object is changed a failure
undoes everything, with one exception: a token is opened by two calls, the first of which tells
how long the key is, and when the second fails zeros of this length are written over a buffer
object, which has no room for them (`Hermes.Env.Overwrites`). After the change the loop over the
rights list goes on with a changed object: a read token that cannot be made ends it with
`NULL`, and a write token that cannot be made is left out and not noticed.

So a rotation is all or nothing exactly if no opening of a new token ends so, and one of the
first ten calls fails, or none at all (`Hermes.Env.rotate_allOrNothing_iff`). A user whose keys
do not belong together cannot open its own tokens, and what it is told of their length is left
open here (`Hermes.Themis.unwrapSize`), so the condition is about each single opening
(`Hermes.Env.CanOverwrite`). When the keys belong together an opening ends badly exactly if its
first call succeeds and its second fails (`Hermes.Env.overwrites_newToken_iff`).
-/

namespace Hermes

open Interleave

/-- The calls it takes to wrap the new keys for these nodes: three for each token, two of them
to open the token of the object. -/
def wrapCalls (rights : List RightsListNode) : ℕ :=
  (rights.map fun node => 3 + if node.wtoken.isSome then 3 else 0).sum

/-- The next `m` calls succeed, from the one of this number on. -/
def Served (fails : ℕ → Bool) (n m : ℕ) : Prop := ∀ i < m, fails (n + i) = false

instance (fails : ℕ → Bool) (n m : ℕ) : Decidable (Served fails n m) :=
  inferInstanceAs (Decidable (∀ i < m, fails (n + i) = false))

theorem served_add {fails : ℕ → Bool} {n a b : ℕ} :
    Served fails n (a + b) ↔ Served fails n a ∧ Served fails (n + a) b := by
  constructor
  · intro h
    refine ⟨fun i hi => h i (by omega), fun i hi => ?_⟩
    rw [Nat.add_assoc]
    exact h (a + i) (by omega)
  · rintro ⟨ha, hb⟩ i hi
    by_cases hia : i < a
    · exact ha i hia
    · obtain ⟨j, rfl⟩ := Nat.exists_eq_add_of_le (Nat.le_of_not_lt hia)
      rw [← Nat.add_assoc]
      exact hb j (by omega)

theorem served_two {fails : ℕ → Bool} {n : ℕ} :
    Served fails n 2 ↔ fails n = false ∧ fails (n + 1) = false := by
  constructor
  · intro h
    exact ⟨h 0 (by omega), h 1 (by omega)⟩
  · rintro ⟨h₀, h₁⟩ i hi
    match i, hi with
    | 0, _ => exact h₀
    | 1, _ => exact h₁

theorem served_three {fails : ℕ → Bool} {n : ℕ} :
    Served fails n 3 ↔ (fails n = false ∧ fails (n + 1) = false) ∧ fails (n + 2) = false := by
  rw [served_add (a := 2) (b := 1), served_two]
  refine and_congr_right fun _ => ⟨fun h => h 0 (by omega), fun h i hi => ?_⟩
  obtain rfl : i = 0 := by omega
  exact h

namespace Env

variable (E : Env)

/-- The stores, and a cryptography of which the calls with these numbers fail. The number of
the next one goes with the stores. -/
def faulty (fails : ℕ → Bool) (s : World × ℕ) (r : Req) : r.Answer × World × ℕ :=
  if r.toStore then ((E.handle s.1 r).1, (E.handle s.1 r).2, s.2)
  else ((E.attempt (if fails s.2 then some .fail else none) s.1 r).1,
    (E.attempt (if fails s.2 then some .fail else none) s.1 r).2, s.2 + 1)

/-- The token unwraps to this key, for whoever has the private key of its user. -/
def Unwraps (t : Token) (k : Bytes) : Prop :=
  ∀ sk, t.user.pk = E.themis.pub sk → E.themis.unwrap sk t.owner.pk t.token = some k

/-- The node is that of the same user, with tokens of these keys, and with a write token
exactly if it had one. -/
structure NodeRotated (k kw : Bytes) (node node' : RightsListNode) : Prop where
  user_eq : node'.user = node.user
  rtoken : node'.rtoken.user = node.user ∧ E.Unwraps node'.rtoken k
  wtoken_isSome : node'.wtoken.isSome = node.wtoken.isSome
  wtoken : ∀ t, node'.wtoken = some t → t.user = node.user ∧ E.Unwraps t kw

/-- The object and the tokens of the nodes are what they were. -/
structure SameTokens (bl : Block) (rights : List RightsListNode) (bl' : Block)
    (rights' : List RightsListNode) : Prop where
  rtoken : bl'.rtoken = bl.rtoken
  wtoken : bl'.wtoken = bl.wtoken
  block : bl'.block = bl.block
  mac : bl'.mac = bl.mac
  oldMac : bl'.oldMac = bl.oldMac
  nodes : rights'.map (fun node => (node.rtoken, node.wtoken)) =
    rights.map fun node => (node.rtoken, node.wtoken)

/-- **All or nothing**: after `NULL` nothing has changed; after a success all tokens are of the
keys that the object has now. Nothing holds of a process that has written outside of its
objects; one that has failed an assertion gives nothing back. -/
def AllOrNothing (bl : Block) (rights : List RightsListNode) :
    Except Stop (Bool × Block × List RightsListNode) → Prop
  | .ok (false, bl', rights') => SameTokens bl rights bl' rights'
  | .ok (true, bl', rights') => ∃ rt wt k kw, bl'.rtoken = some rt ∧ bl'.wtoken = some wt ∧
      E.Unwraps rt k ∧ E.Unwraps wt kw ∧ List.Forall₂ (E.NodeRotated k kw) rights rights'
  | .error .undefined => False
  | .error _ => True

/-- The object with two new keys, and what they seal and authenticate. -/
def rekeyedBlock (sk k kw blk mac : Bytes) (bl : Block) : Block :=
  { bl with rtoken := some (E.newToken bl.user sk bl.user k)
            wtoken := some (E.newToken bl.user sk bl.user kw), block := some blk
            oldMac := bl.oldMac.or bl.mac, mac := some mac }

/-- The object has all that a rotation needs: two tokens, a user with a key pair, and a
content. -/
def Rotatable (bl : Block) : Prop :=
  bl.rtoken.isSome ∧ bl.wtoken.isSome ∧
    (∃ sk, sk ≠ [] ∧ bl.user.sk = some sk ∧ bl.user.pk = E.themis.pub sk) ∧
    ∃ d mt, d ≠ [] ∧ bl.data = some d ∧ bl.metadata = some mt

/-! ### What the opening of a token can do -/

/-- The opening of a wrapped message whose first call has this number writes outside of a
buffer: the first call tells a length, the second one fails, and zeros of this length do not fit
where they are written. -/
def Overwrites (fails : ℕ → Bool) (n : ℕ) (sk pk x : Bytes) : Prop :=
  fails n = false ∧ (fails (n + 1) = true ∨ E.themis.unwrap sk pk x = none) ∧
    ∃ size ∈ E.themis.unwrapSize sk pk x, ¬ClearsBuffer size

instance (fails : ℕ → Bool) (n : ℕ) (sk pk x : Bytes) : Decidable (E.Overwrites fails n sk pk x) :=
  inferInstanceAs (Decidable (_ ∧ _ ∧ ∃ size ∈ E.themis.unwrapSize sk pk x, ¬ClearsBuffer size))

/-- The number of the next call after such an opening. -/
def afterOpening (fails : ℕ → Bool) (n : ℕ) (sk pk x : Bytes) : ℕ :=
  if fails n = false ∧ (E.themis.unwrapSize sk pk x).isSome then n + 2 else n + 1

/-- What such an opening returns. -/
def opened (fails : ℕ → Bool) (n : ℕ) (sk pk x : Bytes) : Except Stop (Reply Bytes) :=
  if E.Overwrites fails n sk pk x then .error .undefined
  else .ok (if fails n = false ∧ fails (n + 1) = false then hmResult (E.themis.unwrap sk pk x)
    else .error .fail)

/-- The number of the next call after the generation of a token whose first call has this
number. -/
def afterGenerate (fails : ℕ → Bool) (n : ℕ) : ℕ := if fails n then n + 1 else n + 2

/-- Two tokens of these keys are generated one after the other, as far as the calls for them
succeed, and then opened, and one of the openings writes outside of a buffer. -/
def OpeningsOverwrite (fails : ℕ → Bool) (sk pk k kw : Bytes) : Prop :=
  let wrapped := E.themis.wrap sk pk
  let opening := afterGenerate fails (afterGenerate fails 0)
  (Served fails 0 2 ∧ E.Overwrites fails opening sk pk (wrapped k)) ∨
    (Served fails (afterGenerate fails 0) 2 ∧ E.Overwrites fails
      (if Served fails 0 2 then E.afterOpening fails opening sk pk (wrapped k) else opening)
      sk pk (wrapped kw))

/-- A rotation of the object writes outside of a buffer for some new keys: it is not refused,
and the user has a private key. -/
def CanOverwrite (fails : ℕ → Bool) (bl : Block) : Prop :=
  (bl.rtoken.isSome ∧ bl.wtoken.isSome) ∧ ∃ sk, (sk ≠ [] ∧ bl.user.sk = some sk) ∧
    ∃ k kw : HmToken, E.OpeningsOverwrite fails sk bl.user.pk k kw

variable {E} {fails : ℕ → Bool} {w : World} {n : ℕ} {user : User} {sk k kw : Bytes}

/-! ### One call -/

theorem faulty_themis (r : ThemisReq) :
    E.faulty fails (w, n) (.themis r) = if fails n then ((Req.themis r).failed .fail, w, n + 1)
      else (serveThemis E.themis w.rands r, { w with rands := drawn w.rands r }, n + 1) := by
  simp only [faulty, Req.toStore, Bool.false_eq_true, if_false, attempt]
  cases fails n <;> rfl

theorem run_asymEncrypt {pk d : Bytes} (hsk : sk ≠ []) (hpk : pk ≠ []) (hd : d ≠ []) :
    (hmAsymEncrypt sk pk d).run (E.faulty fails) (w, n) =
      (.ok (if fails n then .error .fail else .ok (E.themis.wrap sk pk d)), w, n + 1) := by
  unfold hmAsymEncrypt
  rw [if_neg (by tauto), Prog.run_req, faulty_themis]
  cases fails n <;> rfl

/-- What does not unwrap even if its length is told. -/
theorem unwrap_eq_none_of_size {pk x : Bytes} (h : E.themis.unwrapSize sk pk x = none) :
    E.themis.unwrap sk pk x = none := by
  rw [Option.eq_none_iff_forall_ne_some]
  intro m hm
  rw [E.themis.unwrapSize_of_unwrap hm] at h
  cases h

/-- **The two calls of an opening.** -/
theorem run_asymDecrypt {pk x : Bytes} (hsk : sk ≠ []) (hpk : pk ≠ []) (hx : x ≠ []) :
    (hmAsymDecrypt sk pk x).run (E.faulty fails) (w, n) =
      (E.opened fails n sk pk x, w, E.afterOpening fails n sk pk x) := by
  unfold hmAsymDecrypt
  rw [if_neg (by tauto), Prog.run_req, faulty_themis]
  cases hn : fails n with
  | true => simp [Req.failed, opened, Overwrites, afterOpening, hn]
  | false =>
    simp only [Bool.false_eq_true, if_false, serveThemis]
    cases hsize : E.themis.unwrapSize sk pk x with
    | none => simp [opened, Overwrites, afterOpening, hn, hsize, unwrap_eq_none_of_size hsize,
        hmResult, drawn]
    | some size =>
      dsimp only
      rw [Prog.run_req, faulty_themis]
      by_cases hclears : ClearsBuffer size <;> cases hn₁ : fails (n + 1) <;>
        cases hun : E.themis.unwrap sk pk x <;>
        simp [Req.failed, opened, Overwrites, afterOpening, hn, hn₁, hsize, hun, hclears,
          serveThemis, hmResult, drawn]

theorem run_encrypt {d mt : Bytes} (hk : k ≠ []) (hd : d ≠ []) :
    (hmEncrypt k d mt).run (E.faulty fails) (w, n) =
      (.ok (if fails n then .error .fail else .ok (E.themis.encryptSeal k mt d)), w, n + 1) := by
  unfold hmEncrypt
  rw [if_neg (by tauto), Prog.run_req, faulty_themis]
  cases fails n <;> rfl

theorem run_macCreate {d mt : Bytes} (hk : k ≠ []) (hd : d ≠ []) :
    (hmMacCreate k d mt).run (E.faulty fails) (w, n) =
      (.ok (if fails n then .error .fail else .ok (E.themis.hmac k [d, mt])), w, n + 1) := by
  unfold hmMacCreate
  rw [if_neg (by tauto), Prog.run_req, faulty_themis]
  cases fails n <;> rfl

/-! ### New keys -/

/-- A token that is generated by a user with a private key. -/
theorem run_tokenGenerate (hsk : sk ≠ [] ∧ user.sk = some sk) :
    (midHermesLlTokenGenerate user).run (E.faulty fails) (w, n) =
      (.ok (if Served fails n 2 then some (E.newToken user sk user (w.rands 0).val) else none),
        { w with rands := fun i => w.rands (if fails n then i else i + 1) },
        afterGenerate fails n) := by
  unfold midHermesLlTokenGenerate
  rw [Prog.run_req, faulty_themis, afterGenerate]
  simp only [served_two]
  cases fails n with
  | true => simp [Req.failed]
  | false =>
    simp only [Bool.false_eq_true, if_false, serveThemis, drawn, hsk.2]
    rw [Prog.run_bind_of_ok (run_asymEncrypt hsk.1 user.pk_ne_nil (HmToken.val_ne_nil _))]
    cases fails (n + 1) <;> rfl

theorem tokenGenerate_eq_some {t : Token} {s : World × ℕ} :
    (midHermesLlTokenGenerate user).run (E.faulty fails) (w, n) = (.ok (some t), s) ↔
      ∃ sk, (sk ≠ [] ∧ user.sk = some sk) ∧ (fails n = false ∧ fails (n + 1) = false) ∧
        t = E.newToken user sk user (w.rands 0).val ∧
        s = ({ w with rands := fun i => w.rands (i + 1) }, n + 2) := by
  unfold midHermesLlTokenGenerate
  rw [Prog.run_req, faulty_themis]
  cases fails n with
  | true => simp [Req.failed]
  | false =>
    simp only [Bool.false_eq_true, if_false, serveThemis, drawn]
    cases user.sk with
    | none => simp
    | some sk =>
      by_cases hsk : sk = []
      · simp [hmAsymEncrypt, hsk]
      · dsimp only
        rw [Prog.run_bind_of_ok (run_asymEncrypt hsk user.pk_ne_nil (HmToken.val_ne_nil _))]
        cases fails (n + 1) with
        | true => simp
        | false => simp [hsk, newToken, eq_comm]

/-- The key in a token. -/
theorem run_getData {t : Token} (hsk : sk ≠ [] ∧ t.user.sk = some sk) (ht : t.token ≠ []) :
    (midHermesLlTokenGetData t).run (E.faulty fails) (w, n) =
      ((E.opened fails n sk t.owner.pk t.token).map Except.toOption, w,
        E.afterOpening fails n sk t.owner.pk t.token) := by
  unfold midHermesLlTokenGetData
  rw [hsk.2]
  have hrun : (hmAsymDecrypt sk t.owner.pk t.token).run (E.faulty fails) (w, n) = _ :=
    run_asymDecrypt hsk.1 t.owner.pk_ne_nil ht
  rcases ho : E.opened fails n sk t.owner.pk t.token with stop | r
  · rw [ho] at hrun
    exact Prog.run_bind_of_error hrun
  · rw [ho] at hrun
    refine (Prog.run_bind_of_ok hrun).trans ?_
    cases r <;> rfl

theorem opened_eq_ok {pk x k : Bytes} : E.opened fails n sk pk x = .ok (.ok k) ↔
    (fails n = false ∧ fails (n + 1) = false) ∧ E.themis.unwrap sk pk x = some k := by
  constructor
  · intro h
    by_cases hover : E.Overwrites fails n sk pk x
    · rw [opened, if_pos hover] at h
      cases h
    rw [opened, if_neg hover, Except.ok.injEq] at h
    by_cases hn : fails n = false ∧ fails (n + 1) = false
    · rw [if_pos hn] at h
      refine ⟨hn, ?_⟩
      cases hun : E.themis.unwrap sk pk x with
      | none =>
        rw [hun] at h
        cases h
      | some k' =>
        rw [hun] at h
        cases h
        rfl
    · rw [if_neg hn] at h
      cases h
  · rintro ⟨hn, hun⟩
    have hover : ¬E.Overwrites fails n sk pk x := by
      rintro ⟨-, hfail | hfail, -⟩
      · rw [hn.2] at hfail
        cases hfail
      · rw [hun] at hfail
        cases hfail
    rw [opened, if_neg hover, if_pos hn, hun]
    rfl

theorem afterOpening_of_opened {pk x k : Bytes} (h : E.opened fails n sk pk x = .ok (.ok k)) :
    E.afterOpening fails n sk pk x = n + 2 := by
  obtain ⟨hn, hun⟩ := opened_eq_ok.mp h
  rw [afterOpening, E.themis.unwrapSize_of_unwrap hun, if_pos ⟨hn.1, rfl⟩]

theorem getData_eq_some {t : Token} {s : World × ℕ} :
    (midHermesLlTokenGetData t).run (E.faulty fails) (w, n) = (.ok (some k), s) ↔
      ∃ sk, (sk ≠ [] ∧ t.user.sk = some sk) ∧ t.token ≠ [] ∧
        (fails n = false ∧ fails (n + 1) = false) ∧
        E.themis.unwrap sk t.owner.pk t.token = some k ∧ s = (w, n + 2) := by
  constructor
  · intro h
    by_cases hsk : ∃ sk, (sk ≠ [] ∧ t.user.sk = some sk) ∧ t.token ≠ []
    · obtain ⟨sk, hsk, ht⟩ := hsk
      rw [run_getData hsk ht] at h
      obtain ⟨ho, rfl⟩ := Prod.mk.inj h
      have ho' : E.opened fails n sk t.owner.pk t.token = .ok (.ok k) := by
        generalize E.opened fails n sk t.owner.pk t.token = r at ho ⊢
        rcases r with stop | _ | k' <;> cases ho
        rfl
      obtain ⟨hn, hun⟩ := opened_eq_ok.mp ho'
      exact ⟨sk, hsk, ht, hn, hun, by rw [afterOpening_of_opened ho']⟩
    · -- without a private key or a token no call is made
      unfold midHermesLlTokenGetData at h
      cases hsk' : t.user.sk with
      | none => simp [hsk'] at h
      | some sk =>
        have hret : hmAsymDecrypt sk t.owner.pk t.token = .ret (.error .invalidParameter) := by
          unfold hmAsymDecrypt
          rw [if_pos]
          by_contra hne
          rw [not_or, not_or] at hne
          exact hsk ⟨sk, ⟨hne.1, hsk'⟩, hne.2.2⟩
        simp [hsk', hret] at h
  · rintro ⟨sk, hsk, ht, hn, hun, rfl⟩
    have ho := opened_eq_ok.mpr ⟨hn, hun⟩
    rw [run_getData hsk ht, ho, afterOpening_of_opened ho]
    rfl

/-- A user can open what it wraps for itself exactly if its keys belong together. -/
theorem unwrap_newToken {k' : Bytes} :
    E.themis.unwrap sk user.pk (E.themis.wrap sk user.pk k) = some k' ↔
      user.pk = E.themis.pub sk ∧ k' = k := by
  constructor
  · intro h
    obtain ⟨a, -, hx⟩ := E.themis.wrap_of_unwrap h
    obtain ⟨-, hpk, -⟩ := E.themis.wrap_inj hx
    exact ⟨hpk, E.themis.unwrap_wrap_eq h⟩
  · rintro ⟨hpk, rfl⟩
    rw [hpk]
    exact E.themis.unwrap_wrap _ _ _

/-- **When the opening of a new token writes outside of a buffer**, if the keys of the user
belong together: if the second call fails after the first one did not. -/
theorem overwrites_newToken_iff (hpk : user.pk = E.themis.pub sk) (k : HmToken) :
    E.Overwrites fails n sk user.pk (E.themis.wrap sk user.pk k) ↔
      fails n = false ∧ fails (n + 1) = true := by
  have hun : E.themis.unwrap sk user.pk (E.themis.wrap sk user.pk k) = some k.val :=
    unwrap_newToken.mpr ⟨hpk, rfl⟩
  have hsize : ¬ClearsBuffer k.val.length := by
    rw [k.property]
    decide
  simp [Overwrites, hun, E.themis.unwrapSize_of_unwrap hun, hsize]

/-- The key of a token that was generated. -/
theorem getData_newToken {k' : Bytes} {s : World × ℕ} (hsk : sk ≠ [] ∧ user.sk = some sk) :
    (midHermesLlTokenGetDataOf (some (E.newToken user sk user k))).run (E.faulty fails) (w, n) =
        (.ok (some k'), s) ↔
      user.pk = E.themis.pub sk ∧ (fails n = false ∧ fails (n + 1) = false) ∧ k' = k ∧
        s = (w, n + 2) := by
  have hne : (E.newToken user sk user k).token ≠ [] := newToken_ne user k
  refine getData_eq_some.trans ?_
  constructor
  · rintro ⟨sk', ⟨-, hsk'⟩, -, hn, hun, hs⟩
    cases hsk.2.symm.trans hsk'
    obtain ⟨hpk, hk⟩ := unwrap_newToken.mp hun
    exact ⟨hpk, hn, hk, hs⟩
  · rintro ⟨hpk, hn, hk, hs⟩
    exact ⟨sk, hsk, hne, hn, unwrap_newToken.mpr ⟨hpk, hk⟩, hs⟩

/-- The content is sealed and authenticated. -/
theorem encryptMac_eq_some {d mt : Bytes} {s : World × ℕ} {rtoken wtoken : Token}
    {x : Token × Token × Bytes × Bytes} (hk : k ≠ []) (hkw : kw ≠ []) :
    (hmEncrypt k d mt >>= fun
      | .error _ => Prog.ret none
      | .ok newBlock => hmMacCreate kw d mt >>= fun
        | .error _ => .ret none
        | .ok newMac => .ret (some (rtoken, wtoken, newBlock, newMac))).run (E.faulty fails)
        (w, n) = (.ok (some x), s) ↔
      d ≠ [] ∧ (fails n = false ∧ fails (n + 1) = false) ∧
        x = (rtoken, wtoken, E.themis.encryptSeal k mt d, E.themis.hmac kw [d, mt]) ∧
        s = (w, n + 2) := by
  by_cases hd : d = []
  · simp [hmEncrypt, hd]
  · rw [Prog.run_bind_of_ok (run_encrypt hk hd)]
    cases fails n with
    | true => simp
    | false =>
      simp only [Bool.false_eq_true, if_false]
      rw [Prog.run_bind_of_ok (run_macCreate hkw hd)]
      cases fails (n + 1) with
      | true => simp
      | false => simp [hd, eq_comm]

/-- **When the new keys are computed**: if all is there, and ten calls succeed. -/
theorem rotateKeys_eq_some {bl : Block} {x : Token × Token × Bytes × Bytes} {s : World × ℕ} :
    (midHermesLlBlockRotateKeys bl).run (E.faulty fails) (w, n) = (.ok (some x), s) ↔
      ∃ sk d mt, ((sk ≠ [] ∧ bl.user.sk = some sk) ∧ bl.user.pk = E.themis.pub sk) ∧
        (d ≠ [] ∧ bl.data = some d ∧ bl.metadata = some mt) ∧
        Served fails n 10 ∧
        x = (E.newToken bl.user sk bl.user (w.rands 0).val,
          E.newToken bl.user sk bl.user (w.rands 1).val,
          E.themis.encryptSeal (w.rands 0).val mt d, E.themis.hmac (w.rands 1).val [d, mt]) ∧
        s = ({ w with rands := fun i => w.rands (i + 2) }, n + 10) := by
  have hk := HmToken.val_ne_nil (w.rands 0)
  have hkw := HmToken.val_ne_nil (w.rands 1)
  unfold midHermesLlBlockRotateKeys
  constructor
  · intro h
    obtain ⟨rt, s₁, h₁, h⟩ := Prog.run_bind_eq_ok.mp h
    obtain ⟨wt, s₂, h₂, h⟩ := Prog.run_bind_eq_ok.mp h
    obtain ⟨k, s₃, h₃, h⟩ := Prog.run_bind_eq_ok.mp h
    obtain ⟨kw, s₄, h₄, h⟩ := Prog.run_bind_eq_ok.mp h
    match rt, wt, k, kw, h with
    | some rt, some wt, some k, some kw, h =>
      -- two calls for each of the tokens, and two to open each of them
      obtain ⟨sk, hsk, hn₁, rfl, rfl⟩ := tokenGenerate_eq_some.mp h₁
      obtain ⟨sk', hsk', hn₂, rfl, rfl⟩ := tokenGenerate_eq_some.mp h₂
      cases hsk.2.symm.trans hsk'.2
      obtain ⟨hpk, hn₃, rfl, rfl⟩ := (getData_newToken hsk).mp h₃
      obtain ⟨-, hn₄, rfl, rfl⟩ := (getData_newToken hsk).mp h₄
      match hd : bl.data, hmt : bl.metadata, h with
      | some d, some mt, h =>
        -- the last two calls, for the block and its mac
        obtain ⟨hne, hn₅, rfl, rfl⟩ := (encryptMac_eq_some hk hkw).mp h
        have hserved : Served fails n 10 :=
          served_add.mpr ⟨served_two.mpr hn₁, served_add.mpr ⟨served_two.mpr hn₂,
            served_add.mpr ⟨served_two.mpr hn₃, served_add.mpr ⟨served_two.mpr hn₄,
              served_two.mpr hn₅⟩⟩⟩⟩
        exact ⟨sk, d, mt, ⟨hsk, hpk⟩, ⟨hne, rfl, rfl⟩, hserved, rfl, rfl⟩
  · rintro ⟨sk, d, mt, ⟨hsk, hpk⟩, ⟨hne, hd, hmt⟩, hn, rfl, rfl⟩
    have hgen : ∀ {m : ℕ} {w' : World}, fails m = false → fails (m + 1) = false →
        (midHermesLlTokenGenerate bl.user).run (E.faulty fails) (w', m) =
          (.ok (some (E.newToken bl.user sk bl.user (w'.rands 0).val)),
            { w' with rands := fun i => w'.rands (i + 1) }, m + 2) := fun h₁ h₂ =>
      tokenGenerate_eq_some.mpr ⟨sk, hsk, ⟨h₁, h₂⟩, rfl, rfl⟩
    have hget : ∀ {m : ℕ} {w' : World} {k : Bytes}, fails m = false → fails (m + 1) = false →
        (midHermesLlTokenGetDataOf (some (E.newToken bl.user sk bl.user k))).run (E.faulty fails)
          (w', m) = (.ok (some k), w', m + 2) := fun h₁ h₂ =>
      (getData_newToken hsk).mpr ⟨hpk, ⟨h₁, h₂⟩, rfl, rfl⟩
    refine (Prog.run_bind_of_ok (hgen (hn 0 (by omega)) (hn 1 (by omega)))).trans ?_
    refine (Prog.run_bind_of_ok (hgen (hn 2 (by omega)) (hn 3 (by omega)))).trans ?_
    refine (Prog.run_bind_of_ok (hget (hn 4 (by omega)) (hn 5 (by omega)))).trans ?_
    refine (Prog.run_bind_of_ok (hget (hn 6 (by omega)) (hn 7 (by omega)))).trans ?_
    simp only [hd, hmt]
    exact (encryptMac_eq_some hk hkw).mpr ⟨hne, ⟨hn 8 (by omega), hn 9 (by omega)⟩, rfl, rfl⟩

/-! ### When the openings of the new keys write outside of a buffer -/

theorem avoids_tokenGenerate (user : User) :
    (midHermesLlTokenGenerate user).Avoids .undefined := by
  unfold midHermesLlTokenGenerate hmAsymEncrypt
  rintro (_ | token)
  · exact trivial
  · dsimp only
    cases user.sk with
    | none => exact Stop.noConfusion
    | some sk =>
      refine Prog.Avoids.bind ?_ fun r => ?_
      · split_ifs
        · exact trivial
        · exact fun _ => trivial
      · cases r <;> exact trivial

theorem avoids_encryptMac (rtoken wtoken : Token) (k kw d mt : Bytes) :
    (hmEncrypt k d mt >>= fun
      | .error _ => Prog.ret none
      | .ok newBlock => hmMacCreate kw d mt >>= fun
        | .error _ => .ret none
        | .ok newMac => .ret (some (rtoken, wtoken, newBlock, newMac))).Avoids
      (R := Req) (A := Req.Answer) .undefined := by
  unfold hmEncrypt hmMacCreate
  refine Prog.Avoids.bind ?_ fun r => ?_
  · split_ifs
    · exact trivial
    · exact fun _ => trivial
  · cases r with
    | error _ => exact trivial
    | ok newBlock =>
      refine Prog.Avoids.bind ?_ fun r => ?_
      · split_ifs
        · exact trivial
        · exact fun _ => trivial
      · cases r <;> exact trivial

section Openings

variable (hsk : sk ≠ [] ∧ user.sk = some sk)
include hsk

variable (E fails w n k) in
/-- **Two ways to open a new token**: harm is done, or something is returned. -/
theorem opening_cases :
    (E.Overwrites fails n sk user.pk (E.themis.wrap sk user.pk k) ∧
      (midHermesLlTokenGetData (E.newToken user sk user k)).run (E.faulty fails) (w, n) =
        (.error .undefined, w, E.afterOpening fails n sk user.pk (E.themis.wrap sk user.pk k))) ∨
    (¬E.Overwrites fails n sk user.pk (E.themis.wrap sk user.pk k) ∧ ∃ key,
      (midHermesLlTokenGetData (E.newToken user sk user k)).run (E.faulty fails) (w, n) =
        (.ok key, w, E.afterOpening fails n sk user.pk (E.themis.wrap sk user.pk k))) := by
  have hrun : (midHermesLlTokenGetData (E.newToken user sk user k)).run (E.faulty fails) (w, n) =
      ((E.opened fails n sk user.pk (E.themis.wrap sk user.pk k)).map Except.toOption, w,
        E.afterOpening fails n sk user.pk (E.themis.wrap sk user.pk k)) :=
    run_getData hsk (newToken_ne user k)
  rw [hrun]
  by_cases hover : E.Overwrites fails n sk user.pk (E.themis.wrap sk user.pk k)
  · exact Or.inl ⟨hover, by rw [opened, if_pos hover]; rfl⟩
  · exact Or.inr ⟨hover, _, by rw [opened, if_neg hover]; rfl⟩

variable {β : Type} {p q : Prop} [Decidable p] [Decidable q]

/-- One token is opened, if it is there. -/
theorem opening_undefined_iff {f : Option Bytes → Client β} (hf : ∀ x, (f x).Avoids .undefined) :
    ((midHermesLlTokenGetDataOf (if p then some (E.newToken user sk user k) else none) >>=
        f).run (E.faulty fails) (w, n)).1 = .error .undefined ↔
      p ∧ E.Overwrites fails n sk user.pk (E.themis.wrap sk user.pk k) := by
  by_cases hp : p
  · rw [if_pos hp]
    rcases opening_cases E fails w n k hsk with ⟨hover, hrun⟩ | ⟨hnot, key, hrun⟩
    · exact iff_of_true (congrArg Prod.fst (Prog.run_bind_of_error hrun)) ⟨hp, hover⟩
    · refine iff_of_false (fun h => ?_) fun h => hnot h.2
      rcases Prog.run_bind_eq_error.mp h with h | ⟨a, s, -, h⟩
      · cases (congrArg Prod.fst hrun).symm.trans h
      · exact (hf a).run_ne s h
  · rw [if_neg hp]
    exact iff_of_false ((hf none).run_ne _) fun h => hp h.1

/-- Two tokens are opened, those that are there. -/
theorem openings_undefined_iff {f : Option Bytes → Option Bytes → Client β}
    (hf : ∀ x y, (f x y).Avoids .undefined) :
    ((midHermesLlTokenGetDataOf (if p then some (E.newToken user sk user k) else none) >>=
        fun x => midHermesLlTokenGetDataOf (if q then some (E.newToken user sk user kw) else none)
          >>= f x).run (E.faulty fails) (w, n)).1 = .error .undefined ↔
      (p ∧ E.Overwrites fails n sk user.pk (E.themis.wrap sk user.pk k)) ∨
        (q ∧ E.Overwrites fails
          (if p then E.afterOpening fails n sk user.pk (E.themis.wrap sk user.pk k) else n)
          sk user.pk (E.themis.wrap sk user.pk kw)) := by
  by_cases hp : p
  · rw [if_pos hp, if_pos hp]
    rcases opening_cases E fails w n k hsk with ⟨hover, hrun⟩ | ⟨hnot, key, hrun⟩
    · exact iff_of_true (congrArg Prod.fst (Prog.run_bind_of_error hrun)) (Or.inl ⟨hp, hover⟩)
    · have hsecond := congrArg Prod.fst (Prog.run_bind_of_ok (f := fun x =>
        midHermesLlTokenGetDataOf (if q then some (E.newToken user sk user kw) else none) >>= f x)
        hrun)
      refine (Eq.congr_left hsecond).trans ((opening_undefined_iff hsk (hf key)).trans ?_)
      exact ⟨Or.inr, fun h => h.elim (fun h => absurd h.2 hnot) id⟩
  · rw [if_neg hp, if_neg hp]
    refine (opening_undefined_iff hsk (hf none)).trans ⟨Or.inr, ?_⟩
    exact fun h => h.elim (fun h => absurd h.1 hp) id

end Openings

/-- Who has no private key generates no token. -/
theorem tokenGenerate_ne_some (hsk : ¬∃ sk, sk ≠ [] ∧ user.sk = some sk) {o : Option Token}
    {s s' : World × ℕ} (h : (midHermesLlTokenGenerate user).run (E.faulty fails) s = (.ok o, s')) :
    o = none := by
  rw [Option.eq_none_iff_forall_ne_some]
  rintro t rfl
  obtain ⟨sk, hsk', -⟩ := tokenGenerate_eq_some.mp h
  exact hsk ⟨sk, hsk'⟩

/-- **When the new keys cannot be computed without harm.** -/
theorem rotateKeys_undefined_iff {bl : Block} :
    ((midHermesLlBlockRotateKeys bl).run (E.faulty fails) (w, 0)).1 = .error .undefined ↔
      ∃ sk, (sk ≠ [] ∧ bl.user.sk = some sk) ∧ E.OpeningsOverwrite fails sk bl.user.pk
        (w.rands 0).val (w.rands (if fails 0 then 0 else 1)).val := by
  unfold midHermesLlBlockRotateKeys
  by_cases hkey : ∃ sk, sk ≠ [] ∧ bl.user.sk = some sk
  · obtain ⟨sk, hsk⟩ := hkey
    rw [Prog.run_bind_of_ok (run_tokenGenerate hsk), Prog.run_bind_of_ok (run_tokenGenerate hsk),
      openings_undefined_iff hsk]
    · constructor
      · exact fun h => ⟨sk, hsk, h⟩
      · rintro ⟨sk', hsk', h⟩
        cases hsk.2.symm.trans hsk'.2
        exact h
    · intro x y
      split
      · split
        · exact avoids_encryptMac _ _ _ _ _ _
        · exact Stop.noConfusion
      · exact trivial
  · refine iff_of_false (fun h => ?_) fun ⟨sk, hsk, _⟩ => hkey ⟨sk, hsk⟩
    rcases Prog.run_bind_eq_error.mp h with h | ⟨o, s, ho, h⟩
    · exact (avoids_tokenGenerate _).run_ne _ h
    obtain rfl := tokenGenerate_ne_some hkey ho
    rcases Prog.run_bind_eq_error.mp h with h | ⟨o, s, ho, h⟩
    · exact (avoids_tokenGenerate _).run_ne _ h
    obtain rfl := tokenGenerate_ne_some hkey ho
    cases h

/-- Two random values that come next, the first of which may not be drawn. -/
theorem exists_rands (E : Env) (fails : ℕ → Bool) {sk pk : Bytes} {k kw : HmToken}
    (h : E.OpeningsOverwrite fails sk pk k kw) : ∃ w : World, E.OpeningsOverwrite fails sk pk
      (w.rands 0).val (w.rands (if fails 0 then 0 else 1)).val := by
  cases hn : fails 0 with
  | false => exact ⟨World.empty fun i => if i = 0 then k else kw, h⟩
  | true =>
    -- the first token is not made, so its key does not matter
    have hnot : ¬Served fails 0 2 := fun hs => by
      rw [served_two, hn] at hs
      cases hs.1
    refine ⟨World.empty fun _ => kw, ?_⟩
    simp only [OpeningsOverwrite, hnot, false_and, false_or, if_false] at h ⊢
    exact h

/-! ### The rights list -/

variable (fails w) in
/-- A new token for another user: three calls. -/
theorem run_getTokenForUser (hsk : sk ≠ [] ∧ user.sk = some sk)
    (hpk : user.pk = E.themis.pub sk) (hk : k ≠ []) (forUser : User) (n : ℕ) : ∃ r n',
      (midHermesLlTokenGetTokenForUser (E.newToken user sk user k) forUser).run (E.faulty fails)
        (w, n) = (r, w, n') ∧
      (Served fails n 3 → r = .ok (some (E.newToken user sk forUser k)) ∧ n' = n + 3) ∧
      (¬Served fails n 3 → r = .ok none ∨ r = .error .undefined) := by
  unfold midHermesLlTokenGetTokenForUser
  by_cases hopen : fails n = false ∧ fails (n + 1) = false
  · -- the token is opened, and one call is left
    have hrun : (midHermesLlTokenGetData (E.newToken user sk user k)).run (E.faulty fails)
        (w, n) = (.ok (some k), w, n + 2) := (getData_newToken hsk).mpr ⟨hpk, hopen, rfl, rfl⟩
    rw [Prog.run_bind_of_ok hrun]
    simp only [newToken, hsk.2]
    rw [Prog.run_bind_of_ok (run_asymEncrypt hsk.1 forUser.pk_ne_nil hk)]
    cases hn : fails (n + 2) with
    | true =>
      refine ⟨_, _, rfl, fun h => ?_, fun _ => Or.inl rfl⟩
      rw [(served_three.mp h).2] at hn
      cases hn
    | false =>
      exact ⟨_, _, rfl, fun _ => ⟨rfl, rfl⟩, fun h => absurd (served_three.mpr ⟨hopen, hn⟩) h⟩
  · have hnot : ¬Served fails n 3 := fun h => hopen (served_three.mp h).1
    rcases opening_cases E fails w n k hsk with ⟨-, hrun⟩ | ⟨-, key, hrun⟩
    · exact ⟨_, _, Prog.run_bind_of_error hrun, fun h => absurd h hnot, fun _ => Or.inr rfl⟩
    · -- without an error the opening has returned nothing
      have hkey : key = none := by
        rw [Option.eq_none_iff_forall_ne_some]
        rintro k' rfl
        exact hopen ((getData_newToken hsk).mp hrun).2.1
      subst hkey
      exact ⟨_, _, Prog.run_bind_of_ok hrun, fun h => absurd h hnot, fun _ => Or.inl rfl⟩

theorem wrapCalls_cons (node : RightsListNode) (rights : List RightsListNode) :
    wrapCalls (node :: rights) =
      3 + (if node.wtoken.isSome then 3 else 0) + wrapCalls rights := rfl

variable (fails w) in
/-- The write token of a node, if it has to have one: three more calls. -/
theorem run_newWtoken (hsk : sk ≠ [] ∧ user.sk = some sk) (hpk : user.pk = E.themis.pub sk)
    (hkw : kw ≠ []) (node : RightsListNode) (n : ℕ) : ∃ r n',
      (if node.wtoken.isSome then
        midHermesLlTokenGetTokenForUser (E.newToken user sk user kw) node.user
        else .ret none).run (E.faulty fails) (w, n) = (r, w, n') ∧
      (Served fails n (if node.wtoken.isSome then 3 else 0) →
        r = .ok (if node.wtoken.isSome then some (E.newToken user sk node.user kw) else none) ∧
        n' = n + if node.wtoken.isSome then 3 else 0) ∧
      (¬Served fails n (if node.wtoken.isSome then 3 else 0) →
        r = .error .undefined ∨ ∃ nwt, r = .ok nwt ∧ nwt.isSome ≠ node.wtoken.isSome) := by
  cases node.wtoken.isSome with
  | false =>
    exact ⟨.ok none, n, rfl, fun _ => ⟨rfl, rfl⟩, fun h => absurd (fun i hi => by simp at hi) h⟩
  | true =>
    obtain ⟨r, n', hrun, hserved, hfail⟩ := run_getTokenForUser fails w hsk hpk hkw node.user n
    refine ⟨r, n', hrun, hserved, fun h => (hfail h).symm.imp_right ?_⟩
    rintro rfl
    exact ⟨none, rfl, nofun⟩

/-- What a loop over these nodes comes to in which a call has failed: it does harm; or it fails;
or a write token has not been made. -/
def LosesTokens (rights : List RightsListNode) :
    Except Stop (Bool × List RightsListNode) → Prop
  | .ok (ok, rights') => ok = true → rights'.map (fun node => node.wtoken.isSome) ≠
      rights.map fun node => node.wtoken.isSome
  | .error w => w = .undefined

variable (fails w) in
/-- **The loop over the rights list.** If no call fails, all nodes get their tokens. If one
does, tokens are lost. -/
theorem run_rotateRights (hsk : sk ≠ [] ∧ user.sk = some sk) (hpk : user.pk = E.themis.pub sk)
    (hk : k ≠ []) (hkw : kw ≠ []) (rights : List RightsListNode) (n : ℕ) : ∃ r s,
      (midHermesLlBlockRotateRights (E.newToken user sk user k) (E.newToken user sk user kw)
        rights).run (E.faulty fails) (w, n) = (r, s) ∧
      (Served fails n (wrapCalls rights) →
        r = .ok (true, rights.map (E.rekeyedNode user sk k kw))) ∧
      (¬Served fails n (wrapCalls rights) → LosesTokens rights r) := by
  induction rights generalizing n with
  | nil =>
    exact ⟨_, _, rfl, fun _ => rfl, fun h => absurd (fun i hi => by simp [wrapCalls] at hi) h⟩
  | cons node rights ih =>
    rw [midHermesLlBlockRotateRights, wrapCalls_cons, served_add, served_add]
    obtain ⟨r₁, n₁, h₁, hmade₁, hfail₁⟩ := run_getTokenForUser fails w hsk hpk hk node.user n
    obtain ⟨r₂, n₂, h₂, hmade₂, hfail₂⟩ := run_newWtoken fails w hsk hpk hkw node n₁
    by_cases hread : Served fails n 3
    · -- the read token is made, in three calls
      obtain ⟨rfl, rfl⟩ := hmade₁ hread
      rw [Prog.run_bind_of_ok h₁]
      by_cases hwrite : Served fails (n + 3) (if node.wtoken.isSome then 3 else 0)
      · -- so is the write token, and the failure is further down the list
        obtain ⟨rfl, rfl⟩ := hmade₂ hwrite
        obtain ⟨r, s, hrun, hall, hlost⟩ := ih (n + 3 + if node.wtoken.isSome then 3 else 0)
        rw [← Nat.add_assoc, Prog.run_bind_of_ok h₂]
        rcases r with stop | ⟨ok, rights'⟩
        · refine ⟨_, _, Prog.run_bind_of_error hrun, fun h => ?_, fun h => ?_⟩
          · cases hall h.2
          · exact hlost fun hrest => h ⟨⟨hread, hwrite⟩, hrest⟩
        · refine ⟨_, _, Prog.run_bind_of_ok hrun, fun h => ?_, fun h hok hmap => ?_⟩
          · cases hall h.2
            rfl
          · exact hlost (fun hrest => h ⟨⟨hread, hwrite⟩, hrest⟩) hok (List.cons.inj hmap).2
      · rcases hfail₂ hwrite with rfl | ⟨nwt, rfl, hne⟩
        · exact ⟨_, _, Prog.run_bind_of_error h₂, fun h => absurd h.1.2 hwrite, fun _ => rfl⟩
        · -- the write token of this node is not made, and nobody looks
          obtain ⟨r, s, hrun, hall, hlost⟩ := ih n₂
          rw [Prog.run_bind_of_ok h₂]
          rcases r with stop | ⟨ok, rights'⟩
          · refine ⟨_, _, Prog.run_bind_of_error hrun, fun h => absurd h.1.2 hwrite, fun _ => ?_⟩
            by_contra hstop
            exact hstop (hlost fun h => by cases hall h)
          · refine ⟨_, _, Prog.run_bind_of_ok hrun, fun h => absurd h.1.2 hwrite,
              fun _ _ hmap => ?_⟩
            exact hne (List.cons.inj hmap).1
    · rcases hfail₁ hread with rfl | rfl
      · -- the read token cannot be made, and the loop ends here if it comes to it
        rw [Prog.run_bind_of_ok h₁]
        rcases r₂ with stop | nwt
        · refine ⟨_, _, Prog.run_bind_of_error h₂, fun h => absurd h.1.1 hread, fun _ => ?_⟩
          by_contra hstop
          rcases hfail₂ (fun h => by cases (hmade₂ h).1) with h | ⟨_, h, -⟩
          · exact hstop (Except.error.inj h)
          · cases h
        · exact ⟨_, _, Prog.run_bind_of_ok h₂, fun h => absurd h.1.1 hread, fun _ => nofun⟩
      · exact ⟨_, _, Prog.run_bind_of_error h₁, fun h => absurd h.1.1 hread, fun _ => rfl⟩

/-! ### The rotation -/

theorem unwraps_newToken {sk : Bytes} (hpk : user.pk = E.themis.pub sk) (forUser : User)
    (k : Bytes) : E.Unwraps (E.newToken user sk forUser k) k := by
  intro sk' hsk'
  have hfor : forUser.pk = E.themis.pub sk' := hsk'
  show E.themis.unwrap sk' user.pk (E.themis.wrap sk forUser.pk k) = some k
  rw [hfor, hpk]
  exact E.themis.unwrap_wrap _ _ _

/-- The nodes of the new keys. -/
theorem nodeRotated_rekeyedNode (hpk : user.pk = E.themis.pub sk) (node : RightsListNode) :
    E.NodeRotated k kw node (E.rekeyedNode user sk k kw node) where
  user_eq := rfl
  rtoken := ⟨rfl, unwraps_newToken hpk _ _⟩
  wtoken_isSome := by
    rw [rekeyedNode]
    cases node.wtoken.isSome <;> rfl
  wtoken t ht := by
    rw [rekeyedNode] at ht
    obtain ⟨-, ht⟩ := Option.ite_none_right_eq_some.mp ht
    cases ht
    exact ⟨rfl, unwraps_newToken hpk _ _⟩

/-- Who is left without a write token has been forgotten. -/
theorem isSome_of_nodesRotated {rights rights' : List RightsListNode}
    (h : List.Forall₂ (E.NodeRotated k kw) rights rights') :
    rights'.map (fun node => node.wtoken.isSome) = rights.map fun node => node.wtoken.isSome := by
  induction h with
  | nil => rfl
  | cons hnode _ ih => rw [List.map_cons, List.map_cons, hnode.wtoken_isSome, ih]

/-- The random value that comes next may make another token than this one. -/
theorem exists_newToken_ne (E : Env) (user : User) (sk : Bytes) (t : Option Token) :
    ∃ w : World, some (E.newToken user sk user (w.rands 0).val) ≠ t := by
  by_contra hall
  push Not at hall
  have hfirst := hall (World.empty fun _ => ⟨List.replicate hmTokenLen 0, by simp⟩)
  have hsecond := hall (World.empty fun _ => ⟨List.replicate hmTokenLen 1, by simp⟩)
  have heq := congrArg Token.token (Option.some.inj (hfirst.trans hsecond.symm))
  obtain ⟨-, -, hkeys⟩ := E.themis.wrap_inj heq
  exact absurd hkeys (by decide)

/-- What the rotation of an object with two tokens does, once the keys are computed. -/
theorem run_rotate (rights : List RightsListNode) {bl : Block} {rt wt : Token}
    (hrt : bl.rtoken = some rt) (hwt : bl.wtoken = some wt) {k kw : Bytes} {blk mac : Bytes}
    {s : World × ℕ} (hsk : sk ≠ [] ∧ bl.user.sk = some sk) (hpk : bl.user.pk = E.themis.pub sk)
    (hk : k ≠ []) (hkw : kw ≠ [])
    (hkeys : (midHermesLlBlockRotateKeys bl).run (E.faulty fails) (w, 0) =
      (.ok (some (E.newToken bl.user sk bl.user k, E.newToken bl.user sk bl.user kw, blk, mac)),
        s)) : ∃ r,
      ((midHermesLlBlockRotate bl rights).run (E.faulty fails) (w, 0)).1 =
        r.map (fun x => (x.1, E.rekeyedBlock sk k kw blk mac bl, x.2)) ∧
      (Served fails s.2 (wrapCalls rights) →
        r = .ok (true, rights.map (E.rekeyedNode bl.user sk k kw))) ∧
      (¬Served fails s.2 (wrapCalls rights) → LosesTokens rights r) := by
  obtain ⟨r, s', hrun, hall, hlost⟩ := run_rotateRights fails s.1 hsk hpk hk hkw rights s.2
  refine ⟨r, ?_, hall, hlost⟩
  unfold midHermesLlBlockRotate
  simp only [hrt, hwt]
  rw [Prog.run_bind_of_ok hkeys]
  rcases r with stop | x
  · exact congrArg Prod.fst (Prog.run_bind_of_error hrun)
  · exact congrArg Prod.fst (Prog.run_bind_of_ok hrun)

/-- A rotation that does not get to its keys has gone wrong in an opening, or returns `NULL`
with everything as it was, or does not return. -/
theorem run_rotate_or {bl : Block} (rights : List RightsListNode) (w : World)
    (hsafe : ¬E.CanOverwrite fails bl) :
    E.AllOrNothing bl rights ((midHermesLlBlockRotate bl rights).run (E.faulty fails) (w, 0)).1 ∨
      ∃ rt wt x s, (bl.rtoken = some rt ∧ bl.wtoken = some wt) ∧
        (midHermesLlBlockRotateKeys bl).run (E.faulty fails) (w, 0) = (.ok (some x), s) := by
  have hkept : E.AllOrNothing bl rights (.ok (false, bl, rights)) :=
    (⟨rfl, rfl, rfl, rfl, rfl, rfl⟩ : SameTokens bl rights bl rights)
  unfold midHermesLlBlockRotate
  cases hrt : bl.rtoken with
  | none => exact Or.inl hkept
  | some rt =>
    cases hwt : bl.wtoken with
    | none => exact Or.inl hkept
    | some wt =>
      rcases hkeys : (midHermesLlBlockRotateKeys bl).run (E.faulty fails) (w, 0) with ⟨stop | x, s⟩
      · refine Or.inl ?_
        simp only [Prog.run_bind, hkeys]
        cases stop with
        | assertion => exact trivial
        | outOfFuel => exact trivial
        | undefined =>
          obtain ⟨sk, hsk, hover⟩ := rotateKeys_undefined_iff.mp (congrArg Prod.fst hkeys)
          exact hsafe ⟨⟨by rw [hrt]; rfl, by rw [hwt]; rfl⟩, sk, hsk, _, _, hover⟩
      · cases x with
        | none =>
          refine Or.inl ?_
          simp only [Prog.run_bind, hkeys]
          exact hkept
        | some x => exact Or.inr ⟨rt, wt, x, s, ⟨rfl, rfl⟩, rfl⟩

/-- **An opening that goes wrong does so before anything is undone.** -/
theorem exists_undefined {bl : Block} (rights : List RightsListNode)
    (hover : E.CanOverwrite fails bl) : ∃ w,
      ((midHermesLlBlockRotate bl rights).run (E.faulty fails) (w, 0)).1 = .error .undefined := by
  obtain ⟨⟨hrt, hwt⟩, sk, hsk, k, kw, hover⟩ := hover
  obtain ⟨rt, hrt⟩ := Option.isSome_iff_exists.mp hrt
  obtain ⟨wt, hwt⟩ := Option.isSome_iff_exists.mp hwt
  obtain ⟨w, hover⟩ := exists_rands E fails hover
  refine ⟨w, ?_⟩
  unfold midHermesLlBlockRotate
  simp only [hrt, hwt]
  exact Prog.run_bind_eq_error.mpr (Or.inl (rotateKeys_undefined_iff.mpr ⟨sk, hsk, hover⟩))

/-- **Once the keys are computed there is no way back**: if a call fails after that, the object
has changed or a write token is lost. -/
theorem exists_not_allOrNothing {bl : Block} {rights : List RightsListNode}
    (hrot : E.Rotatable bl) (hkeys : Served fails 0 10)
    (hfail : ¬Served fails 10 (wrapCalls rights)) : ∃ w, ¬E.AllOrNothing bl rights
      ((midHermesLlBlockRotate bl rights).run (E.faulty fails) (w, 0)).1 := by
  obtain ⟨hrt, hwt, ⟨sk, hne, hsk, hpk⟩, d, mt, hdata⟩ := hrot
  obtain ⟨rt, hrt⟩ := Option.isSome_iff_exists.mp hrt
  obtain ⟨wt, hwt⟩ := Option.isSome_iff_exists.mp hwt
  -- a random value that does not make the old token again
  obtain ⟨w, hw⟩ := exists_newToken_ne E bl.user sk bl.rtoken
  refine ⟨w, fun hresult => ?_⟩
  obtain ⟨r, hrun, -, hlost⟩ := run_rotate rights hrt hwt ⟨hne, hsk⟩ hpk
    (HmToken.val_ne_nil _) (HmToken.val_ne_nil _)
    (rotateKeys_eq_some.mpr ⟨sk, d, mt, ⟨⟨hne, hsk⟩, hpk⟩, hdata, hkeys, rfl, rfl⟩)
  rw [hrun] at hresult
  have hlost := hlost hfail
  rcases r with stop | ⟨_ | _, rights'⟩
  · obtain rfl : stop = .undefined := hlost
    exact hresult
  · have hsame : SameTokens bl rights (E.rekeyedBlock sk _ _ _ _ bl) rights' := hresult
    exact hw hsame.rtoken
  · obtain ⟨_, _, _, _, -, -, -, -, hnodes⟩ := hresult
    exact hlost rfl (isSome_of_nodesRotated hnodes)

/-- **When a rotation is all or nothing**: if no opening of a new token writes outside of a
buffer; and the object cannot be rotated, or one of the calls for the new keys fails, or none
of the calls for the rights list does. -/
theorem rotate_allOrNothing_iff (E : Env) (bl : Block) (rights : List RightsListNode)
    (fails : ℕ → Bool) :
    (∀ w, E.AllOrNothing bl rights
        ((midHermesLlBlockRotate bl rights).run (E.faulty fails) (w, 0)).1) ↔
      ¬E.CanOverwrite fails bl ∧
        (¬E.Rotatable bl ∨ ¬Served fails 0 10 ∨ Served fails 10 (wrapCalls rights)) := by
  constructor
  · intro hall
    refine ⟨fun hover => ?_, ?_⟩
    · obtain ⟨w, hw⟩ := exists_undefined rights hover
      have hkept := hall w
      rw [hw] at hkept
      exact hkept
    · by_contra hcond
      simp only [not_or, not_not] at hcond
      obtain ⟨hrot, hkeys, hfail⟩ := hcond
      obtain ⟨w, hw⟩ := exists_not_allOrNothing hrot hkeys hfail
      exact hw (hall w)
  · rintro ⟨hsafe, hcond⟩ w
    rcases run_rotate_or rights w hsafe with hkept | ⟨rt, wt, x, s, ⟨hrt, hwt⟩, hkeys⟩
    · exact hkept
    obtain ⟨sk, d, mt, ⟨hsk, hpk⟩, hdata, hserved, rfl, rfl⟩ := rotateKeys_eq_some.mp hkeys
    have hrot : E.Rotatable bl :=
      ⟨by rw [hrt]; rfl, by rw [hwt]; rfl, ⟨sk, hsk.1, hsk.2, hpk⟩, d, mt, hdata⟩
    have hrest : Served fails 10 (wrapCalls rights) := by tauto
    obtain ⟨r, hrun, hnodes, -⟩ := run_rotate rights hrt hwt hsk hpk
      (HmToken.val_ne_nil _) (HmToken.val_ne_nil _) hkeys
    obtain rfl := hnodes hrest
    rw [hrun]
    refine ⟨_, _, _, _, rfl, rfl, unwraps_newToken hpk _ _, unwraps_newToken hpk _ _, ?_⟩
    exact List.forall₂_map_right_iff.mpr (List.forall₂_same.mpr fun node _ =>
      nodeRotated_rekeyedNode hpk node)

/-- The object of a block of Alice, with the keys `[5]` and `[6]`. -/
def aliceObject : Block :=
  ⟨alice, some [9], some (idealThemis.encryptSeal [5] [2] [1]), some [1], some [2], none,
    some (idealThemis.hmac [6] [[1], [2]]), some (demoEnv.newToken alice [1] alice [5]),
    some (demoEnv.newToken alice [1] alice [6])⟩

/-- Bob has both keys. -/
def bobNode : RightsListNode :=
  ⟨bob, demoEnv.newToken alice [1] bob [5], some (demoEnv.newToken alice [1] bob [6])⟩

/-- Alice rotates her block. If the key of her new read token is told to be so long and then
does not come, her process writes where it must not; if the new read token for Bob cannot be
wrapped, she is given `NULL` and her object has changed; if his new write token cannot be
wrapped, she is given her object and he has none. -/
theorem rotate_not_allOrNothing :
    ¬demoEnv.AllOrNothing aliceObject [bobNode] ((midHermesLlBlockRotate aliceObject [bobNode]).run
        (demoEnv.faulty fun n => n = 5) (World.empty demoRands, 0)).1 ∧
      ¬demoEnv.AllOrNothing aliceObject [bobNode]
        ((midHermesLlBlockRotate aliceObject [bobNode]).run
          (demoEnv.faulty fun n => n = 12) (World.empty demoRands, 0)).1 ∧
      ¬demoEnv.AllOrNothing aliceObject [bobNode]
        ((midHermesLlBlockRotate aliceObject [bobNode]).run
          (demoEnv.faulty fun n => n = 15) (World.empty demoRands, 0)).1 := by
  refine ⟨fun hkept => ?_, fun hkept => ?_, fun hkept => ?_⟩
  · have hrun : ((midHermesLlBlockRotate aliceObject [bobNode]).run
        (demoEnv.faulty fun n => n = 5) (World.empty demoRands, 0)).1 = .error .undefined := rfl
    rw [hrun] at hkept
    exact hkept
  · obtain ⟨bl, rights, hrun, hne⟩ : ∃ bl rights,
        ((midHermesLlBlockRotate aliceObject [bobNode]).run
          (demoEnv.faulty fun n => n = 12) (World.empty demoRands, 0)).1 = .ok (false, bl, rights) ∧
        bl.rtoken ≠ aliceObject.rtoken := ⟨_, _, rfl, by decide +kernel⟩
    rw [hrun] at hkept
    have hsame : SameTokens aliceObject [bobNode] bl rights := hkept
    exact hne hsame.rtoken
  · obtain ⟨bl, rights, hrun, hne⟩ : ∃ bl rights,
        ((midHermesLlBlockRotate aliceObject [bobNode]).run
          (demoEnv.faulty fun n => n = 15) (World.empty demoRands, 0)).1 = .ok (true, bl, rights) ∧
        rights.map (fun node => node.wtoken.isSome) ≠ [true] := ⟨_, _, rfl, by decide +kernel⟩
    rw [hrun] at hkept
    obtain ⟨_, _, _, _, -, -, -, -, hnodes⟩ := hkept
    exact hne (isSome_of_nodesRotated hnodes)

end Env

end Hermes

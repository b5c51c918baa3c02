import Hermes.World

/-!
# Climbing to write rights

The key store server alone, over the backend of the tests, with clients that send it
whatever they like in their own names: a run is any sequence of requests
(`Hermes.ServerRuns`), and the owner a request names is the client that sends it.

The server checks that a client that sets a write token for *another* user has one itself.
It does not check anything when a client sets one for itself, not even when the block has
writers already, so every reader can make itself a writer and then remove whom it likes
(`Hermes.not_noSelfEscalation`). This is the only way up
(`Hermes.no_escalation_without_selfSet`).
-/

namespace Hermes

variable {enumerate : List Bytes → List Bytes}

/-- The state of the key store after a request, and its answer. -/
abbrev serve (enumerate : List Bytes → List Bytes) (r : KeyStoreReq) (s : KeyDb) :
    r.Answer × KeyDb :=
  serveKeyStore (testKeyStoreDb enumerate) r s

/-- Any number of requests, each of them allowed in the state in which it comes. -/
def ServerRuns (enumerate : List Bytes → List Bytes) (ok : KeyDb → KeyStoreReq → Prop) :
    KeyDb → KeyDb → Prop :=
  Relation.ReflTransGen fun s s' => ∃ r, ok s r ∧ (serve enumerate r s).2 = s'

/-- A holder of a write token for the block sets one for the user. -/
def EmpoweredBy (b u : Bytes) (s : KeyDb) : KeyStoreReq → Prop
  | .setWtoken b' u' o _ => b' = b ∧ u' = u ∧ writeToken (s.entry b o) ≠ none
  | _ => False

/-- The user, having an entry for the block, sets a write token for itself. -/
def SelfSet (b u : Bytes) (s : KeyDb) : KeyStoreReq → Prop
  | .setWtoken b' u' o t => b' = b ∧ u' = u ∧ o = u ∧ b ≠ [] ∧ u ≠ [] ∧ t ≠ [] ∧ s.entry b u ≠ none
  | _ => False

/-- The user has no write token for the block, and cannot remove anybody's token. -/
structure Powerless (enumerate : List Bytes → List Bytes) (b u : Bytes) (s : KeyDb) : Prop where
  wtoken : writeToken (s.entry b u) = none
  delRtoken : ∀ v, Reply.status (serve enumerate (.delRtoken b v u) s).1 ≠ hmSuccess
  delWtoken : ∀ v, Reply.status (serve enumerate (.delWtoken b v u) s).1 ≠ hmSuccess

/-- **No self-escalation**: from a moment at which the block has a writer and the user is
none, and as long as no writer makes the user one, the user stays powerless. -/
def NoSelfEscalation (enumerate : List Bytes → List Bytes) : Prop :=
  ∀ b u s s', ServerRuns enumerate (fun _ _ => True) (fun _ => ∅) s →
    (∃ v, writeToken (s.entry b v) ≠ none) → writeToken (s.entry b u) = none →
    ServerRuns enumerate (fun s r => ¬EmpoweredBy b u s r) s s' → Powerless enumerate b u s'

/-- Without a write token, no request to remove one is accepted. -/
theorem powerless_of_writeToken {b u : Bytes} {s : KeyDb} (h : writeToken (s.entry b u) = none) :
    Powerless enumerate b u s := by
  refine ⟨h, fun v => ?_, fun v => ?_⟩
  · show Reply.status (hmKeyStoreDelRtoken (testKeyStoreDb enumerate) b v u s).1 ≠ hmSuccess
    rw [hmKeyStoreDelRtoken_eq]
    split_ifs with hne hno
    · exact Failure.invalidParameter.2
    · exact Failure.fail.2
    · exact absurd (Or.inl h) hno
  · show Reply.status (hmKeyStoreDelWtoken (testKeyStoreDb enumerate) b v u s).1 ≠ hmSuccess
    rw [hmKeyStoreDelWtoken_eq]
    split_ifs with hne
    · exact Failure.invalidParameter.2
    · exact Failure.fail.2

/-- **The step lemma**: a request gives the user a write token only if a writer sets it, or
the user itself. -/
theorem writeToken_serve {b u : Bytes} {s : KeyDb} (r : KeyStoreReq)
    (h : writeToken (s.entry b u) = none) (hemp : ¬EmpoweredBy b u s r) (hself : ¬SelfSet b u s r) :
    writeToken ((serve enumerate r s).2.entry b u) = none := by
  rcases entry_serveKeyStore_cases enumerate r s b u with heq | ⟨o, t, -, -, -, heq⟩ |
    ⟨o, t, e, hr, ⟨hb, hu, -, ht⟩, hown, he, -⟩ | ⟨o, -, -, heq⟩ | ⟨o, e, -, -, -, heq⟩
  · rw [heq]
    exact h
  · rw [heq]
    exact h
  · -- a token is set for the user, so one of the two exceptions applies
    obtain rfl := congrArg Sigma.fst hr
    rcases hown with rfl | hown
    · exact absurd ⟨rfl, rfl, rfl, hb, hu, ht, by simp [he]⟩ hself
    · exact absurd ⟨rfl, rfl, hown⟩ hemp
  · rw [heq]
    rfl
  · rw [heq]
    rfl

/-- A user that sets a write token for itself has one then, whoever the writers are. -/
theorem writeToken_of_selfSet {b u : Bytes} {s : KeyDb} {r : KeyStoreReq} (h : SelfSet b u s r) :
    writeToken ((serve enumerate r s).2.entry b u) ≠ none := by
  cases r with
  | setWtoken b' u' o t =>
    obtain ⟨rfl, rfl, rfl, hb, hu, ht, he⟩ := h
    show writeToken
      ((hmKeyStoreSetWtoken (testKeyStoreDb enumerate) b' o o t s).2.entry b' o) ≠ none
    obtain ⟨e, he⟩ := Option.ne_none_iff_exists'.mp he
    rw [hmKeyStoreSetWtoken_eq, if_neg (by tauto), if_neg (by simp), he]
    simp [KeyDb.entry_setEntry, writeToken]
  | _ => exact h.elim

/-- **Setting one's own write token is the only way up.** In a run in which no writer sets a
write token for the user, and the user sets none for itself while it has an entry, it
stays powerless. -/
theorem no_escalation_without_selfSet {b u : Bytes} {s s' : KeyDb}
    (hu : writeToken (s.entry b u) = none)
    (hrun : ServerRuns enumerate (fun s r => ¬EmpoweredBy b u s r ∧ ¬SelfSet b u s r) s s') :
    Powerless enumerate b u s' := by
  refine powerless_of_writeToken ?_
  induction hrun with
  | refl => exact hu
  | tail _ hstep ih =>
    obtain ⟨r, ⟨hemp, hself⟩, rfl⟩ := hstep
    exact writeToken_serve r ih hemp hself

/-! ### A reader that makes itself a writer -/

/-- User `[1]` owns block `[9]`, and has let user `[2]` read it. -/
def readerState : KeyDb :=
  [KeyStoreReq.setRtoken [9] [1] [1] [7], .setWtoken [9] [1] [1] [7], .setRtoken [9] [2] [1] [7]].foldl
    (fun s r => (serve id r s).2) fun _ => ∅

theorem serverRuns_readerState : ServerRuns id (fun _ _ => True) (fun _ => ∅) readerState :=
  ((Relation.ReflTransGen.single ⟨_, trivial, rfl⟩).tail ⟨_, trivial, rfl⟩).tail ⟨_, trivial, rfl⟩

/-- **A reader can climb**: it sets a write token for itself, and is a writer. -/
theorem not_noSelfEscalation : ¬NoSelfEscalation id := by
  intro h
  have hempty : writeToken ((serve id (.setWtoken [9] [2] [2] [7]) readerState).2.entry [9] [2]) =
      none := by
    refine (h [9] [2] readerState _ serverRuns_readerState ⟨[1], by decide⟩ (by decide)
      (.single ⟨.setWtoken [9] [2] [2] [7], ?_, rfl⟩)).wtoken
    exact fun hemp => hemp.2.2 (by decide)
  exact absurd hempty (by decide)

/-- A reader that grants reading, and asks for the removal of the owner, is still
powerless. -/
theorem no_escalation_without_selfSet_reader :
    Powerless id [9] [2] (serve id (.delRtoken [9] [1] [2])
      (serve id (.setRtoken [9] [3] [2] [7]) readerState).2).2 :=
  no_escalation_without_selfSet (s := readerState) (by decide)
    ((Relation.ReflTransGen.single ⟨_, ⟨id, id⟩, rfl⟩).tail ⟨_, ⟨id, id⟩, rfl⟩)

end Hermes

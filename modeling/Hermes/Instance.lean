import Hermes.System

/-!
# An environment to run Hermes in

A concrete environment, `Hermes.demoEnv`, for the runs that show that a hypothesis can be met
or that a claim fails. Its cryptography is `Hermes.idealThemis`, in which every law holds by
computation because nothing is hidden in it; every non-empty id is registered, and the private
key of a user is its id; the data store makes up ids that are longer than all it has
(`Hermes.longerIds`), and the key store lists the users of a block in the order in which they
came.

All of it evaluates. The pool after a schedule (`Hermes.demoPlay`) is computed by the kernel, so
a run is given by the moves that make it: a call starts, or a thread is answered its next
request. `Interleave.Move.oneByOne` makes calls one after the other, with so many moves for each
of them, and moves of a thread that has returned change nothing; so it takes no more than a
number that is large enough. Where calls overlap the moves are counted out, and it is the
docstring of the schedule that says where each call is when the next one begins.

The users are Alice, Bob and Carol, with the ids `[1]`, `[2]` and `[3]`. In most runs Alice owns
a block `[9]` that Bob may read and update (`Hermes.sharedWithBob`, `Hermes.sharing`). An attack
on secrets cannot be shown here, for a cell shows its key to everybody: such runs have an
environment of their own, `Hermes.taggedEnv`, in which messages of different kinds are told
apart.
-/

namespace Hermes

open Interleave

/-- An id that is longer than all ids in use. -/
def longerId (ids : List Bytes) : Bytes :=
  List.replicate (ids.foldr (fun id n => max id.length n) 0 + 1) 0

theorem length_le_foldr {ids : List Bytes} {id : Bytes} (h : id ∈ ids) :
    id.length ≤ ids.foldr (fun id n => max id.length n) 0 := by
  induction ids with
  | nil => simp at h
  | cons id' ids ih =>
    rcases List.mem_cons.mp h with rfl | h
    · exact le_max_left _ _
    · exact (ih h).trans (le_max_right _ _)

/-- A data store that makes up ids by their lengths. -/
def longerIds : IdSource where
  pick _ ids := longerId ids
  pick_notMem _ ids h := by
    have hle := length_le_foldr h
    rw [longerId, List.length_replicate] at hle
    omega
  pick_ne_nil _ ids := by simp [longerId]

/-- The environment: any backend will do that lists each user once, so it lists them as they
are. -/
def demoEnv : Env where
  themis := idealThemis
  enumerate := id
  enumerate_perm := List.Perm.refl
  ids := longerIds
  credentials id := some (idealThemis.pub id)

/-- The user of an id, in its own process. -/
def demoUser (id : Bytes) (h : id ≠ []) : User :=
  ⟨id, idealThemis.pub id, some id, h, idealThemis.pub_ne_nil id⟩

theorem registered_demoUser (id : Bytes) (h : id ≠ []) : demoEnv.Registered (demoUser id h) :=
  ⟨rfl, id, h, rfl, rfl⟩

theorem alice_id_ne_nil : ([1] : Bytes) ≠ [] := List.cons_ne_nil 1 []

theorem bob_id_ne_nil : ([2] : Bytes) ≠ [] := List.cons_ne_nil 2 []

/-- A user, to make calls. -/
def alice : User := demoUser [1] alice_id_ne_nil

/-- Another user. -/
def bob : User := demoUser [2] bob_id_ne_nil

/-- A third user. -/
def carol : User := demoUser [3] (by decide)

theorem registered_alice : demoEnv.Registered alice := registered_demoUser _ _

theorem registered_bob : demoEnv.Registered bob := registered_demoUser _ _

theorem registered_carol : demoEnv.Registered carol := registered_demoUser _ _

/-- Alice creates a block and lets Bob read and update it. -/
def sharedWithBob (b : Bytes) : List Call :=
  [⟨alice, .createBlock (some b) [1] [2]⟩, ⟨alice, .grantReadAccess b bob.id⟩,
    ⟨alice, .grantUpdateAccess b bob.id⟩]

theorem registered_sharedWithBob {b : Bytes} : ∀ c ∈ sharedWithBob b,
    demoEnv.Registered c.user := by
  simp [sharedWithBob, registered_alice]

/-- Random values: the first 256 of them differ. -/
def demoRands (n : ℕ) : HmToken := ⟨List.replicate hmTokenLen (UInt8.ofNat n), by simp⟩

/-- The pool after a schedule, in this environment. -/
def demoPlay (ms : List (Move Call)) : Clients := demoEnv.play demoRands 8 ms

/-- The pool in which Alice has shared a block with Bob. -/
def sharing : Clients := demoPlay (Move.oneByOne 16 (sharedWithBob [9]) 0)

theorem reachable_sharing : demoEnv.Reachable (fun _ => True) sharing := by
  refine Env.reachable_play fun c hc => ?_
  rw [Move.starts_oneByOne] at hc
  exact ⟨registered_sharedWithBob c hc, trivial⟩

end Hermes

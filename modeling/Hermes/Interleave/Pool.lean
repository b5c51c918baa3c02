import Mathlib.Logic.Relation
import Hermes.Interleave.Prog

/-!
# Pools of clients and their interleavings

A *pool* is a shared state together with the threads that act on it: one thread for
every call that was ever started, with its own history and with what is left of its
program. A step starts a thread or answers the pending request of one, so that a run is
any interleaving of the requests of any number of calls, each request being atomic.

Threads stay in the pool when they have finished. The histories of a pool are therefore
everything that has happened so far, and “earlier” facts are membership in a history.

The rules of the file are

* `Interleave.System.Runs.invariant`: what holds at first and is kept by each step holds
  of every pool reached;
* `Interleave.System.Runs.threads`: so does what holds of each thread by itself;
* `Interleave.System.runsWithin_of_run`: a call executed alone is one of the runs.
-/

namespace Interleave

/-- A call in a pool: what was called, the exchanges it has had so far (most recent
first), and what is left of its program. -/
structure Thread (R : Type) (A : R → Type) (C V : Type) where
  /-- The call. -/
  call : C
  /-- Its exchanges, the most recent first. -/
  hist : List (Event A)
  /-- What is left to do. -/
  prog : Prog R A V

/-- A shared state and the threads acting on it. -/
structure Pool (σ R : Type) (A : R → Type) (C V : Type) where
  /-- The shared state. -/
  state : σ
  /-- All threads ever started, in the order of their start. -/
  threads : List (Thread R A C V)

variable {σ R : Type} {A : R → Type} {C V : Type}

/-- A thread that has asked, and will ask, only what is justified. -/
def Thread.Accounts (G : Event A → Prop) (J : C → List (Event A) → R → Prop)
    (Q : C → List (Event A) → V → Prop) (t : Thread R A C V) : Prop :=
  Prog.Accounted G (J t.call) t.hist ∧ t.prog.Within G (J t.call) (Q t.call) t.hist

/-- A thread in progress. -/
def Thread.Live (t : Thread R A C V) : Prop := ¬t.prog.Finished

instance (t : Thread R A C V) : Decidable t.Live := inferInstanceAs (Decidable (¬t.prog.Finished))

/-- The pool with one more thread. -/
def Pool.spawn (P : Pool σ R A C V) (c : C) (p : Prog R A V) : Pool σ R A C V :=
  ⟨P.state, P.threads ++ [⟨c, [], p⟩]⟩

/-- The pool once the request of thread `i` has been answered. -/
def Pool.answered (P : Pool σ R A C V) (i : ℕ) (t : Thread R A C V) (s : σ) :
    Pool σ R A C V :=
  ⟨s, P.threads.set i t⟩

/-- Every thread of the pool has finished. -/
def Pool.Quiescent (P : Pool σ R A C V) : Prop := ∀ t ∈ P.threads, t.prog.Finished

instance (P : Pool σ R A C V) : Decidable P.Quiescent :=
  inferInstanceAs (Decidable (∀ t ∈ P.threads, t.prog.Finished))

/-- What can be started, and how a request may be answered in a pool. -/
structure System (σ R : Type) (A : R → Type) (C V : Type) where
  /-- The programs a call may run. -/
  starts : C → Prog R A V → Prop
  /-- The answers a request may get, each with the state it leaves. -/
  answer : Pool σ R A C V → (r : R) → A r → σ → Prop

namespace System

variable (S : System σ R A C V)

/-- One step of a pool. -/
inductive Step : Pool σ R A C V → Pool σ R A C V → Prop
  /-- A call is started. -/
  | start {P : Pool σ R A C V} {c : C} {p : Prog R A V} (h : S.starts c p) :
      Step P (P.spawn c p)
  /-- The pending request of a thread is answered. -/
  | request {P : Pool σ R A C V} {i : ℕ} {c : C} {h : List (Event A)} {r : R}
      {k : A r → Prog R A V} {a : A r} {s : σ}
      (hi : P.threads[i]? = some ⟨c, h, .req r k⟩) (ha : S.answer P r a s) :
      Step P (P.answered i ⟨c, ⟨r, a⟩ :: h, k a⟩ s)

/-- Any number of steps, all of which lead to a pool satisfying `Ok`. -/
def RunsWithin (Ok : Pool σ R A C V → Prop) :
    Pool σ R A C V → Pool σ R A C V → Prop :=
  Relation.ReflTransGen fun P P' => S.Step P P' ∧ Ok P'

/-- Any number of steps. -/
abbrev Runs : Pool σ R A C V → Pool σ R A C V → Prop := Relation.ReflTransGen S.Step

variable {S} {Ok Ok' : Pool σ R A C V → Prop} {P P' : Pool σ R A C V}

theorem RunsWithin.runs (h : S.RunsWithin Ok P P') : S.Runs P P' :=
  Relation.ReflTransGen.mono (fun _ _ hs => hs.1) _ _ h

theorem RunsWithin.mono (h : S.RunsWithin Ok P P') (hOk : ∀ P, Ok P → Ok' P) :
    S.RunsWithin Ok' P P' :=
  Relation.ReflTransGen.mono (fun _ _ hs => ⟨hs.1, hOk _ hs.2⟩) _ _ h

/-- **The invariant rule.** -/
theorem RunsWithin.invariant {I : Pool σ R A C V → Prop} (h : S.RunsWithin Ok P P') (h0 : I P)
    (hstep : ∀ P P', I P → S.Step P P' → Ok P' → I P') : I P' := by
  induction h with
  | refl => exact h0
  | tail _ hs ih => exact hstep _ _ ih hs.1 hs.2

/-- **The invariant rule**, for runs without a side condition. -/
theorem Runs.invariant {I : Pool σ R A C V → Prop} (h : S.Runs P P') (h0 : I P)
    (hstep : ∀ P P', I P → S.Step P P' → I P') : I P' := by
  induction h with
  | refl => exact h0
  | tail _ hs ih => exact hstep _ _ ih hs

/-! ### The threads after a step -/

theorem mem_spawn {c : C} {p : Prog R A V} {t : Thread R A C V} :
    t ∈ (P.spawn c p).threads ↔ t ∈ P.threads ∨ t = ⟨c, [], p⟩ := by
  simp [Pool.spawn]

/-- A thread after a step of thread `i` is either the one that moved or another one,
unchanged. -/
theorem mem_answered {i : ℕ} {t u : Thread R A C V} {s : σ}
    (hu : u ∈ (P.answered i t s).threads) : u = t ∨ u ∈ P.threads := by
  rcases List.mem_or_eq_of_mem_set hu with h | h
  · exact Or.inr h
  · exact Or.inl h

/-- The same, by index. -/
theorem of_getElem?_answered {i j : ℕ} {t u : Thread R A C V} {s : σ}
    (hu : (P.answered i t s).threads[j]? = some u) :
    (j = i ∧ u = t) ∨ (j ≠ i ∧ P.threads[j]? = some u) := by
  rcases eq_or_ne j i with rfl | hne
  · refine Or.inl ⟨rfl, ?_⟩
    have hlt : j < P.threads.length := by
      simpa [Pool.answered] using (List.getElem?_eq_some_iff.mp hu).1
    simpa [Pool.answered, List.getElem?_set_self hlt] using hu.symm
  · exact Or.inr ⟨hne, by simpa [Pool.answered, List.getElem?_set_ne hne.symm] using hu⟩

/-- A thread after a start is an old one or the new one. -/
theorem of_getElem?_spawn {j : ℕ} {c : C} {p : Prog R A V} {u : Thread R A C V}
    (hu : (P.spawn c p).threads[j]? = some u) :
    P.threads[j]? = some u ∨ (j = P.threads.length ∧ u = ⟨c, [], p⟩) := by
  rw [Pool.spawn, List.getElem?_append] at hu
  split_ifs at hu with hlt
  · exact Or.inl hu
  · refine Or.inr ?_
    obtain ⟨h0, rfl⟩ := List.getElem?_eq_some_iff.mp hu
    have h1 : j - P.threads.length < 1 := h0
    refine ⟨by omega, ?_⟩
    simp

theorem answered_getElem?_of_ne {i j : ℕ} {t : Thread R A C V} {s : σ} (h : i ≠ j) :
    (P.answered i t s).threads[j]? = P.threads[j]? := by
  simp [Pool.answered, List.getElem?_set_ne h]

/-- Putting a thread back where it was changes nothing. -/
theorem answered_self {i : ℕ} {t : Thread R A C V} (h : P.threads[i]? = some t) :
    P.answered i t P.state = P := by
  obtain ⟨hlt, rfl⟩ := List.getElem?_eq_some_iff.mp h
  simp [Pool.answered]

theorem answered_getElem?_self {i : ℕ} {t u : Thread R A C V} {s : σ}
    (h : P.threads[i]? = some u) : (P.answered i t s).threads[i]? = some t := by
  have hlt : i < P.threads.length := (List.getElem?_eq_some_iff.mp h).1
  simp [Pool.answered, List.getElem?_set_self hlt]

/-- **Nothing is forgotten.** A thread of a pool is still there after a step, for the
same call, with a history that extends the one it had. -/
theorem Step.thread_grows (h : S.Step P P') {i : ℕ} {t : Thread R A C V}
    (ht : P.threads[i]? = some t) :
    ∃ t', P'.threads[i]? = some t' ∧ t'.call = t.call ∧ t.hist <:+ t'.hist := by
  cases h with
  | start _ =>
    have hlt : i < P.threads.length := (List.getElem?_eq_some_iff.mp ht).1
    exact ⟨t, by simp [Pool.spawn, List.getElem?_append_left hlt, ht], rfl, List.suffix_refl _⟩
  | @request j c hist r k a s hj ha =>
    rcases eq_or_ne j i with rfl | hne
    · obtain rfl : (⟨c, hist, .req r k⟩ : Thread R A C V) = t := Option.some.inj (hj.symm.trans ht)
      exact ⟨_, answered_getElem?_self hj, rfl, List.suffix_cons _ _⟩
    · exact ⟨t, by rw [answered_getElem?_of_ne hne, ht], rfl, List.suffix_refl _⟩

/-- In a step, the call of index `i` returns. -/
structure Returns (S : System σ R A C V) (P P' : Pool σ R A C V) (i : ℕ) (c : C) (v : V) : Prop where
  step : S.Step P P'
  pending : ∃ t, P.threads[i]? = some t ∧ t.prog.value? = none
  returned : ∃ h, P'.threads[i]? = some ⟨c, h, .ret v⟩

/-- A call returns in the step in which its last request is answered. -/
theorem Returns.request {i : ℕ} {c : C} {v : V} (hr : S.Returns P P' i c v) :
    ∃ h r k a s, P.threads[i]? = some ⟨c, h, .req r k⟩ ∧ k a = .ret v ∧ S.answer P r a s ∧
      P' = P.answered i ⟨c, ⟨r, a⟩ :: h, k a⟩ s := by
  obtain ⟨hs, ⟨t, ht, hpend⟩, h', hret⟩ := hr
  cases hs with
  | start _ =>
    -- the thread was there before, unchanged
    have hlt : i < P.threads.length := (List.getElem?_eq_some_iff.mp ht).1
    rw [Pool.spawn, List.getElem?_append_left hlt, ht] at hret
    cases hret
    cases hpend
  | @request j c' h r k a s hj ha =>
    rcases of_getElem?_answered hret with ⟨rfl, heq⟩ | ⟨-, hold⟩
    · simp only [Thread.mk.injEq] at heq
      obtain ⟨rfl, -, hk⟩ := heq
      exact ⟨h, r, k, a, s, hj, hk.symm, ha, rfl⟩
    · rw [ht] at hold
      cases hold
      cases hpend

/-! ### What holds of every thread -/

/-- **The invariant rule for threads.** What holds of every thread that starts, and survives the
answer to its request, holds of all threads of a pool. -/
theorem Runs.threads {T : Thread R A C V → Prop} (hrun : S.Runs P P')
    (hS : ∀ c p, S.starts c p → T ⟨c, [], p⟩)
    (hA : ∀ P c h r k a s, S.answer P r a s → T ⟨c, h, .req r k⟩ → T ⟨c, ⟨r, a⟩ :: h, k a⟩)
    (h0 : ∀ t ∈ P.threads, T t) : ∀ t ∈ P'.threads, T t := by
  refine Runs.invariant (I := fun P => ∀ t ∈ P.threads, T t) hrun h0 ?_
  rintro P P' hP hs t ht
  cases hs with
  | start hc =>
    rcases mem_spawn.mp ht with ht | rfl
    · exact hP t ht
    · exact hS _ _ hc
  | @request i c h r k a s hi ha =>
    rcases mem_answered ht with rfl | ht
    · exact hA _ _ _ _ _ _ _ ha (hP _ (List.mem_of_getElem? hi))
    · exact hP t ht

/-! ### A call executed alone -/

/-- What is left of a program once it has been run. -/
def residue : Except Stop V → Prog R A V
  | .ok v => .ret v
  | .error w => .stop w

/-- **A call executed alone is a run**: the steps of one thread, with no other step in
between. -/
theorem runsWithin_of_run {handle : σ → (r : R) → A r × σ}
    (hA : ∀ P r, S.answer P r (handle P.state r).1 (handle P.state r).2)
    {p : Prog R A V} {i : ℕ} {c : C} {h : List (Event A)} {P : Pool σ R A C V}
    (hi : P.threads[i]? = some ⟨c, h, p⟩)
    (hOk : ∀ h' p' s', Ok (P.answered i ⟨c, h', p'⟩ s')) :
    S.RunsWithin Ok P (P.answered i
      ⟨c, p.events handle P.state h, residue (p.run handle P.state).1⟩
      (p.run handle P.state).2) := by
  induction p generalizing P h with
  | ret v =>
    rw [Prog.run_ret, Prog.events_ret, residue, answered_self hi]
    exact .refl
  | stop w =>
    rw [Prog.run_stop, Prog.events_stop, residue, answered_self hi]
    exact .refl
  | req r k ih =>
    have hstep := Step.request hi (hA P r)
    refine Relation.ReflTransGen.head ⟨hstep, hOk _ _ _⟩ ?_
    have hrest := ih (handle P.state r).1 (P := P.answered i
      ⟨c, ⟨r, (handle P.state r).1⟩ :: h, k (handle P.state r).1⟩ (handle P.state r).2)
      (answered_getElem?_self hi) (fun h' p' s' => ?_)
    · show S.RunsWithin Ok _ _
      simpa [Pool.answered] using hrest
    · simpa [Pool.answered] using hOk h' p' s'

end System

/-! ### Playing a schedule -/

/-- One move of a schedule: start a call, or let a thread have its pending request
answered. -/
inductive Move (C : Type) where
  /-- Start a call. -/
  | start (c : C) : Move C
  /-- Answer the pending request of the thread of this index, if it has one. -/
  | step (i : ℕ) : Move C

/-- The pool after one move. -/
def Pool.move (handle : σ → (r : R) → A r × σ) (prog : C → Prog R A V)
    (P : Pool σ R A C V) : Move C → Pool σ R A C V
  | .start c => P.spawn c (prog c)
  | .step i =>
    match P.threads[i]? with
    | some ⟨c, h, .req r k⟩ =>
      P.answered i ⟨c, ⟨r, (handle P.state r).1⟩ :: h, k (handle P.state r).1⟩ (handle P.state r).2
    | _ => P

/-- The pool after a schedule. -/
def Pool.play (handle : σ → (r : R) → A r × σ) (prog : C → Prog R A V)
    (P : Pool σ R A C V) (ms : List (Move C)) : Pool σ R A C V :=
  ms.foldl (Pool.move handle prog) P

/-- All pools of a schedule pass a test. -/
def Pool.playsWithin (handle : σ → (r : R) → A r × σ) (prog : C → Prog R A V)
    (ok : Pool σ R A C V → Bool) (P : Pool σ R A C V) : List (Move C) → Bool
  | [] => true
  | m :: ms => ok (P.move handle prog m) && (P.move handle prog m).playsWithin handle prog ok ms

/-- One call after the other: each is started and given `n` moves. -/
def Move.oneByOne (n : ℕ) (cs : List C) (i : ℕ) : List (Move C) :=
  match cs with
  | [] => []
  | c :: cs => .start c :: (List.replicate n (.step i) ++ Move.oneByOne n cs (i + 1))

/-- All calls at the same time: they are started, and then they take turns for `n` rounds. -/
def Move.inTurns (n : ℕ) (cs : List C) (i : ℕ) : List (Move C) :=
  cs.map .start ++
    (List.replicate n ((List.range cs.length).map fun j => Move.step (i + j))).flatten

/-- The calls a schedule starts. -/
def Move.starts (ms : List (Move C)) : List C :=
  ms.filterMap fun | .start c => some c | .step _ => none

@[simp] theorem Move.starts_append (ms ms' : List (Move C)) :
    Move.starts (ms ++ ms') = Move.starts ms ++ Move.starts ms' := List.filterMap_append

@[simp] theorem Move.starts_start (c : C) (ms : List (Move C)) :
    Move.starts (.start c :: ms) = c :: Move.starts ms := rfl

@[simp] theorem Move.starts_step (i : ℕ) (ms : List (Move C)) :
    Move.starts (.step i :: ms) = Move.starts ms := rfl

@[simp] theorem Move.starts_nil : Move.starts ([] : List (Move C)) = [] := rfl

@[simp] theorem Move.starts_replicate (n i : ℕ) :
    Move.starts (List.replicate n (.step i) : List (Move C)) = [] := by
  induction n with
  | zero => rfl
  | succ n ih => exact ih

@[simp] theorem Move.starts_oneByOne (n : ℕ) (cs : List C) (i : ℕ) :
    Move.starts (Move.oneByOne n cs i) = cs := by
  induction cs generalizing i with
  | nil => rfl
  | cons c cs ih => simp [Move.oneByOne, ih]

@[simp] theorem Move.starts_inTurns (n : ℕ) (cs : List C) (i : ℕ) :
    Move.starts (Move.inTurns n cs i) = cs := by
  have hstarts : Move.starts (cs.map .start) = cs := by
    rw [Move.starts, List.filterMap_map]
    exact List.filterMap_some
  have hsteps : Move.starts (List.replicate n
      ((List.range cs.length).map fun j => (Move.step (i + j) : Move C))).flatten = [] := by
    refine List.filterMap_eq_nil_iff.mpr fun m hm => ?_
    obtain ⟨l, hl, hm⟩ := List.mem_flatten.mp hm
    rw [List.eq_of_mem_replicate hl] at hm
    obtain ⟨j, -, rfl⟩ := List.mem_map.mp hm
    rfl
  rw [Move.inTurns, Move.starts_append, hstarts, hsteps, List.append_nil]

namespace System

variable {S : System σ R A C V}

/-- A move plays a step, or nothing. -/
theorem move_runs {handle : σ → (r : R) → A r × σ} {prog : C → Prog R A V}
    (hA : ∀ P r, S.answer P r (handle P.state r).1 (handle P.state r).2) (m : Move C)
    (hS : ∀ c, m = .start c → S.starts c (prog c)) (P : Pool σ R A C V) :
    S.Step P (P.move handle prog m) ∨ P.move handle prog m = P := by
  cases m with
  | start c => exact Or.inl (.start (hS c rfl))
  | step i =>
    simp only [Pool.move]
    split
    · next c h r k hi => exact Or.inl (.request hi (hA P r))
    · exact Or.inr rfl

theorem starts_of_mem {m : Move C} {ms : List (Move C)} {starts : C → Prop}
    (h : ∀ c ∈ Move.starts ms, starts c) (hm : m ∈ ms) (c : C) (hc : m = .start c) : starts c :=
  h c (List.mem_filterMap.mpr ⟨m, hm, by rw [hc]⟩)

/-- **A schedule plays a run**, within a condition that was tested along the schedule. -/
theorem runsWithin_play {handle : σ → (r : R) → A r × σ} {prog : C → Prog R A V}
    {Ok : Pool σ R A C V → Prop} {ok : Pool σ R A C V → Bool} (hok : ∀ P, ok P = true → Ok P)
    (hA : ∀ P r, S.answer P r (handle P.state r).1 (handle P.state r).2)
    (ms : List (Move C)) (hS : ∀ c ∈ Move.starts ms, S.starts c (prog c))
    (P : Pool σ R A C V) (h : P.playsWithin handle prog ok ms = true) :
    S.RunsWithin Ok P (P.play handle prog ms) := by
  have hm := fun m => starts_of_mem (m := m) hS
  induction ms generalizing P with
  | nil => exact Relation.ReflTransGen.refl
  | cons m ms ih =>
    obtain ⟨hhere, hlater⟩ : ok (P.move handle prog m) = true ∧
        (P.move handle prog m).playsWithin handle prog ok ms = true := by
      simpa [Pool.playsWithin] using h
    have hrest := ih (fun c hc => hS c (by cases m <;> simp [hc]))
      (P.move handle prog m) hlater (fun m' hm' => hm m' (List.mem_cons_of_mem _ hm'))
    rcases move_runs hA m (hm m List.mem_cons_self) P with hs | heq
    · exact Relation.ReflTransGen.head ⟨hs, hok _ hhere⟩ hrest
    · rw [heq] at hrest
      show S.RunsWithin Ok P ((P.move handle prog m).play handle prog ms)
      rwa [heq]

/-- **A schedule plays a run.** -/
theorem runs_play {handle : σ → (r : R) → A r × σ} {prog : C → Prog R A V}
    (hA : ∀ P r, S.answer P r (handle P.state r).1 (handle P.state r).2)
    (ms : List (Move C)) (hS : ∀ c ∈ Move.starts ms, S.starts c (prog c))
    (P : Pool σ R A C V) : S.Runs P (P.play handle prog ms) := by
  have htest : P.playsWithin handle prog (fun _ => true) ms = true := by
    induction ms generalizing P with
    | nil => rfl
    | cons m ms ih =>
      rw [Pool.playsWithin, Bool.true_and]
      exact ih (fun c hc => hS c (by cases m <;> simp [hc])) _
  have hrun : S.RunsWithin (fun _ => True) P (P.play handle prog ms) :=
    runsWithin_play (fun _ _ => trivial) hA ms hS P htest
  exact hrun.runs

/-- A move that ends a call is a step in which it returns. -/
theorem returns_move [DecidableEq C] [DecidableEq V] {handle : σ → (r : R) → A r × σ}
    {prog : C → Prog R A V} (hA : ∀ P r, S.answer P r (handle P.state r).1 (handle P.state r).2)
    {i : ℕ} {c : C} {v : V} {P : Pool σ R A C V}
    (hpend : P.threads[i]?.any (fun t => !decide t.prog.Finished) = true)
    (hret : (P.move handle prog (.step i)).threads[i]?.any
      (fun t => t.call = c ∧ t.prog.value? = some v) = true) :
    S.Returns P (P.move handle prog (.step i)) i c v := by
  obtain ⟨⟨c₀, h, p⟩, ht, hp⟩ := Option.any_eq_true _ _ |>.mp hpend
  obtain ⟨⟨c₁, h', p'⟩, ht', hp'⟩ := Option.any_eq_true _ _ |>.mp hret
  obtain ⟨rfl, hv⟩ : c₁ = c ∧ p'.value? = some v := by simpa using hp'
  obtain rfl := Prog.value?_eq_some.mp hv
  have hp : ¬p.Finished := of_decide_eq_false (by simpa using hp)
  cases p with
  | ret a => exact absurd trivial hp
  | stop w =>
    -- such a thread does not move
    simp only [Pool.move, ht, Option.some.injEq, Thread.mk.injEq] at ht'
    exact absurd ht'.2.2 (by simp)
  | req r k =>
    refine ⟨?_, ⟨_, ht, rfl⟩, h', ht'⟩
    rw [Pool.move, ht]
    exact .request ht (hA P r)

end System

end Interleave

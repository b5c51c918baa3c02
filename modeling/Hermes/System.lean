import Hermes.Provenance.Operations

/-!
# Clients at work

Any number of honest clients acting on the stores at once. A pool (`Interleave.Pool`) of
calls starts from empty stores (`Hermes.Env.Reachable`); a step starts a call, of a
registered user, or answers one request of a call in progress, as the fault-free stores
and ideal cryptography do (`Hermes.Env.honest`).

Of the threads of such a pool everything below needs only
`Hermes.Env.honest_threads`: each has asked what its call may ask and nothing else
(`Hermes.Env.Honest`), which is what `Hermes.asks_prog` gives. So an invariant of a run is
checked against the justifications of single requests
(`Hermes.Env.honest_invariant`), and never against the programs.
-/

namespace Hermes

open Interleave

/-- A pool of calls on the shared stores. -/
abbrev Clients := Pool World Req Req.Answer Call Result

/-- A call in a pool. -/
abbrev ClientThread := Thread Req Req.Answer Call Result

/-- All threads of a pool are still there, with longer histories. -/
def Extends (P P' : Clients) : Prop :=
  ∀ t ∈ P.threads, ∃ t' ∈ P'.threads, t'.call = t.call ∧ t.hist <:+ t'.hist

theorem extends_of_step {S : System World Req Req.Answer Call Result} {P P' : Clients}
    (hs : S.Step P P') : Extends P P' := by
  intro t ht
  obtain ⟨i, hi⟩ := List.getElem?_of_mem ht
  obtain ⟨t', hi', hcall, hsuf⟩ := hs.thread_grows hi
  exact ⟨t', List.mem_of_getElem? hi', hcall, hsuf⟩

namespace Env

variable (E : Env) (allowed : Call → Prop)

/-- Calls of registered users, on fault-free stores. -/
def honest : System World Req Req.Answer Call Result where
  starts c p := (E.Registered c.user ∧ allowed c) ∧ ∃ fuel, p = c.prog fuel
  answer P r a w := (a, w) = E.handle P.state r

/-- The pools that such calls reach from empty stores. -/
def Reachable (P : Clients) : Prop :=
  ∃ rands, (E.honest allowed).Runs ⟨World.empty rands, []⟩ P

/-- A call of a registered user that has asked, and will ask, only what is justified. -/
structure Honest (t : ClientThread) : Prop where
  registered : E.Registered t.call.user
  allowed : allowed t.call
  accounts : t.Accounts E.Sound E.Justified E.Returned

variable {E allowed}

/-- What is left of an honest call. -/
theorem Honest.asks {t : ClientThread} (ht : E.Honest allowed t) :
    E.Asks t.call t.prog t.hist (E.Returned t.call) :=
  ht.accounts.2

/-- The pending request of an honest call is justified. -/
theorem Honest.justified {c : Call} {h : Hist} {r : Req} {k : r.Answer → Client Result}
    (ht : E.Honest allowed ⟨c, h, .req r k⟩) : E.Justified c h r :=
  ht.asks.1

/-- A call that starts is honest. -/
theorem honest_start {c : Call} (hreg : E.Registered c.user) (hc : allowed c) (fuel : ℕ) :
    E.Honest allowed ⟨c, [], c.prog fuel⟩ :=
  ⟨hreg, hc, trivial, asks_prog hreg fuel⟩

/-- An honest call stays so when it is answered something that is not wrong. -/
theorem Honest.answered {c : Call} {h : Hist} {r : Req} {k : r.Answer → Client Result}
    (ht : E.Honest allowed ⟨c, h, .req r k⟩) {a : r.Answer} (ha : E.Sound ⟨r, a⟩) :
    E.Honest allowed ⟨c, ⟨r, a⟩ :: h, k a⟩ :=
  ⟨ht.registered, ht.allowed, ⟨⟨ha, ht.asks.1⟩, ht.accounts.1⟩, ht.asks.2 a ha⟩

/-- **The calls of a pool stay honest**, in any system that starts honest calls and never
answers with a wrong result of the cryptography. -/
theorem honest_threads {S : System World Req Req.Answer Call Result} {P P' : Clients}
    (hS : ∀ c p, S.starts c p → (E.Registered c.user ∧ allowed c) ∧ ∃ fuel, p = c.prog fuel)
    (hA : ∀ P r a w, S.answer P r a w → E.Sound ⟨r, a⟩)
    (hrun : S.Runs P P') (h0 : ∀ t ∈ P.threads, E.Honest allowed t) :
    ∀ t ∈ P'.threads, E.Honest allowed t := by
  refine hrun.threads (fun c p hc => ?_) (fun P c h r k a w ha ht => ?_) h0
  · obtain ⟨⟨hreg, hall⟩, fuel, rfl⟩ := hS c p hc
    exact honest_start hreg hall fuel
  · exact ht.answered (hA P r a w ha)

/-- What fault-free stores answer. -/
theorem honest_answer {P : Clients} {r : Req} {a : r.Answer} {w : World}
    (h : (E.honest allowed).answer P r a w) :
    a = (E.handle P.state r).1 ∧ w = (E.handle P.state r).2 :=
  ⟨congrArg Prod.fst h, congrArg Prod.snd h⟩

/-- Fault-free stores may answer what they do. -/
theorem honest_handle (P : Clients) (r : Req) :
    (E.honest allowed).answer P r (E.handle P.state r).1 (E.handle P.state r).2 := rfl

/-- Fault-free stores never give a wrong result of the cryptography. -/
theorem honest_sound (P : Clients) (r : Req) (a : r.Answer) (w : World)
    (h : (E.honest allowed).answer P r a w) : E.Sound ⟨r, a⟩ :=
  (honest_answer h).1 ▸ sound_handle E P.state r

theorem Reachable.honest {P : Clients} (hP : E.Reachable allowed P) :
    ∀ t ∈ P.threads, E.Honest allowed t := by
  obtain ⟨rands, hrun⟩ := hP
  exact honest_threads (fun _ _ h => h) honest_sound hrun fun t ht => by simp at ht

/-- A thread whose request the fault-free stores have answered. -/
abbrev answeredThread (E : Env) (w : World) (c : Call) (h : Hist) (r : Req)
    (k : r.Answer → Client Result) : ClientThread :=
  ⟨c, ⟨r, (E.handle w r).1⟩ :: h, k (E.handle w r).1⟩

/-- What is reachable is so with one more call, and with one more answer. -/
theorem Reachable.spawn {P : Clients} {c : Call} (hP : E.Reachable allowed P)
    (hreg : E.Registered c.user) (hc : allowed c) (fuel : ℕ) :
    E.Reachable allowed (P.spawn c (c.prog fuel)) := by
  obtain ⟨rands, hrun⟩ := hP
  exact ⟨rands, hrun.tail (.start ⟨⟨hreg, hc⟩, fuel, rfl⟩)⟩

theorem Reachable.answered {P : Clients} {i : ℕ} {c : Call} {h : Hist} {r : Req}
    {k : r.Answer → Client Result} (hP : E.Reachable allowed P)
    (hi : P.threads[i]? = some ⟨c, h, .req r k⟩) :
    E.Reachable allowed (P.answered i (E.answeredThread P.state c h r k)
      (E.handle P.state r).2) := by
  obtain ⟨rands, hrun⟩ := hP
  exact ⟨rands, hrun.tail (.request hi (honest_handle P r))⟩

/-- **The invariant rule for honest clients**: an invariant has to survive the start of a
call, and the answer to a request of an honest one. The calls that are there at first may
be of more kinds (`allowed`) than those that are started (`starting`). -/
theorem honest_invariant {starting : Call → Prop} {I Ok : Clients → Prop} {P P' : Clients}
    (hrun : (E.honest starting).RunsWithin Ok P P') (hsub : ∀ c, starting c → allowed c)
    (hthreads : ∀ t ∈ P.threads, E.Honest allowed t) (h0 : I P)
    (hstart : ∀ P c fuel, I P → E.Registered c.user → starting c → Ok (P.spawn c (c.prog fuel)) →
      I (P.spawn c (c.prog fuel)))
    (hrequest : ∀ (P : Clients) i c h r k, (∀ t ∈ P.threads, E.Honest allowed t) → I P →
      P.threads[i]? = some ⟨c, h, .req r k⟩ →
      Ok (P.answered i (E.answeredThread P.state c h r k) (E.handle P.state r).2) →
      I (P.answered i (E.answeredThread P.state c h r k) (E.handle P.state r).2)) :
    (∀ t ∈ P'.threads, E.Honest allowed t) ∧ I P' := by
  refine System.RunsWithin.invariant (I := fun P => (∀ t ∈ P.threads, E.Honest allowed t) ∧ I P)
    hrun ⟨hthreads, h0⟩ ?_
  rintro P P' ⟨hP, hI⟩ hs hOk
  refine ⟨honest_threads (fun c p (h : (E.honest starting).starts c p) =>
    ⟨⟨h.1.1, hsub c h.1.2⟩, h.2⟩) honest_sound (.single hs) hP, ?_⟩
  cases hs with
  | start hc =>
    obtain ⟨⟨hreg, hall⟩, fuel, rfl⟩ := hc
    exact hstart P _ fuel hI hreg hall hOk
  | @request i c h r k a w hi ha =>
    obtain ⟨rfl, rfl⟩ := honest_answer ha
    exact hrequest P i c h r k hP hI hi hOk

/-- A run without a side condition is one with the trivial one. -/
theorem runs_within {S : System World Req Req.Answer Call Result} {P P' : Clients}
    (h : S.Runs P P') : S.RunsWithin (fun _ => True) P P' :=
  Relation.ReflTransGen.mono (fun _ _ hs => ⟨hs, trivial⟩) _ _ h

/-- **The invariant rule from empty stores**, without a side condition. -/
theorem Reachable.invariant {I : Clients → Prop} {P : Clients} (hP : E.Reachable allowed P)
    (h0 : ∀ rands, I ⟨World.empty rands, []⟩)
    (hstart : ∀ P c fuel, I P → E.Registered c.user → allowed c → I (P.spawn c (c.prog fuel)))
    (hrequest : ∀ (P : Clients) i c h r k, (∀ t ∈ P.threads, E.Honest allowed t) → I P →
      P.threads[i]? = some ⟨c, h, .req r k⟩ →
      I (P.answered i (E.answeredThread P.state c h r k) (E.handle P.state r).2)) : I P := by
  obtain ⟨rands, hrun⟩ := hP
  exact (honest_invariant (runs_within hrun) (fun _ h => h) (fun t ht => by simp at ht) (h0 rands)
    (fun P c fuel hI hr ha _ => hstart P c fuel hI hr ha)
    (fun P i c h r k hP hI hi _ => hrequest P i c h r k hP hI hi)).2

/-! ### Schedules and calls executed alone -/

/-- The pool after a schedule, from empty stores. -/
def play (E : Env) (rands : ℕ → HmToken) (fuel : ℕ) (ms : List (Move Call)) : Clients :=
  (⟨World.empty rands, []⟩ : Clients).play E.handle (Call.prog fuel) ms

/-- **A schedule of calls of registered users reaches a reachable pool.** -/
theorem reachable_play {rands : ℕ → HmToken} {fuel : ℕ} {ms : List (Move Call)}
    (hms : ∀ c ∈ Move.starts ms, E.Registered c.user ∧ allowed c) :
    E.Reachable allowed (E.play rands fuel ms) :=
  ⟨rands, System.runs_play honest_handle ms (fun c hc => ⟨hms c hc, fuel, rfl⟩) _⟩

end Env

end Hermes

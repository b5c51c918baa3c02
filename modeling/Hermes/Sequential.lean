import Hermes.Instance
import Hermes.WellFormed

/-!
# One call after the other

The calls of registered users, each executed to its end before the next is started
(`Hermes.Env.Sequential`), with a log of what was called and what was asked. Such a
sequence is one of the runs of a pool, in which at most one call is ever in progress
(`Hermes.Env.Sequential.run`), so what holds of all pools holds after it.
-/

namespace Hermes

open Interleave

/-- What was called, and the exchanges of each call; the most recent call first. -/
abbrev Log := List (Call × Hist)

/-- At most one call of a pool is in progress. -/
def OneLive (P : Clients) : Prop :=
  ∀ ⦃i j : ℕ⦄ ⦃t t' : ClientThread⦄, P.threads[i]? = some t → P.threads[j]? = some t' →
    t.Live → t'.Live → i = j

namespace Env

variable (E : Env) (allowed : Call → Prop)

/-- **The states that calls reach one after the other**, from empty stores. -/
inductive Sequential (rands : ℕ → HmToken) : Log → World → Prop
  /-- No calls. -/
  | empty : Sequential rands [] (World.empty rands)
  /-- One more call. -/
  | call {log : Log} {w : World} (c : Call) (fuel : ℕ) (hw : Sequential rands log w)
      (hc : E.Registered c.user ∧ allowed c)
      (hend : ((c.prog fuel).run E.handle w).1 ≠ .error .outOfFuel) :
      Sequential rands ((c, (c.prog fuel).events E.handle w []) :: log)
        ((c.prog fuel).run E.handle w).2

variable {E allowed} {rands : ℕ → HmToken} {log : Log} {w : World}

/-- A call that has ended has nothing left to ask. -/
theorem finished_residue {x : Except Stop Result} (h : x ≠ .error .outOfFuel) :
    (System.residue (R := Req) (A := Req.Answer) x).Finished := by
  cases x with
  | ok v => trivial
  | error s =>
    cases s with
    | assertion => exact nofun
    | undefined => exact nofun
    | outOfFuel => exact absurd rfl h

/-- **Calls one after the other are a run of a pool**: one thread for each. -/
theorem Sequential.run (h : E.Sequential allowed rands log w) :
    ∃ P : Clients, (E.honest allowed).RunsWithin OneLive ⟨World.empty rands, []⟩ P ∧
      P.Quiescent ∧ P.state = w ∧ P.threads.map (fun t => (t.call, t.hist)) = log.reverse := by
  induction h with
  | empty => exact ⟨_, .refl, fun t ht => by simp at ht, rfl, rfl⟩
  | @call log w c fuel hw hc hend ih =>
    obtain ⟨P, hrun, hquiet, rfl, hlog⟩ := ih
    have hlast : (P.spawn c (c.prog fuel)).threads[P.threads.length]? =
        some ⟨c, [], c.prog fuel⟩ := by simp [Pool.spawn]
    -- whatever becomes of the new thread, the others have finished
    have hone : ∀ h' p' s', OneLive
        ((P.spawn c (c.prog fuel)).answered P.threads.length ⟨c, h', p'⟩ s') := by
      have hold : ∀ {i : ℕ} {t : ClientThread} {h' : Hist} {p' : Client Result} {s' : World},
          ((P.spawn c (c.prog fuel)).answered P.threads.length ⟨c, h', p'⟩ s').threads[i]? = some t →
          t.Live → i = P.threads.length := by
        intro i t h' p' s' ht hlive
        rcases System.of_getElem?_answered ht with ⟨rfl, -⟩ | ⟨hne, ht⟩
        · rfl
        · rcases System.of_getElem?_spawn ht with ht | ⟨heq, -⟩
          · exact absurd (hquiet t (List.mem_of_getElem? ht)) hlive
          · exact heq
      exact fun h' p' s' i j t t' ht ht' hl hl' => (hold ht hl).trans (hold ht' hl').symm
    have hspawn : OneLive (P.spawn c (c.prog fuel)) := by
      have hself := System.answered_self hlast
      rw [← hself]
      exact hone _ _ _
    refine ⟨_, (hrun.tail ⟨.start ⟨hc, fuel, rfl⟩, hspawn⟩).trans
      (System.runsWithin_of_run honest_handle hlast hone), ?_, rfl, ?_⟩
    · intro t ht
      obtain ⟨i, hi⟩ := List.mem_iff_getElem?.mp ht
      rcases System.of_getElem?_answered hi with ⟨rfl, rfl⟩ | ⟨hne, hi⟩
      · exact finished_residue hend
      · rcases System.of_getElem?_spawn hi with hi | ⟨heq, -⟩
        · exact hquiet t (List.mem_of_getElem? hi)
        · exact absurd heq hne
    · simp [Pool.answered, Pool.spawn, hlog]

/-- The states calls reach one after the other are reachable. -/
theorem Sequential.reachable (h : E.Sequential allowed rands log w) :
    ∃ P : Clients, E.Reachable allowed P ∧ P.Quiescent ∧ P.state = w := by
  obtain ⟨P, hrun, hquiet, hstate, -⟩ := h.run
  exact ⟨P, ⟨rands, hrun.runs⟩, hquiet, hstate⟩

/-- So the stores are well-formed there. -/
theorem Sequential.wellFormed (h : E.Sequential allowed rands log w) : E.WellFormed w := by
  obtain ⟨P, hP, -, rfl⟩ := h.reachable
  exact hP.wellFormed.1

/-! ### Given calls -/

/-- The calls of a list, one after the other. -/
def perform (E : Env) (fuel : ℕ) : List Call → Log × World → Log × World
  | [], s => s
  | c :: cs, (log, w) => E.perform fuel cs ((c, (c.prog fuel).events E.handle w []) :: log,
      ((c.prog fuel).run E.handle w).2)

/-- All calls of a list end within the fuel. -/
def completes (E : Env) (fuel : ℕ) : List Call → World → Bool
  | [], _ => true
  | c :: cs, w => decide (((c.prog fuel).run E.handle w).1 ≠ .error .outOfFuel) &&
      E.completes fuel cs ((c.prog fuel).run E.handle w).2

theorem sequential_perform {fuel : ℕ} {cs : List Call} (h : E.Sequential allowed rands log w)
    (hcs : ∀ c ∈ cs, E.Registered c.user ∧ allowed c) (hend : E.completes fuel cs w = true) :
    E.Sequential allowed rands (E.perform fuel cs (log, w)).1 (E.perform fuel cs (log, w)).2 := by
  induction cs generalizing log w with
  | nil => exact h
  | cons c cs ih =>
    obtain ⟨hhere, hlater⟩ := Bool.and_eq_true_iff.mp hend
    exact ih (h.call c fuel (hcs c List.mem_cons_self) (of_decide_eq_true hhere))
      (fun c' hc' => hcs c' (List.mem_cons_of_mem _ hc')) hlater

end Env

/-- The stores after some calls in the demonstration environment. -/
def demoWorld (cs : List Call) : World := (demoEnv.perform 8 cs ([], World.empty demoRands)).2

/-- Registered users, with no condition on what they call. -/
theorem registered_true {cs : List Call} (h : ∀ c ∈ cs, demoEnv.Registered c.user) :
    ∀ c ∈ cs, demoEnv.Registered c.user ∧ (fun _ => True) c := fun c hc => ⟨h c hc, trivial⟩

/-- Calls of registered users that end lead to such a state. -/
theorem sequential_demoWorld {allowed : Call → Prop} {cs : List Call}
    (hcs : ∀ c ∈ cs, demoEnv.Registered c.user ∧ allowed c)
    (hend : demoEnv.completes 8 cs (World.empty demoRands) = true) :
    ∃ log, demoEnv.Sequential allowed demoRands log (demoWorld cs) :=
  ⟨_, Env.sequential_perform .empty hcs hend⟩

end Hermes

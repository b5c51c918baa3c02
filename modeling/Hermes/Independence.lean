import Hermes.Footprint
import Hermes.Interleave.Parts
import Hermes.Instance
import Hermes.System

/-!
# Blocks are independent

What becomes of some of the blocks is what becomes of them when nobody works on the others. The
calls of a run that are given these blocks are, on their own, a run: with the same requests,
answers and results, and they leave the same behind for these blocks (`Hermes.Env.independent`).
So what is shown of all runs of one block's calls holds of the block in every run.

Two things are shared by the calls on different blocks. One is the random generator: the keys that
are drawn are the same ones, so they are drawn from other values. The other is the ids that the
data store makes up, which depend on what it has; the calls that are left out may have any made
up for them, but not those of the blocks in question.
-/

namespace Hermes

open Interleave

/-- The call is given one of these blocks. -/
def Call.about (B : Bytes → Bool) (c : Call) : Bool := c.op.blockId.any B

namespace Env

variable {E : Env} {allowed : Call → Prop} {B : Bytes → Bool}

/-- The exchange makes up no id of these blocks. -/
def MakesUpNone (B : Bytes → Bool) (e : Event Req.Answer) : Prop :=
  ∀ b ∈ madeUp e, B b = false

instance : DecidablePred (MakesUpNone B) := fun e =>
  inferInstanceAs (Decidable (∀ b ∈ madeUp e, B b = false))

/-- The states have the same for these blocks. -/
def Agree (B : Bytes → Bool) (w w' : World) : Prop := ∀ b, B b = true → w'.slice b = w.slice b

/-- The states differ in nothing but what is still to be drawn. -/
def UpToRands (w w' : World) : Prop := ∃ rands, w' = w.withRands rands

/-- A call is honest and keeps to its block. -/
structure Local (E : Env) (allowed : Call → Prop) (t : ClientThread) : Prop where
  honest : E.Honest allowed t
  readsOf : ∀ b, t.call.op.blockId = some b → E.ReadsOf b t.prog t.hist

/-- **Calls keep to their blocks.** -/
theorem local_step {P P' : Clients} (h : ∀ t ∈ P.threads, E.Local allowed t)
    (hs : (E.honest allowed).Step P P') : ∀ t ∈ P'.threads, E.Local allowed t := by
  refine System.Runs.threads (.single hs) (fun c p hc => ?_) (fun P c h r k a w ha ht => ?_) h
  · obtain ⟨⟨hreg, hall⟩, fuel, rfl⟩ := hc
    exact ⟨honest_start hreg hall fuel, fun b hb => readsOf_prog hb fuel⟩
  · have hsound := honest_sound P r a w ha
    exact ⟨ht.honest.answered hsound, fun b hb => (ht.readsOf b hb).2 a hsound⟩

/-- A draw can be made to give any value. -/
theorem handle_rand (w : World) (x : HmToken) (rands : ℕ → HmToken) :
    E.handle (w.withRands fun n => Nat.casesOn n x rands) (.themis .rand) =
      (some x, w.withRands rands) := rfl

/-- **The calls that are given some of the blocks keep to themselves.** -/
theorem parts_honest (B : Bytes → Bool) :
    (E.honest allowed).Parts (Call.about B) (fun P => ∀ t ∈ P.threads, E.Local allowed t)
      (MakesUpNone B) (Agree B) UpToRands where
  refl w := ⟨w.rands, rfl⟩
  step := local_step
  other {P c h r k a s w} hP ht hc hOk ha hw := by
    obtain ⟨rfl, rfl⟩ := honest_answer ha
    intro b hb
    refine (hw b hb).trans (slice_of_justified (hP _ ht).honest.justified ?_ ?_).symm
    · intro hcb
      rw [Call.about, hcb] at hc
      cases hb.symm.trans hc
    · intro e he hmade
      cases hb.symm.trans (hOk e he b hmade)
  kept {P c h r k a s w} hP ht hc hOk ha hw := by
    obtain ⟨rfl, rfl⟩ := honest_answer ha
    obtain ⟨b, hcb, hb⟩ := Option.any_eq_true _ _ |>.mp hc
    have hlocal := hP _ ht
    have hJ := hlocal.honest.justified
    by_cases hrand : r = .themis .rand
    · -- the value that was drawn is put in front of those that are drawn later
      subst hrand
      refine ⟨w, hw, ?_⟩
      rintro w₁' ⟨rands, rfl⟩
      exact ⟨_, ⟨_, rfl⟩, fun ts => (handle_rand w (P.state.rands 0) rands).symm⟩
    · have hmade := madeUp_of_justified hJ (by rw [hcb]; exact Option.some_ne_none b)
      refine ⟨(E.handle w r).2, fun b' hb' => ?_, ?_⟩
      · by_cases hname : r.block? = some b'
        · exact (handle_congr hname (hw b' hb')).2
        · rw [slice_elsewhere hname (by rw [hmade]; exact (Option.some_ne_none b').symm),
            slice_elsewhere hname (by rw [hmade]; exact (Option.some_ne_none b').symm)]
          exact hw b' hb'
      · rintro w₁' ⟨rands, rfl⟩
        refine ⟨w.withRands rands, ⟨rands, rfl⟩, fun ts => ?_⟩
        show ((E.handle P.state r).1, (E.handle w r).2.withRands rands) =
          E.handle (w.withRands rands) r
        rw [handle_withRands hrand, answer_congr hJ (hlocal.readsOf b hcb).1 hcb hrand (hw b hb)]

/-- **Blocks are independent.** In a run of honest clients, take some of the blocks, none of which
has an id that the data store made up. The calls that are given these blocks are, without the other
calls, a run, in which nothing else is ever called: each has asked the same, been answered the same
and got as far; and what the stores have for these blocks is the same. -/
theorem independent {P : Clients} (hP : E.Reachable allowed P) (B : Bytes → Bool)
    (hB : ∀ t ∈ P.threads, ∀ e ∈ t.hist, MakesUpNone B e) :
    ∃ Q, E.Reachable (fun c => allowed c ∧ c.about B = true) Q ∧
      Q.threads = P.threads.filter (fun t => t.call.about B) ∧ Agree B P.state Q.state := by
  obtain ⟨rands, hrun⟩ := hP
  obtain ⟨w₀, w', ⟨rands', rfl⟩, hruns, hagree⟩ := System.Runs.part
    (T := E.honest fun c => allowed c ∧ c.about B = true) (parts_honest B)
    (fun hc hkeep => ⟨⟨hc.1.1, hc.1.2, hkeep⟩, hc.2⟩) (fun ha => ha) hrun
    (fun t ht => by simp at ht) hB (fun b _ => rfl)
  exact ⟨⟨w', _⟩, ⟨rands', hruns⟩, rfl, hagree⟩

end Env

/-- Alice creates two blocks at once, and then a third one under an id that is made up. -/
def twoBlocks : List (Move Call) :=
  .start ⟨alice, .createBlock (some [8]) [3] [4]⟩ ::
    .start ⟨alice, .createBlock (some [9]) [1] [2]⟩ :: (List.replicate 3 (.step 0) ++
      (List.replicate 20 (.step 1) ++ (List.replicate 20 (.step 0) ++
        (.start ⟨alice, .createBlock none [5] [6]⟩ :: List.replicate 20 (.step 2)))))

/-- One of the blocks could have been created alone. -/
theorem Env.independent_twoBlocks :
    ∃ Q, demoEnv.Reachable (fun c => True ∧ c.about (fun b => b == [9]) = true) Q ∧
      Q.threads.map (fun t => (t.call, t.prog.value?)) =
        [(⟨alice, .createBlock (some [9]) [1] [2]⟩, some ⟨hmSuccess, some [9], none⟩)] ∧
      Q.state.slice [9] = (demoPlay twoBlocks).state.slice [9] := by
  have hreach : demoEnv.Reachable (fun _ => True) (demoPlay twoBlocks) := by
    refine Env.reachable_play fun c hc => ?_
    simp only [twoBlocks, Move.starts_append, Move.starts_start, Move.starts_replicate,
      List.mem_append, List.mem_cons, List.not_mem_nil, or_false, false_or] at hc
    rcases hc with rfl | rfl | rfl <;> exact ⟨registered_alice, trivial⟩
  obtain ⟨Q, hQ, hthreads, hagree⟩ := Env.independent hreach (fun b => b == [9]) (by decide +kernel)
  refine ⟨Q, hQ, ?_, hagree [9] rfl⟩
  rw [hthreads]
  decide +kernel

end Hermes

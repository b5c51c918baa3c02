import Hermes.Interleave.Prog

/-!
# What a program does to the part of the state it knows

`Interleave.Prog.Within` says what a program can ask when nothing is known of the state.
This file has the opposite reading: the program runs against a state of which one part,
the *view*, is known and changed by nobody else. `Interleave.Prog.Ensures` is its weakest
precondition: from this view, and whatever the rest of the state is at each request, the
program ends with a result, a view and a history that satisfy the postcondition.

For the parts of a program that only look around and compute, the result and the view are
functions of the view at the start (`Interleave.Prog.Evals`), and evaluation proceeds
part by part (`Interleave.Prog.Evals.bind`).
-/

namespace Interleave

namespace Prog

variable {R : Type} {A : R → Type} {α β σ ν : Type}

/-- **The weakest precondition**, on a view of the state that only this program changes.
Everything else in the state may be another at each request. -/
def Ensures (handle : σ → (r : R) → A r × σ) (view : σ → ν)
    (Post : Except Stop α → ν → List (Event A) → Prop) :
    Prog R A α → ν → List (Event A) → Prop
  | .ret a, v, h => Post (.ok a) v h
  | .stop w, v, h => Post (.error w) v h
  | .req r k, v, h => ∀ s, view s = v →
      (k (handle s r).1).Ensures handle view Post (view (handle s r).2) (⟨r, (handle s r).1⟩ :: h)

variable {handle : σ → (r : R) → A r × σ} {view : σ → ν}
  {Post Post' : Except Stop α → ν → List (Event A) → Prop} {v : ν} {h : List (Event A)}

@[simp] theorem ensures_ret (a : α) :
    (Prog.ret a : Prog R A α).Ensures handle view Post v h ↔ Post (.ok a) v h := Iff.rfl

@[simp] theorem ensures_stop (w : Stop) :
    (Prog.stop w : Prog R A α).Ensures handle view Post v h ↔ Post (.error w) v h := Iff.rfl

/-- The postcondition may be weakened. -/
theorem Ensures.mono {p : Prog R A α} (hp : p.Ensures handle view Post v h)
    (hPost : ∀ x v' h', Post x v' h' → Post' x v' h') : p.Ensures handle view Post' v h := by
  induction p generalizing v h with
  | ret a => exact hPost _ _ _ hp
  | stop w => exact hPost _ _ _ hp
  | req r k ih => exact fun s hs => ih _ (hp s hs)

/-- The rule for sequencing. -/
theorem Ensures.bind {p : Prog R A α} {f : α → Prog R A β}
    {Post' : Except Stop β → ν → List (Event A) → Prop} (hp : p.Ensures handle view Post v h)
    (hok : ∀ a v' h', Post (.ok a) v' h' → (f a).Ensures handle view Post' v' h')
    (herr : ∀ w v' h', Post (.error w) v' h' → Post' (.error w) v' h') :
    (p >>= f).Ensures handle view Post' v h := by
  induction p generalizing v h with
  | ret a => exact hok _ _ _ hp
  | stop w => exact herr _ _ _ hp
  | req r k ih => exact fun s hs => ih _ (hp s hs)

/-- What is ensured of a program that has finished holds. -/
theorem Ensures.of_finished {p : Prog R A α} (hp : p.Ensures handle view Post v h)
    (hfin : p.Finished) : ∃ x, Post x v h := by
  cases p with
  | ret a => exact ⟨_, hp⟩
  | stop w => exact ⟨_, hp⟩
  | req r k => exact hfin.elim

/-- **A run does what is ensured.** -/
theorem Ensures.run {p : Prog R A α} {s : σ} (hp : p.Ensures handle view Post (view s) h) :
    Post (p.run handle s).1 (view (p.run handle s).2) (p.events handle s h) := by
  induction p generalizing s h with
  | ret a => exact hp
  | stop w => exact hp
  | req r k ih => exact ih _ (hp s rfl)

/-! ### Parts with one outcome -/

/-- From the view `v` the program returns `a` and leaves the view `v'`, and its exchanges are
of the kind `C`. -/
def Evals (handle : σ → (r : R) → A r × σ) (view : σ → ν) (C : Event A → Prop) (p : Prog R A α)
    (v : ν) (a : α) (v' : ν) : Prop :=
  ∀ h, p.Ensures handle view
    (fun x v'' h' => x = .ok a ∧ v'' = v' ∧ ∃ l, h' = l ++ h ∧ ∀ e ∈ l, C e) v h

variable {C C' : Event A → Prop} {p : Prog R A α} {f : α → Prog R A β} {a : α} {b : β} {v' v'' : ν}

theorem evals_ret (a : α) : (Prog.ret a : Prog R A α).Evals handle view C v a v := fun _ =>
  ⟨rfl, rfl, [], rfl, fun e he => by simp at he⟩

/-- A request whose answer, and what it does to the view, are known. -/
theorem evals_req {r : R} {k : A r → Prog R A α} {ans : A r}
    (hr : ∀ s, view s = v → (handle s r).1 = ans ∧ view (handle s r).2 = v')
    (hC : ∀ s, view s = v → C ⟨r, (handle s r).1⟩)
    (hk : (k ans).Evals handle view C v' a v'') : (Prog.req r k).Evals handle view C v a v'' := by
  intro h s hs
  obtain ⟨hans, hv⟩ := hr s hs
  have hC := hC s hs
  rw [hans] at hC ⊢
  rw [hv]
  refine (hk _).mono ?_
  rintro x v₂ h' ⟨hx, hv₂, l, rfl, hl⟩
  refine ⟨hx, hv₂, l ++ [⟨r, ans⟩], by simp, fun e he => ?_⟩
  rcases List.mem_append.mp he with he | he
  · exact hl e he
  · rw [List.mem_singleton.mp he]
    exact hC

/-- Evaluation of a part, when the rest is to ensure something. -/
theorem Evals.bind {Post : Except Stop β → ν → List (Event A) → Prop}
    (hp : p.Evals handle view C v a v')
    (hf : ∀ l, (∀ e ∈ l, C e) → (f a).Ensures handle view Post v' (l ++ h)) :
    (p >>= f).Ensures handle view Post v h := by
  refine (hp h).bind ?_ ?_
  · rintro a' v₁ h' ⟨ha, rfl, l, rfl, hl⟩
    cases ha
    exact hf l hl
  · rintro w v₁ h' ⟨hw, -⟩
    cases hw

/-- Evaluation part by part. -/
theorem Evals.trans (hp : p.Evals handle view C v a v') (hf : (f a).Evals handle view C v' b v'') :
    (p >>= f).Evals handle view C v b v'' := by
  intro h
  refine hp.bind fun l hl => (hf (l ++ h)).mono ?_
  rintro x v₁ h' ⟨hx, hv, l', rfl, hl'⟩
  exact ⟨hx, hv, l' ++ l, by simp, fun e he => (List.mem_append.mp he).elim (hl' e) (hl e)⟩

end Prog

end Interleave

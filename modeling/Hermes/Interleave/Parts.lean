import Hermes.Interleave.Pool

/-!
# Some of the calls of a run

A shared state falls into parts, and a call acts on one of them. This file says when a run, seen
for some of its calls only, is a run of these calls (`Interleave.System.Runs.part`): when they are
answered from a part of the state that the other calls leave alone
(`Interleave.System.Parts`).

The two runs need not start in the same state. What all calls use up, such as random values,
these calls use up in another order when the others are missing. What they are to find is known
only when it is known which steps follow, so the proof goes backwards through the run: `Same` says
which states differ in nothing else.
-/

namespace Interleave

variable {σ R : Type} {A : R → Type} {C V : Type}

/-! ### Threads that are left out -/

section Filter

variable {α : Type*} {p : α → Bool} {x y : α}

/-- An element that is left out may be replaced by one that is left out. -/
theorem filter_set_of_false {l : List α} {i : ℕ} (hi : l[i]? = some x) (hx : p x = false)
    (hy : p y = false) : (l.set i y).filter p = l.filter p := by
  induction l generalizing i with
  | nil => rfl
  | cons z l ih =>
    cases i with
    | zero =>
      obtain rfl : z = x := Option.some.inj hi
      simp [hx, hy]
    | succ i =>
      rw [List.getElem?_cons_succ] at hi
      simp only [List.set_cons_succ, List.filter_cons, ih hi]

/-- An element that stays is replaced in what is left. -/
theorem filter_set_of_true {l : List α} {i : ℕ} (hi : l[i]? = some x) (hx : p x = true)
    (hy : p y = true) :
    ∃ j : ℕ, (l.filter p)[j]? = some x ∧ (l.set i y).filter p = (l.filter p).set j y := by
  induction l generalizing i with
  | nil => cases hi
  | cons z l ih =>
    cases i with
    | zero =>
      obtain rfl : z = x := Option.some.inj hi
      exact ⟨0, by simp [hx], by simp [hx, hy]⟩
    | succ i =>
      rw [List.getElem?_cons_succ] at hi
      obtain ⟨j, hj, hset⟩ := ih hi
      simp only [List.set_cons_succ, List.filter_cons]
      split_ifs with hz
      · exact ⟨j + 1, by rwa [List.getElem?_cons_succ], by rw [hset, List.set_cons_succ]⟩
      · exact ⟨j, hj, hset⟩

end Filter

/-- The threads of some of the calls. -/
def Pool.part (keep : C → Bool) (P : Pool σ R A C V) : List (Thread R A C V) :=
  P.threads.filter fun t => keep t.call

namespace System

variable {S : System σ R A C V} {P P' : Pool σ R A C V}

/-- Nothing is forgotten in a run. -/
theorem Runs.thread_grows (h : S.Runs P P') {i : ℕ} {t : Thread R A C V}
    (ht : P.threads[i]? = some t) :
    ∃ t', P'.threads[i]? = some t' ∧ t'.call = t.call ∧ t.hist <:+ t'.hist := by
  induction h with
  | refl => exact ⟨t, ht, rfl, List.suffix_refl _⟩
  | tail _ hs ih =>
    obtain ⟨t₁, ht₁, hcall, hsuf⟩ := ih
    obtain ⟨t₂, ht₂, hcall', hsuf'⟩ := hs.thread_grows ht₁
    exact ⟨t₂, ht₂, hcall'.trans hcall, hsuf.trans hsuf'⟩

/-- **Some of the calls keep to themselves.** `Sees s w` says that the state `w`, of a run without
the others, has what these calls see of `s`. The others leave that alone; and what these calls are
answered they are also answered there, if the right things are left to be used up. -/
structure Parts (S : System σ R A C V) (keep : C → Bool) (I : Pool σ R A C V → Prop)
    (Ok : Event A → Prop) (Sees Same : σ → σ → Prop) : Prop where
  refl : ∀ w, Same w w
  step : ∀ {P P'}, I P → S.Step P P' → I P'
  other : ∀ {P c h r k a s w}, I P → ⟨c, h, .req r k⟩ ∈ P.threads → keep c = false →
    (∀ e ∈ (⟨r, a⟩ : Event A) :: h, Ok e) → S.answer P r a s → Sees P.state w → Sees s w
  kept : ∀ {P c h r k a s w}, I P → ⟨c, h, .req r k⟩ ∈ P.threads → keep c = true →
    (∀ e ∈ (⟨r, a⟩ : Event A) :: h, Ok e) → S.answer P r a s → Sees P.state w →
    ∃ w₁, Sees s w₁ ∧ ∀ w₁', Same w₁ w₁' → ∃ w', Same w w' ∧ ∀ ts, S.answer ⟨w', ts⟩ r a w₁'

/-- **Some of the calls of a run are a run**, of a system that starts no others: with the same
exchanges, from a state that differs in what is used up. -/
theorem Runs.part {T : System σ R A C V} {keep : C → Bool} {I : Pool σ R A C V → Prop}
    {Ok : Event A → Prop} {Sees Same : σ → σ → Prop} (hS : S.Parts keep I Ok Sees Same)
    (hstart : ∀ {c p}, S.starts c p → keep c = true → T.starts c p)
    (hanswer : ∀ {P r a s}, S.answer P r a s → T.answer P r a s) (hrun : S.Runs P P') (hP : I P)
    (hOk : ∀ t ∈ P'.threads, ∀ e ∈ t.hist, Ok e) {w : σ} (hw : Sees P.state w) :
    ∃ w₀ w', Same w w₀ ∧ T.Runs ⟨w₀, P.part keep⟩ ⟨w', P'.part keep⟩ ∧ Sees P'.state w' := by
  induction hrun using Relation.ReflTransGen.head_induction_on generalizing w with
  | refl => exact ⟨w, w, hS.refl w, .refl, hw⟩
  | @head P P₁ hs hrest ih =>
    have hP₁ := hS.step hP hs
    cases hs with
    | @start c p hc =>
      obtain ⟨w₀, w', hsame, hruns, hsees⟩ := ih hP₁ hw
      refine ⟨w₀, w', hsame, ?_, hsees⟩
      cases hkeep : keep c with
      | false =>
        have hpart : (P.spawn c p).part keep = P.part keep := by
          simp [Pool.part, Pool.spawn, hkeep]
        rwa [hpart] at hruns
      | true =>
        have hpart : (P.spawn c p).part keep = P.part keep ++ [⟨c, [], p⟩] := by
          simp [Pool.part, Pool.spawn, hkeep]
        rw [hpart] at hruns
        exact Relation.ReflTransGen.head (.start (hstart hc hkeep)) hruns
    | @request i c h r k a s hi ha =>
      have hmem := List.mem_of_getElem? hi
      have hOk' : ∀ e ∈ (⟨r, a⟩ : Event A) :: h, Ok e := by
        obtain ⟨t', ht', -, hsuf⟩ := Runs.thread_grows hrest (answered_getElem?_self hi)
        exact fun e he => hOk t' (List.mem_of_getElem? ht') e (hsuf.subset he)
      cases hkeep : keep c with
      | false =>
        obtain ⟨w₀, w', hsame, hruns, hsees⟩ := ih hP₁ (hS.other hP hmem hkeep hOk' ha hw)
        have hpart : (P.answered i ⟨c, ⟨r, a⟩ :: h, k a⟩ s).part keep = P.part keep :=
          filter_set_of_false hi hkeep hkeep
        rw [hpart] at hruns
        exact ⟨w₀, w', hsame, hruns, hsees⟩
      | true =>
        -- the run goes on from a state that tells from which one it has come
        obtain ⟨w₁, hw₁, hback⟩ := hS.kept hP hmem hkeep hOk' ha hw
        obtain ⟨w₁', w', hsame, hruns, hsees⟩ := ih hP₁ hw₁
        obtain ⟨w₀, hsame₀, hans⟩ := hback w₁' hsame
        obtain ⟨j, hj, hset⟩ := filter_set_of_true (p := fun t : Thread R A C V => keep t.call)
          (y := ⟨c, ⟨r, a⟩ :: h, k a⟩) hi hkeep hkeep
        have hstep : T.Step ⟨w₀, P.part keep⟩ _ := .request hj (hanswer (hans _))
        have hpart : (P.answered i ⟨c, ⟨r, a⟩ :: h, k a⟩ s).part keep = (P.part keep).set j
            ⟨c, ⟨r, a⟩ :: h, k a⟩ := hset
        rw [hpart] at hruns
        exact ⟨w₀, w', hsame₀, Relation.ReflTransGen.head hstep hruns, hsees⟩

end System

end Interleave

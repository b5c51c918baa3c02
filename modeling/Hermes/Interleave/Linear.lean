import Hermes.Interleave.Pool

/-!
# Linearisation

When does a pool of interleaved calls behave like an object whose operations are atomic?
The object is given by what an action may do to its state (`step`); the shared state of a
pool is read as a state of it (`abs`), and the history of a thread tells whether the thread
has acted, and how (`point`). A list of actions, each tagged with the thread that took it,
*linearises* a pool (`Interleave.Linearised`) if every thread that has acted is in it once,
and the actions, taken one after the other in the order of the list, lead to the state.

The rule of the file is `Interleave.Linearised.runs`: if the answer to a request either
changes nothing, or is the one point at which its thread acts, then a run only ever adds
actions at the end of the list. So what had acted before a call was started comes before it.

That a thread acts once is a fact about its program, `Interleave.Prog.Once`.
-/

namespace Interleave

variable {R : Type} {A : R → Type} {α β σ C V : Type}

/-! ### Programs that ask once -/

namespace Prog

/-- On no path does the program have more than one request satisfying `K`. -/
def Once (K : R → Prop) : Prog R A α → Prop
  | .ret _ => True
  | .stop _ => True
  | .req r k => (¬K r ∧ ∀ a, (k a).Once K) ∨ ∀ a, (k a).Only fun r => ¬K r

variable {K : R → Prop}

theorem Only.once {p : Prog R A α} (hp : p.Only fun r => ¬K r) : p.Once K := by
  induction p with
  | ret a => trivial
  | stop w => trivial
  | req r k ih => exact Or.inl ⟨hp.1, fun a => ih a (hp.2 a)⟩

/-- The request may be in the first part. -/
theorem Once.bind_only {p : Prog R A α} {f : α → Prog R A β} (hp : p.Once K)
    (hf : ∀ a, (f a).Only fun r => ¬K r) : (p >>= f).Once K := by
  induction p with
  | ret a => exact (hf a).once
  | stop w => trivial
  | req r k ih =>
    rcases hp with ⟨hr, hk⟩ | hk
    · exact Or.inl ⟨hr, fun a => ih a (hk a)⟩
    · exact Or.inr fun a => (hk a).bind hf

/-- The request may be in the second part. -/
theorem Only.bind_once {p : Prog R A α} {f : α → Prog R A β} (hp : p.Only fun r => ¬K r)
    (hf : ∀ a, (f a).Once K) : (p >>= f).Once K := by
  induction p with
  | ret a => exact hf a
  | stop w => trivial
  | req r k ih => exact Or.inl ⟨hp.1, fun a => ih a (hp.2 a)⟩

end Prog

/-- A thread that asks once: it has not asked yet, or it will not ask again. -/
def Thread.AsksOnce (K : C → R → Prop) (t : Thread R A C V) : Prop :=
  (t.prog.Once (K t.call) ∧ ∀ e ∈ t.hist, ¬K t.call e.1) ∨ t.prog.Only fun r => ¬K t.call r

theorem Thread.AsksOnce.answered {K : C → R → Prop} {c : C} {h : List (Event A)} {r : R}
    {k : A r → Prog R A V} (ht : (⟨c, h, .req r k⟩ : Thread R A C V).AsksOnce K) (a : A r) :
    (⟨c, ⟨r, a⟩ :: h, k a⟩ : Thread R A C V).AsksOnce K := by
  rcases ht with ⟨⟨hr, hk⟩ | hk, hh⟩ | hk
  · refine Or.inl ⟨hk a, fun e he => ?_⟩
    rcases List.mem_cons.mp he with rfl | he
    · exact hr
    · exact hh e he
  · exact Or.inr (hk a)
  · exact Or.inr (hk.2 a)

/-- When such a thread asks, it has not asked before. -/
theorem Thread.AsksOnce.not_mem {K : C → R → Prop} {c : C} {h : List (Event A)} {r : R}
    {k : A r → Prog R A V} (ht : (⟨c, h, .req r k⟩ : Thread R A C V).AsksOnce K) (hr : K c r) :
    ∀ e ∈ h, ¬K c e.1 := by
  rcases ht with ⟨-, hh⟩ | hk
  · exact hh
  · exact absurd hr hk.1

/-! ### Objects with atomic actions -/

section Object

variable {X B : Type*} (step : B → X → X → Prop)

/-- The actions, one after the other, lead from one state to another. -/
def Leads : List B → X → X → Prop
  | [], x, x' => x = x'
  | b :: l, x, x' => ∃ y, step b x y ∧ Leads l y x'

variable {step}

theorem Leads.append {l l' : List B} {x y z : X} (h : Leads step l x y)
    (h' : Leads step l' y z) : Leads step (l ++ l') x z := by
  induction l generalizing x with
  | nil =>
    obtain rfl : x = y := h
    exact h'
  | cons b l ih =>
    obtain ⟨w, hb, hl⟩ := h
    exact ⟨w, hb, ih hl⟩

/-- What the actions of a list keep is kept by all of them. -/
theorem Leads.invariant {I : X → Prop} {l : List B} {x y : X} (h : Leads step l x y)
    (h0 : I x) (hstep : ∀ b ∈ l, ∀ x y, step b x y → I x → I y) : I y := by
  induction l generalizing x with
  | nil =>
    obtain rfl : x = y := h
    exact h0
  | cons b l ih =>
    obtain ⟨w, hb, hl⟩ := h
    exact ih hl (hstep b List.mem_cons_self x w hb h0)
      fun b' hb' => hstep b' (List.mem_cons_of_mem _ hb')

end Object

/-! ### Linearising a pool -/

section Linearise

variable {X B : Type} (step : B → X → X → Prop) (x₀ : X) (abs : σ → X)
  (point : Thread R A C V → B → Prop)

/-- **The list linearises the pool**: it has the action of every thread that has acted, once,
and the actions lead from the initial state of the object to the one the pool is in. -/
structure Linearised (P : Pool σ R A C V) (L : List (ℕ × B)) : Prop where
  once : (L.map Prod.fst).Nodup
  point_iff : ∀ i b, (i, b) ∈ L ↔ ∃ t, P.threads[i]? = some t ∧ point t b
  follows : Leads step (L.map Prod.snd) x₀ (abs P.state)

variable {step x₀ abs point} {S : System σ R A C V} {P P' : Pool σ R A C V} {L : List (ℕ × B)}

/-- Nothing has acted in a pool without threads. -/
theorem linearised_nil {s : σ} (h : abs s = x₀) :
    Linearised step x₀ abs point (⟨s, []⟩ : Pool σ R A C V) [] where
  once := List.nodup_nil
  point_iff i b := by simp
  follows := h.symm

theorem Linearised.spawn (hL : Linearised step x₀ abs point P L) {c : C} {p : Prog R A V}
    (hp : ∀ b, ¬point ⟨c, [], p⟩ b) : Linearised step x₀ abs point (P.spawn c p) L where
  once := hL.once
  point_iff i b := by
    rw [hL.point_iff]
    constructor
    · rintro ⟨t, ht, hb⟩
      have hlt : i < P.threads.length := (List.getElem?_eq_some_iff.mp ht).1
      exact ⟨t, by rw [Pool.spawn, List.getElem?_append_left hlt, ht], hb⟩
    · rintro ⟨t, ht, hb⟩
      rcases System.of_getElem?_spawn ht with ht | ⟨-, rfl⟩
      · exact ⟨t, ht, hb⟩
      · exact absurd hb (hp b)
  follows := hL.follows

/-- A request that changes nothing, neither the object nor what its thread has done. -/
theorem Linearised.answered_same (hL : Linearised step x₀ abs point P L) {i : ℕ}
    {t t' : Thread R A C V} {s : σ} (hi : P.threads[i]? = some t) (hs : abs s = abs P.state)
    (ht : ∀ b, point t' b ↔ point t b) :
    Linearised step x₀ abs point (P.answered i t' s) L where
  once := hL.once
  point_iff j b := by
    rw [hL.point_iff]
    rcases eq_or_ne i j with rfl | hne
    · rw [System.answered_getElem?_self hi, hi]
      constructor
      · rintro ⟨u, hu, hb⟩
        cases hu
        exact ⟨t', rfl, (ht b).mpr hb⟩
      · rintro ⟨u, hu, hb⟩
        cases hu
        exact ⟨t, rfl, (ht b).mp hb⟩
    · rw [System.answered_getElem?_of_ne hne]
  follows := by
    show Leads step (L.map Prod.snd) x₀ (abs s)
    rw [hs]
    exact hL.follows

/-- A request that is the point at which its thread acts. -/
theorem Linearised.answered_point (hL : Linearised step x₀ abs point P L) {i : ℕ}
    {t t' : Thread R A C V} {s : σ} {b : B} (hi : P.threads[i]? = some t)
    (hb : step b (abs P.state) (abs s)) (ht : ∀ b', ¬point t b')
    (ht' : ∀ b', point t' b' ↔ b' = b) :
    Linearised step x₀ abs point (P.answered i t' s) (L ++ [(i, b)]) where
  once := by
    -- the thread was not at its point, so it is not in the order yet
    have hnew : i ∉ L.map Prod.fst := by
      intro hmem
      obtain ⟨⟨j, b'⟩, hjb, rfl⟩ := List.mem_map.mp hmem
      obtain ⟨u, hu, hub⟩ := (hL.point_iff _ _).mp hjb
      cases hi.symm.trans hu
      exact ht b' hub
    rw [List.map_append]
    refine List.nodup_append.mpr ⟨hL.once, List.pairwise_singleton _ _, fun j hj j' hj' => ?_⟩
    rw [List.mem_singleton.mp hj']
    rintro rfl
    exact hnew hj
  point_iff j b' := by
    rw [List.mem_append, hL.point_iff, List.mem_singleton, Prod.mk.injEq]
    rcases eq_or_ne i j with rfl | hne
    · rw [System.answered_getElem?_self hi, hi]
      constructor
      · rintro (⟨u, hu, hub⟩ | ⟨-, rfl⟩)
        · cases hu
          exact absurd hub (ht b')
        · exact ⟨t', rfl, (ht' b').mpr rfl⟩
      · rintro ⟨u, hu, hub⟩
        cases hu
        exact Or.inr ⟨rfl, (ht' b').mp hub⟩
    · rw [System.answered_getElem?_of_ne hne]
      constructor
      · rintro (h | ⟨rfl, -⟩)
        · exact h
        · exact absurd rfl hne
      · exact Or.inl
  follows := by
    rw [List.map_append]
    exact hL.follows.append ⟨abs s, hb, rfl⟩

/-- **A run adds actions at the end.** It is enough to look at one answer: it changes nothing,
or it is the point at which its thread acts. -/
theorem Linearised.runs {I : Pool σ R A C V → Prop} (hL : Linearised step x₀ abs point P L)
    (hrun : S.Runs P P') (h0 : I P) (hI : ∀ P P', I P → S.Step P P' → I P')
    (hstart : ∀ c p, S.starts c p → ∀ b, ¬point ⟨c, [], p⟩ b)
    (hrequest : ∀ (P : Pool σ R A C V) (i : ℕ) c h r (k : A r → Prog R A V) a s, I P →
      P.threads[i]? = some ⟨c, h, .req r k⟩ → S.answer P r a s →
      (abs s = abs P.state ∧ ∀ b, point ⟨c, ⟨r, a⟩ :: h, k a⟩ b ↔ point ⟨c, h, .req r k⟩ b) ∨
      ∃ b, step b (abs P.state) (abs s) ∧ (∀ b', ¬point ⟨c, h, .req r k⟩ b') ∧
        ∀ b', point ⟨c, ⟨r, a⟩ :: h, k a⟩ b' ↔ b' = b) :
    ∃ L', Linearised step x₀ abs point P' (L ++ L') := by
  suffices h : I P' ∧ ∃ L', Linearised step x₀ abs point P' (L ++ L') from h.2
  refine System.Runs.invariant
    (I := fun P' => I P' ∧ ∃ L', Linearised step x₀ abs point P' (L ++ L')) hrun
    ⟨h0, [], by simpa using hL⟩ ?_
  rintro P P' ⟨hP, L', hL'⟩ hs
  refine ⟨hI P P' hP hs, ?_⟩
  cases hs with
  | start hc => exact ⟨L', hL'.spawn (hstart _ _ hc)⟩
  | @request i c h r k a s hi ha =>
    rcases hrequest P i c h r k a s hP hi ha with ⟨hsame, hpt⟩ | ⟨b, hb, hpt, hpt'⟩
    · exact ⟨L', hL'.answered_same hi hsame hpt⟩
    · refine ⟨L' ++ [(i, b)], ?_⟩
      rw [← List.append_assoc]
      exact hL'.answered_point hi hb hpt hpt'

/-- A thread that has finished stays as it is. -/
theorem getElem?_of_finished {i : ℕ} {t : Thread R A C V} (hrun : S.Runs P P')
    (ht : P.threads[i]? = some t) (hfin : t.prog.Finished) : P'.threads[i]? = some t := by
  refine hrun.invariant (I := fun P => P.threads[i]? = some t) ht ?_
  intro P P' hP hs
  cases hs with
  | start _ =>
    have hlt : i < P.threads.length := (List.getElem?_eq_some_iff.mp hP).1
    rw [Pool.spawn, List.getElem?_append_left hlt, hP]
  | @request j c h r k a s hj ha =>
    rcases eq_or_ne j i with rfl | hne
    · cases hj.symm.trans hP
      exact hfin.elim
    · rw [System.answered_getElem?_of_ne hne, hP]

/-- **Real time is kept.** What is added to the list was done by threads that had not finished
before. -/
theorem Linearised.live {L' : List (ℕ × B)} (hL : Linearised step x₀ abs point P L)
    (hL' : Linearised step x₀ abs point P' (L ++ L')) (hrun : S.Runs P P') {i : ℕ} {b : B}
    (hmem : (i, b) ∈ L') {t : Thread R A C V} (ht : P.threads[i]? = some t) : t.Live := by
  intro hfin
  obtain ⟨u, hu, hb⟩ := (hL'.point_iff i b).mp (List.mem_append_right L hmem)
  cases (getElem?_of_finished hrun ht hfin).symm.trans hu
  have hold : (i, b) ∈ L := (hL.point_iff i b).mpr ⟨t, ht, hb⟩
  have honce := hL'.once
  rw [List.map_append] at honce
  have hdisjoint := (List.nodup_append.mp honce).2.2
  exact hdisjoint i (List.mem_map_of_mem hold) i (List.mem_map_of_mem hmem) rfl

end Linearise

end Interleave

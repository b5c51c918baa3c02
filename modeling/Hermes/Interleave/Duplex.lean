import Mathlib.Data.List.Infix
import Mathlib.Data.Prod.Basic
import Mathlib.Logic.Relation

/-!
# Two parties on a duplex link

Two parties are joined by a link that carries units in order and loses none, one stream in
each direction. A party is a labelled transition relation (`Interleave.Act`): in a step it
puts units on the link, or takes units off it; which of the two parties moves next is
nobody's choice. A run is therefore any interleaving of the two.

When the parties speak **in turns**, the interleaving does not matter. What they will have
said in the end is one *script*, a list of units each with its speaker, and

* `Interleave.Follows` is what it takes for one party, alone, to follow a script;
* `Interleave.Follows.run`: two parties that follow the same script stay in step with each
  other in every run: what one of them has still to hear is what is under way to it,
  followed by what the other one has still to do;
* `Interleave.Follows.exists_step` and `Interleave.Follows.exists_end`: they never wait for
  each other, so that every run can be brought to its end, with the script over and nothing
  under way.
-/

namespace Interleave

/-- What a party does in one step. A step that leaves the link alone puts nothing on it. -/
inductive Act (γ : Type) where
  /-- It puts units on the link. -/
  | out (us : List γ) : Act γ
  /-- It takes units off the link. -/
  | inp (us : List γ) : Act γ

/-- The two ends of a link. -/
inductive Side where
  | left : Side
  | right : Side
  deriving DecidableEq

/-- The other end. -/
def Side.other : Side → Side
  | .left => .right
  | .right => .left

@[simp] theorem Side.other_left : Side.left.other = .right := rfl

@[simp] theorem Side.other_right : Side.right.other = .left := rfl

theorem Side.other_ne (d : Side) : d.other ≠ d := by
  cases d <;> decide

/-- Two parties, and what is under way between them. -/
structure Duplex (S T γ : Type) where
  /-- The left party. -/
  left : S
  /-- The right party. -/
  right : T
  /-- What is under way from left to right. -/
  toRight : List γ
  /-- What is under way from right to left. -/
  toLeft : List γ

variable {S T γ : Type}

/-- One step of two parties: either of them moves. -/
inductive Duplex.Step (L : S → Act γ → S → Prop) (R : T → Act γ → T → Prop) :
    Duplex S T γ → Duplex S T γ → Prop
  | leftOut {s s' : S} {t : T} {u v us : List γ} (h : L s (.out us) s') :
      Step L R ⟨s, t, u, v⟩ ⟨s', t, u ++ us, v⟩
  | leftInp {s s' : S} {t : T} {u v us : List γ} (h : L s (.inp us) s') :
      Step L R ⟨s, t, u, us ++ v⟩ ⟨s', t, u, v⟩
  | rightOut {s : S} {t t' : T} {u v us : List γ} (h : R t (.out us) t') :
      Step L R ⟨s, t, u, v⟩ ⟨s, t', u, v ++ us⟩
  | rightInp {s : S} {t t' : T} {u v us : List γ} (h : R t (.inp us) t') :
      Step L R ⟨s, t, us ++ u, v⟩ ⟨s, t', u, v⟩

/-- So many steps. -/
inductive Duplex.Runs (L : S → Act γ → S → Prop) (R : T → Act γ → T → Prop) :
    ℕ → Duplex S T γ → Duplex S T γ → Prop
  | refl (c : Duplex S T γ) : Runs L R 0 c c
  | tail {k : ℕ} {c c' c'' : Duplex S T γ} (h : Runs L R k c c') (hs : Step L R c' c'') :
      Runs L R (k + 1) c c''

/-! ### Following a script -/

/-- **A party follows a script.** `I n s tr` is an invariant of the party at side `d`, for
the state it is in, the script from there on, and the number `n` of steps it has left. Every
step puts on the link what the script says next, or goes on as the script says when it takes
off the link what the script says next; and unless it is done there is such a step. -/
structure Follows (d : Side) (L : S → Act γ → S → Prop) (I : ℕ → S → List (Side × γ) → Prop) :
    Prop where
  out : ∀ {n s tr us s'}, I n s tr → L s (.out us) s' →
    ∃ m tr', n = m + 1 ∧ tr = us.map (Prod.mk d) ++ tr' ∧ I m s' tr'
  inp : ∀ {n s tr us s'}, I n s (us.map (Prod.mk d.other) ++ tr) → L s (.inp us) s' →
    ∃ m, n = m + 1 ∧ I m s' tr
  moves : ∀ {n s tr}, I n s tr → (n = 0 ∧ tr = []) ∨ (∃ us s', L s (.out us) s') ∨
    ∃ us tr' s', tr = us.map (Prod.mk d.other) ++ tr' ∧ L s (.inp us) s'

/-- The scripts `a` of the party at side `d` and `b` of the other one, when `u` is under way
from the first and `v` to it: one of them is ahead by what is under way. -/
def Agree (d : Side) (u v : List γ) (a b : List (Side × γ)) : Prop :=
  (v = [] ∧ b = u.map (Prod.mk d) ++ a) ∨ (u = [] ∧ a = v.map (Prod.mk d.other) ++ b)

section Agree

variable {d : Side} {u v us : List γ} {a b : List (Side × γ)}

theorem agree_self (d : Side) (a : List (Side × γ)) : Agree d [] [] a a := Or.inl ⟨rfl, rfl⟩

theorem agree_comm : Agree .left u v a b ↔ Agree .right v u b a := or_comm

/-- Speaking keeps the scripts in agreement. -/
theorem Agree.out (h : Agree d u v (us.map (Prod.mk d) ++ a) b) : Agree d (u ++ us) v a b := by
  rcases h with ⟨rfl, rfl⟩ | ⟨rfl, h⟩
  · exact Or.inl ⟨rfl, by simp⟩
  · obtain _ | ⟨x, us⟩ := us
    · exact Or.inr ⟨rfl, h⟩
    · -- It is this party's turn, so nothing is under way to it.
      obtain _ | ⟨y, v⟩ := v
      · exact Or.inl ⟨rfl, by simpa using h.symm⟩
      · have hside : d = d.other := congrArg Prod.fst (List.cons.inj h).1
        exact absurd hside.symm d.other_ne

/-- What arrives is what the script says. -/
theorem Agree.inp (h : Agree d u (us ++ v) a b) :
    ∃ a', a = us.map (Prod.mk d.other) ++ a' ∧ Agree d u v a' b := by
  rcases h with ⟨hv, rfl⟩ | ⟨rfl, rfl⟩
  · obtain ⟨rfl, rfl⟩ := List.append_eq_nil_iff.mp hv
    exact ⟨a, rfl, Or.inl ⟨rfl, rfl⟩⟩
  · exact ⟨v.map (Prod.mk d.other) ++ b, by simp, Or.inr ⟨rfl, rfl⟩⟩

/-- What one side says before its turn is over. -/
theorem prefix_of_map_append {ws : List γ} {c : List (Side × γ)} (hc : ∀ x c', c ≠ (d, x) :: c')
    (h : ws.map (Prod.mk d) ++ b = u.map (Prod.mk d) ++ c) : ws <+: u := by
  induction ws generalizing u with
  | nil => exact List.nil_prefix
  | cons w ws ih =>
    obtain _ | ⟨y, u⟩ := u
    · exact absurd h.symm (hc w _)
    · obtain ⟨hw, h'⟩ := List.cons.inj h
      obtain rfl : w = y := congrArg Prod.snd hw
      exact List.cons_prefix_cons.mpr ⟨rfl, ih h'⟩

theorem ne_cons_of_other {x : γ} {c : List (Side × γ)} (y : γ) (c' : List (Side × γ)) :
    (d.other, x) :: c ≠ (d, y) :: c' := fun h =>
  d.other_ne (congrArg Prod.fst (List.cons.inj h).1)

theorem ne_cons_of_side {x : γ} {c : List (Side × γ)} (y : γ) (c' : List (Side × γ)) :
    (d, x) :: c ≠ (d.other, y) :: c' := fun h =>
  d.other_ne (congrArg Prod.fst (List.cons.inj h).1).symm

/-- **Two parties never wait for each other.** When the script says that the first one
hears `us`, and the other one is done or hears `ws`, then one of the two is under way. -/
theorem Agree.prefix_or {ws : List γ} {a' b' : List (Side × γ)} (h : Agree d u v a b)
    (ha : a = us.map (Prod.mk d.other) ++ a') (hb : b = [] ∨ b = ws.map (Prod.mk d) ++ b') :
    us <+: v ∨ b ≠ [] ∧ ws <+: u := by
  rcases h with ⟨rfl, h⟩ | ⟨rfl, h⟩
  · obtain _ | ⟨x, us⟩ := us
    · exact Or.inl List.nil_prefix
    · rw [ha, List.map_cons, List.cons_append] at h
      have hne : b ≠ [] := by simp [h]
      have hws := hb.resolve_left hne
      exact Or.inr ⟨hne, prefix_of_map_append ne_cons_of_other (hws.symm.trans h)⟩
  · have hus := ha.symm.trans h
    rcases hb with rfl | rfl
    · exact Or.inl (prefix_of_map_append (fun _ _ hc => by simp at hc) hus)
    · obtain _ | ⟨y, ws⟩ := ws
      · rcases eq_or_ne b' [] with rfl | hne
        · exact Or.inl (prefix_of_map_append (fun _ _ hc => by simp at hc) hus)
        · exact Or.inr ⟨hne, List.nil_prefix⟩
      · exact Or.inl (prefix_of_map_append ne_cons_of_side hus)

/-- **Between turns nothing is under way.** The first party is about to speak, or done, and
what is over of the script `whole` did not end with its words. -/
theorem Agree.quiet {whole past : List (Side × γ)} (h : Agree d u v a b) (hb : b <:+ whole)
    (hwhole : whole = past ++ a) (hpast : ∀ x, past.getLast? ≠ some (d, x))
    (ha : ∀ x a', a ≠ (d.other, x) :: a') : u = [] ∧ v = [] := by
  rcases h with ⟨rfl, rfl⟩ | ⟨rfl, rfl⟩
  · refine ⟨?_, rfl⟩
    obtain ⟨l, hl⟩ := hb
    rw [hwhole, ← List.append_assoc] at hl
    obtain rfl := List.append_cancel_right hl
    obtain rfl | ⟨u', x, rfl⟩ := u.eq_nil_or_concat
    · rfl
    · exact absurd (by simp) (hpast x)
  · refine ⟨rfl, ?_⟩
    obtain _ | ⟨y, v⟩ := v
    · rfl
    · exact absurd rfl (ha y _)

end Agree

/-! ### Two parties with one script -/

section Run

variable {L : S → Act γ → S → Prop} {R : T → Act γ → T → Prop}
  {I : ℕ → S → List (Side × γ) → Prop} {J : ℕ → T → List (Side × γ) → Prop}

/-- Two parties in step: their scripts agree, and both are ends of the whole one. -/
def InStep (I : ℕ → S → List (Side × γ) → Prop) (J : ℕ → T → List (Side × γ) → Prop)
    (tr : List (Side × γ)) (n : ℕ) (c : Duplex S T γ) : Prop :=
  ∃ m m' a b, n = m + m' ∧ I m c.left a ∧ J m' c.right b ∧ Agree .left c.toRight c.toLeft a b ∧
    a <:+ tr ∧ b <:+ tr

variable {tr : List (Side × γ)} {n : ℕ} {c c' : Duplex S T γ}

/-- A step keeps two parties in step, and is one of those they have left. -/
theorem Follows.step (hL : Follows .left L I) (hR : Follows .right R J)
    (h : InStep I J tr n c) (hs : Duplex.Step L R c c') :
    ∃ m, n = m + 1 ∧ InStep I J tr m c' := by
  obtain ⟨m, m', a, b, rfl, hI, hJ, hagree, ha, hb⟩ := h
  cases hs with
  | leftOut hs =>
    obtain ⟨k, a', rfl, rfl, hI'⟩ := hL.out hI hs
    refine ⟨k + m', by omega, k, m', a', b, rfl, hI', hJ, hagree.out, ?_, hb⟩
    exact (List.suffix_append _ _).trans ha
  | leftInp hs =>
    obtain ⟨a', rfl, hagree'⟩ := hagree.inp
    obtain ⟨k, rfl, hI'⟩ := hL.inp hI hs
    refine ⟨k + m', by omega, k, m', a', b, rfl, hI', hJ, hagree', ?_, hb⟩
    exact (List.suffix_append _ _).trans ha
  | rightOut hs =>
    obtain ⟨k, b', rfl, rfl, hJ'⟩ := hR.out hJ hs
    refine ⟨m + k, by omega, m, k, a, b', rfl, hI, hJ', ?_, ha, ?_⟩
    · exact agree_comm.mpr (agree_comm.mp hagree).out
    · exact (List.suffix_append _ _).trans hb
  | rightInp hs =>
    obtain ⟨b', rfl, hagree'⟩ := (agree_comm.mp hagree).inp
    obtain ⟨k, rfl, hJ'⟩ := hR.inp hJ hs
    refine ⟨m + k, by omega, m, k, a, b', rfl, hI, hJ', agree_comm.mpr hagree', ha, ?_⟩
    exact (List.suffix_append _ _).trans hb

/-- **Two parties that follow one script stay in step**, whoever moves when, and every step
is one of those they have left. -/
theorem Follows.run (hL : Follows .left L I) (hR : Follows .right R J) {k : ℕ}
    (h : InStep I J tr n c) (hr : Duplex.Runs L R k c c') :
    ∃ m, n = m + k ∧ InStep I J tr m c' := by
  induction hr with
  | refl => exact ⟨n, rfl, h⟩
  | tail hr hs ih =>
    obtain ⟨m, rfl, hm⟩ := ih h
    obtain ⟨m', rfl, hm'⟩ := hL.step hR hm hs
    exact ⟨m', by omega, hm'⟩

theorem exists_step_of_left_inp {s s' : S} {t : T} {u v us : List γ} (h : us <+: v)
    (hs : L s (.inp us) s') : ∃ c', Duplex.Step L R ⟨s, t, u, v⟩ c' := by
  obtain ⟨v', rfl⟩ := h
  exact ⟨_, .leftInp hs⟩

theorem exists_step_of_right_inp {s : S} {t t' : T} {u v us : List γ} (h : us <+: u)
    (hs : R t (.inp us) t') : ∃ c', Duplex.Step L R ⟨s, t, u, v⟩ c' := by
  obtain ⟨u', rfl⟩ := h
  exact ⟨_, .rightInp hs⟩

/-- **They never get stuck** before the script is over. -/
theorem Follows.exists_step (hL : Follows .left L I) (hR : Follows .right R J)
    (h : InStep I J tr n c) :
    (∃ c', Duplex.Step L R c c') ∨ n = 0 ∧ c.toRight = [] ∧ c.toLeft = [] := by
  obtain ⟨m, m', a, b, rfl, hI, hJ, hagree, -, -⟩ := h
  obtain ⟨s, t, u, v⟩ := c
  rcases hL.moves hI with ⟨rfl, rfl⟩ | ⟨us, s', hs⟩ | ⟨us, a', s', ha, hs⟩
  · rcases hR.moves hJ with ⟨rfl, rfl⟩ | ⟨ws, t', hs⟩ | ⟨ws, b', t', hb, hs⟩
    · refine Or.inr ⟨rfl, ?_⟩
      rcases hagree with ⟨hv, hu⟩ | ⟨hu, hv⟩
      · exact ⟨by simpa using hu, hv⟩
      · exact ⟨hu, by simpa using hv⟩
    · exact Or.inl ⟨_, .rightOut hs⟩
    · have hdone : ([] : List (Side × γ)) = [] ∨
        [] = ([] : List γ).map (Prod.mk Side.right) ++ [] := Or.inl rfl
      rcases (agree_comm.mp hagree).prefix_or hb hdone with hws | ⟨hne, -⟩
      · exact Or.inl (exists_step_of_right_inp hws hs)
      · exact absurd rfl hne
  · exact Or.inl ⟨_, .leftOut hs⟩
  · rcases hR.moves hJ with ⟨-, rfl⟩ | ⟨ws, t', ht⟩ | ⟨ws, b', t', hb, ht⟩
    · have hdone : ([] : List (Side × γ)) = [] ∨ [] = ([] : List γ).map (Prod.mk Side.left) ++ [] :=
        Or.inl rfl
      rcases hagree.prefix_or ha hdone with hus | ⟨hne, -⟩
      · exact Or.inl (exists_step_of_left_inp hus hs)
      · exact absurd rfl hne
    · exact Or.inl ⟨_, .rightOut ht⟩
    · rcases hagree.prefix_or ha (Or.inr hb) with hus | ⟨-, hws⟩
      · exact Or.inl (exists_step_of_left_inp hus hs)
      · exact Or.inl (exists_step_of_right_inp hws ht)

theorem Duplex.Runs.head {k : ℕ} {c c' c'' : Duplex S T γ} (hs : Duplex.Step L R c c')
    (h : Duplex.Runs L R k c' c'') : Duplex.Runs L R (k + 1) c c'' := by
  induction h with
  | refl => exact .tail (.refl c) hs
  | tail _ hs' ih => exact .tail (ih hs) hs'

/-- **Every run can be brought to its end**, whatever has happened so far. -/
theorem Follows.exists_end (hL : Follows .left L I) (hR : Follows .right R J)
    (h : InStep I J tr n c) :
    ∃ c', Duplex.Runs L R n c c' ∧ InStep I J tr 0 c' ∧ c'.toRight = [] ∧ c'.toLeft = [] := by
  induction n generalizing c with
  | zero =>
    rcases hL.exists_step hR h with ⟨c', hs⟩ | ⟨-, hu, hv⟩
    · obtain ⟨m, hm, -⟩ := hL.step hR h hs
      omega
    · exact ⟨c, .refl c, h, hu, hv⟩
  | succ n ih =>
    rcases hL.exists_step hR h with ⟨c', hs⟩ | ⟨hn, -⟩
    · obtain ⟨m, hm, h'⟩ := hL.step hR h hs
      obtain rfl : n = m := by omega
      obtain ⟨c'', hr, hend⟩ := ih h'
      exact ⟨c'', hr.head hs, hend⟩
    · omega

end Run

end Interleave

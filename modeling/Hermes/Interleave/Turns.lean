import Hermes.Interleave.Link

/-!
# Speaking and then listening

The two ends of a request over a link take one turn each: one of them first speaks and then
listens, the other one listens and then speaks. A program with such a script
(`Interleave.Turn`) is in one of three states (`Interleave.Turn.shape`): it is done, it
sends what is next, or it receives, when it has sent everything.

Its single actions over a carrier are `Interleave.Acts`. They can be followed one by one
(`Interleave.Turn.acts_out`, `Interleave.Turn.acts_inp`), and the program can always be
brought to the end of what it says (`Interleave.Turn.say`) and of what it hears
(`Interleave.Turn.hear`).
-/

namespace Interleave

variable {α ε β γ : Type}

/-- A program that talks, at side `d`, by the script in which it first says `out` and then
hears `inp`, and returns `b`. -/
def Turn (d : Side) (p : LinkProg α ε β) (out inp : List (List α)) (b : β) : Prop :=
  Speaks d p (out.map (Prod.mk d) ++ inp.map (Prod.mk d.other)) b []

/-- One action of a program over a carrier. -/
inductive Acts (C : Carrier α ε γ) : LinkProg α ε β → Act γ → LinkProg α ε β → Prop
  | send {xs : List α} {k : Except ε Unit → LinkProg α ε β} :
      Acts C (.req (.send xs) k) (.out (C.units xs)) (k (.ok ()))
  | recv {n : ℕ} {k : Except ε (List α) → LinkProg α ε β} {us : List γ}
      {a : Except ε (List α)} (h : C.takes n us a) : Acts C (.req (.recv n) k) (.inp us) (k a)

variable {d : Side} {p p' : LinkProg α ε β} {out inp : List (List α)} {b : β}

theorem turn_ret (b : β) : Turn d (.ret b : LinkProg α ε β) [] [] b := ⟨0, .ret⟩

theorem map_side_inj {d : Side} {l l' : List (List α)}
    (h : l.map (Prod.mk d) = l'.map (Prod.mk d)) : l = l' :=
  List.map_injective_iff.mpr (Prod.mk_right_injective d) h

/-- **The three states of a program in its turn**: it is done, it sends what is next, or it
has sent everything and receives some of what is next. -/
theorem Turn.shape (h : Turn d p out inp b) :
    (p = .ret b ∧ out = [] ∧ inp = []) ∨
      (∃ xs k out', p = .req (.send xs) k ∧ out = xs :: out' ∧ Turn d (k (.ok ())) out' inp b) ∨
      ∃ fs k inp', p = .req (.recv fs.flatten.length) k ∧ out = [] ∧ fs ≠ [] ∧
        inp = fs ++ inp' ∧ Turn d (k (.ok fs.flatten)) [] inp' b := by
  obtain ⟨n, h⟩ := h
  generalize htr : out.map (Prod.mk d) ++ inp.map (Prod.mk d.other) = tr at h
  cases h with
  | ret =>
    obtain ⟨hout, hinp⟩ := List.append_eq_nil_iff.mp htr
    exact Or.inl ⟨rfl, List.map_eq_nil_iff.mp hout, List.map_eq_nil_iff.mp hinp⟩
  | @send n xs k tr _ _ hk =>
    refine Or.inr (Or.inl ⟨xs, k, ?_⟩)
    obtain _ | ⟨x, out⟩ := out
    · -- what the other side says does not begin with words of this one
      obtain _ | ⟨f, inp⟩ := inp
      · cases htr
      · exact absurd (congrArg Prod.fst (List.cons.inj htr).1) d.other_ne
    · obtain ⟨hx, htail⟩ := List.cons.inj htr
      obtain rfl : x = xs := congrArg Prod.snd hx
      subst htail
      exact ⟨out, rfl, rfl, n, hk⟩
  | @recv n m fs k tr _ _ hfs hm hk =>
    refine Or.inr (Or.inr ⟨fs, k, ?_⟩)
    obtain _ | ⟨x, out⟩ := out
    · obtain ⟨l, inp', rfl, hl, rfl⟩ := List.map_eq_append_iff.mp htr
      obtain rfl := map_side_inj hl
      exact ⟨inp', by rw [hm], rfl, hfs, rfl, n, hk⟩
    · obtain _ | ⟨f, fs⟩ := fs
      · exact absurd rfl hfs
      · exact absurd (congrArg Prod.fst (List.cons.inj htr).1).symm d.other_ne

theorem Turn.eq_of_ret {b' : β} (h : Turn d (.ret b' : LinkProg α ε β) out inp b) :
    b' = b ∧ out = [] ∧ inp = [] := by
  rcases h.shape with ⟨hb, hout, hinp⟩ | ⟨_, _, _, hc, _⟩ | ⟨_, _, _, hc, _⟩
  · cases hb
    exact ⟨rfl, hout, hinp⟩
  · cases hc
  · cases hc

/-! ### Its actions -/

section Acts

variable {C : Carrier α ε γ} {clean : List α → Prop} {us v : List γ}

/-- What a program sends is what it has to say next. -/
theorem Turn.acts_out (h : Turn d p out inp b) (ha : Acts C p (.out us) p') :
    ∃ xs out', out = xs :: out' ∧ us = C.units xs ∧ Turn d p' out' inp b := by
  rcases h.shape with ⟨rfl, _⟩ | ⟨xs, k, out', rfl, hout, hk⟩ | ⟨fs, k, inp', rfl, _⟩
  · cases ha
  · cases ha
    exact ⟨xs, out', hout, rfl, hk⟩
  · cases ha

/-- What it receives, of the units of what it has to hear, is what comes next, and it has
sent everything before. -/
theorem Turn.acts_inp (hC : C.Conveys clean) (h : Turn d p out inp b)
    (ha : Acts C p (.inp us) p') (hclean : ∀ f ∈ inp, clean f)
    (hus : us ++ v = inp.flatMap C.units) :
    out = [] ∧ ∃ inp', v = inp'.flatMap C.units ∧ Turn d p' [] inp' b ∧ ∀ f ∈ inp', clean f := by
  rcases h.shape with ⟨rfl, _⟩ | ⟨xs, k, out', rfl, _⟩ | ⟨fs, k, inp', rfl, hout, hfs, rfl, hk⟩
  · cases ha
  · cases ha
  · cases ha with
    | recv htakes =>
      rw [List.flatMap_append] at hus
      have hfsc : ∀ f ∈ fs, clean f := fun f hf => hclean f (List.mem_append_left _ hf)
      obtain ⟨rfl, rfl⟩ := hC.eq_of_takes hfs hfsc htakes hus
      exact ⟨hout, inp', List.append_cancel_left hus, hk, fun f hf =>
        hclean f (List.mem_append_right _ hf)⟩

/-- It does not receive when there is nothing to be heard. -/
theorem Turn.not_acts_inp (h : Turn d p out [] b) : ¬Acts C p (.inp us) p' := by
  intro ha
  rcases h.shape with ⟨rfl, _⟩ | ⟨xs, k, out', rfl, _⟩ | ⟨fs, k, inp', rfl, hout, hfs, hinp, _⟩
  · cases ha
  · cases ha
  · exact hfs (List.append_eq_nil_iff.mp hinp.symm).1

/-- It does not receive before there is something to be heard, if that begins with a string
that is not empty. -/
theorem Turn.not_acts_nil (hC : C.Conveys clean) {f : List α} {rest : List (List α)}
    (h : Turn d p out (f :: rest) b) (hf : f ≠ []) : ¬Acts C p (.inp []) p' := by
  intro ha
  rcases h.shape with ⟨rfl, _⟩ | ⟨xs, k, out', rfl, _⟩ | ⟨fs, k, inp', rfl, hout, hfs, hinp, _⟩
  · cases ha
  · cases ha
  · cases ha with
    | recv htakes =>
      obtain _ | ⟨g, gs⟩ := fs
      · exact hfs rfl
      · obtain rfl : f = g := (List.cons.inj hinp).1
        obtain ⟨x, xs, rfl⟩ := List.exists_cons_of_ne_nil hf
        exact hC.ne_nil htakes rfl

/-- **It never gets stuck**: it is done, or it sends, or, when it has sent everything, it
can receive what it has to hear next. -/
theorem Turn.forward (hC : C.Conveys clean) (h : Turn d p out inp b)
    (hclean : ∀ f ∈ inp, clean f) :
    (p = .ret b ∧ out = [] ∧ inp = []) ∨
      (∃ xs out' p', out = xs :: out' ∧ Acts C p (.out (C.units xs)) p' ∧
        Turn d p' out' inp b) ∨
      out = [] ∧ ∃ fs inp' p', fs ≠ [] ∧ inp = fs ++ inp' ∧
        Acts C p (.inp (fs.flatMap C.units)) p' ∧ Turn d p' [] inp' b := by
  rcases h.shape with hdone | ⟨xs, k, out', rfl, hout, hk⟩ | ⟨fs, k, inp', rfl, hout, hfs, rfl, hk⟩
  · exact Or.inl hdone
  · exact Or.inr (Or.inl ⟨xs, out', _, hout, .send, hk⟩)
  · have hfsc : ∀ f ∈ fs, clean f := fun f hf => hclean f (List.mem_append_left _ hf)
    exact Or.inr (Or.inr ⟨hout, fs, inp', _, hfs, rfl, .recv (hC.takes hfs hfsc), hk⟩)

/-- **It can say everything**: what holds of it together with what it has sent, and survives
sending, holds in the end. -/
theorem Turn.say {M : LinkProg α ε β → List γ → Prop}
    (hM : ∀ q q' us w, M q w → Acts C q (.out us) q' → M q' (w ++ us))
    (h : Turn d p out inp b) {w : List γ} (h0 : M p w) :
    ∃ q, Turn d q [] inp b ∧ M q (w ++ out.flatMap C.units) := by
  induction out generalizing p w with
  | nil => exact ⟨p, h, by simpa using h0⟩
  | cons xs out ih =>
    rcases h.shape with ⟨_, hc, _⟩ | ⟨_, k, _, rfl, hout, hk⟩ | ⟨_, _, _, _, hc, _⟩
    · cases hc
    · cases hout
      obtain ⟨q, hq, hMq⟩ := ih hk (hM _ _ _ _ h0 .send)
      exact ⟨q, hq, by simpa using hMq⟩
    · cases hc

/-- **It can hear everything**: what holds of it together with what it can still receive, and
survives receiving, holds in the end. -/
theorem Turn.hear (hC : C.Conveys clean) {M : LinkProg α ε β → List γ → Prop}
    (hM : ∀ q q' us w, M q (us ++ w) → Acts C q (.inp us) q' → M q' w)
    (h : Turn d p [] inp b) (hclean : ∀ f ∈ inp, clean f) {w : List γ}
    (h0 : M p (inp.flatMap C.units ++ w)) : M (.ret b) w := by
  obtain ⟨n, hn⟩ : ∃ n, inp.length = n := ⟨_, rfl⟩
  induction n using Nat.strong_induction_on generalizing p inp with
  | _ n ih =>
    rcases h.forward hC hclean with ⟨rfl, -, rfl⟩ | ⟨_, _, _, hc, _⟩ |
      ⟨-, fs, inp', p', hfs, rfl, ha, hp'⟩
    · exact h0
    · cases hc
    · have hlt : inp'.length < n := by
        have hpos := List.length_pos_iff.mpr hfs
        rw [List.length_append] at hn
        omega
      refine ih _ hlt hp' (fun f hf => hclean f (List.mem_append_right _ hf)) ?_ rfl
      rw [List.flatMap_append, List.append_assoc] at h0
      exact hM _ _ _ _ h0 ha

end Acts

end Interleave

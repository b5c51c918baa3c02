import Mathlib.Data.List.Basic
import Mathlib.Data.List.Infix
import Mathlib.Logic.Basic

/-!
# Programs that act by requests

A client of a shared state never touches the state itself: it sends a *request*,
waits for the *answer*, and goes on with what the answer says. This file has the
programs of such clients (`Interleave.Prog`), the two ways of reading them, and the
rules that connect the two.

* `Interleave.Prog.run` executes a program alone against a state, and
  `Interleave.Prog.events` collects what it asked and was answered.
* `Interleave.Prog.Within` says what a program can ask **whatever it is answered**:
  every request it issues is accounted for by its own earlier exchanges, and so is
  the value it returns, as long as the environment keeps to a few laws about single
  exchanges. It is the one statement about a program from which its behaviour in any
  such environment is derived, be it sequential, faulty, hostile or shared with others.

A history is a list of exchanges with the most recent one first, so it only grows at
its head, and “later” is “has the earlier history as a suffix”.
-/

namespace Interleave

/-- Why a program stopped without a value: an assertion of it failed, its behaviour is not
defined any more, or the bound put on one of its loops was reached. -/
inductive Stop where
  /-- An assertion failed (or a null pointer was read, or memory was freed twice): the process
  is gone. -/
  | assertion : Stop
  /-- It has written outside of its objects: nothing is said of what it does after that. -/
  | undefined : Stop
  /-- The bound on the iterations of a loop was reached: the process still loops. -/
  | outOfFuel : Stop
  deriving DecidableEq

/-- A program that issues requests `r : R`, each answered in `A r`, and returns a value
in `α`. -/
inductive Prog (R : Type) (A : R → Type) (α : Type) where
  /-- The program has returned. -/
  | ret (a : α) : Prog R A α
  /-- The program has stopped without a value. -/
  | stop (w : Stop) : Prog R A α
  /-- The program waits for the answer to a request. -/
  | req (r : R) (k : A r → Prog R A α) : Prog R A α

/-- One exchange: a request and the answer it got. -/
abbrev Event {R : Type} (A : R → Type) := Σ r : R, A r

namespace Prog

variable {R : Type} {A : R → Type} {α β σ : Type}

/-- Run one program and then, on its value, another. -/
def bind : Prog R A α → (α → Prog R A β) → Prog R A β
  | .ret a, f => f a
  | .stop w, _ => .stop w
  | .req r k, f => .req r fun a => (k a).bind f

instance : Monad (Prog R A) where
  pure := .ret
  bind := bind

/-- The program that issues one request and returns its answer. -/
def send (r : R) : Prog R A (A r) := .req r .ret

@[simp] theorem pure_eq (a : α) : (pure a : Prog R A α) = .ret a := rfl

@[simp] theorem ret_bind (a : α) (f : α → Prog R A β) : (Prog.ret a >>= f) = f a := rfl

@[simp] theorem stop_bind (w : Stop) (f : α → Prog R A β) :
    ((Prog.stop w : Prog R A α) >>= f) = .stop w := rfl

@[simp] theorem req_bind (r : R) (k : A r → Prog R A α) (f : α → Prog R A β) :
    (Prog.req r k >>= f) = .req r fun a => k a >>= f := rfl

theorem bind_assoc {γ : Type} (p : Prog R A α) (f : α → Prog R A β) (g : β → Prog R A γ) :
    p >>= f >>= g = p >>= fun a => f a >>= g := by
  induction p with
  | ret a => rfl
  | stop w => rfl
  | req r k ih => exact congrArg (Prog.req r) (funext fun a => ih a)

@[simp] theorem send_bind (r : R) (f : A r → Prog R A β) : (send r >>= f) = .req r f := rfl

/-- The program has nothing left to ask: it has returned, or its process is gone, or nothing
is said of it any more. -/
def Finished : Prog R A α → Prop
  | .ret _ => True
  | .stop w => w ≠ .outOfFuel
  | .req _ _ => False

instance (p : Prog R A α) : Decidable p.Finished :=
  match p with
  | .ret _ => isTrue trivial
  | .stop w => inferInstanceAs (Decidable (w ≠ .outOfFuel))
  | .req _ _ => isFalse id

/-- The value a program has returned, if it has. -/
def value? : Prog R A α → Option α
  | .ret a => some a
  | .stop _ => none
  | .req _ _ => none

/-- The request a program waits for, if it does. -/
def pending? : Prog R A α → Option R
  | .ret _ => none
  | .stop _ => none
  | .req r _ => some r

theorem eq_req_of_pending? {p : Prog R A α} {r : R} (h : p.pending? = some r) :
    ∃ k, p = .req r k := by
  cases p with
  | ret a => cases h
  | stop w => cases h
  | req r' k => cases h; exact ⟨k, rfl⟩

theorem value?_eq_some {p : Prog R A α} {a : α} : p.value? = some a ↔ p = .ret a := by
  cases p <;> simp [value?]

/-- What is left of the program may still issue a request of some kind. -/
def MaySend (q : R → Prop) : Prog R A α → Prop
  | .ret _ => False
  | .stop _ => False
  | .req r k => q r ∨ ∃ a, (k a).MaySend q

/-- A program may still issue the request it waits for. -/
theorem MaySend.now {q : R → Prop} {r : R} {k : A r → Prog R A α} (h : q r) :
    (Prog.req r k).MaySend q :=
  Or.inl h

/-- What a program may issue after an answer it may issue before. -/
theorem MaySend.later {q : R → Prop} {r : R} {k : A r → Prog R A α} {a : A r}
    (h : (k a).MaySend q) : (Prog.req r k).MaySend q :=
  Or.inr ⟨a, h⟩

/-! ### Running a program alone -/

/-- Run a program against a state that answers each request at once. -/
def run (handle : σ → (r : R) → A r × σ) : Prog R A α → σ → Except Stop α × σ
  | .ret a, s => (.ok a, s)
  | .stop w, s => (.error w, s)
  | .req r k, s => (k (handle s r).1).run handle (handle s r).2

/-- The exchanges of such a run, put in front of those of a history. -/
def events (handle : σ → (r : R) → A r × σ) :
    Prog R A α → σ → List (Event A) → List (Event A)
  | .ret _, _, h => h
  | .stop _, _, h => h
  | .req r k, s, h => (k (handle s r).1).events handle (handle s r).2 (⟨r, (handle s r).1⟩ :: h)

variable {handle : σ → (r : R) → A r × σ}

@[simp] theorem run_ret (a : α) (s : σ) :
    (Prog.ret a : Prog R A α).run handle s = (.ok a, s) := rfl

@[simp] theorem run_stop (w : Stop) (s : σ) :
    (Prog.stop w : Prog R A α).run handle s = (.error w, s) := rfl

@[simp] theorem run_req (r : R) (k : A r → Prog R A α) (s : σ) :
    (Prog.req r k).run handle s = (k (handle s r).1).run handle (handle s r).2 := rfl

@[simp] theorem events_ret (a : α) (s : σ) (h : List (Event A)) :
    (Prog.ret a : Prog R A α).events handle s h = h := rfl

@[simp] theorem events_stop (w : Stop) (s : σ) (h : List (Event A)) :
    (Prog.stop w : Prog R A α).events handle s h = h := rfl

@[simp] theorem events_req (r : R) (k : A r → Prog R A α) (s : σ) (h : List (Event A)) :
    (Prog.req r k).events handle s h = (k (handle s r).1).events handle (handle s r).2
      (⟨r, (handle s r).1⟩ :: h) := rfl

theorem run_bind (p : Prog R A α) (f : α → Prog R A β) (s : σ) :
    (p >>= f).run handle s = match p.run handle s with
      | (.ok a, s') => (f a).run handle s'
      | (.error w, s') => (.error w, s') := by
  induction p generalizing s with
  | ret a => rfl
  | stop w => rfl
  | req r k ih => exact ih _ _

/-- Running a composed program, when the value of its first part is known. -/
theorem run_bind_of_ok {p : Prog R A α} {f : α → Prog R A β} {s s' : σ} {a : α}
    (h : p.run handle s = (.ok a, s')) : (p >>= f).run handle s = (f a).run handle s' := by
  rw [run_bind, h]

/-- Running a composed program, when its first part stops. -/
theorem run_bind_of_error {p : Prog R A α} {f : α → Prog R A β} {s s' : σ} {w : Stop}
    (h : p.run handle s = (.error w, s')) : (p >>= f).run handle s = (.error w, s') := by
  rw [run_bind, h]

/-- A composed program returns what its second part returns, if its first part returns. -/
theorem run_bind_eq_ok {p : Prog R A α} {f : α → Prog R A β} {s s' : σ} {b : β} :
    (p >>= f).run handle s = (.ok b, s') ↔
      ∃ a s₁, p.run handle s = (.ok a, s₁) ∧ (f a).run handle s₁ = (.ok b, s') := by
  rw [run_bind]
  constructor
  · intro h
    rcases hp : p.run handle s with ⟨a | w, s₁⟩
    · rw [hp] at h
      cases h
    · rw [hp] at h
      exact ⟨_, s₁, rfl, h⟩
  · rintro ⟨a, s₁, hp, hf⟩
    rw [hp]
    exact hf

/-- A composed program stops where its first part does, or its second part after it. -/
theorem run_bind_eq_error {p : Prog R A α} {f : α → Prog R A β} {s : σ} {w : Stop} :
    ((p >>= f).run handle s).1 = .error w ↔ (p.run handle s).1 = .error w ∨
      ∃ a s₁, p.run handle s = (.ok a, s₁) ∧ ((f a).run handle s₁).1 = .error w := by
  rw [run_bind]
  rcases p.run handle s with ⟨w' | a, s₁⟩
  · have hiff : (Except.error w' : Except Stop β) = .error w ↔
        (Except.error w' : Except Stop α) = .error w :=
      ⟨fun h => congrArg _ (Except.error.inj h), fun h => congrArg _ (Except.error.inj h)⟩
    exact hiff.trans ⟨Or.inl, fun h => h.elim id fun ⟨_, _, h, _⟩ => by cases h⟩
  · refine ⟨fun h => Or.inr ⟨_, s₁, rfl, h⟩, ?_⟩
    rintro (h | ⟨a, s₂, h, hf⟩)
    · cases h
    · cases h
      exact hf

/-- A run only adds exchanges in front of the history. -/
theorem suffix_events (p : Prog R A α) (s : σ) (h : List (Event A)) :
    h <:+ p.events handle s h := by
  induction p generalizing s h with
  | ret a => exact List.suffix_refl _
  | stop w => exact List.suffix_refl _
  | req r k ih => exact (List.suffix_cons _ _).trans (ih _ _ _)

/-- What a program has asked is what a composed program has asked first. -/
theorem suffix_events_bind (p : Prog R A α) (f : α → Prog R A β) (s : σ) (h : List (Event A)) :
    p.events handle s h <:+ (p >>= f).events handle s h := by
  induction p generalizing s h with
  | ret a => exact suffix_events _ _ _
  | stop w => exact List.suffix_refl _
  | req r k ih => exact ih _ _ _

/-- **The frame rule of a run.** What each of its exchanges leaves alone is what it was. -/
theorem run_frame {β : Type*} {f : σ → β} {C : Event A → Prop}
    (hstep : ∀ s r, C ⟨r, (handle s r).1⟩ → f (handle s r).2 = f s) (p : Prog R A α) (s : σ)
    (h : List (Event A)) (hC : ∀ e ∈ p.events handle s h, C e) :
    f (p.run handle s).2 = f s := by
  induction p generalizing s h with
  | ret a => rfl
  | stop w => rfl
  | req r k ih =>
    have hrest := ih _ (handle s r).2 _ hC
    have hmem : (⟨r, (handle s r).1⟩ : Event A) ∈ (Prog.req r k).events handle s h :=
      (suffix_events _ _ (_ :: h)).subset List.mem_cons_self
    exact hrest.trans (hstep s r (hC _ hmem))

/-! ### What a program can ask, whatever it is answered -/

/-- **Every request is accounted for.** After the history `h`, whatever the answers as
long as the exchanges satisfy `G`, each request `p` issues is justified by the exchanges
before it (`J`), and so is the value it returns (`Q`). -/
def Within (G : Event A → Prop) (J : List (Event A) → R → Prop)
    (Q : List (Event A) → α → Prop) : Prog R A α → List (Event A) → Prop
  | .ret a, h => Q h a
  | .stop _, _ => True
  | .req r k, h => J h r ∧ ∀ a, G ⟨r, a⟩ → (k a).Within G J Q (⟨r, a⟩ :: h)

/-- A history whose exchanges satisfy `G`, and whose requests are all justified by the
exchanges before them. -/
def Accounted (G : Event A → Prop) (J : List (Event A) → R → Prop) : List (Event A) → Prop
  | [] => True
  | e :: h => (G e ∧ J h e.1) ∧ Accounted G J h

variable {G : Event A → Prop} {J J' : List (Event A) → R → Prop}
  {Q Q' : List (Event A) → α → Prop} {h : List (Event A)}

@[simp] theorem within_ret (a : α) : (Prog.ret a : Prog R A α).Within G J Q h ↔ Q h a := Iff.rfl

@[simp] theorem within_stop (w : Stop) : (Prog.stop w : Prog R A α).Within G J Q h ↔ True :=
  Iff.rfl

@[simp] theorem within_req (r : R) (k : A r → Prog R A α) :
    (Prog.req r k).Within G J Q h ↔
      J h r ∧ ∀ a, G ⟨r, a⟩ → (k a).Within G J Q (⟨r, a⟩ :: h) := Iff.rfl

/-- The conclusion may be weakened, and the history known to have grown. -/
theorem Within.mono {p : Prog R A α} (hp : p.Within G J Q h)
    (hQ : ∀ h' a, h <:+ h' → Q h' a → Q' h' a) : p.Within G J Q' h := by
  induction p generalizing h with
  | ret a => exact hQ h a (List.suffix_refl _) hp
  | stop w => trivial
  | req r k ih =>
    refine ⟨hp.1, fun a ha => ih a (hp.2 a ha) fun h' b hs hq => hQ h' b ?_ hq⟩
    exact (List.suffix_cons _ _).trans hs

/-- The rule for sequencing: the second program starts from a history that extends the
first one's, where the first one's conclusion holds. -/
theorem Within.bind {p : Prog R A α} {f : α → Prog R A β} {Q' : List (Event A) → β → Prop}
    (hp : p.Within G J Q h) (hf : ∀ h' a, h <:+ h' → Q h' a → (f a).Within G J Q' h') :
    (p >>= f).Within G J Q' h := by
  induction p generalizing h with
  | ret a => exact hf h a (List.suffix_refl _) hp
  | stop w => trivial
  | req r k ih =>
    refine ⟨hp.1, fun a ha => ih a (hp.2 a ha) fun h' b hs hq => hf h' b ?_ hq⟩
    exact (List.suffix_cons _ _).trans hs

/-- **A run stays within what its program can ask**: its exchanges are accounted for,
and so is its value. -/
theorem Within.events {p : Prog R A α} (hG : ∀ s r, G ⟨r, (handle s r).1⟩)
    (hp : p.Within G J Q h) (hh : Accounted G J h) (s : σ) :
    Accounted G J (p.events handle s h) ∧
      ∀ a s', p.run handle s = (.ok a, s') → Q (p.events handle s h) a := by
  induction p generalizing h s with
  | ret a =>
    refine ⟨hh, fun b s' hb => ?_⟩
    obtain rfl : a = b := by simpa using congrArg Prod.fst hb
    exact hp
  | stop w => exact ⟨hh, fun b s' hb => by simp at hb⟩
  | req r k ih => exact ih _ (hp.2 _ (hG s r)) ⟨⟨hG s r, hp.1⟩, hh⟩ _

/-- **The invariant rule for a run.** What holds at first, and is kept whenever a
justified request is answered, holds when the run is over. -/
theorem Within.run_invariant {p : Prog R A α} {I : List (Event A) → σ → Prop}
    (hG : ∀ s r, G ⟨r, (handle s r).1⟩) (hp : p.Within G J Q h) (s : σ) (h0 : I h s)
    (hstep : ∀ h s r, J h r → I h s → I (⟨r, (handle s r).1⟩ :: h) (handle s r).2) :
    I (p.events handle s h) (p.run handle s).2 := by
  induction p generalizing h s with
  | ret a => exact h0
  | stop w => exact h0
  | req r k ih => exact ih _ (hp.2 _ (hG s r)) _ (hstep h s r hp.1 h0)

/-! ### A state that fails once -/

/-- A state that serves some more of the requests that can fail, the one after them fails
without effect, and then no other does. Without a number, none will fail. -/
def failing (handle : σ → (r : R) → A r × σ) (fallible : R → Bool) (err : (r : R) → A r)
    (s : σ × Option ℕ) (r : R) : A r × (σ × Option ℕ) :=
  match fallible r, s.2 with
  | true, some 0 => (err r, s.1, none)
  | true, some (n + 1) => ((handle s.1 r).1, (handle s.1 r).2, some n)
  | _, m => ((handle s.1 r).1, (handle s.1 r).2, m)

/-- A request is served, or it fails and changes nothing. -/
theorem failing_cases (fallible : R → Bool) (err : (r : R) → A r) (s : σ × Option ℕ) (r : R) :
    ((failing handle fallible err s r).1 = (handle s.1 r).1 ∧
        (failing handle fallible err s r).2.1 = (handle s.1 r).2) ∨
      (fallible r = true ∧ (failing handle fallible err s r).1 = err r ∧
        (failing handle fallible err s r).2.1 = s.1) := by
  obtain ⟨s, m⟩ := s
  unfold failing
  cases hr : fallible r with
  | false => exact Or.inl ⟨rfl, rfl⟩
  | true =>
    match m with
    | none => exact Or.inl ⟨rfl, rfl⟩
    | some 0 => exact Or.inr ⟨rfl, rfl, rfl⟩
    | some (n + 1) => exact Or.inl ⟨rfl, rfl⟩

/-- **The invariant rule for a run in which a request fails.** What is kept has to survive a
request that is served, and one that fails. -/
theorem Within.run_failing {p : Prog R A α} {I : List (Event A) → σ → Prop} (fallible : R → Bool)
    (err : (r : R) → A r) (hG : ∀ s r, G ⟨r, (handle s r).1⟩)
    (hE : ∀ r, fallible r = true → G ⟨r, err r⟩) (hp : p.Within G J Q h) (s : σ) (m : Option ℕ)
    (h0 : I h s) (hstep : ∀ h s r, J h r → I h s → I (⟨r, (handle s r).1⟩ :: h) (handle s r).2)
    (herr : ∀ h s r, J h r → fallible r = true → I h s → I (⟨r, err r⟩ :: h) s) :
    I (p.events (failing handle fallible err) (s, m) h)
      (p.run (failing handle fallible err) (s, m)).2.1 := by
  refine hp.run_invariant (I := fun h s => I h s.1) (fun s r => ?_) (s, m) h0 fun h s r hJ hI => ?_
  · rcases failing_cases fallible err s r with ⟨ha, -⟩ | ⟨hr, ha, -⟩
    · rw [ha]
      exact hG s.1 r
    · rw [ha]
      exact hE r hr
  · rcases failing_cases fallible err s r with ⟨ha, hs⟩ | ⟨hr, ha, hs⟩
    · rw [ha, hs]
      exact hstep h s.1 r hJ hI
    · rw [ha, hs]
      exact herr h s.1 r hJ hr hI

/-- An exchange of an accounted history is justified by the part of the history before
it. -/
theorem Accounted.of_mem {e : Event A} (hh : Accounted G J h) (he : e ∈ h) :
    ∃ h', h' <:+ h ∧ G e ∧ J h' e.1 := by
  induction h with
  | nil => simp at he
  | cons e' h ih =>
    rcases List.mem_cons.mp he with rfl | he
    · exact ⟨h, List.suffix_cons _ _, hh.1⟩
    · obtain ⟨h', hs, hj⟩ := ih hh.2 he
      exact ⟨h', hs.trans (List.suffix_cons _ _), hj⟩

/-- What is only asked when nothing of its kind was asked before is asked once. -/
theorem Accounted.eq_of_mem {C : R → Prop} (hC : ∀ h r, J h r → C r → ∀ e ∈ h, ¬C e.1)
    (hh : Accounted G J h) {e e' : Event A} (he : e ∈ h) (he' : e' ∈ h) (hCe : C e.1)
    (hCe' : C e'.1) : e = e' := by
  induction h with
  | nil => simp at he
  | cons e₀ h ih =>
    rcases List.mem_cons.mp he with rfl | hmem <;> rcases List.mem_cons.mp he' with rfl | hmem'
    · rfl
    · exact absurd hCe' (hC h _ hh.1.2 hCe e' hmem')
    · exact absurd hCe (hC h _ hh.1.2 hCe' e hmem)
    · exact ih hh.2 hmem hmem'

/-! ### What kinds of requests a program has -/

/-- The program has no requests but those satisfying `C`. -/
def Only (C : R → Prop) : Prog R A α → Prop
  | .ret _ => True
  | .stop _ => True
  | .req r k => C r ∧ ∀ a, (k a).Only C

variable {C : R → Prop}

@[simp] theorem only_ret (a : α) : (Prog.ret a : Prog R A α).Only C := trivial

@[simp] theorem only_stop (w : Stop) : (Prog.stop w : Prog R A α).Only C := trivial

@[simp] theorem only_req (r : R) (k : A r → Prog R A α) :
    (Prog.req r k).Only C ↔ C r ∧ ∀ a, (k a).Only C := Iff.rfl

theorem Only.bind {p : Prog R A α} {f : α → Prog R A β} (hp : p.Only C)
    (hf : ∀ a, (f a).Only C) : (p >>= f).Only C := by
  induction p with
  | ret a => exact hf a
  | stop w => trivial
  | req r k ih => exact ⟨hp.1, fun a => ih a (hp.2 a)⟩

theorem Only.mono {C' : R → Prop} {p : Prog R A α} (hp : p.Only C) (hC : ∀ r, C r → C' r) :
    p.Only C' := by
  induction p with
  | ret a => trivial
  | stop w => trivial
  | req r k ih => exact ⟨hC r hp.1, fun a => ih a (hp.2 a)⟩

theorem only_true (p : Prog R A α) : p.Only fun _ => True := by
  induction p with
  | ret a => trivial
  | stop w => trivial
  | req r k ih => exact ⟨trivial, ih⟩

/-- **The simulation rule for a run.** A state that stands for another one, and answers requests
of these kinds as it does, stands for it after the run, and the program ends in the same way. -/
theorem Only.run_eq {τ : Type} (handle' : τ → (r : R) → A r × τ)
    (handle : σ → (r : R) → A r × σ) (f : τ → σ) {I : τ → Prop} {p : Prog R A α} (hp : p.Only C)
    (hstep : ∀ t r, I t → C r → (handle' t r).1 = (handle (f t) r).1 ∧
      f (handle' t r).2 = (handle (f t) r).2 ∧ I (handle' t r).2) (t : τ) (ht : I t) :
    (p.run handle' t).1 = (p.run handle (f t)).1 ∧
      f (p.run handle' t).2 = (p.run handle (f t)).2 ∧ I (p.run handle' t).2 := by
  induction p generalizing t with
  | ret a => exact ⟨rfl, rfl, ht⟩
  | stop w => exact ⟨rfl, rfl, ht⟩
  | req r k ih =>
    obtain ⟨hans, hst, hI⟩ := hstep t r ht hp.1
    rw [run_req, run_req, ← hans, ← hst]
    exact ih _ (hp.2 _) _ hI

/-- What such a program adds to a history are exchanges of these kinds. -/
theorem Within.only {p : Prog R A α} (hp : p.Within G J Q h) (hC : p.Only C) :
    p.Within G J (fun h' a => Q h' a ∧ ∃ l, h' = l ++ h ∧ ∀ e ∈ l, C e.1) h := by
  induction p generalizing h with
  | ret a => exact ⟨hp, [], rfl, fun e he => by simp at he⟩
  | stop w => trivial
  | req r k ih =>
    refine ⟨hp.1, fun a ha => (ih a (hp.2 a ha) (hC.2 a)).mono ?_⟩
    rintro h' b - ⟨hq, l, rfl, hl⟩
    refine ⟨hq, l ++ [⟨r, a⟩], by simp, fun e he => ?_⟩
    rcases List.mem_append.mp he with he | he
    · exact hl e he
    · rw [List.mem_singleton.mp he]
      exact hC.1

/-! ### Weaker accounts -/

/-- A program is within what any program can ask. -/
theorem within_trivial (p : Prog R A α) : p.Within G (fun _ _ => True) (fun _ _ => True) h := by
  induction p generalizing h with
  | ret a => trivial
  | stop w => trivial
  | req r k ih => exact ⟨trivial, fun a _ => ih a⟩

/-- What a program returns does not depend on why it asked. -/
theorem Within.forget {p : Prog R A α} (hp : p.Within G J Q h) :
    p.Within G (fun _ _ => True) Q h := by
  induction p generalizing h with
  | ret a => exact hp
  | stop w => trivial
  | req r k ih => exact ⟨trivial, fun a ha => ih a (hp.2 a ha)⟩

/-- Two accounts of one program, the first one of what it returns. -/
theorem Within.and {p : Prog R A α} (hp : p.Within G J Q h) (hp' : p.Within G J' Q' h) :
    p.Within G J' (fun h a => Q h a ∧ Q' h a) h := by
  induction p generalizing h with
  | ret a => exact ⟨hp, hp'⟩
  | stop w => trivial
  | req r k ih => exact ⟨hp'.1, fun a ha => ih a (hp.2 a ha) (hp'.2 a ha)⟩

/-- A program all of whose requests are justified for their kind. -/
theorem Only.within {p : Prog R A α} (hp : p.Only C) (hC : ∀ h r, C r → J h r) :
    p.Within G J (fun _ _ => True) h := by
  induction p generalizing h with
  | ret a => trivial
  | stop w => trivial
  | req r k ih => exact ⟨hC h r hp.1, fun a _ => ih a (hp.2 a)⟩

/-- A program returns with a history of lawful exchanges. -/
theorem Within.accounted {p : Prog R A α} (hp : p.Within G (fun _ _ => True) Q h)
    (hh : Accounted G (fun _ _ => True) h) :
    p.Within G (fun _ _ => True) (fun h a => Q h a ∧ Accounted G (fun _ _ => True) h) h := by
  induction p generalizing h with
  | ret a => exact ⟨hp, hh⟩
  | stop w => trivial
  | req r k ih => exact ⟨trivial, fun a ha => ih a (hp.2 a ha) ⟨⟨ha, trivial⟩, hh⟩⟩

/-! ### Programs that return -/

/-- The program returns, whatever it is answered, and has no requests but those satisfying
`C`. -/
def Total (C : R → Prop) : Prog R A α → Prop
  | .ret _ => True
  | .stop _ => False
  | .req r k => C r ∧ ∀ a, (k a).Total C

theorem Total.bind {p : Prog R A α} {f : α → Prog R A β} (hp : p.Total C)
    (hf : ∀ a, (f a).Total C) : (p >>= f).Total C := by
  induction p with
  | ret a => exact hf a
  | stop w => exact hp.elim
  | req r k ih => exact ⟨hp.1, fun a => ih a (hp.2 a)⟩

/-- Such a program returns against every state, and what its requests leave alone is what it
was. -/
theorem Total.run {γ : Type*} {f : σ → γ} {p : Prog R A α} (hp : p.Total C)
    (hstep : ∀ s r, C r → f (handle s r).2 = f s) (s : σ) :
    ∃ a s', p.run handle s = (.ok a, s') ∧ f s' = f s := by
  induction p generalizing s with
  | ret a => exact ⟨a, s, rfl, rfl⟩
  | stop w => exact hp.elim
  | req r k ih =>
    obtain ⟨a, s', hrun, hf⟩ := ih _ (hp.2 (handle s r).1) (handle s r).2
    exact ⟨a, s', hrun, hf.trans (hstep s r hp.1)⟩

/-- The program does not stop for this reason, whatever it is answered. -/
def Avoids (w : Stop) : Prog R A α → Prop
  | .ret _ => True
  | .stop w' => w' ≠ w
  | .req _ k => ∀ a, (k a).Avoids w

theorem Avoids.bind {w : Stop} {p : Prog R A α} {f : α → Prog R A β} (hp : p.Avoids w)
    (hf : ∀ a, (f a).Avoids w) : (p >>= f).Avoids w := by
  induction p with
  | ret a => exact hf a
  | stop w' => exact hp
  | req r k ih => exact fun a => ih a (hp a)

/-- So it does not in any run. -/
theorem Avoids.run_ne {w : Stop} {p : Prog R A α} (hp : p.Avoids w) (s : σ) :
    (p.run handle s).1 ≠ .error w := by
  induction p generalizing s with
  | ret a => exact fun h => by cases h
  | stop w' => exact fun h => hp (Except.error.inj h)
  | req r k ih => exact ih _ (hp _) _

end Prog

end Interleave

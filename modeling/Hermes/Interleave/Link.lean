import Mathlib.Algebra.GroupWithZero.Nat
import Hermes.Interleave.Duplex
import Hermes.Interleave.Prog

/-!
# Programs at the ends of a link

A party of a duplex link (`Interleave.Duplex`) that is a program: it sends strings and
receives strings of a length it names, and when it has returned it may start over from the
state it returned (`Interleave.Party`).

What the link makes of the strings is a `Interleave.Carrier`: a **stream** carries their
elements and forgets where one string ends, a **message-preserving** link carries them
whole, and a string received is put together from messages that add up to it.

`Interleave.Talks` is the script of a program: the strings that it sends, and for each
string that it receives the strings of the other side that make it up. A program that
talks by a script does so over any carrier that conveys these strings
(`Interleave.Carrier.Conveys`), in every interleaving with a partner that talks by the
same script.
-/

namespace Interleave

/-- What a program asks of its link. -/
inductive LinkReq (α : Type) where
  /-- Send a string. -/
  | send (xs : List α) : LinkReq α
  /-- Receive a string of this length. -/
  | recv (n : ℕ) : LinkReq α

/-- What it is answered: `ε` are the failures. -/
@[reducible] def LinkReq.Answer (α ε : Type) : LinkReq α → Type
  | .send _ => Except ε Unit
  | .recv _ => Except ε (List α)

/-- The programs at the ends of a link. -/
abbrev LinkProg (α ε β : Type) := Prog (LinkReq α) (LinkReq.Answer α ε) β

/-- An exchange with the link. -/
abbrev LinkEvent (α ε : Type) := Event (LinkReq.Answer α ε)

/-- The strings of a conversation, with who sends them. -/
abbrev Script (α : Type) := List (Side × List α)

variable {α ε β β' : Type}

/-! ### The script of a program -/

/-- **A program talks by a script.** `Talks d n p tr b tr'`: at side `d`, the program `p`
takes `n` steps by the script `tr`, returns `b`, and leaves the script `tr'`. What it
receives at once the other side may have sent in pieces. -/
inductive Talks (d : Side) : ℕ → LinkProg α ε β → Script α → β → Script α → Prop
  | ret {b : β} {tr : Script α} : Talks d 0 (.ret b) tr b tr
  | send {n : ℕ} {xs : List α} {k : Except ε Unit → LinkProg α ε β} {tr tr' : Script α} {b : β}
      (h : Talks d n (k (.ok ())) tr b tr') :
      Talks d (n + 1) (.req (.send xs) k) ((d, xs) :: tr) b tr'
  | recv {n m : ℕ} {fs : List (List α)} {k : Except ε (List α) → LinkProg α ε β}
      {tr tr' : Script α} {b : β} (hfs : fs ≠ []) (hm : fs.flatten.length = m)
      (h : Talks d n (k (.ok fs.flatten)) tr b tr') :
      Talks d (n + 1) (.req (.recv m) k) (fs.map (Prod.mk d.other) ++ tr) b tr'

section Talks

variable {d : Side} {n m : ℕ} {p : LinkProg α ε β} {tr tr' tr'' : Script α} {b : β} {b' : β'}

/-- Talking by a script, and then on by the rest of it. -/
theorem Talks.bind {f : β → LinkProg α ε β'} (hp : Talks d n p tr b tr')
    (hf : Talks d m (f b) tr' b' tr'') : Talks d (n + m) (p >>= f) tr b' tr'' := by
  induction hp with
  | ret =>
    rw [Nat.zero_add]
    exact hf
  | send _ ih =>
    rw [Nat.add_right_comm]
    exact .send (ih hf)
  | recv hfs hm _ ih =>
    rw [Nat.add_right_comm]
    exact .recv hfs hm (ih hf)

/-- A program talks by a script, in however many steps. -/
def Speaks (d : Side) (p : LinkProg α ε β) (tr : Script α) (b : β) (tr' : Script α) : Prop :=
  ∃ n, Talks d n p tr b tr'

theorem Speaks.ret : Speaks d (.ret b : LinkProg α ε β) tr b tr := ⟨0, .ret⟩

theorem Speaks.send {xs : List α} {k : Except ε Unit → LinkProg α ε β}
    (h : Speaks d (k (.ok ())) tr b tr') :
    Speaks d (.req (.send xs) k) ((d, xs) :: tr) b tr' :=
  h.elim fun n hn => ⟨n + 1, .send hn⟩

theorem Speaks.recv {fs : List (List α)} {k : Except ε (List α) → LinkProg α ε β} (hfs : fs ≠ [])
    (hm : fs.flatten.length = m) (h : Speaks d (k (.ok fs.flatten)) tr b tr') :
    Speaks d (.req (.recv m) k) (fs.map (Prod.mk d.other) ++ tr) b tr' :=
  h.elim fun n hn => ⟨n + 1, .recv hfs hm hn⟩

theorem Speaks.bind {f : β → LinkProg α ε β'} (hp : Speaks d p tr b tr')
    (hf : Speaks d (f b) tr' b' tr'') : Speaks d (p >>= f) tr b' tr'' := by
  obtain ⟨n, hp⟩ := hp
  obtain ⟨m, hf⟩ := hf
  exact ⟨n + m, hp.bind hf⟩

end Talks

/-! ### A program alone with a stream -/

/-- A stream to and from a program: what it can still receive, and what it has sent. -/
structure Pipe (α : Type) where
  /-- What the program can receive. -/
  inbox : List α
  /-- What the program has sent. -/
  outbox : List α
  deriving DecidableEq

/-- A lossless stream takes every string, and gives a string of any length it has; one
that is not there yet is refused with `e`. -/
def Pipe.answer (e : ε) (s : Pipe α) : (r : LinkReq α) → LinkReq.Answer α ε r × Pipe α
  | .send xs => (.ok (), ⟨s.inbox, s.outbox ++ xs⟩)
  | .recv n =>
    if n ≤ s.inbox.length then (.ok (s.inbox.take n), ⟨s.inbox.drop n, s.outbox⟩)
    else (.error e, s)

/-- What one side says by a script. -/
def said (d : Side) (tr : Script α) : List α :=
  (tr.filterMap fun f => if f.1 = d then some f.2 else none).flatten

@[simp] theorem said_nil (d : Side) : said d ([] : Script α) = [] := rfl

@[simp] theorem said_append (d : Side) (tr tr' : Script α) :
    said d (tr ++ tr') = said d tr ++ said d tr' := by
  simp [said]

@[simp] theorem said_cons_self (d : Side) (xs : List α) (tr : Script α) :
    said d ((d, xs) :: tr) = xs ++ said d tr := by
  simp [said]

@[simp] theorem said_map_self (d : Side) (fs : List (List α)) :
    said d (fs.map (Prod.mk d)) = fs.flatten := by
  induction fs with
  | nil => rfl
  | cons f fs ih => rw [List.map_cons, said_cons_self, ih, List.flatten_cons]

theorem said_cons_of_ne {d e : Side} (h : e ≠ d) (xs : List α) (tr : Script α) :
    said d ((e, xs) :: tr) = said d tr := by
  simp [said, h]

theorem said_map_of_ne {d e : Side} (h : e ≠ d) (fs : List (List α)) :
    said d (fs.map (Prod.mk e)) = [] := by
  induction fs with
  | nil => rfl
  | cons f fs ih => rw [List.map_cons, said_cons_of_ne h, ih]

/-- **A program that talks by a script** receives what the other side says by it, and
sends what its own side says. -/
theorem Speaks.run {d : Side} {p : LinkProg α ε β} {tr : Script α} {b : β}
    (h : Speaks d p tr b []) (e : ε) (more out : List α) :
    p.run (Pipe.answer e) ⟨said d.other tr ++ more, out⟩ = (.ok b, ⟨more, out ++ said d tr⟩) := by
  obtain ⟨n, h⟩ := h
  generalize hend : ([] : Script α) = tr' at h
  induction h generalizing out with
  | ret =>
    subst hend
    simp
  | @send n xs k tr tr' b _ ih =>
    rw [said_cons_of_ne d.other_ne.symm, Prog.run_req, Pipe.answer, ih (out ++ xs) hend,
      said_cons_self, List.append_assoc]
  | @recv n m fs k tr tr' b _ hm _ ih =>
    have hsaid : said d.other (fs.map (Prod.mk d.other) ++ tr) ++ more =
        fs.flatten ++ (said d.other tr ++ more) := by simp
    have hlen : m ≤ (fs.flatten ++ (said d.other tr ++ more)).length := by simp [← hm]
    rw [hsaid, Prog.run_req, Pipe.answer, if_pos hlen, ← hm, List.take_left, List.drop_left,
      ih out hend, said_append, said_map_of_ne d.other_ne, List.nil_append]

/-! ### Carriers -/

/-- What a link makes of strings: the units a string is sent as, and the units that may be
taken when `n` elements are asked for, with what they are taken for. -/
structure Carrier (α ε γ : Type) where
  /-- The units of a string. -/
  units : List α → List γ
  /-- What may be taken for so many elements, and the answer this is. -/
  takes : ℕ → List γ → Except ε (List α) → Prop

/-- A stream: strings are carried element by element. -/
def Carrier.stream (α ε : Type) : Carrier α ε α where
  units := id
  takes n us a := us.length = n ∧ a = .ok us

/-- The messages that are read until they amount to `n` elements: at least one, and no
further one when they do. -/
def Drawn (n : ℕ) (fs : List (List α)) : Prop :=
  fs ≠ [] ∧ ∀ gs, gs <+: fs → gs ≠ [] → gs ≠ fs → gs.flatten.length < n

/-- A message-preserving link: a string is one message, and receiving fails with `e` if the
messages read amount to more than what is asked for. -/
def Carrier.messages (α : Type) {ε : Type} (e : ε) : Carrier α ε (List α) where
  units xs := [xs]
  takes n fs a := Drawn n fs ∧
    (fs.flatten.length = n ∧ a = .ok fs.flatten ∨ n < fs.flatten.length ∧ a = .error e)

/-- A carrier conveys strings with the property `clean`: sent one after the other they can
be received at once, and nothing else can be received in their place. -/
structure Carrier.Conveys {γ : Type} (C : Carrier α ε γ) (clean : List α → Prop) : Prop where
  takes : ∀ {fs}, fs ≠ [] → (∀ f ∈ fs, clean f) →
    C.takes fs.flatten.length (fs.flatMap C.units) (.ok fs.flatten)
  eq_of_takes : ∀ {fs us x y a}, fs ≠ [] → (∀ f ∈ fs, clean f) →
    C.takes fs.flatten.length us a → us ++ x = fs.flatMap C.units ++ y →
    us = fs.flatMap C.units ∧ a = .ok fs.flatten
  ne_nil : ∀ {n us a}, C.takes (n + 1) us a → us ≠ []

/-- A stream conveys everything. -/
theorem Carrier.conveys_stream : (Carrier.stream α ε).Conveys fun _ => True where
  takes {fs} _ _ := ⟨by simp [Carrier.stream], by simp [Carrier.stream]⟩
  eq_of_takes {fs us x y a} _ _ h happ := by
    obtain ⟨hlen, rfl⟩ := h
    have hflat : fs.flatMap (Carrier.stream α ε).units = fs.flatten := by simp [Carrier.stream]
    rw [hflat] at happ ⊢
    obtain ⟨rfl, -⟩ := List.append_inj happ hlen
    exact ⟨rfl, rfl⟩
  ne_nil {n us a} h := by
    rintro rfl
    simp [Carrier.stream] at h

theorem flatten_length_lt {fs gs : List (List α)} (hne : ∀ f ∈ fs, f ≠ []) (h : gs <+: fs)
    (hgs : gs ≠ fs) : gs.flatten.length < fs.flatten.length := by
  obtain ⟨rest, rfl⟩ := h
  obtain _ | ⟨f, rest⟩ := rest
  · simp at hgs
  · have hf := List.length_pos_iff.mpr (hne f (by simp))
    simp only [List.flatten_append, List.flatten_cons, List.length_append]
    omega

/-- A message-preserving link conveys all strings but the empty one. -/
theorem Carrier.conveys_messages (e : ε) :
    (Carrier.messages α e).Conveys fun f => f ≠ [] where
  takes {fs} hfs hne := by
    refine ⟨?_, Or.inl ⟨by simp [Carrier.messages], by simp [Carrier.messages]⟩⟩
    simp only [Carrier.messages, List.flatMap_singleton']
    exact ⟨hfs, fun gs hpre _ hgs => flatten_length_lt hne hpre hgs⟩
  eq_of_takes {fs us x y a} hfs hne h happ := by
    simp only [Carrier.messages, List.flatMap_singleton'] at h happ ⊢
    obtain ⟨⟨hus, hdrawn⟩, htotal⟩ := h
    obtain rfl : us = fs := by
      by_contra hneq
      rcases List.prefix_or_prefix_of_prefix (List.prefix_append us x)
        (happ ▸ List.prefix_append fs y) with hpre | hpre
      · have hlt := flatten_length_lt hne hpre hneq
        omega
      · exact lt_irrefl _ (hdrawn fs hpre hfs fun hc => hneq hc.symm)
    exact ⟨rfl, (htotal.resolve_right fun hc => lt_irrefl _ hc.1).2⟩
  ne_nil h := h.1.1

/-! ### Parties -/

/-- What a party is doing. -/
inductive Doing (α ε S : Type) where
  /-- It is at rest. -/
  | rest (s : S) : Doing α ε S
  /-- It runs a program that ends in a state of rest. -/
  | busy (p : LinkProg α ε S) : Doing α ε S

/-- A party of a link: what it is doing, and its exchanges with the link so far, the most
recent first. -/
structure Party (α ε S : Type) where
  /-- The exchanges. -/
  log : List (LinkEvent α ε)
  /-- What it is doing. -/
  doing : Doing α ε S

/-- A party that has not done anything. -/
def Party.start (s : S) : Party α ε S := ⟨[], .rest s⟩

variable {γ S T : Type}

/-- The steps of a party, over a carrier: from a state of rest it starts the program of
this state, if there is one. -/
inductive Party.Move (C : Carrier α ε γ) (next : S → Option (LinkProg α ε S)) :
    Party α ε S → Act γ → Party α ε S → Prop
  | start {l : List (LinkEvent α ε)} {s : S} {p : LinkProg α ε S} (h : next s = some p) :
      Move C next ⟨l, .rest s⟩ (.out []) ⟨l, .busy p⟩
  | finish {l : List (LinkEvent α ε)} {s : S} :
      Move C next ⟨l, .busy (.ret s)⟩ (.out []) ⟨l, .rest s⟩
  | send {l : List (LinkEvent α ε)} {xs : List α} {k : Except ε Unit → LinkProg α ε S} :
      Move C next ⟨l, .busy (.req (.send xs) k)⟩ (.out (C.units xs))
        ⟨⟨.send xs, .ok ()⟩ :: l, .busy (k (.ok ()))⟩
  | recv {l : List (LinkEvent α ε)} {n : ℕ} {k : Except ε (List α) → LinkProg α ε S}
      {us : List γ} {a : Except ε (List α)} (h : C.takes n us a) :
      Move C next ⟨l, .busy (.req (.recv n) k)⟩ (.inp us) ⟨⟨.recv n, a⟩ :: l, .busy (k a)⟩

/-- The program waits for something to be received. -/
def Waits (p : LinkProg α ε β) : Prop := ∃ n k, p = .req (.recv (n + 1)) k

/-- **A session.** From the state of rest `s` on, the party talks by the script `tr`, in `n`
steps, and at every state of rest on the way `P` holds of it and of the script from there
on. At the end it is at rest for good, or it has started over and waits. -/
inductive Session (d : Side) (next : S → Option (LinkProg α ε S)) (P : S → Script α → Prop) :
    ℕ → S → Script α → Prop
  | ended {s : S} (hP : P s []) (h : next s = none) : Session d next P 0 s []
  | waits {s : S} {p : LinkProg α ε S} (hP : P s []) (h : next s = some p) (hp : Waits p) :
      Session d next P 1 s []
  | turn {n m : ℕ} {s s' : S} {tr tr' : Script α} {p : LinkProg α ε S} (hP : P s tr)
      (h : next s = some p) (hp : Talks d m p tr s' tr') (hs : Session d next P n s' tr') :
      Session d next P (m + n + 2) s tr

variable {d : Side} {next : S → Option (LinkProg α ε S)} {P : S → Script α → Prop}

theorem Session.holds {n : ℕ} {s : S} {tr : Script α} (h : Session d next P n s tr) : P s tr := by
  cases h with
  | ended hP _ => exact hP
  | waits hP _ _ => exact hP
  | turn hP _ _ _ => exact hP

/-- A party in the course of a session. -/
inductive InSession (d : Side) (next : S → Option (LinkProg α ε S)) (P : S → Script α → Prop) :
    ℕ → Doing α ε S → Script α → Prop
  | rest {n : ℕ} {s : S} {tr : Script α} (h : Session d next P n s tr) :
      InSession d next P n (.rest s) tr
  | busy {n m : ℕ} {s : S} {tr tr' : Script α} {p : LinkProg α ε S} (hp : Talks d m p tr s tr')
      (h : Session d next P n s tr') : InSession d next P (m + n + 1) (.busy p) tr
  | waits {s : S} {p : LinkProg α ε S} (hP : P s []) (h : next s = some p) (hp : Waits p) :
      InSession d next P 0 (.busy p) []

/-- The exchanges of a party that has talked by a script. -/
inductive Kept (d : Side) : List (LinkEvent α ε) → Script α → Prop
  | nil : Kept d [] []
  | send {l : List (LinkEvent α ε)} {tr : Script α} {xs : List α} (h : Kept d l tr) :
      Kept d (⟨.send xs, .ok ()⟩ :: l) (tr ++ [(d, xs)])
  | recv {l : List (LinkEvent α ε)} {tr : Script α} {fs : List (List α)} (h : Kept d l tr)
      (hfs : fs ≠ []) :
      Kept d (⟨.recv fs.flatten.length, .ok fs.flatten⟩ :: l) (tr ++ fs.map (Prod.mk d.other))

/-- The units of a script. -/
def Carrier.unitScript (C : Carrier α ε γ) (tr : Script α) : List (Side × γ) :=
  tr.flatMap fun f => (C.units f.2).map (Prod.mk f.1)

section Units

variable (C : Carrier α ε γ)

@[simp] theorem Carrier.unitScript_nil : C.unitScript [] = [] := rfl

@[simp] theorem Carrier.unitScript_append (tr tr' : Script α) :
    C.unitScript (tr ++ tr') = C.unitScript tr ++ C.unitScript tr' := List.flatMap_append

@[simp] theorem Carrier.unitScript_cons (f : Side × List α) (tr : Script α) :
    C.unitScript (f :: tr) = (C.units f.2).map (Prod.mk f.1) ++ C.unitScript tr :=
  List.flatMap_cons

@[simp] theorem Carrier.unitScript_map (e : Side) (fs : List (List α)) :
    C.unitScript (fs.map (Prod.mk e)) = (fs.flatMap C.units).map (Prod.mk e) := by
  simp [Carrier.unitScript, List.flatMap_map, List.map_flatMap]

end Units

/-- A party in step with the script `whole`: it has kept to the first part of it, and is in
the course of a session by the rest. -/
def Party.Keeps (C : Carrier α ε γ) (d : Side) (next : S → Option (LinkProg α ε S))
    (P : S → Script α → Prop) (whole : Script α) (n : ℕ) (p : Party α ε S)
    (units : List (Side × γ)) : Prop :=
  ∃ done tr, whole = done ++ tr ∧ units = C.unitScript tr ∧ Kept d p.log done ∧
    InSession d next P n p.doing tr

/-- **A party in a session follows its script**, over a carrier that conveys its strings. -/
theorem Party.follows {C : Carrier α ε γ} {clean : List α → Prop} (hC : C.Conveys clean)
    {whole : Script α} (hclean : ∀ f ∈ whole, clean f.2) :
    Follows d (Party.Move C next) (Party.Keeps C d next P whole) where
  out {n p units us p'} hI hmove := by
    obtain ⟨done, tr, rfl, rfl, hkept, hs⟩ := hI
    cases hmove with
    | start hnext =>
      -- the next program is the one of this turn of the session
      cases hs with
      | rest hs =>
        cases hs with
        | ended _ hnone => rw [hnext] at hnone; cases hnone
        | waits hP hsome hp =>
          obtain rfl := Option.some.inj (hnext.symm.trans hsome)
          exact ⟨0, [], rfl, rfl, done, [], rfl, rfl, hkept, .waits hP hsome hp⟩
        | turn _ hsome hp hs =>
          obtain rfl := Option.some.inj (hnext.symm.trans hsome)
          exact ⟨_, _, rfl, rfl, done, tr, rfl, rfl, hkept, .busy hp hs⟩
    | finish =>
      cases hs with
      | busy hp hs =>
        cases hp with
        | ret => exact ⟨_, _, by omega, rfl, done, tr, rfl, rfl, hkept, .rest hs⟩
      | waits _ _ hp => obtain ⟨_, _, hc⟩ := hp; cases hc
    | @send l xs k =>
      cases hs with
      | busy hp hs =>
        cases hp with
        | @send m _ _ tr _ _ hp =>
          -- what it sends is the head of the script
          refine ⟨_, C.unitScript tr, by omega, C.unitScript_cons _ _, done ++ [(d, xs)], tr,
            by simp, rfl, hkept.send, .busy hp hs⟩
      | waits _ _ hp => obtain ⟨_, _, hc⟩ := hp; cases hc
  inp {n p units us p'} hI hmove := by
    obtain ⟨done, tr, rfl, hunits, hkept, hs⟩ := hI
    cases hmove with
    | recv htakes =>
      cases hs with
      | busy hp hs =>
        cases hp with
        | @recv m _ fs _ tr _ _ hfs hm hp =>
          -- what it takes is the units of what the script says comes next, and no others
          rw [C.unitScript_append, C.unitScript_map] at hunits
          have happ := congrArg (List.map Prod.snd) hunits
          simp only [List.map_append, List.map_map, Prod.snd_comp_mk, List.map_id] at happ
          have hclean' : ∀ f ∈ fs, clean f := fun f hf =>
            hclean (d.other, f) (by simp [hf])
          obtain ⟨rfl, rfl⟩ := hC.eq_of_takes hfs hclean' (hm ▸ htakes) happ
          obtain rfl := List.append_cancel_left hunits
          subst hm
          exact ⟨_, by omega, done ++ fs.map (Prod.mk d.other), tr, by simp, rfl, hkept.recv hfs,
            .busy hp hs⟩
      | waits _ _ hp =>
        -- the script is over, so nothing is there to be taken
        obtain ⟨m, k, hc⟩ := hp
        obtain ⟨rfl, -⟩ : us = [] ∧ units = [] := by simpa using hunits
        cases hc
        exact absurd rfl (hC.ne_nil htakes)
  moves {n p units} hI := by
    obtain ⟨done, tr, rfl, rfl, hkept, hs⟩ := hI
    obtain ⟨l, doing⟩ := p
    cases hs with
    | rest hs =>
      cases hs with
      | ended => exact Or.inl ⟨rfl, rfl⟩
      | waits _ hsome _ => exact Or.inr (Or.inl ⟨_, _, .start hsome⟩)
      | turn _ hsome _ _ => exact Or.inr (Or.inl ⟨_, _, .start hsome⟩)
    | busy hp hs =>
      cases hp with
      | ret => exact Or.inr (Or.inl ⟨_, _, .finish⟩)
      | send hp => exact Or.inr (Or.inl ⟨_, _, .send⟩)
      | recv hfs hm hp =>
        have htakes := hC.takes hfs fun f hf => hclean (d.other, f) (by simp [hf])
        rw [hm] at htakes
        exact Or.inr (Or.inr ⟨_, _, _, by rw [C.unitScript_append, C.unitScript_map],
          .recv htakes⟩)
    | waits => exact Or.inl ⟨rfl, rfl⟩

/-! ### Two sessions by one script -/

section Converse

variable {C : Carrier α ε γ} {clean : List α → Prop} {nextL : S → Option (LinkProg α ε S)}
  {nextR : T → Option (LinkProg α ε T)} {P : S → Script α → Prop} {Q : T → Script α → Prop}
  {whole : Script α} {n m k : ℕ} {s : S} {t : T} {c : Duplex (Party α ε S) (Party α ε T) γ}

/-- The two ends of a link before anything has happened. -/
def Duplex.start (γ : Type) (s : S) (t : T) : Duplex (Party α ε S) (Party α ε T) γ :=
  ⟨.start s, .start t, [], []⟩

/-- So many steps of two parties over a carrier. -/
abbrev LinkRuns (C : Carrier α ε γ) (nextL : S → Option (LinkProg α ε S))
    (nextR : T → Option (LinkProg α ε T)) :
    ℕ → Duplex (Party α ε S) (Party α ε T) γ → Duplex (Party α ε S) (Party α ε T) γ → Prop :=
  Duplex.Runs (Party.Move C nextL) (Party.Move C nextR)

/-- Two parties in step, by the script `whole`. -/
abbrev LinkInStep (C : Carrier α ε γ) (nextL : S → Option (LinkProg α ε S))
    (nextR : T → Option (LinkProg α ε T)) (P : S → Script α → Prop) (Q : T → Script α → Prop)
    (whole : Script α) : ℕ → Duplex (Party α ε S) (Party α ε T) γ → Prop :=
  InStep (Party.Keeps C .left nextL P whole) (Party.Keeps C .right nextR Q whole)
    (C.unitScript whole)

/-- **Two sessions by one script stay in step**, in every run. -/
theorem Session.run (hC : C.Conveys clean) (hclean : ∀ f ∈ whole, clean f.2)
    (hL : Session .left nextL P n s whole) (hR : Session .right nextR Q m t whole)
    (hr : LinkRuns C nextL nextR k (Duplex.start γ s t) c) :
    ∃ j, n + m = j + k ∧ LinkInStep C nextL nextR P Q whole j c := by
  refine (Party.follows hC hclean).run (Party.follows hC hclean) ?_ hr
  exact ⟨n, m, C.unitScript whole, C.unitScript whole, rfl,
    ⟨[], whole, rfl, rfl, .nil, .rest hL⟩, ⟨[], whole, rfl, rfl, .nil, .rest hR⟩,
    agree_self _ _, List.suffix_refl _, List.suffix_refl _⟩

/-- **And every run can be brought to its end**: a run has no more steps than the two
sessions together, and there are more until both are at the end of the script. -/
theorem Session.exists_end (hC : C.Conveys clean) (hclean : ∀ f ∈ whole, clean f.2)
    {j : ℕ} (h : LinkInStep C nextL nextR P Q whole j c) :
    ∃ c', LinkRuns C nextL nextR j c c' ∧ LinkInStep C nextL nextR P Q whole 0 c' ∧
      c'.toRight = [] ∧ c'.toLeft = [] :=
  (Party.follows hC hclean).exists_end (Party.follows hC hclean) h

end Converse

/-! ### Two programs, once -/

section Once

variable {C : Carrier α ε γ} {clean : List α → Prop} {p : LinkProg α ε β} {q : LinkProg α ε β'}
  {tr : Script α} {a : β} {b : β'}

/-- A party that runs one program, and then rests with what it returned. -/
def once (p : LinkProg α ε β) : Option β → Option (LinkProg α ε (Option β))
  | none => some (p >>= fun b => .ret (some b))
  | some _ => none

/-- **Two programs always come to an end.** There is a bound on the number of steps they
take together, and whatever has happened so far, they can be brought to an end where `End`
holds; a run that goes no further is such an end. -/
def EndsIn (C : Carrier α ε γ) (p : LinkProg α ε β) (q : LinkProg α ε β')
    (End : Duplex (Party α ε (Option β)) (Party α ε (Option β')) γ → Prop) : Prop :=
  ∃ n, ∀ k c, LinkRuns C (once p) (once q) k (Duplex.start γ none none) c →
    k ≤ n ∧ ∃ c', LinkRuns C (once p) (once q) (n - k) c c' ∧ End c'

theorem EndsIn.mono {End End' : Duplex (Party α ε (Option β)) (Party α ε (Option β')) γ → Prop}
    (h : EndsIn C p q End) (hmono : ∀ c, End c → End' c) : EndsIn C p q End' := by
  obtain ⟨n, h⟩ := h
  refine ⟨n, fun k c hr => ?_⟩
  obtain ⟨hk, c', hr', hend⟩ := h k c hr
  exact ⟨hk, c', hr', hmono c' hend⟩

/-- Two programs that have talked by a script: they have returned, and nothing is under
way. -/
structure Concluded (tr : Script α) (a : β) (b : β')
    (c : Duplex (Party α ε (Option β)) (Party α ε (Option β')) γ) : Prop where
  left : c.left.doing = .rest (some a)
  right : c.right.doing = .rest (some b)
  toRight : c.toRight = []
  toLeft : c.toLeft = []
  leftLog : Kept .left c.left.log tr
  rightLog : Kept .right c.right.log tr

/-- What holds of a party that runs one program, at rest: it has returned, unless there is
something left to talk about. -/
def Returns (b : β) (s : Option β) (tr : Script α) : Prop := s = some b ∨ s = none ∧ tr ≠ []

theorem Speaks.session {d : Side} (h : Speaks d p tr a []) (htr : tr ≠ []) :
    ∃ n, Session d (once p) (Returns a) n none tr := by
  obtain ⟨n, h⟩ := h
  have hbind : Talks d (n + 0) (p >>= fun b => .ret (some b)) tr (some a) [] := h.bind .ret
  exact ⟨_, .turn (Or.inr ⟨rfl, htr⟩) rfl hbind (.ended (Or.inl rfl) rfl)⟩

theorem InSession.returned {d : Side} {doing : Doing α ε (Option β)} {n : ℕ}
    (h : InSession d (once p) (Returns a) n doing tr) (hn : n = 0) :
    doing = .rest (some a) ∧ tr = [] := by
  cases h with
  | rest hs =>
    cases hs with
    | ended hP _ =>
      have hs := hP.resolve_right fun hc => hc.2 rfl
      exact ⟨congrArg Doing.rest hs, rfl⟩
    | waits => exact absurd hn Nat.one_ne_zero
    | turn => exact absurd hn (by omega)
  | busy => exact absurd hn (by omega)
  | waits hP hnext _ =>
    obtain rfl := hP.resolve_right fun hc => hc.2 rfl
    exact absurd hnext (by simp [once])

/-- **Two programs that talk by the same script come to its end**, over a carrier that
conveys its strings. -/
theorem Speaks.endsIn (hC : C.Conveys clean) (hclean : ∀ f ∈ tr, clean f.2) (htr : tr ≠ [])
    (hp : Speaks .left p tr a []) (hq : Speaks .right q tr b []) :
    EndsIn C p q (Concluded tr a b) := by
  obtain ⟨n, hL⟩ := hp.session htr
  obtain ⟨m, hR⟩ := hq.session htr
  refine ⟨n + m, fun k c hr => ?_⟩
  obtain ⟨j, hj, hstep⟩ := Session.run hC hclean hL hR hr
  obtain ⟨c', hr', hend, hto, hfrom⟩ := Session.exists_end hC hclean hstep
  refine ⟨by omega, c', ?_, ?_⟩
  · obtain rfl : j = n + m - k := by omega
    exact hr'
  · obtain ⟨i, i', _, _, hi, ⟨done, tl, rfl, -, hkept, hin⟩, ⟨done', tl', heq, -, hkept', hin'⟩,
      -⟩ := hend
    obtain ⟨hleft, rfl⟩ := hin.returned (by omega)
    obtain ⟨hright, rfl⟩ := hin'.returned (by omega)
    simp only [List.append_nil] at heq ⊢
    subst heq
    exact ⟨hleft, hright, hto, hfrom, hkept, hkept'⟩

end Once

/-! ### Lengths sent and lengths asked for -/

/-- The lengths of the strings a party has sent, the first one first. -/
def sentLengths : List (LinkEvent α ε) → List ℕ
  | [] => []
  | ⟨.send xs, _⟩ :: l => sentLengths l ++ [xs.length]
  | ⟨.recv _, _⟩ :: l => sentLengths l

/-- The lengths a party has asked for, the first one first. -/
def askedLengths : List (LinkEvent α ε) → List ℕ
  | [] => []
  | ⟨.send _, _⟩ :: l => askedLengths l
  | ⟨.recv n, _⟩ :: l => askedLengths l ++ [n]

/-- Lengths that come from others by grouping consecutive ones and adding them up. -/
def Grouped (sent asked : List ℕ) : Prop :=
  ∃ groups : List (List ℕ), (∀ g ∈ groups, g ≠ []) ∧ groups.flatten = sent ∧
    groups.map List.sum = asked

theorem Kept.sentLengths {d : Side} {l : List (LinkEvent α ε)} {tr : Script α}
    (h : Kept d l tr) :
    Interleave.sentLengths l = (tr.filter fun f => f.1 = d).map fun f => f.2.length := by
  induction h with
  | nil => rfl
  | send _ ih => simp [Interleave.sentLengths, ih]
  | recv _ _ ih => simp [Interleave.sentLengths, ih, List.filter_map, d.other_ne, Function.comp_def]

/-- **No string is split**: what a party asks for is what the other one sends, grouped. -/
theorem Kept.grouped {d : Side} {l : List (LinkEvent α ε)} {tr : Script α} (h : Kept d l tr) :
    Grouped ((tr.filter fun f => f.1 = d.other).map fun f => f.2.length) (askedLengths l) := by
  induction h with
  | nil => exact ⟨[], by simp, rfl, rfl⟩
  | send _ ih => simpa [askedLengths, d.other_ne.symm] using ih
  | @recv l tr fs _ hfs ih =>
    obtain ⟨groups, hne, hflat, hsum⟩ := ih
    refine ⟨groups ++ [fs.map List.length], ?_, ?_, ?_⟩
    · intro g hg
      rcases List.mem_append.mp hg with hg | hg
      · exact hne g hg
      · obtain rfl := List.mem_singleton.mp hg
        simpa using hfs
    · simp [hflat, List.filter_map, Function.comp_def]
    · simp [hsum, askedLengths, List.length_flatten]

/-- Nothing a party asked for was refused. -/
def Unrefused (l : List (LinkEvent α ε)) : Prop :=
  ∀ n a, (⟨.recv n, a⟩ : LinkEvent α ε) ∈ l → ∃ xs, a = .ok xs

theorem Kept.unrefused {d : Side} {l : List (LinkEvent α ε)} {tr : Script α} (h : Kept d l tr) :
    Unrefused l := by
  induction h with
  | nil => exact fun n a ha => absurd ha List.not_mem_nil
  | send _ ih => exact fun n a ha => ih n a (by simpa using ha)
  | recv _ _ ih =>
    intro n a ha
    rcases List.mem_cons.mp ha with ha | ha
    · cases ha
      exact ⟨_, rfl⟩
    · exact ih n a ha

/-! ### Runs over a stream, computed -/

section Exec

variable {S T : Type}

/-- The step of a party over a stream from which it can take `v`: with what it puts out,
and what is left of `v`. -/
def Party.step? (next : S → Option (LinkProg α ε S)) :
    Party α ε S → List α → Option (Party α ε S × List α × List α)
  | ⟨l, .rest s⟩, v => (next s).map fun p => (⟨l, .busy p⟩, [], v)
  | ⟨l, .busy (.ret s)⟩, v => some (⟨l, .rest s⟩, [], v)
  | ⟨_, .busy (.stop _)⟩, _ => none
  | ⟨l, .busy (.req (.send xs) k)⟩, v =>
    some (⟨⟨.send xs, .ok ()⟩ :: l, .busy (k (.ok ()))⟩, xs, v)
  | ⟨l, .busy (.req (.recv n) k)⟩, v =>
    if n ≤ v.length then
      some (⟨⟨.recv n, .ok (v.take n)⟩ :: l, .busy (k (.ok (v.take n)))⟩, [], v.drop n)
    else none

/-- It is a step that puts out, or one that takes in. -/
theorem Party.step?_spec {next : S → Option (LinkProg α ε S)} {p p' : Party α ε S}
    {v us v' : List α} (h : p.step? next v = some (p', us, v')) :
    (Party.Move (Carrier.stream α ε) next p (.out us) p' ∧ v' = v) ∨
      ∃ ws, Party.Move (Carrier.stream α ε) next p (.inp ws) p' ∧ us = [] ∧ v = ws ++ v' := by
  obtain ⟨l, s | p⟩ := p
  · obtain ⟨q, hq, heq⟩ := Option.map_eq_some_iff.mp h
    cases heq
    exact Or.inl ⟨.start hq, rfl⟩
  · match p with
    | .ret s =>
      cases h
      exact Or.inl ⟨.finish, rfl⟩
    | .stop _ => cases h
    | .req (.send xs) k =>
      cases h
      exact Or.inl ⟨.send, rfl⟩
    | .req (.recv n) k =>
      rw [Party.step?] at h
      split_ifs at h with hn
      cases h
      exact Or.inr ⟨v.take n, .recv ⟨List.length_take_of_le hn, rfl⟩, rfl,
        (List.take_append_drop n v).symm⟩

/-- The step of the party at one side. -/
def Duplex.step? (nextL : S → Option (LinkProg α ε S)) (nextR : T → Option (LinkProg α ε T))
    (c : Duplex (Party α ε S) (Party α ε T) α) :
    Side → Option (Duplex (Party α ε S) (Party α ε T) α)
  | .left => (c.left.step? nextL c.toLeft).map fun p => ⟨p.1, c.right, c.toRight ++ p.2.1, p.2.2⟩
  | .right => (c.right.step? nextR c.toRight).map fun p => ⟨c.left, p.1, p.2.2, c.toLeft ++ p.2.1⟩

/-- The run in which the sides move in a given order. -/
def Duplex.exec (nextL : S → Option (LinkProg α ε S)) (nextR : T → Option (LinkProg α ε T)) :
    List Side → Duplex (Party α ε S) (Party α ε T) α →
      Option (Duplex (Party α ε S) (Party α ε T) α)
  | [], c => some c
  | d :: ds, c => (c.step? nextL nextR d).bind (Duplex.exec nextL nextR ds)

variable {nextL : S → Option (LinkProg α ε S)} {nextR : T → Option (LinkProg α ε T)}
  {c c' : Duplex (Party α ε S) (Party α ε T) α}

theorem Duplex.step_of_step? {d : Side} (h : c.step? nextL nextR d = some c') :
    Duplex.Step (Party.Move (Carrier.stream α ε) nextL) (Party.Move (Carrier.stream α ε) nextR)
      c c' := by
  obtain ⟨s, t, u, v⟩ := c
  cases d with
  | left =>
    obtain ⟨⟨s', us, v'⟩, hs, rfl⟩ := Option.map_eq_some_iff.mp h
    rcases Party.step?_spec hs with ⟨hmove, rfl⟩ | ⟨ws, hmove, rfl, rfl⟩
    · exact .leftOut hmove
    · simpa using Duplex.Step.leftInp hmove
  | right =>
    obtain ⟨⟨t', us, u'⟩, ht, rfl⟩ := Option.map_eq_some_iff.mp h
    rcases Party.step?_spec ht with ⟨hmove, rfl⟩ | ⟨ws, hmove, rfl, rfl⟩
    · exact .rightOut hmove
    · simpa using Duplex.Step.rightInp hmove

/-- **A run that is computed is a run.** -/
theorem Duplex.runs_of_exec {ds : List Side} (h : Duplex.exec nextL nextR ds c = some c') :
    LinkRuns (Carrier.stream α ε) nextL nextR ds.length c c' := by
  induction ds generalizing c with
  | nil =>
    cases h
    exact .refl _
  | cons d ds ih =>
    obtain ⟨c'', hs, hr⟩ := Option.bind_eq_some_iff.mp h
    exact (ih hr).head (Duplex.step_of_step? hs)

end Exec

end Interleave

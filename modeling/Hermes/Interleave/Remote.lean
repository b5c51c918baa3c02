import Mathlib.Logic.Function.Basic
import Hermes.Interleave.Pool
import Hermes.Interleave.Turns

/-!
# Requests carried to servers

In a pool (`Interleave.Pool`) a request is answered in one step. Here it is carried: a
*caller* runs the proxy of the request over a link, and at the other end of the link a
server listens for a command, executes it on the shared state, sends what came of it, and
listens again. A caller has a link of its own to each server, and which of these programs
acts next is nobody's choice (`Interleave.Caller.Moves`).

If proxies and servers take their turns by the same scripts, with the outcomes that the
requests have in one step (`Interleave.Carriage.Faithful`), then a caller cannot be told
from a thread of a pool (`Interleave.Caller.Sim`): the step at which the request of the
thread is answered is the one in which the server executes the command, in whatever order
the strings around it arrive (`Interleave.Caller.Sim.step`). And the caller never gets
stuck (`Interleave.Caller.Sim.forward`).
-/

namespace Interleave

variable {σ R K α ε γ C V Q : Type} {A : R → Type}

/-- How requests are carried to servers that share a state. -/
structure Carriage (σ R : Type) (A : R → Type) (K α ε : Type) where
  /-- The answer to a request in one step, and the state it leaves. -/
  handle : σ → (r : R) → A r × σ
  /-- The server a request is sent to; one that is sent to none is answered on the spot. -/
  dest : R → Option K
  /-- What a caller does to send a request and to receive its answer. -/
  proxy : (r : R) → LinkProg α ε (A r)
  /-- What a server can be told to do. -/
  Cmd : K → Type
  /-- What a server does to be told. -/
  listen : (κ : K) → LinkProg α ε (Cmd κ)
  /-- What a command does to the state, and what is left to do for the server to send its
  outcome. It listens again if this returns `true`. -/
  exec : (κ : K) → Cmd κ → σ → LinkProg α ε Bool × σ

/-- What a server does for a caller. -/
inductive Serving (α ε Q : Type) where
  /-- It listens, and has to execute the command it is told. -/
  | listening (p : LinkProg α ε Q) : Serving α ε Q
  /-- It sends an outcome. -/
  | answering (p : LinkProg α ε Bool) : Serving α ε Q
  /-- It has stopped. -/
  | stopped : Serving α ε Q

/-- A link to a server: the server at its end, and what is under way. -/
@[ext]
structure Line (α ε γ Q : Type) where
  /-- The server. -/
  server : Serving α ε Q
  /-- What is under way to the server. -/
  toServer : List γ
  /-- What is under way to the caller. -/
  toClient : List γ

/-- What a caller is doing. -/
inductive Errand (R : Type) (A : R → Type) (α ε V : Type) where
  /-- It is about to issue the next request of its program, or at its end. -/
  | between (p : Prog R A V) : Errand R A α ε V
  /-- It runs the proxy of a request, to go on with what this returns. -/
  | calling (r : R) (q : LinkProg α ε (A r)) (k : A r → Prog R A V) : Errand R A α ε V

/-- A call in progress over links. -/
structure Caller (D : Carriage σ R A K α ε) (γ C V : Type) where
  /-- The call. -/
  call : C
  /-- The exchanges it has had, the most recent first. -/
  hist : List (Event A)
  /-- What it is doing. -/
  errand : Errand R A α ε V
  /-- Its links. -/
  lines : (κ : K) → Line α ε γ (D.Cmd κ)

/-- One action of a server. -/
inductive Serving.Step (W : Carrier α ε γ) (listen : LinkProg α ε Q) :
    Serving α ε Q → Act γ → Serving α ε Q → Prop
  | listen {p p' : LinkProg α ε Q} {a : Act γ} (h : Acts W p a p') :
      Step W listen (.listening p) a (.listening p')
  | answer {p p' : LinkProg α ε Bool} {a : Act γ} (h : Acts W p a p') :
      Step W listen (.answering p) a (.answering p')
  | again : Step W listen (.answering (.ret true)) (.out []) (.listening listen)
  | stop : Step W listen (.answering (.ret false)) (.out []) .stopped

/-- A link whose server listens, with nothing under way. -/
def Line.fresh (listen : LinkProg α ε Q) : Line α ε γ Q := ⟨.listening listen, [], []⟩

/-- A caller that is about to start a program. -/
def Caller.fresh (D : Carriage σ R A K α ε) (γ : Type) (c : C) (p : Prog R A V) :
    Caller D γ C V :=
  ⟨c, [], .between p, fun κ => .fresh (D.listen κ)⟩

variable [DecidableEq K]

/-- One step of a caller or of one of its servers, over a carrier. -/
inductive Caller.Moves (D : Carriage σ R A K α ε) (W : Carrier α ε γ) :
    σ → Caller D γ C V → σ → Caller D γ C V → Prop
  /-- A request is answered on the spot. -/
  | onSpot {s : σ} {c : C} {h : List (Event A)} {r : R} {k : A r → Prog R A V}
      {l : (κ : K) → Line α ε γ (D.Cmd κ)} (hd : D.dest r = none) :
      Moves D W s ⟨c, h, .between (.req r k), l⟩ (D.handle s r).2
        ⟨c, ⟨r, (D.handle s r).1⟩ :: h, .between (k (D.handle s r).1), l⟩
  /-- The proxy of a request is called. -/
  | call {s : σ} {c : C} {h : List (Event A)} {r : R} {k : A r → Prog R A V}
      {l : (κ : K) → Line α ε γ (D.Cmd κ)} {κ : K} (hd : D.dest r = some κ) :
      Moves D W s ⟨c, h, .between (.req r k), l⟩ s ⟨c, h, .calling r (D.proxy r) k, l⟩
  /-- It returns. -/
  | back {s : σ} {c : C} {h : List (Event A)} {r : R} {a : A r} {k : A r → Prog R A V}
      {l : (κ : K) → Line α ε γ (D.Cmd κ)} :
      Moves D W s ⟨c, h, .calling r (.ret a) k, l⟩ s ⟨c, ⟨r, a⟩ :: h, .between (k a), l⟩
  /-- The proxy sends. -/
  | clientOut {s : σ} {c : C} {h : List (Event A)} {r : R} {q q' : LinkProg α ε (A r)}
      {k : A r → Prog R A V} {l : (κ : K) → Line α ε γ (D.Cmd κ)} {κ : K} {us : List γ}
      (hd : D.dest r = some κ) (hq : Acts W q (.out us) q') :
      Moves D W s ⟨c, h, .calling r q k, l⟩ s ⟨c, h, .calling r q' k,
        Function.update l κ ⟨(l κ).server, (l κ).toServer ++ us, (l κ).toClient⟩⟩
  /-- The proxy receives. -/
  | clientInp {s : σ} {c : C} {h : List (Event A)} {r : R} {q q' : LinkProg α ε (A r)}
      {k : A r → Prog R A V} {l : (κ : K) → Line α ε γ (D.Cmd κ)} {κ : K} {us v : List γ}
      (hd : D.dest r = some κ) (hq : Acts W q (.inp us) q') (hv : (l κ).toClient = us ++ v) :
      Moves D W s ⟨c, h, .calling r q k, l⟩ s ⟨c, h, .calling r q' k,
        Function.update l κ ⟨(l κ).server, (l κ).toServer, v⟩⟩
  /-- A server sends. -/
  | serverOut {s : σ} {c : C} {h : List (Event A)} {e : Errand R A α ε V}
      {l : (κ : K) → Line α ε γ (D.Cmd κ)} {κ : K} {us : List γ} {z : Serving α ε (D.Cmd κ)}
      (hs : Serving.Step W (D.listen κ) (l κ).server (.out us) z) :
      Moves D W s ⟨c, h, e, l⟩ s ⟨c, h, e,
        Function.update l κ ⟨z, (l κ).toServer, (l κ).toClient ++ us⟩⟩
  /-- A server receives. -/
  | serverInp {s : σ} {c : C} {h : List (Event A)} {e : Errand R A α ε V}
      {l : (κ : K) → Line α ε γ (D.Cmd κ)} {κ : K} {us v : List γ} {z : Serving α ε (D.Cmd κ)}
      (hs : Serving.Step W (D.listen κ) (l κ).server (.inp us) z)
      (hv : (l κ).toServer = us ++ v) :
      Moves D W s ⟨c, h, e, l⟩ s ⟨c, h, e, Function.update l κ ⟨z, v, (l κ).toClient⟩⟩
  /-- A server executes the command it was told. -/
  | exec {s : σ} {c : C} {h : List (Event A)} {e : Errand R A α ε V}
      {l : (κ : K) → Line α ε γ (D.Cmd κ)} {κ : K} {cmd : D.Cmd κ}
      (hs : (l κ).server = .listening (.ret cmd)) :
      Moves D W s ⟨c, h, e, l⟩ (D.exec κ cmd s).2 ⟨c, h, e,
        Function.update l κ ⟨.answering (D.exec κ cmd s).1, (l κ).toServer, (l κ).toClient⟩⟩

/-! ### Requests that are carried faithfully -/

section Faithful

omit [DecidableEq K]

variable (D : Carriage σ R A K α ε) (clean : List α → Prop) (Inv : σ → Prop)

/-- The proxy `q` of a request has to say `out` to have the server `κ` execute `cmd`. In
whatever state this happens, it then hears what the server says, and returns the answer to
the request. -/
def Carriage.Awaits {κ : K} (cmd : D.Cmd κ) (r : R) (q : LinkProg α ε (A r))
    (out : List (List α)) : Prop :=
  ∀ s, Inv s → ∃ f inp, Turn .left q out (f :: inp) (D.handle s r).1 ∧
    Turn .right (D.exec κ cmd s).1 (f :: inp) [] true ∧
    (D.exec κ cmd s).2 = (D.handle s r).2 ∧ f ≠ [] ∧ ∀ g ∈ f :: inp, clean g

/-- A request that is carried by some strings to a server, as a command. -/
structure Carriage.Carries (r : R) (κ : K) (out : List (List α)) (cmd : D.Cmd κ) : Prop where
  hears : Turn .right (D.listen κ) [] out cmd
  out_clean : ∀ f ∈ out, clean f
  awaits : D.Awaits clean Inv cmd r (D.proxy r) out

/-- A request that is answered by its proxy itself, as it would be in any state. -/
def Carriage.Declines (r : R) (a : A r) : Prop := D.proxy r = .ret a ∧ ∀ s, D.handle s r = (a, s)

/-- **Requests that fit are carried faithfully**, in states with an invariant that they
keep, as long as the states are good. -/
structure Carriage.Faithful (Good : σ → Prop) (Fits : R → Prop) : Prop where
  waits : ∀ κ, Waits (D.listen κ)
  keeps : ∀ s r, Inv s → Fits r → Good (D.handle s r).2 → Inv (D.handle s r).2
  carried : ∀ r κ, Fits r → D.dest r = some κ →
    (∃ a, D.Declines r a) ∨ ∃ out cmd, D.Carries clean Inv r κ out cmd

end Faithful

/-! ### A link before, in and after a call -/

section Lines

omit [DecidableEq K]

variable {W : Carrier α ε γ} {clean : List α → Prop} {listen : LinkProg α ε Q} {cmd : Q}
  {out inp : List (List α)} {l : Line α ε γ Q} {z : Serving α ε Q} {us v : List γ}

/-- What a server has still to say before it listens. -/
inductive Serving.Says (listen : LinkProg α ε Q) : Serving α ε Q → List (List α) → Prop
  | listening : Says listen (.listening listen) []
  | answering {p : LinkProg α ε Bool} {said : List (List α)} (h : Turn .right p said [] true) :
      Says listen (.answering p) said

/-- A server that will execute a command when it has heard some strings. It may still have
to send strings without units, or to start listening. -/
inductive Serving.Hears (W : Carrier α ε γ) (listen : LinkProg α ε Q) (cmd : Q) :
    Serving α ε Q → List (List α) → Prop
  | listening {p : LinkProg α ε Q} {heard : List (List α)} (h : Turn .right p [] heard cmd) :
      Hears W listen cmd (.listening p) heard
  | answering {p : LinkProg α ε Bool} {said heard : List (List α)}
      (hp : Turn .right p said [] true) (hsaid : said.flatMap W.units = [])
      (h : Turn .right listen [] heard cmd) : Hears W listen cmd (.answering p) heard

/-- A link on which the command `cmd` is under way, with `out` still to be said. -/
def Line.Asked (W : Carrier α ε γ) (clean : List α → Prop) (listen : LinkProg α ε Q) (cmd : Q)
    (out : List (List α)) (l : Line α ε γ Q) : Prop :=
  ∃ heard, l.server.Hears W listen cmd heard ∧ (∀ f ∈ heard, clean f) ∧
    heard.flatMap W.units = l.toServer ++ out.flatMap W.units ∧ l.toClient = []

/-- A link on which the server has executed a command and answers it, with `inp` still to be
heard. All that was to be said before has arrived. -/
def Line.Replied (W : Carrier α ε γ) (listen : LinkProg α ε Q) (out inp : List (List α))
    (l : Line α ε γ Q) : Prop :=
  ∃ said, l.server.Says listen said ∧ out.flatMap W.units = [] ∧ l.toServer = [] ∧
    inp.flatMap W.units = l.toClient ++ said.flatMap W.units

/-- A link that is not used. -/
def Line.Quiet (W : Carrier α ε γ) (listen : LinkProg α ε Q) (l : Line α ε γ Q) : Prop :=
  l.Replied W listen [] []

theorem quiet_fresh (W : Carrier α ε γ) (listen : LinkProg α ε Q) :
    (Line.fresh listen : Line α ε γ Q).Quiet W listen :=
  ⟨[], .listening, rfl, rfl, rfl⟩

/-- A command may be sent on a link that is not used. -/
theorem Line.Quiet.asked (h : l.Quiet W listen) (hears : Turn .right listen [] out cmd)
    (hclean : ∀ f ∈ out, clean f) : l.Asked W clean listen cmd out := by
  obtain ⟨server, toServer, toClient⟩ := l
  obtain ⟨said, hout₀, -, rfl, hunits⟩ := h
  obtain ⟨rfl, hsaid⟩ := List.append_eq_nil_iff.mp hunits.symm
  refine ⟨out, ?_, hclean, rfl, rfl⟩
  cases hout₀ with
  | listening => exact .listening hears
  | answering hp => exact .answering hp hsaid hears

/-! What the caller and the server do on a link while a command is under way. -/

theorem Line.Asked.clientOut {xs : List α} (h : l.Asked W clean listen cmd (xs :: out)) :
    Line.Asked W clean listen cmd out ⟨l.server, l.toServer ++ W.units xs, l.toClient⟩ := by
  obtain ⟨heard, hears, hclean, hunits, hto⟩ := h
  exact ⟨heard, hears, hclean, by simpa using hunits, hto⟩

theorem Line.Asked.serverOut (h : l.Asked W clean listen cmd out)
    (hs : Serving.Step W listen l.server (.out us) z) :
    Line.Asked W clean listen cmd out ⟨z, l.toServer, l.toClient ++ us⟩ := by
  obtain ⟨server, toServer, toClient⟩ := l
  obtain ⟨heard, hears, hclean, hunits, rfl⟩ := h
  cases hears with
  | listening hp =>
    cases hs with
    | listen ha =>
      obtain ⟨_, _, hc, _⟩ := hp.acts_out ha
      cases hc
  | answering hp hsaid hlisten =>
    cases hs with
    | answer ha =>
      obtain ⟨xs, said, rfl, rfl, hp'⟩ := hp.acts_out ha
      obtain ⟨hxs, hsaid'⟩ := List.append_eq_nil_iff.mp hsaid
      exact ⟨heard, .answering hp' hsaid' hlisten, hclean, hunits, by simpa using hxs⟩
    | again => exact ⟨heard, .listening hlisten, hclean, hunits, rfl⟩
    | stop => cases hp.eq_of_ret.1

theorem Line.Asked.serverInp (hC : W.Conveys clean) (h : l.Asked W clean listen cmd out)
    (hs : Serving.Step W listen l.server (.inp us) z) (hv : l.toServer = us ++ v) :
    Line.Asked W clean listen cmd out ⟨z, v, l.toClient⟩ := by
  obtain ⟨server, toServer, toClient⟩ := l
  obtain ⟨heard, hears, hclean, hunits, rfl⟩ := h
  obtain rfl := hv
  cases hears with
  | listening hp =>
    cases hs with
    | listen ha =>
      rw [List.append_assoc] at hunits
      obtain ⟨-, heard', hv', hp', hclean'⟩ := hp.acts_inp hC ha hclean hunits.symm
      exact ⟨heard', .listening hp', hclean', hv'.symm, rfl⟩
  | answering hp hsaid hlisten =>
    cases hs with
    | answer ha => exact absurd ha hp.not_acts_inp

/-- The server executes the command that was sent, and then all that was to be said has
arrived. -/
theorem Line.Asked.exec {cmd' : Q} (h : l.Asked W clean listen cmd out)
    (hs : l.server = .listening (.ret cmd')) :
    cmd' = cmd ∧ l.toServer = [] ∧ out.flatMap W.units = [] := by
  obtain ⟨server, toServer, toClient⟩ := l
  obtain ⟨heard, hears, -, hunits, -⟩ := h
  obtain rfl := hs
  cases hears with
  | listening hp =>
    obtain ⟨hcmd, -, rfl⟩ := hp.eq_of_ret
    obtain ⟨hto, hout⟩ := List.append_eq_nil_iff.mp hunits.symm
    exact ⟨hcmd, hto, hout⟩

/-- **A server that executes the command it was sent** answers it from then on. -/
theorem Line.Asked.replied {p : LinkProg α ε Bool} {cmd' : Q} (h : l.Asked W clean listen cmd out)
    (hs : l.server = .listening (.ret cmd')) (hp : Turn .right p inp [] true) :
    Line.Replied W listen out inp ⟨.answering p, l.toServer, l.toClient⟩ := by
  obtain ⟨-, hto, hout⟩ := h.exec hs
  obtain ⟨_, _, _, _, hclient⟩ := h
  exact ⟨inp, .answering hp, hout, hto, by simp [hclient]⟩

/-! And after it was executed. -/

theorem Line.Replied.clientOut {xs : List α} (h : l.Replied W listen (xs :: out) inp) :
    Line.Replied W listen out inp ⟨l.server, l.toServer ++ W.units xs, l.toClient⟩ := by
  obtain ⟨said, hout₀, hout, hto, hunits⟩ := h
  obtain ⟨hxs, hout'⟩ := List.append_eq_nil_iff.mp hout
  exact ⟨said, hout₀, hout', by simpa [hto] using hxs, hunits⟩

theorem Line.Replied.clientInp {inp' : List (List α)} (h : l.Replied W listen out inp)
    (hus : inp.flatMap W.units = us ++ inp'.flatMap W.units) (hv : l.toClient = us ++ v) :
    Line.Replied W listen out inp' ⟨l.server, l.toServer, v⟩ := by
  obtain ⟨said, hout₀, hout, hto, hunits⟩ := h
  refine ⟨said, hout₀, hout, hto, ?_⟩
  rw [hus, hv, List.append_assoc] at hunits
  exact List.append_cancel_left hunits

theorem Line.Replied.serverOut (h : l.Replied W listen out inp)
    (hs : Serving.Step W listen l.server (.out us) z) (hw : Waits listen) :
    Line.Replied W listen out inp ⟨z, l.toServer, l.toClient ++ us⟩ := by
  obtain ⟨server, toServer, toClient⟩ := l
  obtain ⟨said, hout₀, hout, hto, hunits⟩ := h
  cases hout₀ with
  | listening =>
    obtain ⟨n, k, rfl⟩ := hw
    cases hs with
    | listen ha => cases ha
  | answering hp =>
    cases hs with
    | answer ha =>
      obtain ⟨xs, said, rfl, rfl, hp'⟩ := hp.acts_out ha
      exact ⟨said, .answering hp', hout, hto, by simpa using hunits⟩
    | again =>
      obtain ⟨-, rfl, -⟩ := hp.eq_of_ret
      exact ⟨[], .listening, hout, hto, by simpa using hunits⟩
    | stop => cases hp.eq_of_ret.1

theorem Line.Replied.not_serverInp (hC : W.Conveys clean) (h : l.Replied W listen out inp)
    (hs : Serving.Step W listen l.server (.inp us) z) (hw : Waits listen) :
    l.toServer ≠ us ++ v := by
  obtain ⟨server, toServer, toClient⟩ := l
  obtain ⟨said, hout₀, -, rfl, -⟩ := h
  intro hv
  obtain ⟨rfl, rfl⟩ := List.append_eq_nil_iff.mp hv.symm
  cases hout₀ with
  | listening =>
    obtain ⟨n, k, rfl⟩ := hw
    cases hs with
    | listen ha =>
      cases ha with
      | recv htakes => exact hC.ne_nil htakes rfl
  | answering hp =>
    cases hs with
    | answer ha => exact hp.not_acts_inp ha

theorem Line.Replied.not_exec {cmd' : Q} (h : l.Replied W listen out inp) (hw : Waits listen) :
    l.server ≠ .listening (.ret cmd') := by
  intro hs
  obtain ⟨server, toServer, toClient⟩ := l
  obtain ⟨said, hout₀, -⟩ := h
  obtain rfl := hs
  obtain ⟨n, k, hlisten⟩ := hw
  cases hout₀ with
  | listening => cases hlisten

/-- A server that was told everything acts. -/
theorem Line.Asked.forward (hC : W.Conveys clean) (h : l.Asked W clean listen cmd []) :
    (∃ cmd', l.server = .listening (.ret cmd')) ∨
      (∃ us z, Serving.Step W listen l.server (.out us) z) ∨
      ∃ us v z, Serving.Step W listen l.server (.inp us) z ∧ l.toServer = us ++ v := by
  obtain ⟨server, toServer, toClient⟩ := l
  obtain ⟨heard, hears, hclean, hunits, -⟩ := h
  cases hears with
  | listening hp =>
    rcases hp.forward hC hclean with ⟨rfl, -⟩ | ⟨_, _, _, hc, _⟩ |
      ⟨-, fs, heard', p', -, rfl, ha, -⟩
    · exact Or.inl ⟨cmd, rfl⟩
    · cases hc
    · refine Or.inr (Or.inr ⟨_, heard'.flatMap W.units, _, .listen ha, ?_⟩)
      simpa using hunits.symm
  | answering hp hsaid hlisten =>
    rcases hp.shape with ⟨rfl, -⟩ | ⟨xs, k, said', rfl, -⟩ | ⟨fs, k, inp', -, -, hfs, hinp, -⟩
    · exact Or.inr (Or.inl ⟨_, _, .again⟩)
    · exact Or.inr (Or.inl ⟨_, _, .answer .send⟩)
    · exact absurd (List.append_eq_nil_iff.mp hinp.symm).1 hfs

/-- A server that has something to say acts. -/
theorem Serving.Says.forward {f : List α} {said : List (List α)} (h : z.Says listen (f :: said)) :
    ∃ us z', Serving.Step W listen z (.out us) z' := by
  cases h with
  | answering hp =>
    rcases hp.shape with ⟨-, hc, -⟩ | ⟨xs, k, said', rfl, -⟩ | ⟨fs, k, inp', -, hc, -⟩
    · cases hc
    · exact ⟨_, _, .answer .send⟩
    · cases hc

end Lines

/-! ### A caller and a thread -/

section Sim

variable (D : Carriage σ R A K α ε) (W : Carrier α ε γ) (clean : List α → Prop) (Inv : σ → Prop)
  (Fits : R → Prop)

/-- **A caller does what a thread of a pool does.** The request it is carrying is pending
there until its server executes the command, and answered from then on. -/
inductive Caller.Sim : Caller D γ C V → Thread R A C V → Prop
  | between {c : C} {h : List (Event A)} {p : Prog R A V} {l : (κ : K) → Line α ε γ (D.Cmd κ)}
      (hl : ∀ κ, (l κ).Quiet W (D.listen κ)) : Sim ⟨c, h, .between p, l⟩ ⟨c, h, p⟩
  | declined {c : C} {h : List (Event A)} {r : R} {a : A r} {k : A r → Prog R A V}
      {l : (κ : K) → Line α ε γ (D.Cmd κ)} (hfit : Fits r) (ha : ∀ s, D.handle s r = (a, s))
      (hl : ∀ κ, (l κ).Quiet W (D.listen κ)) :
      Sim ⟨c, h, .calling r (.ret a) k, l⟩ ⟨c, h, .req r k⟩
  | asking {c : C} {h : List (Event A)} {r : R} {q : LinkProg α ε (A r)} {k : A r → Prog R A V}
      {l : (κ : K) → Line α ε γ (D.Cmd κ)} {κ : K} {cmd : D.Cmd κ} {out : List (List α)}
      (hfit : Fits r) (hd : D.dest r = some κ) (hq : D.Awaits clean Inv cmd r q out)
      (hκ : (l κ).Asked W clean (D.listen κ) cmd out)
      (hl : ∀ κ', κ' ≠ κ → (l κ').Quiet W (D.listen κ')) :
      Sim ⟨c, h, .calling r q k, l⟩ ⟨c, h, .req r k⟩
  | answered {c : C} {h : List (Event A)} {r : R} {q : LinkProg α ε (A r)} {a : A r}
      {k : A r → Prog R A V} {l : (κ : K) → Line α ε γ (D.Cmd κ)} {κ : K}
      {out inp : List (List α)} (hd : D.dest r = some κ) (hq : Turn .left q out inp a)
      (hclean : ∀ f ∈ inp, clean f) (hκ : (l κ).Replied W (D.listen κ) out inp)
      (hl : ∀ κ', κ' ≠ κ → (l κ').Quiet W (D.listen κ')) :
      Sim ⟨c, h, .calling r q k, l⟩ ⟨c, ⟨r, a⟩ :: h, k a⟩

variable {D W clean Inv Fits} {Good : σ → Prop} {l : (κ : K) → Line α ε γ (D.Cmd κ)} {s s' : σ}
  {t t' : Caller D γ C V} {u : Thread R A C V}

/-- Where a caller stands, as far as a pool can tell. -/
inductive Caller.Stands : Caller D γ C V → Thread R A C V → Prop
  /-- It is between two requests, like the thread. -/
  | between {c : C} {h : List (Event A)} {p : Prog R A V} {l : (κ : K) → Line α ε γ (D.Cmd κ)} :
      Stands ⟨c, h, .between p, l⟩ ⟨c, h, p⟩
  /-- The request it is carrying has not been answered yet. -/
  | pending {c : C} {h : List (Event A)} {r : R} {q : LinkProg α ε (A r)} {k : A r → Prog R A V}
      {l : (κ : K) → Line α ε γ (D.Cmd κ)} :
      Stands ⟨c, h, .calling r q k, l⟩ ⟨c, h, .req r k⟩
  /-- It has. -/
  | answered {c : C} {h : List (Event A)} {r : R} {q : LinkProg α ε (A r)} {k : A r → Prog R A V}
      {l : (κ : K) → Line α ε γ (D.Cmd κ)} (a : A r) :
      Stands ⟨c, h, .calling r q k, l⟩ ⟨c, ⟨r, a⟩ :: h, k a⟩

omit [DecidableEq K] in
theorem Caller.Sim.stands (h : Caller.Sim D W clean Inv Fits t u) : t.Stands u := by
  cases h with
  | between _ => exact .between
  | declined _ _ _ => exact .pending
  | asking _ _ _ _ _ => exact .pending
  | answered _ _ _ _ _ => exact .answered _

/-- A thread whose pending request has been answered. -/
def Carriage.answeredThread (D : Carriage σ R A K α ε) (s : σ) (c : C) (h : List (Event A)) (r : R)
    (k : A r → Prog R A V) : Thread R A C V :=
  ⟨c, ⟨r, (D.handle s r).1⟩ :: h, k (D.handle s r).1⟩

/-- What becomes of a thread when its caller acts: nothing, or its pending request is
answered. -/
inductive Carriage.Keeps (D : Carriage σ R A K α ε) (Fits : R → Prop) (s : σ) :
    Thread R A C V → σ → Thread R A C V → Prop
  | still {u : Thread R A C V} : Keeps D Fits s u s u
  | request {c : C} {h : List (Event A)} {r : R} {k : A r → Prog R A V} (hfit : Fits r) :
      Keeps D Fits s ⟨c, h, .req r k⟩ (D.handle s r).2 (D.answeredThread s c h r k)

theorem quiet_update {κ : K} {x : Line α ε γ (D.Cmd κ)} (hx : x.Quiet W (D.listen κ))
    (hl : ∀ κ', κ' ≠ κ → (l κ').Quiet W (D.listen κ')) (κ' : K) :
    (Function.update l κ x κ').Quiet W (D.listen κ') := by
  rcases eq_or_ne κ' κ with rfl | hne
  · rwa [Function.update_self]
  · rw [Function.update_of_ne hne]
    exact hl κ' hne

theorem quiet_update_of_ne {κ κ' : K} {x : Line α ε γ (D.Cmd κ')}
    (hx : x.Quiet W (D.listen κ')) (hl : ∀ κ', κ' ≠ κ → (l κ').Quiet W (D.listen κ')) :
    ∀ κ'', κ'' ≠ κ → (Function.update l κ' x κ'').Quiet W (D.listen κ'') := by
  intro κ'' hne
  rcases eq_or_ne κ'' κ' with rfl | hne'
  · rwa [Function.update_self]
  · rw [Function.update_of_ne hne']
    exact hl κ'' hne

section Moves

variable {c : C} {h : List (Event A)} {e : Errand R A α ε V} {κ : K} {us v : List γ}
  {z : Serving α ε (D.Cmd κ)}

/-- A caller does not notice that a server sends. -/
theorem Caller.Sim.serverOut (hw : ∀ κ, Waits (D.listen κ))
    (hsim : Caller.Sim D W clean Inv Fits ⟨c, h, e, l⟩ u)
    (hs : Serving.Step W (D.listen κ) (l κ).server (.out us) z) :
    Caller.Sim D W clean Inv Fits
      ⟨c, h, e, Function.update l κ ⟨z, (l κ).toServer, (l κ).toClient ++ us⟩⟩ u := by
  cases hsim with
  | between hl => exact .between (quiet_update ((hl κ).serverOut hs (hw κ)) fun κ' _ => hl κ')
  | declined hfit ha hl =>
    exact .declined hfit ha (quiet_update ((hl κ).serverOut hs (hw κ)) fun κ' _ => hl κ')
  | @asking _ _ _ _ _ _ κ' _ _ hfit hd hq hκ hl =>
    rcases eq_or_ne κ κ' with rfl | hne
    · refine .asking hfit hd hq ?_ fun κ' hκ' => ?_
      · rw [Function.update_self]
        exact hκ.serverOut hs
      · rw [Function.update_of_ne hκ']
        exact hl κ' hκ'
    · refine .asking hfit hd hq ?_ (quiet_update_of_ne ((hl κ hne).serverOut hs (hw κ)) hl)
      rwa [Function.update_of_ne hne.symm]
  | @answered _ _ _ _ _ _ _ κ' _ _ hd hq hclean hκ hl =>
    rcases eq_or_ne κ κ' with rfl | hne
    · refine .answered hd hq hclean ?_ fun κ' hκ' => ?_
      · rw [Function.update_self]
        exact hκ.serverOut hs (hw κ)
      · rw [Function.update_of_ne hκ']
        exact hl κ' hκ'
    · refine .answered hd hq hclean ?_ (quiet_update_of_ne ((hl κ hne).serverOut hs (hw κ)) hl)
      rwa [Function.update_of_ne hne.symm]

/-- Nor that one receives, which it does only while the request is under way. -/
theorem Caller.Sim.serverInp (hC : W.Conveys clean) (hw : ∀ κ, Waits (D.listen κ))
    (hsim : Caller.Sim D W clean Inv Fits ⟨c, h, e, l⟩ u)
    (hs : Serving.Step W (D.listen κ) (l κ).server (.inp us) z) (hv : (l κ).toServer = us ++ v) :
    Caller.Sim D W clean Inv Fits
      ⟨c, h, e, Function.update l κ ⟨z, v, (l κ).toClient⟩⟩ u := by
  cases hsim with
  | between hl => exact absurd hv ((hl κ).not_serverInp hC hs (hw κ))
  | declined hfit ha hl => exact absurd hv ((hl κ).not_serverInp hC hs (hw κ))
  | @asking _ _ _ _ _ _ κ' _ _ hfit hd hq hκ hl =>
    rcases eq_or_ne κ κ' with rfl | hne
    · refine .asking hfit hd hq ?_ fun κ' hκ' => ?_
      · rw [Function.update_self]
        exact hκ.serverInp hC hs hv
      · rw [Function.update_of_ne hκ']
        exact hl κ' hκ'
    · exact absurd hv ((hl κ hne).not_serverInp hC hs (hw κ))
  | @answered _ _ _ _ _ _ _ κ' _ _ hd hq hclean hκ hl =>
    rcases eq_or_ne κ κ' with rfl | hne
    · exact absurd hv (hκ.not_serverInp hC hs (hw κ))
    · exact absurd hv ((hl κ hne).not_serverInp hC hs (hw κ))

/-- **When a server executes a command, the request is answered**, and this is the only
time a server executes one. -/
theorem Caller.Sim.exec (hw : ∀ κ, Waits (D.listen κ)) (hs : Inv s) {cmd : D.Cmd κ}
    (hsim : Caller.Sim D W clean Inv Fits ⟨c, h, e, l⟩ u)
    (hcmd : (l κ).server = .listening (.ret cmd)) :
    ∃ u', D.Keeps Fits s u (D.exec κ cmd s).2 u' ∧ Caller.Sim D W clean Inv Fits ⟨c, h, e,
      Function.update l κ ⟨.answering (D.exec κ cmd s).1, (l κ).toServer, (l κ).toClient⟩⟩ u' := by
  cases hsim with
  | between hl => exact absurd hcmd ((hl κ).not_exec (hw κ))
  | declined hfit ha hl => exact absurd hcmd ((hl κ).not_exec (hw κ))
  | @asking _ _ r q k _ κ' _ _ hfit hd hq hκ hl =>
    rcases eq_or_ne κ κ' with rfl | hne
    · obtain ⟨rfl, -, -⟩ := hκ.exec hcmd
      obtain ⟨f, inp, hturn, hanswer, hstate, -, hclean⟩ := hq s hs
      rw [hstate]
      refine ⟨_, .request hfit, .answered hd hturn hclean ?_ fun κ' hκ' => ?_⟩
      · rw [Function.update_self]
        exact hκ.replied hcmd hanswer
      · rw [Function.update_of_ne hκ']
        exact hl κ' hκ'
    · exact absurd hcmd ((hl κ hne).not_exec (hw κ))
  | @answered _ _ _ _ _ _ _ κ' _ _ hd hq hclean hκ hl =>
    rcases eq_or_ne κ κ' with rfl | hne
    · exact absurd hcmd (hκ.not_exec (hw κ))
    · exact absurd hcmd ((hl κ hne).not_exec (hw κ))

section Client

variable {r : R} {q q' : LinkProg α ε (A r)} {k : A r → Prog R A V}

/-- A proxy that sends says what it has to say next. -/
theorem Caller.Sim.clientOut (hs : Inv s)
    (hsim : Caller.Sim D W clean Inv Fits ⟨c, h, .calling r q k, l⟩ u) (hd : D.dest r = some κ)
    (hq : Acts W q (.out us) q') :
    Caller.Sim D W clean Inv Fits ⟨c, h, .calling r q' k,
      Function.update l κ ⟨(l κ).server, (l κ).toServer ++ us, (l κ).toClient⟩⟩ u := by
  cases hsim with
  | declined => cases hq
  | @asking _ _ _ _ _ _ _ cmd _ hfit hd' hawaits hκ hl =>
    obtain rfl := Option.some.inj (hd.symm.trans hd')
    -- what it says next does not depend on what it will hear
    obtain ⟨f, inp, hturn, -⟩ := hawaits s hs
    obtain ⟨xs, out, rfl, rfl, -⟩ := hturn.acts_out hq
    have hawaits' : D.Awaits clean Inv cmd r q' out := by
      intro s' hs'
      obtain ⟨f, inp, hturn, hrest⟩ := hawaits s' hs'
      obtain ⟨_, _, hout, -, hturn'⟩ := hturn.acts_out hq
      cases hout
      exact ⟨f, inp, hturn', hrest⟩
    refine .asking hfit hd hawaits' ?_ fun κ' hκ' => ?_
    · rw [Function.update_self]
      exact hκ.clientOut
    · rw [Function.update_of_ne hκ']
      exact hl κ' hκ'
  | answered hd' hturn hclean hκ hl =>
    obtain rfl := Option.some.inj (hd.symm.trans hd')
    obtain ⟨xs, out, rfl, rfl, hturn'⟩ := hturn.acts_out hq
    refine .answered hd hturn' hclean ?_ fun κ' hκ' => ?_
    · rw [Function.update_self]
      exact hκ.clientOut
    · rw [Function.update_of_ne hκ']
      exact hl κ' hκ'

/-- A proxy that receives has been answered, and hears what it has to hear next. -/
theorem Caller.Sim.clientInp (hC : W.Conveys clean) (hs : Inv s)
    (hsim : Caller.Sim D W clean Inv Fits ⟨c, h, .calling r q k, l⟩ u) (hd : D.dest r = some κ)
    (hq : Acts W q (.inp us) q') (hv : (l κ).toClient = us ++ v) :
    Caller.Sim D W clean Inv Fits ⟨c, h, .calling r q' k,
      Function.update l κ ⟨(l κ).server, (l κ).toServer, v⟩⟩ u := by
  cases hsim with
  | declined => cases hq
  | asking hfit hd' hawaits hκ hl =>
    obtain rfl := Option.some.inj (hd.symm.trans hd')
    obtain ⟨_, -, -, -, hclient⟩ := hκ
    obtain ⟨rfl, -⟩ := List.append_eq_nil_iff.mp (hv.symm.trans hclient)
    obtain ⟨f, inp, hturn, -, -, hf, -⟩ := hawaits s hs
    exact absurd hq (hturn.not_acts_nil hC hf)
  | answered hd' hturn hclean hκ hl =>
    obtain rfl := Option.some.inj (hd.symm.trans hd')
    obtain ⟨said, -, -, -, hunits⟩ := id hκ
    rw [hv, List.append_assoc] at hunits
    obtain ⟨rfl, inp', hinp', hturn', hclean'⟩ := hturn.acts_inp hC hq hclean hunits.symm
    refine .answered hd hturn' hclean' ?_ fun κ' hκ' => ?_
    · rw [Function.update_self]
      exact hκ.clientInp (hunits.trans (congrArg (us ++ ·) hinp')) hv
    · rw [Function.update_of_ne hκ']
      exact hl κ' hκ'

omit [DecidableEq K] in
/-- A proxy that returns gives the answer to its request. -/
theorem Caller.Sim.back (hs : Inv s) {a : A r}
    (hsim : Caller.Sim D W clean Inv Fits ⟨c, h, .calling r (.ret a) k, l⟩ u) :
    ∃ u', D.Keeps Fits s u s u' ∧
      Caller.Sim D W clean Inv Fits ⟨c, ⟨r, a⟩ :: h, .between (k a), l⟩ u' := by
  cases hsim with
  | declined hfit ha hl =>
    have hkeeps : D.Keeps Fits s ⟨c, h, .req r k⟩ _ _ := .request hfit
    rw [Carriage.answeredThread, ha s] at hkeeps
    exact ⟨_, hkeeps, .between hl⟩
  | asking hfit hd hawaits hκ hl =>
    obtain ⟨f, inp, hturn, -⟩ := hawaits s hs
    cases hturn.eq_of_ret.2.2
  | @answered _ _ _ _ _ _ _ κ out inp hd hturn hclean hκ hl =>
    obtain ⟨rfl, rfl, rfl⟩ := hturn.eq_of_ret
    refine ⟨_, .still, .between fun κ' => ?_⟩
    rcases eq_or_ne κ' κ with rfl | hne
    · exact hκ
    · exact hl κ' hne

end Client

end Moves

/-- **A caller that acts does what its thread does**: nothing, or its pending request is
answered. -/
theorem Caller.Sim.step (hC : W.Conveys clean) (hD : D.Faithful clean Inv Good Fits) (hs : Inv s)
    (hsim : Caller.Sim D W clean Inv Fits t u)
    (hfit : ∀ r k, t.errand = .between (.req r k) → Fits r) (hm : Caller.Moves D W s t s' t') :
    ∃ u', D.Keeps Fits s u s' u' ∧ Caller.Sim D W clean Inv Fits t' u' := by
  cases hm with
  | onSpot hd =>
    cases hsim with
    | between hl => exact ⟨_, .request (hfit _ _ rfl), .between hl⟩
  | @call c h r k l κ hd =>
    cases hsim with
    | between hl =>
      refine ⟨_, .still, ?_⟩
      rcases hD.carried r κ (hfit _ _ rfl) hd with ⟨a, hproxy, ha⟩ | ⟨out, cmd, hcarries⟩
      · rw [hproxy]
        exact .declined (hfit _ _ rfl) ha hl
      · exact .asking (hfit _ _ rfl) hd hcarries.awaits
          ((hl κ).asked hcarries.hears hcarries.out_clean) fun κ' _ => hl κ'
  | back => exact hsim.back hs
  | clientOut hd hq => exact ⟨_, .still, hsim.clientOut hs hd hq⟩
  | clientInp hd hq hv => exact ⟨_, .still, hsim.clientInp hC hs hd hq hv⟩
  | serverOut hz => exact ⟨_, .still, hsim.serverOut hD.waits hz⟩
  | serverInp hz hv => exact ⟨_, .still, hsim.serverInp hC hD.waits hz hv⟩
  | exec hcmd => exact hsim.exec hD.waits hs hcmd

/-- A caller that has nothing left to ask. -/
def Caller.Done (t : Caller D γ C V) : Prop := ∃ p, t.errand = .between p ∧ p.pending? = none

/-- **A caller never gets stuck**: as long as it has something to ask, it or a server of its
own can act. -/
theorem Caller.Sim.forward (hC : W.Conveys clean) (hs : Inv s)
    (hsim : Caller.Sim D W clean Inv Fits t u) :
    t.Done ∨ ∃ s' t', Caller.Moves D W s t s' t' := by
  -- between two requests, declined on the spot, asking, or answered
  cases hsim with
  | @between c h p l hl =>
    cases p with
    | ret a => exact Or.inl ⟨_, rfl, rfl⟩
    | stop w => exact Or.inl ⟨_, rfl, rfl⟩
    | req r k =>
      rcases hd : D.dest r with _ | κ
      · exact Or.inr ⟨_, _, .onSpot hd⟩
      · exact Or.inr ⟨_, _, .call hd⟩
  | declined => exact Or.inr ⟨_, _, .back⟩
  | @asking _ _ _ _ _ l κ _ _ hfit hd hq hκ hl =>
    refine Or.inr ?_
    obtain ⟨f, inp, hturn, -, -, -, hclean⟩ := hq s hs
    rcases hturn.forward hC hclean with ⟨-, -, hc⟩ | ⟨xs, out, q', rfl, ha, -⟩ | ⟨rfl, -⟩
    · cases hc
    · exact ⟨_, _, .clientOut hd ha⟩
    · -- it waits for its server
      rcases hκ.forward hC with ⟨cmd, hcmd⟩ | ⟨us, z, hz⟩ | ⟨us, v, z, hz, hv⟩
      · exact ⟨_, _, .exec hcmd⟩
      · exact ⟨_, _, .serverOut hz⟩
      · exact ⟨_, _, .serverInp hz hv⟩
  | @answered _ _ _ _ _ _ l κ _ _ hd hq hclean hκ hl =>
    refine Or.inr ?_
    rcases hq.forward hC hclean with ⟨rfl, -, -⟩ | ⟨xs, out, q', rfl, ha, -⟩ |
      ⟨rfl, fs, inp', q', -, rfl, ha, -⟩
    · exact ⟨_, _, .back⟩
    · exact ⟨_, _, .clientOut hd ha⟩
    · obtain ⟨said, hout₀, -, -, hunits⟩ := hκ
      obtain _ | ⟨g, said⟩ := said
      · refine ⟨_, _, .clientInp (v := inp'.flatMap W.units) hd ha ?_⟩
        simpa using hunits.symm
      · obtain ⟨us, z, hz⟩ := hout₀.forward (W := W)
        exact ⟨_, _, .serverOut hz⟩

end Sim

end Interleave

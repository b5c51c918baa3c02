import Hermes.Interleave.Remote

/-!
# Callers over links

Any number of callers (`Interleave.Caller`) that act on a shared state through servers of
their own: `Interleave.Net`. A run is any interleaving of the actions of all proxies and all
servers. **Callers over links are threads of a pool**:

* `Interleave.Net.Runs.matched`: whatever they reach, the threads of a pool reach; only the
  request that a caller is carrying may have been answered there already, or not yet;
* `Interleave.exists_net`: whatever the threads of a pool reach, callers over links reach.

For the second one an exchange has to be brought to its end (`Interleave.exists_exchange`).
-/

namespace Interleave

variable {σ R K α ε γ C V : Type} {A : R → Type} [DecidableEq K]

/-! ### One exchange -/

section Exchange

variable {D : Carriage σ R A K α ε} {W : Carrier α ε γ} {clean : List α → Prop} {Inv : σ → Prop}
  {Good : σ → Prop} {Fits : R → Prop}

/-- A caller whose next request fits. -/
def Caller.Fit (Fits : R → Prop) (t : Caller D γ C V) : Prop :=
  ∀ r k, t.errand = .between (.req r k) → Fits r

/-- Any number of steps of a caller, to good states and with requests that fit. -/
abbrev Caller.Reaches (W : Carrier α ε γ) (Good : σ → Prop) (Fits : R → Prop) :
    σ × Caller D γ C V → σ × Caller D γ C V → Prop :=
  Relation.ReflTransGen fun x y =>
    Caller.Moves D W x.1 x.2 y.1 y.2 ∧ Good y.1 ∧ y.2.Fit Fits

section Steps

variable {X : σ × Caller D γ C V} {s : σ} {c : C} {h : List (Event A)} {r : R}
  {q q' : LinkProg α ε (A r)} {k : A r → Prog R A V} {l : (κ : K) → Line α ε γ (D.Cmd κ)} {κ : K}
  {x : Line α ε γ (D.Cmd κ)} {us v : List γ} {z : Serving α ε (D.Cmd κ)}

theorem Caller.Reaches.clientOut (hgood : Good s)
    (hX : Caller.Reaches W Good Fits X (s, ⟨c, h, .calling r q k, Function.update l κ x⟩))
    (hd : D.dest r = some κ) (hq : Acts W q (.out us) q') :
    Caller.Reaches W Good Fits X (s, ⟨c, h, .calling r q' k,
      Function.update l κ ⟨x.server, x.toServer ++ us, x.toClient⟩⟩) := by
  have hstep := Caller.Moves.clientOut (D := D) (s := s) (c := c) (h := h) (k := k)
    (l := Function.update l κ x) hd hq
  rw [Function.update_self, Function.update_idem] at hstep
  exact hX.tail ⟨hstep, hgood, fun _ _ hc => by cases hc⟩

theorem Caller.Reaches.clientInp (hgood : Good s)
    (hX : Caller.Reaches W Good Fits X (s, ⟨c, h, .calling r q k, Function.update l κ x⟩))
    (hd : D.dest r = some κ) (hq : Acts W q (.inp us) q') (hv : x.toClient = us ++ v) :
    Caller.Reaches W Good Fits X (s, ⟨c, h, .calling r q' k,
      Function.update l κ ⟨x.server, x.toServer, v⟩⟩) := by
  have hstep := Caller.Moves.clientInp (D := D) (s := s) (c := c) (h := h) (k := k)
    (l := Function.update l κ x) (v := v) hd hq (by rw [Function.update_self, hv])
  rw [Function.update_self, Function.update_idem] at hstep
  exact hX.tail ⟨hstep, hgood, fun _ _ hc => by cases hc⟩

theorem Caller.Reaches.serverOut (hgood : Good s)
    (hX : Caller.Reaches W Good Fits X (s, ⟨c, h, .calling r q k, Function.update l κ x⟩))
    (hz : Serving.Step W (D.listen κ) x.server (.out us) z) :
    Caller.Reaches W Good Fits X (s, ⟨c, h, .calling r q k,
      Function.update l κ ⟨z, x.toServer, x.toClient ++ us⟩⟩) := by
  have hstep := Caller.Moves.serverOut (D := D) (s := s) (c := c) (h := h)
    (e := .calling r q k) (l := Function.update l κ x) (z := z) (by rwa [Function.update_self])
  rw [Function.update_self, Function.update_idem] at hstep
  exact hX.tail ⟨hstep, hgood, fun _ _ hc => by cases hc⟩

theorem Caller.Reaches.serverInp (hgood : Good s)
    (hX : Caller.Reaches W Good Fits X (s, ⟨c, h, .calling r q k, Function.update l κ x⟩))
    (hz : Serving.Step W (D.listen κ) x.server (.inp us) z) (hv : x.toServer = us ++ v) :
    Caller.Reaches W Good Fits X (s, ⟨c, h, .calling r q k,
      Function.update l κ ⟨z, v, x.toClient⟩⟩) := by
  have hstep := Caller.Moves.serverInp (D := D) (s := s) (c := c) (h := h)
    (e := .calling r q k) (l := Function.update l κ x) (z := z) (v := v)
    (by rwa [Function.update_self]) (by rw [Function.update_self, hv])
  rw [Function.update_self, Function.update_idem] at hstep
  exact hX.tail ⟨hstep, hgood, fun _ _ hc => by cases hc⟩

theorem Caller.Reaches.exec {cmd : D.Cmd κ} (hgood : Good (D.exec κ cmd s).2)
    (hX : Caller.Reaches W Good Fits X (s, ⟨c, h, .calling r q k, Function.update l κ x⟩))
    (hcmd : x.server = .listening (.ret cmd)) :
    Caller.Reaches W Good Fits X ((D.exec κ cmd s).2, ⟨c, h, .calling r q k,
      Function.update l κ ⟨.answering (D.exec κ cmd s).1, x.toServer, x.toClient⟩⟩) := by
  have hserver : (Function.update l κ x κ).server = .listening (.ret cmd) := by
    rw [Function.update_self, hcmd]
  have hstep := Caller.Moves.exec (D := D) (W := W) (s := s) (c := c) (h := h)
    (e := .calling r q k) hserver
  rw [Function.update_self, Function.update_idem] at hstep
  exact hX.tail ⟨hstep, hgood, fun _ _ hc => by cases hc⟩

/-- A server says all it has to say. -/
theorem Caller.Reaches.replies (hgood : Good s) {p : LinkProg α ε Bool} {said : List (List α)}
    {toServer w : List γ}
    (hX : Caller.Reaches W Good Fits X (s, ⟨c, h, .calling r q k,
      Function.update l κ ⟨.answering p, toServer, w⟩⟩)) (hp : Turn .right p said [] true) :
    Caller.Reaches W Good Fits X (s, ⟨c, h, .calling r q k,
      Function.update l κ ⟨.answering (.ret true), toServer, w ++ said.flatMap W.units⟩⟩) := by
  obtain ⟨p', hp', hX'⟩ := hp.say (C := W)
    (M := fun p w => Caller.Reaches W Good Fits X (s, ⟨c, h, .calling r q k,
      Function.update l κ ⟨.answering p, toServer, w⟩⟩))
    (fun p p' us w hM ha => hM.serverOut hgood (.answer ha)) hX
  rcases hp'.shape with ⟨rfl, -⟩ | ⟨_, _, _, -, hc, _⟩ | ⟨fs, _, _, -, -, hfs, hinp, _⟩
  · exact hX'
  · cases hc
  · exact absurd (List.append_eq_nil_iff.mp hinp.symm).1 hfs

end Steps

/-- A link that is not used can be made one whose server listens. -/
theorem Caller.Reaches.listens {X : σ × Caller D γ C V} {s : σ} {c : C} {h : List (Event A)}
    {r : R} {q : LinkProg α ε (A r)} {k : A r → Prog R A V}
    {l : (κ : K) → Line α ε γ (D.Cmd κ)} {κ : K} {server : Serving α ε (D.Cmd κ)}
    {toServer : List γ} (hgood : Good s)
    (hX : Caller.Reaches W Good Fits X (s, ⟨c, h, .calling r q k,
      Function.update l κ ⟨server, toServer, []⟩⟩)) {said : List (List α)}
    (hout₀ : server.Says (D.listen κ) said) (hsaid : said.flatMap W.units = []) :
    Caller.Reaches W Good Fits X (s, ⟨c, h, .calling r q k,
      Function.update l κ ⟨.listening (D.listen κ), toServer, []⟩⟩) := by
  cases hout₀ with
  | listening => exact hX
  | answering hp =>
    have hX' := hX.replies hgood hp
    rw [hsaid] at hX'
    exact hX'.serverOut hgood .again

/-- **The carrying of a request**, from the call of its proxy to the point at which this is
about to return. -/
theorem Caller.Reaches.carry (hC : W.Conveys clean) {X : σ × Caller D γ C V} {s : σ} {c : C}
    {h : List (Event A)} {r : R} {k : A r → Prog R A V} {l : (κ : K) → Line α ε γ (D.Cmd κ)}
    {κ : K} {out : List (List α)} {cmd : D.Cmd κ} (hs : Inv s)
    (hgood : Good s) (hgood' : Good (D.handle s r).2)
    (hX : Caller.Reaches W Good Fits X (s, ⟨c, h, .calling r (D.proxy r) k, l⟩))
    (hd : D.dest r = some κ) (hκ : (l κ).Quiet W (D.listen κ))
    (hcarries : D.Carries clean Inv r κ out cmd) :
    Caller.Reaches W Good Fits X ((D.handle s r).2, ⟨c, h, .calling r (.ret (D.handle s r).1) k,
      Function.update l κ ⟨.answering (.ret true), [], []⟩⟩) := by
  obtain ⟨f, inp, hproxy, hanswer, hstate, -, hclean⟩ := hcarries.awaits s hs
  obtain ⟨said, hout₀, -, hto, hunits⟩ := hκ
  obtain ⟨hclient, hsaid⟩ := List.append_eq_nil_iff.mp hunits.symm
  -- the caller says everything
  have h0 : Caller.Reaches W Good Fits X (s, ⟨c, h, .calling r (D.proxy r) k,
      Function.update l κ ⟨(l κ).server, [], []⟩⟩) := by
    have hline : (⟨(l κ).server, [], []⟩ : Line α ε γ (D.Cmd κ)) = l κ :=
      Line.ext rfl hto.symm hclient.symm
    rwa [hline, Function.update_eq_self]
  obtain ⟨q, hq, h1⟩ := hproxy.say (C := W)
    (M := fun q w => Caller.Reaches W Good Fits X (s, ⟨c, h, .calling r q k,
      Function.update l κ ⟨(l κ).server, w, []⟩⟩))
    (fun q q' us w hM ha => hM.clientOut hgood hd ha) h0
  -- the server hears it
  have h2 := h1.listens hgood hout₀ hsaid
  have h3 := hcarries.hears.hear hC (w := [])
    (M := fun p w => Caller.Reaches W Good Fits X (s, ⟨c, h, .calling r q k,
      Function.update l κ ⟨.listening p, w, []⟩⟩))
    (fun p p' us w hM ha => hM.serverInp hgood (.listen ha) rfl) hcarries.out_clean
    (by simpa using h2)
  -- and executes it, and says what came of it
  rw [← hstate] at hgood'
  have h4 := (h3.exec hgood' rfl).replies hgood' hanswer
  rw [hstate, List.nil_append] at h4
  rw [hstate] at hgood'
  -- the caller hears this
  exact hq.hear hC (w := [])
    (M := fun q w => Caller.Reaches W Good Fits X ((D.handle s r).2, ⟨c, h, .calling r q k,
      Function.update l κ ⟨.answering (.ret true), [], w⟩⟩))
    (fun q q' us w hM ha => hM.clientInp hgood' hd ha rfl) hclean (by simpa using h4)

/-- **An exchange over a link**: from between two requests a caller comes to between the
next two, with the answer that the request has in one step. -/
theorem exists_exchange (hC : W.Conveys clean) (hD : D.Faithful clean Inv Good Fits) {s : σ}
    (hs : Inv s) {r : R} (hfit : Fits r) (hgood : Good s) (hgood' : Good (D.handle s r).2)
    {k : A r → Prog R A V} (c : C) (h : List (Event A))
    {l : (κ : K) → Line α ε γ (D.Cmd κ)} (hl : ∀ κ, (l κ).Quiet W (D.listen κ))
    (hk : ∀ r' k', k (D.handle s r).1 = .req r' k' → Fits r') :
    ∃ l', Caller.Reaches W Good Fits (s, ⟨c, h, .between (.req r k), l⟩)
        ((D.handle s r).2, ⟨c, ⟨r, (D.handle s r).1⟩ :: h, .between (k (D.handle s r).1), l'⟩) ∧
      ∀ κ, (l' κ).Quiet W (D.listen κ) := by
  have hnext : ∀ l', (⟨c, ⟨r, (D.handle s r).1⟩ :: h, .between (k (D.handle s r).1), l'⟩ :
      Caller D γ C V).Fit Fits := fun l' r' k' he => hk r' k' (Errand.between.inj he)
  rcases hd : D.dest r with _ | κ
  · exact ⟨l, .single ⟨.onSpot hd, hgood', hnext l⟩, hl⟩
  · have hcall : Caller.Reaches W Good Fits (s, ⟨c, h, .between (.req r k), l⟩)
        (s, ⟨c, h, .calling r (D.proxy r) k, l⟩) :=
      .single ⟨.call hd, hgood, fun _ _ hc => by cases hc⟩
    rcases hD.carried r κ hfit hd with ⟨a, hproxy, ha⟩ | ⟨out, cmd, hcarries⟩
    · rw [hproxy] at hcall
      rw [ha s] at hnext ⊢
      exact ⟨l, hcall.tail ⟨.back, hgood, hnext l⟩, hl⟩
    · refine ⟨_, (hcall.carry hC hs hgood hgood' hd (hl κ) hcarries).tail
        ⟨.back, hgood', hnext _⟩, ?_⟩
      exact quiet_update ⟨[], .answering (turn_ret true), rfl, rfl, rfl⟩ fun κ' _ => hl κ'

end Exchange

/-! ### Many callers -/

/-- A shared state and the callers acting on it. -/
structure Net (D : Carriage σ R A K α ε) (γ C V : Type) where
  /-- The shared state. -/
  state : σ
  /-- All callers that ever started, in the order of their start. -/
  callers : List (Caller D γ C V)

section Net

variable {D : Carriage σ R A K α ε} {W : Carrier α ε γ} {clean : List α → Prop} {Inv : σ → Prop}
  {Good : σ → Prop} {Fits : R → Prop} {starts : C → Prog R A V → Prop}

/-- One step: a call is started, with links of its own, or a caller or one of its servers
acts. -/
inductive Net.Step (W : Carrier α ε γ) (starts : C → Prog R A V → Prop) :
    Net D γ C V → Net D γ C V → Prop
  | start {N : Net D γ C V} {c : C} {p : Prog R A V} (h : starts c p) :
      Step W starts N ⟨N.state, N.callers ++ [.fresh D γ c p]⟩
  | act {N : Net D γ C V} {i : ℕ} {t t' : Caller D γ C V} {s' : σ} (hi : N.callers[i]? = some t)
      (hm : Caller.Moves D W N.state t s' t') : Step W starts N ⟨s', N.callers.set i t'⟩

/-- The state is good, and the requests about to be issued fit. -/
def Net.Fit (Good : σ → Prop) (Fits : R → Prop) (N : Net D γ C V) : Prop :=
  Good N.state ∧ ∀ t ∈ N.callers, t.Fit Fits

/-- Any number of steps, through good states and with requests that fit. -/
abbrev Net.Runs (W : Carrier α ε γ) (starts : C → Prog R A V → Prop) (Good : σ → Prop)
    (Fits : R → Prop) : Net D γ C V → Net D γ C V → Prop :=
  Relation.ReflTransGen fun N N' => Net.Step W starts N N' ∧ N'.Fit Good Fits

/-- **A net shows a pool**: it has its state, and its callers stand where the threads do. -/
structure Net.Shows (N : Net D γ C V) (P : Pool σ R A C V) : Prop where
  state : P.state = N.state
  length : P.threads.length = N.callers.length
  stands : ∀ (i : ℕ) (t : Caller D γ C V) (u : Thread R A C V), N.callers[i]? = some t →
    P.threads[i]? = some u → t.Stands u

/-- No caller is stuck: it has nothing left to ask, or it or a server of its own can act. -/
def Net.Live (W : Carrier α ε γ) (N : Net D γ C V) : Prop :=
  ∀ t ∈ N.callers, t.Done ∨ ∃ s' t', Caller.Moves D W N.state t s' t'

/-- All callers are between two requests, and nothing is under way. -/
def Net.AtRest (N : Net D γ C V) : Prop :=
  ∀ t ∈ N.callers, (∃ p, t.errand = .between p) ∧
    ∀ κ, (t.lines κ).toServer = [] ∧ (t.lines κ).toClient = []

/-- The callers of a net do what the threads of a pool do. -/
structure Matches (W : Carrier α ε γ) (clean : List α → Prop) (Inv : σ → Prop) (Fits : R → Prop)
    (N : Net D γ C V) (P : Pool σ R A C V) : Prop where
  state : P.state = N.state
  length : P.threads.length = N.callers.length
  sim : ∀ (i : ℕ) (t : Caller D γ C V) (u : Thread R A C V), N.callers[i]? = some t →
    P.threads[i]? = some u → Caller.Sim D W clean Inv Fits t u

variable {S : System σ R A C V} {N N' : Net D γ C V} {P P' : Pool σ R A C V}

omit [DecidableEq K] in
theorem Matches.thread (h : Matches W clean Inv Fits N P) {i : ℕ} {t : Caller D γ C V}
    (hi : N.callers[i]? = some t) :
    ∃ u, P.threads[i]? = some u ∧ Caller.Sim D W clean Inv Fits t u := by
  have hlt : i < P.threads.length := h.length ▸ (List.getElem?_eq_some_iff.mp hi).1
  exact ⟨_, List.getElem?_eq_getElem hlt, h.sim i t _ hi (List.getElem?_eq_getElem hlt)⟩

omit [DecidableEq K] in
/-- A caller and its thread may both be replaced. -/
theorem Matches.replace (h : Matches W clean Inv Fits N P) {i : ℕ} {t t' : Caller D γ C V}
    {u' : Thread R A C V} {s' : σ} (hi : N.callers[i]? = some t)
    (hsim : Caller.Sim D W clean Inv Fits t' u') :
    Matches W clean Inv Fits ⟨s', N.callers.set i t'⟩ (P.answered i u' s') := by
  have hlt : i < N.callers.length := (List.getElem?_eq_some_iff.mp hi).1
  refine ⟨rfl, by simpa [Pool.answered] using h.length, fun j t₁ u₁ ht hu => ?_⟩
  rcases eq_or_ne j i with rfl | hne
  · have hlt' : j < P.threads.length := h.length ▸ hlt
    simp only [List.getElem?_set_self hlt, Option.some.injEq] at ht
    simp only [Pool.answered, List.getElem?_set_self hlt', Option.some.injEq] at hu
    rwa [← ht, ← hu]
  · rw [List.getElem?_set_ne hne.symm] at ht
    rw [System.answered_getElem?_of_ne hne.symm] at hu
    exact h.sim j t₁ u₁ ht hu

/-- **A step of a net is one of the pool, or none.** -/
theorem Matches.step (hC : W.Conveys clean) (hD : D.Faithful clean Inv Good Fits)
    (hS : ∀ c p, starts c p → S.starts c p)
    (hA : ∀ P r, S.answer P r (D.handle P.state r).1 (D.handle P.state r).2)
    (h : Matches W clean Inv Fits N P) (hinv : Inv N.state) (hfit : N.Fit Good Fits)
    (hs : Net.Step W starts N N') (hgood : Good N'.state) :
    ∃ P', S.Runs P P' ∧ Matches W clean Inv Fits N' P' ∧ Inv N'.state := by
  cases hs with
  | @start c p hc =>
    refine ⟨_, .single (.start (hS c p hc)), ⟨h.state, ?_, fun i t u ht hu => ?_⟩, hinv⟩
    · simpa [Pool.spawn] using h.length
    · rw [List.getElem?_append] at ht
      rw [Pool.spawn, List.getElem?_append, h.length] at hu
      split_ifs at ht hu with hlt
      · exact h.sim i t u ht hu
      · obtain rfl := List.mem_singleton.mp (List.mem_of_getElem? ht)
        obtain rfl := List.mem_singleton.mp (List.mem_of_getElem? hu)
        exact .between fun κ => quiet_fresh W (D.listen κ)
  | @act i t t' s' hi hm =>
    obtain ⟨u, hu, hsim⟩ := h.thread hi
    obtain ⟨u', hkeeps, hsim'⟩ := hsim.step hC hD hinv (hfit.2 t (List.mem_of_getElem? hi)) hm
    cases hkeeps with
    | still =>
      have hself := System.answered_self hu
      rw [h.state] at hself
      exact ⟨P, .refl, hself ▸ h.replace hi hsim', hinv⟩
    | request hr =>
      have hstep := System.Step.request hu (hA P _)
      rw [h.state] at hstep
      exact ⟨_, .single hstep, h.replace hi hsim', hD.keeps _ _ hinv hr hgood⟩

/-- **Whatever callers reach over links, the threads of a pool reach**, and the invariant
holds of the state. -/
theorem Net.Runs.matched (hC : W.Conveys clean) (hD : D.Faithful clean Inv Good Fits)
    (hS : ∀ c p, starts c p → S.starts c p)
    (hA : ∀ P r, S.answer P r (D.handle P.state r).1 (D.handle P.state r).2) {s : σ} (hs : Inv s)
    (hgood : Good s) (hrun : Net.Runs W starts Good Fits ⟨s, []⟩ N) :
    ∃ P, S.Runs ⟨s, []⟩ P ∧ Matches W clean Inv Fits N P ∧ Inv N.state := by
  have hboth : N.Fit Good Fits ∧
      ∃ P, S.Runs ⟨s, []⟩ P ∧ Matches W clean Inv Fits N P ∧ Inv N.state := by
    induction hrun with
    | refl =>
      refine ⟨⟨hgood, fun t ht => absurd ht List.not_mem_nil⟩, ⟨s, []⟩, .refl, ⟨rfl, rfl, ?_⟩, hs⟩
      exact fun i t u ht _ => absurd (List.mem_of_getElem? ht) List.not_mem_nil
    | tail _ hstep ih =>
      obtain ⟨hfit, P, hP, hmatch, hinv⟩ := ih
      obtain ⟨P', hP', hmatch', hinv'⟩ := hmatch.step hC hD hS hA hinv hfit hstep.1 hstep.2.1
      exact ⟨hstep.2, P', hP.trans hP', hmatch', hinv'⟩
  exact hboth.2

omit [DecidableEq K] in
theorem Matches.shows (h : Matches W clean Inv Fits N P) : N.Shows P :=
  ⟨h.state, h.length, fun i t u ht hu => (h.sim i t u ht hu).stands⟩

/-- **Callers over links never get stuck.** -/
theorem Matches.live (hC : W.Conveys clean) (h : Matches W clean Inv Fits N P)
    (hinv : Inv N.state) : N.Live W := by
  intro t ht
  obtain ⟨i, hi⟩ := List.getElem?_of_mem ht
  obtain ⟨u, -, hsim⟩ := h.thread hi
  exact hsim.forward hC hinv

/-! ### And back -/

/-- A net in which every caller is between two requests, as its thread is. -/
structure Rests (W : Carrier α ε γ) (N : Net D γ C V) (P : Pool σ R A C V) : Prop where
  state : N.state = P.state
  length : N.callers.length = P.threads.length
  between : ∀ (i : ℕ) (u : Thread R A C V), P.threads[i]? = some u → ∃ l,
    N.callers[i]? = some ⟨u.call, u.hist, .between u.prog, l⟩ ∧ ∀ κ, (l κ).Quiet W (D.listen κ)

/-- The state of a pool is good, and its pending requests fit. -/
def Pool.Fit (Good : σ → Prop) (Fits : R → Prop) (P : Pool σ R A C V) : Prop :=
  Good P.state ∧ ∀ u ∈ P.threads, ∀ r k, u.prog = .req r k → Fits r

omit [DecidableEq K] in
theorem Rests.exists_thread (h : Rests W N P) {t : Caller D γ C V} (ht : t ∈ N.callers) :
    ∃ (i : ℕ) (u : Thread R A C V) (l : (κ : K) → Line α ε γ (D.Cmd κ)),
      N.callers[i]? = some t ∧ P.threads[i]? = some u ∧
      t = ⟨u.call, u.hist, .between u.prog, l⟩ ∧ ∀ κ, (l κ).Quiet W (D.listen κ) := by
  obtain ⟨i, hi⟩ := List.getElem?_of_mem ht
  have hlt : i < P.threads.length := h.length ▸ (List.getElem?_eq_some_iff.mp hi).1
  obtain ⟨l, hl, hquiet⟩ := h.between i _ (List.getElem?_eq_getElem hlt)
  exact ⟨i, _, l, hi, List.getElem?_eq_getElem hlt, Option.some.inj (hi.symm.trans hl), hquiet⟩

omit [DecidableEq K] in
theorem Rests.fit (h : Rests W N P) (hP : P.Fit Good Fits) : N.Fit Good Fits := by
  refine ⟨h.state ▸ hP.1, fun t ht r k he => ?_⟩
  obtain ⟨i, u, l, -, hu, rfl, -⟩ := h.exists_thread ht
  exact hP.2 u (List.mem_of_getElem? hu) r k (Errand.between.inj he)

omit [DecidableEq K] in
theorem Rests.shows (h : Rests W N P) : N.Shows P := by
  refine ⟨h.state.symm, h.length.symm, fun i t u ht hu => ?_⟩
  obtain ⟨l, hl, -⟩ := h.between i u hu
  obtain rfl := Option.some.inj (ht.symm.trans hl)
  exact .between

omit [DecidableEq K] in
theorem Rests.atRest (h : Rests W N P) : N.AtRest := by
  intro t ht
  obtain ⟨i, u, l, -, -, rfl, hquiet⟩ := h.exists_thread ht
  refine ⟨⟨_, rfl⟩, fun κ => ?_⟩
  obtain ⟨said, -, -, hto, hunits⟩ := hquiet κ
  exact ⟨hto, (List.append_eq_nil_iff.mp hunits.symm).1⟩

/-- What a caller reaches, the net reaches. -/
theorem Net.Runs.of_caller {i : ℕ} {t t' : Caller D γ C V} {s s' : σ} {l : List (Caller D γ C V)}
    (hl : ∀ t ∈ l, t.Fit Fits) (hi : l[i]? = some t)
    (h : Caller.Reaches W Good Fits (s, t) (s', t')) :
    Net.Runs W starts Good Fits ⟨s, l⟩ ⟨s', l.set i t'⟩ := by
  have hlt : i < l.length := (List.getElem?_eq_some_iff.mp hi).1
  generalize hx : (s', t') = x at h
  induction h generalizing s' t' with
  | refl =>
    cases hx
    obtain ⟨hlt, rfl⟩ := List.getElem?_eq_some_iff.mp hi
    rw [List.set_getElem_self]
  | @tail y z _ hstep ih =>
    subst hx
    refine (ih rfl).tail ⟨?_, hstep.2.1, ?_⟩
    · have hset : (l.set i y.2)[i]? = some y.2 := by simp [hlt]
      have hact : Net.Step W starts ⟨y.1, l.set i y.2⟩ ⟨s', (l.set i y.2).set i t'⟩ :=
        .act hset hstep.1
      rwa [List.set_set] at hact
    · intro t ht
      rcases List.mem_or_eq_of_mem_set ht with ht | rfl
      · exact hl t ht
      · exact hstep.2.2

/-- A step of the pool, over links. -/
theorem Rests.step (hC : W.Conveys clean) (hD : D.Faithful clean Inv Good Fits)
    (hS : ∀ c p, S.starts c p → starts c p)
    (hA : ∀ P r a s, S.answer P r a s → (a, s) = D.handle P.state r) (h : Rests W N P)
    (hinv : Inv P.state) (hfit : P.Fit Good Fits) (hs : S.Step P P')
    (hfit' : P'.Fit Good Fits) :
    ∃ N', Net.Runs W starts Good Fits N N' ∧ Rests W N' P' ∧ Inv P'.state := by
  cases hs with
  | @start c p hc =>
    -- the new caller has nothing under way
    have hrests : Rests W ⟨N.state, N.callers ++ [.fresh D γ c p]⟩ (P.spawn c p) := by
      refine ⟨h.state, by simpa [Pool.spawn] using h.length, fun i u hu => ?_⟩
      rcases System.of_getElem?_spawn hu with hu | ⟨rfl, rfl⟩
      · obtain ⟨l, hl, hquiet⟩ := h.between i u hu
        refine ⟨l, ?_, hquiet⟩
        rw [List.getElem?_append_left (List.getElem?_eq_some_iff.mp hl).1, hl]
      · refine ⟨_, ?_, fun κ => quiet_fresh W (D.listen κ)⟩
        rw [← h.length, List.getElem?_concat_length]
        rfl
    have hstart : Net.Step W starts N ⟨N.state, N.callers ++ [.fresh D γ c p]⟩ :=
      .start (hS c p hc)
    exact ⟨_, .single ⟨hstart, hrests.fit hfit'⟩, hrests, hinv⟩
  | @request i c hist r k a s' hi ha =>
    obtain ⟨rfl, rfl⟩ : a = (D.handle P.state r).1 ∧ s' = (D.handle P.state r).2 :=
      ⟨congrArg Prod.fst (hA P r a s' ha), congrArg Prod.snd (hA P r a s' ha)⟩
    obtain ⟨l, hl, hquiet⟩ := h.between i _ hi
    have hr : Fits r := hfit.2 _ (List.mem_of_getElem? hi) r k rfl
    have hnext : ∀ r' k', k (D.handle P.state r).1 = .req r' k' → Fits r' := fun r' k' he =>
      hfit'.2 _ (List.mem_of_getElem? (System.answered_getElem?_self hi)) r' k' he
    -- the whole exchange takes place before anything else moves
    obtain ⟨l', hreach, hquiet'⟩ := exists_exchange hC hD hinv hr hfit.1 hfit'.1 c hist
      hquiet hnext
    rw [← h.state] at hreach
    have hrun : Net.Runs W starts Good Fits N ⟨_, N.callers.set i _⟩ :=
      Net.Runs.of_caller (h.fit hfit).2 hl hreach
    refine ⟨_, hrun, ⟨by rw [h.state]; rfl, by simpa [Pool.answered] using h.length, ?_⟩,
      hD.keeps _ _ hinv hr hfit'.1⟩
    intro j u hu
    rcases System.of_getElem?_answered hu with ⟨rfl, rfl⟩ | ⟨hne, hold⟩
    · refine ⟨l', ?_, hquiet'⟩
      rw [List.getElem?_set_self (List.getElem?_eq_some_iff.mp hl).1, h.state]
    · obtain ⟨l₁, hl₁, hquiet₁⟩ := h.between j u hold
      exact ⟨l₁, by rw [List.getElem?_set_ne hne.symm, hl₁], hquiet₁⟩

/-- **Whatever the threads of a pool reach, callers over links reach**, if the requests
fit. -/
theorem exists_net (hC : W.Conveys clean) (hD : D.Faithful clean Inv Good Fits)
    (hS : ∀ c p, S.starts c p → starts c p)
    (hA : ∀ P r a s, S.answer P r a s → (a, s) = D.handle P.state r) {s : σ} (hs : Inv s)
    (hgood : Good s) (hrun : S.RunsWithin (Pool.Fit Good Fits) ⟨s, []⟩ P) :
    ∃ N : Net D γ C V, Net.Runs W starts Good Fits ⟨s, []⟩ N ∧ Rests W N P := by
  have hboth : P.Fit Good Fits ∧ ∃ N : Net D γ C V, Net.Runs W starts Good Fits ⟨s, []⟩ N ∧
      Rests W N P ∧ Inv P.state := by
    induction hrun with
    | refl =>
      refine ⟨⟨hgood, fun u hu => absurd hu List.not_mem_nil⟩, ⟨s, []⟩, .refl, ⟨rfl, rfl, ?_⟩, hs⟩
      exact fun i u hu => absurd (List.mem_of_getElem? hu) List.not_mem_nil
    | tail _ hstep ih =>
      obtain ⟨hfit, N, hN, hrests, hinv⟩ := ih
      obtain ⟨N', hN', hrests', hinv'⟩ :=
        hrests.step hC hD hS hA hinv hfit hstep.1 hstep.2
      exact ⟨hstep.2, N', hN.trans hN', hrests', hinv'⟩
  obtain ⟨-, N, hN, hrests, -⟩ := hboth
  exact ⟨N, hN, hrests⟩

end Net

end Interleave

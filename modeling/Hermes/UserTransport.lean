import Hermes.SecureTransport

/-!
# Statuses of a user's transport

The secure transport (`secure_transport/transport.c`) is given a transport by its user, whose
`send` and `recv` return any status at all, and whose `recv` leaves anything in the buffer
when it fails. Here its functions are read against such a transport
(`Hermes.UserTransport.Calls`): a status is a number, looked at where the source looks at it.
Where the model of `Hermes.SecureTransport` has a result, this one has the same
(`Hermes.UserTransport.sim_hermesTransportSend`, `…sim_hermesTransportReceive`).

A frame takes two calls, one for its size and one for its bytes. The helpers of `utils.c`
know one failure only, `HM_FAIL`, and what the second call of a frame returns is the last
thing that is looked at; so a failure is reported exactly if it is noticed in the first frame
that has one (`Hermes.UserTransport.reports_iff`).
-/

namespace Hermes

open Interleave Wire

namespace UserTransport

/-- What `send` and `recv` of the user's transport do: a status, and for `recv` the content
of the buffer afterwards, whatever the status. -/
@[reducible] def Answer : LinkReq UInt8 → Type
  | .send _ => HermesStatus
  | .recv n => HermesStatus × {b : Bytes // b.length = n}

/-- The programs that call it. -/
abbrev Calls (α : Type) := Prog (LinkReq UInt8) Answer α

/-- `transport->send` -/
def send (data : Bytes) : Calls HermesStatus := .req (.send data) .ret

/-- `transport->recv` -/
def recv (dataLength : ℕ) : Calls (HermesStatus × Bytes) :=
  .req (.recv dataLength) fun a => .ret (a.1, a.2.1)

/-! ### The helpers -/

/-- `send_data` -/
def sendData (data : Bytes) : Calls HermesStatus := do
  let status ← send (be32 (UInt32.ofNat data.length))
  if status = hmFail then return hmFail
  else send data

/-- `read_data_size`: the size is read from the buffer unless the status is `HM_FAIL`. -/
def readDataSize : Calls UInt32 := do
  let (readCount, dataSize) ← recv 4
  if readCount = hmFail then return hmFail
  else return ofBe32 dataSize

/-- `read_data`: the status is the one of `recv`. The comment of the source has it be `HM_FAIL` also
when fewer bytes were read than were asked for. -/
def readData (dataLength : ℕ) : Calls (HermesStatus × Bytes) := recv dataLength

/-! ### Sending and receiving -/

section Session

variable {S : Type} (T : SecureSession S)

/-- `hermes_transport_send` -/
def hermesTransportSend (session : S) (buffer : Bytes) : Calls (Reply Unit × S) :=
  match T.wrapSize session buffer with
  | none => .ret (.error .fail, session)
  | some _ =>
    match T.wrap session buffer with
    | none => .ret (.error .fail, session)
    | some (wrappedBuffer, session) => do
      if (← sendData wrappedBuffer) = hmFail then return (.error .fail, session)
      else return (.ok (), session)

/-- The loop of `hermes_transport_receive`, when `received` has been received of
`bufferLength` bytes. -/
def hermesTransportReceiveLoop (bufferLength : ℕ) : ℕ → S → Bytes → Calls (Reply Bytes × S)
  | 0, _, _ => .stop .outOfFuel
  | fuel + 1, session, received => do
    let size ← readDataSize
    if size = hmFail then return (.error .fail, session)
    else
      let (status, frame) ← readData size.toNat
      if status = hmFail then return (.error .fail, session)
      else
        match T.unwrapSize session frame with
        | none => return (.error .fail, session)
        | some unwrappedSize =>
          if bufferLength < unwrappedSize + received.length then return (.error .fail, session)
          else
            match T.unwrap session frame with
            | none => return (.error .fail, session)
            | some (unwrapped, session) =>
              if (received ++ unwrapped).length < bufferLength then
                hermesTransportReceiveLoop bufferLength fuel session (received ++ unwrapped)
              else return (.ok (received ++ unwrapped), session)

/-- `hermes_transport_receive`, with a bound on its iterations. A frame is read before the length is
looked at, so also when nothing is asked for. -/
def hermesTransportReceive (fuel : ℕ) (session : S) (bufferLength : ℕ) :
    Calls (Reply Bytes × S) :=
  hermesTransportReceiveLoop T bufferLength fuel session []

end Session

/-! ### Establishing a session -/

/-- What `secure_session_unwrap` returns while the session is negotiated. -/
inductive Negotiated where
  /-- `THEMIS_SUCCESS` -/
  | success : Negotiated
  /-- `THEMIS_SSESSION_SEND_OUTPUT_TO_PEER`, with the output. -/
  | sendOutputToPeer (output : Bytes) : Negotiated
  /-- Any other status. -/
  | other : Negotiated

/-- What `init_secure_session` uses of a `secure_session_t`, in state `S`. -/
structure Handshake (S : Type) where
  /-- `secure_session_generate_connect_request` without a buffer, if it is
  `THEMIS_BUFFER_TOO_SMALL`. -/
  connectRequestSize : S → Option ℕ
  /-- `secure_session_generate_connect_request` with a buffer, if it is `THEMIS_SUCCESS`. -/
  connectRequest : S → Option (Bytes × S)
  /-- `secure_session_is_established` -/
  isEstablished : S → Bool
  /-- `secure_session_unwrap` -/
  unwrap : S → Bytes → Negotiated × S

/-- `TEMP_BUFFER_SIZE` -/
def tempBufferSize : ℕ := 2048

section Handshake

variable {S : Type} (H : Handshake S)

/-- The loop of `init_secure_session`. -/
def initSecureSessionLoop : ℕ → S → Calls (HermesStatus × S)
  | 0, _ => .stop .outOfFuel
  | fuel + 1, session =>
    if H.isEstablished session then .ret (hmSuccess, session)
    else do
      let dataSize ← readDataSize
      if dataSize = hmFail ∨ tempBufferSize < dataSize.toNat then return (hmFail, session)
      else
        let (bytesRead, tempBuffer) ← readData dataSize.toNat
        if bytesRead = hmFail then return (hmFail, session)
        else
          match H.unwrap session tempBuffer with
          | (.sendOutputToPeer output, session) =>
            if (← sendData output) ≠ hmSuccess then return (hmFail, session)
            else initSecureSessionLoop fuel session
          | (.success, session) => return (hmSuccess, session)
          | (.other, session) => return (hmFail, session)

/-- `init_secure_session`, with a bound on its iterations: a client begins with its request. -/
def initSecureSession (isServer : Bool) (fuel : ℕ) (session : S) : Calls (HermesStatus × S) :=
  if isServer then initSecureSessionLoop H fuel session
  else
    match H.connectRequestSize session with
    | none => .ret (hmFail, session)
    | some _ =>
      match H.connectRequest session with
      | none => .ret (hmFail, session)
      | some (tempBuffer, session) => do
        if (← sendData tempBuffer) ≠ hmSuccess then return (hmFail, session)
        else initSecureSessionLoop H fuel session

end Handshake

/-! ### The transport of replies -/

section Sim

variable {σ : Type} (handle : σ → (r : LinkReq UInt8) → Answer r × σ)

/-- The same transport, when the buffer of a call that fails is never looked at. -/
def asReply (s : σ) : (r : LinkReq UInt8) → LinkReq.Answer UInt8 Failure r × σ
  | .send xs => (if h : (handle s (.send xs)).1 = hmSuccess then .ok () else .error ⟨_, h⟩,
      (handle s (.send xs)).2)
  | .recv n => (if h : (handle s (.recv n)).1.1 = hmSuccess then .ok (handle s (.recv n)).1.2.1
      else .error ⟨_, h⟩, (handle s (.recv n)).2)

variable {α β α' β' : Type}

/-- Where the first program has a result on the transport of replies, the second one has a
related result on the user's transport. -/
def Sim (R : α → β → Prop) (p : Rpc α) (q : Calls β) : Prop :=
  ∀ s a s', p.run (asReply handle) s = (.ok a, s') → ∃ b, q.run handle s = (.ok b, s') ∧ R a b

variable {handle} {R : α → β → Prop} {R' : α' → β' → Prop}

theorem sim_ret {a : α} {b : β} (h : R a b) : Sim handle R (.ret a) (.ret b) := by
  intro s a' s' hrun
  cases hrun
  exact ⟨b, rfl, h⟩

theorem sim_stop {w : Stop} {q : Calls β} : Sim handle R (.stop w) q := by
  intro s a s' hrun
  cases hrun

theorem Sim.bind {p : Rpc α} {q : Calls β} {f : α → Rpc α'} {g : β → Calls β'}
    (hp : Sim handle R p q) (hf : ∀ a b, R a b → Sim handle R' (f a) (g b)) :
    Sim handle R' (p >>= f) (q >>= g) := by
  intro s a' s' hrun
  rw [Prog.run_bind] at hrun
  cases hrun₁ : p.run (asReply handle) s with
  | mk x s₁ =>
    rw [hrun₁] at hrun
    cases x with
    | error w => cases hrun
    | ok a =>
      obtain ⟨b, hq, hab⟩ := hp s a s₁ hrun₁
      obtain ⟨b', hq', hab'⟩ := hf a b hab s₁ a' s' hrun
      exact ⟨b', by rw [Prog.run_bind_of_ok hq, hq'], hab'⟩

theorem sim_send (xs : Bytes) :
    Sim handle (fun r status => r.status = status) (transportSend xs) (send xs) := by
  intro s a s' hrun
  cases hrun
  refine ⟨_, rfl, ?_⟩
  simp only [asReply]
  split_ifs with h
  · exact h.symm
  · rfl

theorem sim_recv (n : ℕ) : Sim handle (fun r x => match r with
    | .ok b => x = (hmSuccess, b)
    | .error e => x.1 = e.1) (transportRecv n) (recv n) := by
  intro s a s' hrun
  cases hrun
  refine ⟨_, rfl, ?_⟩
  simp only [asReply]
  by_cases h : (handle s (.recv n)).1.1 = hmSuccess
  · rw [dif_pos h, h]
  · rw [dif_neg h]

theorem sim_sendData (data : Bytes) :
    Sim handle Eq (Hermes.sendData data) (UserTransport.sendData data) := by
  refine (sim_send _).bind fun r status hr => ?_
  subst hr
  split_ifs with h
  · exact sim_ret rfl
  · intro s a s' hrun
    have hsend : Sim handle Eq (transportSend data >>= fun r => .ret r.status)
        (send data >>= .ret) := (sim_send data).bind fun r status hr => sim_ret hr
    obtain ⟨b, hq, rfl⟩ := hsend s a s' hrun
    exact ⟨a, hq, rfl⟩

theorem sim_readDataSize : Sim handle Eq Hermes.readDataSize UserTransport.readDataSize := by
  refine (sim_recv 4).bind fun r x hx => ?_
  cases r with
  | ok b =>
    obtain rfl := hx
    exact sim_ret rfl
  | error e =>
    dsimp only at hx ⊢
    rw [hx]
    by_cases h : e = .fail
    · rw [if_pos h, h]
      exact sim_ret rfl
    · rw [if_neg h]
      exact sim_stop

variable {S : Type} (T : SecureSession S)

/-- **Sending**, on either transport. -/
theorem sim_hermesTransportSend (session : S) (buffer : Bytes) :
    Sim handle Eq (Hermes.hermesTransportSend T session buffer)
      (UserTransport.hermesTransportSend T session buffer) := by
  rw [Hermes.hermesTransportSend, UserTransport.hermesTransportSend]
  cases T.wrapSize session buffer with
  | none => exact sim_ret rfl
  | some _ =>
    dsimp only
    cases T.wrap session buffer with
    | none => exact sim_ret rfl
    | some x =>
      refine (sim_sendData x.1).bind fun a b hab => ?_
      subst hab
      split_ifs <;> exact sim_ret rfl

theorem sim_receiveLoop (bufferLength fuel : ℕ) (session : S) (received : Bytes) :
    Sim handle Eq (Hermes.hermesTransportReceiveLoop T bufferLength fuel session received)
      (UserTransport.hermesTransportReceiveLoop T bufferLength fuel session received) := by
  induction fuel generalizing session received with
  | zero => exact sim_stop
  | succ fuel ih =>
    refine sim_readDataSize.bind fun size b hb => ?_
    subst hb
    split_ifs with hsize
    · exact sim_ret rfl
    refine (sim_recv size.toNat).bind fun r x hx => ?_
    cases r with
    | error e =>
      dsimp only at hx ⊢
      rw [hx]
      by_cases h : e = .fail
      · rw [if_pos h, h]
        exact sim_ret rfl
      · rw [if_neg h]
        exact sim_stop
    | ok frame =>
      obtain rfl := hx
      have hne : ¬hmSuccess = hmFail := by decide
      simp only [if_neg hne]
      cases T.unwrapSize session frame with
      | none => exact sim_ret rfl
      | some unwrappedSize =>
        dsimp only
        split_ifs with hroom
        · exact sim_ret rfl
        cases T.unwrap session frame with
        | none => exact sim_ret rfl
        | some y =>
          dsimp only
          split_ifs
          · exact ih _ _
          · exact sim_ret rfl

/-- **Receiving**, on either transport. -/
theorem sim_hermesTransportReceive (fuel : ℕ) (session : S) (bufferLength : ℕ) :
    Sim handle Eq (Hermes.hermesTransportReceive T fuel session bufferLength)
      (UserTransport.hermesTransportReceive T fuel session bufferLength) :=
  sim_receiveLoop T bufferLength fuel session []

end Sim

/-! ### What one run sees of the transport -/

/-- A user's transport, as one run sees it: the status of each of its calls, in order, and
what is in the buffer of a `recv` afterwards. -/
structure Behaviour where
  /-- The statuses. -/
  status : ℕ → HermesStatus
  /-- The contents. -/
  content : ℕ → (n : ℕ) → {b : Bytes // b.length = n}

/-- The state of the transport is how often it has been called. -/
def Behaviour.answer (U : Behaviour) (k : ℕ) : (r : LinkReq UInt8) → Answer r × ℕ
  | .send _ => (U.status k, k + 1)
  | .recv n => ((U.status k, U.content k n), k + 1)

/-- **Failures are reported**: if a call it issues returns another status than `HM_SUCCESS`,
then so does the program. -/
def Reports {α : Type} (status : ℕ → HermesStatus) (failed : α → Prop) (p : Calls α) : Prop :=
  ∀ content, (∃ k < (p.run (Behaviour.answer ⟨status, content⟩) 0).2, status k ≠ hmSuccess) →
    ∃ a, (p.run (Behaviour.answer ⟨status, content⟩) 0).1 = .ok a ∧ failed a

/-- The calls `2 * j` and `2 * j + 1` are those of the frame `j`. It is the first one with a
failure. -/
def FirstFailure (status : ℕ → HermesStatus) (j : ℕ) : Prop :=
  (∀ k < 2 * j, status k = hmSuccess) ∧
    (status (2 * j) ≠ hmSuccess ∨ status (2 * j + 1) ≠ hmSuccess)

/-- The two statuses of a frame are not taken for a failure. The second one is `checked`
against `HM_SUCCESS`, or compared with `HM_FAIL`. -/
def FramePasses (checked : Bool) (status : ℕ → HermesStatus) (j : ℕ) : Prop :=
  status (2 * j) ≠ hmFail ∧
    if checked then status (2 * j + 1) = hmSuccess else status (2 * j + 1) ≠ hmFail

/-- The first frame with a failure is taken for one. -/
def Noticed (checked : ℕ → Bool) (status : ℕ → HermesStatus) : Prop :=
  ∀ j, FirstFailure status j → ¬FramePasses (checked j) status j

/-- The frames that `init_secure_session` sends: a client sends the first one, and from then
on the two sides take turns. -/
def sentFrame (isServer : Bool) (j : ℕ) : Bool := j % 2 = if isServer then 1 else 0

/-- A frame that passes, after others without a failure, is one without a failure itself. -/
theorem success_of_passes {checked : Bool} {status : ℕ → HermesStatus} {j : ℕ}
    (h : FirstFailure status j → ¬FramePasses checked status j)
    (hk : ∀ k < 2 * j, status k = hmSuccess) (hj : FramePasses checked status j) :
    ∀ k < 2 * (j + 1), status k = hmSuccess := by
  have hframe : status (2 * j) = hmSuccess ∧ status (2 * j + 1) = hmSuccess := by
    by_contra hcon
    exact h ⟨hk, not_and_or.mp hcon⟩ hj
  intro k hlt
  rcases Nat.lt_or_ge k (2 * j) with hlow | hge
  · exact hk k hlow
  · obtain rfl | rfl : k = 2 * j ∨ k = 2 * j + 1 := by omega
    · exact hframe.1
    · exact hframe.2

section Run

variable {α β : Type} {U : Behaviour} {k : ℕ} {failed : α → Prop} {failed' : β → Prop}

theorem run_sendData (data : Bytes) : (sendData data).run U.answer k =
    if U.status k = hmFail then (.ok hmFail, k + 1) else (.ok (U.status (k + 1)), k + 2) := by
  rw [sendData, Prog.run_bind]
  simp only [send, Prog.run_req, Prog.run_ret, Behaviour.answer]
  split_ifs <;> rfl

theorem run_readDataSize : readDataSize.run U.answer k =
    (.ok (if U.status k = hmFail then hmFail else ofBe32 (U.content k 4).1), k + 1) := by
  rw [readDataSize, Prog.run_bind]
  simp only [recv, Prog.run_req, Prog.run_ret, Behaviour.answer]
  split_ifs <;> rfl

theorem run_readData (n : ℕ) :
    (readData n).run U.answer k = (.ok (U.status k, (U.content k n).1), k + 1) := rfl

/-- From the call `k` on: when the program is over there was no failure, or it has failed. -/
def Settled (U : Behaviour) (failed : α → Prop) (p : Calls α) (k : ℕ) : Prop :=
  (∀ i < (p.run U.answer k).2, U.status i = hmSuccess) ∨
    ∃ a, (p.run U.answer k).1 = .ok a ∧ failed a

theorem settled_ret {a : α} (h : (∀ i < k, U.status i = hmSuccess) ∨ failed a) :
    Settled U failed (.ret a) k :=
  h.imp_right fun ha => ⟨a, rfl, ha⟩

theorem settled_bind {p : Calls β} {f : β → Calls α} {b : β} {k' : ℕ}
    (hp : p.run U.answer k = (.ok b, k')) (hf : Settled U failed (f b) k') :
    Settled U failed (p >>= f) k := by
  rw [Settled, Prog.run_bind_of_ok hp]
  exact hf

theorem Reports.of_settled {status : ℕ → HermesStatus} {p : Calls α}
    (h : ∀ content, Settled ⟨status, content⟩ failed p 0) : Reports status failed p := by
  rintro content ⟨k, hk, hne⟩
  exact (h content).resolve_left fun hall => hne (hall k hk)

/-- A string that is sent: it passes, or it gives a status other than `HM_SUCCESS`. -/
theorem settled_sendData {j : ℕ} {data : Bytes} {f : HermesStatus → Calls α}
    (hfail : U.status (2 * j) = hmFail → Settled U failed (f hmFail) (2 * j + 1))
    (hnext : U.status (2 * j) ≠ hmFail →
      Settled U failed (f (U.status (2 * j + 1))) (2 * (j + 1))) :
    Settled U failed (sendData data >>= f) (2 * j) := by
  by_cases h : U.status (2 * j) = hmFail
  · exact settled_bind ((run_sendData data).trans (if_pos h)) (hfail h)
  · exact settled_bind ((run_sendData data).trans (if_neg h)) (hnext h)

/-- A frame that is read: a failure is noticed, or the frame passes. -/
theorem settled_read {j : ℕ} (refuses : UInt32 → Prop) [DecidablePred refuses]
    {failure : Calls α} {f : HermesStatus × Bytes → Calls α} (hfail : refuses hmFail)
    (hret : ∀ k, Settled U failed failure k)
    (hf : ∀ frame k, Settled U failed (f (hmFail, frame)) k)
    (hnext : U.status (2 * j) ≠ hmFail → U.status (2 * j + 1) ≠ hmFail →
      ∀ frame, Settled U failed (f (U.status (2 * j + 1), frame)) (2 * (j + 1))) :
    Settled U failed (readDataSize >>= fun size =>
      if refuses size then failure else readData size.toNat >>= f) (2 * j) := by
  refine settled_bind run_readDataSize ?_
  split_ifs with h0 h1
  · exact hret _
  · exact hret _
  · refine settled_bind (run_readData _) ?_
    by_cases h1 : U.status (2 * j + 1) = hmFail
    · rw [h1]
      exact hf _ _
    · exact hnext h0 h1 _

/-! ### What is noticed is reported -/

section Session

variable {S : Type} (T : SecureSession S)

theorem settled_send (h : FirstFailure U.status 0 → ¬FramePasses false U.status 0) (session : S)
    (buffer : Bytes) :
    Settled U (fun x => x.1.status ≠ hmSuccess) (hermesTransportSend T session buffer) 0 := by
  have hnone : ∀ k < 2 * 0, U.status k = hmSuccess := fun k hk => absurd hk (Nat.not_lt_zero k)
  rw [hermesTransportSend]
  cases T.wrapSize session buffer with
  | none => exact settled_ret (Or.inl hnone)
  | some _ =>
    dsimp only
    cases T.wrap session buffer with
    | none => exact settled_ret (Or.inl hnone)
    | some x =>
      refine settled_sendData (j := 0) (fun _ => ?_) fun h0 => ?_
      · rw [if_pos rfl]
        exact settled_ret (Or.inr Failure.fail.2)
      · split_ifs with h1
        · exact settled_ret (Or.inr Failure.fail.2)
        · exact settled_ret (Or.inl (success_of_passes h hnone ⟨h0, h1⟩))

theorem settled_receiveLoop (h : Noticed (fun _ => false) U.status) (bufferLength fuel : ℕ) {j : ℕ}
    (hk : ∀ k < 2 * j, U.status k = hmSuccess) (session : S) (received : Bytes) :
    Settled U (fun x => x.1.status ≠ hmSuccess)
      (hermesTransportReceiveLoop T bufferLength fuel session received) (2 * j) := by
  induction fuel generalizing j session received with
  | zero => exact Or.inl hk
  | succ fuel ih =>
    have hfail : ∀ k, Settled U (fun x : Reply Bytes × S => x.1.status ≠ hmSuccess)
        (.ret (.error .fail, session)) k := fun k => settled_ret (Or.inr Failure.fail.2)
    refine settled_read (fun size => size = hmFail) rfl hfail (fun frame k => ?_)
      fun h0 h1 frame => ?_
    · exact hfail k
    · have hk := success_of_passes (h j) hk ⟨h0, h1⟩
      dsimp only
      rw [if_neg h1]
      cases T.unwrapSize session frame with
      | none => exact hfail _
      | some unwrappedSize =>
        dsimp only
        split_ifs
        · exact hfail _
        cases T.unwrap session frame with
        | none => exact hfail _
        | some x =>
          dsimp only
          split_ifs
          · exact ih hk _ _
          · exact settled_ret (Or.inl hk)

end Session

section Handshake

variable {S : Type} (H : Handshake S)

theorem sentFrame_add_two (isServer : Bool) (j : ℕ) :
    sentFrame isServer (j + 2) = sentFrame isServer j := by
  simp [sentFrame]

theorem sentFrame_succ (isServer : Bool) (j : ℕ) :
    sentFrame isServer (j + 1) = !sentFrame isServer j := by
  cases isServer <;> rcases Nat.mod_two_eq_zero_or_one j with h | h <;>
    simp [sentFrame, Nat.add_mod, h]

/-- `init_secure_session` gives up when a frame it sends is not sent. -/
theorem settled_initSend {j : ℕ} {isServer : Bool} (h : Noticed (sentFrame isServer) U.status)
    (hj : sentFrame isServer j = true) (hk : ∀ k < 2 * j, U.status k = hmSuccess) (session : S)
    (data : Bytes) {rest : Calls (HermesStatus × S)}
    (hrest : (∀ k < 2 * (j + 1), U.status k = hmSuccess) →
      Settled U (fun x => x.1 ≠ hmSuccess) rest (2 * (j + 1))) :
    Settled U (fun x => x.1 ≠ hmSuccess) (do
      if (← sendData data) ≠ hmSuccess then return (hmFail, session) else rest) (2 * j) := by
  have hfail : ∀ k, Settled U (fun x : HermesStatus × S => x.1 ≠ hmSuccess)
      (.ret (hmFail, session)) k := fun k => settled_ret (Or.inr Failure.fail.2)
  refine settled_sendData (fun _ => ?_) fun h0 => ?_
  · rw [if_pos (by decide)]
    exact hfail _
  · by_cases h1 : U.status (2 * j + 1) = hmSuccess
    · rw [if_neg (not_not.mpr h1)]
      exact hrest (success_of_passes (h j) hk ⟨h0, by rw [hj]; exact h1⟩)
    · rw [if_pos h1]
      exact hfail _

theorem settled_initLoop {isServer : Bool} (h : Noticed (sentFrame isServer) U.status) (fuel : ℕ)
    {j : ℕ} (hj : sentFrame isServer j = false) (hk : ∀ k < 2 * j, U.status k = hmSuccess)
    (session : S) :
    Settled U (fun x => x.1 ≠ hmSuccess) (initSecureSessionLoop H fuel session) (2 * j) := by
  induction fuel generalizing j session with
  | zero => exact Or.inl hk
  | succ fuel ih =>
    have hfail : ∀ session k, Settled U (fun x : HermesStatus × S => x.1 ≠ hmSuccess)
        (.ret (hmFail, session)) k := fun session k => settled_ret (Or.inr Failure.fail.2)
    rw [initSecureSessionLoop]
    split_ifs
    · exact settled_ret (Or.inl hk)
    refine settled_read (fun size => size = hmFail ∨ tempBufferSize < size.toNat)
      (Or.inl rfl) (hfail session) (fun frame k => ?_) fun h0 h1 frame => ?_
    · exact hfail session k
    · have hk := success_of_passes (h j) hk ⟨h0, by rw [hj]; exact h1⟩
      dsimp only
      rw [if_neg h1]
      rcases H.unwrap session frame with ⟨_ | output | _, session'⟩
      · exact settled_ret (Or.inl hk)
      · refine settled_initSend h (by rw [sentFrame_succ, hj]; rfl) hk session' output ?_
        intro hk
        exact ih (by rw [sentFrame_add_two, hj]) hk session'
      · exact hfail session' _

theorem settled_init {isServer : Bool} (h : Noticed (sentFrame isServer) U.status) (fuel : ℕ)
    (session : S) :
    Settled U (fun x => x.1 ≠ hmSuccess) (initSecureSession H isServer fuel session) 0 := by
  have hnone : ∀ k < 2 * 0, U.status k = hmSuccess := fun k hk => absurd hk (Nat.not_lt_zero k)
  rw [initSecureSession]
  split_ifs with hserver
  · subst hserver
    exact settled_initLoop H h fuel (j := 0) rfl hnone session
  · cases H.connectRequestSize session with
    | none => exact settled_ret (Or.inl hnone)
    | some _ =>
      dsimp only
      cases H.connectRequest session with
      | none => exact settled_ret (Or.inl hnone)
      | some x =>
        have hclient : isServer = false := by simpa using hserver
        subst hclient
        refine settled_initSend h (j := 0) rfl hnone x.2 x.1 ?_
        intro hk
        exact settled_initLoop H h fuel (j := 1) rfl hk x.2

end Handshake

end Run

/-! ### What is not noticed is not reported -/

/-- A transport with these statuses, on which every size is `2` and every byte `0`. -/
def smallFrames (status : ℕ → HermesStatus) : Behaviour where
  status := status
  content _ n := if h : n = 4 then ⟨be32 2, by rw [h, length_be32]⟩
    else ⟨List.replicate n 0, List.length_replicate⟩

section Small

variable {status : ℕ → HermesStatus} {k : ℕ}

theorem run_readDataSize_small (h : status k ≠ hmFail) :
    readDataSize.run (smallFrames status).answer k = (.ok 2, k + 1) := by
  have hsize : ofBe32 ((smallFrames status).content k 4).1 = 2 := ofBe32_be32 2
  rw [run_readDataSize, hsize, smallFrames, if_neg h]

theorem run_readData_small : (readData (2 : UInt32).toNat).run (smallFrames status).answer k =
    (.ok (status k, [0, 0]), k + 1) := rfl

/-- A frame that passes is received: it is one byte. -/
theorem run_receive_step {j m : ℕ} (h : FramePasses false status j) (hm : j < m) (fuel : ℕ)
    {received : Bytes} (hlen : received.length = j) :
    (hermesTransportReceiveLoop plainSession m (fuel + 1) () received).run
        (smallFrames status).answer (2 * j) =
      if j + 1 < m then (hermesTransportReceiveLoop plainSession m fuel () (received ++ [0])).run
        (smallFrames status).answer (2 * (j + 1))
      else (.ok (.ok (received ++ [0]), ()), 2 * (j + 1)) := by
  have hsize : ¬(2 : UInt32) = hmFail := by decide
  have hroom : ¬m < 1 + received.length := by omega
  have hnext : (received ++ [0]).length = j + 1 := by rw [List.length_append, hlen]; rfl
  rw [hermesTransportReceiveLoop, Prog.run_bind_of_ok (run_readDataSize_small h.1), if_neg hsize,
    Prog.run_bind_of_ok run_readData_small]
  simp only [if_neg h.2, plainSession, List.length_cons, List.length_nil, Nat.zero_add,
    Nat.add_one_sub_one, if_neg hroom, List.tail_cons, hnext]
  split_ifs <;> rfl

/-- Frames that pass are received. -/
theorem run_receive_small {n j : ℕ} (h : ∀ i < j + n + 1, FramePasses false status i)
    (received : Bytes) (hlen : received.length = j) :
    ∃ r, (hermesTransportReceiveLoop plainSession (j + n + 1) (n + 1) () received).run
      (smallFrames status).answer (2 * j) = (.ok (.ok r, ()), 2 * (j + n + 1)) := by
  induction n generalizing j received with
  | zero =>
    refine ⟨received ++ [0], ?_⟩
    rw [run_receive_step (h j (by omega)) (by omega) _ hlen, if_neg (by omega)]
  | succ n ih =>
    have hnext : (received ++ [0]).length = j + 1 := by rw [List.length_append, hlen]; rfl
    have hsum : j + (n + 1) + 1 = j + 1 + n + 1 := by omega
    rw [run_receive_step (h j (by omega)) (by omega) _ hlen, if_pos (by omega), hsum]
    rw [hsum] at h
    exact ih h _ hnext

end Small

/-- A negotiation of so many frames, of use to nobody. -/
def shortHandshake : Handshake ℕ where
  connectRequestSize _ := some 1
  connectRequest s := some ([0], s - 1)
  isEstablished s := s = 0
  unwrap s _ := if s = 1 then (.success, 0) else (.sendOutputToPeer [0], s - 2)

section Short

variable {status : ℕ → HermesStatus} {isServer : Bool}

/-- A frame that passes is sent. -/
theorem run_sendData_passes {j : ℕ} (h : FramePasses true status j) (data : Bytes) :
    (sendData data).run (smallFrames status).answer (2 * j) = (.ok hmSuccess, 2 * (j + 1)) := by
  rw [run_sendData, smallFrames]
  dsimp only
  rw [if_neg h.1, h.2]
  rfl

/-- Frames that pass are read and sent in turn. -/
theorem run_init_small {n : ℕ} : ∀ {j : ℕ} (fuel : ℕ),
    (∀ i < j + n, FramePasses (sentFrame isServer i) status i) → sentFrame isServer j = false →
      n < fuel → (initSecureSessionLoop shortHandshake fuel n).run (smallFrames status).answer
        (2 * j) = (.ok (hmSuccess, 0), 2 * (j + n)) := by
  induction n using Nat.strong_induction_on with
  | _ n ih =>
    intro j fuel h hj hfuel
    obtain ⟨fuel, rfl⟩ := Nat.exists_eq_succ_of_ne_zero (Nat.ne_zero_of_lt hfuel)
    rw [initSecureSessionLoop]
    by_cases hn : n = 0
    · subst hn
      rfl
    have hread := h j (by omega)
    rw [hj] at hread
    have hsize : ¬((2 : UInt32) = hmFail ∨ tempBufferSize < (2 : UInt32).toNat) := by decide
    have hest : ¬shortHandshake.isEstablished n = true := by simpa [shortHandshake] using hn
    rw [if_neg hest, Prog.run_bind_of_ok (run_readDataSize_small hread.1), if_neg hsize,
      Prog.run_bind_of_ok run_readData_small]
    dsimp only
    rw [if_neg hread.2]
    -- the last unwrapping has no answer to send; every other is followed by a frame of ours
    by_cases hone : n = 1
    · subst hone
      rfl
    · have hunwrap : shortHandshake.unwrap n [0, 0] = (.sendOutputToPeer [0], n - 2) := if_neg hone
      have hsend := h (j + 1) (by omega)
      rw [sentFrame_succ, hj] at hsend
      have htwo : 2 * j + 1 + 1 = 2 * (j + 1) := by omega
      rw [hunwrap, htwo]
      dsimp only
      rw [Prog.run_bind_of_ok (run_sendData_passes hsend _), if_neg (not_not.mpr rfl),
        ih (n - 2) (by omega) (j := j + 1 + 1) _ (fun i hi => h i (by omega))
          (by rw [sentFrame_add_two, hj]) (by omega)]
      congr 2
      omega

/-- A frame that passes is sent by `hermes_transport_send`. -/
theorem run_send_small (h : FramePasses false status 0) (buffer : Bytes) :
    (hermesTransportSend plainSession () buffer).run (smallFrames status).answer 0 =
      (.ok (.ok (), ()), 2) := by
  have hdata : (sendData (0 :: buffer)).run (smallFrames status).answer 0 = (.ok (status 1), 2) :=
    (run_sendData _).trans (if_neg h.1)
  have hpass : ¬status 1 = hmFail := h.2
  rw [hermesTransportSend]
  dsimp only [plainSession]
  rw [Prog.run_bind_of_ok hdata, if_neg hpass]
  rfl

/-- Frames that pass are taken for a negotiation that succeeds. -/
theorem run_initSecureSession_small {j : ℕ}
    (h : ∀ i < j + 1, FramePasses (sentFrame isServer i) status i) :
    (initSecureSession shortHandshake isServer (j + 2) (j + 1)).run (smallFrames status).answer 0 =
      (.ok (hmSuccess, 0), 2 * (j + 1)) := by
  rw [initSecureSession]
  cases isServer with
  | true =>
    have hrun := run_init_small (j := 0) (n := j + 1) (j + 2)
      (fun i hi => h i (by omega)) rfl (by omega)
    rwa [Nat.zero_add] at hrun
  | false =>
    have hrun := run_init_small (j := 1) (n := j) (j + 2)
      (fun i hi => h i (by omega)) rfl (by omega)
    have hsend := run_sendData_passes (h 0 (by omega)) [0]
    rw [if_neg (by decide)]
    dsimp only [shortHandshake, Nat.add_one_sub_one]
    rw [Prog.run_bind_of_ok hsend, if_neg (not_not.mpr rfl), Nat.add_comm j 1]
    exact hrun

end Short

/-! ### When failures are reported -/

section Reports

variable {status : ℕ → HermesStatus} {α : Type} {failed : α → Prop}

/-- A run that issues the calls of a frame with a failure, and reports none. -/
theorem not_reports {p : Calls α} {a : α} {j k : ℕ} (hj : FirstFailure status j)
    (hrun : p.run (smallFrames status).answer 0 = (.ok a, k)) (hk : 2 * (j + 1) ≤ k)
    (ha : ¬failed a) : ¬Reports status failed p := by
  intro h
  have hissued : ∃ i < (p.run (smallFrames status).answer 0).2, status i ≠ hmSuccess := by
    rw [hrun]
    rcases hj.2 with hne | hne
    · exact ⟨2 * j, by dsimp only; omega, hne⟩
    · exact ⟨2 * j + 1, by dsimp only; omega, hne⟩
  obtain ⟨b, hb, hfailed⟩ := h (smallFrames status).content hissued
  have heq := (congrArg Prod.fst hrun).symm.trans hb
  cases heq
  exact ha hfailed

/-- In the frames before the first failure, all is well. -/
theorem FirstFailure.passes {j i : ℕ} (h : FirstFailure status j) (hi : i < j) (checked : Bool) :
    FramePasses checked status i := by
  have h0 : status (2 * i) = hmSuccess := h.1 _ (by omega)
  have h1 : status (2 * i + 1) = hmSuccess := h.1 _ (by omega)
  refine ⟨by rw [h0]; decide, ?_⟩
  cases checked with
  | true => exact h1
  | false =>
    rw [h1]
    decide

theorem FirstFailure.passes_upTo {j : ℕ} (checked : ℕ → Bool) (h : FirstFailure status j)
    (hj : FramePasses (checked j) status j) : ∀ i < j + 1, FramePasses (checked i) status i := by
  intro i hi
  rcases Nat.lt_succ_iff_lt_or_eq.mp hi with hlt | rfl
  · exact h.passes hlt _
  · exact hj

/-- **When every failure of the user's transport is reported.** `hermes_transport_send`,
`hermes_transport_receive` and `init_secure_session` report it, in all sessions and whatever
the transport leaves in their buffers, exactly if the first frame with a failure is taken for
one. -/
theorem reports_iff (status : ℕ → HermesStatus) :
    ((∀ (S : Type) (T : SecureSession S) (session : S) (buffer : Bytes),
        Reports status (fun x => x.1.status ≠ hmSuccess) (hermesTransportSend T session buffer)) ↔
      (FirstFailure status 0 → ¬FramePasses false status 0)) ∧
    ((∀ (S : Type) (T : SecureSession S) (fuel : ℕ) (session : S) (bufferLength : ℕ),
        Reports status (fun x => x.1.status ≠ hmSuccess)
          (hermesTransportReceive T fuel session bufferLength)) ↔
      Noticed (fun _ => false) status) ∧
    ∀ isServer, (∀ (S : Type) (H : Handshake S) (fuel : ℕ) (session : S),
        Reports status (fun x => x.1 ≠ hmSuccess) (initSecureSession H isServer fuel session)) ↔
      Noticed (sentFrame isServer) status := by
  refine ⟨⟨fun h hj hpass => ?_, fun h S T session buffer => ?_⟩,
    ⟨fun h j hj hpass => ?_, fun h S T fuel session bufferLength => ?_⟩,
    fun isServer => ⟨fun h j hj hpass => ?_, fun h S H fuel session => ?_⟩⟩
  · have hrun := run_send_small hpass []
    exact not_reports hj hrun le_rfl (not_not.mpr rfl) (h Unit plainSession () [])
  · exact Reports.of_settled fun content => settled_send (U := ⟨status, content⟩) T h session buffer
  · obtain ⟨r, hrun⟩ := run_receive_small (j := 0) (n := j)
      (by simpa using hj.passes_upTo (fun _ => false) hpass) [] rfl
    exact not_reports hj hrun (by omega) (not_not.mpr rfl) (h Unit plainSession _ () _)
  · exact Reports.of_settled fun content =>
      settled_receiveLoop (U := ⟨status, content⟩) T h bufferLength fuel (j := 0)
        (fun k hk => absurd hk (Nat.not_lt_zero k)) session []
  · have hrun := run_initSecureSession_small (hj.passes_upTo (sentFrame isServer) hpass)
    exact not_reports hj hrun le_rfl (not_not.mpr rfl) (h ℕ shortHandshake _ _)
  · exact Reports.of_settled fun content => settled_init (U := ⟨status, content⟩) H h fuel session

/-- A transport that fails with the status `1`, each time: a message is sent on it. -/
theorem not_reports_one :
    ¬Reports (fun _ => 1) (fun x => x.1.status ≠ hmSuccess)
      (hermesTransportSend plainSession () [7]) := by
  have hpass : FramePasses false (fun _ => 1) 0 := ⟨by decide, by decide⟩
  have hj : FirstFailure (fun _ => 1) 0 := ⟨fun k hk => absurd hk (Nat.not_lt_zero k), by decide⟩
  exact not_reports hj (run_send_small hpass [7]) le_rfl (not_not.mpr rfl)

end Reports

end UserTransport

end Hermes

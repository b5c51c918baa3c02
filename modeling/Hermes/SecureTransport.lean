import Hermes.Rpc.ParamPack

/-!
# The secure transport

A transport on top of another one (`secure_transport/transport.c`): every string is wrapped
by a secure session and sent as a frame, its size in network order and then its bytes;
a string is received by reading frames until their contents amount to it.

The session belongs to Themis, which is not part of the repository, so it is a parameter
(`Hermes.SecureSession`), assumed ideal: what one peer unwraps is what the other one wrapped,
in order. The size of a frame and a status are the same kind of number in
`Hermes.readDataSize`, and a frame of `HM_FAIL` bytes is taken for a failure; all other
messages are delivered (`Hermes.secure_transport_delivers_iff`).
-/

namespace Hermes

open Interleave Wire

/-- What the transport uses of an established `secure_session_t`, in state `S`. Both
operations are called twice, first without a buffer for the size of what they put out. -/
structure SecureSession (S : Type) where
  /-- `secure_session_wrap` without a buffer, if it is `THEMIS_BUFFER_TOO_SMALL`. -/
  wrapSize : S → Bytes → Option ℕ
  /-- `secure_session_wrap` with a buffer, if it is `THEMIS_SUCCESS`. -/
  wrap : S → Bytes → Option (Bytes × S)
  /-- `secure_session_unwrap` without a buffer, if it is `THEMIS_BUFFER_TOO_SMALL`. -/
  unwrapSize : S → Bytes → Option ℕ
  /-- `secure_session_unwrap` with a buffer, if it is `THEMIS_SUCCESS`. -/
  unwrap : S → Bytes → Option (Bytes × S)

variable {S : Type}

/-! ### Sending and receiving -/

/-- `send_data`: only the status `HM_FAIL` of the first `send` is looked at. -/
def sendData (data : Bytes) : Rpc HermesStatus := do
  let res ← transportSend (be32 (UInt32.ofNat data.length))
  if res.status = hmFail then return hmFail
  else
    let res ← transportSend data
    return res.status

/-- `read_data_size`: a size, or `HM_FAIL`. If the transport fails with another status the
size is not initialised, and there is no result. -/
def readDataSize : Rpc UInt32 := do
  match ← transportRecv 4 with
  | .error res => if res = .fail then return hmFail else .stop .assertion
  | .ok dataSize => return ofBe32 dataSize

section Transport

variable (T : SecureSession S)

/-- `hermes_transport_send` -/
def hermesTransportSend (session : S) (buffer : Bytes) : Rpc (Reply Unit × S) :=
  match T.wrapSize session buffer with
  | none => .ret (.error .fail, session)
  | some _ =>
    match T.wrap session buffer with
    | none => .ret (.error .fail, session)
    | some (wrappedBuffer, session) => do
      if (← sendData wrappedBuffer) = hmFail then return (.error .fail, session)
      else return (.ok (), session)

/-- The loop of `hermes_transport_receive`, when `received` has been received of
`bufferLength` bytes. If reading a frame fails with another status than `HM_FAIL`, the
buffer is not initialised, and there is no result. -/
def hermesTransportReceiveLoop (bufferLength : ℕ) : ℕ → S → Bytes → Rpc (Reply Bytes × S)
  | 0, _, _ => .stop .outOfFuel
  | fuel + 1, session, received => do
    let size ← readDataSize
    if size = hmFail then return (.error .fail, session)
    else
      match ← transportRecv size.toNat with
      | .error res => if res = .fail then return (.error .fail, session) else .stop .assertion
      | .ok frame =>
        match T.unwrapSize session frame with
        | none => return (.error .fail, session)
        | some unwrappedSize =>
          if bufferLength < unwrappedSize + received.length then return (.error .fail, session)
          else
            match T.unwrap session frame with
            | none => return (.error .fail, session)
            | some (unwrapped, session) =>
              if (received ++ unwrapped).length < bufferLength then
                hermesTransportReceiveLoop bufferLength fuel session (received ++ unwrapped)
              else return (.ok (received ++ unwrapped), session)

/-- `hermes_transport_receive`, with a bound on its iterations. A frame is read before the length is
looked at, so also when nothing is asked for. -/
def hermesTransportReceive (fuel : ℕ) (session : S) (bufferLength : ℕ) :
    Rpc (Reply Bytes × S) :=
  hermesTransportReceiveLoop T bufferLength fuel session []

/-- `hermes_transport_send`, again and again. -/
def hermesTransportSendAll : S → List Bytes → Rpc (List (Reply Unit) × S)
  | session, [] => .ret ([], session)
  | session, buffer :: buffers => do
    let (res, session) ← hermesTransportSend T session buffer
    let (rest, session) ← hermesTransportSendAll session buffers
    return (res :: rest, session)

end Transport

/-! ### The session -/

/-- An ideal established session, as its two peers see it: while they are in step, what one
wraps the other unwraps, they stay in step, and wrapping adds `c` bytes. -/
structure SecureSession.Ideal (T : SecureSession S) (c : ℕ) (inStep : S → S → Prop) : Prop where
  unwrap_wrap : ∀ {s r m}, inStep s r → m ≠ [] → ∃ w s' r',
    T.wrapSize s m = some w.length ∧ T.wrap s m = some (w, s') ∧ w.length = m.length + c ∧
      T.unwrapSize r w = some m.length ∧ T.unwrap r w = some (m, r') ∧ inStep s' r'

/-- The frame of a wrapped message. -/
def transportFrame (w : Bytes) : Bytes := be32 (UInt32.ofNat w.length) ++ w

/-- A stream is made of the frames of messages, for a peer in state `r`: each unwraps to its
message, and is `c` bytes longer. -/
inductive Framed (T : SecureSession S) (c : ℕ) : S → List Bytes → Bytes → Prop
  | nil {r : S} : Framed T c r [] []
  | cons {r r' : S} {m w : Bytes} {ms : List Bytes} {stream : Bytes}
      (hlen : w.length = m.length + c) (hsize : T.unwrapSize r w = some m.length)
      (hunwrap : T.unwrap r w = some (m, r')) (h : Framed T c r' ms stream) :
      Framed T c r (m :: ms) (transportFrame w ++ stream)

section Delivery

variable {T : SecureSession S} {c : ℕ} {inStep : S → S → Prop} {s r : S} {ms : List Bytes}

/-- Sending a string on a lossless transport. -/
theorem run_transportSend (e : Failure) (xs inbox outbox : Bytes) :
    (transportSend xs).run (Pipe.answer e) ⟨inbox, outbox⟩ =
      (.ok (.ok ()), ⟨inbox, outbox ++ xs⟩) := rfl

/-- Receiving a string that is there. -/
theorem run_transportRecv (e : Failure) {xs : Bytes} {n : ℕ} (h : xs.length = n)
    (more outbox : Bytes) :
    (transportRecv n).run (Pipe.answer e) ⟨xs ++ more, outbox⟩ =
      (.ok (.ok xs), ⟨more, outbox⟩) := by
  subst h
  simp [transportRecv, Pipe.answer]

theorem run_sendData (data inbox outbox : Bytes) :
    (sendData data).run (Pipe.answer .fail) ⟨inbox, outbox⟩ =
      (.ok hmSuccess, ⟨inbox, outbox ++ transportFrame data⟩) := by
  have hne : ¬Reply.status (.ok () : Reply Unit) = hmFail := by decide
  rw [sendData, Prog.run_bind, run_transportSend]
  simp only [if_neg hne]
  rw [Prog.run_bind, run_transportSend]
  simp [transportFrame]

/-- **Every send succeeds**, and the frames of the messages are on the stream. -/
theorem SecureSession.Ideal.sendAll (hT : T.Ideal c inStep) (h : inStep s r)
    (hne : ∀ m ∈ ms, m ≠ []) :
    ∃ stream s', Framed T c r ms stream ∧ ∀ inbox outbox,
      (hermesTransportSendAll T s ms).run (Pipe.answer .fail) ⟨inbox, outbox⟩ =
        (.ok (ms.map fun _ => .ok (), s'), ⟨inbox, outbox ++ stream⟩) := by
  induction ms generalizing s r with
  | nil => exact ⟨[], s, .nil, fun inbox outbox => by simp [hermesTransportSendAll]⟩
  | cons m ms ih =>
    obtain ⟨w, s', r', hws, hw, hlen, hus, hu, h'⟩ := hT.unwrap_wrap h (hne m (by simp))
    obtain ⟨stream, s'', hframed, hrun⟩ := ih h' fun m' hm' => hne m' (List.mem_cons_of_mem m hm')
    refine ⟨transportFrame w ++ stream, s'', .cons hlen hus hu hframed, fun inbox outbox => ?_⟩
    have hsend : (hermesTransportSend T s m).run (Pipe.answer .fail) ⟨inbox, outbox⟩ =
        (.ok (.ok (), s'), ⟨inbox, outbox ++ transportFrame w⟩) := by
      have hne : ¬hmSuccess = hmFail := by decide
      simp only [hermesTransportSend, hws, hw]
      rw [Prog.run_bind, run_sendData]
      simp only [if_neg hne, Prog.pure_eq, Prog.run_ret]
    rw [hermesTransportSendAll, Prog.run_bind, hsend]
    simp only
    rw [Prog.run_bind, hrun]
    simp

/-- Reading the size of a frame. -/
theorem run_readDataSize {w : Bytes} (more outbox : Bytes) :
    readDataSize.run (Pipe.answer .fail) ⟨transportFrame w ++ more, outbox⟩ =
      (.ok (UInt32.ofNat w.length), ⟨w ++ more, outbox⟩) := by
  rw [readDataSize, Prog.run_bind, transportFrame, List.append_assoc,
    run_transportRecv _ (length_be32 _)]
  simp

section Frame

variable {w m : Bytes} {r r' : S} {bufferLength : ℕ} {received : Bytes}

theorem ofNat_eq_hmFail {n : ℕ} (hn : n < 2 ^ 32) : UInt32.ofNat n = hmFail ↔ n = 983041 := by
  rw [← UInt32.toNat_inj, UInt32.toNat_ofNat', Nat.mod_eq_of_lt hn]
  rfl

/-- **A frame of `HM_FAIL` bytes** is taken for a failure of the transport. -/
theorem run_receive_fail (hw : w.length = 983041) (fuel : ℕ) (more outbox : Bytes) :
    (hermesTransportReceiveLoop T bufferLength (fuel + 1) r received).run (Pipe.answer .fail)
        ⟨transportFrame w ++ more, outbox⟩ =
      (.ok (.error .fail, r), ⟨w ++ more, outbox⟩) := by
  have hsize : UInt32.ofNat w.length = hmFail := (ofNat_eq_hmFail (by omega)).mpr hw
  rw [hermesTransportReceiveLoop, Prog.run_bind, run_readDataSize]
  simp only [if_pos hsize, Prog.pure_eq, Prog.run_ret]

/-- **Any other frame** is unwrapped, as long as no more is received than asked for. -/
theorem run_receive_frame (hw : w.length < 2 ^ 32) (hfail : w.length ≠ 983041)
    (hsize : T.unwrapSize r w = some m.length) (hunwrap : T.unwrap r w = some (m, r'))
    (hroom : m.length + received.length ≤ bufferLength) (fuel : ℕ) (more outbox : Bytes) :
    (hermesTransportReceiveLoop T bufferLength (fuel + 1) r received).run (Pipe.answer .fail)
        ⟨transportFrame w ++ more, outbox⟩ =
      if (received ++ m).length < bufferLength then
        (hermesTransportReceiveLoop T bufferLength fuel r' (received ++ m)).run (Pipe.answer .fail)
          ⟨more, outbox⟩
      else (.ok (.ok (received ++ m), r'), ⟨more, outbox⟩) := by
  have hne : ¬UInt32.ofNat w.length = hmFail := fun hc => hfail ((ofNat_eq_hmFail hw).mp hc)
  have hlen : w.length = (UInt32.ofNat w.length).toNat := by
    rw [UInt32.toNat_ofNat', Nat.mod_eq_of_lt hw]
  rw [hermesTransportReceiveLoop, Prog.run_bind, run_readDataSize]
  simp only [if_neg hne]
  rw [Prog.run_bind, run_transportRecv _ hlen]
  simp only [hsize, if_neg (not_lt.mpr hroom), hunwrap]
  split_ifs <;> rfl

end Frame

/-- **A stream of frames is received**, if no frame is of `HM_FAIL` bytes. -/
theorem Framed.receive {stream : Bytes} (h : Framed T c r ms stream) (hms : ms ≠ [])
    (hne : ∀ m ∈ ms, m ≠ []) (hlt : ∀ m ∈ ms, m.length + c < 2 ^ 32)
    (hfail : ∀ m ∈ ms, m.length + c ≠ 983041) (received : Bytes) :
    ∃ r', ∀ fuel more outbox, ms.length ≤ fuel →
      (hermesTransportReceiveLoop T (received ++ ms.flatten).length fuel r received).run
          (Pipe.answer .fail) ⟨stream ++ more, outbox⟩ =
        (.ok (.ok (received ++ ms.flatten), r'), ⟨more, outbox⟩) := by
  induction h generalizing received with
  | nil => exact absurd rfl hms
  | @cons r r₁ m w ms stream hlen hsize hunwrap hrest ih =>
    have hw : w.length < 2 ^ 32 := hlen ▸ hlt m (by simp)
    have hwfail : w.length ≠ 983041 := hlen ▸ hfail m (by simp)
    have hflat : received ++ (m :: ms).flatten = received ++ m ++ ms.flatten := by simp
    have hroom : m.length + received.length ≤ (received ++ m ++ ms.flatten).length := by
      simp only [List.length_append]
      omega
    rw [hflat]
    rcases eq_or_ne ms [] with rfl | hms'
    · -- The last message: nothing is missing.
      cases hrest
      refine ⟨r₁, fun fuel more outbox hfuel => ?_⟩
      obtain ⟨fuel, rfl⟩ := Nat.exists_eq_add_one_of_ne_zero (Nat.ne_of_gt hfuel)
      rw [List.append_nil, run_receive_frame hw hwfail hsize hunwrap hroom, List.flatten_nil,
        List.append_nil, if_neg (lt_irrefl _)]
    · obtain ⟨r', hr'⟩ := ih hms' (fun m' hm' => hne m' (List.mem_cons_of_mem m hm'))
        (fun m' hm' => hlt m' (List.mem_cons_of_mem m hm'))
        (fun m' hm' => hfail m' (List.mem_cons_of_mem m hm')) (received ++ m)
      -- no message is empty, so bytes are missing while there is another one
      have hmissing : (received ++ m).length < (received ++ m ++ ms.flatten).length := by
        obtain ⟨m', ms', rfl⟩ := List.exists_cons_of_ne_nil hms'
        have hm' := List.length_pos_iff.mpr (hne m' (by simp))
        simp only [List.flatten_cons, List.length_append]
        omega
      refine ⟨r', fun fuel more outbox hfuel => ?_⟩
      rw [List.length_cons] at hfuel
      obtain ⟨fuel, rfl⟩ := Nat.exists_eq_add_one_of_ne_zero (by omega : fuel ≠ 0)
      rw [List.append_assoc (transportFrame w), run_receive_frame hw hwfail hsize hunwrap hroom,
        if_pos hmissing]
      exact hr' fuel more outbox (by omega)

/-- **A stream with a frame of `HM_FAIL` bytes is not received.** -/
theorem Framed.not_receive {stream : Bytes} (h : Framed T c r ms stream)
    (hne : ∀ m ∈ ms, m ≠ []) (hlt : ∀ m ∈ ms, m.length + c < 2 ^ 32)
    (hfail : ∃ m ∈ ms, m.length + c = 983041) (received : Bytes) {fuel : ℕ}
    (hfuel : ms.length ≤ fuel) (more outbox : Bytes) :
    ∃ r' left, (hermesTransportReceiveLoop T (received ++ ms.flatten).length fuel r received).run
        (Pipe.answer .fail) ⟨stream ++ more, outbox⟩ =
      (.ok (.error .fail, r'), ⟨left, outbox⟩) := by
  induction h generalizing received fuel with
  | nil =>
    obtain ⟨m, hm, -⟩ := hfail
    cases hm
  | @cons r r₁ m w ms stream hlen hsize hunwrap _ ih =>
    rw [List.length_cons] at hfuel
    obtain ⟨fuel, rfl⟩ := Nat.exists_eq_add_one_of_ne_zero (by omega : fuel ≠ 0)
    rw [List.append_assoc]
    -- the loop ends at the first frame whose length is taken for a failure
    by_cases hm : m.length + c = 983041
    · exact ⟨r, _, run_receive_fail (hlen.trans hm) fuel (stream ++ more) outbox⟩
    · have hw : w.length < 2 ^ 32 := hlen ▸ hlt m (by simp)
      have hwfail : w.length ≠ 983041 := hlen ▸ hm
      have hrest : ∃ m' ∈ ms, m'.length + c = 983041 := by
        obtain ⟨m', hm', heq⟩ := hfail
        rcases List.mem_cons.mp hm' with rfl | hm'
        · exact absurd heq hm
        · exact ⟨m', hm', heq⟩
      have hflat : received ++ (m :: ms).flatten = received ++ m ++ ms.flatten := by simp
      have hroom : m.length + received.length ≤ (received ++ m ++ ms.flatten).length := by
        simp only [List.length_append]
        omega
      -- that frame is still to come, so bytes are missing
      have hmissing : (received ++ m).length < (received ++ m ++ ms.flatten).length := by
        obtain ⟨m', hm', -⟩ := hrest
        have hpos : 0 < ms.flatten.length :=
          (List.length_pos_iff.mpr (hne m' (List.mem_cons_of_mem m hm'))).trans_le
            (List.sublist_flatten_of_mem hm').length_le
        simp only [List.length_append]
        omega
      rw [hflat, run_receive_frame hw hwfail hsize hunwrap hroom, if_pos hmissing]
      exact ih (fun m' hm' => hne m' (List.mem_cons_of_mem m hm'))
        (fun m' hm' => hlt m' (List.mem_cons_of_mem m hm')) hrest (received ++ m) (by omega)

end Delivery

/-! ### Delivery -/

/-- **The messages are delivered** from a peer in state `s` to one in state `r`: every send
succeeds, and one receive of their whole length gives all of them, whatever follows them on
the stream, and leaves that. -/
def Delivers (T : SecureSession S) (s r : S) (ms : List Bytes) : Prop :=
  ∃ stream s', (∀ inbox outbox,
      (hermesTransportSendAll T s ms).run (Pipe.answer .fail) ⟨inbox, outbox⟩ =
        (.ok (ms.map fun _ => .ok (), s'), ⟨inbox, outbox ++ stream⟩)) ∧
    ∃ n r', ∀ fuel more outbox, n ≤ fuel →
      (hermesTransportReceive T fuel r ms.flatten.length).run (Pipe.answer .fail)
          ⟨stream ++ more, outbox⟩ =
        (.ok (.ok ms.flatten, r'), ⟨more, outbox⟩)

/-- **Which messages the secure transport delivers**: at least one, and none that is
`HM_FAIL` bytes long when it is wrapped. -/
theorem secure_transport_delivers_iff {T : SecureSession S} {c : ℕ} {inStep : S → S → Prop}
    (hT : T.Ideal c inStep) {s r : S} (h : inStep s r) {ms : List Bytes}
    (hne : ∀ m ∈ ms, m ≠ []) (hlt : ∀ m ∈ ms, m.length + c < 2 ^ 32) :
    Delivers T s r ms ↔ ms ≠ [] ∧ ∀ m ∈ ms, m.length + c ≠ 983041 := by
  obtain ⟨stream, s', hframed, hsend⟩ := hT.sendAll h hne
  constructor
  · rintro ⟨stream', s'', hsend', n, r', hreceive⟩
    obtain rfl : stream = stream' := by
      have heq := (hsend [] []).symm.trans (hsend' [] [])
      simpa using congrArg (fun x => x.2.outbox) heq
    refine ⟨?_, fun m hm hfail => ?_⟩
    · rintro rfl
      cases hframed
      -- Nothing to read a frame from.
      have hnone := hreceive (n + 1) [] [] (by omega)
      simp [hermesTransportReceive, hermesTransportReceiveLoop, readDataSize, transportRecv,
        Pipe.answer] at hnone
    · obtain ⟨r'', left, hbad⟩ := hframed.not_receive hne hlt ⟨m, hm, hfail⟩ []
        (Nat.le_add_left ms.length n) [] []
      have hgood := hreceive (n + ms.length) [] [] (by omega)
      rw [hermesTransportReceive] at hgood
      have heq := hbad.symm.trans hgood
      cases congrArg (fun x => x.1) heq
  · rintro ⟨hms, hfail⟩
    obtain ⟨r', hreceive⟩ := hframed.receive hms hne hlt hfail []
    exact ⟨stream, s', hsend, ms.length, r', hreceive⟩

/-- A session that puts one byte in front of every message: of no use to anyone, and
ideal. -/
def plainSession : SecureSession Unit where
  wrapSize _ m := some (m.length + 1)
  wrap _ m := some (0 :: m, ())
  unwrapSize _ w := some (w.length - 1)
  unwrap _ w := some (w.tail, ())

theorem ideal_plainSession : plainSession.Ideal 1 fun _ _ => True where
  unwrap_wrap {_ _ m} _ _ := ⟨0 :: m, (), (), by simp [plainSession]⟩

theorem secure_transport_delivers_two :
    Delivers plainSession () () [[1], [2, 3]] ↔
      ([[1], [2, 3]] : List Bytes) ≠ [] ∧
        ∀ m ∈ ([[1], [2, 3]] : List Bytes), m.length + 1 ≠ 983041 := by
  have hne : ∀ m ∈ ([[1], [2, 3]] : List Bytes), m ≠ [] := by decide
  have hlt : ∀ m ∈ ([[1], [2, 3]] : List Bytes), m.length + 1 < 2 ^ 32 := by decide
  exact secure_transport_delivers_iff ideal_plainSession trivial hne hlt

/-- A message whose frame is `HM_FAIL` bytes long is sent and never received. -/
theorem not_delivers : ¬∀ (S : Type) (T : SecureSession S) (c : ℕ) (inStep : S → S → Prop) (s r : S)
    (ms : List Bytes), T.Ideal c inStep → 0 < c → c < 983041 → inStep s r → (∀ m ∈ ms, m ≠ []) →
      (∀ m ∈ ms, m.length + c < 2 ^ 32) → Delivers T s r ms := by
  intro h
  have hlen : (List.replicate 983040 (0 : UInt8)).length = 983040 := List.length_replicate
  have hne : ∀ m ∈ [List.replicate 983040 (0 : UInt8)], m ≠ [] := by
    intro m hm hnil
    rw [List.mem_singleton.mp hm] at hnil
    rw [hnil] at hlen
    cases hlen
  have hlt : ∀ m ∈ [List.replicate 983040 (0 : UInt8)], m.length + 1 < 2 ^ 32 := by
    intro m hm
    rw [List.mem_singleton.mp hm, hlen]
    decide
  obtain ⟨stream, s', hsend, n, r', hreceive⟩ := h Unit plainSession 1 (fun _ _ => True) () () _
    ideal_plainSession (by decide) (by decide) trivial hne hlt
  obtain ⟨stream', s'', hframed, hsend'⟩ :=
    ideal_plainSession.sendAll (s := ()) (r := ()) trivial hne
  obtain rfl : stream' = stream := by
    have heq := (hsend' [] []).symm.trans (hsend [] [])
    simpa using congrArg (fun x => x.2.outbox) heq
  obtain ⟨r'', left, hbad⟩ := hframed.not_receive hne hlt
    ⟨_, List.mem_singleton_self _, by rw [hlen]⟩ [] (Nat.le_add_left _ n) [] []
  have heq := hbad.symm.trans (hreceive _ [] [] (Nat.le_add_right n 1))
  cases congrArg (fun x => x.1) heq

end Hermes

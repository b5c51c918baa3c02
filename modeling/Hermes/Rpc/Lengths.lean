import Hermes.Rpc.Encoding

/-!
# Packs of any length

A parameter pack announces its length, and that of each of its buffers, in four bytes, and
its buffers may be of any length. The length of the whole is added up in 32 bits, where it
wraps (`Hermes.HmParamPack.toNat_getWholeLength`), and nothing else is checked: what both
encoders promise (`Hermes.HmParamPack.LengthsHold`) they keep for the packs whose length fits,
and for those whose length wraps to `0`, which are refused
(`Hermes.lengthsHold_iff`).
-/

namespace Hermes

open Interleave Wire

variable {pack : HmParamPack}

/-! ### Writing too much -/

/-- Pieces that do not fit are written beyond the end of the buffer. -/
theorem hmParamPackWritePieces_eq_none (pieces : List Bytes) {buffer : Bytes} {pos : ℕ}
    (hpos : pos ≤ buffer.length) (h : buffer.length < pos + pieces.flatten.length) :
    hmParamPackWritePieces pieces buffer pos = none := by
  induction pieces generalizing buffer pos with
  | nil =>
    rw [List.flatten_nil, List.length_nil] at h
    omega
  | cons piece pieces ih =>
    rw [List.flatten_cons, List.length_append] at h
    rw [hmParamPackWritePieces]
    cases hcopy : memcpy buffer pos piece with
    | none => rfl
    | some buffer' =>
      obtain ⟨hin, hlen⟩ := memcpy_length hcopy
      exact ih (by omega) (by omega)

/-! ### What is sent -/

/-- The strings sent in some exchanges, in order. -/
def sentStrings (h : List (LinkEvent UInt8 Failure)) : List Bytes :=
  h.reverse.filterMap fun e =>
    match e.1 with
    | .send xs => some xs
    | .recv _ => none

theorem sentStrings_send (xs : Bytes) (a : Reply Unit) (h : List (LinkEvent UInt8 Failure)) :
    sentStrings (⟨.send xs, a⟩ :: h) = sentStrings h ++ [xs] := by
  simp [sentStrings]

section Send

variable {σ : Type} (handle : σ → (r : LinkReq UInt8) → LinkReq.Answer UInt8 Failure r × σ)

/-- Whoever reports a success has sent all pieces. -/
theorem sent_transportSendAll (pieces : List Bytes) {s : σ} {h : List (LinkEvent UInt8 Failure)}
    (hok : ((transportSendAll pieces).run handle s).1 = .ok (.ok ())) :
    sentStrings ((transportSendAll pieces).events handle s h) = sentStrings h ++ pieces := by
  induction pieces generalizing s h with
  | nil => exact (List.append_nil _).symm
  | cons piece pieces ih =>
    have hstep : transportSendAll (piece :: pieces) = .req (.send piece) fun
        | .error e => .ret (.error e)
        | .ok _ => transportSendAll pieces := by
      rw [transportSendAll, transportSend, Prog.req_bind]
      congr
      funext a
      cases a <;> rfl
    rw [hstep, Prog.run_req] at hok
    rw [hstep, Prog.events_req]
    cases ha : (handle s (.send piece)).1 with
    | error e =>
      rw [ha] at hok
      cases hok
    | ok x =>
      rw [ha] at hok
      dsimp only at hok ⊢
      rw [ih hok, sentStrings_send, List.append_assoc, List.singleton_append]

end Send

/-! ### What the encoders promise -/

/-- What `hm_param_pack_write` and `hm_param_pack_send` promise for a pack.

A pack whose length does not fit into four bytes is refused; writing stays within the buffer;
and the lengths that are put out, of each buffer and of the whole, are those of what follows
them. -/
structure HmParamPack.LengthsHold (pack : HmParamPack) : Prop where
  write : ∀ buffer, ∃ status buffer' n, hmParamPackWrite pack buffer = some (status, buffer', n) ∧
    (status = hmSuccess → pack.encodedLength < 2 ^ 32 ∧ n ≤ buffer.length ∧
      n = pack.encodedLength ∧ IsPack buffer' (pack.nodes.map HmParamPackNode.sent))
  send : ∀ (σ : Type) (handle : σ → (r : LinkReq UInt8) → LinkReq.Answer UInt8 Failure r × σ)
    (s : σ), ((hmParamPackSend pack).run handle s).1 = .ok (.ok ()) →
      pack.encodedLength < 2 ^ 32 ∧ ∃ total rest,
        sentStrings ((hmParamPackSend pack).events handle s []) = le32 total :: rest ∧
        total.toNat = rest.flatten.length

/-- What is refused is promised nothing. -/
theorem HmParamPack.lengthsHold_of_refused
    (h : pack.nodes = [] ∨ hmParamPackGetWholeLength pack = 0) : pack.LengthsHold where
  write buffer := by
    refine ⟨hmInvalidParameter, buffer, buffer.length, if_pos h, fun hs => ?_⟩
    exact absurd hs (by decide)
  send σ handle s hok := by
    rw [hmParamPackSend, if_pos h] at hok
    cases hok

/-- **A pack whose length fits.** -/
theorem HmParamPack.Sendable.lengthsHold (h : pack.Sendable) : pack.LengthsHold where
  write buffer := by
    rcases Nat.lt_or_ge buffer.length pack.encodedLength with hlt | hge
    · refine ⟨hmBufferTooSmall, buffer, pack.encodedLength, ?_, fun hs => absurd hs (by decide)⟩
      rw [hmParamPackWrite, if_neg h.getWholeLength_ne_zero, h.getWholeLength, if_pos hlt]
    · exact ⟨_, _, _, h.write hge, fun _ => ⟨h.length_lt, hge, rfl, h.isPack _⟩⟩
  send σ handle s hok := by
    rw [hmParamPackSend, if_neg h.getWholeLength_ne_zero] at hok ⊢
    refine ⟨h.length_lt, _, pack.pieces, sent_transportSendAll handle _ hok, ?_⟩
    rw [h.getWholeLength, pack.length_pieces]

/-- **A pack whose length wraps.** A buffer of the length it wraps to is taken for large
enough. -/
theorem HmParamPack.write_wrapped (hc : pack.wholeData = none) (hlen : 2 ^ 32 ≤ pack.encodedLength)
    (hwrap : ¬2 ^ 32 ∣ pack.encodedLength) :
    hmParamPackWrite pack (List.replicate (pack.encodedLength % 2 ^ 32) 0) = none := by
  have hwhole := HmParamPack.toNat_getWholeLength hc
  have hpos : pack.encodedLength % 2 ^ 32 ≠ 0 := fun h0 => hwrap (Nat.dvd_of_mod_eq_zero h0)
  have hrefused : ¬(pack.nodes = [] ∨ hmParamPackGetWholeLength pack = 0) := by
    rintro (hnil | hzero)
    · rw [HmParamPack.encodedLength, hnil] at hlen
      exact absurd hlen (by decide)
    · rw [hzero, UInt32.toNat_zero] at hwhole
      exact hpos hwhole.symm
  have hlt : pack.encodedLength % 2 ^ 32 < 2 ^ 32 := Nat.mod_lt _ (by decide)
  rw [hmParamPackWrite, if_neg hrefused, hwhole, List.length_replicate, if_neg (lt_irrefl _),
    hmParamPackWritePieces_eq_none pack.pieces (Nat.zero_le _)
      (by rw [List.length_replicate, pack.length_pieces]; omega)]
  rfl

theorem HmParamPack.lengthsHold_of_created (hc : pack.wholeData = none) :
    pack.LengthsHold ↔ pack.encodedLength < 2 ^ 32 ∨ 2 ^ 32 ∣ pack.encodedLength := by
  constructor
  · intro h
    by_contra hcon
    obtain ⟨hlen, hwrap⟩ := not_or.mp hcon
    obtain ⟨status, buffer', n, hwrite, -⟩ := h.write _
    rw [HmParamPack.write_wrapped hc (Nat.le_of_not_lt hlen) hwrap] at hwrite
    cases hwrite
  · rintro (hlt | hdvd)
    · by_cases hnil : pack.nodes = []
      · exact HmParamPack.lengthsHold_of_refused (Or.inl hnil)
      · exact HmParamPack.Sendable.lengthsHold ⟨hnil, hc, hlt⟩
    · refine HmParamPack.lengthsHold_of_refused (Or.inr (UInt32.toNat_inj.mp ?_))
      rw [HmParamPack.toNat_getWholeLength hc, Nat.mod_eq_zero_of_dvd hdvd, UInt32.toNat_zero]

theorem create_eq_some {params : List HmParam} (h : hmParamPackCreate params = some pack) :
    pack.nodes = params.map HmParam.node ∧ pack.wholeData = none := by
  rw [hmParamPackCreate] at h
  split_ifs at h
  cases h
  exact ⟨rfl, rfl⟩

/-- **When the lengths hold**: the number of bytes fits into 32 bits, or wraps to `0`. -/
theorem lengthsHold_iff {params : List HmParam} (h : hmParamPackCreate params = some pack) :
    pack.LengthsHold ↔
      4 + (params.map HmParam.encodedLength).sum < 2 ^ 32 ∨
        2 ^ 32 ∣ 4 + (params.map HmParam.encodedLength).sum := by
  obtain ⟨hnodes, hc⟩ := create_eq_some h
  rw [HmParamPack.lengthsHold_of_created hc, HmParamPack.encodedLength, hnodes, List.map_map]
  rfl

/-- An integer and an empty buffer. -/
theorem lengthsHold_small : ∃ pack, hmParamPackCreate [.int32 5, .buffer []] = some pack ∧
    (pack.LengthsHold ↔ 20 < 2 ^ 32 ∨ 2 ^ 32 ∣ 20) :=
  ⟨_, rfl, lengthsHold_iff (rfl : hmParamPackCreate [.int32 5, .buffer []] = some _)⟩

/-- The pack of one buffer with `2 ^ 32` bytes is written into `12`, beyond their end. -/
theorem write_large {b : Bytes} (hb : b.length = 2 ^ 32) :
    ∃ pack, hmParamPackCreate [.bufferC b] = some pack ∧
      hmParamPackWrite pack (List.replicate 12 0) = none := by
  obtain ⟨pack, hcreate⟩ : ∃ pack, hmParamPackCreate [.bufferC b] = some pack :=
    ⟨_, dif_pos (show 1 ≤ hmParamPackMaxParams by decide)⟩
  obtain ⟨hnodes, hc⟩ := create_eq_some hcreate
  have hlen : pack.encodedLength = 2 ^ 32 + 12 := by
    rw [HmParamPack.encodedLength, hnodes]
    change 4 + (8 + b.length + 0) = 2 ^ 32 + 12
    omega
  have hwrite := HmParamPack.write_wrapped hc (by omega) (by omega)
  have hroom : (2 ^ 32 + 12) % 2 ^ 32 = 12 := by norm_num
  rw [hlen, hroom] at hwrite
  exact ⟨pack, hcreate, hwrite⟩

/-- The buffer is there: `2 ^ 32` bytes, all of them `0`. -/
theorem lengthsHold_fails : ∃ pack,
    hmParamPackCreate [.bufferC (List.replicate (2 ^ 32) 0)] = some pack ∧
      hmParamPackWrite pack (List.replicate 12 0) = none ∧ ¬pack.LengthsHold := by
  have hlen : (List.replicate (2 ^ 32) (0 : UInt8)).length = 2 ^ 32 := List.length_replicate
  obtain ⟨pack, hcreate, hwrite⟩ := write_large hlen
  refine ⟨pack, hcreate, hwrite, fun h => ?_⟩
  obtain ⟨status, buffer', n, hok, -⟩ := h.write (List.replicate 12 0)
  rw [hwrite] at hok
  cases hok

end Hermes

import Hermes.Rpc.ParamPack

/-!
# The format of parameter packs

What a parameter pack is on the wire, said without a decoder: a count of at most 20 and so
many parameters one after the other (`Hermes.IsPack`). The decoder of
`Hermes.hmParamPackRead` accepts exactly the byte strings that begin with one, and reads no
byte outside of them (`Hermes.param_pack_read_exact`), although the loop that builds the
pack checks nothing: the loop before it has checked all of it
(`Hermes.checkParams_spec`, `Hermes.readParams_spec`).
-/

namespace Hermes

open Wire

/-- A parameter on the wire. -/
inductive WireParam where
  | int32 (v : UInt32) : WireParam
  | buf (t : HmBufferType) (b : Bytes) : WireParam
  deriving DecidableEq

/-- Its type. -/
def WireParam.type : WireParam → HmParamType
  | .int32 _ => .int32
  | .buf t _ => .buf t

/-- What follows its tag. -/
def WireParam.body : WireParam → Bytes
  | .int32 v => le32 v
  | .buf _ b => le32 (UInt32.ofNat b.length) ++ b

/-- A parameter in bytes. -/
def WireParam.encode (p : WireParam) : Bytes := le32 p.type.tag ++ p.body

/-- The length of a buffer fits into the four bytes it has on the wire. -/
def WireParam.Fits : WireParam → Prop
  | .int32 _ => True
  | .buf _ b => b.length < 2 ^ 32

/-- The bytes begin with a pack of the parameters `ps`. -/
def IsPack (buffer : Bytes) (ps : List WireParam) : Prop :=
  ps.length ≤ hmParamPackMaxParams ∧ (∀ p ∈ ps, p.Fits) ∧
    le32 (UInt32.ofNat ps.length) ++ ps.flatMap WireParam.encode <+: buffer

/-- The parameter a node stands for. -/
def HmParamPackNode.wire : HmParamPackNode → WireParam
  | .int32 v _ => .int32 v.toUInt32
  | .buf t s => .buf t s.bytes

/-- A node that was read from a buffer: an integer has its four bytes, and a buffer is part
of that one. -/
def HmParamPackNode.ReadFrom (buffer : Bytes) : HmParamPackNode → Prop
  | .int32 _ dataLength => dataLength = 4
  | .buf _ s => s.mem = buffer

/-! ### Words in a buffer -/

theorem le32_append_prefix {a w : UInt32} {x z : Bytes} :
    le32 a ++ x <+: le32 w ++ z ↔ a = w ∧ x <+: z := by
  constructor
  · rintro ⟨rest, h⟩
    rw [List.append_assoc] at h
    obtain ⟨hw, hz⟩ := List.append_inj h (by simp)
    exact ⟨le32_inj hw, rest, hz⟩
  · rintro ⟨rfl, h⟩
    exact (List.prefix_append_right_inj _).mpr h

theorem append_prefix_iff {x y z : Bytes} :
    x ++ y <+: z ↔ x = z.take x.length ∧ y <+: z.drop x.length := by
  constructor
  · rintro ⟨rest, rfl⟩
    exact ⟨by simp, rest, by simp⟩
  · rintro ⟨hx, hy⟩
    rw [← List.take_append_drop x.length z, ← hx]
    exact (List.prefix_append_right_inj _).mpr hy

variable {buffer : Bytes}

/-- A word is read where there are four bytes left. -/
theorem load32_spec {off : ℕ} (h : off + 4 ≤ buffer.length) :
    ∃ w, load32 buffer off = some w ∧ buffer.drop off = le32 w ++ buffer.drop (off + 4) := by
  refine ⟨ofLe32 ((buffer.drop off).take 4), by rw [load32, if_pos h], ?_⟩
  have hlen : ((buffer.drop off).take 4).length = 4 := by
    rw [List.length_take, List.length_drop]
    omega
  rw [le32_ofLe32 hlen, ← List.drop_drop, List.take_append_drop]

/-! ### The two loops -/

/-- Parameters, so many, one after the other. -/
def ParamsAt (buffer : Bytes) (n off : ℕ) (ps : List WireParam) : Prop :=
  ps.length = n ∧ (∀ p ∈ ps, p.Fits) ∧ ps.flatMap WireParam.encode <+: buffer.drop off

theorem paramsAt_zero {off : ℕ} {ps : List WireParam} : ParamsAt buffer 0 off ps ↔ ps = [] := by
  constructor
  · rintro ⟨h, -⟩
    exact List.eq_nil_of_length_eq_zero h
  · rintro rfl
    exact ⟨rfl, by simp, List.nil_prefix⟩

/-- The first of some parameters, behind its tag. -/
theorem paramsAt_succ {n off : ℕ} {w : UInt32} {ps : List WireParam}
    (hw : buffer.drop off = le32 w ++ buffer.drop (off + 4)) :
    ParamsAt buffer (n + 1) off ps ↔ ∃ p ps', ps = p :: ps' ∧ ps'.length = n ∧
      (p.Fits ∧ ∀ p' ∈ ps', p'.Fits) ∧ p.type.tag = w ∧
      p.body ++ ps'.flatMap WireParam.encode <+: buffer.drop (off + 4) := by
  constructor
  · rintro ⟨hlen, hfits, hpre⟩
    obtain ⟨p, ps', rfl⟩ := List.exists_cons_of_length_eq_add_one hlen
    rw [List.flatMap_cons, WireParam.encode, List.append_assoc, hw, le32_append_prefix] at hpre
    exact ⟨p, ps', rfl, by simpa using hlen, by simpa using hfits, hpre⟩
  · rintro ⟨p, ps', rfl, rfl, hfits, hpre⟩
    refine ⟨rfl, by simpa using hfits, ?_⟩
    rw [List.flatMap_cons, WireParam.encode, List.append_assoc, hw, le32_append_prefix]
    exact hpre

/-- An integer is there when its four bytes are. -/
theorem paramsAt_int32 {n off : ℕ} {v : UInt32} {ps : List WireParam}
    (hw : buffer.drop off = le32 HmParamType.int32.tag ++ buffer.drop (off + 4))
    (hv : buffer.drop (off + 4) = le32 v ++ buffer.drop (off + 4 + 4)) :
    ParamsAt buffer (n + 1) off ps ↔
      ∃ ps', ps = .int32 v :: ps' ∧ ParamsAt buffer n (off + 4 + 4) ps' := by
  rw [paramsAt_succ hw]
  constructor
  · rintro ⟨p, ps', rfl, hlen, hfits, htag, hpre⟩
    obtain ⟨v', rfl⟩ : ∃ v', p = .int32 v' := by
      have htype := HmParamType.tag_inj htag
      cases p with
      | int32 v' => exact ⟨v', rfl⟩
      | buf t b => cases htype
    rw [WireParam.body, hv, le32_append_prefix] at hpre
    obtain ⟨rfl, hpre⟩ := hpre
    exact ⟨ps', rfl, hlen, hfits.2, hpre⟩
  · rintro ⟨ps', rfl, hlen, hfits, hpre⟩
    refine ⟨.int32 v, ps', rfl, hlen, ⟨trivial, hfits⟩, rfl, ?_⟩
    rw [WireParam.body, hv, le32_append_prefix]
    exact ⟨rfl, hpre⟩

/-- A buffer is there when its length is and so many bytes are. -/
theorem paramsAt_buf {n off : ℕ} {t : HmBufferType} {l : UInt32} {ps : List WireParam}
    (hw : buffer.drop off = le32 (HmParamType.buf t).tag ++ buffer.drop (off + 4))
    (hl : buffer.drop (off + 4) = le32 l ++ buffer.drop (off + 4 + 4)) :
    ParamsAt buffer (n + 1) off ps ↔ off + 4 + 4 + l.toNat ≤ buffer.length ∧
      ∃ ps', ps = .buf t ((buffer.drop (off + 4 + 4)).take l.toNat) :: ps' ∧
        ParamsAt buffer n (off + 4 + 4 + l.toNat) ps' := by
  have hroom : off + 4 + 4 ≤ buffer.length := by
    have := congrArg List.length hl
    simp only [List.length_append, List.length_drop, length_le32] at this
    omega
  rw [paramsAt_succ hw]
  constructor
  · -- the length that is read is the one of the buffer
    rintro ⟨p, ps', rfl, hlen, hfits, htag, hpre⟩
    obtain ⟨x, rfl⟩ : ∃ x, p = .buf t x := by
      have htype := HmParamType.tag_inj htag
      cases p with
      | int32 v' => cases htype
      | buf t' x => cases htype; exact ⟨x, rfl⟩
    rw [WireParam.body, List.append_assoc, hl, le32_append_prefix, append_prefix_iff] at hpre
    obtain ⟨rfl, hx, hpre⟩ := hpre
    have hxlen : (UInt32.ofNat x.length).toNat = x.length := by
      rw [UInt32.toNat_ofNat']
      exact Nat.mod_eq_of_lt hfits.1
    have hfit := congrArg List.length hx
    rw [List.length_take, List.length_drop] at hfit
    rw [List.drop_drop] at hpre
    rw [hxlen, ← hx]
    exact ⟨by omega, ps', rfl, hlen, hfits.2, hpre⟩
  · rintro ⟨hfit, ps', rfl, hlen, hfits, hpre⟩
    have hxlen : ((buffer.drop (off + 4 + 4)).take l.toNat).length = l.toNat := by
      rw [List.length_take, List.length_drop]
      omega
    refine ⟨_, ps', rfl, hlen, ⟨?_, hfits⟩, rfl, ?_⟩
    · rw [WireParam.Fits, hxlen]
      exact l.toNat_lt
    · rw [WireParam.body, List.append_assoc, hl, le32_append_prefix, append_prefix_iff, hxlen,
        List.drop_drop]
      exact ⟨UInt32.ofNat_toNat, rfl, hpre⟩

/-- Parameters take their bytes. -/
theorem ParamsAt.room {n off : ℕ} {ps : List WireParam} (h : ParamsAt buffer (n + 1) off ps) :
    off + 4 + 4 ≤ buffer.length := by
  obtain ⟨hlen, -, hpre⟩ := h
  obtain ⟨p, ps', rfl⟩ := List.exists_cons_of_length_eq_add_one hlen
  have hle := hpre.length_le
  rw [List.flatMap_cons, WireParam.encode, List.length_append, List.length_append,
    List.length_drop, length_le32] at hle
  have hbody : 4 ≤ p.body.length := by
    cases p <;> simp [WireParam.body]
  omega

/-- **What the checking loop decides**: whether there are so many parameters. It reads
nothing outside of the buffer. -/
theorem checkParams_spec (buffer : Bytes) (n off : ℕ) :
    ∃ r, hmParamPackCheckParams buffer n off = some r ∧
      (r = true ↔ ∃ ps, ParamsAt buffer n off ps) := by
  induction n generalizing off with
  | zero => exact ⟨true, rfl, by simp [paramsAt_zero]⟩
  | succ n ih =>
    rw [hmParamPackCheckParams]
    -- there has to be room for a tag
    by_cases h4 : buffer.length < off + 4
    · refine ⟨false, if_pos h4, iff_of_false (by simp) ?_⟩
      rintro ⟨ps, hps⟩
      have := hps.room
      omega
    rw [if_neg h4]
    obtain ⟨w, hload, hw⟩ := load32_spec (not_lt.mp h4)
    simp only [hload, Option.bind_eq_bind, Option.bind_some]
    have hnone : ∀ h8 : buffer.length < off + 4 + 4, ¬∃ ps, ParamsAt buffer (n + 1) off ps := by
      rintro h8 ⟨ps, hps⟩
      exact absurd hps.room (not_le.mpr h8)
    -- the tag says how the parameter goes on
    rcases hty : HmParamType.ofTag w with _ | _ | t
    · refine ⟨false, rfl, iff_of_false (by simp) ?_⟩
      rintro ⟨ps, hps⟩
      obtain ⟨p, -, -, -, -, htag, -⟩ := (paramsAt_succ hw).mp hps
      rw [HmParamType.ofTag_eq_some.mpr htag.symm] at hty
      cases hty
    · obtain rfl := HmParamType.ofTag_eq_some.mp hty
      by_cases h8 : buffer.length < off + 4 + 4
      · exact ⟨false, if_pos h8, iff_of_false (by simp) (hnone h8)⟩
      obtain ⟨v, -, hv⟩ := load32_spec (not_lt.mp h8)
      obtain ⟨r, hr, hiff⟩ := ih (off + 4 + 4)
      refine ⟨r, (if_neg h8).trans hr, hiff.trans ?_⟩
      simp only [paramsAt_int32 hw hv]
      exact ⟨fun ⟨ps, hps⟩ => ⟨_, ps, rfl, hps⟩, fun ⟨_, ps, _, hps⟩ => ⟨ps, hps⟩⟩
    · obtain rfl := HmParamType.ofTag_eq_some.mp hty
      by_cases h8 : buffer.length < off + 4 + 4
      · exact ⟨false, if_pos h8, iff_of_false (by simp) (hnone h8)⟩
      obtain ⟨l, hloadl, hl⟩ := load32_spec (not_lt.mp h8)
      simp only [if_neg h8, hloadl, Option.bind_some, paramsAt_buf hw hl]
      -- a buffer has to fit into what is left
      by_cases hfit : buffer.length < off + 4 + 4 + l.toNat
      · refine ⟨false, if_pos hfit, iff_of_false (by simp) ?_⟩
        rintro ⟨ps, hle, -⟩
        omega
      obtain ⟨r, hr, hiff⟩ := ih (off + 4 + 4 + l.toNat)
      refine ⟨r, (if_neg hfit).trans hr, hiff.trans ?_⟩
      exact ⟨fun ⟨ps, hps⟩ => ⟨_, not_lt.mp hfit, ps, rfl, hps⟩,
        fun ⟨_, _, ps, _, hps⟩ => ⟨ps, hps⟩⟩

/-- **What the building loop builds**, where there are so many parameters: a node for each
of them, although it checks nothing. -/
theorem readParams_spec {n off : ℕ} {ps : List WireParam} (h : ParamsAt buffer n off ps) :
    ∃ nodes, hmParamPackReadParams buffer n off = some nodes ∧
      nodes.map HmParamPackNode.wire = ps ∧ ∀ node ∈ nodes, node.ReadFrom buffer := by
  induction n generalizing off ps with
  | zero =>
    obtain rfl := paramsAt_zero.mp h
    exact ⟨[], rfl, rfl, by simp⟩
  | succ n ih =>
    have h8 := h.room
    have h4 : off + 4 ≤ buffer.length := by omega
    obtain ⟨w, hload, hw⟩ := load32_spec h4
    obtain ⟨p, -, -, -, -, htag, -⟩ := (paramsAt_succ hw).mp h
    have hty := HmParamType.ofTag_eq_some.mpr htag.symm
    simp only [hmParamPackReadParams, hload, Option.bind_eq_bind, Option.bind_some, hty]
    -- the tag that is read is the one of the first parameter
    cases p with
    | int32 v' =>
      subst htag
      obtain ⟨v, hloadv, hv⟩ := load32_spec h8
      obtain ⟨ps', rfl, hps'⟩ := (paramsAt_int32 hw hv).mp h
      obtain ⟨nodes, hread, hwire, hfrom⟩ := ih hps'
      refine ⟨.int32 v.toInt32 4 :: nodes, by simp [WireParam.type, hloadv, hread], ?_, ?_⟩
      · rw [List.map_cons, hwire]
        rfl
      · rintro node (_ | ⟨_, hnode⟩)
        · rfl
        · exact hfrom node hnode
    | buf t b =>
      subst htag
      obtain ⟨l, hloadl, hl⟩ := load32_spec h8
      obtain ⟨hfit, ps', rfl, hps'⟩ := (paramsAt_buf hw hl).mp h
      obtain ⟨nodes, hread, hwire, hfrom⟩ := ih hps'
      refine ⟨.buf t ⟨buffer, off + 4 + 4, l.toNat, hfit⟩ :: nodes, ?_, ?_, ?_⟩
      · simp [WireParam.type, hloadl, hread, hfit]
      · rw [List.map_cons, hwire]
        rfl
      · rintro node (_ | ⟨_, hnode⟩)
        · rfl
        · exact hfrom node hnode

/-- A pack is its count and its parameters. -/
theorem isPack_iff {w : UInt32} {ps : List WireParam} (hw : buffer = le32 w ++ buffer.drop 4) :
    IsPack buffer ps ↔ w.toNat ≤ hmParamPackMaxParams ∧ ParamsAt buffer w.toNat 4 ps := by
  have hpre : le32 (UInt32.ofNat ps.length) ++ ps.flatMap WireParam.encode <+: buffer ↔
      UInt32.ofNat ps.length = w ∧ ps.flatMap WireParam.encode <+: buffer.drop 4 := by
    conv_lhs => rw [hw]
    exact le32_append_prefix
  rw [IsPack, hpre]
  constructor
  · rintro ⟨hle, hfits, rfl, hps⟩
    have hlt : ps.length < 2 ^ 32 := hle.trans_lt (by decide)
    have hcount : (UInt32.ofNat ps.length).toNat = ps.length := by
      rw [UInt32.toNat_ofNat']
      exact Nat.mod_eq_of_lt hlt
    rw [hcount]
    exact ⟨hle, rfl, hfits, hps⟩
  · rintro ⟨hle, hlen, hfits, hps⟩
    rw [hlen]
    exact ⟨hle, hfits, UInt32.ofNat_toNat, hps⟩

/-- A buffer too short for a count has no pack. -/
theorem IsPack.room {ps : List WireParam} (h : IsPack buffer ps) : 4 ≤ buffer.length := by
  have hle := h.2.2.length_le
  rw [List.length_append, length_le32] at hle
  omega

/-- What the decoder gives for the pack of the parameters `ps`. -/
def HmParamPack.Decodes (pack : HmParamPack) (buffer : Bytes) (ps : List WireParam) : Prop :=
  pack.nodes.map HmParamPackNode.wire = ps ∧ (∀ node ∈ pack.nodes, node.ReadFrom buffer) ∧
    pack.wholeData = some buffer

/-- **What the decoder does with any bytes**: it reads none outside of them, and gives a
pack of the parameters they begin with, if there is one. -/
theorem hmParamPackRead_spec (buffer : Bytes) :
    (hmParamPackRead buffer = some none ∧ ∀ ps, ¬IsPack buffer ps) ∨
      ∃ pack ps, hmParamPackRead buffer = some (some pack) ∧ pack.Decodes buffer ps ∧
        ∀ ps', IsPack buffer ps' ↔ ps' = ps := by
  rw [hmParamPackRead, hmParamPackCheckBuf]
  -- there has to be room for the number of parameters
  by_cases h4 : buffer.length < 4
  · refine Or.inl ⟨by simp [h4], fun ps hps => ?_⟩
    have := hps.room
    omega
  have h0 : 0 + 4 ≤ buffer.length := by omega
  obtain ⟨w, hload, hw⟩ := load32_spec h0
  rw [List.drop_zero, Nat.zero_add] at hw
  obtain ⟨r, hcheck, hr⟩ := checkParams_spec buffer w.toNat 4
  simp only [if_neg h4, hload, Option.bind_eq_bind, Option.bind_some, hcheck, isPack_iff hw]
  cases r with
  | false =>
    refine Or.inl ⟨rfl, fun ps hps => ?_⟩
    have hfalse := hr.mpr ⟨ps, hps.2⟩
    cases hfalse
  | true =>
    obtain ⟨ps, hps⟩ := hr.mp rfl
    -- there may be too many of them, however well formed they are
    by_cases hmax : hmParamPackMaxParams < w.toNat
    · exact Or.inl ⟨by simp [hmax], fun ps' hps' => absurd hps'.1 (not_le.mpr hmax)⟩
    obtain ⟨nodes, hread, hwire, hfrom⟩ := readParams_spec hps
    have hlen : nodes.length ≤ hmParamPackMaxParams := by
      have hcount := congrArg List.length hwire
      rw [List.length_map, hps.1] at hcount
      omega
    refine Or.inr ⟨⟨nodes, hlen, some buffer⟩, ps, ?_, ⟨hwire, hfrom, rfl⟩, fun ps' => ?_⟩
    · simp [hmax, hread, hlen]
    · constructor
      · rintro ⟨-, hps'⟩
        obtain ⟨nodes', hread', hwire', -⟩ := readParams_spec hps'
        obtain rfl := Option.some.inj (hread.symm.trans hread')
        exact hwire'.symm.trans hwire
      · rintro rfl
        exact ⟨not_lt.mp hmax, hps⟩

/-- What the decoder gives for the bytes of a pack. -/
theorem hmParamPackRead_of_isPack {ps : List WireParam} (h : IsPack buffer ps) :
    ∃ pack, hmParamPackRead buffer = some (some pack) ∧ pack.Decodes buffer ps := by
  rcases hmParamPackRead_spec buffer with ⟨-, hno⟩ | ⟨pack, ps', hread, hdec, hps⟩
  · exact absurd h (hno ps)
  · obtain rfl := (hps ps).mp h
    exact ⟨pack, hread, hdec⟩

/-- **The decoder is exact and stays in bounds.** For any bytes it comes to a result, without
reading any byte outside of them; the result is a pack exactly if they begin with a count of
at most 20 and so many well-formed parameters; and then the pack has exactly these, in
order, every buffer of it being a window of those bytes. -/
theorem param_pack_read_exact (buffer : Bytes) :
    ∃ r, hmParamPackRead buffer = some r ∧ (r.isSome ↔ ∃ ps, IsPack buffer ps) ∧
      ∀ pack, r = some pack → ∀ ps, IsPack buffer ps →
        pack.nodes.map HmParamPackNode.wire = ps ∧ ∀ node ∈ pack.nodes, node.ReadFrom buffer := by
  rcases hmParamPackRead_spec buffer with ⟨hread, hno⟩ | ⟨pack, ps, hread, hdec, hps⟩
  · refine ⟨none, hread, iff_of_false (by simp) ?_, by simp⟩
    rintro ⟨ps, h⟩
    exact hno ps h
  · refine ⟨some pack, hread, iff_of_true rfl ⟨ps, (hps ps).mpr rfl⟩, ?_⟩
    rintro pack' hpack ps' hps'
    obtain rfl := Option.some.inj hpack
    obtain rfl := (hps ps').mp hps'
    exact ⟨hdec.1, hdec.2.1⟩

end Hermes

import CwdGate.Encode.Reply

namespace CwdGate.Encode
open Lib List

/-- `struct edns_option`; `opt_len` is the length of the data. -/
structure EdnsOption where
  optCode : UInt16
  optData : List UInt8

def EdnsOption.optLen (opt : EdnsOption) : Nat := opt.optData.length

structure EdnsData where
  extRcode : UInt8
  ednsVersion : UInt8
  bits : UInt16
  udpSize : UInt16
  optListOut : List EdnsOption
  optListInplaceCbOut : List EdnsOption
  paddingBlockSize : UInt16
  ednsPresent : Bool

def optionsSize (opts : List EdnsOption) : Nat := (opts.map fun opt => 4 + opt.optLen).sum

/-- `calc_edns_field_size`; a null pointer is `none`. -/
def calcEdnsFieldSize : Option EdnsData → UInt16
  | none => 0
  | some edns =>
    if !edns.ednsPresent then 0
    else (1 + 2 + 2 + 4 + 2 +
      (optionsSize edns.optListInplaceCbOut + optionsSize edns.optListOut)).toUInt16

/-- An option `LDNS_EDNS_EDE` with info code `LDNS_EDE_OTHER`. -/
def EdnsOption.isEdeOther (opt : EdnsOption) : Bool :=
  opt.optCode == 15 && match opt.optData with
    | x :: y :: _ => x == 0 && y == 0
    | _ => false

def edeSizeStep (acc : Nat × UInt16) (opt : EdnsOption) : Nat × UInt16 :=
  if opt.optCode = 15 then
    let txt := if opt.optLen > 2 then acc.2 + (opt.optLen - 2).toUInt16 else acc.2
    (acc.1 + (4 + opt.optLen), if opt.isEdeOther then txt + (4 + 2) else txt)
  else acc

/-- `calc_ede_option_size`: the size of the options, and the size of their texts. -/
def calcEdeOptionSize : Option EdnsData → UInt16 × UInt16
  | none => (0, 0)
  | some edns =>
    if !edns.ednsPresent then (0, 0)
    else
      let r := edns.optListOut.foldl edeSizeStep (edns.optListInplaceCbOut.foldl edeSizeStep (0, 0))
      (r.1.toUInt16, r.2)

/-- The second loop of `ede_trim_text`. -/
def edeTrimTextLoop : List EdnsOption → List EdnsOption
  | [] => []
  | curr :: rest =>
    if curr.optCode = 15 then
      if curr.isEdeOther then edeTrimTextLoop rest
      else if curr.optLen > 2 then
        { curr with optData := curr.optData.take 2 } :: edeTrimTextLoop rest
      else curr :: edeTrimTextLoop rest
    else curr :: edeTrimTextLoop rest

def edeTrimText (list : List EdnsOption) : List EdnsOption :=
  edeTrimTextLoop (list.dropWhile EdnsOption.isEdeOther)

def ednsOptListRemove (list : List EdnsOption) (code : UInt16) : List EdnsOption :=
  match list.dropWhile fun opt => opt.optCode == code with
  | [] => []
  | prev :: rest => prev :: rest.filter fun opt => opt.optCode != code

/-- The option loops of `attach_edns_record_max_msg_sz`, with whether a padding option was met. -/
def writeOptions : List EdnsOption → Sbuffer × Bool → Sbuffer × Bool
  | [], r => r
  | opt :: opts, (pkt, padding) =>
    if opt.optCode = 12 then writeOptions opts (pkt, true)
    else writeOptions opts
      (pkt.write (u16Bytes opt.optCode.toNat ++ u16Bytes opt.optLen ++ opt.optData), padding)

def writePadding (pkt : Sbuffer) (blockSize maxMsgSz : Nat) : Sbuffer :=
  let padPos := pkt.position
  let msgSz := min (((padPos + 3) / blockSize + 1) * blockSize) maxMsgSz
  let padSz := sizeSub (sizeSub msgSz padPos) 4
  pkt.write (u16Bytes 12 ++ u16Bytes padSz ++ List.replicate padSz 0)

def optHead (edns : EdnsData) : List UInt8 :=
  0 :: u16Bytes 41 ++ u16Bytes edns.udpSize.toNat ++ [edns.extRcode, edns.ednsVersion] ++
    u16Bytes edns.bits.toNat

def attachEdnsRecordMaxMsgSz (pkt : Sbuffer) (edns : EdnsData) (maxMsgSz : Nat) : Sbuffer :=
  let pkt := pkt.writeAt 10 (u16Bytes (readU16 pkt.data 10 + 1))
  let len := pkt.limit
  let pkt := (pkt.clear.setPosition len).write (optHead edns)
  let rdatapos := pkt.position
  let r := writeOptions edns.optListOut
    (writeOptions edns.optListInplaceCbOut (pkt.write (u16Bytes 0), false))
  let pkt := if r.2 ∧ edns.paddingBlockSize ≠ 0 then
      writePadding r.1 edns.paddingBlockSize.toNat maxMsgSz
    else r.1
  (pkt.writeAt rdatapos (u16Bytes (pkt.position - rdatapos - 2))).flip

def answerFlags (qinf : QueryInfo) (rep : ReplyInfo) (qflags : UInt16)
    (cached dnssec secure : Bool) : UInt16 :=
  let flags := if !cached || rep.authoritative then rep.flags ||| (qflags &&& (0x0100 ||| 0x0010))
    else (rep.flags &&& ~~~0x0400) ||| (qflags &&& (0x0100 ||| 0x0010))
  let flags := if secure && (dnssec || qflags &&& 0x0020 != 0) then flags ||| 0x0020 else flags
  if qinf.localAlias.isSome ∧ (flagsGetRcode rep.flags = 0 ∨ flagsGetRcode rep.flags = 3) then
    (flags ||| 0x0400) &&& ~~~0x0020
  else flags

/-- The octets that `reply_info_answer_encode` reserves for the OPT record; 0 leaves it out. -/
def attachEdns (edns : Option EdnsData) (udpsize : UInt16) : UInt32 :=
  let ednsFieldSize := calcEdnsFieldSize edns
  let edeSize := (calcEdeOptionSize edns).1
  if !(edns.any (·.ednsPresent)) then 0
  else if (udpsize.toNat : Int) < 12 + ednsFieldSize.toNat - edeSize.toNat then 0
  else ednsFieldSize.toUInt32 - edeSize.toUInt32

/-- The end of `reply_info_answer_encode`: the OPT record with the EDE options that fit. -/
def addEdns (edns : EdnsData) (udpsize : UInt16) (pkt : Sbuffer) : Sbuffer :=
  let ednsFieldSize := (calcEdnsFieldSize (some edns)).toNat
  let edeSize := (calcEdeOptionSize (some edns)).1.toNat
  let edeTxtSize := (calcEdeOptionSize (some edns)).2.toNat
  if udpsize.toNat ≥ pkt.limit + ednsFieldSize then
    attachEdnsRecordMaxMsgSz pkt edns udpsize.toNat
  else if udpsize.toNat ≥ sizeSub (pkt.limit + ednsFieldSize) edeTxtSize then
    attachEdnsRecordMaxMsgSz pkt
      { edns with optListInplaceCbOut := edeTrimText edns.optListInplaceCbOut,
                  optListOut := edeTrimText edns.optListOut } udpsize.toNat
  else if udpsize.toNat ≥ sizeSub (pkt.limit + ednsFieldSize) edeSize then
    attachEdnsRecordMaxMsgSz pkt
      { edns with optListInplaceCbOut := ednsOptListRemove edns.optListInplaceCbOut 15,
                  optListOut := ednsOptListRemove edns.optListOut 15 } udpsize.toNat
  else pkt

def answerSize (pkt : Sbuffer) (udpsize : UInt16) : UInt16 :=
  if pkt.capacity < udpsize.toNat then pkt.capacity.toUInt16 else udpsize

def replyInfoAnswerEncode (cfg : EncodeConfig) (qinf : QueryInfo) (rep : ReplyInfo)
    (id qflags : UInt16) (pkt : Sbuffer) (timenow : Int) (cached : Bool) (region : Nat → Bool)
    (udpsize : UInt16) (edns : Option EdnsData) (dnssec secure : Bool) : Bool × Sbuffer :=
  let flags := answerFlags qinf rep qflags cached dnssec secure
  if udpsize < 12 then (false, pkt)
  else
    let udpsize := answerSize pkt udpsize
    let attach := attachEdns edns udpsize
    let r := replyInfoEncode cfg qinf rep id flags pkt timenow region
      (udpsize.toUInt32 - attach).toUInt16 dnssec cfg.minimalResponses
    if !r.1 then (false, r.2.pkt)
    else
      match edns with
      | some edns => if attach ≠ 0 then (true, addEdns edns udpsize r.2.pkt) else (true, r.2.pkt)
      | none => (true, r.2.pkt)

/-- The octets of an option that go away with the EDE options. -/
def EdnsOption.edeSize (opt : EdnsOption) : Nat := if opt.optCode = 15 then 4 + opt.optLen else 0

/-- The octets of an option that go away with the texts of the EDE options. -/
def EdnsOption.edeTxtSize (opt : EdnsOption) : Nat :=
  if opt.isEdeOther then 4 + opt.optLen else if opt.optCode = 15 then opt.optLen - 2 else 0

/-- What `ede_trim_text` makes of an option that it keeps. -/
def EdnsOption.trimmed (opt : EdnsOption) : EdnsOption :=
  if opt.optCode = 15 then { opt with optData := opt.optData.take 2 } else opt

section sizes
variable {opt : EdnsOption} {opts : List EdnsOption}

theorem EdnsOption.isEdeOther_iff (h : opt.isEdeOther = true) :
    opt.optCode = 15 ∧ 2 ≤ opt.optLen := by
  unfold EdnsOption.isEdeOther at h
  rw [Bool.and_eq_true, beq_iff_eq] at h
  refine ⟨h.1, ?_⟩
  have h2 := h.2
  split at h2
  · rename_i x y rest hd
    rw [optLen, hd]
    simp
  · cases h2

theorem EdnsOption.edeTxtSize_le : opt.edeTxtSize ≤ opt.edeSize := by
  unfold edeTxtSize edeSize
  split
  · rename_i h
    rw [if_pos (isEdeOther_iff h).1]
  · split <;> omega

theorem edeSizeStep_eq : edeSizeStep acc opt =
    (acc.1 + opt.edeSize, acc.2 + opt.edeTxtSize.toUInt16) := by
  unfold edeSizeStep EdnsOption.edeTxtSize EdnsOption.edeSize
  by_cases ho : opt.isEdeOther = true
  · obtain ⟨hc, hl⟩ := EdnsOption.isEdeOther_iff ho
    simp only [hc, ho, ↓reduceIte, Prod.mk.injEq, true_and]
    split
    · rw [UInt16.add_assoc]
      congr 1
      rw [show 4 + opt.optLen = opt.optLen - 2 + 6 by omega]
      simp
    · rw [show 4 + opt.optLen = 6 by omega]
      rfl
  · by_cases hc : opt.optCode = 15
    · simp only [hc, ho, ↓reduceIte, Bool.false_eq_true]
      split
      · rfl
      · rw [Nat.sub_eq_zero_of_le (by omega)]
        simp
    · simp [hc, ho]

theorem foldl_edeSizeStep : opts.foldl edeSizeStep acc =
    (acc.1 + (opts.map EdnsOption.edeSize).sum,
      acc.2 + (opts.map EdnsOption.edeTxtSize).sum.toUInt16) := by
  induction opts generalizing acc with
  | nil => simp
  | cons opt opts ih =>
    rw [foldl_cons, ih, edeSizeStep_eq]
    simp [Nat.add_assoc, UInt16.add_assoc]

theorem optionsSize_cons : optionsSize (opt :: opts) = 4 + opt.optLen + optionsSize opts := by
  rw [optionsSize, map_cons, sum_cons, optionsSize]

theorem edeTrimTextLoop_dropWhile :
    edeTrimTextLoop (opts.dropWhile EdnsOption.isEdeOther) = edeTrimTextLoop opts := by
  induction opts with
  | nil => rfl
  | cons opt opts ih =>
    rw [dropWhile_cons]
    split
    · rename_i ho
      rw [ih]
      conv => rhs; unfold edeTrimTextLoop
      rw [if_pos (EdnsOption.isEdeOther_iff ho).1, if_pos ho]
    · rfl

theorem edeTrimText_eq :
    edeTrimText opts = (opts.filter fun opt => !opt.isEdeOther).map EdnsOption.trimmed := by
  rw [edeTrimText, edeTrimTextLoop_dropWhile]
  induction opts with
  | nil => rfl
  | cons opt opts ih =>
    rw [edeTrimTextLoop]
    by_cases ho : opt.isEdeOther = true
    · rw [if_pos (EdnsOption.isEdeOther_iff ho).1, if_pos ho, ih, filter_cons_of_neg (by simp [ho])]
    · rw [filter_cons_of_pos (by simp [ho]), map_cons, ← ih, if_neg ho, EdnsOption.trimmed]
      by_cases hc : opt.optCode = 15
      · rw [if_pos hc, if_pos hc]
        split
        · rfl
        case isFalse hlen => rw [take_of_length_le (Nat.not_lt.1 hlen)]
      · rw [if_neg hc, if_neg hc]

theorem EdnsOption.isEdeOther_trimmed : opt.trimmed.isEdeOther = opt.isEdeOther := by
  obtain ⟨code, data⟩ := opt
  rw [trimmed]
  split
  · match data with
    | [] | [_] | _ :: _ :: _ => rfl
  · rfl

theorem EdnsOption.optLen_trimmed (ho : ¬ opt.isEdeOther = true) :
    opt.trimmed.optLen + opt.edeTxtSize = opt.optLen := by
  rw [edeTxtSize, if_neg ho, trimmed]
  split
  · rw [optLen, optLen, length_take]
    omega
  · rfl

theorem EdnsOption.edeTxtSize_trimmed (ho : ¬ opt.isEdeOther = true) :
    opt.trimmed.edeTxtSize = 0 := by
  rw [edeTxtSize, isEdeOther_trimmed, if_neg ho, trimmed]
  split
  · rw [optLen, length_take]
    omega
  · rfl

theorem optionsSize_edeTrimText (opts : List EdnsOption) :
    optionsSize (edeTrimText opts) + (opts.map EdnsOption.edeTxtSize).sum = optionsSize opts := by
  rw [edeTrimText_eq]
  induction opts with
  | nil => rfl
  | cons opt opts ih =>
    rw [map_cons, sum_cons, optionsSize_cons]
    by_cases ho : opt.isEdeOther = true
    · rw [filter_cons_of_neg (by simp [ho]), EdnsOption.edeTxtSize, if_pos ho]
      omega
    · have hlen := EdnsOption.optLen_trimmed ho
      rw [filter_cons_of_pos (by simp [ho]), map_cons, optionsSize_cons]
      omega

theorem sum_edeTxtSize_edeTrimText :
    ((edeTrimText opts).map EdnsOption.edeTxtSize).sum = 0 := by
  rw [edeTrimText_eq]
  induction opts with
  | nil => rfl
  | cons opt opts ih =>
    by_cases ho : opt.isEdeOther = true
    · rw [filter_cons_of_neg (by simp [ho]), ih]
    · rw [filter_cons_of_pos (by simp [ho]), map_cons, map_cons, sum_cons, ih,
        EdnsOption.edeTxtSize_trimmed ho]

/-- Trimming takes the texts off the EDE options and drops those with code `LDNS_EDE_OTHER`, by the
size that was reported. -/
theorem edeTrimText_sizes (edns : EdnsData) :
    let trimmed : EdnsData := { edns with
      optListInplaceCbOut := edeTrimText edns.optListInplaceCbOut
      optListOut := edeTrimText edns.optListOut }
    calcEdnsFieldSize (some trimmed) =
      calcEdnsFieldSize (some edns) - (calcEdeOptionSize (some edns)).2 ∧
    (calcEdeOptionSize (some trimmed)).2 = 0 ∧
    ∀ opts, edeTrimText opts = (opts.filter fun opt => !opt.isEdeOther).map EdnsOption.trimmed := by
  have hin := optionsSize_edeTrimText edns.optListInplaceCbOut
  have hout := optionsSize_edeTrimText edns.optListOut
  refine ⟨?_, ?_, fun _ => edeTrimText_eq⟩
  · simp only [calcEdnsFieldSize, calcEdeOptionSize, foldl_edeSizeStep]
    split
    · rfl
    · simp only [← hin, ← hout, Nat.toUInt16_eq, UInt16.ofNat_add]
      grind
  · simp only [calcEdeOptionSize, foldl_edeSizeStep, sum_edeTxtSize_edeTrimText]
    split <;> rfl

theorem ednsOptListRemove_eq :
    ednsOptListRemove opts code = opts.filter fun opt => opt.optCode != code := by
  induction opts with
  | nil => rfl
  | cons opt opts ih =>
    unfold ednsOptListRemove at ih ⊢
    by_cases hc : opt.optCode = code
    · rw [dropWhile_cons_of_pos (by simpa using hc), ih, filter_cons_of_neg (by simpa using hc)]
    · rw [dropWhile_cons_of_neg (by simpa using hc), filter_cons_of_pos (by simpa using hc)]

theorem optionsSize_ednsOptListRemove (opts : List EdnsOption) :
    optionsSize (ednsOptListRemove opts 15) + (opts.map EdnsOption.edeSize).sum =
      optionsSize opts := by
  rw [ednsOptListRemove_eq]
  induction opts with
  | nil => rfl
  | cons opt opts ih =>
    rw [map_cons, sum_cons, optionsSize_cons, EdnsOption.edeSize]
    by_cases hc : opt.optCode = 15
    · rw [filter_cons_of_neg (by simp [hc]), if_pos hc]
      omega
    · rw [filter_cons_of_pos (by simpa using hc), if_neg hc, optionsSize_cons]
      omega

theorem sum_edeTxtSize_le :
    (opts.map EdnsOption.edeTxtSize).sum ≤ (opts.map EdnsOption.edeSize).sum := by
  induction opts with
  | nil => exact le_rfl
  | cons opt opts ih =>
    exact Nat.add_le_add EdnsOption.edeTxtSize_le ih

end sizes

/-- `c` is `b` with more written behind its position. -/
structure Extends (b c : Sbuffer) : Prop where
  capacity : c.capacity = b.capacity
  position : b.position ≤ c.position
  grown : b.high ≤ c.high
  high : c.high ≤ max b.high c.position

section attach
variable {b pkt : Sbuffer} {edns : EdnsData} {maxMsgSz : Nat}

theorem Extends.refl (b : Sbuffer) : Extends b b :=
  ⟨rfl, le_rfl, le_rfl, Nat.le_max_left _ _⟩

theorem Extends.trans (h : Extends b c) (h' : Extends c d) : Extends b d := by
  obtain ⟨h1, h2, h3, h4⟩ := h
  obtain ⟨h1', h2', h3', h4'⟩ := h'
  exact ⟨h1'.trans h1, h2.trans h2', h3.trans h3', by omega⟩

theorem Extends.write (b : Sbuffer) (bytes : List UInt8) : Extends b (b.write bytes) := by
  constructor <;> simp only [Sbuffer.write, Sbuffer.writeAt]
  · omega
  · split <;> omega
  · split <;> omega

theorem writeOptions_extends :
    Extends r.1 (writeOptions opts r).1 ∧
      (writeOptions opts r).1.position + (if (writeOptions opts r).2 then 4 else 0) ≤
        r.1.position + optionsSize opts + if r.2 then 4 else 0 := by
  induction opts generalizing r with
  | nil => exact ⟨Extends.refl _, le_rfl⟩
  | cons opt opts ih =>
    obtain ⟨pkt, padding⟩ := r
    rw [writeOptions, optionsSize_cons]
    split
    · obtain ⟨h1, h2⟩ := ih (r := (pkt, true))
      refine ⟨h1, h2.trans ?_⟩
      simp only [↓reduceIte]
      omega
    · have hw := Extends.write pkt (u16Bytes opt.optCode.toNat ++ u16Bytes opt.optLen ++ opt.optData)
      obtain ⟨h1, h2⟩ := ih (r := (pkt.write (u16Bytes opt.optCode.toNat ++ u16Bytes opt.optLen ++
        opt.optData), padding))
      refine ⟨hw.trans h1, h2.trans ?_⟩
      simp only [Sbuffer.position_write, length_append, length_u16Bytes]
      unfold EdnsOption.optLen
      omega

theorem writePadding_extends (hb : 0 < blockSize) (hmax : maxMsgSz < 65536)
    (h : b.position + 4 ≤ maxMsgSz) :
    Extends b (writePadding b blockSize maxMsgSz) ∧
      (writePadding b blockSize maxMsgSz).position ≤ maxMsgSz := by
  refine ⟨Extends.write _ _, ?_⟩
  have hblock : b.position + 4 ≤ ((b.position + 3) / blockSize + 1) * blockSize := by
    have := Nat.lt_mul_of_div_lt (Nat.lt_add_one ((b.position + 3) / blockSize)) hb
    omega
  simp only [writePadding, Sbuffer.position_write, length_append, length_u16Bytes,
    length_replicate, sizeSub]
  omega

theorem attach_bounds (pkt : Sbuffer) (edns : EdnsData) (hhigh : 12 ≤ pkt.high) (hmax : maxMsgSz < 65536)
    (h : pkt.limit + (11 + (optionsSize edns.optListInplaceCbOut + optionsSize edns.optListOut)) ≤
      maxMsgSz) :
    (attachEdnsRecordMaxMsgSz pkt edns maxMsgSz).limit ≤ maxMsgSz ∧
      (attachEdnsRecordMaxMsgSz pkt edns maxMsgSz).high ≤ max pkt.high maxMsgSz ∧
      pkt.high ≤ (attachEdnsRecordMaxMsgSz pkt edns maxMsgSz).high := by
  unfold attachEdnsRecordMaxMsgSz
  extract_lets pkt1 len pkt2 rdatapos r pkt3
  have h1 : pkt.high ≤ pkt1.high ∧ pkt1.high ≤ max pkt.high 12 := by
    simp only [pkt1, Sbuffer.writeAt, u16Bytes, reduceCtorEq, ↓reduceIte, length_cons, length_nil]
    omega
  have h2 : Extends (pkt1.clear.setPosition len) pkt2 := Extends.write _ _
  have hpos2 : pkt2.position = pkt.limit + 9 := by
    rfl
  have h3 := Extends.write pkt2 (u16Bytes 0)
  obtain ⟨h4, hp4⟩ := writeOptions_extends (r := (pkt2.write (u16Bytes 0), false))
  obtain ⟨h5, hp5⟩ := writeOptions_extends
    (r := writeOptions edns.optListInplaceCbOut (pkt2.write (u16Bytes 0), false))
  have hr : Extends pkt2 r.1 := (h3.trans h4).trans h5
  have hpr : r.1.position + (if r.2 then 4 else 0) ≤ maxMsgSz := by
    simp only [Sbuffer.position_write, length_u16Bytes, Bool.false_eq_true, ↓reduceIte] at hp4
    refine hp5.trans ?_
    omega
  have h6 : Extends pkt2 pkt3 ∧ pkt3.position ≤ maxMsgSz := by
    simp only [pkt3]
    split
    · rename_i hpad
      rw [if_pos hpad.1] at hpr
      obtain ⟨hw, hle⟩ := writePadding_extends (b := r.1)
        (Nat.pos_of_ne_zero fun h0 =>
          hpad.2 (UInt16.toNat_inj.1 h0)) hmax hpr
      exact ⟨hr.trans hw, hle⟩
    · exact ⟨hr, by omega⟩
  obtain ⟨h6, hle⟩ := h6
  have h7 := (h2.trans h6).high
  have h8 := (h2.trans h6).grown
  have hclear : (pkt1.clear.setPosition len).high = pkt1.high := rfl
  simp only [Sbuffer.flip, Sbuffer.writeAt, u16Bytes, reduceCtorEq, ↓reduceIte, length_cons,
    length_nil]
  refine ⟨hle, ?_, ?_⟩
  · omega
  · omega

def EdnsData.size (edns : EdnsData) : Nat :=
  11 + (optionsSize edns.optListInplaceCbOut + optionsSize edns.optListOut)

def EdnsData.edeSize (edns : EdnsData) : Nat :=
  (edns.optListInplaceCbOut.map EdnsOption.edeSize).sum +
    (edns.optListOut.map EdnsOption.edeSize).sum

def EdnsData.edeTxtSize (edns : EdnsData) : Nat :=
  (edns.optListInplaceCbOut.map EdnsOption.edeTxtSize).sum +
    (edns.optListOut.map EdnsOption.edeTxtSize).sum

theorem EdnsData.edeTxtSize_le : edns.edeTxtSize ≤ edns.edeSize :=
  Nat.add_le_add sum_edeTxtSize_le sum_edeTxtSize_le

theorem EdnsData.edeSize_le : edns.edeSize + 11 ≤ edns.size := by
  have h1 := optionsSize_ednsOptListRemove edns.optListInplaceCbOut
  have h2 := optionsSize_ednsOptListRemove edns.optListOut
  unfold EdnsData.edeSize EdnsData.size
  omega

theorem toNat_toUInt16_of_lt (h : n < 65536) : n.toUInt16.toNat = n := by
  exact Nat.mod_eq_of_lt h

theorem calcEdnsFieldSize_eq (hp : edns.ednsPresent = true) (hs : edns.size < 65536) :
    (calcEdnsFieldSize (some edns)).toNat = edns.size := by
  unfold calcEdnsFieldSize
  simp only [hp, Bool.not_true, Bool.false_eq_true, ↓reduceIte]
  exact toNat_toUInt16_of_lt hs

theorem calcEdeOptionSize_eq (hp : edns.ednsPresent = true) (hs : edns.size < 65536) :
    (calcEdeOptionSize (some edns)).1.toNat = edns.edeSize ∧
      (calcEdeOptionSize (some edns)).2.toNat = edns.edeTxtSize := by
  have h1 := edns.edeSize_le
  have h2 := edns.edeTxtSize_le
  unfold calcEdeOptionSize
  simp only [hp, Bool.not_true, Bool.false_eq_true, ↓reduceIte, foldl_edeSizeStep, Nat.zero_add]
  constructor
  · exact toNat_toUInt16_of_lt (n := edns.edeSize) (by omega)
  · rw [UInt16.zero_add, show (edns.optListInplaceCbOut.map EdnsOption.edeTxtSize).sum.toUInt16 +
      (edns.optListOut.map EdnsOption.edeTxtSize).sum.toUInt16 = edns.edeTxtSize.toUInt16 by
        simp [EdnsData.edeTxtSize]]
    exact toNat_toUInt16_of_lt (by omega)

theorem addEdns_bounds (pkt : Sbuffer) (udpsize : UInt16) (hp : edns.ednsPresent = true)
    (hs : edns.size < 65536) (hhigh : 12 ≤ pkt.high) (hmax : pkt.limit < 65536) :
    (addEdns edns udpsize pkt).limit ≤ max pkt.limit udpsize.toNat ∧
      (addEdns edns udpsize pkt).high ≤ max pkt.high udpsize.toNat ∧
      pkt.high ≤ (addEdns edns udpsize pkt).high := by
  have hudp := udpsize.toNat_lt
  have h1 := edns.edeSize_le
  have h2 := edns.edeTxtSize_le
  obtain ⟨he, ht⟩ := calcEdeOptionSize_eq hp hs
  unfold addEdns
  simp only [calcEdnsFieldSize_eq hp hs, he, ht]
  split
  · have hb := attach_bounds pkt edns hhigh hudp ‹_›
    omega
  split
  · rename_i h
    have hi := optionsSize_edeTrimText edns.optListInplaceCbOut
    have ho := optionsSize_edeTrimText edns.optListOut
    have hb := attach_bounds pkt { edns with
      optListInplaceCbOut := edeTrimText edns.optListInplaceCbOut,
      optListOut := edeTrimText edns.optListOut } hhigh hudp (by
        simp only [sizeSub, EdnsData.size, EdnsData.edeTxtSize] at h h1 h2 hs ⊢
        omega)
    omega
  split
  · rename_i h
    have hi := optionsSize_ednsOptListRemove edns.optListInplaceCbOut
    have ho := optionsSize_ednsOptListRemove edns.optListOut
    have hb := attach_bounds pkt { edns with
      optListInplaceCbOut := ednsOptListRemove edns.optListInplaceCbOut 15,
      optListOut := ednsOptListRemove edns.optListOut 15 } hhigh hudp (by
        simp only [sizeSub, EdnsData.size, EdnsData.edeSize] at h h1 hs ⊢
        omega)
    omega
  · exact ⟨Nat.le_max_left _ _, Nat.le_max_left _ _, le_rfl⟩

end attach

/-- What is reserved in `size` octets: the OPT record but its EDE options, or nothing if that is too
long. -/
def ednsReserve (edns : Option EdnsData) (size : Nat) : Nat :=
  match edns with
  | none => 0
  | some edns =>
    if edns.ednsPresent ∧ 12 + (edns.size - edns.edeSize) ≤ size then edns.size - edns.edeSize else 0

/-- The name of a local alias is not written, or the question with it fits into the message. -/
def AliasFits (qinf : QueryInfo) (rep : ReplyInfo) (edns : Option EdnsData) (size : Nat) : Prop :=
  ∀ rrset, qinf.localAlias = some rrset → rep.qdcount = 0 ∨
    size < ednsReserve edns size + (wireLen qinf.qname + 16) ∨ wireLen rrset.dname + 16 ≤ size

section answer
variable {cfg : EncodeConfig} {qinf : QueryInfo} {rep : ReplyInfo} {id qflags udpsize : UInt16}
  {pkt : Sbuffer} {timenow : Int} {cached dnssec secure : Bool} {edns : Option EdnsData}

theorem attachEdns_eq (udpsize : UInt16) (hs : ∀ e, edns = some e → e.size < 65536) :
    (attachEdns edns udpsize).toNat = ednsReserve edns udpsize.toNat := by
  unfold attachEdns ednsReserve
  cases edns with
  | none => rfl
  | some e =>
    have hsize := hs e rfl
    by_cases hp : e.ednsPresent = true
    · obtain ⟨he, -⟩ := calcEdeOptionSize_eq hp hsize
      have hle := e.edeSize_le
      have hf := calcEdnsFieldSize_eq hp hsize
      simp only [Option.any_some, hp, Bool.not_true, Bool.false_eq_true, ↓reduceIte, he, hf,
        true_and]
      by_cases hfit : 12 + (e.size - e.edeSize) ≤ udpsize.toNat
      · rw [if_neg (by omega), if_pos hfit, UInt32.toNat_sub_of_le]
        · rw [UInt16.toNat_toUInt32, UInt16.toNat_toUInt32, hf, he]
        · rw [UInt32.le_iff_toNat_le, UInt16.toNat_toUInt32, UInt16.toNat_toUInt32, hf, he]
          omega
      · rw [if_pos (by omega), if_neg hfit]
        rfl
    · simp [hp]

theorem ednsReserve_le (h : ednsReserve edns size ≠ 0) : 12 + ednsReserve edns size ≤ size := by
  unfold ednsReserve at *
  split at h
  · exact absurd rfl h
  · split at h
    · rename_i hc
      rw [if_pos hc]
      exact hc.2
    · exact absurd rfl h

theorem replyLimit_eq (udpsize : UInt16) (hs : ∀ e, edns = some e → e.size < 65536) :
    (udpsize.toUInt32 - attachEdns edns udpsize).toUInt16.toNat =
      udpsize.toNat - ednsReserve edns udpsize.toNat := by
  have ha := attachEdns_eq udpsize hs
  have hle : ednsReserve edns udpsize.toNat ≤ udpsize.toNat := by
    by_cases h : ednsReserve edns udpsize.toNat = 0
    · omega
    · have := ednsReserve_le h
      omega
  have hlt := udpsize.toNat_lt
  rw [UInt32.toNat_toUInt16, UInt32.toNat_sub_of_le, UInt16.toNat_toUInt32, ha]
  · exact Nat.mod_eq_of_lt (by omega)
  · rw [UInt32.le_iff_toNat_le, UInt16.toNat_toUInt32, ha]
    exact hle

theorem answerSize_eq : (answerSize pkt udpsize).toNat = min udpsize.toNat pkt.capacity := by
  have hlt := udpsize.toNat_lt
  unfold answerSize
  split
  · rw [toNat_toUInt16_of_lt (by omega)]
    omega
  · omega

theorem answer_question_bound (hl : limit = size - reserve)
    (hfit : ∀ rrset, qinf.localAlias = some rrset → rep.qdcount = 0 ∨
      size < reserve + (wireLen qinf.qname + 16) ∨ wireLen rrset.dname + 16 ≤ size)
    (hqd : rep.qdcount ≠ 0) (hq : wireLen qinf.qname + 16 ≤ limit) :
    wireLen (questionName qinf) + 16 ≤ size := by
  unfold questionName
  split
  · rename_i rrset hr
    rcases hfit rrset hr with h | h | h
    · exact absurd h hqd
    · omega
    · exact h
  · omega

def answerReply (cfg : EncodeConfig) (qinf : QueryInfo) (rep : ReplyInfo) (id qflags : UInt16)
    (pkt : Sbuffer) (timenow : Int) (cached : Bool) (region : Nat → Bool) (udpsize : UInt16)
    (edns : Option EdnsData) (dnssec secure : Bool) : Bool × EncState :=
  replyInfoEncode cfg qinf rep id (answerFlags qinf rep qflags cached dnssec secure) pkt timenow
    region ((answerSize pkt udpsize).toUInt32 - attachEdns edns (answerSize pkt udpsize)).toUInt16
    dnssec cfg.minimalResponses

theorem replyInfoAnswerEncode_ok
    (h : replyInfoAnswerEncode cfg qinf rep id qflags pkt timenow cached region udpsize edns
      dnssec secure = (true, out)) :
    ∃ t, answerReply cfg qinf rep id qflags pkt timenow cached region udpsize edns dnssec secure =
        (true, t) ∧ (out = t.pkt ∨ ∃ e, edns = some e ∧ e.ednsPresent = true ∧
        out = addEdns e (answerSize pkt udpsize) t.pkt) := by
  unfold replyInfoAnswerEncode at h
  dsimp only at h
  split at h
  · cases h
  split at h
  · cases h
  rename_i hr
  refine ⟨_, Prod.ext (eq_true_of_ne_false fun hf => hr (congrArg not hf)) rfl, ?_⟩
  split at h
  · rename_i e
    split at h
    · rename_i ha
      refine .inr ⟨e, rfl, ?_, (Prod.ext_iff.1 h).2.symm⟩
      by_contra hp
      simp [attachEdns, hp] at ha
    · exact .inl (Prod.ext_iff.1 h).2.symm
  · exact .inl (Prod.ext_iff.1 h).2.symm

theorem replyInfoAnswerEncode_true (hu : ¬udpsize < 12)
    (ht : answerReply cfg qinf rep id qflags pkt timenow cached region udpsize edns dnssec secure =
      (true, t)) :
    ∃ out, replyInfoAnswerEncode cfg qinf rep id qflags pkt timenow cached region udpsize edns
      dnssec secure = (true, out) := by
  unfold answerReply at ht
  unfold replyInfoAnswerEncode
  dsimp only
  rw [if_neg hu, ht]
  simp only [Bool.not_true, Bool.false_eq_true, ↓reduceIte]
  split
  · split
    · exact ⟨_, rfl⟩
    · exact ⟨_, rfl⟩
  · exact ⟨_, rfl⟩

/-- The size limit of an answer is kept exactly when the name of the local alias fits. -/
theorem answer_within_iff_aliasFits (hhigh : pkt.high = 0)
    (hs : ∀ e, edns = some e → e.size < 65536) :
    (∀ region out, replyInfoAnswerEncode cfg qinf rep id qflags pkt timenow cached region udpsize
        edns dnssec secure = (true, out) →
      out.limit ≤ udpsize.toNat ∧ out.high ≤ min udpsize.toNat pkt.capacity) ↔
      AliasFits qinf rep edns (min udpsize.toNat pkt.capacity) := by
  have hlimit := replyLimit_eq (answerSize pkt udpsize) hs
  rw [answerSize_eq] at hlimit
  constructor
  · intro h rrset hr
    by_contra hno
    simp only [not_or, Nat.not_lt, Nat.not_le] at hno
    obtain ⟨hqd, hq, hlong⟩ := hno
    have hname : questionName qinf = rrset.dname := by
      unfold questionName
      rw [hr]
    obtain ⟨t, ht, hhi⟩ := @replyInfoEncode_question cfg qinf rep id
      (answerFlags qinf rep qflags cached dnssec secure) _ pkt timenow (fun _ => true) dnssec
      cfg.minimalResponses (fun _ => rfl) hqd (show wireLen qinf.qname + 16 ≤ min
        (((answerSize pkt udpsize).toUInt32 - attachEdns edns (answerSize pkt udpsize)).toUInt16).toNat
        pkt.capacity by rw [hlimit]; omega)
    rw [hname] at hhi
    obtain ⟨out, hout⟩ := replyInfoAnswerEncode_true (by
      rw [UInt16.lt_iff_toNat_lt]
      have : (12 : UInt16).toNat = 12 := rfl
      omega) ht
    obtain ⟨t', ht', hcase⟩ := replyInfoAnswerEncode_ok hout
    cases ht.symm.trans ht'
    have hmax := replyInfoEncode_length ht
    have hgrown : t.pkt.high ≤ out.high := by
      rcases hcase with rfl | ⟨e, he, hp, rfl⟩
      · exact le_rfl
      · exact (addEdns_bounds _ _ hp (hs e he) (by omega) hmax).2.2
    have := (h _ out hout).2
    omega
  · intro hfit region out h
    obtain ⟨t, ht, hout⟩ := replyInfoAnswerEncode_ok h
    obtain ⟨b, v, rfl, hw, hl, h12, -, hbh, hpos⟩ := replyInfoEncode_within ht
    have hbp : b.pkt.position ≤ min udpsize.toNat pkt.capacity := by
      rcases hpos with hpos | ⟨hqd, hq, hpos⟩
      · omega
      · rw [hpos]
        exact answer_question_bound (by omega) hfit hqd hq
    have h1 := hw.position
    have h2 := hw.high
    have h3 := hw.grown
    have hudp := udpsize.toNat_lt
    have hlim : (flipPkt v).pkt.limit = v.pkt.position := rfl
    have hhi : (flipPkt v).pkt.high = v.pkt.high := rfl
    rcases hout with rfl | ⟨e, he, hp, rfl⟩
    · omega
    · have h4 := addEdns_bounds (flipPkt v).pkt (answerSize pkt udpsize) hp
        (hs e he) (by omega) (by omega)
      rw [answerSize_eq] at h4
      omega

end answer

def sampleAliasQuery : QueryInfo := ⟨[[97]], 5, 1, some sampleRrset, false, by decide⟩

def sampleEdns : EdnsData :=
  ⟨0, 0, 0, 1232, [⟨15, [0, 0, 120, 121]⟩, ⟨12, []⟩], [], 128, true⟩

theorem answer_within_sample :
    ∃ out, replyInfoAnswerEncode sampleConfig sampleAliasQuery sampleReply 7 0x0100
        (sampleBuffer 600) 0 false (fun _ => true) 512 (some sampleEdns) false false =
        (true, out) ∧ out.limit ≤ 512 ∧ out.high ≤ 512 := by
  have hok : (replyInfoAnswerEncode sampleConfig sampleAliasQuery sampleReply 7 0x0100
      (sampleBuffer 600) 0 false (fun _ => true) 512 (some sampleEdns) false false).1 = true := by
    decide +kernel
  have hex : ∀ p : Bool × Sbuffer, p.1 = true → ∃ out, p = (true, out) := by
    rintro ⟨_, out⟩ ⟨⟩
    exact ⟨out, rfl⟩
  obtain ⟨out, hout⟩ := hex _ hok
  refine ⟨out, hout, (answer_within_iff_aliasFits rfl ?_).2 ?_ _ _ hout⟩
  · decide
  · rintro rrset ⟨⟩
    exact .inr (.inr (by decide))

theorem answer_alias_overflow :
    let r := replyInfoAnswerEncode sampleConfig sampleAliasQuery sampleReply 7 0x0100
      (sampleBuffer 19) 0 false (fun _ => true) 19 none false false
    r.1 = true ∧ r.2.limit = 22 ∧ r.2.high = 22 := by
  decide +kernel

end CwdGate.Encode

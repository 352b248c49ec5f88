import CwdGate.Dname.Name

namespace CwdGate.Validator
open Std Lib List

/-- The extended hex alphabet of `sldns_b32_ntop_base`, digits then lower case letters. -/
def b32Table : List UInt8 :=
  [48, 49, 50, 51, 52, 53, 54, 55, 56, 57, 97, 98, 99, 100, 101, 102, 103, 104, 105, 106, 107,
    108, 109, 110, 111, 112, 113, 114, 115, 116, 117, 118]

def b32Char (d : UInt8) : UInt8 := b32Table.getD d.toNat 0

/-- `sldns_b32_ntop_extended_hex` into a large buffer: chunks of five octets, then the padded
rest. -/
def b32NtopExtendedHex : List UInt8 → List UInt8
  | s0 :: s1 :: s2 :: s3 :: s4 :: src =>
    [b32Char (s0 >>> 3), b32Char ((s0 &&& 0x07) <<< 2 ||| s1 >>> 6),
      b32Char ((s1 &&& 0x3e) >>> 1), b32Char ((s1 &&& 0x01) <<< 4 ||| s2 >>> 4),
      b32Char ((s2 &&& 0x0f) <<< 1 ||| s3 >>> 7), b32Char ((s3 &&& 0x7c) >>> 2),
      b32Char ((s3 &&& 0x03) <<< 3 ||| s4 >>> 5), b32Char (s4 &&& 0x1f)] ++
      b32NtopExtendedHex src
  | [s0, s1, s2, s3] =>
    [b32Char (s0 >>> 3), b32Char ((s0 &&& 0x07) <<< 2 ||| s1 >>> 6),
      b32Char ((s1 &&& 0x3e) >>> 1), b32Char ((s1 &&& 0x01) <<< 4 ||| s2 >>> 4),
      b32Char ((s2 &&& 0x0f) <<< 1 ||| s3 >>> 7), b32Char ((s3 &&& 0x7c) >>> 2),
      b32Char ((s3 &&& 0x03) <<< 3), 61]
  | [s0, s1, s2] =>
    [b32Char (s0 >>> 3), b32Char ((s0 &&& 0x07) <<< 2 ||| s1 >>> 6),
      b32Char ((s1 &&& 0x3e) >>> 1), b32Char ((s1 &&& 0x01) <<< 4 ||| s2 >>> 4),
      b32Char ((s2 &&& 0x0f) <<< 1), 61, 61, 61]
  | [s0, s1] =>
    [b32Char (s0 >>> 3), b32Char ((s0 &&& 0x07) <<< 2 ||| s1 >>> 6),
      b32Char ((s1 &&& 0x3e) >>> 1), b32Char ((s1 &&& 0x01) <<< 4), 61, 61, 61, 61]
  | [s0] => [b32Char (s0 >>> 3), b32Char ((s0 &&& 0x07) <<< 2), 61, 61, 61, 61, 61, 61]
  | [] => []

theorem length_le_b32NtopExtendedHex (src : List UInt8) :
    8 * src.length ≤ 5 * (b32NtopExtendedHex src).length := by
  fun_induction b32NtopExtendedHex src with
  | case1 s0 s1 s2 s3 s4 src ih =>
    simp only [cons_append, nil_append, length_cons]
    omega
  | case2 => simp
  | case3 => simp
  | case4 => simp
  | case5 => simp
  | case6 => simp

/-- The value of an extended hex character, in either letter case. -/
def b32Value (ch : UInt8) : Option UInt8 :=
  if 48 ≤ ch ∧ ch ≤ 57 then some (ch - 48)
  else if 97 ≤ ch ∧ ch ≤ 118 then some (ch - 97 + 10)
  else if 65 ≤ ch ∧ ch ≤ 86 then some (ch - 65 + 10)
  else none

def isspace (ch : UInt8) : Bool := ch = 32 ∨ (9 ≤ ch ∧ ch ≤ 13)

/-- The five octets of eight collected values. -/
def b32Pack (b0 b1 b2 b3 b4 b5 b6 b7 : UInt8) : List UInt8 :=
  [b0 <<< 3 ||| b1 >>> 2, b1 <<< 6 ||| b2 <<< 1 ||| b3 >>> 4, b3 <<< 4 ||| b4 >>> 1,
    b4 <<< 7 ||| b5 <<< 2 ||| b6 >>> 3, b6 <<< 5 ||| b7]

/-- The check for `n` more padding characters. -/
def b32Padding : Nat → UInt64 → List UInt8 → Bool
  | 0, _, _ => true
  | _ + 1, _, [] => false
  | n + 1, srcSz, ch :: src =>
    if srcSz = 0 then false
    else if isspace ch then b32Padding (n + 1) (srcSz - 1) src
    else if ch = 61 then b32Padding n (srcSz - 1) src
    else false
termination_by _ _ src => src.length

/-- The end of `sldns_b32_pton_base`, after collection stopped at `ch`. -/
def b32Tail (ch : UInt8) (src : List UInt8) (srcSz : UInt64) (buf dst : List UInt8) :
    Option (List UInt8) :=
  let pad := ch = 61 ∧ b32Padding (8 - buf.length - 1) srcSz src
  match buf with
  | [] => some dst
  | [b0, b1] => if pad then some (dst ++ [b0 <<< 3 ||| b1 >>> 2]) else none
  | [b0, b1, b2, b3] =>
    if pad then some (dst ++ [b0 <<< 3 ||| b1 >>> 2, b1 <<< 6 ||| b2 <<< 1 ||| b3 >>> 4])
    else none
  | [b0, b1, b2, b3, b4] =>
    if pad then
      some (dst ++ [b0 <<< 3 ||| b1 >>> 2, b1 <<< 6 ||| b2 <<< 1 ||| b3 >>> 4,
        b3 <<< 4 ||| b4 >>> 1])
    else none
  | [b0, b1, b2, b3, b4, b5, b6] =>
    if pad then
      some (dst ++ [b0 <<< 3 ||| b1 >>> 2, b1 <<< 6 ||| b2 <<< 1 ||| b3 >>> 4,
        b3 <<< 4 ||| b4 >>> 1, b4 <<< 7 ||| b5 <<< 2 ||| b6 >>> 3])
    else none
  | _ => none

/-- The loop of `sldns_b32_pton_base`. `srcSz` is tested only between groups of eight and after a
blank, and wraps; the text ends in a zero octet. -/
def b32PtonLoop : List UInt8 → UInt64 → List UInt8 → List UInt8 → Option (List UInt8)
  | [], srcSz, buf, dst => if buf = [] ∧ srcSz = 0 then some dst else none
  | ch :: src, srcSz, buf, dst =>
    if buf = [] ∧ srcSz = 0 then some dst
    else if isspace ch ∧ srcSz - 1 > 0 then b32PtonLoop src (srcSz - 1) buf dst
    else if ch = 61 ∨ ch = 0 then b32Tail ch src (srcSz - 1) buf dst
    else
      match b32Value ch with
      | none => none
      | some v =>
        match buf with
        | [b0, b1, b2, b3, b4, b5, b6] =>
          b32PtonLoop src (srcSz - 1) [] (dst ++ b32Pack b0 b1 b2 b3 b4 b5 b6 v)
        | _ => b32PtonLoop src (srcSz - 1) (buf ++ [v]) dst

/-- `sldns_b32_pton_extended_hex` into a buffer that is large enough; `none` for -1. -/
def b32PtonExtendedHex (src : List UInt8) (srcSz : Nat) : Option (List UInt8) :=
  b32PtonLoop src (UInt64.ofNat srcSz) [] []

def b32Digits (s0 s1 s2 s3 s4 : UInt8) : List UInt8 :=
  [s0 >>> 3, (s0 &&& 0x07) <<< 2 ||| s1 >>> 6, (s1 &&& 0x3e) >>> 1,
    (s1 &&& 0x01) <<< 4 ||| s2 >>> 4, (s2 &&& 0x0f) <<< 1 ||| s3 >>> 7, (s3 &&& 0x7c) >>> 2,
    (s3 &&& 0x03) <<< 3 ||| s4 >>> 5, s4 &&& 0x1f]

theorem toNat_or_of_low {x y : UInt8} (i : Nat) (hx : x.toNat % 2 ^ i = 0)
    (hy : y.toNat < 2 ^ i) : (x ||| y).toNat = x.toNat + y.toNat := by
  have hshift := (Nat.div_mul_cancel (Nat.dvd_of_mod_eq_zero hx)).symm
  rw [UInt8.toNat_or, hshift, ← Nat.shiftLeft_eq, ← Nat.shiftLeft_add_eq_or_of_lt hy]

theorem octet_parts (s : UInt8) :
    (s >>> 3).toNat = s.toNat / 8 ∧ ((s &&& 0x07) <<< 2).toNat = s.toNat % 8 * 4 ∧
    (s >>> 6).toNat = s.toNat / 64 ∧ ((s &&& 0x3e) >>> 1).toNat = s.toNat % 64 / 2 ∧
    ((s &&& 0x01) <<< 4).toNat = s.toNat % 2 * 16 ∧ (s >>> 4).toNat = s.toNat / 16 ∧
    ((s &&& 0x0f) <<< 1).toNat = s.toNat % 16 * 2 ∧ (s >>> 7).toNat = s.toNat / 128 ∧
    ((s &&& 0x7c) >>> 2).toNat = s.toNat % 128 / 4 ∧
    ((s &&& 0x03) <<< 3).toNat = s.toNat % 4 * 8 ∧ (s >>> 5).toNat = s.toNat / 32 ∧
    (s &&& 0x1f).toNat = s.toNat % 32 := by
  revert s
  apply forall_octet
  decide +kernel

theorem b32Digits_toNat :
    (b32Digits s0 s1 s2 s3 s4).map UInt8.toNat =
      [s0.toNat / 8, s0.toNat % 8 * 4 + s1.toNat / 64, s1.toNat % 64 / 2,
        s1.toNat % 2 * 16 + s2.toNat / 16, s2.toNat % 16 * 2 + s3.toNat / 128,
        s3.toNat % 128 / 4, s3.toNat % 4 * 8 + s4.toNat / 32, s4.toNat % 32] := by
  obtain ⟨a0, b0, -⟩ := octet_parts s0
  obtain ⟨-, -, c1, d1, e1, -⟩ := octet_parts s1
  obtain ⟨-, -, -, -, -, f2, g2, -⟩ := octet_parts s2
  obtain ⟨-, -, -, -, -, -, -, h3, i3, j3, -⟩ := octet_parts s3
  obtain ⟨-, -, -, -, -, -, -, -, -, -, k4, l4⟩ := octet_parts s4
  have h1 := s1.toNat_lt
  have h2 := s2.toNat_lt
  have h3' := s3.toNat_lt
  have h4 := s4.toNat_lt
  simp only [b32Digits, map_cons, map_nil]
  rw [a0, toNat_or_of_low 2 (by omega) (by omega), b0, c1, d1,
    toNat_or_of_low 4 (by omega) (by omega), e1, f2, toNat_or_of_low 1 (by omega) (by omega), g2,
    h3, i3, toNat_or_of_low 3 (by omega) (by omega), j3, k4, l4]

theorem b32Digits_lt : ∀ d ∈ b32Digits s0 s1 s2 s3 s4, d.toNat < 32 := by
  intro d hd
  have hm : d.toNat ∈ (b32Digits s0 s1 s2 s3 s4).map UInt8.toNat := mem_map_of_mem hd
  rw [b32Digits_toNat] at hm
  have h0 := s0.toNat_lt
  have h1 := s1.toNat_lt
  have h2 := s2.toNat_lt
  have h3 := s3.toNat_lt
  have h4 := s4.toNat_lt
  simp only [mem_cons, not_mem_nil, or_false] at hm
  omega

theorem beValue_b32Digits :
    beValue 32 ((b32Digits s0 s1 s2 s3 s4).map UInt8.toNat) =
      beValue 256 ([s0, s1, s2, s3, s4].map UInt8.toNat) := by
  rw [b32Digits_toNat]
  simp only [beValue, length_cons, length_nil, map_cons, map_nil]
  omega

theorem compare_b32Char (ha : a.toNat < 32) (hb : b.toNat < 32) :
    compare (b32Char a) (b32Char b) = compare a b := by
  have key : ∀ i j : Fin 32, compare (b32Char (UInt8.ofNat i.val)) (b32Char (UInt8.ofNat j.val)) =
      compare (UInt8.ofNat i.val) (UInt8.ofNat j.val) := by
    decide +kernel
  have h := key ⟨a.toNat, ha⟩ ⟨b.toNat, hb⟩
  rwa [UInt8.ofNat_toNat, UInt8.ofNat_toNat] at h

theorem compareLex_chunk :
    ((b32Digits s0 s1 s2 s3 s4).map b32Char).compareLex compare
        ((b32Digits t0 t1 t2 t3 t4).map b32Char) =
      [s0, s1, s2, s3, s4].compareLex compare [t0, t1, t2, t3, t4] := by
  have hdig : ∀ {u0 u1 u2 u3 u4 : UInt8}, ∀ d ∈ (b32Digits u0 u1 u2 u3 u4).map UInt8.toNat,
      d < 32 := by
    intro u0 u1 u2 u3 u4 d hd
    obtain ⟨x, hx, rfl⟩ := mem_map.1 hd
    exact b32Digits_lt x hx
  have hoct : ∀ us : List UInt8, ∀ d ∈ us.map UInt8.toNat, d < 256 := by
    intro us d hd
    obtain ⟨x, -, rfl⟩ := mem_map.1 hd
    exact x.toNat_lt
  have hlen32 : ((b32Digits s0 s1 s2 s3 s4).map UInt8.toNat).length =
      ((b32Digits t0 t1 t2 t3 t4).map UInt8.toNat).length := rfl
  have hlen256 : ([s0, s1, s2, s3, s4].map UInt8.toNat).length =
      ([t0, t1, t2, t3, t4].map UInt8.toNat).length := rfl
  calc _
    _ = (b32Digits s0 s1 s2 s3 s4).compareLex compare (b32Digits t0 t1 t2 t3 t4) :=
      compareLex_map fun a ha b hb => compare_b32Char (b32Digits_lt a ha) (b32Digits_lt b hb)
    _ = ((b32Digits s0 s1 s2 s3 s4).map UInt8.toNat).compareLex compare
        ((b32Digits t0 t1 t2 t3 t4).map UInt8.toNat) :=
      (compareLex_map fun a _ b _ => compare_toNat a b).symm
    _ = compare (beValue 256 ([s0, s1, s2, s3, s4].map UInt8.toNat))
        (beValue 256 ([t0, t1, t2, t3, t4].map UInt8.toNat)) := by
      rw [compareLex_eq_compare_beValue hlen32 hdig hdig, beValue_b32Digits, beValue_b32Digits]
    _ = _ := by
      rw [← compareLex_eq_compare_beValue hlen256 (hoct _) (hoct _)]
      exact compareLex_map fun a _ b _ => compare_toNat a b

theorem compareLex_b32Ntop (hl : xs.length = ys.length) (h5 : xs.length % 5 = 0) :
    (b32NtopExtendedHex xs).compareLex compare (b32NtopExtendedHex ys) =
      xs.compareLex compare ys := by
  fun_induction b32NtopExtendedHex xs generalizing ys with
  | case1 s0 s1 s2 s3 s4 xs ih =>
    match ys, hl with
    | t0 :: t1 :: t2 :: t3 :: t4 :: ys, hl =>
      simp only [length_cons] at hl h5
      have hlen : ((b32Digits s0 s1 s2 s3 s4).map b32Char).length =
          ((b32Digits t0 t1 t2 t3 t4).map b32Char).length := rfl
      have hlen' : [s0, s1, s2, s3, s4].length = [t0, t1, t2, t3, t4].length := rfl
      calc _
        _ = _ := compareLex_append hlen (b32NtopExtendedHex xs) (b32NtopExtendedHex ys)
        _ = _ := by rw [compareLex_chunk, ih (by omega) (by omega)]
        _ = _ := (compareLex_append hlen' xs ys).symm
  | case2 => simp at h5
  | case3 => simp at h5
  | case4 => simp at h5
  | case5 => simp at h5
  | case6 =>
    rw [length_eq_zero_iff.1 hl.symm]
    rfl

theorem b32Value_of_tolower (hd : d.toNat < 32) (h : tolower ch = b32Char d) :
    isspace ch = false ∧ ch ≠ 61 ∧ ch ≠ 0 ∧ b32Value ch = some d := by
  have key : ∀ i : Fin 256, ∀ j : Fin 32,
      tolower (UInt8.ofNat i.val) = b32Char (UInt8.ofNat j.val) →
      isspace (UInt8.ofNat i.val) = false ∧ UInt8.ofNat i.val ≠ 61 ∧ UInt8.ofNat i.val ≠ 0 ∧
        b32Value (UInt8.ofNat i.val) = some (UInt8.ofNat j.val) := by
    decide +kernel
  have hk := key ⟨ch.toNat, ch.toNat_lt⟩ ⟨d.toNat, hd⟩
  rw [UInt8.ofNat_toNat, UInt8.ofNat_toNat] at hk
  exact hk h

theorem b32PtonLoop_char (hd : d.toNat < 32) (h : tolower ch = b32Char d) (hbuf : buf.length < 7)
    (hsz : buf = [] → srcSz ≠ 0) :
    b32PtonLoop (ch :: src) srcSz buf dst = b32PtonLoop src (srcSz - 1) (buf ++ [d]) dst := by
  obtain ⟨hspace, h61, h0, hval⟩ := b32Value_of_tolower hd h
  rw [b32PtonLoop, if_neg (fun hc => hsz hc.1 hc.2), if_neg (fun hc => by simp [hspace] at hc),
    if_neg (fun hc => hc.elim h61 h0), hval]
  dsimp only
  split
  next => simp at hbuf
  next => rfl

theorem b32PtonLoop_chars (hd : ∀ d ∈ ds, d.toNat < 32) (h : cs.map tolower = ds.map b32Char)
    (hbuf : buf.length + ds.length ≤ 7) (hsz : buf = [] → srcSz ≠ 0) :
    b32PtonLoop (cs ++ src) srcSz buf dst =
      b32PtonLoop src (srcSz - UInt64.ofNat ds.length) (buf ++ ds) dst := by
  induction ds generalizing cs buf srcSz with
  | nil =>
    have hnil : cs = [] := map_eq_nil_iff.1 h
    have hzero : srcSz - UInt64.ofNat ([] : List UInt8).length = srcSz := UInt64.sub_zero _
    rw [hnil, nil_append, append_nil, hzero]
  | cons d ds ih =>
    cases cs with
    | nil => cases h
    | cons c cs =>
      rw [map_cons, map_cons, cons.injEq] at h
      rw [length_cons] at hbuf
      have hnext : (buf ++ [d]).length + ds.length ≤ 7 := by
        rw [length_append, length_singleton]
        omega
      have hcons : buf ++ [d] = [] → srcSz - 1 ≠ 0 := by simp
      have hsub : srcSz - 1 - UInt64.ofNat ds.length = srcSz - UInt64.ofNat (ds.length + 1) := by
        rw [UInt64.ofNat_add]
        grind
      rw [cons_append, b32PtonLoop_char (hd d mem_cons_self) h.1 (by omega) hsz,
        ih (forall_mem_cons.1 hd).2 h.2 hnext hcons, append_assoc,
        singleton_append, hsub, length_cons]

theorem b32PtonLoop_last (hd : d.toNat < 32) (h : tolower ch = b32Char d) :
    b32PtonLoop (ch :: src) srcSz [b0, b1, b2, b3, b4, b5, b6] dst =
      b32PtonLoop src (srcSz - 1) [] (dst ++ b32Pack b0 b1 b2 b3 b4 b5 b6 d) := by
  obtain ⟨hspace, h61, h0, hval⟩ := b32Value_of_tolower hd h
  rw [b32PtonLoop, if_neg (fun hc => nomatch hc.1), if_neg (fun hc => by simp [hspace] at hc),
    if_neg (fun hc => hc.elim h61 h0), hval]

theorem b32Pack_b32Digits {s0 s1 s2 s3 s4 d0 d1 d2 d3 d4 d5 d6 d7 : UInt8}
    (h : b32Digits s0 s1 s2 s3 s4 = [d0, d1, d2, d3, d4, d5, d6, d7]) :
    b32Pack d0 d1 d2 d3 d4 d5 d6 d7 = [s0, s1, s2, s3, s4] := by
  cases h
  simp only [b32Pack, cons.injEq, and_true]
  refine ⟨?_, ?_, ?_, ?_, ?_⟩
  -- each bit of an octet comes from the one digit that it went to
  all_goals
    apply UInt8.toBitVec_inj.1
    ext i hi
    simp
    interval_cases i <;> simp

theorem b32PtonLoop_chunk (h : cs.map tolower = (b32Digits s0 s1 s2 s3 s4).map b32Char)
    (hsz : srcSz ≠ 0) :
    b32PtonLoop (cs ++ src) srcSz [] dst =
      b32PtonLoop src (srcSz - 8) [] (dst ++ [s0, s1, s2, s3, s4]) := by
  obtain ⟨d0, d1, d2, d3, d4, d5, d6, d7, hd⟩ : ∃ d0 d1 d2 d3 d4 d5 d6 d7,
      b32Digits s0 s1 s2 s3 s4 = [d0, d1, d2, d3, d4, d5, d6, d7] :=
    ⟨_, _, _, _, _, _, _, _, rfl⟩
  have hlt := @b32Digits_lt s0 s1 s2 s3 s4
  simp only [hd, forall_mem_cons] at hlt
  obtain ⟨l0, l1, l2, l3, l4, l5, l6, l7, -⟩ := hlt
  rw [hd] at h
  have hlen := congrArg length h
  match cs, hlen with
  | [c0, c1, c2, c3, c4, c5, c6, c7], _ =>
    simp only [map_cons, map_nil, cons.injEq, and_true] at h
    obtain ⟨e0, e1, e2, e3, e4, e5, e6, e7⟩ := h
    have hmap : [c0, c1, c2, c3, c4, c5, c6].map tolower =
        [d0, d1, d2, d3, d4, d5, d6].map b32Char := by
      simp only [map_cons, map_nil, e0, e1, e2, e3, e4, e5, e6]
    have hseven : ∀ d ∈ [d0, d1, d2, d3, d4, d5, d6], d.toNat < 32 := by
      simp only [forall_mem_cons]
      exact ⟨l0, l1, l2, l3, l4, l5, l6, nofun⟩
    have hfit : ([] : List UInt8).length + [d0, d1, d2, d3, d4, d5, d6].length ≤ 7 :=
      Nat.le_refl 7
    calc _
      _ = _ := b32PtonLoop_chars hseven hmap hfit (fun _ => hsz)
      _ = _ := b32PtonLoop_last l7 e7
      _ = _ := by
        have height : srcSz - 7 - 1 = srcSz - 8 := by grind
        rw [b32Pack_b32Digits hd]
        exact congrArg (b32PtonLoop src · [] _) height

theorem b32PtonLoop_ntop {hash : List UInt8} (h5 : hash.length % 5 = 0)
    (h : cs.map tolower = b32NtopExtendedHex hash) (hsz : srcSz.toNat = cs.length)
    (rest dst : List UInt8) : b32PtonLoop (cs ++ rest) srcSz [] dst = some (dst ++ hash) := by
  fun_induction b32NtopExtendedHex hash generalizing cs srcSz dst with
  | case1 s0 s1 s2 s3 s4 src ih =>
    have hlen := congrArg length h
    simp only [length_map, length_append, length_cons, length_nil] at hlen
    have hsplit := (take_append_drop 8 cs).symm
    have hhead : (cs.take 8).map tolower = (b32Digits s0 s1 s2 s3 s4).map b32Char := by
      rw [map_take, h]
      rfl
    have htail : (cs.drop 8).map tolower = b32NtopExtendedHex src := by
      rw [map_drop, h]
      rfl
    have hpos : srcSz ≠ 0 := by
      intro hc
      rw [hc] at hsz
      have : (0 : UInt64).toNat = 0 := rfl
      omega
    have hsz' : (srcSz - 8).toNat = (cs.drop 8).length := by
      have h8 : (8 : UInt64) ≤ srcSz := by
        rw [UInt64.le_iff_toNat_le, hsz]
        show 8 ≤ cs.length
        omega
      rw [UInt64.toNat_sub_of_le _ _ h8, hsz, length_drop]
      rfl
    simp only [length_cons] at h5
    rw [hsplit, append_assoc, b32PtonLoop_chunk hhead hpos, ih (by omega) htail hsz', append_assoc]
    rfl
  | case2 => simp at h5
  | case3 => simp at h5
  | case4 => simp at h5
  | case5 => simp at h5
  | case6 =>
    have hnil : cs = [] := map_eq_nil_iff.1 h
    subst hnil
    have hzero : srcSz = 0 := UInt64.toNat_inj.1 hsz
    rw [nil_append, append_nil]
    cases rest with
    | nil => rw [b32PtonLoop, if_pos ⟨rfl, hzero⟩]
    | cons r rest => rw [b32PtonLoop, if_pos ⟨rfl, hzero⟩]

end CwdGate.Validator

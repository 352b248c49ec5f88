import CwdGate.Lib.Lex

namespace CwdGate
open Std Lib List

abbrev Label := List UInt8

/-- An uncompressed domain name: its labels from left to right, without the root label. -/
abbrev Name := List Label

theorem forall_octet {P : UInt8 → Prop} (h : ∀ i : Fin 256, P (UInt8.ofNat i.val)) (x : UInt8) :
    P x := by
  have hx := h ⟨x.toNat, x.toNat_lt⟩
  rwa [UInt8.ofNat_toNat] at hx

def tolower (b : UInt8) : UInt8 := if 65 ≤ b ∧ b ≤ 90 then b + 32 else b

def lowerLabel (l : Label) : Label := l.map tolower

def lowerName (n : Name) : Name := n.map lowerLabel

@[simp] theorem length_lowerLabel : (lowerLabel l).length = l.length :=
  length_map ..

@[simp] theorem length_lowerName (n : Name) : (lowerName n).length = n.length :=
  length_map ..

theorem tolower_tolower : ∀ b : UInt8, tolower (tolower b) = tolower b :=
  forall_octet (by decide +kernel)

theorem lowerName_lowerName (d : Name) : lowerName (lowerName d) = lowerName d := by
  rw [lowerName, lowerName, map_map]
  apply map_congr_left
  intro l _
  rw [Function.comp, lowerLabel, lowerLabel, map_map]
  apply map_congr_left
  intro b _
  exact tolower_tolower b

/-- The octets of a name in memory, closed by the root label. -/
def wire : Name → List UInt8
  | [] => [0]
  | l :: n => l.length.toUInt8 :: l ++ wire n

def wireLen : Name → Nat
  | [] => 1
  | l :: n => l.length + 1 + wireLen n

@[simp] theorem length_wire (n : Name) : (wire n).length = wireLen n := by
  induction n with
  | nil => rfl
  | cons l n ih => simp only [wire, wireLen, cons_append, length_cons, length_append, ih]; omega

theorem wireLen_pos (n : Name) : 0 < wireLen n := by
  cases n <;> simp only [wireLen] <;> omega

theorem wireLen_append (n m : Name) : wireLen (n ++ m) + 1 = wireLen n + wireLen m := by
  induction n with
  | nil => simp only [nil_append, wireLen]; omega
  | cons l n ih => simp only [cons_append, wireLen]; omega

theorem wireLen_lowerName : wireLen (lowerName n) = wireLen n := by
  induction n with
  | nil => rfl
  | cons l n ih =>
    change (lowerLabel l).length + 1 + wireLen (lowerName n) = _
    rw [ih, length_lowerLabel]
    rfl

/-- Names as they occur on the wire: nonempty labels of at most 63 octets, 255 in total. -/
structure ValidName (n : Name) : Prop where
  label_pos : ∀ l ∈ n, 0 < l.length
  label_le : ∀ l ∈ n, l.length ≤ 63
  len_le : wireLen n ≤ 255

theorem ValidName.tail {l : Label} {n : Name} (h : ValidName (l :: n)) : ValidName n where
  label_pos m hm := h.label_pos m (List.mem_cons_of_mem _ hm)
  label_le m hm := h.label_le m (List.mem_cons_of_mem _ hm)
  len_le := by
    have := h.len_le
    simp only [wireLen] at this
    omega

theorem ValidName.nil : ValidName [] := ⟨nofun, nofun, by decide⟩

theorem ValidName.drop (h : ValidName n) (k : Nat) : ValidName (n.drop k) := by
  induction k generalizing n with
  | zero => exact h
  | succ k ih =>
    cases n with
    | nil => exact h
    | cons l n => exact ih h.tail

theorem ValidName.of_lower (h : lowerName m = lowerName n) (hn : ValidName n) : ValidName m := by
  have hlen : ∀ l ∈ m, ∃ l' ∈ n, l'.length = l.length := by
    intro l hl
    have hm : lowerLabel l ∈ lowerName n := h ▸ mem_map_of_mem hl
    obtain ⟨l', hl', he⟩ := mem_map.1 hm
    have := congrArg length he
    rw [length_lowerLabel, length_lowerLabel] at this
    exact ⟨l', hl', this⟩
  refine ⟨fun l hl => ?_, fun l hl => ?_, ?_⟩
  · obtain ⟨l', hl', he⟩ := hlen l hl
    exact he ▸ hn.label_pos l' hl'
  · obtain ⟨l', hl', he⟩ := hlen l hl
    exact he ▸ hn.label_le l' hl'
  · rw [← wireLen_lowerName, h, wireLen_lowerName]
    exact hn.len_le

theorem wireLen_ge_length (h : ∀ l ∈ n, 0 < l.length) : 2 * n.length + 1 ≤ wireLen n := by
  induction n with
  | nil => simp [wireLen]
  | cons l n ih =>
    have hl := h l mem_cons_self
    have := ih (forall_mem_cons.1 h).2
    simp only [wireLen, length_cons]
    omega

theorem ValidName.length_le (h : ValidName n) : n.length ≤ 127 := by
  have := wireLen_ge_length h.label_pos
  have := h.len_le
  omega

instance (n : Name) : Decidable (ValidName n) :=
  decidable_of_iff ((∀ l ∈ n, 0 < l.length) ∧ (∀ l ∈ n, l.length ≤ 63) ∧ wireLen n ≤ 255)
    ⟨fun h => ⟨h.1, h.2.1, h.2.2⟩, fun h => ⟨h.1, h.2, h.3⟩⟩

/-- `dname_count_labels`: the root label is counted. -/
def dnameCountLabels (d : Name) : Nat := d.length + 1

def memlowercmp : List UInt8 → List UInt8 → Nat → Ordering
  | a :: p1, b :: p2, len + 1 =>
    if a ≠ b ∧ tolower a ≠ tolower b then
      if tolower a < tolower b then .lt else .gt
    else memlowercmp p1 p2 len
  | _, _, _ => .eq

/-- The label comparison of `dname_lab_cmp`: by length, then by lowercased octets. -/
def labelCmp (l1 l2 : Label) : Ordering :=
  if l1.length ≠ l2.length then
    if l1.length < l2.length then .lt else .gt
  else memlowercmp l1 l2 l1.length

/-- `memcanoncmp`: lowercased octets first, the shorter label first when they agree. -/
def memcanoncmp (l1 l2 : Label) : Ordering :=
  match memlowercmp l1 l2 (min l1.length l2.length) with
  | .eq => if l1.length < l2.length then .lt else if l1.length > l2.length then .gt else .eq
  | c => c

/-- The loop shared by `dname_lab_cmp` and `dname_canon_lab_cmp`; the counter is `atlabel`. -/
def labLoop (cmp : Label → Label → Ordering) : Nat → Name → Name → Ordering → Nat → Ordering × Nat
  | atlabel + 2, l1 :: d1, l2 :: d2, lastdiff, lastmlabs =>
    match cmp l1 l2 with
    | .eq => labLoop cmp (atlabel + 1) d1 d2 lastdiff lastmlabs
    | c => labLoop cmp (atlabel + 1) d1 d2 c (atlabel + 2)
  | _, _, _, lastdiff, lastmlabs => (lastdiff, lastmlabs)

/-- `dname_lab_cmp` and `dname_canon_lab_cmp`: the result, and the labels that match, with the
root. -/
def labCmpWith (cmp : Label → Label → Ordering) (d1 : Name) (labs1 : Nat) (d2 : Name)
    (labs2 : Nat) : Ordering × Nat :=
  let atlabel := min labs1 labs2
  let r := labLoop cmp atlabel (d1.drop (labs1 - labs2)) (d2.drop (labs2 - labs1)) .eq (atlabel + 1)
  (match r.1 with
    | .eq => if labs1 > labs2 then .gt else if labs1 < labs2 then .lt else .eq
    | c => c, r.2 - 1)

def dnameLabCmp (d1 : Name) (labs1 : Nat) (d2 : Name) (labs2 : Nat) : Ordering × Nat :=
  labCmpWith labelCmp d1 labs1 d2 labs2

def dnameCanonLabCmp (d1 : Name) (labs1 : Nat) (d2 : Name) (labs2 : Nat) : Ordering × Nat :=
  labCmpWith memcanoncmp d1 labs1 d2 labs2

def dnameCanonicalCompare (d1 d2 : Name) : Ordering :=
  (dnameCanonLabCmp d1 (dnameCountLabels d1) d2 (dnameCountLabels d2)).1

def queryDnameCompare : Name → Name → Ordering
  | [], [] => .eq
  | [], _ :: _ => .lt
  | _ :: _, [] => .gt
  | l1 :: d1, l2 :: d2 =>
    if l1.length ≠ l2.length then
      if l1.length < l2.length then .lt else .gt
    else match memlowercmp l1 l2 l1.length with
      | .eq => queryDnameCompare d1 d2
      | c => c

def dnameStrictSubdomain (d1 : Name) (labs1 : Nat) (d2 : Name) (labs2 : Nat) : Bool :=
  if labs2 ≥ labs1 then false
  else
    let r := dnameLabCmp d1 labs1 d2 labs2
    if r.1 = .gt then r.2 == labs2 else false

def dnameStrictSubdomainC (d1 d2 : Name) : Bool :=
  dnameStrictSubdomain d1 (dnameCountLabels d1) d2 (dnameCountLabels d2)

def dnameSubdomainC (d1 d2 : Name) : Bool :=
  let labs1 := dnameCountLabels d1
  let labs2 := dnameCountLabels d2
  if labs2 > labs1 then false
  else
    let r := dnameLabCmp d1 labs1 d2 labs2
    if r.1 = .lt then false else r.2 == labs2

/-- `dname_remove_label`: the root label stays. -/
def dnameRemoveLabel (d : Name) : Name := d.tail

def dnameRemoveLabels (d : Name) (n : Nat) : Name := d.drop n

def dnameIsWild (d : Name) : Bool := d.head? == some [42]

def dnameGetSharedTopdomain (d1 d2 : Name) : Name :=
  let labs1 := dnameCountLabels d1
  let m := (dnameLabCmp d1 labs1 d2 (dnameCountLabels d2)).2
  dnameRemoveLabels d1 (labs1 - m)

/-- The octet at the head of a memory area; what lies past the area reads as zero. -/
def peek (bytes : List UInt8) : UInt8 := bytes.headD 0

/-- The labels met by walking memory from a name pointer up to a zero length octet. -/
def rawName : Nat → List UInt8 → Name
  | 0, _ => []
  | fuel + 1, bytes =>
    let lablen := (peek bytes).toNat
    if lablen = 0 then []
    else bytes.tail.take lablen :: rawName fuel (bytes.tail.drop lablen)

/-- The name that a pointer to `bytes` denotes. -/
def nameAt (bytes : List UInt8) : Name := rawName bytes.length bytes

/-- The loop of `dname_valid`; no name has more than 256 labels before it is too long. -/
def dnameValidLoop (maxlen : Nat) : Nat → Nat → List UInt8 → Nat
  | 0, _, _ => 0
  | fuel + 1, len, dname =>
    let labellen := peek dname
    if labellen = 0 then
      if len + 1 > maxlen then 0 else len + 1
    else if labellen &&& 0xc0 ≠ 0 then 0
    else
      let len' := len + (labellen.toNat + 1)
      if len' ≥ 255 then 0
      else if len' > maxlen then 0
      else dnameValidLoop maxlen fuel len' (dname.tail.drop labellen.toNat)

def dnameValid (dname : List UInt8) (maxlen : Nat) : Nat :=
  if maxlen = 0 then 0 else dnameValidLoop maxlen 256 0 dname

theorem toNat_toUInt8_of_lt (h : n < 256) : n.toUInt8.toNat = n := by
  simp [Nat.mod_eq_of_lt h]

theorem length_octet (h : 0 < n ∧ n ≤ 63) : n.toUInt8.toNat = n ∧ n.toUInt8 ≠ 0 := by
  have hn : n.toUInt8.toNat = n := toNat_toUInt8_of_lt (by omega)
  refine ⟨hn, fun h0 => ?_⟩
  rw [h0, UInt8.toNat_zero] at hn
  omega

theorem toUInt8_and_c0 (h : n ≤ 63) : n.toUInt8 &&& 0xc0 = 0 := by
  have key : ∀ k : Fin 64, (k.val.toUInt8 &&& 0xc0) = 0 := by decide
  exact key ⟨n, by omega⟩

theorem rawName_wire (hn : ∀ l ∈ n, 0 < l.length ∧ l.length ≤ 63) (fuel : Nat)
    (hf : n.length < fuel) : rawName fuel (wire n ++ rest) = n := by
  induction n generalizing fuel with
  | nil =>
    cases fuel with
    | zero => simp at hf
    | succ fuel => simp [rawName, wire, peek]
  | cons l n ih =>
    cases fuel with
    | zero => simp at hf
    | succ fuel =>
      obtain ⟨h0, h63⟩ := hn l mem_cons_self
      have hl : l.length.toUInt8.toNat = l.length := toNat_toUInt8_of_lt (by omega)
      have ih := ih (forall_mem_cons.1 hn).2 fuel (by simpa using hf)
      simp only [rawName, wire, peek, cons_append, headD_cons, hl, tail_cons,
        append_assoc, take_left', drop_left']
      rw [if_neg (by omega), ih]

theorem nameAt_wire (hn : ValidName n) (rest : List UInt8) : nameAt (wire n ++ rest) = n := by
  apply rawName_wire (fun l hl => ⟨hn.label_pos l hl, hn.label_le l hl⟩)
  have := wireLen_ge_length hn.label_pos
  simp only [length_append, length_wire]
  omega

theorem dnameValidLoop_wire (hn : ∀ l ∈ n, 0 < l.length ∧ l.length ≤ 63) (maxlen fuel len : Nat)
    (hf : n.length < fuel) (hlen : len + wireLen n ≤ 255) (hmax : len + wireLen n ≤ maxlen) :
    dnameValidLoop maxlen fuel len (wire n ++ rest) = len + wireLen n := by
  induction n generalizing fuel len with
  | nil =>
    cases fuel with
    | zero => simp at hf
    | succ fuel =>
      simp only [wireLen] at hmax
      simp [dnameValidLoop, wire, peek, wireLen, Nat.not_lt.2 hmax]
  | cons l n ih =>
    cases fuel with
    | zero => simp at hf
    | succ fuel =>
      obtain ⟨h0, h63⟩ := hn l mem_cons_self
      obtain ⟨hl, hz⟩ := length_octet ⟨h0, h63⟩
      have hpos := wireLen_pos n
      simp only [wireLen] at hlen hmax ⊢
      simp only [dnameValidLoop, wire, peek, cons_append, headD_cons, hl,
        tail_cons, append_assoc, drop_left', toUInt8_and_c0 h63, ne_eq,
        not_true_eq_false, ↓reduceIte]
      rw [if_neg hz, if_neg (by omega), if_neg (by omega),
        ih (forall_mem_cons.1 hn).2 fuel _ (by simpa using hf) (by omega) (by omega)]
      omega

theorem dnameValid_wire (hn : ValidName n) (rest : List UInt8) (hmax : wireLen n ≤ maxlen) :
    dnameValid (wire n ++ rest) maxlen = wireLen n := by
  have hpos := wireLen_pos n
  have hlen := hn.length_le
  rw [dnameValid, if_neg (by omega), dnameValidLoop_wire
    (fun l hl => ⟨hn.label_pos l hl, hn.label_le l hl⟩) maxlen 256 0 (by omega)
    (by simpa using hn.len_le) (by simpa using hmax), Nat.zero_add]

theorem toNat_le_of_and_c0 {b : UInt8} (h : b &&& 0xc0 = 0) : b.toNat ≤ 63 := by
  have key : ∀ k : Fin 256, (UInt8.ofNat k.val &&& 0xc0) = 0 → k.val ≤ 63 := by
    decide +kernel
  have hb : UInt8.ofNat b.toNat = b := UInt8.ofNat_toNat
  exact key ⟨b.toNat, b.toNat_lt⟩ (by rw [hb]; exact h)

theorem dnameValidLoop_cons :
    dnameValidLoop maxlen (fuel + 1) len (b :: bytes) =
      if b = 0 then if len + 1 > maxlen then 0 else len + 1
      else if b &&& 0xc0 ≠ 0 then 0
      else if len + (b.toNat + 1) ≥ 255 then 0
      else if len + (b.toNat + 1) > maxlen then 0
      else dnameValidLoop maxlen fuel (len + (b.toNat + 1)) (bytes.drop b.toNat) := rfl

/-- What `dname_valid` accepts is a name, and all of it lies in memory that may be read. -/
theorem dnameValidLoop_name {bytes : List UInt8} (hmax : maxlen ≤ len + bytes.length)
    (hlen : len ≤ 254) (h0 : dnameValidLoop maxlen fuel len bytes ≠ 0) :
    ∃ n rest, (∀ l ∈ n, 0 < l.length ∧ l.length ≤ 63) ∧ bytes = wire n ++ rest ∧
      dnameValidLoop maxlen fuel len bytes = len + wireLen n ∧ len + wireLen n ≤ 255 := by
  induction fuel generalizing len bytes with
  | zero => exact absurd rfl h0
  | succ fuel ih =>
    cases bytes with
    | nil =>
      have : dnameValidLoop maxlen (fuel + 1) len [] = if len + 1 > maxlen then 0 else len + 1 :=
        rfl
      rw [this, if_pos (by rw [length_nil] at hmax; omega)] at h0
      exact absurd rfl h0
    | cons b bytes =>
      rw [dnameValidLoop_cons] at h0 ⊢
      by_cases hb : b = 0
      · rw [if_pos hb] at h0 ⊢
        split at h0
        · exact absurd rfl h0
        · rw [if_neg (by assumption)]
          exact ⟨[], bytes, fun l hl => absurd hl not_mem_nil, by rw [hb]; rfl, rfl,
            Nat.succ_le_succ hlen⟩
      · rw [if_neg hb] at h0 ⊢
        by_cases hc : b &&& 0xc0 ≠ 0
        · rw [if_pos hc] at h0
          exact absurd rfl h0
        rw [if_neg hc] at h0 ⊢
        by_cases h255 : len + (b.toNat + 1) ≥ 255
        · rw [if_pos h255] at h0
          exact absurd rfl h0
        rw [if_neg h255] at h0 ⊢
        by_cases hfit : len + (b.toNat + 1) > maxlen
        · rw [if_pos hfit] at h0
          exact absurd rfl h0
        rw [if_neg hfit] at h0 ⊢
        rw [length_cons] at hmax
        have h63 := toNat_le_of_and_c0 (not_not.1 hc)
        have hpos : 0 < b.toNat := Nat.pos_of_ne_zero fun hz => hb (UInt8.toNat_inj.1 hz)
        obtain ⟨n, rest, hlab, hrest, heq, hle⟩ := ih (by rw [length_drop]; omega) (by omega) h0
        have htake : (bytes.take b.toNat).length = b.toNat :=
          length_take_of_le (by omega)
        refine ⟨bytes.take b.toNat :: n, rest, ?_, ?_, ?_, ?_⟩
        · exact forall_mem_cons.2 ⟨by rw [htake]; exact ⟨hpos, h63⟩, hlab⟩
        · have hoct : b.toNat.toUInt8 = b := UInt8.ofNat_toNat
          rw [wire, htake, hoct, append_assoc, ← hrest, cons_append, take_append_drop]
        · rw [heq, wireLen, htake]
          omega
        · rw [wireLen, htake]
          omega

theorem dnameValid_name (hmax : maxlen ≤ bytes.length) (h0 : dnameValid bytes maxlen ≠ 0) :
    ∃ n rest, ValidName n ∧ bytes = wire n ++ rest ∧ dnameValid bytes maxlen = wireLen n := by
  rw [dnameValid] at h0 ⊢
  split at h0
  · exact absurd rfl h0
  next hz =>
    obtain ⟨n, rest, hlab, hbytes, heq, hle⟩ :=
      dnameValidLoop_name (by omega) (by omega) h0
    rw [if_neg hz, heq, Nat.zero_add]
    rw [Nat.zero_add] at hle
    exact ⟨n, rest, ⟨fun l hl => (hlab l hl).1, fun l hl => (hlab l hl).2, hle⟩, hbytes, rfl⟩

def labOrd (a b : Label) : Ordering :=
  compareLex (compareOn List.length) (List.compareLex compare) a b

def canonOrd (a b : Label) : Ordering := a.compareLex compare b

instance : TransCmp labOrd :=
  inferInstanceAs (TransCmp (compareLex (compareOn List.length) (List.compareLex compare)))

instance : LawfulEqCmp labOrd where
  compare_self := @ReflCmp.compare_self _ (compareLex (compareOn List.length)
    (List.compareLex (compare (α := UInt8)))) _
  eq_of_compare h := LawfulEqCmp.eq_of_compare (compareLex_eq_eq.1 h).2

instance : TransCmp canonOrd :=
  inferInstanceAs (TransCmp (List.compareLex (compare (α := UInt8))))

instance : LawfulEqCmp canonOrd :=
  inferInstanceAs (LawfulEqCmp (List.compareLex (compare (α := UInt8))))

theorem memlowercmp_eq (p1 p2 : List UInt8) (h1 : len ≤ p1.length) (h2 : len ≤ p2.length) :
    memlowercmp p1 p2 len =
      List.compareLex compare (lowerLabel (p1.take len)) (lowerLabel (p2.take len)) := by
  induction len generalizing p1 p2 with
  | zero => cases p1 <;> cases p2 <;> rfl
  | succ len ih =>
    cases p1 with
    | nil => simp at h1
    | cons a p1 =>
      cases p2 with
      | nil => simp at h2
      | cons b p2 =>
        have ih := ih p1 p2 (by simpa using h1) (by simpa using h2)
        simp only [memlowercmp, List.take_succ_cons, lowerLabel, List.map_cons,
          List.compareLex_cons_cons]
        by_cases hab : tolower a = tolower b
        · simp only [hab, ne_eq, not_true_eq_false, and_false, ↓reduceIte, ih, ReflCmp.compare_self]
          rfl
        have hne : a ≠ b := fun h => hab (congrArg tolower h)
        simp only [ne_eq, hne, not_false_eq_true, hab, and_self, ↓reduceIte]
        rcases hc : compare (tolower a) (tolower b) with _ | _ | _
        · simp [Std.compare_eq_lt.1 hc]
        · exact absurd (Std.compare_eq_iff_eq.1 hc) hab
        · have hnl : ¬ tolower a < tolower b := fun hlt => by
            have := Std.compare_eq_lt.2 hlt
            rw [hc] at this
            cases this
          simp [hnl]

theorem labelCmp_eq (l1 l2 : Label) : labelCmp l1 l2 = labOrd (lowerLabel l1) (lowerLabel l2) := by
  simp only [labelCmp, labOrd, compareLex, compareOn, length_lowerLabel]
  by_cases h : l1.length = l2.length
  · simp only [h, ne_eq, not_true_eq_false, ↓reduceIte, ReflCmp.compare_self]
    rw [memlowercmp_eq l1 l2 (Nat.le_of_eq h.symm) le_rfl, take_length, ← h, take_length]
    rfl
  · simp only [ne_eq, h, not_false_eq_true, ↓reduceIte]
    rcases Nat.lt_or_gt_of_ne h with hlt | hgt
    · simp [hlt, Nat.compare_eq_lt.2 hlt]
    · simp [Nat.not_lt.2 (Nat.le_of_lt hgt), Nat.compare_eq_gt.2 hgt]

theorem memcanoncmp_eq (l1 l2 : Label) :
    memcanoncmp l1 l2 = canonOrd (lowerLabel l1) (lowerLabel l2) := by
  have hc := memlowercmp_eq l1 l2 (Nat.min_le_left ..) (Nat.min_le_right ..)
  rw [canonOrd, compareLex_take_min, length_lowerLabel, length_lowerLabel, lowerLabel, lowerLabel,
    ← map_take, ← map_take, ← lowerLabel, ← lowerLabel, ← hc, memcanoncmp]
  cases memlowercmp l1 l2 (min l1.length l2.length) with
  | eq => exact (Nat.compare_eq_ite_lt _ _).symm
  | lt => rfl
  | gt => rfl

/-- The lowercased labels of a name from the root down; ancestors are prefixes. -/
def key (n : Name) : List Label := (lowerName n).reverse

@[simp] theorem length_key (n : Name) : (key n).length = n.length := by
  simp [key]

theorem key_cons : key (l :: n) = key n ++ [lowerLabel l] := by
  simp [key, lowerName]

theorem key_drop : key (n.drop k) = (key n).take (n.length - k) := by
  have hl := length_lowerName n
  rw [key, key, take_reverse, hl, lowerName, map_drop]
  by_cases h : k ≤ n.length
  · rw [Nat.sub_sub_self h]
    rfl
  · rw [drop_of_length_le (by simpa using Nat.le_of_not_le h),
      drop_of_length_le (by rw [hl]; omega)]

theorem key_injective_iff : key n = key m ↔ lowerName n = lowerName m := by
  simp [key]

section compare
variable {cmp ord : Label → Label → Ordering} [TransCmp ord] [LawfulEqCmp ord]

omit [TransCmp ord] in
theorem compareLex_append_ne {a b c d : List Label} (hl : a.length = b.length) (hne : a ≠ b) :
    (a ++ c).compareLex ord (b ++ d) = a.compareLex ord b := by
  rw [compareLex_append hl]
  cases hc : a.compareLex ord b with
  | eq => exact absurd (LawfulEqCmp.eq_of_compare hc) hne
  | lt => rfl
  | gt => rfl

theorem commonLen_append_ne {a b : List Label} (hl : a.length = b.length) (hne : a ≠ b) :
    commonLen (a ++ c) (b ++ d) = commonLen a b := by
  induction a generalizing b with
  | nil => cases b with
    | nil => exact absurd rfl hne
    | cons y b => simp at hl
  | cons x a ih =>
    cases b with
    | nil => simp at hl
    | cons y b =>
      simp only [cons_append, commonLen]
      split
      next h =>
        subst h
        rw [ih (by simpa using hl) (fun h => hne (by rw [h]))]
      next => rfl

theorem commonLen_append_left (p a b : List Label) :
    commonLen (p ++ a) (p ++ b) = p.length + commonLen a b := by
  induction p with
  | nil => simp
  | cons x p ih => simp only [cons_append, commonLen, ↓reduceIte, ih, length_cons]; omega

omit [TransCmp ord] in
theorem labLoop_spec (hcmp : ∀ l1 l2, cmp l1 l2 = ord (lowerLabel l1) (lowerLabel l2))
    (d1 d2 : Name) (hl : d1.length = d2.length) :
    labLoop cmp (d1.length + 1) d1 d2 diff m =
      if key d1 = key d2 then (diff, m)
      else ((key d1).compareLex ord (key d2), commonLen (key d1) (key d2) + 2) := by
  induction d1 generalizing d2 diff m with
  | nil =>
    cases d2 with
    | nil => simp [labLoop]
    | cons l2 d2 => simp at hl
  | cons l1 d1 ih =>
    cases d2 with
    | nil => simp at hl
    | cons l2 d2 =>
      have hl' : d1.length = d2.length := by simpa using hl
      have hk : (key d1).length = (key d2).length := by simpa using hl'
      simp only [length_cons, labLoop, hcmp, key_cons]
      by_cases he : key d1 = key d2
      · rw [he, compareLex_append_left, commonLen_append_left]
        by_cases hll : lowerLabel l1 = lowerLabel l2
        · simp only [hll, ReflCmp.compare_self, ↓reduceIte]
          rw [ih d2 hl', if_pos he]
        have hc : ∀ c, ord (lowerLabel l1) (lowerLabel l2) = c → c ≠ .eq := by
          intro c hc hce
          exact hll (LawfulEqCmp.eq_of_compare (hc.trans hce))
        have hcl : commonLen [lowerLabel l1] [lowerLabel l2] = 0 := by
          simp [commonLen, hll]
        rw [if_neg (fun h => hll (by simpa using h)), hcl, length_key, ← hl']
        rw [List.compareLex_cons_cons]
        rcases hcc : ord (lowerLabel l1) (lowerLabel l2) with _ | _ | _
        · simp only [ih d2 hl', if_pos he]; rfl
        · exact absurd rfl (hc _ hcc)
        · simp only [ih d2 hl', if_pos he]; rfl
      · have happ : key d1 ++ [lowerLabel l1] ≠ key d2 ++ [lowerLabel l2] := by
          intro h
          exact he (append_inj h hk).1
        rw [if_neg happ, compareLex_append_ne hk he, commonLen_append_ne hk he]
        split <;> rw [ih d2 hl', if_neg he]

theorem labCmpWith_spec (hcmp : ∀ l1 l2, cmp l1 l2 = ord (lowerLabel l1) (lowerLabel l2)) :
    labCmpWith cmp d1 (dnameCountLabels d1) d2 (dnameCountLabels d2) =
      ((key d1).compareLex ord (key d2), commonLen (key d1) (key d2) + 1) := by
  have h1 : (d1.drop (d1.length - d2.length)).length = min d1.length d2.length := by
    rw [length_drop]; omega
  have h2 : (d2.drop (d2.length - d1.length)).length = min d1.length d2.length := by
    rw [length_drop]; omega
  have hmin : min (d1.length + 1) (d2.length + 1) = min d1.length d2.length + 1 := by omega
  have hk1 : key (d1.drop (d1.length - d2.length)) = (key d1).take (min d1.length d2.length) := by
    rw [key_drop]; congr 1; omega
  have hk2 : key (d2.drop (d2.length - d1.length)) = (key d2).take (min d1.length d2.length) := by
    rw [key_drop]; congr 1; omega
  simp only [labCmpWith, dnameCountLabels, Nat.add_sub_add_right, hmin]
  rw [← h1, labLoop_spec hcmp _ _ (h1.trans h2.symm), hk1, hk2]
  -- either the shorter name is an ancestor of the other, or they differ before its end
  have hlen : ∀ d, (key d).length = d.length := length_key
  have hc := compareLex_take_min (c := ord) (key d1) (key d2)
  rw [hlen, hlen] at hc
  by_cases he : (key d1).take (min d1.length d2.length) = (key d2).take (min d1.length d2.length)
  · rw [if_pos he, h1, hc]
    refine Prod.ext ?_ ?_
    · simp only [gt_iff_lt, Nat.add_lt_add_iff_right, Nat.compare_eq_ite_lt, Ordering.then]
      grind
    · have hle := commonLen_le_left (key d1) (key d2)
      have hle' := commonLen_le_right (key d1) (key d2)
      have hge := length_le_commonLen ( take_prefix _ (key d1)) (he ▸ take_prefix _ (key d2))
      rw [length_take, hlen] at hge
      rw [hlen] at hle hle'
      omega
  · have hm := commonLen_append_ne
      (c := (key d1).drop (min d1.length d2.length))
      (d := (key d2).drop (min d1.length d2.length)) (by simp) he
    rw [take_append_drop, take_append_drop] at hm
    rw [if_neg he, hc, hm]
    cases hcc : ((key d1).take (min d1.length d2.length)).compareLex ord
        ((key d2).take (min d1.length d2.length)) with
    | eq => exact absurd (LawfulEqCmp.eq_of_compare hcc) he
    | lt => rfl
    | gt => rfl

end compare

section
variable (d1 d2 : Name)

theorem dnameLabCmp_spec :
    dnameLabCmp d1 (dnameCountLabels d1) d2 (dnameCountLabels d2) =
      ((key d1).compareLex labOrd (key d2), commonLen (key d1) (key d2) + 1) :=
  labCmpWith_spec labelCmp_eq

theorem dnameCanonicalCompare_spec :
    dnameCanonicalCompare d1 d2 = (key d1).compareLex canonOrd (key d2) := by
  rw [dnameCanonicalCompare, dnameCanonLabCmp, labCmpWith_spec memcanoncmp_eq]

theorem queryDnameCompare_eq_iff : queryDnameCompare d1 d2 = .eq ↔ lowerName d1 = lowerName d2 := by
  induction d1 generalizing d2 with
  | nil => cases d2 <;> simp [queryDnameCompare, lowerName]
  | cons l1 d1 ih =>
    cases d2 with
    | nil => simp [queryDnameCompare, lowerName]
    | cons l2 d2 =>
      have hlab := labelCmp_eq l1 l2
      simp only [labelCmp] at hlab
      simp only [queryDnameCompare, lowerName, map_cons, cons.injEq]
      split
      next hl =>
        constructor
        · intro h; split at h <;> cases h
        · rintro ⟨h, -⟩
          exact absurd (by simpa using congrArg length h) hl
      next hl =>
        rw [if_neg hl] at hlab
        rw [hlab]
        split
        next he =>
          rw [ih]
          exact ⟨fun h => ⟨LawfulEqCmp.eq_of_compare he, h⟩, fun h => h.2⟩
        next hne =>
          constructor
          · intro h; exact absurd h hne
          · rintro ⟨h, -⟩
            exact absurd (h ▸ ReflCmp.compare_self) hne

theorem commonLen_eq_count_iff :
    (commonLen (key d1) (key d2) + 1 == dnameCountLabels d2) = true ↔ key d2 <+: key d1 := by
  rw [beq_iff_eq, commonLen_comm, dnameCountLabels, Nat.add_right_cancel_iff,
    ← commonLen_eq_length_iff, length_key]

theorem dnameStrictSubdomainC_iff :
    dnameStrictSubdomainC d1 d2 = true ↔ key d2 <+: key d1 ∧ d2.length < d1.length := by
  have h1 : dnameCountLabels d1 = d1.length + 1 := rfl
  have h2 : dnameCountLabels d2 = d2.length + 1 := rfl
  simp only [dnameStrictSubdomainC, dnameStrictSubdomain, dnameLabCmp_spec]
  by_cases hl : d2.length < d1.length
  · rw [if_neg (by omega)]
    split
    next => rw [commonLen_eq_count_iff, and_iff_left hl]
    next hgt =>
      refine iff_of_false Bool.false_ne_true fun h => hgt ?_
      exact @OrientedCmp.gt_of_lt _ (List.compareLex labOrd) _ _ _
        (prefix_lt h.1 (by simpa using hl))
  · rw [if_pos (by omega)]
    simp [hl]

theorem dnameSubdomainC_iff : dnameSubdomainC d1 d2 = true ↔ key d2 <+: key d1 := by
  have h1 : dnameCountLabels d1 = d1.length + 1 := rfl
  have h2 : dnameCountLabels d2 = d2.length + 1 := rfl
  simp only [dnameSubdomainC, dnameLabCmp_spec]
  by_cases hl : d2.length ≤ d1.length
  · rw [if_neg (by omega)]
    split
    next hlt =>
      exact iff_of_false Bool.false_ne_true fun hp =>
        OrientedCmp.not_lt_of_isLE (prefix_isLE (c := labOrd) hp) hlt
    next => exact commonLen_eq_count_iff d1 d2
  · rw [if_pos (by omega)]
    simp only [Bool.false_eq_true, false_iff]
    intro hp
    have := hp.length_le
    simp only [length_key] at this
    omega

theorem key_dnameGetSharedTopdomain :
    key (dnameGetSharedTopdomain d1 d2) = (key d1).take (commonLen (key d1) (key d2)) := by
  have hle : commonLen (key d1) (key d2) ≤ d1.length := by
    simpa using commonLen_le_left (key d1) (key d2)
  have h1 : dnameCountLabels d1 = d1.length + 1 := rfl
  simp only [dnameGetSharedTopdomain, dnameLabCmp_spec, dnameRemoveLabels, key_drop]
  congr 1
  omega

def labCompare : Ordering × Nat :=
  dnameLabCmp d1 (dnameCountLabels d1) d2 (dnameCountLabels d2)

end

/-- The last `k` labels, the root label among them, are the same up to letter case. -/
def ShareLabels (k : Nat) (d1 d2 : Name) : Prop :=
  1 ≤ k ∧ k ≤ dnameCountLabels d1 ∧ k ≤ dnameCountLabels d2 ∧
    lowerName (d1.drop (dnameCountLabels d1 - k)) = lowerName (d2.drop (dnameCountLabels d2 - k))

theorem shareLabels_iff :
    ShareLabels (k + 1) d1 d2 ↔
      k ≤ d1.length ∧ k ≤ d2.length ∧ (key d1).take k = (key d2).take k := by
  simp only [ShareLabels, dnameCountLabels, Nat.add_sub_add_right, ← key_injective_iff, key_drop]
  constructor
  · rintro ⟨-, h1, h2, h⟩
    rw [Nat.sub_sub_self (by omega), Nat.sub_sub_self (by omega)] at h
    exact ⟨by omega, by omega, h⟩
  · rintro ⟨h1, h2, h⟩
    rw [Nat.sub_sub_self h1, Nat.sub_sub_self h2]
    exact ⟨by omega, by omega, by omega, h⟩

theorem shareLabels_commonLen :
    ShareLabels (commonLen (key d1) (key d2) + 1) d1 d2 ∧
      ∀ k, ShareLabels k d1 d2 → k ≤ commonLen (key d1) (key d2) + 1 := by
  refine ⟨?_, fun k hk => ?_⟩
  · rw [shareLabels_iff, ← length_key d1, ← length_key d2]
    exact ⟨commonLen_le_left _ _, commonLen_le_right _ _, take_commonLen _ _⟩
  · obtain ⟨k, rfl⟩ : ∃ j, k = j + 1 := ⟨k - 1, by have := hk.1; omega⟩
    obtain ⟨h1, h2, h⟩ := shareLabels_iff.1 hk
    have hle := length_le_commonLen ( take_prefix k (key d1)) (h ▸ take_prefix k (key d2))
    rw [length_take, length_key] at hle
    omega

/-- `dname_canonical_compare` is the order of RFC 4034, section 6.1. -/
theorem dname_canonical_compare_rfc4034 (d1 d2 : Name) :
    dnameCanonicalCompare d1 d2 = (key d1).compareLex (List.compareLex compare) (key d2) ∧
    let mlabs := (dnameCanonLabCmp d1 (dnameCountLabels d1) d2 (dnameCountLabels d2)).2
    ShareLabels mlabs d1 d2 ∧ ∀ k, ShareLabels k d1 d2 → k ≤ mlabs := by
  refine ⟨dnameCanonicalCompare_spec d1 d2, ?_⟩
  rw [dnameCanonLabCmp, labCmpWith_spec memcanoncmp_eq]
  exact shareLabels_commonLen

/-- `dname_lab_cmp` is a total order up to case, with the subdomains of a name together. -/
theorem dnameLabCmp_order :
    TransCmp (fun d1 d2 => (labCompare d1 d2).1) ∧
    (∀ d1 d2, ((labCompare d1 d2).1 = .eq ↔ queryDnameCompare d1 d2 = .eq) ∧
      ShareLabels (labCompare d1 d2).2 d1 d2 ∧
      ∀ k, ShareLabels k d1 d2 → k ≤ (labCompare d1 d2).2) ∧
    ∀ d x e, dnameSubdomainC e d = true → (labCompare d x).1 = .lt → (labCompare x e).1 = .lt →
      dnameSubdomainC x d = true := by
  simp only [labCompare, dnameLabCmp_spec]
  refine ⟨?_, fun d1 d2 => ⟨?_, shareLabels_commonLen⟩, fun d x e he hdx hxe => ?_⟩
  · exact
      { eq_swap := @fun a b => @OrientedCmp.eq_swap _ (List.compareLex labOrd) _ (key a) (key b)
        isLE_trans := @fun a b c =>
          @TransCmp.isLE_trans _ (List.compareLex labOrd) _ (key a) (key b) (key c) }
  · rw [queryDnameCompare_eq_iff, ← key_injective_iff]
    exact LawfulEqCmp.compare_eq_iff_eq
  · rw [dnameSubdomainC_iff] at he ⊢
    exact prefix_of_between (prefix_refl _) he (by rw [hdx]; rfl) (by rw [hxe]; rfl)

/-- A name is above both names just when it is above their shared top domain. -/
theorem dname_get_shared_topdomain_deepest (d1 d2 d : Name) :
    dnameSubdomainC (dnameGetSharedTopdomain d1 d2) d = true ↔
      dnameSubdomainC d1 d = true ∧ dnameSubdomainC d2 d = true := by
  simp only [dnameSubdomainC_iff, key_dnameGetSharedTopdomain]
  constructor
  · intro h
    have h2 := h
    rw [take_commonLen] at h2
    exact ⟨h.trans ( take_prefix _ _), h2.trans ( take_prefix _ _)⟩
  · rintro ⟨h1, h2⟩
    exact prefix_take_iff.2 ⟨h1, length_le_commonLen h1 h2⟩

/-- In the canonical order, nothing stands between two names below a name but names below it. -/
theorem dname_canonical_compare_convex (d1 d2 d top : Name) (hd1 : dnameSubdomainC d1 top = true)
    (hd2 : dnameSubdomainC d2 top = true) (h1 : (dnameCanonicalCompare d1 d).isLE)
    (h2 : (dnameCanonicalCompare d d2).isLE) : dnameSubdomainC d top = true := by
  rw [dnameSubdomainC_iff] at hd1 hd2 ⊢
  rw [dnameCanonicalCompare_spec] at h1 h2
  exact prefix_of_between hd1 hd2 h1 h2

theorem dname_canonical_compare_convex_letters :
    dnameSubdomainC [[66], [97]] [[97]] = true :=
  dname_canonical_compare_convex [[97]] [[99], [97]] _ _ (by decide) (by decide) (by decide) (by decide)

end CwdGate

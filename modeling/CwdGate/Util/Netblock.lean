import CwdGate.Storage.Dnstree

namespace CwdGate.Util
open Lib List Dnstree

def isspace (c : Char) : Bool := c = ' ' ∨ ('\t' ≤ c ∧ c ≤ '\r')

/-- `strtol` in base 10, kept within a long. -/
def strtol (text : List Char) : Int :=
  let signed := text.dropWhile isspace
  let neg := signed.head? = some '-'
  let body := if neg ∨ signed.head? = some '+' then signed.tail else signed
  let value : Int := (body.takeWhile Char.isDigit).foldl (fun n c => n * 10 + (c.toNat - '0'.toNat)) 0
  if neg then max (-2 ^ 63) (-value) else min (2 ^ 63 - 1) value

/-- `atoi`: the long is cut to an int. -/
def atoi (text : List Char) : Int := (strtol text).bmod (2 ^ 32)

/-- `inet_pton`. Texts of addresses have less than 46 characters (`INET6_ADDRSTRLEN`). -/
structure InetPton where
  pton : AddressFamily → List Char → Option SockAddr
  family : pton f text = some addr → addr.family = f
  short : pton f text = some addr → text.length < 46

def strIsIp6 (str : List Char) : Bool := ':' ∈ str

def ipstrtoaddr (inet : InetPton) (ip : List Char) : Option SockAddr :=
  if strIsIp6 ip then
    let name := ip.takeWhile (· ≠ '%')
    if '%' ∈ ip ∧ name.length ≥ 128 then none else inet.pton .inet6 name
  else inet.pton .inet ip

def maskOctet (net : Int) : UInt8 :=
  [0x0, 0x80, 0xc0, 0xe0, 0xf0, 0xf8, 0xfc, 0xfe].getD (net % 8).toNat 0

/-- What `addr_mask` leaves of the octet at an index. -/
def maskAt (net : Int) (i : Nat) (s : UInt8) : UInt8 :=
  if i > net.tdiv 8 then 0 else if i = net.tdiv 8 then s &&& maskOctet net else s

/-- `addr_mask`. What it writes in front of the address for a negative length is left out. -/
def addrMask (addr : SockAddr) (net : Int) : SockAddr :=
  if net ≥ addr.family.maxNet then addr
  else
    { addr with
      addr := addr.addr.mapIdx (maskAt net)
      size := by rw [length_mapIdx, addr.size] }

def netblockstrtoaddr (inet : InetPton) (str : List Char) : Option (SockAddr × Int) :=
  let max : Int := if strIsIp6 str then 128 else 32
  if '/' ∈ str then
    let text := (str.dropWhile (· ≠ '/')).tail
    let net := atoi text
    if net > max then none
    else if net = 0 ∧ text ≠ ['0'] then none
    else
      let buf := (str.take 63).takeWhile (· ≠ '/')
      (ipstrtoaddr inet buf).map fun addr => (addrMask addr net, net)
  else (ipstrtoaddr inet str).map (·, max)

theorem natBits_mask {n : Nat} (hn : n < 8) :
    natBits 8 (b &&& maskOctet n).toNat =
      (natBits 8 b.toNat).take n ++ replicate (8 - n) false := by
  have hall : ∀ b : UInt8, ∀ k : Fin 8, natBits 8 (b &&& maskOctet k.val).toNat =
      (natBits 8 b.toNat).take k ++ replicate (8 - k) false := forall_octet (by decide +kernel)
  exact hall b ⟨n, hn⟩

theorem maskAt_eq (net i : Nat) :
    maskAt net i s = if i > net / 8 then 0 else if i = net / 8 then s &&& maskOctet net else s := by
  have hdiv : (net : Int).tdiv 8 = (net / 8 : Nat) := rfl
  simp only [maskAt, hdiv, gt_iff_lt, Int.ofNat_lt, Int.natCast_inj]

theorem maskAt_succ (net i : Nat) (s : UInt8) :
    maskAt (net + 8 : Nat) (i + 1) s = maskAt net i s := by
  have hmask : maskOctet (net + 8 : Nat) = maskOctet net := by
    rw [maskOctet, maskOctet]
    congr 2
    omega
  have hdiv : (net + 8) / 8 = net / 8 + 1 := by omega
  simp only [maskAt_eq, hmask, hdiv, gt_iff_lt, Nat.add_lt_add_iff_right, Nat.add_right_cancel_iff]

theorem byteBits_zeros : byteBits (replicate n 0) = replicate (8 * n) false := by
  induction n with
  | zero => rfl
  | succ n ih =>
    rw [replicate_succ, byteBits_cons, ih, Nat.mul_succ, Nat.add_comm, ← replicate_append_replicate]
    rfl

theorem byteBits_mask (net : Nat) (h : net < 8 * octets.length) :
    byteBits (octets.mapIdx (maskAt net)) =
      (byteBits octets).take net ++ replicate (8 * octets.length - net) false := by
  induction octets generalizing net with
  | nil => cases h
  | cons b octets ih =>
    rw [length_cons] at h ⊢
    rw [mapIdx_cons, byteBits_cons, byteBits_cons]
    rcases Nat.lt_or_ge net 8 with h8 | h8
    · have hrest : (octets.mapIdx fun i s => maskAt net (i + 1) s) = replicate octets.length 0 := by
        refine eq_replicate_iff.2 ⟨length_mapIdx, fun x hx => ?_⟩
        obtain ⟨i, _, rfl⟩ := mem_mapIdx.1 hx
        rw [maskAt_eq, if_pos (by omega)]
      rw [maskAt_eq, if_neg (by omega), if_pos (by omega), hrest, byteBits_zeros, natBits_mask h8,
        take_append_of_le_length (by rw [length_natBits]; omega), append_assoc,
        replicate_append_replicate]
      congr 2
      omega
    · obtain ⟨m, rfl⟩ := Nat.exists_eq_add_of_le' h8
      have hrest := funext₂ (maskAt_succ m)
      rw [hrest, ih m (by omega), maskAt_eq, if_neg (by omega), if_neg (by omega), take_append,
        length_natBits, take_of_length_le (l := natBits 8 b.toNat) (by rw [length_natBits]; omega),
        Nat.add_sub_cancel, append_assoc, Nat.mul_succ, Nat.add_sub_add_right]

theorem addrMask_bits (addr : SockAddr) (net : Nat) (h : net ≤ addr.family.maxNet) :
    byteBits (addrMask addr net).addr =
      (byteBits addr.addr).take net ++ replicate (addr.family.maxNet - net) false := by
  rw [addrMask]
  split
  case isTrue hmax =>
    have heq : net = addr.family.maxNet := by omega
    rw [heq, ← addr.length_bits, take_length, Nat.sub_self]
    simp
  case isFalse hmax =>
    have hsize := addr.family.maxNet_eq
    rw [hsize, ← addr.size]
    exact byteBits_mask _ (by rw [addr.size]; omega)

theorem ipstrtoaddr_family (h : ipstrtoaddr inet ip = some addr) :
    addr.family.maxNet = if ':' ∈ ip then 128 else 32 := by
  simp only [ipstrtoaddr, strIsIp6, decide_eq_true_eq] at h
  split at h
  case isTrue hip =>
    split at h
    · cases h
    · rw [if_pos hip, inet.family h]
      rfl
  case isFalse hip =>
    rw [if_neg hip, inet.family h]
    rfl

/-- The text of an address that is accepted was not cut. -/
theorem ipstrtoaddr_take (h : ipstrtoaddr inet (ip.take 63) = some addr) :
    ipstrtoaddr inet ip = some addr := by
  by_cases hlen : ip.length ≤ 63
  · rwa [take_of_length_le hlen] at h
  simp only [ipstrtoaddr, strIsIp6, ← take_takeWhile, decide_eq_true_eq] at h ⊢
  split at h
  case isTrue hip =>
    split at h
    · cases h
    have hshort := inet.short h
    rw [length_take] at hshort
    rw [take_of_length_le (by omega)] at h
    rw [if_pos (mem_of_mem_take hip), if_neg (by omega), h]
  case isFalse hip =>
    have := inet.short h
    rw [length_take] at this
    omega

/-- The address of a text, with the bits behind a prefix set to zero. -/
def IsNetblock (inet : InetPton) (ip : List Char) (addr : SockAddr) (net : Int) : Prop :=
  ∃ written, ipstrtoaddr inet ip = some written ∧ addr.family = written.family ∧
    0 ≤ net ∧ net ≤ addr.family.maxNet ∧ byteBits addr.addr =
      (byteBits written.addr).take net.toNat ++ replicate (addr.family.maxNet - net.toNat) false

/-- The length behind the slash is one for the address before it, as `atoi` reads it. -/
def LengthOk (str : List Char) : Prop :=
  '/' ∈ str → 0 ≤ atoi (str.dropWhile (· ≠ '/')).tail ∧
    (':' ∈ str.takeWhile (· ≠ '/') ∨ atoi (str.dropWhile (· ≠ '/')).tail ≤ 32)

def oneInet : InetPton where
  pton f text :=
    if f = .inet ∧ text = "10.1.2.3".toList then some ⟨.inet, [10, 1, 2, 3], rfl⟩ else none
  family h := by
    split at h
    case isTrue hf =>
      cases h
      exact hf.1.symm
    case isFalse => cases h
  short h := by
    split at h
    case isTrue hf =>
      rw [hf.2]
      decide
    case isFalse => cases h

end CwdGate.Util

import CwdGate.Encode.Msgencode

namespace CwdGate.Encode
open Lib List

/-- What the encoder leaves alone, whether a step succeeds or not. -/
structure Advance (s t : EncState) : Prop where
  limit : t.pkt.limit = s.pkt.limit
  position : s.pkt.position ≤ t.pkt.position
  data : ∀ i < s.pkt.position, t.pkt.data i = s.pkt.data i
  names : ∃ new, t.names = s.names ++ new ∧ ∀ e ∈ new, s.pkt.position ≤ e.1
  ptrs : ∃ new, t.ptrs = s.ptrs ++ new ∧ ∀ e ∈ new, e.2 ≤ 0x3fff ∧ e.2 < e.1

def EncState.counts (s : EncState) : Section → UInt16
  | .answer => s.ancount
  | .authority => s.nscount
  | .additional => s.arcount

/-- A step that is not the end of an RRset: the tree only grows and nothing is counted. -/
structure Grow (s t : EncState) : Prop extends Advance s t where
  keys : ∀ k ∈ s.tree.keys, k ∈ t.tree.keys
  counts : t.counts = s.counts

theorem Advance.refl (s : EncState) : Advance s s where
  limit := rfl
  position := le_rfl
  data _ _ := rfl
  names := ⟨[], by simp, nofun⟩
  ptrs := ⟨[], by simp, nofun⟩

theorem Advance.trans (s t u : EncState) (h : Advance s t) (h' : Advance t u) : Advance s u where
  limit := h'.limit.trans h.limit
  position := h.position.trans h'.position
  data i hi := (h'.data i (lt_of_lt_of_le hi h.position)).trans (h.data i hi)
  names := by
    obtain ⟨n1, e1, p1⟩ := h.names
    obtain ⟨n2, e2, p2⟩ := h'.names
    exact ⟨n1 ++ n2, by rw [e2, e1, append_assoc],
      forall_mem_append.2 ⟨p1, fun e he => h.position.trans (p2 e he)⟩⟩
  ptrs := by
    obtain ⟨n1, e1, p1⟩ := h.ptrs
    obtain ⟨n2, e2, p2⟩ := h'.ptrs
    exact ⟨n1 ++ n2, by rw [e2, e1, append_assoc], forall_mem_append.2 ⟨p1, p2⟩⟩

theorem Grow.refl (s : EncState) : Grow s s where
  toAdvance := Advance.refl s
  keys _ h := h
  counts := rfl

theorem Grow.trans (s t u : EncState) (h : Grow s t) (h' : Grow t u) : Grow s u where
  toAdvance := Advance.trans s t u h.toAdvance h'.toAdvance
  keys k hk := h'.keys k (h.keys k hk)
  counts := h'.counts.trans h.counts

theorem Grow.of_pkt {s : EncState} {pkt : Sbuffer} (hl : pkt.limit = s.pkt.limit)
    (hp : s.pkt.position ≤ pkt.position) (hd : ∀ i < s.pkt.position, pkt.data i = s.pkt.data i) :
    Grow s { s with pkt := pkt } where
  limit := hl
  position := hp
  data := hd
  names := ⟨[], by simp, nofun⟩
  ptrs := ⟨[], by simp, nofun⟩
  keys _ h := h
  counts := rfl

theorem Grow.of_tree (h : ∀ k ∈ s.tree.keys, k ∈ tree.keys) :
    Grow s { s with tree := tree, region := region } where
  limit := rfl
  position := le_rfl
  data _ _ := rfl
  names := ⟨[], by simp, nofun⟩
  ptrs := ⟨[], by simp, nofun⟩
  keys := h
  counts := rfl

section rules
variable {α : Type} {s : EncState}

theorem spec_bind (hx : Prog.Spec Grow x s Q)
    (hf : ∀ a t, Grow s t → Q a t → Prog.Spec Grow (f a) t Q') :
    Prog.Spec Grow (x >>= f) s Q' := Prog.Spec.bind Grow.trans hx hf

theorem spec_pure (h : Q a s) : Prog.Spec Grow (pure a : Enc α) s Q := Prog.Spec.pure Grow.refl h

theorem spec_need : Prog.Spec Grow (need n) s fun _ t => n ≤ s.pkt.remaining ∧ s = t :=
  (Prog.Spec.require Grow.refl _ _).mono fun _ _ _ h => ⟨of_decide_eq_true h.1, h.2⟩

theorem spec_emit :
    Prog.Spec Grow (emit bytes) s fun _ t => t = { s with pkt := s.pkt.write bytes } :=
  Prog.Spec.update <| Grow.of_pkt rfl (Nat.le_add_right _ _) fun _ hi =>
    Sbuffer.data_write_of_lt hi

theorem spec_skip (count : Nat) :
    Prog.Spec Grow (Prog.update fun s => { s with pkt := s.pkt.skip count } : Enc Unit) s
      fun _ t => t = { s with pkt := s.pkt.skip count } :=
  Prog.Spec.update <| @Grow.of_pkt s (s.pkt.skip count) rfl (Nat.le_add_right _ _) fun _ _ => rfl

theorem spec_bind_read {f : EncState → α} {g : α → Enc β} (h : Prog.Spec Grow (g (f s)) s Q) :
    Prog.Spec Grow (Prog.read f >>= g) s Q := h

theorem spec_bind_need {g : Unit → Enc α} (h : n ≤ s.pkt.remaining → Prog.Spec Grow (g ()) s Q) :
    Prog.Spec Grow (need n >>= g) s Q := by
  refine spec_bind spec_need ?_
  rintro _ _ - ⟨hn, rfl⟩
  exact h hn

theorem spec_regionalAlloc : Prog.Spec Grow regionalAlloc s
    fun _ t => t = { s with region := fun i => s.region (i + 1) } := by
  unfold Prog.Spec Prog.Keeps regionalAlloc
  split
  · refine ⟨Grow.of_tree fun _ h => h, ?_⟩
    rintro _ _ ⟨⟩
    rfl
  · exact ⟨Grow.refl s, nofun⟩

theorem spec_recordPtr (h : target ≤ 0x3fff) (hlt : target < pos) :
    Prog.Spec Grow (recordPtr pos target) s
      fun _ t => t = { s with ptrs := s.ptrs ++ [(pos, target)] } := by
  refine Prog.Spec.update ⟨⟨rfl, le_rfl, fun _ _ => rfl, ⟨[], by simp, nofun⟩, ?_⟩,
    fun _ h => h, rfl⟩
  exact ⟨[(pos, target)], rfl, by simpa using ⟨h, hlt⟩⟩

theorem spec_recordName :
    Prog.Spec Grow (recordName s.pkt.position d) s
      fun _ t => t = { s with names := s.names ++ [(s.pkt.position, d)] } := by
  refine Prog.Spec.update ⟨⟨rfl, le_rfl, fun _ _ => rfl, ?_, ⟨[], by simp, nofun⟩⟩,
    fun _ h => h, rfl⟩
  exact ⟨[(s.pkt.position, d)], rfl, by simp⟩

end rules

section
variable (H : Nat → Prop) (s : EncState)

/-- The octets that no later step changes: those written behind the header, outside of `H`. -/
def frozen (i : Nat) : Prop :=
  12 ≤ i ∧ i < s.pkt.position ∧ ¬H i

/-- The valid name `d` up to letter case stands at `pos` and ends at `next`. -/
def NameEnd (pos : Nat) (d : Name) (next : Nat) : Prop :=
  ValidName d ∧ ∃ m hops, lowerName m = lowerName d ∧ hops ≤ m.length + 1 ∧
    NameAt (frozen H s) s.pkt.data pos m hops next

/-- The node's name stands at its offset; one more pointer may be put in front of it. -/
def NodeAt (n : CompressNode) : Prop :=
  n.offset ≤ 0x3fff ∧ ∃ m hops next, lowerName m = lowerName n.dname ∧ hops ≤ m.length ∧
    NameAt (frozen H s) s.pkt.data n.offset m hops next

/-- The first `u` labels of `d` stand uncompressed at `off`, the rest of `d` follows. -/
def LiteralAt (off : Nat) (d : Name) (u next : Nat) : Prop :=
  Holds (frozen H s) s.pkt.data off (wireLabels (d.take u)) ∧
    NameEnd H s (off + (wireLabels (d.take u)).length) (d.drop u) next

end

/-- The compression tree is in shape, and the names of its nodes are where their offsets say. -/
structure TreeInv (H : Nat → Prop) (s : EncState) : Prop where
  start : 12 ≤ s.pkt.position
  hole : ∀ i, H i → i < s.pkt.position
  tree : TreeOk s.tree
  nodes : s.tree.All (NodeAt H s)

def NamesAt (H : Nat → Prop) (s : EncState) : Prop :=
  ∀ e ∈ s.names, ∃ next, NameEnd H s e.1 e.2 next

/-- What is frozen in `s` is frozen and the same in `t`. -/
def Preserves (H H' : Nat → Prop) (s t : EncState) : Prop :=
  ∀ i, frozen H s i → frozen H' t i ∧ t.pkt.data i = s.pkt.data i

section transfer
variable {H : Nat → Prop} {s t : EncState}

theorem Advance.preserves (h : Advance s t) : Preserves H H s t := fun i hi =>
  ⟨⟨hi.1, lt_of_lt_of_le hi.2.1 h.position, hi.2.2⟩, h.data i hi.2.1⟩

theorem NameEnd.transfer {next : Nat} (h : Preserves H H' s t) (hn : NameEnd H s pos d next) :
    NameEnd H' t pos d next := by
  obtain ⟨hd, m, hops, hm, hh, hn⟩ := hn
  exact ⟨hd, m, hops, hm, hh, hn.mono h⟩

theorem NodeAt.transfer (h : Preserves H H' s t) (hn : NodeAt H s n) : NodeAt H' t n := by
  obtain ⟨ho, m, hops, next, hm, hh, hn⟩ := hn
  exact ⟨ho, m, hops, next, hm, hh, hn.mono h⟩

theorem LiteralAt.transfer {next : Nat} (h : Preserves H H' s t)
    (hl : LiteralAt H s off d u next) : LiteralAt H' t off d u next :=
  ⟨hl.1.mono h, hl.2.transfer h⟩

theorem NodeAt.offset_lt (h : NodeAt H s n) : n.offset < s.pkt.position := by
  obtain ⟨-, m, hops, next, -, -, hn⟩ := h
  exact (NameAt.start_mem hn).2.1

theorem TreeInv.transfer (hi : TreeInv H s) (h : Preserves H H' s t)
    (hp : s.pkt.position ≤ t.pkt.position) (hole : ∀ i, H' i → i < t.pkt.position)
    (htree : t.tree = s.tree) : TreeInv H' t where
  start := hi.start.trans hp
  hole := hole
  tree := htree ▸ hi.tree
  nodes := by
    rw [htree]
    exact fun e he n hn => (hi.nodes e he n hn).transfer h

theorem TreeInv.grow (hi : TreeInv H s) (hg : Grow s t) (htree : t.tree = s.tree) : TreeInv H t :=
  hi.transfer hg.preserves hg.position (fun i h => lt_of_lt_of_le (hi.hole i h) hg.position) htree

theorem NamesAt.transfer (hn : NamesAt H s) (h : Preserves H H' s t)
    (hnames : t.names = s.names) : NamesAt H' t := by
  rw [NamesAt, hnames]
  exact fun e he => (hn e he).imp fun _ hn => hn.transfer h

theorem NamesAt.add {next : Nat} (hn : NamesAt H s) (h : Preserves H H' s t)
    (hnames : t.names = s.names ++ [(pos, d)]) (hd : NameEnd H' t pos d next) : NamesAt H' t := by
  rw [NamesAt, hnames, forall_mem_append, forall_mem_singleton]
  exact ⟨fun e he => (hn e he).imp fun _ hn => hn.transfer h, next, hd⟩

end transfer

section store
variable {s : EncState} {d : Name} {p : List CompressNode}
  {insertpt : Option (CompressTree → CompressTree)} {j off : Nat}

/-- The offset of the `i`-th label of a name whose labels stand at `off`. -/
def labelOffset (off : Nat) (d : Name) (i : Nat) : Nat := off + (wireLabels (d.take i)).length

theorem labelOffset_succ (hi : i < d.length) :
    labelOffset off d (i + 1) = labelOffset off d i + (lablen (d.drop i) + 1) := by
  rw [labelOffset, labelOffset, take_add_one, getElem?_eq_getElem hi,
    drop_eq_getElem_cons hi, wireLabels_append]
  simp [lablen, wireLabels, Nat.add_assoc, getElem?_eq_getElem hi]

theorem compressTreeStoreLoop_spec {G : CompressNode → Prop} (ht : TreeOk s.tree)
    (hG : s.tree.All G) (hl : LookupSpec s.tree d p insertpt j)
    (hv : ∀ i < d.length - j, labelOffset off d i ≤ 0x3fff →
      G ⟨d.drop i, d.length + 1 - i, labelOffset off d i⟩)
    {uplabs i : Nat} {vine : List CompressNode} (hi : i + uplabs = d.length - j)
    (hvine : VineOk (key d) (d.length - i) vine) (hGv : ∀ n ∈ vine, G n) :
    Prog.Spec Grow (compressTreeStoreLoop p insertpt uplabs (d.drop i) (d.length + 1 - i)
      (labelOffset off d i) vine) s fun _ t => TreeOk t.tree ∧ t.tree.All G ∧
        ∃ region, t = { s with tree := t.tree, region := region } := by
  induction uplabs generalizing s i vine with
  | zero =>
    unfold compressTreeStoreLoop hangVine
    split
    · have hj : j < d.length := by
        have := hvine.1
        rw [length_key] at *
        omega
      rw [show d.length - i = j by have := hl.le; omega] at hvine
      obtain ⟨h1, h2, h3⟩ := ht.hang hl hj hvine
      refine (Prog.Spec.update (Grow.of_tree fun k hk => (h2 k).2 (.inl hk))).mono ?_
      rintro _ _ - rfl
      exact ⟨h1, h3 G hG hGv, s.region, rfl⟩
    · exact spec_pure ⟨ht, hG, s.region, rfl⟩
  | succ uplabs ih =>
    have hlt : i < d.length := by omega
    unfold compressTreeStoreLoop
    split
    · exact spec_pure ⟨ht, hG, s.region, rfl⟩
    refine spec_bind spec_regionalAlloc ?_
    rintro _ _ - rfl
    have hnode := hv i (by omega) (by omega)
    have h := @ih { s with region := fun i => s.region (i + 1) } ht hG hl (i + 1)
      (⟨d.drop i, d.length + 1 - i, labelOffset off d i⟩ :: vine) (by omega) ?_ ?_
    · rw [labelOffset_succ hlt, ← tail_drop, show d.length + 1 - (i + 1) =
        d.length + 1 - i - 1 by omega] at h
      exact h
    · refine ⟨by rw [length_key]; omega, ?_, (show d.length + 1 - i = _ by omega), ?_⟩
      · rw [key_drop, show d.length - (i + 1) + 1 = d.length - i by omega]
      · rwa [show d.length - (i + 1) + 1 = d.length - i by omega]
    · exact forall_mem_cons.2 ⟨hnode, hGv⟩

theorem LookupSpec.length_take (hl : LookupSpec s.tree d p insertpt j) :
    ((key d).take j).length = j := by
  rw [List.length_take, length_key, Nat.min_eq_left hl.le]

theorem LookupSpec.labs_eq (hl : LookupSpec s.tree d (q :: p) insertpt j) :
    q.labs = j + 1 ∧ 0 < j := by
  obtain ⟨hne, -, hlabs, -⟩ := hl.chain
  rw [hl.length_take] at hlabs
  refine ⟨hlabs, Nat.pos_of_ne_zero fun h => hne ?_⟩
  rw [h, take_zero]

theorem LookupSpec.eq_zero (hl : LookupSpec s.tree d [] insertpt j) : j = 0 := by
  have h := hl.chain
  rw [← hl.length_take, h, length_nil]

theorem LookupSpec.uplabs_eq (hl : LookupSpec s.tree d p insertpt j) :
    uplabsOf (dnameCountLabels d) p = d.length - j := by
  cases p with
  | nil =>
    rw [hl.eq_zero]
    rfl
  | cons q ps =>
    rw [uplabsOf, hl.labs_eq.1, dnameCountLabels]
    omega

theorem compressTreeStore_spec (ht : TreeOk s.tree) (hG : s.tree.All G)
    (hl : LookupSpec s.tree d p insertpt j) (hv : ∀ i < d.length - j, labelOffset off d i ≤ 0x3fff →
      G ⟨d.drop i, d.length + 1 - i, labelOffset off d i⟩) :
    Prog.Spec Grow (compressTreeStore d (dnameCountLabels d) off p insertpt) s fun _ t =>
      TreeOk t.tree ∧ t.tree.All G ∧ ∃ region, t = { s with tree := t.tree, region := region } := by
  unfold compressTreeStore
  rw [hl.uplabs_eq]
  exact compressTreeStoreLoop_spec (i := 0) ht hG hl hv (by omega) (by simp [VineOk]) nofun

end store

section write
variable {H : Nat → Prop} {s t : EncState} {d : Name} {u off next : Nat}

section
variable (hl : LiteralAt H s off d u next) (hd : ValidName d) (hu : u ≤ d.length)
include hl hd hu

theorem LiteralAt.tail {i : Nat} (hi : i ≤ u) : ∃ m hops, lowerName m = lowerName (d.drop i) ∧
      hops + (u - i) ≤ m.length + 1 ∧
      NameAt (frozen H s) s.pkt.data (labelOffset off d i) m hops next := by
  obtain ⟨hlab, -, m, hops, hm, hh, hn⟩ := hl
  have hsplit : d.take u = d.take i ++ (d.take u).drop i := by
    have h := (take_append_drop i (d.take u)).symm
    rwa [take_take, Nat.min_eq_left hi] at h
  have hdrop : d.drop i = (d.take u).drop i ++ d.drop u := by
    conv => lhs; rw [← take_append_drop u d]
    rw [drop_append_of_le_length]
    rw [length_take]
    omega
  rw [hsplit, wireLabels_append, holds_append] at hlab
  rw [hsplit, wireLabels_append, length_append, ← Nat.add_assoc] at hn
  refine ⟨(d.take u).drop i ++ m, hops, ?_, ?_, NameAt.labels ?_ hlab.2 hn⟩
  · rw [hdrop, lowerName, map_append, lowerName, map_append]
    exact congrArg _ hm
  · rw [length_append, length_drop, length_take]
    omega
  · intro l hl
    exact hd.labels l (mem_of_mem_take (mem_of_mem_drop hl))

theorem LiteralAt.node (labs : Nat) (hi : i < u) (ho : labelOffset off d i ≤ 0x3fff) :
    NodeAt H s ⟨d.drop i, labs, labelOffset off d i⟩ := by
  obtain ⟨m, hops, hm, hh, hn⟩ := hl.tail hd hu (le_of_lt hi)
  exact ⟨ho, m, hops, next, hm, by omega, hn⟩

theorem LiteralAt.shrink (hi : i ≤ u) : LiteralAt H s off d i next := by
  obtain ⟨m, hops, hm, hh, hn⟩ := hl.tail hd hu hi
  refine ⟨?_, hd.drop i, m, hops, hm, by omega, hn⟩
  have h := hl.1
  rw [← take_append_drop i (d.take u), wireLabels_append, holds_append, take_take,
    Nat.min_eq_left hi] at h
  exact h.1

theorem LiteralAt.nameEnd : NameEnd H s off d next := by
  have h := (hl.shrink hd hu (Nat.zero_le u)).2
  rwa [take_zero, drop_zero] at h

end

/-- A name was written at the position of `s`: `u` labels, then a pointer or the root. -/
structure Wrote (H : Nat → Prop) (s t : EncState) (d : Name) (u : Nat) : Prop where
  tree : t.tree = s.tree
  names : t.names = s.names
  literal : LiteralAt H t s.pkt.position d u t.pkt.position

theorem copyLabels_spec (hk : k ≤ d.length) :
    Prog.Spec Grow (copyLabels k d) s
      fun _ t => t = { s with pkt := s.pkt.write (wireLabels (d.take k)) } := by
  induction k generalizing s d with
  | zero =>
    refine spec_pure ?_
    simp [wireLabels]
  | succ k ih =>
    cases d with
    | nil => simp at hk
    | cons l d =>
      refine spec_bind_need fun _ => ?_
      refine spec_bind spec_emit ?_
      rintro _ _ - rfl
      refine (ih (by simpa using hk)).mono ?_
      rintro _ _ - rfl
      simp only [lablen, headD_cons, take_succ_cons, wireLabels, tail_cons, Sbuffer.write_append]

theorem TreeInv.holds_write (hi : TreeInv H s) {bytes : List UInt8}
    (hp : t.pkt = s.pkt.write bytes) : Holds (frozen H t) t.pkt.data s.pkt.position bytes := by
  rw [hp]
  refine Sbuffer.holds_write fun i h1 h2 => ⟨hi.start.trans h1, ?_, fun hH => ?_⟩
  · rw [hp]
    exact h2
  · exact absurd (hi.hole i hH) (by omega)

theorem preserves_write (hp : t.pkt = s.pkt.write bytes) : Preserves H H s t := by
  intro i h
  refine ⟨⟨h.1, ?_, h.2.2⟩, ?_⟩
  · rw [hp, Sbuffer.position_write]
    exact lt_of_lt_of_le h.2.1 (Nat.le_add_right _ _)
  · rw [hp]
    exact Sbuffer.data_write_of_lt h.2.1

theorem writeCompressedDname_spec (hi : TreeInv H s) (hd : ValidName d)
    (hl : LookupSpec s.tree d (q :: p) insertpt j) :
    Prog.Spec Grow (writeCompressedDname d (dnameCountLabels d) q) s
      fun _ t => Wrote H s t d (d.length - j) := by
  obtain ⟨hlabs, hj⟩ := hl.labs_eq
  have hle := hl.le
  have hq : NodeAt H s q := hl.all _ hi.nodes q mem_cons_self
  have hname : lowerName q.dname = lowerName (d.drop (d.length - j)) := by
    rw [← key_injective_iff, hl.chain.2.1, key_drop, Nat.sub_sub_self hle]
  unfold writeCompressedDname
  rw [if_neg (by unfold dnameCountLabels; omega)]
  apply spec_bind_read
  refine spec_bind (copyLabels_spec (by rw [hlabs, dnameCountLabels]; omega)) ?_
  rintro _ _ - rfl
  refine spec_bind_need fun _ => ?_
  refine spec_bind (spec_recordPtr hq.1 hq.offset_lt) ?_
  rintro _ _ - rfl
  refine spec_emit.mono ?_
  rintro _ t - ht
  rw [hlabs, show dnameCountLabels d - (j + 1) = d.length - j by unfold dnameCountLabels; omega]
    at ht
  have hp : t.pkt = s.pkt.write (wireLabels (d.take (d.length - j)) ++
      u16Bytes (ptrCreate q.offset)) := by
    rw [ht, Sbuffer.write_append]
  obtain ⟨hA, hB⟩ := holds_append.1 (hi.holds_write hp)
  obtain ⟨ho, m, hops, next, hm, hh, hn⟩ := hq
  refine ⟨by rw [ht], by rw [ht], hA, hd.drop _, m, hops + 1, hm.trans hname, by omega, ?_⟩
  have hend : t.pkt.position = s.pkt.position + (wireLabels (d.take (d.length - j))).length + 2 := by
    rw [hp, Sbuffer.position_write, length_append, length_u16Bytes, Nat.add_assoc]
  rw [hend]
  exact .pointer ho hB (hn.mono (preserves_write hp))

theorem literalAt_of_wire (hw : Holds (frozen H t) t.pkt.data off (wire d)) :
    LiteralAt H t off d d.length (off + wireLen d) := by
  rw [wire_eq, holds_append] at hw
  unfold LiteralAt
  rw [take_length, drop_length]
  refine ⟨hw.1, .nil, [], 0, rfl, Nat.zero_le _, ?_⟩
  rw [← length_wireLabels, ← Nat.add_assoc]
  exact .root hw.2.1 hw.2.2.1

theorem wrote_wire (hi : TreeInv H s) (htree : t.tree = s.tree) (hnames : t.names = s.names)
    (hp : t.pkt = s.pkt.write (wire d)) : Wrote H s t d d.length := by
  refine ⟨htree, hnames, ?_⟩
  have h := literalAt_of_wire (hi.holds_write hp)
  rwa [show s.pkt.position + wireLen d = t.pkt.position by
    rw [hp, Sbuffer.position_write, length_wire]] at h

theorem dnameBufferWriteLoop_spec :
    Prog.Spec Grow (dnameBufferWriteLoop d) s
      fun _ t => t = { s with pkt := s.pkt.write (wire d).tail } := by
  induction d generalizing s with
  | nil =>
    refine spec_pure ?_
    simp [wire]
  | cons l d ih =>
    refine spec_bind_need fun _ => ?_
    refine spec_bind spec_emit ?_
    rintro _ _ - rfl
    refine ih.mono ?_
    rintro _ _ - rfl
    have hw : (wire (l :: d)).tail = (l ++ [(lablen d).toUInt8]) ++ (wire d).tail := by
      cases d <;> simp [wire, lablen]
    simp only [hw, Sbuffer.write_append]

theorem dnameBufferWrite_spec :
    Prog.Spec Grow (dnameBufferWrite d) s
      fun _ t => t = { s with pkt := s.pkt.write (wire d) } := by
  refine spec_bind_need fun _ => ?_
  refine spec_bind spec_emit ?_
  rintro _ _ - rfl
  refine dnameBufferWriteLoop_spec.mono ?_
  rintro _ _ - rfl
  have hw : wire d = [(lablen d).toUInt8] ++ (wire d).tail := by
    cases d <;> simp [wire, lablen]
  conv => rhs; rw [hw, Sbuffer.write_append]

variable (hi : TreeInv H s) (hd : ValidName d)
include hi hd

theorem writeAnyDname_spec (hl : LookupSpec s.tree d p insertpt j) :
    Prog.Spec Grow (writeAnyDname d (dnameCountLabels d) p) s
      fun _ t => Wrote H s t d (d.length - j) := by
  cases p with
  | cons q p => exact writeCompressedDname_spec hi hd hl
  | nil =>
    refine dnameBufferWrite_spec.mono ?_
    rintro _ t - rfl
    rw [hl.eq_zero]
    exact wrote_wire hi rfl rfl rfl

theorem compressTreeStore_inv (htree : s.tree = tree) (hl : LookupSpec tree d p insertpt j)
    (hlit : LiteralAt H s off d (d.length - j) next) :
    Prog.Spec Grow (compressTreeStore d (dnameCountLabels d) off p insertpt) s
      fun _ t => TreeInv H t ∧ t.pkt = s.pkt ∧ t.names = s.names := by
  subst htree
  refine (compressTreeStore_spec hi.tree hi.nodes hl fun i h1 h2 =>
    hlit.node hd (Nat.sub_le _ _) _ h1 h2).mono ?_
  rintro _ t hg ⟨htree, hall, region, ht⟩
  have hpkt : t.pkt = s.pkt := by rw [ht]
  refine ⟨⟨hpkt ▸ hi.start, hpkt ▸ hi.hole, htree, ?_⟩, hpkt, by rw [ht]⟩
  exact fun e he n hn => (hall e he n hn).transfer hg.preserves

theorem compressAnyDname_spec :
    Prog.Spec Grow (compressAnyDname d (dnameCountLabels d)) s fun _ t =>
      TreeInv H t ∧ t.names = s.names ++ [(s.pkt.position, d)] ∧
        NameEnd H t s.pkt.position d t.pkt.position := by
  obtain ⟨j, hl⟩ := compressTreeLookup_spec hi.tree
  apply spec_bind_read
  refine spec_bind spec_recordName ?_
  rintro _ s1 h1 rfl
  have hi1 := hi.grow h1 rfl
  apply spec_bind_read
  refine spec_bind (writeAnyDname_spec hi1 hd hl) ?_
  rintro _ w hw ⟨htree, hnames, hlit⟩
  have hi2 := hi1.grow hw htree
  refine (compressTreeStore_inv hi2 hd htree hl hlit).mono ?_
  rintro _ t ht ⟨hi3, hpkt, hn⟩
  refine ⟨hi3, hn.trans hnames, ?_⟩
  rw [hpkt]
  exact (hlit.nameEnd hd (Nat.sub_le _ _)).transfer ht.preserves

end write

/-- Enough labels of the owner name stand uncompressed at `owner_pos`. -/
def OwnerAt (H : Nat → Prop) (s : EncState) (d : Name) (ownerPos : Nat) : Prop :=
  ∃ u next, u ≤ d.length ∧ LiteralAt H s ownerPos d u next ∧
    ∀ p insertpt j, LookupSpec s.tree d p insertpt j → d.length ≤ u + j

/-- A nonzero `owner_ptr` points to the owner name. -/
def OwnerPtrOk (H : Nat → Prop) (s : EncState) (d : Name) (ownerPtr : Nat) : Prop :=
  ownerPtr ≠ 0 → ∃ off, ownerPtr = ptrCreate off ∧ off ≤ 0x3fff ∧ (d ≠ [] → NodeAt H s ⟨d, 0, off⟩)

theorem OwnerAt.grow (h : OwnerAt H s d ownerPos) (hi : TreeInv H s) (hg : Grow s t) :
    OwnerAt H t d ownerPos := by
  obtain ⟨u, next, hu, hlit, hcov⟩ := h
  refine ⟨u, next, hu, hlit.transfer hg.preserves, fun p insertpt j' hl' => ?_⟩
  obtain ⟨j, hl⟩ := compressTreeLookup_spec hi.tree
  exact (hcov _ _ j hl).trans (Nat.add_le_add_left (hl.mono hl' hg.keys) u)

theorem OwnerPtrOk.preserves (h : OwnerPtrOk H s d ownerPtr) (hg : Preserves H H s t) :
    OwnerPtrOk H t d ownerPtr := by
  intro h0
  obtain ⟨off, he, ho, hn⟩ := h h0
  exact ⟨off, he, ho, fun hne => (hn hne).transfer hg⟩

theorem writeFirstOwner_spec {key : PackedRrset} (hi : TreeInv H s)
    (hl : LookupSpec s.tree key.dname p insertpt j) (hpos : ownerPos = s.pkt.position ∨
      ∃ next, LiteralAt H s ownerPos key.dname (key.dname.length - j) next) :
    Prog.Spec Grow (writeFirstOwner key ownerPos (dnameCountLabels key.dname) p) s fun ptr t =>
      Wrote H s t key.dname (key.dname.length - j) ∧ 10 ≤ t.pkt.remaining ∧
        OwnerPtrOk H t key.dname ptr ∧
        ∃ next, LiteralAt H t ownerPos key.dname (key.dname.length - j) next := by
  have hlit : ∀ t, Grow s t → Wrote H s t key.dname (key.dname.length - j) →
      ∃ next, LiteralAt H t ownerPos key.dname (key.dname.length - j) next := by
    intro t hg hw
    rcases hpos with rfl | ⟨next, h⟩
    · exact ⟨_, hw.literal⟩
    · exact ⟨next, h.transfer hg.preserves⟩
  cases p with
  | cons q p =>
    refine spec_bind (writeCompressedDname_spec hi key.dname_ok hl) ?_
    rintro _ t hg hw
    refine spec_bind_need fun hrem => ?_
    refine spec_pure ⟨hw, hrem, ?_, hlit t hg hw⟩
    intro h0
    have hq : NodeAt H s q := hl.all _ hi.nodes q mem_cons_self
    by_cases hlabs : q.labs = dnameCountLabels key.dname
    · rw [if_pos hlabs]
      refine ⟨q.offset, rfl, hq.1, fun _ => ?_⟩
      obtain ⟨ho, m, hops, next, hm, hh, hn⟩ := hq.transfer hg.preserves
      refine ⟨ho, m, hops, next, hm.trans ?_, hh, hn⟩
      have hj : j = key.dname.length := by
        have := hl.labs_eq.1
        rw [hlabs, dnameCountLabels] at this
        omega
      rw [← key_injective_iff, hl.chain.2.1, hj]
      exact take_of_length_le (by simp)
    · exact absurd (if_neg hlabs) h0
  | nil =>
    refine spec_bind_need fun hrem => ?_
    refine spec_bind spec_emit ?_
    rintro _ t hg rfl
    have h0 := hl.eq_zero
    have hw : Wrote H s { s with pkt := s.pkt.write (wire key.dname) } key.dname
        (key.dname.length - j) := by
      rw [h0]
      exact wrote_wire hi rfl rfl rfl
    refine spec_pure ⟨hw, ?_, ?_, hlit _ hg hw⟩
    · rw [Sbuffer.remaining_write, length_wire]
      omega
    · intro hne
      by_cases hle : ownerPos ≤ 0x3fff
      · rw [if_pos hle]
        refine ⟨ownerPos, rfl, hle, fun hd => ?_⟩
        obtain ⟨next, h⟩ := hlit _ hg hw
        have hpos := length_pos_iff.2 hd
        have hn := h.node key.dname_ok (Nat.sub_le _ _) (i := 0) 0 (by omega)
        exact hn hle
      · exact absurd (if_neg hle) hne

theorem writeOwnerPtr_spec {key : PackedRrset} (hi : TreeInv H s)
    (hptr : OwnerPtrOk H s key.dname ownerPtr) (h0 : ownerPtr ≠ 0) (hne : key.dname ≠ []) :
    Prog.Spec Grow (writeOwnerPtr key ownerPtr room) s fun _ t =>
      t.tree = s.tree ∧ t.names = s.names ++ [(s.pkt.position, key.dname)] ∧
        NameEnd H t s.pkt.position key.dname t.pkt.position ∧ room ≤ t.pkt.remaining + 2 := by
  obtain ⟨off, rfl, ho, hnode⟩ := hptr h0
  have hsub : ptrCreate off - 0xc000 = off := by
    rw [ptrCreate_eq ho]
    omega
  apply spec_bind_read
  refine spec_bind spec_recordName ?_
  rintro _ s1 h1 rfl
  refine spec_bind_need fun hrem => ?_
  rw [hsub]
  refine spec_bind (spec_recordPtr ho (hnode hne).offset_lt) ?_
  rintro _ s2 h2 rfl
  refine spec_emit.mono ?_
  rintro _ t hg ht
  have hg' := Grow.trans _ _ _ (Grow.trans _ _ _ h1 h2) hg
  have hp : t.pkt = s.pkt.write (u16Bytes (ptrCreate off)) := by rw [ht]
  have hpos : t.pkt.position = s.pkt.position + 2 := by rw [hp]; rfl
  refine ⟨by rw [ht], by rw [ht], ?_, ?_⟩
  · obtain ⟨-, m, hops, next, hm, hh, hn⟩ := (hnode hne).transfer hg'.preserves
    rw [hpos]
    exact ⟨key.dname_ok, m, hops + 1, hm, by omega, .pointer ho (hi.holds_write hp) hn⟩
  · rw [hp, Sbuffer.remaining_write, length_u16Bytes]
    change room ≤ s.pkt.remaining at hrem
    omega

theorem compressOwner_spec {key : PackedRrset} (hi : TreeInv H s)
    (hpos : ownerPtr = 0 ∧ ownerPos = s.pkt.position ∨ OwnerAt H s key.dname ownerPos)
    (hptr : OwnerPtrOk H s key.dname ownerPtr) :
    Prog.Spec Grow (compressOwner key ownerPos ownerPtr (dnameCountLabels key.dname)) s
      fun ptr t => TreeInv H t ∧ t.names = s.names ++ [(s.pkt.position, key.dname)] ∧
        NameEnd H t s.pkt.position key.dname t.pkt.position ∧ 10 ≤ t.pkt.remaining ∧
        OwnerAt H t key.dname ownerPos ∧ OwnerPtrOk H t key.dname ptr := by
  unfold compressOwner
  by_cases h0 : ownerPtr = 0
  · rw [if_pos h0]
    obtain ⟨j, hl⟩ := compressTreeLookup_spec hi.tree
    apply spec_bind_read
    refine spec_bind spec_recordName ?_
    rintro _ s1 h1 rfl
    have hi1 := hi.grow h1 rfl
    apply spec_bind_read
    have hpos1 : ownerPos = s.pkt.position ∨
        ∃ next, LiteralAt H s ownerPos key.dname (key.dname.length - j) next := by
      rcases hpos with ⟨-, h⟩ | ⟨u, next, hu, hlit, hcov⟩
      · exact .inl h
      · have := hcov _ _ j hl
        exact .inr ⟨next, hlit.shrink key.dname_ok hu (by omega)⟩
    refine spec_bind (writeFirstOwner_spec hi1 hl (hpos1.imp_right
      (Exists.imp fun _ h => h.transfer h1.preserves))) ?_
    rintro ptr w hw ⟨⟨htree, hnames, hend⟩, hrem, hptr', next, hlit⟩
    have hi2 := hi1.grow hw htree
    refine spec_bind (compressTreeStore_inv hi2 key.dname_ok htree hl hlit) ?_
    rintro _ t ht ⟨hi3, hpkt, hn⟩
    refine spec_pure ⟨hi3, hn.trans hnames, ?_, hpkt ▸ hrem, ?_, hptr'.preserves ht.preserves⟩
    · rw [hpkt]
      exact (hend.nameEnd key.dname_ok (Nat.sub_le _ _)).transfer ht.preserves
    · refine ⟨key.dname.length - j, next, Nat.sub_le _ _, hlit.transfer ht.preserves, ?_⟩
      intro p' ins' j' hl'
      have := hl.mono hl' (htree ▸ ht.keys)
      omega
  · rw [if_neg h0]
    have hown := hpos.resolve_left fun h => h0 h.1
    by_cases hroot : dnameCountLabels key.dname = 1
    · rw [if_pos hroot]
      have hd : key.dname = [] :=
        eq_nil_of_length_eq_zero (by unfold dnameCountLabels at hroot; omega)
      apply spec_bind_read
      refine spec_bind spec_recordName ?_
      rintro _ s1 h1 rfl
      refine spec_bind_need fun hrem => ?_
      refine spec_bind spec_emit ?_
      rintro _ t hg rfl
      have hg' := Grow.trans _ _ _ h1 hg
      refine spec_pure ⟨hi.grow hg' rfl, rfl, ?_, ?_, hown.grow hi hg', hptr.preserves hg'.preserves⟩
      · have hw := hi.holds_write (t := { s with
          names := s.names ++ [(s.pkt.position, key.dname)], pkt := s.pkt.write [0] }) rfl
        rw [hd]
        exact ⟨.nil, [], 0, rfl, Nat.zero_le _, .root hw.1 hw.2.1⟩
      · rw [Sbuffer.remaining_write, length_singleton]
        omega
    · rw [if_neg hroot]
      have hne : key.dname ≠ [] := by
        intro h
        rw [h] at hroot
        exact hroot rfl
      refine spec_bind (writeOwnerPtr_spec hi hptr h0 hne) ?_
      rintro _ t hg ⟨htree, hnames, hn, hrem⟩
      exact spec_pure ⟨hi.grow hg htree, hnames, hn, by omega, hown.grow hi hg,
        hptr.preserves hg.preserves⟩

/-- The pieces of an rdata, names up to letter case, stand from `pos` to `stop`. -/
inductive FieldsAt (H : Nat → Prop) (s : EncState) : Nat → List RdField → Nat → Prop
  | nil {pos : Nat} : FieldsAt H s pos [] pos
  | raw {pos stop : Nat} {bytes : List UInt8} {fields : List RdField} :
      Holds (frozen H s) s.pkt.data pos bytes → FieldsAt H s (pos + bytes.length) fields stop →
      FieldsAt H s pos (.raw bytes :: fields) stop
  | dname {pos next stop : Nat} {n : Name} {fields : List RdField} :
      NameEnd H s pos n next → FieldsAt H s next fields stop →
      FieldsAt H s pos (.dname n :: fields) stop

def noHole : Nat → Prop := fun _ => False

/-- A resource record as it is meant to appear in a packet. -/
structure Record where
  owner : Name
  type : UInt16
  rclass : UInt16
  ttl : Nat
  rdata : List RdField
  deriving DecidableEq

/-- A record, names up to letter case, stands from `pos` to `stop`. -/
def RecordAt (s : EncState) (pos : Nat) (r : Record) (stop : Nat) : Prop :=
  ∃ next, NameEnd noHole s pos r.owner next ∧
    Holds (frozen noHole s) s.pkt.data next
      (rrHead r.type r.rclass r.ttl ++ u16Bytes (stop - next - 10)) ∧
    next + 10 ≤ stop ∧ FieldsAt noHole s (next + 10) r.rdata stop

/-- Records stand one behind the other from `pos` to `stop`. -/
inductive RecordsAt (s : EncState) : Nat → List Record → Nat → Prop
  | nil {pos : Nat} : RecordsAt s pos [] pos
  | cons {pos next stop : Nat} {r : Record} {rs : List Record} :
      RecordAt s pos r next → RecordsAt s next rs stop → RecordsAt s pos (r :: rs) stop

section transfer
variable {H : Nat → Prop} {s : EncState} {pos stop : Nat}

theorem FieldsAt.transfer (h : Preserves H H' s t)
    (hf : FieldsAt H s pos fields stop) : FieldsAt H' t pos fields stop := by
  induction hf with
  | nil => exact .nil
  | raw hb _ ih => exact .raw (hb.mono h) ih
  | dname hn _ ih => exact .dname (hn.transfer h) ih

theorem FieldsAt.append {fields fields' : List RdField} (h : FieldsAt H s pos fields mid)
    (h' : FieldsAt H s mid fields' stop) : FieldsAt H s pos (fields ++ fields') stop := by
  induction h with
  | nil => exact h'
  | raw hb _ ih => exact .raw hb (ih h')
  | dname hn _ ih => exact .dname hn (ih h')

theorem RecordAt.transfer (h : Preserves noHole noHole s t) (hr : RecordAt s pos r stop) :
    RecordAt t pos r stop := by
  obtain ⟨next, hn, hh, hle, hf⟩ := hr
  exact ⟨next, hn.transfer h, hh.mono h, hle, hf.transfer h⟩

theorem RecordsAt.transfer (h : Preserves noHole noHole s t) (hr : RecordsAt s pos rs stop) :
    RecordsAt t pos rs stop := by
  induction hr with
  | nil => exact .nil
  | cons hr _ ih => exact .cons (hr.transfer h) ih

theorem RecordsAt.append (h : RecordsAt s pos rs mid) (h' : RecordsAt s mid rs' stop) :
    RecordsAt s pos (rs ++ rs') stop := by
  induction h with
  | nil => exact h'
  | cons hr _ ih => exact .cons hr (ih h')

end transfer

/-- The invariant between two names, with `H` to be filled in later. -/
structure EncInv (H : Nat → Prop) (s : EncState) : Prop extends TreeInv H s where
  names : NamesAt H s

theorem EncInv.emit (hi : EncInv H s) (hg : Grow s t) (htree : t.tree = s.tree)
    (hnames : t.names = s.names) : EncInv H t where
  toTreeInv := hi.toTreeInv.grow hg htree
  names := hi.names.transfer hg.preserves hnames

theorem compressAnyDname_inv (hi : EncInv H s) (hd : ValidName d) :
    Prog.Spec Grow (compressAnyDname d (dnameCountLabels d)) s fun _ t =>
      EncInv H t ∧ NameEnd H t s.pkt.position d t.pkt.position := by
  refine (compressAnyDname_spec hi.toTreeInv hd).mono ?_
  rintro _ t hg ⟨ht, hnames, hn⟩
  exact ⟨⟨ht, hi.names.add hg.preserves hnames hn⟩, hn⟩

theorem sizeSub_eq (h : b ≤ a) (ha : a < 2 ^ 64) : sizeSub a b = a - b := by
  unfold sizeSub
  omega

theorem memBytes_eq (h : len ≤ mem.length) : memBytes len mem = mem.take len := by
  rw [memBytes, Nat.sub_eq_zero_of_le h, replicate_zero, append_nil]

theorem compressRdataLoop_spec {count : Nat} (hi : EncInv H s)
    (hlen : rdata.length < 2 ^ 64) (hf : rdataFields wf count rdata = some fields) :
    Prog.Spec Grow (compressRdataLoop wf count rdata rdata.length) s fun r t =>
      EncInv H t ∧ r.2 = r.1.length ∧ ∃ done, fields = done ++ [.raw r.1] ∧
        FieldsAt H t s.pkt.position done t.pkt.position := by
  induction wf generalizing s count rdata fields with
  | nil =>
    cases hf
    exact spec_pure ⟨hi, rfl, [], rfl, .nil⟩
  | cons rdf wf ih =>
    unfold rdataFields at hf
    unfold compressRdataLoop
    by_cases hstop : rdata = [] ∨ count = 0
    · rw [if_pos hstop] at hf
      cases hf
      rw [if_pos (hstop.imp_left fun h => by rw [h]; rfl)]
      exact spec_pure ⟨hi, rfl, [], rfl, .nil⟩
    rw [if_neg hstop] at hf
    rw [if_neg fun h => hstop (h.imp_left eq_nil_of_length_eq_zero)]
    by_cases hdn : rdf = .dname
    · rw [if_pos hdn] at hf ⊢
      rcases hr : readName rdata with _ | ⟨n, rest⟩
      · rw [hr] at hf
        cases hf
      rw [hr] at hf
      obtain ⟨fields', hf', rfl⟩ := Option.map_eq_some_iff.1 hf
      unfold readName at hr
      dsimp only at hr
      split at hr
      · rename_i hv
        obtain ⟨rfl, rfl⟩ := hr
        have hle : wireLen (nameAt rdata) ≤ rdata.length := by
          have h := congrArg length hv.2
          rw [length_take, length_wire] at h
          omega
        refine spec_bind (compressAnyDname_inv hi hv.1) ?_
        rintro _ t hg ⟨hi', hn⟩
        rw [sizeSub_eq hle hlen, ← length_drop]
        refine (ih hi' (by rw [length_drop]; omega) hf').mono ?_
        rintro r u hg' ⟨hu, hr2, done, rfl, hdone⟩
        exact ⟨hu, hr2, .dname _ :: done, rfl, .dname (hn.transfer hg'.preserves) hdone⟩
      · cases hr
    · rw [if_neg hdn] at hf ⊢
      by_cases hle : rdata.length < rdfLen rdf (peek rdata)
      · rw [if_pos hle] at hf
        cases hf
      rw [if_neg hle] at hf
      obtain ⟨fields', hf', rfl⟩ := Option.map_eq_some_iff.1 hf
      refine spec_bind_need fun _ => ?_
      rw [memBytes_eq (by omega)]
      refine spec_bind spec_emit ?_
      rintro _ t hg rfl
      rw [sizeSub_eq (by omega) hlen, ← length_drop]
      refine (ih (hi.emit hg rfl rfl) (by rw [length_drop]; omega) hf').mono ?_
      rintro r u hg' ⟨hu, hr2, done, rfl, hdone⟩
      refine ⟨hu, hr2, .raw (rdata.take (rdfLen rdf (peek rdata))) :: done, rfl, .raw ?_ hdone⟩
      exact (hi.toTreeInv.holds_write rfl).mono hg'.preserves

def writtenFields (c : Option RrDescriptor) (data : List UInt8) : List RdField :=
  match c with
  | some desc => (rdataFields desc.wireformat desc.dnameCount (data.drop 2)).getD []
  | none => [.raw (data.drop 2)]

/-- Rdata with its length in front stands from `pos` to `stop`. -/
def RdataAt (s : EncState) (pos : Nat) (fields : List RdField) (stop : Nat) : Prop :=
  pos + 2 ≤ stop ∧ Holds (frozen noHole s) s.pkt.data pos (u16Bytes (stop - pos - 2)) ∧
    FieldsAt noHole s (pos + 2) fields stop

section
variable (hi : EncInv noHole s) (hd : RdataOk desc data)
include hi hd

theorem compressRdataBody_spec (hc : desc.compress = true) :
    Prog.Spec Grow (compressRdataBody data data.length desc) s fun _ t =>
      EncInv (fun i => s.pkt.position ≤ i ∧ i < s.pkt.position + 2) t ∧
        s.pkt.position + 2 ≤ t.pkt.position ∧
        FieldsAt (fun i => s.pkt.position ≤ i ∧ i < s.pkt.position + 2) t (s.pkt.position + 2)
          (writtenFields (some desc) data) t.pkt.position := by
  obtain ⟨fields, hf⟩ := Option.isSome_iff_exists.1 (hd.fields hc)
  have hge := hd.len_ge
  have hlt := hd.len_lt
  refine spec_bind (spec_skip 2) ?_
  rintro _ s1 h1 rfl
  have hpre : Preserves noHole (fun i => s.pkt.position ≤ i ∧ i < s.pkt.position + 2) s
      { s with pkt := s.pkt.skip 2 } := fun i h =>
    ⟨⟨h.1, lt_of_lt_of_le h.2.1 (Nat.le_add_right _ _), fun hH => absurd h.2.1 (by omega)⟩, rfl⟩
  have hi1 : EncInv (fun i => s.pkt.position ≤ i ∧ i < s.pkt.position + 2)
      { s with pkt := s.pkt.skip 2 } :=
    ⟨hi.transfer hpre (Nat.le_add_right _ _) (fun i h => h.2) rfl, hi.names.transfer hpre rfl⟩
  rw [sizeSub_eq hge (by omega), ← length_drop]
  refine spec_bind (compressRdataLoop_spec hi1 (by rw [length_drop]; omega) hf) ?_
  rintro r t2 h2 ⟨hi2, hr, done, hfields, hdone⟩
  refine spec_bind_need fun _ => ?_
  rw [memBytes_eq (by omega), hr, take_length]
  refine spec_emit.mono ?_
  rintro _ t3 h3 rfl
  refine ⟨hi2.emit h3 rfl rfl, h2.position.trans h3.position, ?_⟩
  rw [writtenFields, hf, Option.getD_some, hfields]
  exact (hdone.transfer h3.preserves).append (.raw (hi2.toTreeInv.holds_write rfl) .nil)

theorem compressRdata_spec (hc : desc.compress = true) :
    Prog.Spec Grow (compressRdata data data.length desc) s fun _ t =>
      EncInv noHole t ∧ RdataAt t s.pkt.position (writtenFields (some desc) data) t.pkt.position := by
  refine Prog.Spec.bind_update (compressRdataBody_spec hi hd hc) ?_
  rintro _ t hg ⟨hit, hle, hf⟩
  have hpre : Preserves (fun i => s.pkt.position ≤ i ∧ i < s.pkt.position + 2) noHole t
      { t with
        pkt := t.pkt.writeAt s.pkt.position (u16Bytes (t.pkt.position - s.pkt.position - 2)) } := by
    intro i h
    refine ⟨⟨h.1, h.2.1, id⟩, ?_⟩
    rcases Nat.lt_or_ge i s.pkt.position with hlt | hge
    · exact blit_of_lt _ hlt
    · exact blit_of_ge _ (le_of_not_gt fun hlt => h.2.2 ⟨hge, hlt⟩)
  refine ⟨⟨⟨hg.limit, hg.position, fun i h => (blit_of_lt _ h).trans (hg.data i h), hg.names,
    hg.ptrs⟩, hg.keys, hg.counts⟩, ⟨hit.transfer hpre le_rfl (fun _ h => h.elim) rfl,
    hit.names.transfer hpre rfl⟩, hle, ?_, hf.transfer hpre⟩
  exact holds_blit fun i h1 h2 => ⟨hi.start.trans h1, lt_of_lt_of_le h2 hle, id⟩

theorem rdataAt_write (hp : t.pkt = s.pkt.write data) :
    RdataAt t s.pkt.position [.raw (data.drop 2)] t.pkt.position := by
  have hge := hd.len_ge
  have hpos : t.pkt.position = s.pkt.position + 2 + (data.drop 2).length := by
    rw [hp, Sbuffer.position_write, length_drop]
    omega
  have hw := hi.toTreeInv.holds_write hp
  have hsplit : data = u16Bytes (data.length - 2) ++ data.drop 2 := by
    rw [← hd.rdlength, take_append_drop]
  rw [hsplit, holds_append, length_u16Bytes] at hw
  refine ⟨by omega, ?_, ?_⟩
  · rw [hpos, length_drop, show s.pkt.position + 2 + (data.length - 2) - s.pkt.position - 2 =
      data.length - 2 by omega]
    exact hw.1
  · rw [hpos]
    exact .raw hw.2 .nil

end

theorem encodeRdata_spec {key : PackedRrset} (hi : EncInv noHole s)
    (hd : RdataOk (sldnsRrDescript key.type) data) :
    Prog.Spec Grow (encodeRdata (typeRdataCompressable key) data) s fun _ t =>
      EncInv noHole t ∧
        RdataAt t s.pkt.position (writtenFields (typeRdataCompressable key) data) t.pkt.position := by
  unfold typeRdataCompressable encodeRdata
  by_cases hc : (sldnsRrDescript key.type).compress = true
  · simp only [hc, ↓reduceIte]
    exact compressRdata_spec hi hd hc
  · simp only [hc, Bool.false_eq_true, ↓reduceIte]
    refine spec_bind_need fun _ => ?_
    refine spec_emit.mono ?_
    rintro _ t hg rfl
    exact ⟨hi.emit hg rfl rfl, rdataAt_write hi hd rfl⟩

def dataRecord (cfg : EncodeConfig) (key : PackedRrset) (adjust : Int) (rr : PackedRr) : Record :=
  ⟨key.dname, key.type, key.rrsetClass, replyTtl cfg adjust rr.ttl,
    writtenFields (typeRdataCompressable key) rr.data⟩

def sigRecord (cfg : EncodeConfig) (key : PackedRrset) (adjust : Int) (rr : PackedRr) : Record :=
  ⟨key.dname, 46, key.rrsetClass, replyTtl cfg adjust rr.ttl, [.raw (rr.data.drop 2)]⟩

section record
variable {key : PackedRrset}

theorem length_rrHead : (rrHead type rclass ttl).length = 8 :=
  rfl

variable (hi : EncInv noHole s)
include hi

theorem RecordAt.of_parts (hn : NameEnd noHole s pos r.owner s.pkt.position)
    (ht : t.pkt = s.pkt.write (rrHead r.type r.rclass r.ttl)) (hu : Advance t u)
    (hr : RdataAt u t.pkt.position r.rdata u.pkt.position) : RecordAt u pos r u.pkt.position := by
  have hpos : t.pkt.position = s.pkt.position + 8 := by
    rw [ht, Sbuffer.position_write, length_rrHead]
  obtain ⟨hle, hlen, hf⟩ := hr
  rw [hpos] at hle hlen hf
  refine ⟨s.pkt.position, (hn.transfer (preserves_write ht)).transfer hu.preserves, ?_, hle, hf⟩
  rw [holds_append, length_rrHead]
  refine ⟨(hi.toTreeInv.holds_write ht).mono hu.preserves, ?_⟩
  rwa [show u.pkt.position - s.pkt.position - 10 = u.pkt.position - (s.pkt.position + 8) - 2
    by omega]

theorem encodeData_spec {rrs : List PackedRr}
    (hrrs : ∀ rr ∈ rrs, RdataOk (sldnsRrDescript key.type) rr.data)
    (hpos : ownerPtr = 0 ∧ ownerPos = s.pkt.position ∨ OwnerAt noHole s key.dname ownerPos)
    (hptr : OwnerPtrOk noHole s key.dname ownerPtr) :
    Prog.Spec Grow (encodeData cfg key adjust ownerPos rrs ownerPtr) s fun ptr t =>
      EncInv noHole t ∧ OwnerPtrOk noHole t key.dname ptr ∧
        RecordsAt t s.pkt.position (rrs.map (dataRecord cfg key adjust)) t.pkt.position := by
  induction rrs generalizing s ownerPtr with
  | nil => exact spec_pure ⟨hi, hptr, .nil⟩
  | cons rr rrs ih =>
    refine spec_bind (compressOwner_spec hi.toTreeInv hpos hptr) ?_
    rintro ptr t1 h1 ⟨ht1, hnames, hn, -, hown1, hptr1⟩
    have hi1 : EncInv noHole t1 := ⟨ht1, hi.names.add h1.preserves hnames hn⟩
    refine spec_bind spec_emit ?_
    rintro _ t2 h2 rfl
    have hi2 := hi1.emit h2 rfl rfl
    refine spec_bind (encodeRdata_spec hi2 (hrrs rr mem_cons_self)) ?_
    rintro _ t3 h3 ⟨hi3, hr⟩
    have h13 := Grow.trans _ _ _ h2 h3
    refine (ih hi3 (forall_mem_cons.1 hrrs).2
      (.inr (hown1.grow ht1 h13)) (hptr1.preserves h13.preserves)).mono ?_
    rintro ptr' t4 h4 ⟨hi4, hptr4, hrest⟩
    have hrec : RecordAt t3 s.pkt.position (dataRecord cfg key adjust rr) t3.pkt.position :=
      .of_parts hi1 hn rfl h3.toAdvance hr
    exact ⟨hi4, hptr4, .cons (hrec.transfer h4.preserves) hrest⟩

theorem encodeSigOwner_spec (hptr : OwnerPtrOk noHole s key.dname ownerPtr) :
    Prog.Spec Grow (encodeSigOwner key ownerPtr len) s fun _ t =>
      EncInv noHole t ∧ NameEnd noHole t s.pkt.position key.dname t.pkt.position := by
  unfold encodeSigOwner
  split
  · rename_i h
    have hne : key.dname ≠ [] := by
      intro h'
      rw [h'] at h
      exact h.2 rfl
    refine (writeOwnerPtr_spec hi.toTreeInv hptr h.1 hne).mono ?_
    rintro _ t hg ⟨htree, hnames, hn, -⟩
    exact ⟨⟨hi.transfer hg.preserves hg.position (fun _ h => h.elim) htree,
      hi.names.add hg.preserves hnames hn⟩, hn⟩
  · refine spec_bind (compressAnyDname_inv hi key.dname_ok) ?_
    rintro _ t hg ⟨hit, hn⟩
    refine spec_need.mono ?_
    rintro _ _ - ⟨-, rfl⟩
    exact ⟨hit, hn⟩

theorem encodeSig_spec (hptr : OwnerPtrOk noHole s key.dname ownerPtr)
    (hrr : RdataOk (sldnsRrDescript 46) rr.data) :
    Prog.Spec Grow (encodeSig cfg key adjust ownerPtr rr) s fun _ t =>
      EncInv noHole t ∧ RecordAt t s.pkt.position (sigRecord cfg key adjust rr) t.pkt.position := by
  refine spec_bind (encodeSigOwner_spec hi hptr) ?_
  rintro _ t1 h1 ⟨hi1, hn⟩
  refine spec_bind spec_emit ?_
  rintro _ t2 h2 rfl
  have hi2 := hi1.emit h2 rfl rfl
  refine spec_emit.mono ?_
  rintro _ t3 h3 rfl
  exact ⟨hi2.emit h3 rfl rfl, .of_parts hi1 hn rfl h3.toAdvance (rdataAt_write hi2 hrr rfl)⟩

end record

/-- What `insert_section` writes whole or not at all: the data of an RRset, its signatures, or
both. -/
structure RrsetUnit where
  key : PackedRrset
  doData : Bool
  doSig : Bool
  dnssec : Bool

/-- The arguments that `insert_section` passes on unchanged. -/
structure SectionArgs where
  cfg : EncodeConfig
  timenow : Int
  sect : Section
  qtype : UInt16
  rrOffset : Nat

def sectionUnits (sect : Section) (qtype : UInt16) (dnssec : Bool) (rrsets : List PackedRrset) :
    List RrsetUnit :=
  if sect ≠ .additional then
    rrsets.map fun k => ⟨k, true, true, if sect = .answer ∧ qtype = 255 then true else dnssec⟩
  else rrsets.map (fun k => ⟨k, true, false, dnssec⟩) ++
    (if dnssec then rrsets else []).map fun k => ⟨k, false, true, dnssec⟩

def encodeUnit (a : SectionArgs) (u : RrsetUnit) : Enc Unit :=
  trimOnError (packedRrsetEncode a.cfg a.timenow u.doData u.doSig a.sect a.qtype u.dnssec
    a.rrOffset u.key)

theorem insertSection_eq :
    insertSection a.cfg rrsets a.timenow a.sect a.qtype dnssec a.rrOffset =
      Prog.each (encodeUnit a) (sectionUnits a.sect a.qtype dnssec rrsets) := by
  unfold insertSection sectionUnits
  split
  · rw [Prog.each_map]
    rfl
  · rw [Prog.each_append, Prog.each_map, Prog.each_map]
    rfl

def unitRecords (a : SectionArgs) (u : RrsetUnit) : List Record :=
  if !rrsetBelongsInReply a.sect u.key.type a.qtype u.dnssec then []
  else
    let adjust := ttlAdjust a.cfg u.key a.timenow
    (if u.doData then roundRobin u.key.rrs a.rrOffset else []).map (dataRecord a.cfg u.key adjust) ++
      (if u.doSig && u.dnssec then u.key.rrsigs else []).map (sigRecord a.cfg u.key adjust)

def bump (sect : Section) (n : Nat) (c : Section → UInt16) (sect' : Section) : UInt16 :=
  if sect' = sect then c sect' + n.toUInt16 else c sect'

theorem bump_bump : bump sect n (bump sect m c) = bump sect (m + n) c := by
  funext sect'
  unfold bump
  split
  · simp [UInt16.add_assoc]
  · rfl

theorem bump_zero : bump sect 0 c = c := by
  funext sect'
  simp [bump]

theorem mem_roundRobin (h : rr ∈ roundRobin rrs off) : rr ∈ rrs := by
  obtain ⟨i, hi, rfl⟩ := mem_map.1 h
  have hpos : 0 < rrs.length := Nat.zero_lt_of_lt (mem_range.1 hi)
  have hlt := Nat.mod_lt ((i + off) % 2 ^ 64) hpos
  rw [getD_eq_getElem?_getD, getElem?_eq_getElem hlt, Option.getD_some]
  exact getElem_mem hlt

section unit
variable {a : SectionArgs} {u : RrsetUnit} {s t : EncState}

theorem Advance.of_counts {f : EncState → EncState} (h : (f s).pkt = s.pkt)
    (hn : (f s).names = s.names) (hp : (f s).ptrs = s.ptrs) : Advance s (f s) where
  limit := by rw [h]
  position := by rw [h]
  data _ _ := by rw [h]
  names := ⟨[], by simp [hn], nofun⟩
  ptrs := ⟨[], by simp [hp], nofun⟩

theorem addCount_spec (sect : Section) (n : Nat) :
    Prog.Spec Advance (addCount sect n) s fun _ t => t.counts = bump sect n s.counts ∧
      t.pkt = s.pkt ∧ t.tree = s.tree ∧ t.names = s.names := by
  refine (Prog.Spec.update ?_).mono ?_
  · cases sect <;> exact Advance.of_counts (f := fun _ => _) rfl rfl rfl
  · rintro _ _ - rfl
    refine ⟨funext fun sect' => ?_, ?_⟩
    · cases sect <;> cases sect' <;> rfl
    · cases sect <;> exact ⟨rfl, rfl, rfl⟩

def RrsetUnit.rrs (u : RrsetUnit) (a : SectionArgs) : List PackedRr :=
  if u.doData then roundRobin u.key.rrs a.rrOffset else []

def RrsetUnit.rrsigs (u : RrsetUnit) : List PackedRr :=
  if u.doSig && u.dnssec then u.key.rrsigs else []

theorem encodeRrset_spec (cfg : EncodeConfig) {key : PackedRrset} (adjust : Int)
    {rrs rrsigs : List PackedRr} (hi : EncInv noHole s)
    (hrrs : ∀ rr ∈ rrs, RdataOk (sldnsRrDescript key.type) rr.data)
    (hsigs : ∀ rr ∈ rrsigs, RdataOk (sldnsRrDescript 46) rr.data) :
    Prog.Spec Grow (encodeRrset cfg key adjust rrs rrsigs) s fun _ t =>
      EncInv noHole t ∧ RecordsAt t s.pkt.position
        (rrs.map (dataRecord cfg key adjust) ++ rrsigs.map (sigRecord cfg key adjust))
        t.pkt.position := by
  apply spec_bind_read
  refine spec_bind (encodeData_spec hi hrrs (.inl ⟨rfl, rfl⟩) fun h => absurd rfl h) ?_
  rintro ptr t ht ⟨hit, hptr, hrec⟩
  refine (Prog.Spec.each Grow.refl Grow.trans
    (fun done v => Grow t v ∧ EncInv noHole v ∧
      RecordsAt v t.pkt.position (done.map (sigRecord cfg key adjust)) v.pkt.position)
    [] ⟨Grow.refl t, hit, .nil⟩ ?_).mono ?_
  · rintro done rr v hrr ⟨hg, hiv, hdone⟩
    refine (encodeSig_spec hiv (hptr.preserves hg.preserves) (hsigs rr hrr)).mono ?_
    rintro _ w hw ⟨hiw, hr⟩
    refine ⟨Grow.trans _ _ _ hg hw, hiw, ?_⟩
    rw [map_append]
    exact (hdone.transfer hw.preserves).append (.cons hr .nil)
  · rintro _ v hv ⟨hg, hiv, hdone⟩
    exact ⟨hiv, (hrec.transfer hg.preserves).append hdone⟩

theorem RrsetUnit.rrs_ok (u : RrsetUnit) (a : SectionArgs) :
    ∀ rr ∈ u.rrs a, RdataOk (sldnsRrDescript u.key.type) rr.data := by
  unfold RrsetUnit.rrs
  split
  · exact fun rr hrr => u.key.rrs_ok rr (mem_roundRobin hrr)
  · exact forall_mem_nil _

theorem RrsetUnit.rrsigs_ok (u : RrsetUnit) :
    ∀ rr ∈ u.rrsigs, RdataOk (sldnsRrDescript 46) rr.data := by
  unfold RrsetUnit.rrsigs
  split
  · exact u.key.rrsigs_ok
  · exact forall_mem_nil _

/-- A unit that is written whole: its records stand at the old position and are counted. -/
structure UnitDone (a : SectionArgs) (rs : List Record) (s t : EncState) : Prop where
  advance : Advance s t
  inv : EncInv noHole t
  records : RecordsAt t s.pkt.position rs t.pkt.position
  counts : t.counts = bump a.sect rs.length s.counts

/-- A unit that did not get in: the position is back, nothing is counted. -/
structure UnitLeft (s t : EncState) : Prop where
  advance : Advance s t
  position : t.pkt.position = s.pkt.position
  counts : t.counts = s.counts

theorem UnitDone.refl (hi : EncInv noHole s) : UnitDone a [] s s where
  advance := Advance.refl s
  inv := hi
  records := .nil
  counts := bump_zero.symm

theorem trimOnError_ok (h : trimOnError x s = (.ok v, t)) : x s = (.ok v, t) := by
  unfold trimOnError at h
  split at h
  · cases h
    assumption
  · cases h

theorem trimOnError_error (h : trimOnError x s = (.error e, t)) :
    ∃ w, x s = (.error e, w) ∧ t = { w with pkt := w.pkt.setPosition s.pkt.position } := by
  unfold trimOnError at h
  split at h
  · cases h
  · cases h
    exact ⟨_, ‹_›, rfl⟩

theorem packedRrsetEncode_eq (hb : rrsetBelongsInReply a.sect u.key.type a.qtype u.dnssec = true) :
    packedRrsetEncode a.cfg a.timenow u.doData u.doSig a.sect a.qtype u.dnssec a.rrOffset u.key =
      (encodeRrset a.cfg u.key (ttlAdjust a.cfg u.key a.timenow) (u.rrs a) u.rrsigs >>=
        fun _ => addCount a.sect ((u.rrs a).length + u.rrsigs.length)) := by
  unfold packedRrsetEncode
  rw [hb]
  rfl

theorem unitRecords_eq (hb : rrsetBelongsInReply a.sect u.key.type a.qtype u.dnssec = true) :
    unitRecords a u =
      (u.rrs a).map (dataRecord a.cfg u.key (ttlAdjust a.cfg u.key a.timenow)) ++
        u.rrsigs.map (sigRecord a.cfg u.key (ttlAdjust a.cfg u.key a.timenow)) := by
  rw [unitRecords, hb]
  rfl

theorem encodeUnit_ok (hi : EncInv noHole s) (h : encodeUnit a u s = (.ok x, t)) :
    UnitDone a (unitRecords a u) s t := by
  have h := trimOnError_ok h
  cases hb : rrsetBelongsInReply a.sect u.key.type a.qtype u.dnssec with
  | false =>
    unfold packedRrsetEncode at h
    rw [hb] at h
    cases h
    rw [unitRecords, hb]
    exact UnitDone.refl hi
  | true =>
    rw [packedRrsetEncode_eq hb] at h
    obtain ⟨_, v, h1, h2⟩ := Prog.bind_ok h
    have hspec := encodeRrset_spec a.cfg (ttlAdjust a.cfg u.key a.timenow) hi
      (u.rrs_ok a) u.rrsigs_ok
    obtain ⟨hiv, hrec⟩ := hspec.2 _ _ h1
    have hg : Grow s v := hspec.1.of_run h1
    have hadd := addCount_spec (s := v) a.sect ((u.rrs a).length + u.rrsigs.length)
    obtain ⟨hc, hpkt, htree, hnames⟩ := hadd.2 _ _ h2
    have hv : Advance v t := hadd.1.of_run h2
    refine ⟨Advance.trans _ _ _ hg.toAdvance hv, ?_, ?_, ?_⟩
    · exact ⟨hiv.transfer hv.preserves hv.position (fun _ h => h.elim) htree,
        hiv.names.transfer hv.preserves hnames⟩
    · rw [unitRecords_eq hb, hpkt]
      exact hrec.transfer hv.preserves
    · rw [hc, hg.counts, unitRecords_eq hb, length_append, length_map, length_map]

theorem encodeUnit_error (hi : EncInv noHole s) (h : encodeUnit a u s = (.error e, t)) :
    UnitLeft s t ∧ unitRecords a u ≠ [] := by
  obtain ⟨w, hw, rfl⟩ := trimOnError_error h
  cases hb : rrsetBelongsInReply a.sect u.key.type a.qtype u.dnssec with
  | false =>
    unfold packedRrsetEncode at hw
    rw [hb] at hw
    cases hw
  | true =>
    rw [packedRrsetEncode_eq hb] at hw
    rcases Prog.bind_error hw with h1 | ⟨_, v, -, h2⟩
    · have hspec := encodeRrset_spec a.cfg (ttlAdjust a.cfg u.key a.timenow) hi
        (u.rrs_ok a) u.rrsigs_ok
      have hg : Grow s w := hspec.1.of_run h1
      refine ⟨⟨⟨hg.limit, le_rfl, hg.data, hg.names, hg.ptrs⟩, rfl, hg.counts⟩, ?_⟩
      intro hnil
      rw [unitRecords_eq hb, append_eq_nil_iff, map_eq_nil_iff, map_eq_nil_iff] at hnil
      rw [hnil.1, hnil.2] at h1
      cases h1
    · cases h2

end unit

/-- Recorded names that are still in the packet can be read where they were recorded. -/
def PresentNames (s : EncState) : Prop :=
  ∀ e ∈ s.names, e.1 < s.pkt.position → ∃ next, NameEnd noHole s e.1 e.2 next

/-- `k` units of a section are in the packet; where it stopped early, the next one had records. -/
structure SectionRun (a : SectionArgs) (units : List RrsetUnit) (s t : EncState) (ok : Prop)
    (k : Nat) : Prop where
  advance : Advance s t
  records : RecordsAt t s.pkt.position ((units.take k).flatMap (unitRecords a)) t.pkt.position
  counts : t.counts = bump a.sect ((units.take k).flatMap (unitRecords a)).length s.counts
  present : PresentNames t
  whole : ok → k = units.length ∧ EncInv noHole t
  stopped : ¬ok → ∃ u rest, units.drop k = u :: rest ∧ unitRecords a u ≠ []

section run
variable {a : SectionArgs} {s t : EncState}

theorem EncInv.present (hi : EncInv noHole s) : PresentNames s := fun e he _ => hi.names e he

theorem UnitLeft.present (hi : EncInv noHole s) (h : UnitLeft s t) : PresentNames t := by
  obtain ⟨new, hn, hp⟩ := h.advance.names
  rw [PresentNames, hn, h.position, forall_mem_append]
  exact ⟨fun e he _ => (hi.names e he).imp fun _ hn => hn.transfer h.advance.preserves,
    fun e he hlt => absurd (hp e he) (Nat.not_le.2 hlt)⟩

theorem SectionRun.cons {u : RrsetUnit} {units : List RrsetUnit} {ok : Prop} {k : Nat}
    {v : EncState} (hd : UnitDone a (unitRecords a u) s t)
    (h : SectionRun a units t v ok k) : SectionRun a (u :: units) s v ok (k + 1) where
  advance := Advance.trans _ _ _ hd.advance h.advance
  records := (hd.records.transfer h.advance.preserves).append h.records
  counts := by
    rw [h.counts, hd.counts, bump_bump, take_succ_cons, flatMap_cons, length_append]
  present := h.present
  whole hok := ⟨congrArg (· + 1) (h.whole hok).1, (h.whole hok).2⟩
  stopped hok := h.stopped hok

theorem eachUnit_run (units : List RrsetUnit) (hi : EncInv noHole s) :
    ∃ k, SectionRun a units s (Prog.each (encodeUnit a) units s).2
      (∃ x, (Prog.each (encodeUnit a) units s).1 = .ok x) k := by
  induction units generalizing s with
  | nil =>
    refine ⟨0, Advance.refl s, .nil, bump_zero.symm, hi.present, fun _ => ⟨rfl, hi⟩, ?_⟩
    exact fun h => absurd ⟨(), rfl⟩ h
  | cons u units ih =>
    rcases hu : encodeUnit a u s with ⟨e | x, t⟩
    · have he : Prog.each (encodeUnit a) (u :: units) s = (.error e, t) := Prog.bind_apply_error hu
      obtain ⟨hl, hne⟩ := encodeUnit_error hi hu
      rw [he]
      refine ⟨0, hl.advance, ?_, ?_, hl.present hi, ?_, fun _ => ⟨u, units, rfl, hne⟩⟩
      · rw [hl.position]
        exact .nil
      · exact hl.counts.trans bump_zero.symm
      · rintro ⟨x, hx⟩
        cases hx
    · have he : Prog.each (encodeUnit a) (u :: units) s = Prog.each (encodeUnit a) units t :=
        Prog.bind_apply_ok hu
      have hd := encodeUnit_ok hi hu
      obtain ⟨k, hk⟩ := ih hd.inv
      rw [he]
      exact ⟨k + 1, hk.cons hd⟩

end run

end CwdGate.Encode
